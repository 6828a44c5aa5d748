import Cyberway.DposLib

/-!
# The confirmation window

`confirm_count` holds the confirmations still missing for the blocks above
the proposed irreversible block, oldest first. `generate_next` appends the
count the new block needs, two thirds of the producers plus one, and drops
the oldest count once 1024 blocks are tracked; `set_confirmed` takes one
from the newest counts, and at the first that reaches zero makes that block
the proposed irreversible block and drops it with everything older.

Against a ledger kept by block number, the confirmations each block of the
chain needs and the headers that confirm back to it, entry `i` of the
window is the count still missing for block `block_num - (size - 1 - i)`.
With schedules of at most `max_producers` producers every count stays
between 1 and 84, so the `uint8_t` counters never wrap; the window never
holds more blocks than lie above the proposed irreversible block, and that
block only rises. All of this holds while `block_num` has not wrapped
around in `uint32_t`.
-/

namespace Cyberway.ConfirmWindow

open FlatMap HeaderState BlockHeaderState DposLib

/-- `config::max_producers`. -/
def maxProducers : ℕ := 125

/-- The most confirmations a block can need: two thirds of `max_producers`, plus one. -/
def maxRequiredConfs : ℕ := maxProducers*2/3+1

/-- Counts of missing confirmations: at least one, at most `maxRequiredConfs`. -/
def CountsBounded (l : List UInt8) : Prop := ∀ c ∈ l, 1 ≤ c.toNat ∧ c.toNat ≤ maxRequiredConfs

/-- A schedule of at most `max_producers` producers. -/
def ScheduleBounded (p : ProducerSchedule) : Prop := p.producers.length ≤ maxProducers

/-! ## The confirmations of each block -/

/-- What a chain of headers records of one block for its confirmations: its
number, the confirmations it needs, and how many blocks before it its
header confirms. -/
structure BlockVotes where
  /-- The block's number. -/
  blockNum : ℕ
  /-- The confirmations it needs. -/
  required : ℕ
  /-- The blocks before it that its header confirms. -/
  confirmed : ℕ
  deriving DecidableEq, Repr

/-- The confirmations block `b` received along the chain: one from each
block at or above it whose header confirms back to it. -/
def votesFor (chain : List BlockVotes) (b : ℕ) : ℕ :=
  chain.countP fun v => b ≤ v.blockNum ∧ v.blockNum ≤ b+v.confirmed

/-- The confirmations block `b` needs, as the chain recorded them. -/
def requiredFor (chain : List BlockVotes) (b : ℕ) : ℕ :=
  ((chain.find? fun v => v.blockNum=b).map BlockVotes.required).getD 0

/-- The confirmations block `b` still misses along the chain. -/
def outstanding (chain : List BlockVotes) (b : ℕ) : ℕ := requiredFor chain b-votesFor chain b

theorem votesFor_append (chain : List BlockVotes) (v : BlockVotes) (b : ℕ) :
    votesFor (chain++[v]) b=votesFor chain b+if b ≤ v.blockNum ∧ v.blockNum ≤ b+v.confirmed then 1 else 0 := by
  simp only [votesFor,List.countP_append,List.countP_singleton,decide_eq_true_eq]

theorem votesFor_of_lt {chain : List BlockVotes} {b : ℕ} (h : ∀ v ∈ chain,v.blockNum < b) : votesFor chain b=0 := by
  rw [votesFor,List.countP_eq_zero]
  intro v hv
  have := h v hv
  simp only [decide_eq_true_eq,not_and]
  omega

theorem requiredFor_append_of_ne (chain : List BlockVotes) {v : BlockVotes} {b : ℕ} (hb : v.blockNum≠b) :
    requiredFor (chain++[v]) b=requiredFor chain b := by
  simp only [requiredFor,List.find?_append,List.find?_singleton,decide_eq_true_eq,hb,if_false,Option.or_none]

theorem requiredFor_append_self {chain : List BlockVotes} {v : BlockVotes} (h : ∀ w ∈ chain,w.blockNum < v.blockNum) :
    requiredFor (chain++[v]) v.blockNum=v.required := by
  have hnone : (chain.find? fun w => w.blockNum=v.blockNum)=none := by
    rw [List.find?_eq_none]
    intro w hw
    have := h w hw
    simp only [decide_eq_true_eq]
    omega
  simp only [requiredFor,List.find?_append,hnone,Option.none_or,List.find?_singleton,decide_true,if_true,
    Option.map_some,Option.getD_some]

/-- A window of counts, oldest first, whose entry `i` is `f` of block
`top - (size - 1 - i)`. -/
def Aligned (f : ℕ → ℕ) (top : ℕ) (w : List UInt8) : Prop :=
  ∀ i (hi : i < w.length),w[i].toNat=f (top-(w.length-1-i))

theorem aligned_nil (f : ℕ → ℕ) (top : ℕ) : Aligned f top [] := fun _ hi => absurd hi (Nat.not_lt_zero _)

/-- Only the blocks up to `top` are in the window. -/
theorem Aligned.congr {f f' : ℕ → ℕ} {top : ℕ} {w : List UInt8} (h : Aligned f top w) (hf : ∀ b ≤ top,f b=f' b) :
    Aligned f' top w := fun i hi => (h i hi).trans (hf _ (Nat.sub_le _ _))

theorem Aligned.tail {f : ℕ → ℕ} {top : ℕ} {w : List UInt8} (h : Aligned f top w) : Aligned f top w.tail := by
  intro i hi
  rw [List.length_tail] at hi ⊢
  rw [List.getElem_tail,h (i+1) (by omega)]
  congr 2
  omega

/-- A count appended for the next block. -/
theorem Aligned.append {f g : ℕ → ℕ} {top : ℕ} {w : List UInt8} {x : UInt8} (h : Aligned f top w)
    (hg : ∀ b ≤ top,g b=f b) (hx : x.toNat=g (top+1)) : Aligned g (top+1) (w++[x]) := by
  intro i hi
  rw [List.length_append,List.length_singleton] at hi ⊢
  by_cases hiw : i < w.length
  · rw [List.getElem_append_left hiw,h i hiw,← hg _ (Nat.sub_le _ _)]
    congr 1
    omega
  · have hi' : i=w.length := by omega
    subst hi'
    rw [List.getElem_append_right (Nat.le_refl _)]
    simp only [Nat.sub_self,List.getElem_singleton,hx]
    congr 1
    omega

/-- A count put in front of the window, for the block below it. -/
theorem Aligned.cons {f : ℕ → ℕ} {top : ℕ} {w : List UInt8} {x : UInt8} (h : Aligned f top w)
    (hx : x.toNat=f (top-w.length)) : Aligned f top (x::w) := by
  intro i hi
  cases i with
  | zero =>
    rw [List.getElem_cons_zero,hx,List.length_cons]
    congr 1
  | succ i =>
    rw [List.length_cons] at hi ⊢
    rw [List.getElem_cons_succ,h i (by omega)]
    congr 1
    omega

/-- The counts not visited yet, newest first, put back in front of the
visited ones. -/
theorem aligned_reverse_append {f : ℕ → ℕ} {top : ℕ} :
    ∀ (older visited : List UInt8),(∀ j (hj : j < older.length),older[j].toNat=f (top-visited.length-j)) →
      Aligned f top visited → Aligned f top (older.reverse++visited)
  | [],_,_,hv => hv
  | c::older,visited,hold,hv => by
    rw [List.reverse_cons,List.append_assoc,List.singleton_append]
    refine aligned_reverse_append older (c::visited) (fun j hj => ?_) (hv.cons ?_)
    · have hj' := hold (j+1) (by simp; omega)
      rw [List.getElem_cons_succ] at hj'
      rw [hj',List.length_cons]
      congr 1
      omega
    · have h0 := hold 0 (by simp)
      rwa [List.getElem_cons_zero,Nat.sub_zero] at h0

/-- The loop of `set_confirmed` on an aligned window: the counts it visits,
at most `blocks`, lose one, and so does the function they are aligned with;
the counts it does not visit keep theirs. -/
theorem confirmLoop_aligned (blockNum : UInt32) (top : ℕ) (g h : ℕ → ℕ) :
    ∀ (older visited : List UInt8) (blocks : ℕ),
      (∀ j (hj : j < older.length),older[j].toNat=g (top-visited.length-j) ∧ 1 ≤ older[j].toNat ∧
        h (top-visited.length-j)=if j < blocks then g (top-visited.length-j)-1 else g (top-visited.length-j)) →
      Aligned h top visited → Aligned h top (confirmLoop blockNum older visited blocks).1
  | [],visited,_,_,hv => by
    simpa only [confirmLoop] using hv
  | c::older,visited,0,hold,hv => by
    simp only [confirmLoop]
    refine aligned_reverse_append (c::older) visited (fun j hj => ?_) hv
    obtain ⟨hg,-,hh⟩ := hold j hj
    rw [hh,if_neg (Nat.not_lt_zero j),hg]
  | c::older,visited,blocks+1,hold,hv => by
    simp only [confirmLoop]
    obtain ⟨hg,hc,hh⟩ := hold 0 (by simp)
    simp only [List.getElem_cons_zero,Nat.sub_zero,if_pos (Nat.zero_lt_succ blocks)] at hg hc hh
    split
    · exact hv
    · refine confirmLoop_aligned blockNum top g h older ((c-1)::visited) blocks (fun j hj => ?_) (hv.cons ?_)
      · obtain ⟨hg',hc',hh'⟩ := hold (j+1) (by simp; omega)
        simp only [List.getElem_cons_succ,List.length_cons,Nat.add_lt_add_iff_right] at hg' hc' hh' ⊢
        have e : top-visited.length-(j+1)=top-(visited.length+1)-j := by omega
        rw [e] at hg' hh'
        exact ⟨hg',hc',hh'⟩
      · rw [UInt8.toNat_sub_of_le _ _ (UInt8.le_iff_toNat_le.mpr (by rw [UInt8.toNat_one]; exact hc)),
          UInt8.toNat_one,hg,hh]

/-! ## The bounds and the ledger, one stage at a time -/

/-- What every state reached with bounded schedules keeps. -/
structure ConfirmInv (s : BlockHeaderState) : Prop where
  window_le : s.confirmCount.length ≤ maximumTrackedDposConfirmations
  aligned : s.confirmCount.length+s.dposProposedIrreversibleBlocknum.toNat ≤ s.blockNum.toNat
  counts : CountsBounded s.confirmCount
  active : ScheduleBounded s.activeSchedule
  pending : ScheduleBounded s.pendingSchedule

/-- The count a new block needs, computed through `uint32_t` and stored as
`uint8_t`, is two thirds of the producers plus one. -/
theorem requiredConfs_toNat {n : ℕ} (hn : n ≤ maxProducers) :
    (((n*2/3).toUInt32+1).toUInt8).toNat=n*2/3+1 := by
  have h8 : n*2/3+1 < 2^8 := by unfold maxProducers at hn; omega
  simp only [UInt32.toNat_toUInt8, UInt32.toNat_add, Nat.toUInt32_eq, UInt32.toNat_ofNat', UInt32.toNat_one]
  rw [Nat.mod_eq_of_lt (by omega : n*2/3 < 2^32), Nat.mod_eq_of_lt (by omega : n*2/3+1 < 2^32),
    Nat.mod_eq_of_lt h8]

/-- `generate_next` on the confirmation window: one block on, the needed
count appended, the oldest dropped once the window is full. -/
theorem generateNext_confirm {s r : BlockHeaderState} {t : UInt32} (h : s.generateNext t=some r) :
    r.blockNum=s.blockNum+1 ∧ r.dposProposedIrreversibleBlocknum=s.dposProposedIrreversibleBlocknum ∧
      r.activeSchedule=s.activeSchedule ∧ r.pendingSchedule=s.pendingSchedule ∧
      r.confirmCount=(if s.confirmCount.length < maximumTrackedDposConfirmations then s.confirmCount
        else s.confirmCount.tail)++[((s.activeSchedule.producers.length*2/3).toUInt32+1).toUInt8] := by
  unfold generateNext at h
  simp only [Option.bind_eq_bind,Option.bind_eq_some_iff] at h
  obtain ⟨when,-,prokey,-,h⟩ := h
  simp only [Option.pure_def,Option.some.injEq] at h
  subst h
  refine ⟨rfl,rfl,rfl,rfl,?_⟩
  split <;> rfl

theorem confirmInv_generateNext {s r : BlockHeaderState} {t : UInt32} (hs : ConfirmInv s)
    (hnum : s.blockNum.toNat+1 < 2^32) (h : s.generateNext t=some r) : ConfirmInv r := by
  obtain ⟨hnum',hprop,hact,hpen,hcc⟩ := generateNext_confirm h
  have hreq := requiredConfs_toNat hs.active
  have hwin := hs.window_le
  have hal := hs.aligned
  have hr : r.blockNum.toNat=s.blockNum.toNat+1 := by rw [hnum',toNat_add_one hnum]
  unfold maximumTrackedDposConfirmations at hwin hcc
  refine ⟨?_,?_,?_,hact ▸ hs.active,hpen ▸ hs.pending⟩
  · rw [hcc]
    unfold maximumTrackedDposConfirmations
    split <;> simp only [List.length_append, List.length_tail, List.length_singleton] <;> omega
  · rw [hcc,hr,hprop]
    split <;> simp only [List.length_append, List.length_tail, List.length_singleton] <;> omega
  · rw [hcc]
    intro c hc
    rcases List.mem_append.mp hc with hc | hc
    · split at hc
      · exact hs.counts c hc
      · exact hs.counts c (List.mem_of_mem_tail hc)
    · rw [List.mem_singleton] at hc
      subst hc
      rw [hreq]
      have := hs.active
      unfold ScheduleBounded maxProducers at this
      unfold maxRequiredConfs maxProducers
      omega

/-- `generate_next` keeps the window aligned with what each block misses,
the new block needing its full count: it has no confirmation yet. -/
theorem generateNext_aligned {s r : BlockHeaderState} {t : UInt32} {f g : ℕ → ℕ} (hs : ConfirmInv s)
    (hnum : s.blockNum.toNat+1 < 2^32) (hal : Aligned f s.blockNum.toNat s.confirmCount)
    (hg : ∀ b ≤ s.blockNum.toNat,g b=f b) (hnew : g (s.blockNum.toNat+1)=s.activeSchedule.producers.length*2/3+1)
    (h : s.generateNext t=some r) : Aligned g r.blockNum.toNat r.confirmCount := by
  obtain ⟨hnum',-,-,-,hcc⟩ := generateNext_confirm h
  rw [hcc,hnum',toNat_add_one hnum]
  refine Aligned.append ?_ hg (by rw [requiredConfs_toNat hs.active,hnew])
  split
  · exact hal
  · exact hal.tail

/-- The loop of `set_confirmed` keeps the counts in range: a visited count
is decremented only when it does not reach zero. -/
theorem confirmLoop_bounded (blockNum : UInt32) :
    ∀ (older visited : List UInt8) (blocks : ℕ), CountsBounded older → CountsBounded visited →
      CountsBounded (confirmLoop blockNum older visited blocks).1 := by
  intro older
  induction older with
  | nil =>
    intro visited blocks _ hv
    simpa [confirmLoop] using hv
  | cons c older ih =>
    intro visited blocks ho hv
    cases blocks with
    | zero =>
      simp only [confirmLoop]
      intro x hx
      rcases List.mem_append.mp hx with hx | hx
      · exact ho x (List.mem_reverse.mp hx)
      · exact hv x hx
    | succ blocks =>
      simp only [confirmLoop]
      split
      · exact hv
      · rename_i hne
        have hc := ho c List.mem_cons_self
        refine ih _ blocks (fun x hx => ho x (List.mem_cons_of_mem c hx)) ?_
        intro x hx
        rcases List.mem_cons.mp hx with rfl | hx
        · have hne' : (c-1).toNat≠0 := fun h0 => hne (UInt8.toNat_inj.mp (by simpa using h0))
          rw [UInt8.toNat_sub_of_le _ _ (by simpa [UInt8.le_iff_toNat_le] using hc.1)] at hne' ⊢
          simp only [UInt8.toNat_one] at hne' ⊢
          omega
        · exact hv x hx

/-- The loop of `set_confirmed` keeps or shortens the window. -/
theorem confirmLoop_length_le (blockNum : UInt32) (older : List UInt8) (blocks : ℕ) :
    (confirmLoop blockNum older [] blocks).1.length ≤ older.length := by
  rcases confirmLoop_spec blockNum older [] blocks _ _ rfl with ⟨-,hl⟩ | ⟨d,-,hl,hd⟩
  · simpa using hl.le
  · simp only [List.length_nil, Nat.add_zero] at hd
    omega

/-- `set_confirmed` leaves the window to its loop and the schedules alone. -/
theorem setConfirmed_fields (s : BlockHeaderState) (n : UInt16) :
    (s.setConfirmed n).confirmCount=(confirmLoop s.blockNum s.confirmCount.reverse [] (n.toNat+1)).1 ∧
      (s.setConfirmed n).activeSchedule=s.activeSchedule ∧
      (s.setConfirmed n).pendingSchedule=s.pendingSchedule := by
  simp only [setConfirmed]
  split
  next cc p h => exact ⟨by rw [h],rfl,rfl⟩
  next cc h => exact ⟨by rw [h],rfl,rfl⟩

/-- `set_confirmed` keeps the invariant and does not lower the proposed
irreversible block. -/
theorem confirmInv_setConfirmed {s : BlockHeaderState} (hs : ConfirmInv s) (n : UInt16) :
    ConfirmInv (s.setConfirmed n) ∧
      s.dposProposedIrreversibleBlocknum.toNat ≤ (s.setConfirmed n).dposProposedIrreversibleBlocknum.toNat := by
  obtain ⟨hprop,haligned⟩ := setConfirmed_spec s n hs.aligned
  obtain ⟨hcc,hact,hpen⟩ := setConfirmed_fields s n
  have hcounts := confirmLoop_bounded s.blockNum s.confirmCount.reverse [] (n.toNat+1)
    (fun c hc => hs.counts c (List.mem_reverse.mp hc)) (fun _ h => absurd h List.not_mem_nil)
  have hlen := confirmLoop_length_le s.blockNum s.confirmCount.reverse (n.toNat+1)
  rw [List.length_reverse] at hlen
  refine ⟨⟨?_,haligned,hcc ▸ hcounts,hact ▸ hs.active,hpen ▸ hs.pending⟩,hprop⟩
  rw [hcc]
  exact le_trans hlen hs.window_le

/-- `set_confirmed` on an aligned window: the header confirms its own block
and the `n` before it, and each of those still in the window misses one
confirmation less. -/
theorem setConfirmed_aligned {s : BlockHeaderState} {g : ℕ → ℕ} (hs : ConfirmInv s) (n : UInt16)
    (hal : Aligned g s.blockNum.toNat s.confirmCount) :
    Aligned (fun b => if s.blockNum.toNat ≤ b+n.toNat then g b-1 else g b) s.blockNum.toNat
      (s.setConfirmed n).confirmCount := by
  have hlen : s.confirmCount.length ≤ s.blockNum.toNat := by have := hs.aligned; omega
  rw [(setConfirmed_fields s n).1]
  refine confirmLoop_aligned _ _ g _ _ [] _ (fun j hj => ?_) (aligned_nil _ _)
  rw [List.length_reverse] at hj
  have hj' : s.confirmCount.length-1-j < s.confirmCount.length := by omega
  have hget : s.confirmCount.reverse[j].toNat=g (s.blockNum.toNat-j) := by
    rw [List.getElem_reverse,hal _ hj']
    congr 1
    omega
  refine ⟨by rw [hget,List.length_nil,Nat.sub_zero],?_,?_⟩
  · rw [List.getElem_reverse]
    exact (hs.counts _ (List.getElem_mem hj')).1
  · simp only [List.length_nil,Nat.sub_zero]
    by_cases hjn : j < n.toNat+1
    · rw [if_pos (by omega),if_pos hjn]
    · rw [if_neg (by omega),if_neg hjn]

/-- `update_active_schedule` leaves the window, the block and the proposed
irreversible block alone; it permutes the active producers or promotes the
pending ones, and keeps or empties the pending schedule. -/
theorem updateActiveSchedule_confirm {s r : BlockHeaderState} {promoted : Bool}
    (h : s.updateActiveSchedule=some (r,promoted)) :
    r.blockNum=s.blockNum ∧ r.dposProposedIrreversibleBlocknum=s.dposProposedIrreversibleBlocknum ∧
      r.confirmCount=s.confirmCount ∧
      (r.activeSchedule.producers.length=s.activeSchedule.producers.length ∨
        r.activeSchedule.producers.length=s.pendingSchedule.producers.length) ∧
      r.pendingSchedule.producers.length ≤ s.pendingSchedule.producers.length := by
  unfold updateActiveSchedule at h
  dsimp only at h
  split at h
  · simp only [Option.some.injEq,Prod.mk.injEq] at h
    obtain ⟨rfl,rfl⟩ := h
    exact ⟨rfl,rfl,rfl,.inr (length_shuffle _ _),Nat.zero_le _⟩
  · split at h
    · cases h
    · split at h
      · cases h
      · split at h
        · simp only [Option.some.injEq,Prod.mk.injEq] at h
          obtain ⟨rfl,rfl⟩ := h
          exact ⟨rfl,rfl,rfl,.inl (take_append_shuffle_perm _ _ _).length_eq,le_refl _⟩
        · simp only [Option.some.injEq,Prod.mk.injEq] at h
          obtain ⟨rfl,rfl⟩ := h
          exact ⟨rfl,rfl,rfl,.inl rfl,le_refl _⟩

theorem confirmInv_updateActiveSchedule {s r : BlockHeaderState} {promoted : Bool} (hs : ConfirmInv s)
    (h : s.updateActiveSchedule=some (r,promoted)) : ConfirmInv r := by
  obtain ⟨hnum,hprop,hcc,hact,hpen⟩ := updateActiveSchedule_confirm h
  have hal := hs.aligned
  refine ⟨hcc ▸ hs.window_le,?_,hcc ▸ hs.counts,?_,le_trans hpen hs.pending⟩
  · rw [hcc,hnum,hprop]
    exact hal
  · unfold ScheduleBounded
    rcases hact with hl | hl <;> rw [hl]
    · exact hs.active
    · exact hs.pending

/-- `set_new_producers` only sets the pending schedule. -/
theorem setNewProducers_confirm {s r : BlockHeaderState} {pending : ProducerSchedule}
    (h : s.setNewProducers pending=some r) :
    r.blockNum=s.blockNum ∧ r.dposProposedIrreversibleBlocknum=s.dposProposedIrreversibleBlocknum ∧
      r.confirmCount=s.confirmCount ∧ r.activeSchedule=s.activeSchedule ∧ r.pendingSchedule=pending := by
  unfold setNewProducers at h
  simp only [Option.bind_eq_bind,Option.bind_eq_some_iff,Option.guard_eq_some',Option.pure_def,
    Option.some.injEq] at h
  obtain ⟨-,-,-,-,rfl⟩ := h
  exact ⟨rfl,rfl,rfl,rfl,rfl⟩

theorem confirmInv_setNewProducers {s r : BlockHeaderState} {pending : ProducerSchedule} (hs : ConfirmInv s)
    (hp : ScheduleBounded pending) (h : s.setNewProducers pending=some r) : ConfirmInv r := by
  obtain ⟨hnum,hprop,hcc,hact,hpen⟩ := setNewProducers_confirm h
  have hal := hs.aligned
  refine ⟨hcc ▸ hs.window_le,?_,hcc ▸ hs.counts,hact ▸ hs.active,hpen ▸ hp⟩
  rw [hcc,hnum,hprop]
  exact hal

/-! ## Along `next` -/

/-- After `set_confirmed`, `next` keeps the block, the window and the
proposed irreversible block. -/
theorem nextPromoted_window {s r : BlockHeaderState} {hd : BlockHeader} {promoted : Bool}
    (h : s.nextPromoted hd=some (r,promoted)) :
    ∃ g,s.generateNext hd.timestamp=some g ∧ r.blockNum=(g.setConfirmed hd.confirmed).blockNum ∧
      r.confirmCount=(g.setConfirmed hd.confirmed).confirmCount ∧
      r.dposProposedIrreversibleBlocknum=(g.setConfirmed hd.confirmed).dposProposedIrreversibleBlocknum := by
  obtain ⟨-,g,u,hg,hu,hr⟩ := nextPromoted_stages h
  obtain ⟨hun,hup,huc,-,-⟩ := updateActiveSchedule_confirm hu
  refine ⟨g,hg,?_⟩
  rcases hr with rfl | ⟨_,-,hr⟩
  · exact ⟨hun,huc,hup⟩
  · obtain ⟨hrn,hrp,hrc,-,-⟩ := setNewProducers_confirm hr
    exact ⟨hrn.trans hun,hrc.trans huc,hrp.trans hup⟩

/-- `next` keeps the invariant while the block number does not wrap around,
when the header's new schedule, if any, is bounded. -/
theorem confirmInv_nextPromoted {s r : BlockHeaderState} {hd : BlockHeader} {promoted : Bool}
    (hs : ConfirmInv s) (hnum : s.blockNum.toNat+1 < 2^32) (hp : ∀ p ∈ hd.newProducers, ScheduleBounded p)
    (h : s.nextPromoted hd=some (r,promoted)) : ConfirmInv r := by
  obtain ⟨-,g,u,hg,hu,hr⟩ := nextPromoted_stages h
  have hui := confirmInv_updateActiveSchedule
    (confirmInv_setConfirmed (confirmInv_generateNext hs hnum hg) hd.confirmed).1 hu
  rcases hr with rfl | ⟨pending,hnp,hr⟩
  · exact hui
  · exact confirmInv_setNewProducers hui (hp pending hnp) hr

/-- `next` does not lower the proposed irreversible block while the block
number does not wrap around, whatever the header proposes: only
`set_confirmed` moves it, upwards. -/
theorem proposed_le_nextPromoted {s r : BlockHeaderState} {hd : BlockHeader} {promoted : Bool}
    (hs : ConfirmInv s) (hnum : s.blockNum.toNat+1 < 2^32) (h : s.nextPromoted hd=some (r,promoted)) :
    s.dposProposedIrreversibleBlocknum ≤ r.dposProposedIrreversibleBlocknum := by
  obtain ⟨g,hg,-,-,hrp⟩ := nextPromoted_window h
  have hgp := (generateNext_confirm hg).2.1
  have hcp := (confirmInv_setConfirmed (confirmInv_generateNext hs hnum hg) hd.confirmed).2
  apply UInt32.le_iff_toNat_le.mpr
  rw [hrp,← hgp]
  exact hcp

theorem confirmInv_genesis (initialTimestamp : UInt32) (initialKey : ℕ) :
    ConfirmInv (genesis initialTimestamp initialKey) :=
  ⟨Nat.zero_le _,by simp [genesis],(fun _ h => absurd h List.not_mem_nil),
    by simp [ScheduleBounded,maxProducers,genesis],by simp [ScheduleBounded,maxProducers,genesis]⟩

/-! ## Chains of headers -/

/-- The header states that `next` reaches from a genesis state when every
schedule a header proposes has 1 to `max_producers` producers, with what
the chain records of each block after genesis: its number, the
confirmations it needs (two thirds of the producers of the schedule it was
produced under, plus one) and how many blocks before it its header
confirms. -/
inductive ChainReachable : BlockHeaderState → List BlockVotes → Prop
  | genesis (initialTimestamp : UInt32) (initialKey : ℕ) :
      ChainReachable (HeaderState.genesis initialTimestamp initialKey) []
  | next {s s' : BlockHeaderState} {chain : List BlockVotes} (h : BlockHeader) :
      ChainReachable s chain →
      (∀ p ∈ h.newProducers, 1 ≤ p.producers.length ∧ p.producers.length ≤ maxProducers) →
      s.next h=some s' →
      ChainReachable s' (chain++[⟨s'.blockNum.toNat,s.activeSchedule.producers.length*2/3+1,h.confirmed.toNat⟩])

/-- The states of a chain of headers are those of `DposLib.Reachable`, as
many blocks after genesis as the ledger has entries. -/
theorem ChainReachable.reachable {s : BlockHeaderState} {chain : List BlockVotes} (hr : ChainReachable s chain) :
    ∃ promoted, Reachable chain.length s promoted := by
  induction hr with
  | genesis t k => exact ⟨false,.genesis t k⟩
  | next h _ _ hnext ih =>
    obtain ⟨promoted,hr⟩ := ih
    obtain ⟨⟨r,promoted'⟩,hnp,rfl⟩ := Option.map_eq_some_iff.mp hnext
    rw [List.length_append,List.length_singleton]
    exact ⟨promoted',.next h hr hnp⟩

/-- What a state keeps for the chain that reached it: the bounds, the
chain's blocks at or below the head, and each count of the window the
confirmations its block still misses. -/
structure ChainInv (chain : List BlockVotes) (s : BlockHeaderState) : Prop where
  bounds : ConfirmInv s
  below : ∀ v ∈ chain,v.blockNum ≤ s.blockNum.toNat
  counts_outstanding : Aligned (outstanding chain) s.blockNum.toNat s.confirmCount

/-- One block on: the new block needs its full count and has the votes of
its own header; the window follows through `generate_next` and
`set_confirmed`. -/
theorem ChainInv.next {chain : List BlockVotes} {s r : BlockHeaderState} {hd : BlockHeader} {promoted : Bool}
    (hs : ChainInv chain s) (hnum : s.blockNum.toNat+1 < 2^32) (hp : ∀ p ∈ hd.newProducers, ScheduleBounded p)
    (h : s.nextPromoted hd=some (r,promoted)) :
    ChainInv (chain++[⟨r.blockNum.toNat,s.activeSchedule.producers.length*2/3+1,hd.confirmed.toNat⟩]) r := by
  obtain ⟨g,hg,hrn,hrc,-⟩ := nextPromoted_window h
  have hgi := confirmInv_generateNext hs.bounds hnum hg
  have hgn : g.blockNum.toNat=s.blockNum.toNat+1 := by rw [(generateNext_confirm hg).1,toNat_add_one hnum]
  have hrn' : r.blockNum.toNat=s.blockNum.toNat+1 := by rw [hrn,(setConfirmed_keeps g hd.confirmed).1,hgn]
  set v : BlockVotes := ⟨r.blockNum.toNat,s.activeSchedule.producers.length*2/3+1,hd.confirmed.toNat⟩ with hv
  have hlt : ∀ w ∈ chain,w.blockNum < v.blockNum := fun w hw => by
    have := hs.below w hw
    rw [hv]
    dsimp only
    omega
  have hgal : Aligned (fun b => requiredFor (chain++[v]) b-votesFor chain b) g.blockNum.toNat g.confirmCount :=
    generateNext_aligned hs.bounds hnum hs.counts_outstanding
      (fun b hb => by rw [requiredFor_append_of_ne _ (by rw [hv]; dsimp only; omega)]; rfl)
      (by rw [votesFor_of_lt (fun w hw => by have := hlt w hw; rw [hv] at this; dsimp only at this; omega),
        Nat.sub_zero,← hrn',requiredFor_append_self hlt]) hg
  refine ⟨confirmInv_nextPromoted hs.bounds hnum hp h,fun w hw => ?_,?_⟩
  · rcases List.mem_append.mp hw with hw | hw
    · have := hs.below w hw
      omega
    · rw [List.mem_singleton.mp hw,hv]
  · rw [hrn,hrc,(setConfirmed_keeps g hd.confirmed).1]
    refine (setConfirmed_aligned hgi hd.confirmed hgal).congr fun b hb => ?_
    rw [outstanding,votesFor_append,hgn]
    rw [hgn,← hrn'] at hb
    simp only [hv]
    by_cases hc : r.blockNum.toNat ≤ b+hd.confirmed.toNat
    · rw [← hrn',if_pos hc,if_pos ⟨hb,hc⟩,Nat.sub_sub]
    · simp only [← hrn',if_neg hc,if_neg (fun h : _ ∧ _ => hc h.2),Nat.add_zero]

theorem chainInv_genesis (initialTimestamp : UInt32) (initialKey : ℕ) :
    ChainInv [] (genesis initialTimestamp initialKey) :=
  ⟨confirmInv_genesis initialTimestamp initialKey,fun _ h => absurd h List.not_mem_nil,aligned_nil _ _⟩

/-- Every state of a chain of `n` blocks after genesis, while `block_num =
n + 1` has not wrapped around, keeps the invariant. -/
theorem chainReachable_inv {s : BlockHeaderState} {chain : List BlockVotes} (hr : ChainReachable s chain)
    (hn : chain.length+1 < 2^32) : ChainInv chain s ∧ s.blockNum.toNat=chain.length+1 := by
  induction hr with
  | genesis t k => exact ⟨chainInv_genesis t k,rfl⟩
  | next h _ hp hnext ih =>
    rw [List.length_append,List.length_singleton] at hn
    obtain ⟨hi,hnum⟩ := ih (by omega)
    obtain ⟨⟨r,promoted⟩,hnp,rfl⟩ := Option.map_eq_some_iff.mp hnext
    refine ⟨hi.next (by omega) (fun p hmem => (hp p hmem).2) hnp,?_⟩
    rw [List.length_append,List.length_singleton,nextPromoted_blockNum hnp,toNat_add_one (by omega),hnum]

/-- `next` applied to a chain of headers, with the ledger entries of the
blocks it adds. -/
def nextLedger : BlockHeaderState × List BlockVotes → List BlockHeader →
    Option (BlockHeaderState × List BlockVotes)
  | sc,[] => some sc
  | (s,chain),h::hs => do
    let s' ← s.next h
    nextLedger (s',chain++[⟨s'.blockNum.toNat,s.activeSchedule.producers.length*2/3+1,h.confirmed.toNat⟩]) hs

/-- A chain of headers whose proposals are bounded leads from a reachable
state to a reachable state, with the ledger it extends. -/
theorem chainReachable_nextLedger (hs : List BlockHeader)
    (hp : ∀ h ∈ hs, ∀ p ∈ h.newProducers, 1 ≤ p.producers.length ∧ p.producers.length ≤ maxProducers) :
    ∀ {s s' : BlockHeaderState} {chain chain' : List BlockVotes}, ChainReachable s chain →
      nextLedger (s,chain) hs=some (s',chain') → ChainReachable s' chain' := by
  induction hs with
  | nil =>
    intro s s' chain chain' hr hc
    simp only [nextLedger,Option.some.injEq,Prod.mk.injEq] at hc
    obtain ⟨rfl,rfl⟩ := hc
    exact hr
  | cons h hs ih =>
    intro s s' chain chain' hr hc
    simp only [nextLedger,Option.bind_eq_bind,Option.bind_eq_some_iff] at hc
    obtain ⟨r,hn,hc⟩ := hc
    exact ih (fun h' hh' => hp h' (List.mem_cons_of_mem _ hh')) (.next h hr (hp h List.mem_cons_self) hn) hc

theorem confirm_window_bounded {s : BlockHeaderState} {chain : List BlockVotes} (hr : ChainReachable s chain)
    (hn : chain.length+1 < 2^32) :
    s.confirmCount.length ≤ maximumTrackedDposConfirmations ∧
      s.confirmCount.length ≤ s.blockNum.toNat-s.dposProposedIrreversibleBlocknum.toNat ∧
      (∀ i (hi : i < s.confirmCount.length),
        s.confirmCount[i].toNat=outstanding chain (s.blockNum.toNat-(s.confirmCount.length-1-i))) ∧
      CountsBounded s.confirmCount ∧ s.dposProposedIrreversibleBlocknum ≤ s.blockNum ∧
      (chain.length+2 < 2^32 → ∀ h s',s.next h=some s' →
        s.dposProposedIrreversibleBlocknum ≤ s'.dposProposedIrreversibleBlocknum) := by
  obtain ⟨hi,hnum⟩ := chainReachable_inv hr hn
  have hal := hi.bounds.aligned
  refine ⟨hi.bounds.window_le,by omega,hi.counts_outstanding,hi.bounds.counts,
    UInt32.le_iff_toNat_le.mpr (by omega),fun hn2 h s' hnext => ?_⟩
  obtain ⟨⟨r,promoted⟩,hnp,rfl⟩ := Option.map_eq_some_iff.mp hnext
  exact proposed_le_nextPromoted hi.bounds (by omega) hnp

/-- Blocks 2 to 8 of the chain of `libDropHeaders` with their ledger; the
window then holds the counts of blocks 7 and 8. -/
def confirmSample : BlockHeaderState × List BlockVotes :=
  (nextLedger (genesis 100 0,[]) (libDropHeaders.take 7)).get (by decide +kernel)

theorem confirmSample_reachable : ChainReachable confirmSample.1 confirmSample.2 := by
  have e : nextLedger (genesis 100 0,[]) (libDropHeaders.take 7)=some confirmSample :=
    Option.eq_some_of_isSome (by decide +kernel)
  exact chainReachable_nextLedger _ (by decide +kernel) (.genesis 100 0) e

theorem confirm_window_sample :
    ChainReachable confirmSample.1 confirmSample.2 ∧ confirmSample.2.length+1 < 2^32 ∧
      (confirmSample.1.confirmCount.length ≤ maximumTrackedDposConfirmations ∧
        confirmSample.1.confirmCount.length ≤
          confirmSample.1.blockNum.toNat-confirmSample.1.dposProposedIrreversibleBlocknum.toNat ∧
        (∀ i (hi : i < confirmSample.1.confirmCount.length),
          confirmSample.1.confirmCount[i].toNat=outstanding confirmSample.2
            (confirmSample.1.blockNum.toNat-(confirmSample.1.confirmCount.length-1-i))) ∧
        CountsBounded confirmSample.1.confirmCount ∧
        confirmSample.1.dposProposedIrreversibleBlocknum ≤ confirmSample.1.blockNum ∧
        (confirmSample.2.length+2 < 2^32 → ∀ h s',confirmSample.1.next h=some s' →
          confirmSample.1.dposProposedIrreversibleBlocknum ≤ s'.dposProposedIrreversibleBlocknum)) :=
  have hn : confirmSample.2.length+1 < 2^32 := by decide +kernel
  ⟨confirmSample_reachable,hn,confirm_window_bounded confirmSample_reachable hn⟩

end Cyberway.ConfirmWindow
