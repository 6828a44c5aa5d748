import Cyberway.HeaderState

/-!
# The dpos last irreversible block

The last irreversible block of a header state is computed in
`generate_next` from `producer_to_last_implied_irb`, after the producer of
the new block has its entry raised to the proposed irreversible block.
Every entry is at most the proposed irreversible block, which only grows,
and the confirmation window never reaches below it; so the last
irreversible block stays below the block number, and from a state whose
last irreversible block is the one its map gives it does not decrease.
Block numbers are `uint32_t`: all of this holds while `block_num` has not
wrapped around, that is for the first `2 ^ 32 - 2` blocks after genesis.
The state of a block that promoted a pending schedule is not such a state:
its map is rebuilt after the computation, and producers that stay keep
their entries, however old. The next block can then have a lower last
irreversible block, as the chain at the end of this file shows.
-/

namespace Cyberway.DposLib

open FlatMap OrderStat HeaderState BlockHeaderState

/-! ## `uint32_t` block numbers -/

theorem toNat_add_one {a : UInt32} (h : a.toNat+1 < 2^32) : (a+1).toNat=a.toNat+1 := by
  rw [UInt32.toNat_add,UInt32.toNat_one,Nat.mod_eq_of_lt h]

theorem toNat_sub_toUInt32 {a : UInt32} {d : ℕ} (h : d ≤ a.toNat) : (a-d.toUInt32).toNat=a.toNat-d := by
  have hd : d.toUInt32.toNat=d := by
    rw [Nat.toUInt32_eq,UInt32.toNat_ofNat_of_lt' (Nat.lt_of_le_of_lt h a.toNat_lt)]
  rw [UInt32.toNat_sub_of_le _ _ (UInt32.le_iff_toNat_le.mpr (by rw [hd]; exact h)),hd]

/-! ## The computation from the map -/

/-- The last irreversible block that a map of implied irreversible blocks
gives, as a number: the values sorted, the one a third of the way up. -/
def libOf (m : Map AccountName UInt32) : ℕ :=
  let blocknums := m.values.map UInt32.toNat
  if blocknums.length=0 then 0 else orderStat 0 blocknums ((blocknums.length-1)/3)

theorem forall_mem_map_toNat {l : List UInt32} {b : ℕ} (hb : ∀ x ∈ l,x.toNat ≤ b) :
    ∀ x ∈ l.map UInt32.toNat,x ≤ b := by
  intro x hx
  obtain ⟨y,hy,rfl⟩ := List.mem_map.mp hx
  exact hb y hy

/-- A bound of every entry bounds the last irreversible block. -/
theorem libOf_le {m : Map AccountName UInt32} {b : ℕ} (hb : ∀ x ∈ m.values,x.toNat ≤ b) : libOf m ≤ b := by
  simp only [libOf]
  split
  · exact Nat.zero_le b
  · exact orderStat_le_of_forall_le (forall_mem_map_toNat hb) (by omega) 0

/-- `calc_dpos_last_irreversible` is the number `libOf` computes, which
fits `uint32_t`: it is one of the entries. -/
theorem calcDposLastIrreversible_toNat (s : BlockHeaderState) :
    s.calcDposLastIrreversible.toNat=libOf s.producerToLastImpliedIrb := by
  have hlt : libOf s.producerToLastImpliedIrb < 2^32 :=
    Nat.lt_of_le_of_lt (libOf_le (b := 2^32-1) fun x _ => by have := x.toNat_lt; omega) (by norm_num)
  by_cases h0 : s.producerToLastImpliedIrb.values.length=0
  · simp only [calcDposLastIrreversible,libOf,List.length_map,h0,if_true]
    rfl
  · simp only [calcDposLastIrreversible,libOf,List.length_map,h0,if_false] at hlt ⊢
    rw [Nat.toUInt32_eq,UInt32.toNat_ofNat_of_lt' hlt]

/-- Replacing an element by one at least as large raises the list pointwise. -/
theorem forall₂_le_set {l : List ℕ} {v : ℕ} (hv : ∀ x ∈ l, x ≤ v) (p : ℕ) :
    List.Forall₂ (· ≤ ·) l (l.set p v) := by
  induction l generalizing p with
  | nil => simp
  | cons x t ih =>
    cases p with
    | zero => exact .cons (hv x List.mem_cons_self) (List.forall₂_refl t)
    | succ p => exact .cons le_rfl (ih (fun y hy => hv y (List.mem_cons_of_mem x hy)) p)

/-- Raising an entry, or adding one, to a value at least as large as every
entry does not lower the last irreversible block: a replaced entry raises
the values pointwise, and an added one is the largest while the position
taken moves up. -/
theorem libOf_le_assign {m : Map AccountName UInt32} {v : UInt32} (hv : ∀ x ∈ m.values,x.toNat ≤ v.toNat)
    (k : AccountName) : libOf m ≤ libOf (m.assign k v) := by
  have hv' := forall_mem_map_toNat hv
  rcases Map.values_assign m k v with ⟨p,hp,hset⟩ | hperm
  · have hmap : (m.assign k v).values.map UInt32.toNat=(m.values.map UInt32.toNat).set p v.toNat := by
      rw [hset,List.map_set]
    simp only [libOf,hmap,List.length_set]
    split
    · exact le_rfl
    · exact orderStat_mono (forall₂_le_set hv' p) (by omega) 0
  · have happ : ((m.assign k v).values.map UInt32.toNat).Perm (m.values.map UInt32.toNat++[v.toNat]) :=
      (hperm.map UInt32.toNat).trans (List.perm_append_singleton _ _).symm
    have hlen : ((m.assign k v).values.map UInt32.toNat).length=(m.values.map UInt32.toNat).length+1 := by
      rw [happ.length_eq,List.length_append,List.length_singleton]
    simp only [libOf,hlen]
    split
    · exact Nat.zero_le _
    · simp only [Nat.add_sub_cancel,Nat.add_eq_zero_iff,one_ne_zero,and_false,if_false]
      calc orderStat 0 (m.values.map UInt32.toNat) (((m.values.map UInt32.toNat).length-1)/3)
          = orderStat 0 (m.values.map UInt32.toNat++[v.toNat]) (((m.values.map UInt32.toNat).length-1)/3) :=
            (orderStat_append_max hv' (by omega) 0).symm
        _ ≤ orderStat 0 (m.values.map UInt32.toNat++[v.toNat]) ((m.values.map UInt32.toNat).length/3) :=
            orderStat_le_orderStat (by omega) (by simp; omega) 0
        _ = orderStat 0 ((m.assign k v).values.map UInt32.toNat) ((m.values.map UInt32.toNat).length/3) :=
            orderStat_perm happ.symm 0 _

/-! ## One step at a time -/

/-- `generate_next`: one block on, the producer's implied irreversible
block raised to the proposed one, the last irreversible block computed from
the map, and one more confirmation count at most. -/
theorem generateNext_spec {s r : BlockHeaderState} {t : UInt32} (h : s.generateNext t=some r) :
    ∃ p : AccountName, r.blockNum=s.blockNum+1 ∧
      r.dposProposedIrreversibleBlocknum=s.dposProposedIrreversibleBlocknum ∧
      r.producerToLastImpliedIrb=s.producerToLastImpliedIrb.assign p s.dposProposedIrreversibleBlocknum ∧
      r.dposIrreversibleBlocknum.toNat=libOf r.producerToLastImpliedIrb ∧
      r.confirmCount.length ≤ s.confirmCount.length+1 := by
  unfold generateNext at h
  simp only [Option.bind_eq_bind,Option.bind_eq_some_iff] at h
  obtain ⟨when,-,prokey,-,h⟩ := h
  simp only [Option.pure_def,Option.some.injEq] at h
  subst h
  refine ⟨prokey.producerName,rfl,rfl,rfl,calcDposLastIrreversible_toNat _,?_⟩
  split <;> simp

/-- The loop of `set_confirmed` either keeps every count, or finds a count
that reaches zero `d` blocks below the head, among those it had not visited:
that block becomes the proposed irreversible block and the `d` newer counts
stay. -/
theorem confirmLoop_spec (blockNum : UInt32) :
    ∀ (older visited : List UInt8) (blocks : ℕ) (cc : List UInt8) (r : Option UInt32),
      confirmLoop blockNum older visited blocks=(cc,r) →
        (r=none ∧ cc.length=older.length+visited.length) ∨
          ∃ d, r=some (blockNum-d.toUInt32) ∧ cc.length=d ∧ d < older.length+visited.length := by
  intro older
  induction older with
  | nil =>
    intro visited blocks cc r h
    simp only [confirmLoop,Prod.mk.injEq] at h
    obtain ⟨rfl,rfl⟩ := h
    exact .inl ⟨rfl,by simp⟩
  | cons c older ih =>
    intro visited blocks cc r h
    cases blocks with
    | zero =>
      simp only [confirmLoop,Prod.mk.injEq] at h
      obtain ⟨rfl,rfl⟩ := h
      exact .inl ⟨rfl,by simp; omega⟩
    | succ blocks =>
      simp only [confirmLoop] at h
      split at h
      · simp only [Prod.mk.injEq] at h
        obtain ⟨rfl,rfl⟩ := h
        exact .inr ⟨visited.length,rfl,rfl,by simp⟩
      · rcases ih _ _ _ _ h with ⟨hr,hlen⟩ | ⟨d,hr,hlen,hd⟩
        · exact .inl ⟨hr,by simp at hlen ⊢; omega⟩
        · exact .inr ⟨d,hr,hlen,by simp at hd ⊢; omega⟩

/-- `set_confirmed` writes only the header's count, the window and the
proposed irreversible block. -/
theorem setConfirmed_keeps (s : BlockHeaderState) (n : UInt16) :
    (s.setConfirmed n).blockNum=s.blockNum ∧ (s.setConfirmed n).dposIrreversibleBlocknum=s.dposIrreversibleBlocknum ∧
      (s.setConfirmed n).producerToLastImpliedIrb=s.producerToLastImpliedIrb := by
  simp only [setConfirmed]
  split <;> exact ⟨rfl,rfl,rfl⟩

/-- `set_confirmed` keeps the confirmation window above the proposed
irreversible block, which only grows: the block `d` below the head becomes
irreversible and the `d` newer counts stay, or nothing moves. -/
theorem setConfirmed_spec (s : BlockHeaderState) (n : UInt16)
    (haligned : s.confirmCount.length+s.dposProposedIrreversibleBlocknum.toNat ≤ s.blockNum.toNat) :
    s.dposProposedIrreversibleBlocknum.toNat ≤ (s.setConfirmed n).dposProposedIrreversibleBlocknum.toNat ∧
      (s.setConfirmed n).confirmCount.length+(s.setConfirmed n).dposProposedIrreversibleBlocknum.toNat ≤
        (s.setConfirmed n).blockNum.toNat := by
  simp only [setConfirmed]
  split
  · rename_i cc p hloop
    rcases confirmLoop_spec _ _ _ _ _ _ hloop with ⟨hnone,-⟩ | ⟨d,hp,hlen,hd⟩
    · cases hnone
    · simp only [Option.some.injEq,List.length_reverse,List.length_nil,Nat.add_zero] at hp hd
      subst hp
      have hsub := toNat_sub_toUInt32 (a := s.blockNum) (d := d) (by omega)
      refine ⟨?_,?_⟩ <;> dsimp only <;> omega
  · rename_i cc hloop
    rcases confirmLoop_spec _ _ _ _ _ _ hloop with ⟨-,hlen⟩ | ⟨d,hp,-,-⟩
    · simp only [List.length_reverse,List.length_nil,Nat.add_zero] at hlen
      exact ⟨le_rfl,by dsimp only; omega⟩
    · cases hp

/-- The producer maps that a promotion rebuilds hold entries of the old map
and the last irreversible block. -/
theorem mem_values_rebuildProducerMap {old : Map AccountName UInt32} {producers : List ProducerKey}
    {lib x : UInt32} (h : x ∈ (rebuildProducerMap old producers lib).values) : x ∈ old.values ∨ x=lib := by
  obtain ⟨pro,-,rfl⟩ := Map.mem_values_foldl_assign (fun pro => pro.producerName)
    (fun pro => (old.find? pro.producerName).getD lib) producers h
  cases hfind : old.find? pro.producerName with
  | none => exact .inr rfl
  | some v => exact .inl (Map.mem_values_of_find? hfind)

/-! ## What the last irreversible block is made of -/

/-- The fields of a header state that its last irreversible block is
computed from or bounded by, block numbers read as numbers. -/
structure LibView where
  /-- `block_num`. -/
  blockNum : ℕ
  /-- The length of `confirm_count`: the blocks above the proposed irreversible one. -/
  window : ℕ
  /-- `dpos_proposed_irreversible_blocknum`. -/
  proposed : ℕ
  /-- `dpos_irreversible_blocknum`. -/
  lib : ℕ
  /-- `producer_to_last_implied_irb`. -/
  implied : Map AccountName UInt32

/-- The view of a header state. -/
def libView (s : BlockHeaderState) : LibView :=
  ⟨s.blockNum.toNat,s.confirmCount.length,s.dposProposedIrreversibleBlocknum.toNat,s.dposIrreversibleBlocknum.toNat,
    s.producerToLastImpliedIrb⟩

namespace LibView

/-- What every header state keeps until `block_num` wraps around: the
confirmation window lies above the proposed irreversible block, which
bounds every implied irreversible block and the last irreversible block,
and the last irreversible block lies below the block number. -/
structure Inv (v : LibView) : Prop where
  aligned : v.window+v.proposed ≤ v.blockNum
  implied_le : ∀ x ∈ v.implied.values,x.toNat ≤ v.proposed
  lib_le : v.lib ≤ v.proposed
  lib_lt : v.lib < v.blockNum

/-- The last irreversible block is the one the implied map gives. -/
def Current (v : LibView) : Prop := v.lib=libOf v.implied

end LibView

open LibView

/-- The genesis state: block 1, nothing irreversible, no implied entries. -/
theorem inv_genesis (initialTimestamp : UInt32) (initialKey : ℕ) :
    (libView (genesis initialTimestamp initialKey)).Inv ∧ (libView (genesis initialTimestamp initialKey)).Current :=
  ⟨⟨by simp [libView,genesis],by simp [libView,genesis,Map.empty,Map.values],by simp [libView,genesis],
    by simp [libView,genesis]⟩,rfl⟩

/-- `generate_next` keeps the invariant when the new block number does not
wrap around, and computes the last irreversible block from its own map. -/
theorem inv_generateNext {s r : BlockHeaderState} {t : UInt32} (hs : (libView s).Inv)
    (hnum : s.blockNum.toNat+1 < 2^32) (h : s.generateNext t=some r) :
    (libView r).Inv ∧ (libView r).Current := by
  obtain ⟨p,hnum',hprop,himp,hlib,hlen⟩ := generateNext_spec h
  have hle : ∀ x ∈ r.producerToLastImpliedIrb.values,x.toNat ≤ s.dposProposedIrreversibleBlocknum.toNat := by
    rw [himp]
    intro x hx
    rcases Map.mem_values_assign hx with hx | rfl
    · exact hs.implied_le x hx
    · exact le_rfl
  have hlibr : r.dposIrreversibleBlocknum.toNat ≤ s.dposProposedIrreversibleBlocknum.toNat := hlib ▸ libOf_le hle
  have hr : r.blockNum.toNat=s.blockNum.toNat+1 := by rw [hnum',toNat_add_one hnum]
  have hp : r.dposProposedIrreversibleBlocknum.toNat=s.dposProposedIrreversibleBlocknum.toNat := by rw [hprop]
  have haligned := hs.aligned
  have hlt := hs.lib_lt
  dsimp only [libView] at haligned hlt
  refine ⟨⟨?_,?_,?_,?_⟩,hlib⟩ <;> dsimp only [libView]
  · omega
  · exact hprop ▸ hle
  · rw [hprop]
    exact hlibr
  · omega

/-- `set_confirmed` keeps the invariant, the last irreversible block and the
implied map. -/
theorem inv_setConfirmed {s : BlockHeaderState} (hs : (libView s).Inv) (n : UInt16) :
    (libView (s.setConfirmed n)).Inv ∧
      (s.setConfirmed n).dposIrreversibleBlocknum=s.dposIrreversibleBlocknum ∧
      (s.setConfirmed n).producerToLastImpliedIrb=s.producerToLastImpliedIrb := by
  obtain ⟨hnum,hlib,himp⟩ := setConfirmed_keeps s n
  obtain ⟨hprop,haligned⟩ := setConfirmed_spec s n hs.aligned
  refine ⟨⟨haligned,?_,?_,?_⟩,hlib,himp⟩ <;> dsimp only [libView]
  · intro x hx
    exact le_trans (hs.implied_le x (show x ∈ s.producerToLastImpliedIrb.values from himp ▸ hx)) hprop
  · exact hlib ▸ le_trans hs.lib_le hprop
  · exact hlib ▸ hnum ▸ hs.lib_lt

/-- `update_active_schedule` changes only the implied map, and only when it
promotes: the rebuilt map holds old entries and the last irreversible block. -/
theorem updateActiveSchedule_spec {s r : BlockHeaderState} {promoted : Bool}
    (h : s.updateActiveSchedule=some (r,promoted)) :
    libView r={libView s with implied := r.producerToLastImpliedIrb} ∧
      (∀ x ∈ r.producerToLastImpliedIrb.values,
        x ∈ s.producerToLastImpliedIrb.values ∨ x=s.dposIrreversibleBlocknum) ∧
      (promoted=false → libView r=libView s) := by
  unfold updateActiveSchedule at h
  dsimp only at h
  split at h
  · simp only [Option.some.injEq,Prod.mk.injEq] at h
    obtain ⟨rfl,rfl⟩ := h
    exact ⟨rfl,fun x hx => mem_values_rebuildProducerMap hx,Bool.noConfusion⟩
  · split at h
    · cases h
    · split at h
      · cases h
      · split at h
        · simp only [Option.some.injEq,Prod.mk.injEq] at h
          obtain ⟨rfl,rfl⟩ := h
          exact ⟨rfl,fun x hx => .inl hx,fun _ => rfl⟩
        · simp only [Option.some.injEq,Prod.mk.injEq] at h
          obtain ⟨rfl,rfl⟩ := h
          exact ⟨rfl,fun x hx => .inl hx,fun _ => rfl⟩

/-- `set_new_producers` changes nothing the last irreversible block is made of. -/
theorem setNewProducers_spec {s r : BlockHeaderState} {pending : ProducerSchedule}
    (h : s.setNewProducers pending=some r) : libView r=libView s := by
  unfold setNewProducers at h
  simp only [Option.bind_eq_bind,Option.bind_eq_some_iff,Option.guard_eq_some',Option.pure_def,
    Option.some.injEq] at h
  obtain ⟨-,-,-,-,rfl⟩ := h
  rfl

/-! ## Along `next` -/

/-- The stages of `next`: `generate_next`, `set_confirmed`,
`update_active_schedule` and, when the header proposes a schedule,
`set_new_producers`. -/
theorem nextPromoted_stages {s r : BlockHeaderState} {hd : BlockHeader} {promoted : Bool}
    (h : s.nextPromoted hd=some (r,promoted)) :
    hd.timestamp≠0 ∧ ∃ g u, s.generateNext hd.timestamp=some g ∧
      (g.setConfirmed hd.confirmed).updateActiveSchedule=some (u,promoted) ∧
      (r=u ∨ ∃ pending, hd.newProducers=some pending ∧ u.setNewProducers pending=some r) := by
  unfold nextPromoted at h
  simp only [Option.bind_eq_bind,Option.bind_eq_some_iff,Option.guard_eq_some'] at h
  obtain ⟨-,ht,-,-,g,hg,-,-,-,-,-,-,⟨u,promotedU⟩,hu,h⟩ := h
  refine ⟨ht,g,u,hg,?_⟩
  split at h
  next pending hnp =>
    simp only [Option.bind_eq_some_iff,Option.guard_eq_some',Option.pure_def,Option.some.injEq,
      Prod.mk.injEq] at h
    obtain ⟨-,-,r',hr',rfl,rfl⟩ := h
    exact ⟨hu,.inr ⟨pending,hnp,hr'⟩⟩
  next =>
    simp only [Option.pure_def,Option.some.injEq,Prod.mk.injEq] at h
    obtain ⟨rfl,rfl⟩ := h
    exact ⟨hu,.inl rfl⟩

/-- After `generate_next`, `next` changes nothing the last irreversible
block is made of but the implied map, and that only when it promotes. -/
theorem nextPromoted_view {s r : BlockHeaderState} {hd : BlockHeader} {promoted : Bool}
    (h : s.nextPromoted hd=some (r,promoted)) :
    ∃ g, s.generateNext hd.timestamp=some g ∧
      libView r={libView (g.setConfirmed hd.confirmed) with implied := r.producerToLastImpliedIrb} ∧
      (∀ x ∈ r.producerToLastImpliedIrb.values,x ∈ g.producerToLastImpliedIrb.values ∨ x=g.dposIrreversibleBlocknum) ∧
      (promoted=false → libView r=libView (g.setConfirmed hd.confirmed)) := by
  obtain ⟨-,g,u,hg,hu,hr⟩ := nextPromoted_stages h
  obtain ⟨-,hlib,himp⟩ := setConfirmed_keeps g hd.confirmed
  obtain ⟨hview,hmem,hsame⟩ := updateActiveSchedule_spec hu
  have hru : libView r=libView u := by
    rcases hr with rfl | ⟨_,-,hr⟩
    · rfl
    · exact setNewProducers_spec hr
  refine ⟨g,hg,?_,fun x hx => ?_,fun hp => hru.trans (hsame hp)⟩
  · rw [hru,hview]
    exact congrArg (fun i => {libView (g.setConfirmed hd.confirmed) with implied := i})
      (congrArg LibView.implied hru).symm
  · have hi : r.producerToLastImpliedIrb=u.producerToLastImpliedIrb := congrArg LibView.implied hru
    have hx' : x ∈ u.producerToLastImpliedIrb.values := hi ▸ hx
    rw [← himp,← hlib]
    exact hmem x hx'

/-- `next` moves the block number on by one, in `uint32_t`. -/
theorem nextPromoted_blockNum {s r : BlockHeaderState} {hd : BlockHeader} {promoted : Bool}
    (h : s.nextPromoted hd=some (r,promoted)) : r.blockNum=s.blockNum+1 := by
  obtain ⟨g,hg,hview,-,-⟩ := nextPromoted_view h
  obtain ⟨-,hnum,-⟩ := generateNext_spec hg
  rw [← hnum,← (setConfirmed_keeps g hd.confirmed).1]
  exact UInt32.toNat_inj.mp (congrArg LibView.blockNum hview)

/-- `next` computes the last irreversible block from the map after raising
the producer's entry to the proposed block; the later stages keep it. -/
theorem nextPromoted_lib {s r : BlockHeaderState} {hd : BlockHeader} {promoted : Bool}
    (h : s.nextPromoted hd=some (r,promoted)) :
    ∃ p,r.dposIrreversibleBlocknum.toNat=libOf (s.producerToLastImpliedIrb.assign p s.dposProposedIrreversibleBlocknum) := by
  obtain ⟨g,hg,hview,-,-⟩ := nextPromoted_view h
  obtain ⟨p,-,-,himp,hlib,-⟩ := generateNext_spec hg
  refine ⟨p,?_⟩
  rw [← himp,← hlib,← (setConfirmed_keeps g hd.confirmed).2.1]
  exact congrArg LibView.lib hview

/-- `next` keeps the invariant while the block number does not wrap around,
and unless it promotes, the last irreversible block is still the one its
map gives. -/
theorem nextPromoted_spec {s r : BlockHeaderState} {hd : BlockHeader} {promoted : Bool}
    (hs : (libView s).Inv) (hnum : s.blockNum.toNat+1 < 2^32) (h : s.nextPromoted hd=some (r,promoted)) :
    (libView r).Inv ∧ (promoted=false → (libView r).Current) := by
  obtain ⟨g,hg,hview,hmem,hsame⟩ := nextPromoted_view h
  obtain ⟨hgi,hgc⟩ := inv_generateNext hs hnum hg
  obtain ⟨hci,hcl,hcm⟩ := inv_setConfirmed hgi hd.confirmed
  refine ⟨?_,fun hp => ?_⟩
  · rw [hview]
    refine ⟨hci.aligned,fun x hx => ?_,hci.lib_le,hci.lib_lt⟩
    rcases hmem x hx with hx | rfl
    · exact hci.implied_le x (show x ∈ (g.setConfirmed hd.confirmed).producerToLastImpliedIrb.values from hcm ▸ hx)
    · exact hcl ▸ hci.lib_le
  · rw [hsame hp]
    show (g.setConfirmed hd.confirmed).dposIrreversibleBlocknum.toNat=libOf (g.setConfirmed hd.confirmed).producerToLastImpliedIrb
    rw [hcl,hcm]
    exact hgc

/-- From a state whose last irreversible block is the one its map gives,
`next` does not lower it: every entry is at most the proposed block that
`generate_next` raises one entry to. -/
theorem lib_le_nextPromoted {s r : BlockHeaderState} {hd : BlockHeader} {promoted : Bool}
    (hs : (libView s).Inv) (hc : (libView s).Current) (h : s.nextPromoted hd=some (r,promoted)) :
    s.dposIrreversibleBlocknum ≤ r.dposIrreversibleBlocknum := by
  obtain ⟨p,hp⟩ := nextPromoted_lib h
  apply UInt32.le_iff_toNat_le.mpr
  calc s.dposIrreversibleBlocknum.toNat
      = libOf s.producerToLastImpliedIrb := hc
    _ ≤ libOf (s.producerToLastImpliedIrb.assign p s.dposProposedIrreversibleBlocknum) :=
        libOf_le_assign hs.implied_le p
    _ = r.dposIrreversibleBlocknum.toNat := hp.symm

/-! ## Chains of headers -/

/-- The header states that a chain of `n` accepted headers reaches from a
genesis state, with whether the block of the state promoted a pending
schedule. -/
inductive Reachable : ℕ → BlockHeaderState → Bool → Prop
  | genesis (initialTimestamp : UInt32) (initialKey : ℕ) :
      Reachable 0 (HeaderState.genesis initialTimestamp initialKey) false
  | next {n : ℕ} {s s' : BlockHeaderState} {promoted promoted' : Bool} (h : BlockHeader) :
      Reachable n s promoted → s.nextPromoted h=some (s',promoted') → Reachable (n+1) s' promoted'

/-- Every state `n` blocks after genesis, while `block_num = n + 1` has not
wrapped around, keeps the invariant, and one whose block did not promote a
pending schedule has the last irreversible block its map gives. -/
theorem reachable_inv {n : ℕ} {s : BlockHeaderState} {promoted : Bool} (hr : Reachable n s promoted)
    (hn : n+1 < 2^32) : (libView s).Inv ∧ (promoted=false → (libView s).Current) ∧ s.blockNum.toNat=n+1 := by
  induction hr with
  | genesis t k => exact ⟨(inv_genesis t k).1,fun _ => (inv_genesis t k).2,rfl⟩
  | next h _ hn' ih =>
    obtain ⟨hi,-,hnum⟩ := ih (by omega)
    obtain ⟨hi',hc'⟩ := nextPromoted_spec hi (by omega) hn'
    refine ⟨hi',hc',?_⟩
    rw [nextPromoted_blockNum hn',toNat_add_one (by omega),hnum]

theorem dpos_lib_nondecreasing_unless_promoted {n : ℕ} {s : BlockHeaderState} {promoted : Bool}
    (hr : Reachable n s promoted) (hn : n+1 < 2^32) :
    s.dposIrreversibleBlocknum < s.blockNum ∧
      (promoted=false → ∀ h s',s.next h=some s' → s.dposIrreversibleBlocknum ≤ s'.dposIrreversibleBlocknum) := by
  obtain ⟨hi,hc,-⟩ := reachable_inv hr hn
  refine ⟨UInt32.lt_iff_toNat_lt.mpr hi.lib_lt,fun hp h s' hnext => ?_⟩
  obtain ⟨⟨r,promoted'⟩,hnp,rfl⟩ := Option.map_eq_some_iff.mp hnext
  exact lib_le_nextPromoted hi (hc hp) hnp

theorem genesis_lib_nondecreasing :
    0+1 < 2^32 ∧ (genesis 100 0).dposIrreversibleBlocknum < (genesis 100 0).blockNum ∧
      (false=false → ∀ h s',(genesis 100 0).next h=some s' →
        (genesis 100 0).dposIrreversibleBlocknum ≤ s'.dposIrreversibleBlocknum) :=
  ⟨by norm_num,dpos_lib_nondecreasing_unless_promoted (.genesis 100 0) (by norm_num)⟩

/-- `next` applied to a chain of headers, with whether the last block
promoted a pending schedule. -/
def nextChain : BlockHeaderState × Bool → List BlockHeader → Option (BlockHeaderState × Bool)
  | sp,[] => some sp
  | (s,_),h::hs => do
    let sp ← s.nextPromoted h
    nextChain sp hs

/-- What a chain of headers reaches from a reachable state is reachable,
that many blocks further. -/
theorem reachable_nextChain (hs : List BlockHeader) :
    ∀ {n : ℕ} {s s' : BlockHeaderState} {promoted promoted' : Bool}, Reachable n s promoted →
      nextChain (s,promoted) hs=some (s',promoted') → Reachable (n+hs.length) s' promoted' := by
  induction hs with
  | nil =>
    intro n s s' promoted promoted' hr hc
    simp only [nextChain,Option.some.injEq,Prod.mk.injEq] at hc
    obtain ⟨rfl,rfl⟩ := hc
    exact hr
  | cons h hs ih =>
    intro n s s' promoted promoted' hr hc
    simp only [nextChain,Option.bind_eq_bind,Option.bind_eq_some_iff] at hc
    obtain ⟨⟨r,p⟩,hn,hc⟩ := hc
    have := ih (.next h hr hn) hc
    rwa [List.length_cons,← Nat.add_assoc,Nat.add_right_comm n]

/-! ## A promotion lowers the next block's last irreversible block

The system account produces blocks 2 to 4 from genesis and proposes a
schedule of producers 1 to 4, which becomes active at block 4. Producer 1
never produces, so its implied irreversible block stays at the last
irreversible block of that promotion. Block 12 proposes a schedule of
producers 1 and 2, promoted at block 19 once the last irreversible block
has passed 12; both producers stay, with their entries. Block 20, produced
by producer 2, computes its last irreversible block from these two
entries, the lower of them: producer 1's. -/

/-- The schedule proposed at block 3. -/
def libDropFirst : ProducerSchedule := {version := 1, producers := [⟨1,11⟩,⟨2,12⟩,⟨3,13⟩,⟨4,14⟩]}

/-- The schedule proposed at block 12. -/
def libDropSecond : ProducerSchedule := {version := 2, producers := [⟨1,11⟩,⟨2,12⟩]}

/-- The headers of blocks 2 to 19. -/
def libDropHeaders : List BlockHeader :=
  [{timestamp := 101, producer := systemAccountName, confirmed := 1},
   {timestamp := 102, producer := systemAccountName, confirmed := 0, newProducers := some libDropFirst},
   {timestamp := 103, producer := systemAccountName, confirmed := 0},
   {timestamp := 105, producer := 3, confirmed := 1, scheduleVersion := 1},
   {timestamp := 106, producer := 4, confirmed := 2, scheduleVersion := 1},
   {timestamp := 107, producer := 2, confirmed := 3, scheduleVersion := 1},
   {timestamp := 109, producer := 3, confirmed := 2, scheduleVersion := 1},
   {timestamp := 110, producer := 2, confirmed := 1, scheduleVersion := 1},
   {timestamp := 111, producer := 4, confirmed := 3, scheduleVersion := 1},
   {timestamp := 113, producer := 3, confirmed := 2, scheduleVersion := 1},
   {timestamp := 114, producer := 4, confirmed := 1, scheduleVersion := 1},
   {timestamp := 115, producer := 2, confirmed := 3, scheduleVersion := 1, newProducers := some libDropSecond},
   {timestamp := 117, producer := 4, confirmed := 1, scheduleVersion := 1},
   {timestamp := 118, producer := 2, confirmed := 1, scheduleVersion := 1},
   {timestamp := 119, producer := 3, confirmed := 4, scheduleVersion := 1},
   {timestamp := 121, producer := 4, confirmed := 2, scheduleVersion := 1},
   {timestamp := 122, producer := 3, confirmed := 1, scheduleVersion := 1},
   {timestamp := 123, producer := 2, confirmed := 3, scheduleVersion := 1}]

/-- The header of block 20. -/
def libDropLast : BlockHeader := {timestamp := 125, producer := 2, confirmed := 0, scheduleVersion := 2}

/-- The state of block 19, which promoted the second schedule. -/
def libDropPromoted : BlockHeaderState :=
  ((nextChain (genesis 100 0,false) libDropHeaders).get (by decide +kernel)).1

/-- The state of block 20. -/
def libDropNext : BlockHeaderState := (libDropPromoted.next libDropLast).get (by decide +kernel)

theorem libDrop_reachable : Reachable 18 libDropPromoted true := by
  have e : nextChain (genesis 100 0,false) libDropHeaders=some (libDropPromoted,true) := by
    rw [Option.eq_some_of_isSome (by decide +kernel : (nextChain (genesis 100 0,false) libDropHeaders).isSome)]
    exact congrArg some (Prod.ext rfl (by decide +kernel))
  exact reachable_nextChain libDropHeaders (.genesis 100 0) e

theorem lib_decreases_after_promotion :
    Reachable 18 libDropPromoted true ∧ libDropPromoted.next libDropLast=some libDropNext ∧
      libDropPromoted.dposIrreversibleBlocknum=14 ∧ libDropNext.dposIrreversibleBlocknum=3 := by
  refine ⟨libDrop_reachable,Option.eq_some_of_isSome (by decide +kernel),?_,?_⟩
  · decide +kernel
  · decide +kernel

end Cyberway.DposLib
