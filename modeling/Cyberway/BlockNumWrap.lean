import Cyberway.ProducerRound

/-!
# The block number wraps around

`block_num`, the slots and the proposed irreversible block are `uint32_t`.
A chain from a genesis at slot 0 with a block at every slot reaches block
number `2^32 - 1` at slot `2^32 - 2`, and the block at the last slot has
number 0. When that block confirms the block before it, `set_confirmed`
finds a count that reaches zero one block below the head and sets the
proposed irreversible block to `0 - 1`, which is `2^32 - 1`, above the block
number.

The chain: the system account produces blocks 2 to 4 at slots 1 to 3 and
proposes producers 1 and 2 at block 3. Block 4 promotes them, and their round
starts at slot 3. From block 5 on, every slot has a block of the producer
scheduled there, confirming no earlier block. The round keeps an odd start,
each block leaves a count of one in the window, and only its own producer
has produced it. The block at slot `2^32 - 1` is the second of its round,
and its producer did not produce the block before it, so it may confirm
that block.
-/

namespace Cyberway.BlockNumWrap

open FlatMap HeaderState BlockHeaderState DposLib ConfirmWindow ProducerRound

/-! ## The stages of `next`, forwards -/

/-- `generate_next` at a later nonzero slot with a scheduled producer
succeeds: the header names the slot, the producer and the schedule's
version, the round is kept, and the producer's entry of
`producer_to_last_produced` becomes the new block. -/
theorem generateNext_of_scheduled {s : BlockHeaderState} {w : UInt32} {p : ProducerKey}
    (h0 : w≠0) (hts : s.header.timestamp < w) (hp : s.getScheduledProducer w=some p) :
    ∃ g, s.generateNext w=some g ∧
      g.header={timestamp := w, producer := p.producerName, scheduleVersion := s.activeSchedule.version} ∧
      g.scheduledShuffleSlot=s.scheduledShuffleSlot ∧
      g.producerToLastProduced=s.producerToLastProduced.assign p.producerName (s.blockNum+1) := by
  have hw : s.nextBlockTime w=some w := by simp only [nextBlockTime,if_pos h0,if_pos hts]
  simp only [generateNext,hw,hp,Option.bind_eq_bind,Option.bind_some,Option.pure_def,Option.some.injEq]
  exact ⟨_,rfl,rfl,rfl,rfl⟩

/-- `set_confirmed` writes the header's count, the window and the proposed
irreversible block, nothing else. -/
theorem setConfirmed_frame (s : BlockHeaderState) (n : UInt16) :
    {s.setConfirmed n with
        confirmCount := s.confirmCount
        dposProposedIrreversibleBlocknum := s.dposProposedIrreversibleBlocknum}=
      {s with header := {s.header with confirmed := n}} := by
  simp only [setConfirmed]
  split <;> rfl

/-- The window and the proposed irreversible block after `set_confirmed`
are what its loop returns. -/
theorem setConfirmed_of_loop {s : BlockHeaderState} {n : UInt16} {cc : List UInt8} {r : Option UInt32}
    (h : confirmLoop s.blockNum s.confirmCount.reverse [] (n.toNat+1)=(cc,r)) :
    (s.setConfirmed n).confirmCount=cc ∧
      (s.setConfirmed n).dposProposedIrreversibleBlocknum=r.getD s.dposProposedIrreversibleBlocknum := by
  simp only [setConfirmed,h]
  cases r <;> exact ⟨rfl,rfl⟩

/-- With no pending schedule, a schedule of producers and a block after the
start of its round, `update_active_schedule` succeeds and promotes nothing. -/
theorem updateActiveSchedule_of_round {s : BlockHeaderState} (hpend : s.pendingSchedule.producers=[])
    (hn : s.activeSchedule.producers.length.toUInt32≠0) (hlt : s.scheduledShuffleSlot < s.header.timestamp) :
    ∃ r, s.updateActiveSchedule=some (r,false) := by
  unfold updateActiveSchedule
  simp only [hpend,List.length_nil,ne_eq,not_true_eq_false,false_and,if_false,hn,hlt,not_true_eq_false]
  split <;> exact ⟨_,rfl⟩

/-- `next` for a header that proposes no schedule, from its stages: the
converse of `nextPromoted_stages` with the guards of `next` made explicit. -/
theorem nextPromoted_of_stages {s g u : BlockHeaderState} {hd : BlockHeader} {promoted : Bool}
    (h0 : hd.timestamp≠0) (hts : s.header.timestamp < hd.timestamp) (hg : s.generateNext hd.timestamp=some g)
    (hprod : g.header.producer=hd.producer) (hver : g.header.scheduleVersion=hd.scheduleVersion)
    (hlast : ∀ v, s.producerToLastProduced.find? hd.producer=some v → v < g.blockNum-hd.confirmed.toUInt32)
    (hu : (g.setConfirmed hd.confirmed).updateActiveSchedule=some (u,promoted)) (hnp : hd.newProducers=none) :
    s.nextPromoted hd=some (u,promoted) := by
  have hall : (s.producerToLastProduced.find? hd.producer).all (fun last => last < g.blockNum-hd.confirmed.toUInt32) := by
    cases hf : s.producerToLastProduced.find? hd.producer with
    | none => rfl
    | some v => simpa using hlast v hf
  simp only [nextPromoted,Option.bind_eq_bind,guard,if_pos h0,if_pos hts,hg,hprod,hver,hall,hu,hnp,
    Option.pure_def,Option.bind_some,if_true]

/-! ## Two producers taking turns -/

/-- The schedule of the chain's two producers. -/
def pairSchedule : ProducerSchedule := {version := 1, producers := [⟨1,11⟩,⟨2,12⟩]}

/-- The two producers of an order of `pairSchedule` have different names. -/
theorem pair_of_perm {l : List ProducerKey} (h : l.Perm pairSchedule.producers) :
    ∃ a b, l=[a,b] ∧ a.producerName≠b.producerName := by
  have hnd : (l.map ProducerKey.producerName).Nodup := (h.map _).nodup_iff.mpr (by decide)
  have hlen : l.length=2 := h.length_eq
  match l,hlen,hnd with
  | [a,b],_,hnd => exact ⟨a,b,rfl,by simpa using hnd⟩

/-- What a state of the two-producer phase keeps: the schedule is the two
producers with nothing pending; the round starts at an odd slot, at the
block's slot or the one before; the block number is one more than the slot;
no entry of `producer_to_last_produced` lies above the block, and only the
block's producer holds the block itself; a block at the second slot of a
round is that of the round's first producer; and the window ends with a
count of one. -/
structure RoundInv (s : BlockHeaderState) : Prop where
  producers : s.activeSchedule.producers.Perm pairSchedule.producers
  pending : s.pendingSchedule.producers=[]
  start_odd : s.scheduledShuffleSlot.toNat%2=1
  start_le : s.scheduledShuffleSlot.toNat ≤ s.header.timestamp.toNat
  le_start : s.header.timestamp.toNat ≤ s.scheduledShuffleSlot.toNat+1
  block_num : s.blockNum.toNat=s.header.timestamp.toNat+1
  last_produced : ∀ k v,s.producerToLastProduced.find? k=some v →
    v.toNat ≤ s.blockNum.toNat ∧ (v=s.blockNum → k=s.header.producer)
  opens_round : s.header.timestamp.toNat=s.scheduledShuffleSlot.toNat+1 →
    s.activeSchedule.producers[0]?.map ProducerKey.producerName=some s.header.producer
  window : ∃ X,s.confirmCount=X++[1]

/-- The header of the block at the slot after `s`'s, by the producer
scheduled there, confirming `confirmed` blocks before it. -/
def followingHeader (s : BlockHeaderState) (confirmed : UInt16) : BlockHeader :=
  {timestamp := s.header.timestamp+1,
   producer := ((s.getScheduledProducer (s.header.timestamp+1)).map ProducerKey.producerName).getD 0,
   confirmed := confirmed, scheduleVersion := s.activeSchedule.version}

/-- The entries of `producer_to_last_produced` stay at or below the block,
and only the block's producer holds the block, when the next block is
assigned to its producer. -/
theorem lastProduced_assign {m : Map AccountName UInt32} {b : UInt32} {prod : AccountName}
    (hb : b.toNat+1 < 2^32) (hm : ∀ k v,m.find? k=some v → v.toNat ≤ b.toNat ∧ (v=b → k=prod))
    (name : AccountName) :
    ∀ k v,(m.assign name (b+1)).find? k=some v → v.toNat ≤ (b+1).toNat ∧ (v=b+1 → k=name) := by
  intro k v hkv
  rw [toNat_add_one hb]
  rw [Map.find?_assign] at hkv
  split_ifs at hkv with hk
  · cases hkv
    exact ⟨by rw [toNat_add_one hb],fun _ => hk⟩
  · have hle := (hm k v hkv).1
    refine ⟨by omega,fun hv => ?_⟩
    rw [hv,toNat_add_one hb] at hle
    omega

/-- With two producers, `generate_next` appends a count of two to a window
that ends with a count of one, sliding it when it is full. -/
theorem window_generateNext {s g : BlockHeaderState} {t : UInt32} (hg : s.generateNext t=some g)
    (hlen : s.activeSchedule.producers.length=2) (hw : ∃ X,s.confirmCount=X++[1]) :
    ∃ Y,g.confirmCount=Y++[1,2] := by
  obtain ⟨X,hX⟩ := hw
  have h2 : ((2*2/3).toUInt32+1).toUInt8=(2 : UInt8) := by decide
  rw [(generateNext_confirm hg).2.2.2.2,hlen,hX,h2]
  by_cases hc : (X++[1]).length < maximumTrackedDposConfirmations
  · exact ⟨X,by rw [if_pos hc,List.append_assoc]; rfl⟩
  · rw [if_neg hc]
    cases X with
    | nil => simp [maximumTrackedDposConfirmations] at hc
    | cons x X => exact ⟨X,by simp⟩

/-- Confirming only itself, a block whose count stays above zero keeps the
window, its own count lowered. -/
theorem confirmLoop_self (blockNum : UInt32) (older : List UInt8) {c : UInt8} (hc : c-1≠0) :
    confirmLoop blockNum (c::older) [] 1=(older.reverse++[c-1],none) := by
  cases older <;> simp [confirmLoop,hc]

/-- Confirming one block before itself, a block whose count stays above
zero, behind a block whose count reaches zero, makes that block the
proposed irreversible block and keeps only its own count. -/
theorem confirmLoop_prev (blockNum : UInt32) (older : List UInt8) {c : UInt8} (hc : c-1≠0) :
    confirmLoop blockNum (c::1::older) [] 2=([c-1],some (blockNum-1)) := by
  simp [confirmLoop,hc]

/-- On the window `Y ++ [1, 2]` of a new block, confirming only itself
lowers the block's own count and proposes nothing. -/
theorem setConfirmed_zero_window {g : BlockHeaderState} {Y : List UInt8} (hY : g.confirmCount=Y++[1,2]) :
    (g.setConfirmed 0).confirmCount=Y++[1,1] := by
  have hloop : confirmLoop g.blockNum g.confirmCount.reverse [] ((0 : UInt16).toNat+1)=
      ((1::Y.reverse).reverse++[2-1],none) := by
    rw [hY]
    simpa using confirmLoop_self g.blockNum (1::Y.reverse) (c := 2) (by decide)
  rw [(setConfirmed_of_loop hloop).1]
  simp

/-- On the same window, confirming the block before makes that block, whose
count reaches zero, the proposed irreversible block. -/
theorem setConfirmed_one_window {g : BlockHeaderState} {Y : List UInt8} (hY : g.confirmCount=Y++[1,2]) :
    (g.setConfirmed 1).dposProposedIrreversibleBlocknum=g.blockNum-1 := by
  have hloop : confirmLoop g.blockNum g.confirmCount.reverse [] ((1 : UInt16).toNat+1)=
      ([2-1],some (g.blockNum-1)) := by
    rw [hY]
    simpa using confirmLoop_prev g.blockNum Y.reverse (c := 2) (by decide)
  rw [(setConfirmed_of_loop hloop).2]
  rfl

section Step

variable {s : BlockHeaderState}

/-- The producer of the slot after the block is the first of the round when
the block opens it, the second when it is the round's second block. -/
theorem getScheduledProducer_following (hs : RoundInv s) (ht : s.header.timestamp.toNat+1 < 2^32) :
    s.getScheduledProducer (s.header.timestamp+1)=
      s.activeSchedule.producers[s.header.timestamp.toNat-s.scheduledShuffleSlot.toNat]? := by
  have hlen : s.activeSchedule.producers.length=2 := hs.producers.length_eq
  have hS : s.scheduledShuffleSlot < s.header.timestamp+1 :=
    UInt32.lt_iff_toNat_lt.mpr (by rw [toNat_add_one ht]; have := hs.start_le; omega)
  have hle := hs.le_start
  have hoff : ((s.header.timestamp+1-(s.scheduledShuffleSlot+1)).toNat)%2=
      s.header.timestamp.toNat-s.scheduledShuffleSlot.toNat := by
    rw [slotOffset_toNat hS,toNat_add_one ht]
    omega
  simp only [getScheduledProducer,hlen,OfNat.ofNat_ne_zero,if_false,hoff]

/-- The block at the slot after `s`'s, by the producer scheduled there, is
accepted when no earlier block of that producer lies at or above the new
block minus what the header confirms; it promotes nothing. -/
theorem nextPromoted_following (hs : RoundInv s) (ht : s.header.timestamp.toNat+1 < 2^32)
    {confirmed : UInt16} {p : ProducerKey}
    (hp : s.activeSchedule.producers[s.header.timestamp.toNat-s.scheduledShuffleSlot.toNat]?=some p)
    (hlast : ∀ v,s.producerToLastProduced.find? p.producerName=some v → v < s.blockNum+1-confirmed.toUInt32) :
    ∃ g u,s.generateNext (s.header.timestamp+1)=some g ∧
      g.header=
        {timestamp := s.header.timestamp+1,producer := p.producerName,scheduleVersion := s.activeSchedule.version} ∧
      g.scheduledShuffleSlot=s.scheduledShuffleSlot ∧
      g.producerToLastProduced=s.producerToLastProduced.assign p.producerName (s.blockNum+1) ∧
      (g.setConfirmed confirmed).updateActiveSchedule=some (u,false) ∧
      s.nextPromoted (followingHeader s confirmed)=some (u,false) := by
  have hsched := (getScheduledProducer_following hs ht).trans hp
  have hw : (s.header.timestamp+1).toNat=s.header.timestamp.toNat+1 := toNat_add_one ht
  have htw : s.header.timestamp < s.header.timestamp+1 := UInt32.lt_iff_toNat_lt.mpr (by omega)
  have h0 : s.header.timestamp+1≠0 := fun h => by
    rw [h,UInt32.toNat_zero] at hw
    omega
  obtain ⟨g,hg,hgh,hgS,hgm⟩ := generateNext_of_scheduled h0 htw hsched
  obtain ⟨hgn,-,hga,hgp,-⟩ := generateNext_confirm hg
  have hcf := setConfirmed_frame g confirmed
  have hcpend : (g.setConfirmed confirmed).pendingSchedule=s.pendingSchedule :=
    (congrArg BlockHeaderState.pendingSchedule hcf).trans hgp
  have hcact : (g.setConfirmed confirmed).activeSchedule=s.activeSchedule :=
    (congrArg BlockHeaderState.activeSchedule hcf).trans hga
  have hcS : (g.setConfirmed confirmed).scheduledShuffleSlot=s.scheduledShuffleSlot :=
    (congrArg BlockHeaderState.scheduledShuffleSlot hcf).trans hgS
  have hct : (g.setConfirmed confirmed).header.timestamp=s.header.timestamp+1 :=
    (congrArg (·.header.timestamp) hcf).trans (congrArg BlockHeader.timestamp hgh)
  have hlen : s.activeSchedule.producers.length=2 := hs.producers.length_eq
  obtain ⟨u,hu⟩ := updateActiveSchedule_of_round (s := g.setConfirmed confirmed)
    (by rw [hcpend]; exact hs.pending) (by rw [hcact,hlen]; decide)
    (by rw [hcS,hct]; exact UInt32.lt_iff_toNat_lt.mpr (by have := hs.start_le; omega))
  have hhd : followingHeader s confirmed=
      {timestamp := s.header.timestamp+1,producer := p.producerName,confirmed := confirmed,
       scheduleVersion := s.activeSchedule.version} := by
    simp only [followingHeader,hsched,Option.map_some,Option.getD_some]
  refine ⟨g,u,hg,hgh,hgS,hgm,hu,?_⟩
  rw [hhd]
  exact nextPromoted_of_stages h0 htw hg (by rw [hgh]) (by rw [hgh]) (by rw [hgn]; exact hlast) hu rfl

/-- What `set_confirmed` and an `update_active_schedule` that promotes
nothing keep of the state that `generate_next` wrote. -/
theorem frame_unpromoted {g u : BlockHeaderState} {n : UInt16}
    (hu : (g.setConfirmed n).updateActiveSchedule=some (u,false)) :
    u.blockNum=g.blockNum ∧ u.header.timestamp=g.header.timestamp ∧ u.header.producer=g.header.producer ∧
      u.pendingSchedule=g.pendingSchedule ∧ u.producerToLastProduced=g.producerToLastProduced ∧
      u.confirmCount=(g.setConfirmed n).confirmCount ∧
      u.dposProposedIrreversibleBlocknum=(g.setConfirmed n).dposProposedIrreversibleBlocknum := by
  obtain ⟨hframe,-⟩ := updateActiveSchedule_unpromoted hu
  have hcf := setConfirmed_frame g n
  rw [← hframe] at hcf
  injection hcf with hb hh _ _ _ _ _ hpend _ hlast
  refine ⟨hb,by rw [hh],by rw [hh],hpend,hlast,?_,?_⟩ <;> rw [← hframe]

/-- Where the round of the next block starts: a block at the round's first
slot leaves it, and the next block is the round's second; a block at its
second slot is followed by a new round that starts at the next block, with
the producers permuted. -/
theorem round_following (hs : RoundInv s) (ht : s.header.timestamp.toNat+2 < 2^32) {c u : BlockHeaderState}
    (hcact : c.activeSchedule=s.activeSchedule) (hcS : c.scheduledShuffleSlot=s.scheduledShuffleSlot)
    (hct : c.header.timestamp=s.header.timestamp+1) (hu : c.updateActiveSchedule=some (u,false)) :
    (s.header.timestamp.toNat=s.scheduledShuffleSlot.toNat ∧ u.activeSchedule=s.activeSchedule ∧
        u.scheduledShuffleSlot=s.scheduledShuffleSlot) ∨
      (s.header.timestamp.toNat=s.scheduledShuffleSlot.toNat+1 ∧
        u.activeSchedule.producers.Perm s.activeSchedule.producers ∧
        u.scheduledShuffleSlot=s.header.timestamp+1) := by
  have hlen : s.activeSchedule.producers.length=2 := hs.producers.length_eq
  have hle := hs.le_start
  have hge := hs.start_le
  have hw : (s.header.timestamp+1).toNat=s.header.timestamp.toNat+1 := toNat_add_one (by omega)
  have hend : (nextScheduledShuffleSlot s.scheduledShuffleSlot 2).toNat=s.scheduledShuffleSlot.toNat+2 :=
    nextScheduledShuffleSlot_toNat (by omega)
  obtain ⟨-,-,-,hcase⟩ := updateActiveSchedule_unpromoted hu
  simp only [hcact,hcS,hct,hlen] at hcase
  rcases hcase with ⟨hlt,hact,hS⟩ | ⟨hpast,hact,hS⟩
  · have := UInt32.lt_iff_toNat_lt.mp hlt
    exact .inl ⟨by omega,hact,hS⟩
  · have := UInt32.le_iff_toNat_le.mp hpast
    have hd : shuffleDispl s.scheduledShuffleSlot (s.header.timestamp+1) 2=0 := by
      have heq : s.header.timestamp+1=nextScheduledShuffleSlot s.scheduledShuffleSlot 2 :=
        UInt32.toNat_inj.mp (by omega)
      simp [shuffleDispl,← heq]
    refine .inr ⟨by omega,?_,?_⟩
    · rw [hact]
      exact take_append_shuffle_perm _ _ _
    · rw [hS,hd]
      simp

/-- One block on, at the next slot, by the producer scheduled there and
confirming only itself: the new state keeps the invariant. -/
theorem roundInv_next (hs : RoundInv s) (ht : s.header.timestamp.toNat+2 < 2^32) :
    ∃ s',s.next (followingHeader s 0)=some s' ∧ RoundInv s' ∧
      s'.header.timestamp.toNat=s.header.timestamp.toNat+1 := by
  have hbn := hs.block_num
  have hle := hs.le_start
  have hge := hs.start_le
  have hodd := hs.start_odd
  have hlen : s.activeSchedule.producers.length=2 := hs.producers.length_eq
  have hb1 : s.blockNum.toNat+1 < 2^32 := by omega
  have hw : (s.header.timestamp+1).toNat=s.header.timestamp.toNat+1 := toNat_add_one (by omega)
  obtain ⟨p,hp⟩ : ∃ p,s.activeSchedule.producers[s.header.timestamp.toNat-s.scheduledShuffleSlot.toNat]?=some p :=
    ⟨_,List.getElem?_eq_getElem (by omega)⟩
  obtain ⟨g,u,hg,hgh,-,hgm,hu,hnext⟩ := nextPromoted_following hs (by omega) hp (fun v hv => by
    have hv' := (hs.last_produced _ v hv).1
    have h0 : (0 : UInt16).toUInt32=0 := rfl
    rw [h0,UInt32.sub_zero]
    exact UInt32.lt_iff_toNat_lt.mpr (by rw [toNat_add_one hb1]; omega))
  obtain ⟨hgact,hgS,hgt⟩ := generateNext_round hg (fun h => by rw [h,UInt32.toNat_zero] at hw; omega)
  obtain ⟨hcact,hcS,hct⟩ := setConfirmed_round g 0
  obtain ⟨hun,hut,hupr,hupend,hum,huc,-⟩ := frame_unpromoted hu
  obtain ⟨hgn,-,-,hgp,-⟩ := generateNext_confirm hg
  have hub : u.blockNum=s.blockNum+1 := hun.trans hgn
  have hut' : u.header.timestamp.toNat=s.header.timestamp.toNat+1 := by rw [hut,hgh]; exact hw
  have hupr' : u.header.producer=p.producerName := by rw [hupr,hgh]
  have hlast : ∀ k v,u.producerToLastProduced.find? k=some v →
      v.toNat ≤ u.blockNum.toNat ∧ (v=u.blockNum → k=u.header.producer) := by
    rw [hum,hgm,hub,hupr']
    exact lastProduced_assign hb1 hs.last_produced p.producerName
  have hwin : ∃ X,u.confirmCount=X++[1] := by
    obtain ⟨Y,hY⟩ := window_generateNext hg hlen hs.window
    exact ⟨Y++[1],by rw [huc,setConfirmed_zero_window hY,List.append_assoc]; rfl⟩
  have hpend : u.pendingSchedule.producers=[] := by rw [hupend,hgp]; exact hs.pending
  have hunum : u.blockNum.toNat=u.header.timestamp.toNat+1 := by rw [hub,toNat_add_one hb1,hut']; omega
  refine ⟨u,by rw [next,hnext]; rfl,?_,hut'⟩
  rcases round_following hs ht (hcact.trans hgact) (hcS.trans hgS) (hct.trans hgt) hu with
    ⟨hT,hact,hS⟩ | ⟨hT,hperm,hS⟩
  · refine ⟨by rw [hact]; exact hs.producers,hpend,by rw [hS]; exact hodd,by rw [hS]; omega,
      by rw [hS]; omega,hunum,hlast,fun _ => ?_,hwin⟩
    rw [hT,Nat.sub_self] at hp
    rw [hact,hp,hupr']
    rfl
  · have hS' : u.scheduledShuffleSlot.toNat=s.header.timestamp.toNat+1 := by rw [hS]; exact hw
    exact ⟨hperm.trans hs.producers,hpend,by omega,by omega,by omega,hunum,hlast,
      fun h => absurd h (by omega),hwin⟩

/-- The block at slot `2^32 - 2` is the second of its round. The block at
the last slot, by the round's second producer and confirming the block
before it, is accepted: its number is 0, and the block before it, whose
count reaches zero, becomes the proposed irreversible block `0 - 1`. -/
theorem roundInv_wrap (hs : RoundInv s) (ht : s.header.timestamp.toNat=2^32-2) :
    ∃ s',s.next (followingHeader s 1)=some s' ∧ s'.blockNum=0 ∧
      s'.dposProposedIrreversibleBlocknum=4294967295 := by
  have hbn := hs.block_num
  have hle := hs.le_start
  have hge := hs.start_le
  have hodd := hs.start_odd
  have hT : s.header.timestamp.toNat=s.scheduledShuffleSlot.toNat+1 := by omega
  obtain ⟨a,b,hab,hne⟩ := pair_of_perm hs.producers
  have hfirst : a.producerName=s.header.producer := by
    simpa [hab] using hs.opens_round hT
  have hp : s.activeSchedule.producers[s.header.timestamp.toNat-s.scheduledShuffleSlot.toNat]?=some b := by
    rw [hT,Nat.add_sub_cancel_left,hab]
    rfl
  have hsn : s.blockNum=4294967295 := UInt32.toNat_inj.mp (by rw [hbn,ht]; rfl)
  obtain ⟨g,u,hg,-,-,-,hu,hnext⟩ := nextPromoted_following hs (by omega) hp (fun v hv => by
    obtain ⟨hvle,hveq⟩ := hs.last_produced _ v hv
    have hsub : s.blockNum+1-(1 : UInt16).toUInt32=s.blockNum := by rw [hsn]; rfl
    rw [hsub]
    refine UInt32.lt_iff_toNat_lt.mpr (lt_of_le_of_ne hvle fun h => hne ?_)
    rw [hfirst,hveq (UInt32.toNat_inj.mp h)])
  obtain ⟨hun,-,-,-,-,-,hup⟩ := frame_unpromoted hu
  obtain ⟨hgn,-,-,-,-⟩ := generateNext_confirm hg
  have hgb : g.blockNum=0 := by rw [hgn,hsn]; rfl
  obtain ⟨Y,hY⟩ := window_generateNext hg hs.producers.length_eq hs.window
  refine ⟨u,by rw [next,hnext]; rfl,by rw [hun,hgb],?_⟩
  rw [hup,setConfirmed_one_window hY,hgb]
  rfl

end Step

/-! ## The chain to the wrap -/

section Run

variable {s₀ : BlockHeaderState} {chain₀ : List BlockVotes}

/-- From a state of the two-producer phase, a block at every slot keeps
the invariant up to slot `2^32 - 2`, each block recorded in the ledger. -/
theorem roundInv_run (h₀ : ChainReachable s₀ chain₀) (hi₀ : RoundInv s₀) (k : ℕ)
    (hk : s₀.header.timestamp.toNat+k+2 ≤ 2^32) :
    ∃ s chain,ChainReachable s chain ∧ RoundInv s ∧
      s.header.timestamp.toNat=s₀.header.timestamp.toNat+k ∧ chain.length=chain₀.length+k := by
  induction k with
  | zero => exact ⟨s₀,chain₀,h₀,hi₀,rfl,rfl⟩
  | succ k ih =>
    obtain ⟨s,chain,hr,hi,ht,hlen⟩ := ih (by omega)
    obtain ⟨s',hnext,hi',ht'⟩ := roundInv_next hi (by omega)
    refine ⟨s',_,.next (followingHeader s 0) hr (fun p hp => ?_) hnext,hi',by omega,?_⟩
    · simp [followingHeader] at hp
    · rw [List.length_append,List.length_singleton,hlen,Nat.add_assoc]

end Run

/-- The headers of blocks 2 to 5: the system account at slots 1 to 3,
proposing the two producers at block 3; block 4 promotes them, and producer
1, first in their shuffled order, produces block 5 at slot 4. -/
def pairHeaders : List BlockHeader :=
  [{timestamp := 1, producer := systemAccountName, confirmed := 0},
   {timestamp := 2, producer := systemAccountName, confirmed := 0, newProducers := some pairSchedule},
   {timestamp := 3, producer := systemAccountName, confirmed := 0},
   {timestamp := 4, producer := 1, confirmed := 0, scheduleVersion := 1}]

/-- Block 5, from a genesis at slot 0, with its ledger. -/
def pairStart : BlockHeaderState × List BlockVotes :=
  (nextLedger (genesis 0 0,[]) pairHeaders).get (by decide +kernel)

theorem pairStart_reachable : ChainReachable pairStart.1 pairStart.2 := by
  have e : nextLedger (genesis 0 0,[]) pairHeaders=some pairStart := Option.eq_some_of_isSome (by decide +kernel)
  exact chainReachable_nextLedger _ (by decide +kernel) (.genesis 0 0) e

theorem pairStart_roundInv : RoundInv pairStart.1 := by
  have hmap : ∀ e ∈ pairStart.1.producerToLastProduced.toList,
      e.2.toNat ≤ pairStart.1.blockNum.toNat ∧ (e.2=pairStart.1.blockNum → e.1=pairStart.1.header.producer) := by
    decide +kernel
  exact ⟨by decide +kernel,by decide +kernel,by decide +kernel,by decide +kernel,by decide +kernel,
    by decide +kernel,fun k v h => hmap _ (Map.mem_toList_of_find? h),fun _ => by decide +kernel,
    ⟨[],by decide +kernel⟩⟩

theorem proposed_exceeds_block_num_at_wrap :
    ∃ s chain promoted,ChainReachable s chain ∧ Reachable chain.length s promoted ∧ chain.length+1=2^32 ∧
      s.blockNum=0 ∧ s.dposProposedIrreversibleBlocknum=4294967295 := by
  have ht₀ : pairStart.1.header.timestamp.toNat=4 := by decide +kernel
  have hl₀ : pairStart.2.length=4 := by decide +kernel
  obtain ⟨s,chain,hr,hi,ht,hlen⟩ :=
    roundInv_run pairStart_reachable pairStart_roundInv (2^32-6) (by rw [ht₀]; omega)
  rw [ht₀] at ht
  rw [hl₀] at hlen
  obtain ⟨s',hnext,hnum,hprop⟩ := roundInv_wrap hi (by omega)
  have hr' := ChainReachable.next (followingHeader s 1) hr (fun p hp => by simp [followingHeader] at hp) hnext
  obtain ⟨promoted,hreach⟩ := hr'.reachable
  refine ⟨s',_,promoted,hr',hreach,?_,hnum,hprop⟩
  rw [List.length_append,List.length_singleton,hlen]
  omega

end Cyberway.BlockNumWrap
