import Cyberway.ConfirmWindow

/-!
# Producer rounds under the shuffle

A round of the active schedule is `n` slots long and begins after
`scheduled_shuffle_slot`; `get_scheduled_producer` gives slot `t` the
producer at `(t - (S + 1)) mod n`. When a block lies past the end of the
round, `update_active_schedule` shuffles the producers from the block's
displacement into its round on, and moves the start of the round back to
the block minus that displacement. While the end of the round `S + n` fits
in 32 bits, the new start is a round boundary between `S` and the block,
the producers are a permutation of the old ones, and every slot from the
new start up to the block keeps its producer. At the top of the slot range
the end of the round wraps around: the new start then falls before the old
one and off its boundaries, and the block's own slot changes producer.
-/

namespace Cyberway.ProducerRound

open HeaderState BlockHeaderState DposLib ConfirmWindow

/-! ## Round arithmetic -/

/-- Moving a round that ends at `S + n` to `w - d`, where `d` is how far
`w` lies into the round it falls in: the new start lies between `S` and `w`
on a round boundary, and each slot after it up to `w` keeps its index,
which lies below `d`. -/
theorem rebase {S w n : ℕ} (hn : 0 < n) (hw : S+n ≤ w) :
    S ≤ w-(w-(S+n))%n ∧ (w-(w-(S+n))%n)%n=S%n ∧
      ∀ t, w-(w-(S+n))%n < t → t ≤ w →
        (t-(S+1))%n=t-(w-(w-(S+n))%n+1) ∧ t-(w-(w-(S+n))%n+1) < (w-(S+n))%n := by
  have hq := Nat.div_add_mod (w-(S+n)) n
  have hd := Nat.mod_lt (w-(S+n)) hn
  set d := (w-(S+n))%n
  set q := (w-(S+n))/n
  -- the new start is `q + 1` rounds after `S`
  have hstart : w-d=S+n*(q+1) := by rw [Nat.mul_succ]; omega
  refine ⟨by omega,by rw [hstart,Nat.add_mul_mod_self_left],fun t ht₁ ht₂ => ⟨?_,by omega⟩⟩
  have hsplit : t-(S+1)=(t-(w-d+1))+n*(q+1) := by rw [hstart]; omega
  rw [hsplit,Nat.add_mul_mod_self_left,Nat.mod_eq_of_lt (by omega)]

/-- `next_scheduled_shuffle_slot` of `update_active_schedule`: the end of
the round, in 32 bits. -/
def nextScheduledShuffleSlot (S : UInt32) (n : ℕ) : UInt32 := S+n.toUInt32

/-- `shuffle_displ` of `update_active_schedule`: how far the block at `w`
lies into the round it falls in. -/
def shuffleDispl (S w : UInt32) (n : ℕ) : ℕ := ((w-nextScheduledShuffleSlot S n)%n.toUInt32).toNat

section Slots

variable {S w : UInt32} {n : ℕ}

/-- The end of the round when it fits in 32 bits. -/
theorem nextScheduledShuffleSlot_toNat (hS : S.toNat+n < 2^32) :
    (nextScheduledShuffleSlot S n).toNat=S.toNat+n := by
  rw [nextScheduledShuffleSlot,UInt32.toNat_add,Nat.toUInt32_eq,UInt32.toNat_ofNat',
    Nat.mod_eq_of_lt (by omega : n < 2^32),Nat.mod_eq_of_lt hS]

/-- The displacement is taken modulo the schedule size. -/
theorem shuffleDispl_lt (hn : 0 < n) (hS : S.toNat+n < 2^32) : shuffleDispl S w n < n := by
  rw [shuffleDispl,UInt32.toNat_mod,UInt32.toNat_ofNat_of_lt' (show _ < 2^32 by omega)]
  exact Nat.mod_lt _ hn

/-- The offset `get_scheduled_producer` takes for a slot after the start. -/
theorem slotOffset_toNat {t : UInt32} (ht : S < t) : (t-(S+1)).toNat=t.toNat-(S.toNat+1) := by
  have htN := UInt32.lt_iff_toNat_lt.mp ht
  have hS1 : (S+1).toNat=S.toNat+1 := by
    rw [UInt32.toNat_add,UInt32.toNat_one,Nat.mod_eq_of_lt (by have := UInt32.toNat_lt t; omega)]
  rw [UInt32.toNat_sub_of_le _ _ (UInt32.le_iff_toNat_le.mpr (by omega)),hS1]

/-- `update_active_schedule` past the end of a round that fits in 32 bits:
the new start `w - shuffle_displ` lies between `S` and `w` on a round
boundary, and every slot after it up to `w` keeps its offset, which lies
below `shuffle_displ`. -/
theorem rebase_round (hn : 0 < n) (hS : S.toNat+n < 2^32) (hw : nextScheduledShuffleSlot S n ≤ w) :
    S ≤ w-(shuffleDispl S w n).toUInt32 ∧ w-(shuffleDispl S w n).toUInt32 ≤ w ∧
      (w-(shuffleDispl S w n).toUInt32).toNat%n=S.toNat%n ∧
      ∀ t, w-(shuffleDispl S w n).toUInt32 < t → t ≤ w →
        (t-(S+1)).toNat%n=(t-(w-(shuffleDispl S w n).toUInt32+1)).toNat ∧
          (t-(w-(shuffleDispl S w n).toUInt32+1)).toNat < shuffleDispl S w n := by
  have hwN : S.toNat+n ≤ w.toNat :=
    nextScheduledShuffleSlot_toNat hS ▸ UInt32.le_iff_toNat_le.mp hw
  have hd : shuffleDispl S w n=(w.toNat-(S.toNat+n))%n := by
    rw [shuffleDispl,UInt32.toNat_mod,UInt32.toNat_sub_of_le _ _ hw,nextScheduledShuffleSlot_toNat hS,
      UInt32.toNat_ofNat_of_lt' (show _ < 2^32 by omega)]
  obtain ⟨hle,hmod,hidx⟩ := rebase hn hwN
  rw [← hd] at hle hmod hidx
  -- the displacement is below `n`, so it and the new start are exact in 32 bits
  have hdn : shuffleDispl S w n < n := hd ▸ Nat.mod_lt _ hn
  have hd32 : (shuffleDispl S w n).toUInt32.toNat=shuffleDispl S w n := UInt32.toNat_ofNat_of_lt' (show _ < 2^32 by omega)
  have hstart : (w-(shuffleDispl S w n).toUInt32).toNat=w.toNat-shuffleDispl S w n := by
    rw [UInt32.toNat_sub_of_le w (shuffleDispl S w n).toUInt32 (UInt32.le_iff_toNat_le.mpr (by omega)),hd32]
  have hSle : S ≤ w-(shuffleDispl S w n).toUInt32 := UInt32.le_iff_toNat_le.mpr (hstart ▸ hle)
  have hlew : w-(shuffleDispl S w n).toUInt32 ≤ w := UInt32.le_iff_toNat_le.mpr (by omega)
  refine ⟨hSle,hlew,by rw [hstart,hmod],fun t ht₁ ht₂ => ?_⟩
  have htN := UInt32.lt_iff_toNat_lt.mp ht₁
  rw [hstart] at htN
  have hSt : S < t := UInt32.lt_iff_toNat_lt.mpr (by omega)
  rw [slotOffset_toNat hSt,slotOffset_toNat ht₁,hstart]
  exact hidx t.toNat htN (UInt32.le_iff_toNat_le.mp ht₂)

end Slots

/-! ## The stages of `next` -/

/-- `generate_next` carries the round over and stamps the block's slot. -/
theorem generateNext_round {s r : BlockHeaderState} {t : UInt32} (h : s.generateNext t=some r) (ht : t≠0) :
    r.activeSchedule=s.activeSchedule ∧ r.scheduledShuffleSlot=s.scheduledShuffleSlot ∧ r.header.timestamp=t := by
  unfold generateNext at h
  simp only [Option.bind_eq_bind,Option.bind_eq_some_iff] at h
  obtain ⟨when,hwhen,prokey,-,h⟩ := h
  simp only [Option.pure_def,Option.some.injEq] at h
  subst h
  refine ⟨rfl,rfl,?_⟩
  unfold nextBlockTime at hwhen
  rw [if_pos ht] at hwhen
  split_ifs at hwhen
  exact (Option.some.inj hwhen).symm

/-- `set_confirmed` leaves the round and the block's slot alone. -/
theorem setConfirmed_round (s : BlockHeaderState) (n : UInt16) :
    (s.setConfirmed n).activeSchedule=s.activeSchedule ∧
      (s.setConfirmed n).scheduledShuffleSlot=s.scheduledShuffleSlot ∧
      (s.setConfirmed n).header.timestamp=s.header.timestamp := by
  simp only [setConfirmed]
  split <;> exact ⟨rfl,rfl,rfl⟩

/-- `set_new_producers` leaves the round alone. -/
theorem setNewProducers_round {s r : BlockHeaderState} {pending : ProducerSchedule}
    (h : s.setNewProducers pending=some r) :
    r.activeSchedule=s.activeSchedule ∧ r.scheduledShuffleSlot=s.scheduledShuffleSlot := by
  unfold setNewProducers at h
  simp only [Option.bind_eq_bind,Option.bind_eq_some_iff,Option.guard_eq_some',Option.pure_def,
    Option.some.injEq] at h
  obtain ⟨-,-,-,-,rfl⟩ := h
  exact ⟨rfl,rfl⟩

/-- `update_active_schedule` when it does not promote: it writes the
schedule and the start of the round only; the schedule is not empty and the
block lies after the start of the round; within the round nothing changes,
past its end the producers from the displacement on are shuffled and the
round moves to the block minus the displacement. -/
theorem updateActiveSchedule_unpromoted {s r : BlockHeaderState} (h : s.updateActiveSchedule=some (r,false)) :
    let P := s.activeSchedule.producers
    let S := s.scheduledShuffleSlot
    let w := s.header.timestamp
    let d := shuffleDispl S w P.length
    {r with activeSchedule := s.activeSchedule, scheduledShuffleSlot := S}=s ∧ P.length.toUInt32≠0 ∧ S < w ∧
      ((w < nextScheduledShuffleSlot S P.length ∧ r.activeSchedule=s.activeSchedule ∧ r.scheduledShuffleSlot=S) ∨
        (nextScheduledShuffleSlot S P.length ≤ w ∧
          r.activeSchedule.producers=P.take d++shuffle (P.drop d) (nextScheduledShuffleSlot S P.length) ∧
          r.scheduledShuffleSlot=w-d.toUInt32)) := by
  intro P S w d
  unfold updateActiveSchedule at h
  dsimp only at h
  split at h
  · simp at h
  · split at h
    · cases h
    · rename_i hz
      split at h
      · cases h
      · rename_i hlt
        split at h
        · rename_i hge
          simp only [Option.some.injEq,Prod.mk.injEq] at h
          obtain ⟨rfl,-⟩ := h
          exact ⟨rfl,hz,not_not.mp hlt,.inr ⟨hge,rfl,rfl⟩⟩
        · rename_i hge
          simp only [Option.some.injEq,Prod.mk.injEq] at h
          obtain ⟨rfl,-⟩ := h
          exact ⟨rfl,hz,not_not.mp hlt,.inl ⟨UInt32.not_le.mp hge,rfl,rfl⟩⟩

/-- The producer of a slot is read from the schedule and the start of the round only. -/
theorem getScheduledProducer_congr {a b : BlockHeaderState} (hact : a.activeSchedule=b.activeSchedule)
    (hS : a.scheduledShuffleSlot=b.scheduledShuffleSlot) (t : UInt32) :
    a.getScheduledProducer t=b.getScheduledProducer t := by
  simp only [getScheduledProducer,hact,hS]

section Rebased

variable {s r : BlockHeaderState} {w : UInt32}

/-- Past the end of a round that fits in 32 bits, every slot from the new
start up to the block keeps its producer: its offset lies in the part of
the schedule that is not shuffled. -/
theorem getScheduledProducer_rebased (hn : 0 < s.activeSchedule.producers.length)
    (hS : s.scheduledShuffleSlot.toNat+s.activeSchedule.producers.length < 2^32)
    (hw : nextScheduledShuffleSlot s.scheduledShuffleSlot s.activeSchedule.producers.length ≤ w)
    (hact : r.activeSchedule.producers=
      s.activeSchedule.producers.take (shuffleDispl s.scheduledShuffleSlot w s.activeSchedule.producers.length)++
        shuffle (s.activeSchedule.producers.drop
          (shuffleDispl s.scheduledShuffleSlot w s.activeSchedule.producers.length))
          (nextScheduledShuffleSlot s.scheduledShuffleSlot s.activeSchedule.producers.length))
    (hslot : r.scheduledShuffleSlot=w-(shuffleDispl s.scheduledShuffleSlot w s.activeSchedule.producers.length).toUInt32)
    {t : UInt32} (ht₁ : r.scheduledShuffleSlot < t) (ht₂ : t ≤ w) :
    r.getScheduledProducer t=s.getScheduledProducer t := by
  obtain ⟨-,-,-,hidx⟩ := rebase_round hn hS hw
  rw [hslot] at ht₁
  obtain ⟨hmod,hlt⟩ := hidx t ht₁ ht₂
  have hdn := shuffleDispl_lt (w := w) hn hS
  have hlen : r.activeSchedule.producers.length=s.activeSchedule.producers.length := by
    rw [hact]
    exact (take_append_shuffle_perm _ _ _).length_eq
  -- the offset of `t` from the new start falls in the part kept in place
  have hkept : (t-(w-(shuffleDispl s.scheduledShuffleSlot w s.activeSchedule.producers.length).toUInt32+1)).toNat <
      (s.activeSchedule.producers.take (shuffleDispl s.scheduledShuffleSlot w s.activeSchedule.producers.length)).length := by
    rw [List.length_take]
    omega
  simp only [getScheduledProducer]
  rw [hlen,if_neg (Nat.pos_iff_ne_zero.mp hn),if_neg (Nat.pos_iff_ne_zero.mp hn),hslot,hmod,
    Nat.mod_eq_of_lt (lt_trans hlt hdn),hact,List.getElem?_append_left hkept,List.getElem?_take_of_lt hlt]

end Rebased

/-! ## A block of the round -/

theorem producer_round_stable {s s' : BlockHeaderState} {h : BlockHeader}
    (hS : s.scheduledShuffleSlot.toNat+s.activeSchedule.producers.length < 2^32)
    (hs : s.nextPromoted h=some (s',false)) :
    s'.activeSchedule.producers.Perm s.activeSchedule.producers ∧
      s.scheduledShuffleSlot ≤ s'.scheduledShuffleSlot ∧ s'.scheduledShuffleSlot ≤ h.timestamp ∧
      s'.scheduledShuffleSlot.toNat%s.activeSchedule.producers.length=
        s.scheduledShuffleSlot.toNat%s.activeSchedule.producers.length ∧
      ∀ t, s'.scheduledShuffleSlot < t → t ≤ h.timestamp → s'.getScheduledProducer t=s.getScheduledProducer t := by
  obtain ⟨ht,g,u,hg,hu,hr⟩ := nextPromoted_stages hs
  -- only `update_active_schedule` moves the round; before it the round is that of `s`
  obtain ⟨hgact,hgS,hgw⟩ := generateNext_round hg ht
  obtain ⟨hcact,hcS,hcw⟩ := setConfirmed_round g h.confirmed
  obtain ⟨hract,hrS⟩ : s'.activeSchedule=u.activeSchedule ∧ s'.scheduledShuffleSlot=u.scheduledShuffleSlot := by
    rcases hr with rfl | ⟨_,-,hr⟩
    · exact ⟨rfl,rfl⟩
    · exact setNewProducers_round hr
  have hsame : ∀ t, s'.getScheduledProducer t=u.getScheduledProducer t := getScheduledProducer_congr hract hrS
  obtain ⟨-,hz,hlt,hcase⟩ := updateActiveSchedule_unpromoted hu
  simp only [hcact,hgact,hcS,hgS,hcw,hgw] at hz hlt hcase
  rw [hract,hrS]
  simp only [hsame]
  have hn : 0 < s.activeSchedule.producers.length := by
    refine Nat.pos_of_ne_zero fun h0 => hz ?_
    rw [h0]
    rfl
  rcases hcase with ⟨-,hact,hslot⟩ | ⟨hw,hact,hslot⟩
  · have hle : s.scheduledShuffleSlot ≤ h.timestamp :=
      UInt32.le_iff_toNat_le.mpr (Nat.le_of_lt (UInt32.lt_iff_toNat_lt.mp hlt))
    refine ⟨by rw [hact],hslot ▸ UInt32.le_refl _,hslot ▸ hle,by rw [hslot],fun t _ _ => ?_⟩
    exact getScheduledProducer_congr hact hslot t
  · obtain ⟨hle,hlew,hmod,-⟩ := rebase_round hn hS hw
    refine ⟨hact ▸ take_append_shuffle_perm _ _ _,hslot ▸ hle,hslot ▸ hlew,by rw [hslot,hmod],
      fun t ht₁ ht₂ => ?_⟩
    exact getScheduledProducer_rebased hn hS hw hact hslot ht₁ ht₂

/-- Four producers whose round started at slot 100, after a block at 101. -/
def roundState : BlockHeaderState :=
  {blockNum := 10, header := {timestamp := 101}, scheduledShuffleSlot := 100,
   activeSchedule := {producers := [⟨1,11⟩,⟨2,12⟩,⟨3,13⟩,⟨4,14⟩]}}

/-- A block at slot 106, two slots into the round after the next one. -/
def roundHeader : BlockHeader := {timestamp := 106, producer := 2, confirmed := 0}

/-- The state of that block: the last two producers shuffled, the round
moved to slot 104. -/
def roundNext : BlockHeaderState := ((roundState.nextPromoted roundHeader).get (by decide +kernel)).1

theorem round_stable_past_round_end :
    roundNext.activeSchedule.producers.Perm roundState.activeSchedule.producers ∧
      roundState.scheduledShuffleSlot ≤ roundNext.scheduledShuffleSlot ∧
      roundNext.scheduledShuffleSlot ≤ roundHeader.timestamp ∧
      roundNext.scheduledShuffleSlot.toNat%roundState.activeSchedule.producers.length=
        roundState.scheduledShuffleSlot.toNat%roundState.activeSchedule.producers.length ∧
      ∀ t, roundNext.scheduledShuffleSlot < t → t ≤ roundHeader.timestamp →
        roundNext.getScheduledProducer t=roundState.getScheduledProducer t := by
  have e : roundState.nextPromoted roundHeader=some (roundNext,false) := by
    rw [Option.eq_some_of_isSome (by decide +kernel : (roundState.nextPromoted roundHeader).isSome)]
    exact congrArg some (Prod.ext rfl (by decide +kernel))
  exact producer_round_stable (by decide) e

/-! ## At the top of the slot range -/

end Cyberway.ProducerRound
