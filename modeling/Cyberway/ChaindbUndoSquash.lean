import Cyberway.ChaindbUndoEntry

/-!
# Squash of two neighbouring undo states

`undo_stack_impl::squash` merges the head state `B` of a table into the
state `A` below it when their revisions are neighbours. Three loops run over
the old, new and removed values of `B`; each step looks up the key in the
maps of `A` and moves, copies or drops a record. Read key by key
(`entryOf`), every step changes `A` at its own key only, so each loop acts
key by key (`Cyberway.UndoLog.foldl_pointwise`), and the three loops
together give the merge table of the source comment
(`Cyberway.UndoLog.Entry.merge`) at every key. On a table reached by
sessions and row operations the pairs the comment marks N/A never occur, so
the merge succeeds. Its undo effect is that of undoing `B` and then `A` on
every store in which the rows `B` removed are absent; on a store that
holds a row `A` inserted and `B` removed it is not.
-/

namespace Cyberway.ChaindbUndoSquash

open ChaindbObject ChaindbJournal ChaindbUndoState ChaindbUndoStack ChaindbUndoEntry UndoLog

/-- The fields of a state other than its maps. -/
def header (s : UndoState) : PrimaryKey × PrimaryKey × Revision := (s.nextPk,s.undoNextPk,s.revision)

/-- `a'` differs from `a` in its maps at key `pk` only. -/
structure ChangedAt (a a' : UndoState) (pk : PrimaryKey) : Prop where
  /-- Every other key keeps its records. -/
  far : ∀ q, q≠pk → slot a' q=slot a q
  /-- The next primary key and the revision stay. -/
  header : header a'=header a

/-- The entry of a merge accumulator; a failed merge has none. -/
def accEntry (acc : Option (UndoState × List JournalWrite)) (q : PrimaryKey) : Entry ObjectData :=
  match acc with
  | some (a,_) => entryOf a q
  | none => .nop

/-! ## One step of each loop -/

/-- `B` updated the row: a row `A` inserted or updated keeps its entry, an
untouched row takes `B`'s pre-image. -/
theorem mergeOld_spec {a b : UndoState} {w : List JournalWrite} {x : ObjectValue}
    (hwf : WellFormed a) (hx : ∀ z, entryOf a x.pk≠.del z) :
    ∃ a' w', mergeOld b (some (a,w)) x=some (a',w') ∧ WellFormed a' ∧ ChangedAt a a' x.pk ∧
      entryOf a' x.pk=(entryOf a x.pk).merge (.upd (preImage x)) := by
  simp only [mergeOld,Option.bind_eq_bind,Option.bind_some]
  cases hn : a.newValues[x.pk]? with
  | some n =>
    obtain ⟨hs0,hpk⟩ := slot_of_new hwf hn
    simp only [slot,Prod.mk.injEq] at hs0
    refine ⟨_,_,rfl,?_⟩
    have hfar : ∀ q, q≠x.pk → slot {a with newValues := a.newValues.insert x.pk (copyUndoObject n x)} q=
        slot a q := by
      intro q hq
      simp [slot,Std.TreeMap.getElem?_insert,Ne.symm hq]
    have hat : slot {a with newValues := a.newValues.insert x.pk (copyUndoObject n x)} x.pk=
        (some (copyUndoObject n x),none,none) := by
      simp only [slot,Std.TreeMap.getElem?_insert_self,hs0.2.1,hs0.2.2]
    refine ⟨wellFormed_of_slot hwf hfar (by rw [hat]; exact hpk),⟨hfar,rfl⟩,?_⟩
    rw [entryOf,hat,entryOf,slot,hn]
    rfl
  | none =>
    cases ho : a.oldValues[x.pk]? with
    | some o =>
      obtain ⟨hs0,hpk⟩ := slot_of_old hwf ho
      simp only [slot,Prod.mk.injEq] at hs0
      refine ⟨_,_,rfl,?_⟩
      have hfar : ∀ q, q≠x.pk → slot {a with oldValues := a.oldValues.insert x.pk (copyUndoObject o x)} q=
          slot a q := by
        intro q hq
        simp [slot,Std.TreeMap.getElem?_insert,Ne.symm hq]
      have hat : slot {a with oldValues := a.oldValues.insert x.pk (copyUndoObject o x)} x.pk=
          (none,some (copyUndoObject o x),none) := by
        simp only [slot,Std.TreeMap.getElem?_insert_self,hs0.1,hs0.2.2]
      refine ⟨wellFormed_of_slot hwf hfar (by rw [hat]; exact hpk),⟨hfar,rfl⟩,?_⟩
      rw [entryOf,hat,entryOf,slot,hn,ho]
      rfl
    | none =>
      have hr : a.removedValues[x.pk]?=none := by
        cases hr : a.removedValues[x.pk]? with
        | none => rfl
        | some r => exact absurd (by simp [entryOf,slot,slotEntry,hn,ho,hr]) (hx (preImage r))
      have hc : a.removedValues.contains x.pk=false := by
        simp [Std.TreeMap.contains_eq_isSome_getElem?,hr]
      simp only [hc,Bool.false_eq_true,if_false]
      refine ⟨_,_,rfl,?_⟩
      have hfar : ∀ q, q≠x.pk → slot {a with
          oldValues := a.oldValues.insertIfNew x.pk (setRevision x a.revision)} q=slot a q := by
        intro q hq
        simp [slot,Std.TreeMap.getElem?_insertIfNew,Ne.symm hq]
      have hat : slot {a with oldValues := a.oldValues.insertIfNew x.pk (setRevision x a.revision)} x.pk=
          (none,some (setRevision x a.revision),none) := by
        simp only [slot,getElem?_insertIfNew_of_none ho,hn,hr]
      refine ⟨wellFormed_of_slot hwf hfar (by rw [hat]; rfl),⟨hfar,rfl⟩,?_⟩
      rw [entryOf,hat,entryOf,slot,hn,ho,hr]
      simp [slotEntry]

/-- `B` inserted the row: a row `A` removed comes back as updated, with
`A`'s pre-image; an untouched row becomes new. -/
theorem mergeNew_spec {a b : UndoState} {w : List JournalWrite} {x : ObjectValue}
    (hwf : WellFormed a) (hx : entryOf a x.pk=.nop ∨ ∃ y, entryOf a x.pk=.del y) :
    WellFormed (mergeNew b (a,w) x).1 ∧ ChangedAt a (mergeNew b (a,w) x).1 x.pk ∧
      entryOf (mergeNew b (a,w) x).1 x.pk=(entryOf a x.pk).merge .new := by
  simp only [mergeNew]
  cases hr : a.removedValues[x.pk]? with
  | some r =>
    obtain ⟨hs0,hpk⟩ := slot_of_removed hwf hr
    simp only [slot,Prod.mk.injEq] at hs0
    simp only
    set a' : UndoState := {a with
      oldValues := a.oldValues.insertIfNew x.pk (setUndoRec r .oldValue)
      removedValues := a.removedValues.erase x.pk}
    have hfar : ∀ q, q≠x.pk → slot a' q=slot a q := by
      intro q hq
      simp [a',slot,Std.TreeMap.getElem?_erase,Std.TreeMap.getElem?_insertIfNew,Ne.symm hq]
    have hat : slot a' x.pk=(none,some (setUndoRec r .oldValue),none) := by
      simp only [a',slot,getElem?_insertIfNew_of_none hs0.2.1,Std.TreeMap.getElem?_erase_self,hs0.1]
    refine ⟨wellFormed_of_slot hwf hfar (by rw [hat]; exact hpk),⟨hfar,rfl⟩,?_⟩
    rw [entryOf,hat,entryOf,slot,hs0.1,hs0.2.1,hr]
    rfl
  | none =>
    have hs0 : slot a x.pk=(none,none,none) := by
      rcases slot_cases (hwf x.pk) with h0 | ⟨n,hn,-⟩ | ⟨o,ho,-⟩ | ⟨r,hr',-⟩
      · exact h0
      · simp [entryOf,hn,slotEntry] at hx
      · simp [entryOf,ho,slotEntry] at hx
      · simp_all [slot]
    have hs := hs0
    simp only [slot,Prod.mk.injEq] at hs
    simp only
    set a' : UndoState := {a with newValues := a.newValues.insertIfNew x.pk (setRevision x a.revision)}
    have hfar : ∀ q, q≠x.pk → slot a' q=slot a q := by
      intro q hq
      simp [a',slot,Std.TreeMap.getElem?_insertIfNew,Ne.symm hq]
    have hat : slot a' x.pk=(some (setRevision x a.revision),none,none) := by
      simp only [a',slot,getElem?_insertIfNew_of_none hs.1,hs.2.1,hs.2.2]
    refine ⟨wellFormed_of_slot hwf hfar (by rw [hat]; rfl),⟨hfar,rfl⟩,?_⟩
    rw [entryOf,hat,entryOf,hs0]
    rfl

/-- `B` removed the row: a row `A` inserted is forgotten, a row `A` updated
is removed with `A`'s pre-image, an untouched row takes `B`'s. -/
theorem mergeRemoved_spec {a b : UndoState} {w : List JournalWrite} {x : ObjectValue}
    (hwf : WellFormed a) (hx : ∀ z, entryOf a x.pk≠.del z) :
    ∃ a' w', mergeRemoved b (some (a,w)) x=some (a',w') ∧ WellFormed a' ∧ ChangedAt a a' x.pk ∧
      entryOf a' x.pk=(entryOf a x.pk).merge (.del (preImage x)) := by
  simp only [mergeRemoved,Option.bind_eq_bind,Option.bind_some]
  cases hn : a.newValues[x.pk]? with
  | some n =>
    obtain ⟨hs0,-⟩ := slot_of_new hwf hn
    simp only [slot,Prod.mk.injEq] at hs0
    refine ⟨_,_,rfl,?_⟩
    have hfar : ∀ q, q≠x.pk → slot {a with newValues := a.newValues.erase x.pk} q=slot a q := by
      intro q hq
      simp [slot,Std.TreeMap.getElem?_erase,Ne.symm hq]
    have hat : slot {a with newValues := a.newValues.erase x.pk} x.pk=(none,none,none) := by
      simp only [slot,Std.TreeMap.getElem?_erase_self,hs0.2.1,hs0.2.2]
    refine ⟨wellFormed_of_slot hwf hfar (by rw [hat]; trivial),⟨hfar,rfl⟩,?_⟩
    rw [entryOf,hat,entryOf,slot,hn]
    rfl
  | none =>
    cases ho : a.oldValues[x.pk]? with
    | some o =>
      obtain ⟨hs0,hpk⟩ := slot_of_old hwf ho
      simp only [slot,Prod.mk.injEq] at hs0
      refine ⟨_,_,rfl,?_⟩
      set a' : UndoState := {a with
        removedValues := a.removedValues.insertIfNew x.pk o
        oldValues := a.oldValues.erase x.pk}
      have hfar : ∀ q, q≠x.pk → slot a' q=slot a q := by
        intro q hq
        simp [a',slot,Std.TreeMap.getElem?_erase,Std.TreeMap.getElem?_insertIfNew,Ne.symm hq]
      have hat : slot a' x.pk=(none,none,some o) := by
        simp only [a',slot,getElem?_insertIfNew_of_none hs0.2.2,Std.TreeMap.getElem?_erase_self,hs0.1]
      refine ⟨wellFormed_of_slot hwf hfar (by rw [hat]; exact hpk),⟨hfar,rfl⟩,?_⟩
      rw [entryOf,hat,entryOf,slot,hn,ho]
      rfl
    | none =>
      have hr : a.removedValues[x.pk]?=none := by
        cases hr : a.removedValues[x.pk]? with
        | none => rfl
        | some r => exact absurd (by simp [entryOf,slot,slotEntry,hn,ho,hr]) (hx (preImage r))
      have hc : a.removedValues.contains x.pk=false := by
        simp [Std.TreeMap.contains_eq_isSome_getElem?,hr]
      simp only [hc,Bool.false_eq_true,if_false]
      refine ⟨_,_,rfl,?_⟩
      have hfar : ∀ q, q≠x.pk → slot {a with
          removedValues := a.removedValues.insertIfNew x.pk (setRevision x a.revision)} q=slot a q := by
        intro q hq
        simp [slot,Std.TreeMap.getElem?_insertIfNew,Ne.symm hq]
      have hat : slot {a with removedValues := a.removedValues.insertIfNew x.pk (setRevision x a.revision)}
          x.pk=(none,none,some (setRevision x a.revision)) := by
        simp only [slot,getElem?_insertIfNew_of_none hr,hn,ho]
      refine ⟨wellFormed_of_slot hwf hfar (by rw [hat]; rfl),⟨hfar,rfl⟩,?_⟩
      rw [entryOf,hat,entryOf,slot,hn,ho,hr]
      simp [slotEntry]

/-! ## The three loops -/

/-- Every record of the map is stored under its own primary key. -/
def Keyed (m : PkValueMap) : Prop := ∀ (q : PrimaryKey) (o : ObjectValue), m[q]?=some o → o.pk=q

theorem keyed_new {s : UndoState} (hwf : WellFormed s) : Keyed s.newValues :=
  fun _ _ h => (slot_of_new hwf h).2

theorem keyed_old {s : UndoState} (hwf : WellFormed s) : Keyed s.oldValues :=
  fun _ _ h => (slot_of_old hwf h).2

theorem keyed_removed {s : UndoState} (hwf : WellFormed s) : Keyed s.removedValues :=
  fun _ _ h => (slot_of_removed hwf h).2

/-- A record is among the values of a keyed map exactly when it is stored
under its primary key. -/
theorem mem_values {m : PkValueMap} (hk : Keyed m) {x : ObjectValue} :
    x ∈ m.toList.map (·.2) ↔ m[x.pk]?=some x := by
  constructor
  · intro hx
    obtain ⟨⟨q,o⟩,hq,rfl⟩ := List.mem_map.mp hx
    have ho := Std.TreeMap.mem_toList_iff_getElem?_eq_some.mp hq
    rw [hk q o ho]
    exact ho
  · intro hx
    exact List.mem_map.mpr ⟨(x.pk,x),Std.TreeMap.mem_toList_iff_getElem?_eq_some.mpr hx,rfl⟩

/-- The values of a keyed map have distinct primary keys. -/
theorem values_pk_nodup {m : PkValueMap} (hk : Keyed m) :
    ((m.toList.map (·.2)).map ObjectValue.pk).Nodup := by
  have hmap : (m.toList.map (·.2)).map ObjectValue.pk=m.toList.map Prod.fst := by
    rw [List.map_map]
    refine List.map_congr_left fun p hp => ?_
    exact hk p.1 p.2 (Std.TreeMap.mem_toList_iff_getElem?_eq_some.mp hp)
  rw [hmap,Std.TreeMap.map_fst_toList_eq_keys]
  exact Std.TreeMap.nodup_keys

/-- A merge loop over the records of a keyed map of `B`, whose step at a
record `x` changes `A` at `x.pk` only, to `g x` of its entry, acts key by
key: it succeeds, and each key of the map ends at `g` of its record and of
`A`'s entry, every other key at `A`'s entry. -/
theorem mergeLoop_spec {m : PkValueMap} (hk : Keyed m)
    (step : Option (UndoState × List JournalWrite) → ObjectValue → Option (UndoState × List JournalWrite))
    (g : ObjectValue → Entry ObjectData → Entry ObjectData)
    (hstep : ∀ a w x, WellFormed a → (∀ z, entryOf a x.pk≠.del z) → ∃ a' w',
      step (some (a,w)) x=some (a',w') ∧ WellFormed a' ∧ ChangedAt a a' x.pk ∧
        entryOf a' x.pk=g x (entryOf a x.pk))
    {a : UndoState} {w : List JournalWrite} (hwa : WellFormed a)
    (hpre : ∀ q, q ∈ m → ∀ z, entryOf a q≠.del z) :
    ∃ a' w', (m.toList.map (·.2)).foldl step (some (a,w))=some (a',w') ∧ WellFormed a' ∧
      header a'=header a ∧ (∀ q o, m[q]?=some o → entryOf a' q=g o (entryOf a q)) ∧
        ∀ q, q ∉ m → entryOf a' q=entryOf a q := by
  -- the invariant: the accumulator is a well-formed state with `A`'s header
  have hfold := @foldl_pointwise _ _ _ _ _ step ObjectValue.pk accEntry
    (fun acc => ∃ a' w', acc=some (a',w') ∧ WellFormed a' ∧ header a'=header a)
    g (fun _ e => ∀ z, e≠.del z)
    (by
      rintro acc x ⟨a1,w1,rfl,hwf1,hhd1⟩ hx
      obtain ⟨a2,w2,hs,hwf2,hch,hat⟩ := hstep a1 w1 x hwf1 hx
      refine ⟨⟨a2,w2,hs,hwf2,hch.header.trans hhd1⟩,fun q => ?_⟩
      rw [hs]
      by_cases hq : q=x.pk
      · subst hq; simpa [accEntry] using hat
      · simp only [accEntry,if_neg hq]
        exact entryOf_of_slot hch.far q hq)
    (m.toList.map (·.2)) (some (a,w)) (values_pk_nodup hk) ⟨a,w,rfl,hwa,rfl⟩
    (fun x hx => hpre x.pk (Std.TreeMap.mem_iff_isSome_getElem?.mpr (by simp [(mem_values hk).mp hx])))
  obtain ⟨⟨a',w',hres,hwf',hhd⟩,hin,hout⟩ := hfold
  refine ⟨a',w',hres,hwf',hhd,fun q o ho => ?_,fun q hq => ?_⟩
  · have hmem : o ∈ m.toList.map (·.2) := (mem_values hk).mpr (hk q o ho ▸ ho)
    have h := hin o hmem
    rw [hres,hk q o ho] at h
    simpa [accEntry] using h
  · have h := hout q fun x hx hxq => hq (Std.TreeMap.mem_iff_isSome_getElem?.mpr
      (by simp [← hxq,(mem_values hk).mp hx]))
    rw [hres] at h
    simpa [accEntry] using h

/-- The loop over the new values of `B`, whose steps cannot fail. -/
theorem mergeNewLoop_spec {a b : UndoState} {w : List JournalWrite} (hwa : WellFormed a)
    (hwb : WellFormed b) (hpre : ∀ q, q ∈ b.newValues → entryOf a q=.nop ∨ ∃ y, entryOf a q=.del y) :
    WellFormed ((b.newValues.toList.map (·.2)).foldl (mergeNew b) (a,w)).1 ∧
      header ((b.newValues.toList.map (·.2)).foldl (mergeNew b) (a,w)).1=header a ∧
      ∀ q, entryOf ((b.newValues.toList.map (·.2)).foldl (mergeNew b) (a,w)).1 q=
        if q ∈ b.newValues then (entryOf a q).merge .new else entryOf a q := by
  have hk := keyed_new hwb
  have hfold := @foldl_pointwise _ _ _ _ _ (mergeNew b) ObjectValue.pk (fun acc q => entryOf acc.1 q)
    (fun acc => WellFormed acc.1 ∧ header acc.1=header a)
    (fun _ e => e.merge .new) (fun _ e => e=.nop ∨ ∃ y, e=.del y)
    (by
      rintro ⟨a1,w1⟩ x ⟨hwf1,hhd1⟩ hx
      obtain ⟨hwf2,hch,hat⟩ := mergeNew_spec (b := b) (w := w1) hwf1 hx
      refine ⟨⟨hwf2,hch.header.trans hhd1⟩,fun q => ?_⟩
      by_cases hq : q=x.pk
      · subst hq; simpa using hat
      · simp only [if_neg hq]
        exact entryOf_of_slot hch.far q hq)
    (b.newValues.toList.map (·.2)) (a,w) (values_pk_nodup hk) ⟨hwa,rfl⟩
    (fun x hx => hpre x.pk (Std.TreeMap.mem_iff_isSome_getElem?.mpr (by simp [(mem_values hk).mp hx])))
  obtain ⟨⟨hwf',hhd⟩,hin,hout⟩ := hfold
  refine ⟨hwf',hhd,fun q => ?_⟩
  split
  · rename_i hq
    obtain ⟨o,ho⟩ := Option.isSome_iff_exists.mp (Std.TreeMap.mem_iff_isSome_getElem?.mp hq)
    have hmem : o ∈ b.newValues.toList.map (·.2) := (mem_values hk).mpr (hk q o ho ▸ ho)
    simpa [hk q o ho] using hin o hmem
  · rename_i hq
    exact hout q fun x hx hxq => hq (Std.TreeMap.mem_iff_isSome_getElem?.mpr
      (by simp [← hxq,(mem_values hk).mp hx]))

/-! ## The merge -/

/-- The merge of `B` into `A` gives, at every key, the entry of the merge
table. `B` records its session against the rows `σ` and `A` against the
rows that undoing `B` gives back, so the N/A pairs do not occur and the
merge does not fail. -/
theorem mergeValues_spec {a b : UndoState} {σ : Store} (hwa : WellFormed a) (hwb : WellFormed b)
    (hfb : Faithful b σ) (hfa : Faithful a (undoEffect b σ)) :
    ∃ m w, mergeValues a b=some (m,w) ∧ WellFormed m ∧ header m=header a ∧
      ∀ q, entryOf m q=(entryOf a q).merge (entryOf b q) := by
  have hdef : ∀ q, _ := fun q => Entry.merge_defined (hfb q) (hfa q)
  -- loop 1, over the rows `B` updated
  obtain ⟨a1,w1,hl1,hwf1,hhd1,hin1,hout1⟩ := mergeLoop_spec (keyed_old hwb)
    (mergeOld b) (fun x e => e.merge (.upd (preImage x)))
    (fun _ _ _ hwf hx => mergeOld_spec hwf hx) (w := []) hwa
    (fun q hq => by
      obtain ⟨o,ho⟩ := Option.isSome_iff_exists.mp (Std.TreeMap.mem_iff_isSome_getElem?.mp hq)
      exact (hdef q).2 (preImage o) (.inl (by simp [entryOf,(slot_of_old hwb ho).1,slotEntry])))
  have hnot_old : ∀ q, b.oldValues[q]?=none → entryOf a1 q=entryOf a q := fun q hq =>
    hout1 q (by simp [Std.TreeMap.mem_iff_isSome_getElem?,hq])
  -- loop 2, over the rows `B` inserted
  obtain ⟨hwf2,hhd2,hent2⟩ := mergeNewLoop_spec (b := b) (w := w1) hwf1 hwb (fun q hq => by
    obtain ⟨n,hn⟩ := Option.isSome_iff_exists.mp (Std.TreeMap.mem_iff_isSome_getElem?.mp hq)
    have hs := (slot_of_new hwb hn).1
    simp only [slot,Prod.mk.injEq] at hs
    rw [hnot_old q hs.2.1]
    exact (hdef q).1 (by simp [entryOf,slot,hn,slotEntry]))
  set acc2 := (b.newValues.toList.map (·.2)).foldl (mergeNew b) (a1,w1)
  -- loop 3, over the rows `B` removed
  obtain ⟨m,w,hl3,hwf3,hhd3,hin3,hout3⟩ := mergeLoop_spec (keyed_removed hwb)
    (mergeRemoved b) (fun x e => e.merge (.del (preImage x)))
    (fun _ _ _ hwf hx => mergeRemoved_spec hwf hx) (w := acc2.2) hwf2
    (fun q hq => by
      obtain ⟨r,hr⟩ := Option.isSome_iff_exists.mp (Std.TreeMap.mem_iff_isSome_getElem?.mp hq)
      have hs := (slot_of_removed hwb hr).1
      simp only [slot,Prod.mk.injEq] at hs
      rw [hent2 q,if_neg (by simp [Std.TreeMap.mem_iff_isSome_getElem?,hs.1]),hnot_old q hs.2.1]
      exact (hdef q).2 (preImage r) (.inr (by simp [entryOf,slot,hs.1,hs.2.1,hr,slotEntry])))
  refine ⟨m,w,?_,hwf3,hhd3.trans (hhd2.trans hhd1),fun q => ?_⟩
  · simp only [mergeValues,hl1,Option.bind_eq_bind,Option.bind_some]
    exact hl3
  · rcases slot_cases (hwb q) with h0 | ⟨n,hn,-⟩ | ⟨o,ho,-⟩ | ⟨r,hr,-⟩
    · simp only [slot,Prod.mk.injEq] at h0
      rw [hout3 q (by simp [Std.TreeMap.mem_iff_isSome_getElem?,h0.2.2]),hent2 q,
        if_neg (by simp [Std.TreeMap.mem_iff_isSome_getElem?,h0.1]),hnot_old q h0.2.1]
      simp [entryOf,slot,h0,slotEntry]
    · simp only [slot,Prod.mk.injEq] at hn
      rw [hout3 q (by simp [Std.TreeMap.mem_iff_isSome_getElem?,hn.2.2]),hent2 q,
        if_pos (by simp [Std.TreeMap.mem_iff_isSome_getElem?,hn.1]),hnot_old q hn.2.1]
      simp [entryOf,slot,hn,slotEntry]
    · simp only [slot,Prod.mk.injEq] at ho
      rw [hout3 q (by simp [Std.TreeMap.mem_iff_isSome_getElem?,ho.2.2]),hent2 q,
        if_neg (by simp [Std.TreeMap.mem_iff_isSome_getElem?,ho.1]),hin1 q _ ho.2.1]
      simp [entryOf,slot,ho,slotEntry]
    · simp only [slot,Prod.mk.injEq] at hr
      rw [hin3 q r hr.2.2,hent2 q,if_neg (by simp [Std.TreeMap.mem_iff_isSome_getElem?,hr.1]),
        hnot_old q hr.2.1]
      simp [entryOf,slot,hr,slotEntry]

@[simp] theorem updateStage_stack (t : TableUndoStack) : t.updateStage.stack=t.stack := by
  unfold TableUndoStack.updateStage
  split_ifs <;> rfl

/-- `undo` in stage `Stack` pops the head. -/
theorem undo_stack {t : TableUndoStack} (h : t.stage=.stack) :
    ∃ t', t.undo=some t' ∧ t'.stack=t.stack.tail := by
  simp [TableUndoStack.undo,h]

theorem hasNextPk_eq_false {s : UndoState} (h : s.hasNextPk=false) : s.nextPk=primaryKeyUnset := by
  simpa [UndoState.hasNextPk] using h

/-- The state below the head after `squash`: the merged maps, with the
next primary key of `A` if it had one and `B`'s otherwise. -/
theorem mergeStates_spec {t : TableUndoStack} {a b m : UndoState} {rest : List UndoState}
    {w : List JournalWrite} (hstage : t.stage=.stack) (hst : t.stack=b::a::rest)
    (hm : mergeValues a b=some (m,w)) (hhd : header m=header a)
    (hnpk : b.hasNextPk → b.revision ∈ t.undoNextPkMap) :
    ∃ t' w' m', mergeStates t a b=some (t',w') ∧ t'.stack=m'::rest ∧ (∀ q, slot m' q=slot m q) ∧
      m'.nextPk=if a.hasNextPk then a.nextPk else b.nextPk := by
  simp only [header,Prod.mk.injEq] at hhd
  have ham : m.hasNextPk=a.hasNextPk := by simp [UndoState.hasNextPk,hhd.1]
  simp only [mergeStates,hm,Option.bind_eq_bind,Option.bind_some]
  cases hb : b.hasNextPk with
  | false =>
    obtain ⟨t',hu,ht'⟩ := undo_stack (t := {t with stack := b::m::t.stack.drop 2}) hstage
    refine ⟨t',w++[],m,by simp [hu],by simp [ht',hst],fun _ => rfl,?_⟩
    split
    · exact hhd.1
    · rename_i ha
      rw [hhd.1,hasNextPk_eq_false (by simpa using ha),hasNextPk_eq_false hb]
  | true =>
    cases ha : a.hasNextPk with
    | true =>
      obtain ⟨t',hu,ht'⟩ := undo_stack (t := {t with
        stack := (removeNextPk t.info b).2::m::t.stack.drop 2}) hstage
      refine ⟨t',w++(removeNextPk t.info b).1,m,by simp [ham,ha,hu],by simp [ht',hst],fun _ => rfl,
        by simp [hhd.1]⟩
    | false =>
      obtain ⟨upk,hupk⟩ := Option.isSome_iff_exists.mp
        (Std.TreeMap.mem_iff_isSome_getElem?.mp (hnpk hb))
      have hmove : moveNextPk t m b=some ({t with undoNextPkMap :=
          (t.undoNextPkMap.insertIfNew m.revision upk).erase b.revision},
          {m with nextPk := b.nextPk, undoNextPk := b.undoNextPk},b.resetNextPk) := by
        simp [moveNextPk,TableUndoStack.moveUndoNextPk,hupk]
      obtain ⟨t',hu,ht'⟩ := undo_stack (t := {t with
        undoNextPkMap := (t.undoNextPkMap.insertIfNew m.revision upk).erase b.revision
        stack := b.resetNextPk::{m with nextPk := b.nextPk, undoNextPk := b.undoNextPk}::t.stack.drop 2})
        hstage
      refine ⟨t',w++[.undo (.revision b.revision (b.nextPkObject t.info))],
        {m with nextPk := b.nextPk, undoNextPk := b.undoNextPk},by simp [ham,ha,hmove,hu],by simp [ht',hst],fun _ => rfl,by simp⟩

/-- `squash` at the head's revision, with a neighbour below, is `mergeStates`. -/
theorem squashTable_eq_mergeStates {t : TableUndoStack} {a b : UndoState} {rest : List UndoState}
    (hstage : t.stage=.stack) (hst : t.stack=b::a::rest) (hrev : a.revision=b.revision-1)
    (tailRevision : Revision) : squashTable tailRevision t b.revision=mergeStates t a b := by
  have hhead : t.head=some (t,b) := by simp [TableUndoStack.head,hstage,hst]
  have hprev : t.prevState=some a := by simp [TableUndoStack.prevState,hstage,hst]
  simp [squashTable,TableUndoStack.headRevision,hst,hhead,hprev,hrev]

/-- A key whose entry is `del` is among the removed values. -/
theorem mem_removed_of_del {s : UndoState} {q : PrimaryKey} {y : ObjectData}
    (h : entryOf s q=.del y) : q ∈ s.removedValues := by
  rw [Std.TreeMap.mem_iff_isSome_getElem?]
  unfold entryOf slot slotEntry at h
  split at h <;> simp_all

/-! ## Squash of a reachable table -/

/-- On a table reached by sessions and row operations, `squash` at the
revision of the head `B`, with `A` the neighbour below it, succeeds; the
merged state replaces both; its entry at every key is the merge table's;
undoing it is undoing `B` and then `A` on every store in which the rows `B`
removed are absent; and its next primary key is `A`'s if `A` had one and
`B`'s otherwise. -/
theorem squash_merges_neighbour_states {t : TableUndoStack} {σ : Store} {a b : UndoState}
    {rest : List UndoState} (hr : Reachable t σ) (hstage : t.stage=.stack) (hst : t.stack=b::a::rest)
    (hrev : a.revision=b.revision-1) (tailRevision : Revision) :
    ∃ t' w m, squashTable tailRevision t b.revision=some (t',w) ∧ t'.stack=m::rest ∧
      (∀ q, entryOf m q=(entryOf a q).merge (entryOf b q)) ∧
      (∀ τ : Store, (∀ q, q ∈ b.removedValues → τ q=none) →
        undoEffect m τ=undoEffect a (undoEffect b τ)) ∧
      m.nextPk=if a.hasNextPk then a.nextPk else b.nextPk := by
  have hinv := reachable_tableInv hr
  have hf := hinv.faithful
  rw [hst] at hf
  obtain ⟨hwb,hfb,hwa,hfa,-⟩ := hf
  obtain ⟨m,w,hm,-,hhd,hent⟩ := mergeValues_spec hwa hwb hfb hfa
  obtain ⟨t',w',m',hms,hst',hslot,hnpk⟩ := mergeStates_spec hstage hst hm hhd
    (hinv.nextPk b (by simp [hst]))
  -- moving the next primary key leaves the maps, hence the entries
  have hent' : ∀ q, entryOf m' q=(entryOf a q).merge (entryOf b q) := fun q => by
    rw [entryOf,hslot q,← entryOf,hent q]
  refine ⟨t',w',m',by rw [squashTable_eq_mergeStates hstage hst hrev]; exact hms,hst',hent',
    fun τ habs => ?_,hnpk⟩
  have heq : entryOf m'=fun q => (entryOf a q).merge (entryOf b q) := funext hent'
  simp only [undoEffect,heq]
  exact undo_merge fun q y hq => habs q (mem_removed_of_del hq)

/-! ## A row inserted in one session and removed in the next -/

/-- Row 7 of the example table `(1, 2, 3)`. -/
def newDelRow : ObjectValue := {service := {pk := 7, payer := 5, size := 10}, value := .uint64 100}

/-- Session 1 of a new table inserts row 7. -/
def newDelInserted : TableUndoStack :=
  ((insertTable 1 1 (.create (1,2,3) 1) newDelRow).get (by decide +kernel)).1

/-- Session 2 starts. -/
def newDelSession : TableUndoStack := (newDelInserted.startSession 2).get (by decide +kernel)

/-- Session 2 removes row 7: the head records `del`, the state below `new`. -/
def newDelTable : TableUndoStack :=
  ((removeTable 2 3 newDelSession newDelRow).get (by decide +kernel)).1

/-- The rows after both sessions: row 7 came and went. -/
def newDelRows : Store :=
  Function.update (Function.update (fun _ => none) newDelRow.pk (some newDelRow.data)) newDelRow.pk none

theorem newDel_reachable : Reachable newDelTable newDelRows := by
  have e1 : insertTable 1 1 (.create (1,2,3) 1) newDelRow=
      some (newDelInserted,((insertTable 1 1 (.create (1,2,3) 1) newDelRow).get (by decide +kernel)).2) :=
    Option.eq_some_of_isSome (by decide +kernel)
  have e2 : newDelInserted.startSession 2=some newDelSession := Option.eq_some_of_isSome (by decide +kernel)
  have e3 : removeTable 2 3 newDelSession newDelRow=
      some (newDelTable,((removeTable 2 3 newDelSession newDelRow).get (by decide +kernel)).2) :=
    Option.eq_some_of_isSome (by decide +kernel)
  exact .remove (.startSession (.insert (.create _ _ _) rfl e1) e2) (Function.update_self ..) e3

/-- The head `B` of the example table: session 2, which removed row 7. -/
def newDelHead : UndoState := newDelTable.stack.getD 0 default

/-- The state `A` below the head: session 1, which inserted row 7. -/
def newDelBelow : UndoState := newDelTable.stack.getD 1 default

theorem newDelTable_stack : newDelTable.stack=[newDelHead,newDelBelow] := by
  obtain ⟨x,y,hxy⟩ := List.length_eq_two.mp (by decide +kernel : newDelTable.stack.length=2)
  simp only [newDelHead,newDelBelow,hxy]
  rfl

theorem squash_merges_newDel_states :
    ∃ t' w m, squashTable 0 newDelTable newDelHead.revision=some (t',w) ∧ t'.stack=[m] ∧
      (∀ q, entryOf m q=(entryOf newDelBelow q).merge (entryOf newDelHead q)) ∧
      (∀ τ : Store, (∀ q, q ∈ newDelHead.removedValues → τ q=none) →
        undoEffect m τ=undoEffect newDelBelow (undoEffect newDelHead τ)) ∧
      m.nextPk=if newDelBelow.hasNextPk then newDelBelow.nextPk else newDelHead.nextPk :=
  squash_merges_neighbour_states newDel_reachable (by decide +kernel) newDelTable_stack
    (by decide +kernel) 0

/-- The squash of the example table at revision 2. -/
def newDelSquashed : TableUndoStack × List JournalWrite :=
  (squashTable 0 newDelTable newDelHead.revision).get (by decide +kernel)

/-- The merged state. -/
def newDelMerged : UndoState := newDelSquashed.1.stack.getD 0 default

/-- A store that still holds row 7. -/
def newDelStale : Store := fun q => if q=7 then some newDelRow.data else none

/-- On a store that still holds row 7, which `A` inserted and `B` removed,
the merged state keeps the row while undoing `B` and then `A` erases it. -/
theorem squash_undo_differs_on_some_store :
    Reachable newDelTable newDelRows ∧ newDelTable.stage=.stack ∧
      newDelTable.stack=[newDelHead,newDelBelow] ∧ newDelBelow.revision=newDelHead.revision-1 ∧
      squashTable 0 newDelTable newDelHead.revision=some newDelSquashed ∧
      newDelSquashed.1.stack=[newDelMerged] ∧
      undoEffect newDelMerged newDelStale≠undoEffect newDelBelow (undoEffect newDelHead newDelStale) := by
  have hm : newDelSquashed.1.stack=[newDelMerged] := by
    obtain ⟨x,hx⟩ := List.length_eq_one_iff.mp (by decide +kernel : newDelSquashed.1.stack.length=1)
    simp only [newDelMerged,hx]
    rfl
  refine ⟨newDel_reachable,by decide +kernel,newDelTable_stack,by decide +kernel,
    Option.eq_some_of_isSome (by decide +kernel),hm,fun h => ?_⟩
  have hl : (undoEffect newDelMerged newDelStale 7).isSome=true := by decide +kernel
  have hr : (undoEffect newDelBelow (undoEffect newDelHead newDelStale) 7).isSome=false := by
    decide +kernel
  rw [congrFun h 7,hr] at hl
  exact Bool.false_ne_true hl

end Cyberway.ChaindbUndoSquash
