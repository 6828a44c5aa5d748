import Cyberway.ChaindbUndoStack
import Cyberway.UndoLog

/-!
# What an undo state restores

Read key by key, an `undo_state` is an undo-log entry
(`Cyberway.UndoLog.Entry`): a row in `new_values_` is erased by undo, a row
in `old_values_` or `removed_values_` is written back from the `undo_*`
fields of its record, any other row is left alone. This file gives that
reading (`entryOf`), the well-formedness the three maps keep (a key in at
most one of them, under its own primary key), and shows that `insert`,
`update` and `remove` of `undo_stack_impl` change the head state as the
log algebra says. A table reached from a new table by sessions and row
operations keeps every state a faithful record of its session: undoing the
states newest first walks the store back through the sessions.
-/

namespace Cyberway.ChaindbUndoEntry

open ChaindbObject ChaindbJournal ChaindbUndoState ChaindbUndoStack UndoLog

/-! ## Pre-images -/

/-- The row an undo record writes back: the record's value with the payer,
size and RAM flag of its `undo_*` fields, as `restore_undo_state` makes it. -/
def preImage (o : ObjectValue) : ObjectData := (restoreUndoState o).data

@[simp] theorem preImage_copyUndoObject (o x : ObjectValue) :
    preImage (copyUndoObject o x)=preImage o := rfl

@[simp] theorem preImage_setRevision (o : ObjectValue) (rev : Revision) :
    preImage (setRevision o rev)=preImage o := rfl

@[simp] theorem preImage_setUndoRec (o : ObjectValue) (rec : UndoRecord) :
    preImage (setUndoRec o rec)=preImage o := rfl

/-- A fresh undo record writes back the row it was made from. -/
@[simp] theorem preImage_initUndoObject (rev : Revision) (upk : PrimaryKey) (o : ObjectValue)
    (rec : UndoRecord) : preImage (initUndoObject rev upk o rec)=o.data := by
  simp only [preImage,restoreUndoState,initUndoObject,ObjectValue.data,undoSizeToSize_sizeToUndoSize]

@[simp] theorem pk_copyUndoObject (o x : ObjectValue) : (copyUndoObject o x).pk=o.pk := rfl

@[simp] theorem pk_setRevision (o : ObjectValue) (rev : Revision) : (setRevision o rev).pk=o.pk := rfl

@[simp] theorem pk_setUndoRec (o : ObjectValue) (rec : UndoRecord) : (setUndoRec o rec).pk=o.pk := rfl

@[simp] theorem pk_initUndoObject (rev : Revision) (upk : PrimaryKey) (o : ObjectValue)
    (rec : UndoRecord) : (initUndoObject rev upk o rec).pk=o.pk := rfl

/-! ## A state key by key -/

/-- The records of one primary key in the new, old and removed values. -/
abbrev Slot := Option ObjectValue × Option ObjectValue × Option ObjectValue

/-- The records of primary key `q` in a state. -/
def slot (s : UndoState) (q : PrimaryKey) : Slot :=
  (s.newValues[q]?,s.oldValues[q]?,s.removedValues[q]?)

/-- The undo-log entry of a key's records; the new values come first, as
every lookup of the C++ code tries them first. -/
def slotEntry : Slot → Entry ObjectData
  | (some _,_,_) => .new
  | (none,some o,_) => .upd (preImage o)
  | (none,none,some r) => .del (preImage r)
  | (none,none,none) => .nop

/-- The undo-log entry of a state at primary key `q`. -/
def entryOf (s : UndoState) (q : PrimaryKey) : Entry ObjectData := slotEntry (slot s q)

/-- A key's records are well formed: the key is in at most one of the
three maps, and its record carries the key as its primary key. -/
def SlotWellFormed (q : PrimaryKey) : Slot → Prop
  | (none,none,none) => True
  | (some n,none,none) => n.pk=q
  | (none,some o,none) => o.pk=q
  | (none,none,some r) => r.pk=q
  | _ => False

/-- The maps of a state are well formed at every key. -/
def WellFormed (s : UndoState) : Prop := ∀ q, SlotWellFormed q (slot s q)

/-- The rows of one table as the undo layer sees them. -/
abbrev Store := PrimaryKey → Option ObjectData

/-- What undoing the state does to the table's rows. -/
def undoEffect (s : UndoState) (σ : Store) : Store := undo (entryOf s) σ

/-- The state records a session that left the table's rows as `σ`. -/
def Faithful (s : UndoState) (σ : Store) : Prop := Ends (entryOf s) σ

/-- The well-formed records of one key, by the map that holds them. -/
theorem slot_cases {q : PrimaryKey} {x : Slot} (h : SlotWellFormed q x) :
    x=(none,none,none) ∨ (∃ n, x=(some n,none,none) ∧ n.pk=q) ∨
      (∃ o, x=(none,some o,none) ∧ o.pk=q) ∨ ∃ r, x=(none,none,some r) ∧ r.pk=q := by
  obtain ⟨n,o,r⟩ := x
  cases n <;> cases o <;> cases r <;> simp_all [SlotWellFormed]

/-- A change of a state at one key keeps every other key well formed and
its entry. -/
theorem wellFormed_of_slot {s s' : UndoState} {pk : PrimaryKey} (hwf : WellFormed s)
    (hfar : ∀ q, q≠pk → slot s' q=slot s q) (hpk : SlotWellFormed pk (slot s' pk)) :
    WellFormed s' := by
  intro q
  by_cases hq : q=pk
  · subst hq; exact hpk
  · rw [hfar q hq]; exact hwf q

theorem entryOf_of_slot {s s' : UndoState} {pk : PrimaryKey}
    (hfar : ∀ q, q≠pk → slot s' q=slot s q) (q : PrimaryKey) (hq : q≠pk) :
    entryOf s' q=entryOf s q := by
  rw [entryOf,hfar q hq,entryOf]

/-- The state an undo session starts with records nothing. -/
theorem wellFormed_start (rev : Revision) : WellFormed {revision := rev} := by
  intro q
  simp [slot,SlotWellFormed]

@[simp] theorem entryOf_start (rev : Revision) (q : PrimaryKey) :
    entryOf {revision := rev} q=.nop := by
  simp [entryOf,slot,slotEntry]

/-! ## The head state under row operations -/

/-- `head` leaves the table in stage `Stack` with the head on top: in stage
`New` a state of the table's revision is pushed, otherwise the top stays. -/
theorem head_spec {t t1 : TableUndoStack} {s : UndoState} (h : t.head=some (t1,s)) :
    t1.stage=.stack ∧ t1.undoNextPkMap=t.undoNextPkMap ∧ t1.stack=s::t1.stack.tail ∧
      ((s={revision := t.revision} ∧ t1.stack.tail=t.stack) ∨ t1.stack=t.stack) := by
  unfold TableUndoStack.head at h
  split at h
  · simp only [Option.some.injEq,Prod.mk.injEq] at h
    obtain ⟨rfl,rfl⟩ := h
    simp
  · split at h
    · simp only [Option.some.injEq,Prod.mk.injEq] at h
      obtain ⟨rfl,rfl⟩ := h
      simp_all
    · simp at h
  · simp at h

/-- What a row operation changes besides the head state: the head is
replaced in place, and the undo keys of `NextPk` records only grow; a head
that gains a `NextPk` record has the key of its revision. -/
structure HeadStep (t1 t' : TableUndoStack) (s s' : UndoState) : Prop where
  /-- The new head replaces the old one. -/
  stack : t'.stack=s'::t1.stack.tail
  /-- The stage stays. -/
  stage : t'.stage=t1.stage
  /-- The head keeps its revision. -/
  revision : s'.revision=s.revision
  /-- No undo key of a `NextPk` record is dropped. -/
  keys : ∀ r, r ∈ t1.undoNextPkMap → r ∈ t'.undoNextPkMap
  /-- A `NextPk` record of the new head is old or has its undo key. -/
  nextPk : s'.hasNextPk → s.hasNextPk ∨ s'.revision ∈ t'.undoNextPkMap

/-- Writing back a head changed in its maps only. -/
theorem headStep_setHead {t1 : TableUndoStack} {s s' : UndoState} (hrev : s'.revision=s.revision)
    (hnpk : s'.nextPk=s.nextPk) : HeadStep t1 (t1.setHead s') s s' where
  stack := rfl
  stage := rfl
  revision := hrev
  keys := fun _ h => h
  nextPk := fun h => .inl (by simpa [UndoState.hasNextPk,hnpk] using h)

/-- Writing back a head that received its `NextPk` record. -/
theorem headStep_setNextPk {t1 : TableUndoStack} {s s' : UndoState} {npk upk : PrimaryKey}
    (hrev : s'.revision=s.revision) :
    HeadStep t1 ((setNextPk t1 s' npk upk).1.setHead (setNextPk t1 s' npk upk).2) s
      (setNextPk t1 s' npk upk).2 where
  stack := rfl
  stage := rfl
  revision := hrev
  keys := fun _ h => by simp [setNextPk,TableUndoStack.setUndoNextPk,TableUndoStack.setHead,h]
  nextPk := fun _ => .inr (by simp [setNextPk,TableUndoStack.setUndoNextPk,TableUndoStack.setHead])

@[simp] theorem slot_setNextPk (t : TableUndoStack) (s : UndoState) (npk upk q : PrimaryKey) :
    slot (setNextPk t s npk upk).2 q=slot s q := rfl

@[simp] theorem entryOf_setNextPk (t : TableUndoStack) (s : UndoState) (npk upk q : PrimaryKey) :
    entryOf (setNextPk t s npk upk).2 q=entryOf s q := rfl

theorem wellFormed_setNextPk {t : TableUndoStack} {s : UndoState} {npk upk : PrimaryKey}
    (h : WellFormed s) : WellFormed (setNextPk t s npk upk).2 := h

/-- In a well-formed state a key found in one map is in no other. -/
theorem slot_of_new {s : UndoState} {q : PrimaryKey} {n : ObjectValue} (hwf : WellFormed s)
    (h : s.newValues[q]?=some n) : slot s q=(some n,none,none) ∧ n.pk=q := by
  rcases slot_cases (hwf q) with h0 | ⟨n',hn,hpk⟩ | ⟨o,ho,-⟩ | ⟨r,hr,-⟩ <;> simp_all [slot]

theorem slot_of_old {s : UndoState} {q : PrimaryKey} {o : ObjectValue} (hwf : WellFormed s)
    (h : s.oldValues[q]?=some o) : slot s q=(none,some o,none) ∧ o.pk=q := by
  rcases slot_cases (hwf q) with h0 | ⟨n,hn,-⟩ | ⟨o',ho,hpk⟩ | ⟨r,hr,-⟩ <;> simp_all [slot]

theorem slot_of_removed {s : UndoState} {q : PrimaryKey} {r : ObjectValue} (hwf : WellFormed s)
    (h : s.removedValues[q]?=some r) : slot s q=(none,none,some r) ∧ r.pk=q := by
  rcases slot_cases (hwf q) with h0 | ⟨n,hn,-⟩ | ⟨o,ho,-⟩ | ⟨r',hr,hpk⟩ <;> simp_all [slot]

/-- `emplace` under an absent key stores the value. -/
theorem getElem?_insertIfNew_of_none {β : Type} {m : Std.TreeMap PrimaryKey β} {k : PrimaryKey}
    {v : β} (h : m[k]?=none) : (m.insertIfNew k v)[k]?=some v := by
  rw [Std.TreeMap.getElem?_insertIfNew]
  simp [Std.TreeMap.mem_iff_isSome_getElem?,h]

/-- A key absent from the store and from the removed values of a faithful
state is in none of its maps. -/
theorem slot_of_absent {s : UndoState} {q : PrimaryKey} (hwf : WellFormed s)
    (hend : (entryOf s q).ends none) (hr : s.removedValues[q]?=none) : slot s q=(none,none,none) := by
  rcases slot_cases (hwf q) with h0 | ⟨n,hn,-⟩ | ⟨o,ho,-⟩ | ⟨r,hr',-⟩
  · exact h0
  · simp [entryOf,hn,slotEntry,Entry.ends] at hend
  · simp [entryOf,ho,slotEntry,Entry.ends] at hend
  · simp_all [slot]

/-- A row inserted under a key the session has not touched becomes a new
value. -/
theorem insertNew_spec {s : UndoState} {pk : PrimaryKey} {o : ObjectValue} (hwf : WellFormed s)
    (hs : slot s pk=(none,none,none)) (ho : o.pk=pk) :
    WellFormed {s with newValues := s.newValues.insertIfNew pk o} ∧
      (∀ q, q≠pk → slot {s with newValues := s.newValues.insertIfNew pk o} q=slot s q) ∧
        entryOf {s with newValues := s.newValues.insertIfNew pk o} pk=(entryOf s pk).afterInsert := by
  simp only [slot,Prod.mk.injEq] at hs
  have hfar : ∀ q, q≠pk → slot {s with newValues := s.newValues.insertIfNew pk o} q=slot s q := by
    intro q hq
    simp [slot,Std.TreeMap.getElem?_insertIfNew,Ne.symm hq]
  have hat : slot {s with newValues := s.newValues.insertIfNew pk o} pk=(some o,none,none) := by
    simp only [slot,getElem?_insertIfNew_of_none hs.1,hs.2.1,hs.2.2]
  refine ⟨wellFormed_of_slot hwf hfar (by rw [hat]; exact ho),hfar,?_⟩
  rw [entryOf,hat,entryOf,slot,hs.1,hs.2.1,hs.2.2]
  rfl

/-- `insert` of a row whose key is absent: the head's entry at the key
becomes `afterInsert` of what it was, every other key keeps its records. -/
theorem insertTable_spec {revision : Revision} {undoPk undoPk' : PrimaryKey}
    {t t' : TableUndoStack} {obj : ObjectValue} {w : List JournalWrite}
    (h : insertTable revision undoPk t obj=some (t',undoPk',w)) :
    ∃ t1 s s', t.head=some (t1,s) ∧ HeadStep t1 t' s s' ∧
      (WellFormed s → (entryOf s obj.pk).ends none →
        WellFormed s' ∧ (∀ q, q≠obj.pk → slot s' q=slot s q) ∧
          entryOf s' obj.pk=(entryOf s obj.pk).afterInsert) := by
  simp only [insertTable] at h
  cases hh : t.head with
  | none => simp [hh] at h
  | some p =>
    obtain ⟨t1,s⟩ := p
    simp only [hh,Option.bind_eq_bind,Option.bind_some] at h
    cases hr : s.removedValues[obj.pk]? with
    | some r =>
      -- a row removed earlier in the session comes back: its record moves
      -- to the old values
      simp only [hr,Option.pure_def,Option.some.injEq,Prod.mk.injEq] at h
      obtain ⟨rfl,-,-⟩ := h
      refine ⟨t1,s,_,rfl,headStep_setHead rfl rfl,fun hwf _ => ?_⟩
      obtain ⟨hs0,hpk⟩ := slot_of_removed hwf hr
      have hs := hs0
      simp only [slot,Prod.mk.injEq] at hs
      set s' : UndoState := {s with
        oldValues := s.oldValues.insertIfNew obj.pk (setUndoRec (copyUndoObject r obj) .oldValue)
        removedValues := s.removedValues.erase obj.pk}
      have hfar : ∀ q, q≠obj.pk → slot s' q=slot s q := by
        intro q hq
        simp [s',slot,Std.TreeMap.getElem?_erase,Std.TreeMap.getElem?_insertIfNew,Ne.symm hq]
      have hat : slot s' obj.pk=(none,some (setUndoRec (copyUndoObject r obj) .oldValue),none) := by
        simp only [s',slot,getElem?_insertIfNew_of_none hs.2.1,Std.TreeMap.getElem?_erase_self,hs.1]
      refine ⟨wellFormed_of_slot hwf hfar (by rw [hat]; exact hpk),hfar,?_⟩
      simp [entryOf,hat,hs0,slotEntry,Entry.afterInsert]
    | none =>
      simp only [hr] at h
      split at h
      · simp only [Option.pure_def,Option.some.injEq,Prod.mk.injEq] at h
        obtain ⟨rfl,-,-⟩ := h
        exact ⟨t1,s,_,rfl,headStep_setHead rfl rfl,fun hwf hend =>
          insertNew_spec hwf (slot_of_absent hwf hend hr) (pk_initUndoObject ..)⟩
      · -- the first insert of the session also records the next primary key
        simp only [Option.pure_def,Option.some.injEq,Prod.mk.injEq] at h
        obtain ⟨rfl,-,-⟩ := h
        refine ⟨t1,s,_,rfl,headStep_setNextPk rfl,fun hwf hend => ?_⟩
        obtain ⟨hwf',hfar,hat⟩ := insertNew_spec (o := initUndoObject revision (generateUndoPk undoPk).1
          obj .newValue) hwf (slot_of_absent hwf hend hr) (pk_initUndoObject ..)
        exact ⟨wellFormed_setNextPk hwf',fun q hq => by rw [slot_setNextPk,hfar q hq],
          by rw [entryOf_setNextPk,hat]⟩

/-- A key present in the store is not among the removed values of a
faithful state. -/
theorem removed_of_present {s : UndoState} {q : PrimaryKey} {x : ObjectData} (hwf : WellFormed s)
    (hend : (entryOf s q).ends (some x)) : s.removedValues[q]?=none := by
  cases hr : s.removedValues[q]? with
  | none => rfl
  | some r =>
    have hs := (slot_of_removed hwf hr).1
    simp [entryOf,hs,slotEntry,Entry.ends] at hend

/-- `update` of a present row: the head's entry at the key becomes
`afterUpdate` of what it was, every other key keeps its records. -/
theorem updateTable_spec {revision : Revision} {undoPk undoPk' : PrimaryKey}
    {t t' : TableUndoStack} {origObj obj : ObjectValue} {w : List JournalWrite}
    (h : updateTable revision undoPk t origObj obj=some (t',undoPk',w)) :
    ∃ t1 s s', t.head=some (t1,s) ∧ HeadStep t1 t' s s' ∧
      (WellFormed s → (entryOf s origObj.pk).ends (some origObj.data) →
        WellFormed s' ∧ (∀ q, q≠origObj.pk → slot s' q=slot s q) ∧
          entryOf s' origObj.pk=(entryOf s origObj.pk).afterUpdate origObj.data) := by
  simp only [updateTable] at h
  cases hh : t.head with
  | none => simp [hh] at h
  | some p =>
    obtain ⟨t1,s⟩ := p
    simp only [hh,Option.bind_eq_bind,Option.bind_some] at h
    refine ⟨t1,s,?_⟩
    cases hn : s.newValues[origObj.pk]? with
    | some n =>
      simp only [hn,Option.pure_def,Option.some.injEq,Prod.mk.injEq] at h
      obtain ⟨rfl,-,-⟩ := h
      refine ⟨_,rfl,headStep_setHead rfl rfl,fun hwf _ => ?_⟩
      obtain ⟨hs0,hpk⟩ := slot_of_new hwf hn
      have hs := hs0
      simp only [slot,Prod.mk.injEq] at hs
      set s' : UndoState := {s with
        newValues := s.newValues.insert origObj.pk (copyUndoObject n obj)}
      have hfar : ∀ q, q≠origObj.pk → slot s' q=slot s q := by
        intro q hq
        simp [s',slot,Std.TreeMap.getElem?_insert,Ne.symm hq]
      have hat : slot s' origObj.pk=(some (copyUndoObject n obj),none,none) := by
        simp only [s',slot,Std.TreeMap.getElem?_insert_self,hs.2.1,hs.2.2]
      refine ⟨wellFormed_of_slot hwf hfar (by rw [hat]; exact hpk),hfar,?_⟩
      simp [entryOf,hat,hs0,slotEntry,Entry.afterUpdate]
    | none =>
      cases ho : s.oldValues[origObj.pk]? with
      | some o =>
        simp only [hn,ho,Option.pure_def,Option.some.injEq,Prod.mk.injEq] at h
        obtain ⟨rfl,-,-⟩ := h
        refine ⟨_,rfl,headStep_setHead rfl rfl,fun hwf _ => ?_⟩
        obtain ⟨hs0,hpk⟩ := slot_of_old hwf ho
        have hs := hs0
        simp only [slot,Prod.mk.injEq] at hs
        set s' : UndoState := {s with
          oldValues := s.oldValues.insert origObj.pk (copyUndoObject o obj)}
        have hfar : ∀ q, q≠origObj.pk → slot s' q=slot s q := by
          intro q hq
          simp [s',slot,Std.TreeMap.getElem?_insert,Ne.symm hq]
        have hat : slot s' origObj.pk=(none,some (copyUndoObject o obj),none) := by
          simp only [s',slot,Std.TreeMap.getElem?_insert_self,hs.1,hs.2.2]
        refine ⟨wellFormed_of_slot hwf hfar (by rw [hat]; exact hpk),hfar,?_⟩
        simp [entryOf,hat,hs0,slotEntry,Entry.afterUpdate]
      | none =>
        simp only [hn,ho,Option.pure_def,Option.some.injEq,Prod.mk.injEq] at h
        obtain ⟨rfl,-,-⟩ := h
        refine ⟨_,rfl,headStep_setHead rfl rfl,fun hwf hend => ?_⟩
        have hr := removed_of_present hwf hend
        set o := copyUndoObject (initUndoObject revision (generateUndoPk undoPk).1 origObj .oldValue) obj
        set s' : UndoState := {s with oldValues := s.oldValues.insertIfNew origObj.pk o}
        have hfar : ∀ q, q≠origObj.pk → slot s' q=slot s q := by
          intro q hq
          simp [s',slot,Std.TreeMap.getElem?_insertIfNew,Ne.symm hq]
        have hat : slot s' origObj.pk=(none,some o,none) := by
          simp only [s',slot,getElem?_insertIfNew_of_none ho,hn,hr]
        refine ⟨wellFormed_of_slot hwf hfar (by rw [hat]; rfl),hfar,?_⟩
        rw [entryOf,hat,entryOf,slot,hn,ho,hr]
        simp [slotEntry,Entry.afterUpdate,o]

/-- `remove` of a present row: the head's entry at the key becomes
`afterRemove` of what it was, every other key keeps its records. -/
theorem removeTable_spec {revision : Revision} {undoPk undoPk' : PrimaryKey}
    {t t' : TableUndoStack} {origObj : ObjectValue} {w : List JournalWrite}
    (h : removeTable revision undoPk t origObj=some (t',undoPk',w)) :
    ∃ t1 s s', t.head=some (t1,s) ∧ HeadStep t1 t' s s' ∧
      (WellFormed s → (entryOf s origObj.pk).ends (some origObj.data) →
        WellFormed s' ∧ (∀ q, q≠origObj.pk → slot s' q=slot s q) ∧
          entryOf s' origObj.pk=(entryOf s origObj.pk).afterRemove origObj.data) := by
  simp only [removeTable] at h
  cases hh : t.head with
  | none => simp [hh] at h
  | some p =>
    obtain ⟨t1,s⟩ := p
    simp only [hh,Option.bind_eq_bind,Option.bind_some] at h
    refine ⟨t1,s,?_⟩
    cases hn : s.newValues[origObj.pk]? with
    | some n =>
      simp only [hn,Option.pure_def,Option.some.injEq,Prod.mk.injEq] at h
      obtain ⟨rfl,-,-⟩ := h
      refine ⟨_,rfl,headStep_setHead rfl rfl,fun hwf _ => ?_⟩
      obtain ⟨hs0,-⟩ := slot_of_new hwf hn
      have hs := hs0
      simp only [slot,Prod.mk.injEq] at hs
      set s' : UndoState := {s with newValues := s.newValues.erase origObj.pk}
      have hfar : ∀ q, q≠origObj.pk → slot s' q=slot s q := by
        intro q hq
        simp [s',slot,Std.TreeMap.getElem?_erase,Ne.symm hq]
      have hat : slot s' origObj.pk=(none,none,none) := by
        simp only [s',slot,Std.TreeMap.getElem?_erase_self,hs.2.1,hs.2.2]
      refine ⟨wellFormed_of_slot hwf hfar (by rw [hat]; trivial),hfar,?_⟩
      simp [entryOf,hat,hs0,slotEntry,Entry.afterRemove]
    | none =>
      cases ho : s.oldValues[origObj.pk]? with
      | some o =>
        simp only [hn,ho,Option.pure_def,Option.some.injEq,Prod.mk.injEq] at h
        obtain ⟨rfl,-,-⟩ := h
        refine ⟨_,rfl,headStep_setHead rfl rfl,fun hwf _ => ?_⟩
        obtain ⟨hs0,hpk⟩ := slot_of_old hwf ho
        have hs := hs0
        simp only [slot,Prod.mk.injEq] at hs
        set s' : UndoState := {s with
          removedValues := s.removedValues.insertIfNew origObj.pk (setUndoRec o .removedValue)
          oldValues := s.oldValues.erase origObj.pk}
        have hfar : ∀ q, q≠origObj.pk → slot s' q=slot s q := by
          intro q hq
          simp [s',slot,Std.TreeMap.getElem?_erase,Std.TreeMap.getElem?_insertIfNew,Ne.symm hq]
        have hat : slot s' origObj.pk=(none,none,some (setUndoRec o .removedValue)) := by
          simp only [s',slot,getElem?_insertIfNew_of_none hs.2.2,Std.TreeMap.getElem?_erase_self,hs.1]
        refine ⟨wellFormed_of_slot hwf hfar (by rw [hat]; exact hpk),hfar,?_⟩
        simp [entryOf,hat,hs0,slotEntry,Entry.afterRemove]
      | none =>
        simp only [hn,ho,Option.pure_def,Option.some.injEq,Prod.mk.injEq] at h
        obtain ⟨rfl,-,-⟩ := h
        refine ⟨_,rfl,headStep_setHead rfl rfl,fun hwf hend => ?_⟩
        have hr := removed_of_present hwf hend
        set o := initUndoObject revision (generateUndoPk undoPk).1 origObj .removedValue
        set s' : UndoState := {s with removedValues := s.removedValues.insertIfNew origObj.pk o}
        have hfar : ∀ q, q≠origObj.pk → slot s' q=slot s q := by
          intro q hq
          simp [s',slot,Std.TreeMap.getElem?_insertIfNew,Ne.symm hq]
        have hat : slot s' origObj.pk=(none,none,some o) := by
          simp only [s',slot,getElem?_insertIfNew_of_none hr,hn,ho]
        refine ⟨wellFormed_of_slot hwf hfar (by rw [hat]; rfl),hfar,?_⟩
        rw [entryOf,hat,entryOf,slot,hn,ho,hr]
        simp [slotEntry,Entry.afterRemove,o]

/-! ## Tables reached by sessions and row operations -/

/-- Every state of a stack, newest first, records its session: the newest
against the current rows, each older one against the rows that undoing the
newer ones gives back. -/
def StackFaithful : List UndoState → Store → Prop
  | [],_ => True
  | s::rest,σ => WellFormed s ∧ Faithful s σ ∧ StackFaithful rest (undoEffect s σ)

/-- The invariant of a table undo stack over the current rows `σ` of its table. -/
structure TableInv (t : TableUndoStack) (σ : Store) : Prop where
  /-- Every state records its session. -/
  faithful : StackFaithful t.stack σ
  /-- A state with a `NextPk` record has the undo key of its revision. -/
  nextPk : ∀ s ∈ t.stack, s.hasNextPk → s.revision ∈ t.undoNextPkMap

/-- The tables reachable from a new table over rows `σ` by sessions, inserts
of absent rows, and updates and removals of present ones. -/
inductive Reachable : TableUndoStack → Store → Prop
  | create (info : TableKey) (rev : Revision) (σ : Store) : Reachable (.create info rev) σ
  | startSession {t t' : TableUndoStack} {σ : Store} {rev : Revision} :
      Reachable t σ → t.startSession rev=some t' → Reachable t' σ
  | insert {t t' : TableUndoStack} {σ : Store} {revision : Revision} {undoPk undoPk' : PrimaryKey}
      {obj : ObjectValue} {w : List JournalWrite} : Reachable t σ → σ obj.pk=none →
      insertTable revision undoPk t obj=some (t',undoPk',w) →
      Reachable t' (Function.update σ obj.pk (some obj.data))
  | update {t t' : TableUndoStack} {σ : Store} {revision : Revision} {undoPk undoPk' : PrimaryKey}
      {origObj obj : ObjectValue} {w : List JournalWrite} : Reachable t σ →
      σ origObj.pk=some origObj.data → updateTable revision undoPk t origObj obj=some (t',undoPk',w) →
      Reachable t' (Function.update σ origObj.pk (some obj.data))
  | remove {t t' : TableUndoStack} {σ : Store} {revision : Revision} {undoPk undoPk' : PrimaryKey}
      {origObj : ObjectValue} {w : List JournalWrite} : Reachable t σ →
      σ origObj.pk=some origObj.data → removeTable revision undoPk t origObj=some (t',undoPk',w) →
      Reachable t' (Function.update σ origObj.pk none)

@[simp] theorem undoEffect_start (rev : Revision) (σ : Store) : undoEffect {revision := rev} σ=σ := by
  funext q
  simp [undoEffect,undo]

theorem faithful_start (rev : Revision) (σ : Store) : Faithful {revision := rev} σ := by
  intro q
  simp

/-- `head` keeps the invariant. -/
theorem tableInv_head {t t1 : TableUndoStack} {s : UndoState} {σ : Store} (hinv : TableInv t σ)
    (h : t.head=some (t1,s)) : TableInv t1 σ := by
  obtain ⟨-,hmap,-,hpush | hsame⟩ := head_spec h
  · obtain ⟨rfl,htail⟩ := hpush
    have hst : t1.stack=({revision := t.revision} : UndoState)::t.stack := by
      rw [← htail]; exact (head_spec h).2.2.1
    refine ⟨?_,?_⟩
    · rw [hst]
      exact ⟨wellFormed_start _,faithful_start _ _,by simpa using hinv.faithful⟩
    · intro s' hs' hnpk
      rw [hst,List.mem_cons] at hs'
      rcases hs' with rfl | hs'
      · simp [UndoState.hasNextPk] at hnpk
      · rw [hmap]; exact hinv.nextPk s' hs' hnpk
  · exact ⟨hsame ▸ hinv.faithful,fun s' hs' hnpk => hmap ▸ hinv.nextPk s' (hsame ▸ hs') hnpk⟩

/-- A row operation that keeps the head well formed, faithful to the new
rows and with the same undo effect keeps the invariant. -/
theorem tableInv_step {t1 t' : TableUndoStack} {s s' : UndoState} {σ σ' : Store}
    (hinv : TableInv t1 σ) (hst : HeadStep t1 t' s s') (hs : t1.stack=s::t1.stack.tail)
    (hwf : WellFormed s') (hfa : Faithful s' σ') (heff : undoEffect s' σ'=undoEffect s σ) :
    TableInv t' σ' := by
  have hold := hinv.faithful
  rw [hs] at hold
  refine ⟨?_,?_⟩
  · rw [hst.stack]
    exact ⟨hwf,hfa,heff ▸ hold.2.2⟩
  · intro x hx hnpk
    rw [hst.stack,List.mem_cons] at hx
    rcases hx with rfl | hx
    · rcases hst.nextPk hnpk with hold' | hnew
      · rw [hst.revision]
        exact hst.keys _ (hinv.nextPk s (hs ▸ List.mem_cons_self) hold')
      · exact hnew
    · exact hst.keys _ (hinv.nextPk x (List.mem_of_mem_tail hx) hnpk)

/-- A change of the head at one key that keeps that key faithful to the
new rows and its undo the same keeps the whole head so. -/
theorem faithful_of_slot {s s' : UndoState} {σ : Store} {pk : PrimaryKey} {v : Option ObjectData}
    (hfar : ∀ q, q≠pk → slot s' q=slot s q) (hfa : Faithful s σ)
    (hpk : (entryOf s' pk).ends v ∧ (entryOf s' pk).apply v=(entryOf s pk).apply (σ pk)) :
    Faithful s' (Function.update σ pk v) ∧ undoEffect s' (Function.update σ pk v)=undoEffect s σ :=
  ends_undo_update (fun q hq => entryOf_of_slot hfar q hq) hfa hpk

/-- The head of a table with the invariant is well formed and faithful. -/
theorem head_faithful {t t1 : TableUndoStack} {s : UndoState} {σ : Store} (hinv : TableInv t σ)
    (h : t.head=some (t1,s)) : TableInv t1 σ ∧ WellFormed s ∧ Faithful s σ := by
  have hinv1 := tableInv_head hinv h
  have hf := hinv1.faithful
  rw [(head_spec h).2.2.1] at hf
  exact ⟨hinv1,hf.1,hf.2.1⟩

/-- Every reachable table keeps the invariant: each of its states records
its session faithfully. -/
theorem reachable_tableInv {t : TableUndoStack} {σ : Store} (h : Reachable t σ) : TableInv t σ := by
  induction h with
  | create info rev σ => exact ⟨trivial,fun _ h => by simp [TableUndoStack.create] at h⟩
  | startSession _ hss ih =>
    simp only [TableUndoStack.startSession] at hss
    split at hss
    · cases hss; exact ⟨ih.faithful,ih.nextPk⟩
    · cases hss
  | @insert t t' σ revision undoPk undoPk' obj w _ habs hop ih =>
    obtain ⟨t1,s,s',hh,hst,hspec⟩ := insertTable_spec hop
    obtain ⟨hinv1,hwf,hfa⟩ := head_faithful ih hh
    have hend : (entryOf s obj.pk).ends none := habs ▸ hfa obj.pk
    obtain ⟨hwf',hfar,hat⟩ := hspec hwf hend
    obtain ⟨hfa',heff⟩ := faithful_of_slot hfar hfa
      (hat ▸ habs ▸ Entry.afterInsert_spec hend obj.data)
    exact tableInv_step hinv1 hst (head_spec hh).2.2.1 hwf' hfa' heff
  | @update t t' σ revision undoPk undoPk' origObj obj w _ hpre hop ih =>
    obtain ⟨t1,s,s',hh,hst,hspec⟩ := updateTable_spec hop
    obtain ⟨hinv1,hwf,hfa⟩ := head_faithful ih hh
    have hend : (entryOf s origObj.pk).ends (some origObj.data) := hpre ▸ hfa origObj.pk
    obtain ⟨hwf',hfar,hat⟩ := hspec hwf hend
    obtain ⟨hfa',heff⟩ := faithful_of_slot hfar hfa
      (hat ▸ hpre ▸ Entry.afterUpdate_spec hend obj.data)
    exact tableInv_step hinv1 hst (head_spec hh).2.2.1 hwf' hfa' heff
  | @remove t t' σ revision undoPk undoPk' origObj w _ hpre hop ih =>
    obtain ⟨t1,s,s',hh,hst,hspec⟩ := removeTable_spec hop
    obtain ⟨hinv1,hwf,hfa⟩ := head_faithful ih hh
    have hend : (entryOf s origObj.pk).ends (some origObj.data) := hpre ▸ hfa origObj.pk
    obtain ⟨hwf',hfar,hat⟩ := hspec hwf hend
    obtain ⟨hfa',heff⟩ := faithful_of_slot hfar hfa
      (hat ▸ hpre ▸ Entry.afterRemove_spec hend)
    exact tableInv_step hinv1 hst (head_spec hh).2.2.1 hwf' hfa' heff

end Cyberway.ChaindbUndoEntry
