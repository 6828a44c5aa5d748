import Cyberway.ChaindbJournal

/-!
# Journal merging is sequential composition

A write operation acts on one record slot as a partial function: an insert
fills an empty slot, an update or a remove needs a full one, a revision
write replaces the service state of the stored row, and `Unknown` does
nothing. `journal::_detail::write` merges each new operation into the one
the slot holds. Folded over a sequence from an empty slot, the merge does
whatever the sequence does, wherever the sequence is defined; it may be
defined on more slots, since an insert followed by a remove cancels to
nothing. When a merge throws, the sequence is defined on no slot. A find
revision, once set at or above `start_revision`, stays until the slot is
cleared.
-/

namespace Cyberway.ChaindbJournal

open ChaindbObject

/-- A record slot: the stored object, if there is one. -/
abbrev Slot := Option ObjectValue

namespace WriteOperation

/-- What a flushed operation does to one record slot, where it is defined. -/
def apply (op : WriteOperation) : Slot → Option Slot
  | s =>
    match op.operation,s with
    | .unknown,s => some s
    | .insert,none => some (some op.object)
    | .update,some _ => some (some op.object)
    | .revision,some x => some (some {x with service := op.object.service})
    | .remove,some _ => some none
    | _,_ => none

/-- A slot that holds no operation holds no find revision: the journal
creates and clears its slots so. -/
def Unset (op : WriteOperation) : Prop := op.operation=.unknown → op.findRevision=unsetRevision

end WriteOperation

open WriteOperation

/-- Operations applied one after another. -/
def applySeq : List WriteOperation → Slot → Option Slot
  | [],s => some s
  | op::ops,s => (op.apply s).bind (applySeq ops)

/-- `journal::_detail::write` folded over a sequence, from the slot `dst`. -/
def mergeFrom (dst : WriteOperation) : List WriteOperation → Except String WriteOperation
  | [] => .ok dst
  | op::ops =>
    match write op dst with
    | .ok dst => mergeFrom dst ops
    | .error e => .error e

/-- A sequence merged into an empty slot, as `write_data` merges a row's writes. -/
def mergeAll (ops : List WriteOperation) : Except String WriteOperation := mergeFrom {} ops

/-- `f` does what `g` does wherever `g` is defined. -/
def Extends (f g : Slot → Option Slot) : Prop := ∀ x y, g x=some y → f x=some y

/-- `g` then `h`, where both are defined. -/
def andThen (g h : Slot → Option Slot) : Slot → Option Slot := fun x => (g x).bind h

@[simp] theorem andThen_apply (g h : Slot → Option Slot) (x : Slot) : andThen g h x=(g x).bind h := rfl

@[simp] theorem applySeq_nil : applySeq []=some := rfl

theorem applySeq_cons (op : WriteOperation) (ops : List WriteOperation) (x : Slot) :
    applySeq (op::ops) x=(op.apply x).bind (applySeq ops) := rfl

/-! ## What each operation does to a slot

Later proofs take the operations apart and cite these; none of them unfolds
`apply`. -/

@[simp] theorem apply_mk_unknown (r : Revision) (obj : ObjectValue) :
    (WriteOperation.mk .unknown r obj).apply=some := rfl

@[simp] theorem apply_mk_insert (r : Revision) (obj : ObjectValue) (x : Slot) :
    (WriteOperation.mk .insert r obj).apply x=x.elim (some (some obj)) fun _ => none := by
  cases x <;> rfl

@[simp] theorem apply_mk_update (r : Revision) (obj : ObjectValue) (x : Slot) :
    (WriteOperation.mk .update r obj).apply x=x.map fun _ => some obj := by
  cases x <;> rfl

@[simp] theorem apply_mk_revision (r : Revision) (obj : ObjectValue) (x : Slot) :
    (WriteOperation.mk .revision r obj).apply x=x.map fun y => some {y with service := obj.service} := by
  cases x <;> rfl

@[simp] theorem apply_mk_remove (r : Revision) (obj : ObjectValue) (x : Slot) :
    (WriteOperation.mk .remove r obj).apply x=x.map fun _ => none := by
  cases x <;> rfl

/-! ## One merge -/

/-- A slot holds an operation, its find revision and its object; the
meaning reads the first and the last only. -/
theorem apply_copyFindRevision (dst : WriteOperation) (r : Revision) :
    (copyFindRevision dst r).apply=dst.apply := by
  unfold copyFindRevision
  split_ifs <;> rfl

@[simp] theorem copyFindRevision_operation (dst : WriteOperation) (r : Revision) :
    (copyFindRevision dst r).operation=dst.operation := by
  unfold copyFindRevision
  split_ifs <;> rfl

/-- An empty slot does nothing. -/
@[simp] theorem apply_default (x : Slot) : ({} : WriteOperation).apply x=some x := rfl

/-- A set find revision is kept. -/
theorem copyFindRevision_of_set {dst : WriteOperation} (h : dst.findRevision≠unsetRevision) (r : Revision) :
    (copyFindRevision dst r).findRevision=dst.findRevision := by
  unfold copyFindRevision
  simp [h]

section Merge

variable {src dst m : WriteOperation}

/-- An insert after an empty slot or a remove: the remove and the insert
make an update. -/
theorem mergeInsert_extends (hs : src.operation=.insert) (h : mergeInsert src dst=.ok m) :
    Extends m.apply (andThen dst.apply src.apply) := by
  obtain ⟨os,rs,objs⟩ := src
  obtain ⟨od,rd,objd⟩ := dst
  cases hs
  intro x y hxy
  cases od <;> cases h
  · simpa using hxy
  · rw [apply_copyFindRevision]
    cases x <;> simp at hxy ⊢
    exact hxy

/-- An insert after a full slot throws, and the sequence is undefined. -/
theorem mergeInsert_error (hs : src.operation=.insert) {e : String} (h : mergeInsert src dst=.error e) (x : Slot) :
    andThen dst.apply src.apply x=none := by
  obtain ⟨os,rs,objs⟩ := src
  obtain ⟨od,rd,objd⟩ := dst
  cases hs
  cases od <;> cases h
  all_goals cases x <;> simp

/-- A revision write replaces only the service state of what the slot
would hold. -/
theorem mergeUpdateRevision_extends (hs : src.operation=.revision) (h : mergeUpdateRevision src dst=.ok m) :
    Extends m.apply (andThen dst.apply src.apply) := by
  obtain ⟨os,rs,objs⟩ := src
  obtain ⟨od,rd,objd⟩ := dst
  cases hs
  intro x y hxy
  cases od <;> cases h <;> rw [apply_copyFindRevision] <;> cases x <;> simp at hxy ⊢ <;> exact hxy

theorem mergeUpdateRevision_error (hs : src.operation=.revision) {e : String}
    (h : mergeUpdateRevision src dst=.error e) (x : Slot) : andThen dst.apply src.apply x=none := by
  obtain ⟨os,rs,objs⟩ := src
  obtain ⟨od,rd,objd⟩ := dst
  cases hs
  cases od <;> cases h
  all_goals cases x <;> simp

/-- An update replaces the object of what the slot would hold; after a
revision write it is an update again. -/
theorem mergeUpdate_extends (hs : src.operation=.update) (h : mergeUpdate src dst=.ok m) :
    Extends m.apply (andThen dst.apply src.apply) := by
  obtain ⟨os,rs,objs⟩ := src
  obtain ⟨od,rd,objd⟩ := dst
  cases hs
  intro x y hxy
  cases od <;> cases h <;> rw [apply_copyFindRevision] <;> cases x <;> simp at hxy ⊢ <;> exact hxy

theorem mergeUpdate_error (hs : src.operation=.update) {e : String} (h : mergeUpdate src dst=.error e)
    (x : Slot) : andThen dst.apply src.apply x=none := by
  obtain ⟨os,rs,objs⟩ := src
  obtain ⟨od,rd,objd⟩ := dst
  cases hs
  cases od <;> cases h
  all_goals cases x <;> simp

/-- A remove empties the slot; after an insert the two cancel. -/
theorem mergeRemove_extends (hs : src.operation=.remove) (h : mergeRemove src dst=.ok m) :
    Extends m.apply (andThen dst.apply src.apply) := by
  obtain ⟨os,rs,objs⟩ := src
  obtain ⟨od,rd,objd⟩ := dst
  cases hs
  intro x y hxy
  cases od <;> cases h
  swap
  · cases x <;> simp [WriteOperation.clear] at hxy ⊢
    exact hxy
  all_goals
    rw [apply_copyFindRevision]
    cases x <;> simp at hxy ⊢
    exact hxy

theorem mergeRemove_error (hs : src.operation=.remove) {e : String} (h : mergeRemove src dst=.error e)
    (x : Slot) : andThen dst.apply src.apply x=none := by
  obtain ⟨os,rs,objs⟩ := src
  obtain ⟨od,rd,objd⟩ := dst
  cases hs
  cases od <;> cases h
  all_goals cases x <;> simp

/-- One merge does what the slot's operation and then the new one do. -/
theorem write_extends (h : write src dst=.ok m) : Extends m.apply (andThen dst.apply src.apply) := by
  obtain ⟨os,rs,objs⟩ := src
  cases os
  · cases h
    intro x y hxy
    simpa using hxy
  · exact mergeInsert_extends rfl h
  · exact mergeUpdate_extends rfl h
  · exact mergeUpdateRevision_extends rfl h
  · exact mergeRemove_extends rfl h

/-- A merge that throws meets two operations that are defined on no slot
one after the other. -/
theorem write_error {e : String} (h : write src dst=.error e) (x : Slot) : andThen dst.apply src.apply x=none := by
  obtain ⟨os,rs,objs⟩ := src
  cases os
  · cases h
  · exact mergeInsert_error rfl h x
  · exact mergeUpdate_error rfl h x
  · exact mergeUpdateRevision_error rfl h x
  · exact mergeRemove_error rfl h x

end Merge

/-! ## A whole sequence -/

/-- The fold merges the first operation into the slot and the rest into
the result. -/
theorem mergeFrom_cons (dst op : WriteOperation) (ops : List WriteOperation) :
    mergeFrom dst (op::ops)=(write op dst).bind fun d => mergeFrom d ops := by
  rw [mergeFrom]
  cases write op dst <;> rfl

theorem mergeFrom_cons_eq_ok {dst op m : WriteOperation} {ops : List WriteOperation} :
    mergeFrom dst (op::ops)=.ok m ↔ ∃ d,write op dst=.ok d ∧ mergeFrom d ops=.ok m := by
  rw [mergeFrom_cons]
  cases write op dst with
  | error e =>
    constructor
    · intro h
      cases h
    · rintro ⟨d,hd,-⟩
      cases hd
  | ok d =>
    constructor
    · intro h
      exact ⟨d,rfl,h⟩
    · rintro ⟨d',hd,h⟩
      cases hd
      exact h

theorem mergeFrom_cons_eq_error {dst op : WriteOperation} {ops : List WriteOperation} {e : String} :
    mergeFrom dst (op::ops)=.error e ↔ write op dst=.error e ∨ ∃ d,write op dst=.ok d ∧ mergeFrom d ops=.error e := by
  rw [mergeFrom_cons]
  cases write op dst with
  | error e' =>
    constructor
    · intro h
      exact .inl h
    · rintro (h | ⟨d,hd,-⟩)
      · exact h
      · cases hd
  | ok d =>
    constructor
    · intro h
      exact .inr ⟨d,rfl,h⟩
    · rintro (h | ⟨d',hd,h⟩)
      · cases h
      · cases hd
        exact h

/-- The merge of a sequence into a slot does what the slot's operation and
then the sequence do, wherever they are defined. -/
theorem mergeFrom_extends :
    ∀ (ops : List WriteOperation) {dst m : WriteOperation}, mergeFrom dst ops=.ok m →
      Extends m.apply (andThen dst.apply (applySeq ops))
  | [],dst,m,h => by
    cases h
    intro x y hxy
    simpa using hxy
  | op::ops,dst,m,h => by
    -- the first operation is merged into `d`, the rest into `m`
    obtain ⟨d,hw,h⟩ := mergeFrom_cons_eq_ok.mp h
    intro x y hxy
    obtain ⟨a,ha,hy⟩ := Option.bind_eq_some_iff.mp hxy
    obtain ⟨b,hb,hy⟩ := Option.bind_eq_some_iff.mp hy
    have hd : d.apply x=some b := write_extends hw x b (by simp [ha, hb])
    exact mergeFrom_extends ops h x y (by simp [hd, hy])

/-- When a merge of the sequence throws, the slot's operation and the
sequence are defined on no slot one after the other. -/
theorem mergeFrom_error :
    ∀ (ops : List WriteOperation) {dst : WriteOperation} {e : String}, mergeFrom dst ops=.error e →
      ∀ x, andThen dst.apply (applySeq ops) x=none
  | [],dst,e,h => by cases h
  | op::ops,dst,e,h => by
    intro x
    rw [andThen_apply, Option.bind_eq_none_iff]
    intro a ha
    rw [applySeq_cons, Option.bind_eq_none_iff]
    intro b hb
    rcases mergeFrom_cons_eq_error.mp h with hw | ⟨d,hw,h⟩
    · have := write_error hw x
      simp [ha, hb] at this
    · have hd : d.apply x=some b := write_extends hw x b (by simp [ha, hb])
      have hrest := mergeFrom_error ops h x
      simpa [hd] using hrest

/-! ## The find revision -/

/-- What a merge leaves in the slot: the slot unchanged, the slot cleared,
the new insert in an empty slot, or an operation that kept the slot's find
revision before `copy_find_revision`. -/
theorem write_shape {src dst m : WriteOperation} (h : write src dst=.ok m) :
    m=dst ∨ m={} ∨ (dst.operation=.unknown ∧ src.operation=.insert ∧ m=src) ∨
      ∃ X : WriteOperation, m=copyFindRevision X src.findRevision ∧ X.findRevision=dst.findRevision ∧
        X.operation≠.unknown := by
  obtain ⟨os,rs,objs⟩ := src
  obtain ⟨od,rd,objd⟩ := dst
  cases os
  · cases h
    exact .inl rfl
  · cases od <;> cases h
    · exact .inr (.inr (.inl ⟨rfl,rfl,rfl⟩))
    · exact .inr (.inr (.inr ⟨_,rfl,rfl,by simp⟩))
  · cases od <;> cases h <;> exact .inr (.inr (.inr ⟨_,rfl,rfl,by simp⟩))
  · cases od <;> cases h <;> exact .inr (.inr (.inr ⟨_,rfl,rfl,by simp⟩))
  · cases od <;> cases h
    swap
    · exact .inr (.inl rfl)
    all_goals exact .inr (.inr (.inr ⟨_,rfl,rfl,by simp⟩))

/-- A merge keeps slots without an operation free of a find revision. -/
theorem write_unset {src dst m : WriteOperation} (hd : dst.Unset) (h : write src dst=.ok m) : m.Unset := by
  intro hm
  rcases write_shape h with rfl | rfl | ⟨-,hs,rfl⟩ | ⟨X,rfl,-,hX⟩
  · exact hd hm
  · rfl
  · rw [hs] at hm
    cases hm
  · simp at hm
    exact absurd hm hX

/-- A find revision at or above `start_revision` stays through a merge,
unless the merge clears the slot. -/
theorem write_findRevision {src dst m : WriteOperation} (hd : dst.Unset) (hr : startRevision ≤ dst.findRevision)
    (h : write src dst=.ok m) : m.findRevision=dst.findRevision ∨ m={} := by
  have hset : dst.findRevision≠unsetRevision := by
    intro he
    rw [he] at hr
    exact absurd hr (by decide)
  rcases write_shape h with rfl | rfl | ⟨hu,-,-⟩ | ⟨X,rfl,hX,-⟩
  · exact .inl rfl
  · exact .inr rfl
  · exact absurd (hd hu) hset
  · exact .inl ((copyFindRevision_of_set (hX ▸ hset) _).trans hX)

/-- Over a sequence, a find revision at or above `start_revision` stays
until a merge clears the slot. -/
theorem mergeFrom_findRevision :
    ∀ (ops : List WriteOperation) {dst m : WriteOperation}, dst.Unset → startRevision ≤ dst.findRevision →
      mergeFrom dst ops=.ok m →
        m.findRevision=dst.findRevision ∨ ∃ ops₁ ops₂, ops=ops₁++ops₂ ∧ mergeFrom dst ops₁=.ok {}
  | [],dst,m,_,_,h => by
    cases h
    exact .inl rfl
  | op::ops,dst,m,hd,hr,h => by
    obtain ⟨d,hw,h⟩ := mergeFrom_cons_eq_ok.mp h
    rcases write_findRevision hd hr hw with hf | rfl
    · rcases mergeFrom_findRevision ops (write_unset hd hw) (hf ▸ hr) h with hm | ⟨ops₁,ops₂,rfl,hc⟩
      · exact .inl (hm.trans hf)
      · exact .inr ⟨op::ops₁,ops₂,rfl,mergeFrom_cons_eq_ok.mpr ⟨_,hw,hc⟩⟩
    · exact .inr ⟨[op],ops,rfl,mergeFrom_cons_eq_ok.mpr ⟨_,hw,rfl⟩⟩

/-- Merging a sequence keeps slots without an operation free of a find revision. -/
theorem mergeFrom_unset :
    ∀ (ops : List WriteOperation) {dst m : WriteOperation}, dst.Unset → mergeFrom dst ops=.ok m → m.Unset
  | [],_,_,hd,h => by
    cases h
    exact hd
  | op::ops,dst,m,hd,h => by
    obtain ⟨d,hw,h⟩ := mergeFrom_cons_eq_ok.mp h
    exact mergeFrom_unset ops (write_unset hd hw) h

/-! ## The journal's slots -/

theorem journal_merge_is_sequential_composition (ops : List WriteOperation) :
    (∀ m, mergeAll ops=.ok m → ∀ x y, applySeq ops x=some y → m.apply x=some y) ∧
      (∀ e, mergeAll ops=.error e → ∀ x, applySeq ops x=none) ∧
      (∀ ops₁ ops₂ m₁ m, ops=ops₁++ops₂ → mergeAll ops₁=.ok m₁ → startRevision ≤ m₁.findRevision →
        mergeFrom m₁ ops₂=.ok m →
          m.findRevision=m₁.findRevision ∨ ∃ ops₃ ops₄, ops₂=ops₃++ops₄ ∧ mergeFrom m₁ ops₃=.ok {}) := by
  refine ⟨fun m h x y hxy => ?_,fun e h x => ?_,fun ops₁ ops₂ m₁ m _ h₁ hr h₂ => ?_⟩
  · exact mergeFrom_extends ops h x y (by simpa using hxy)
  · simpa using mergeFrom_error ops h x
  · exact mergeFrom_findRevision ops₂ (mergeFrom_unset ops₁ (fun _ => rfl) h₁) hr h₂

end Cyberway.ChaindbJournal
