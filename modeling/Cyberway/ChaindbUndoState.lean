import Cyberway.ChaindbJournal

/-!
# Per-table undo states and the table stage machine

An `undo_state` holds, for one table and one revision, the pre-images that
undoing that revision restores: `new_values_` for rows the revision
inserted, `old_values_` for rows it updated and `removed_values_` for rows it
removed. A `table_undo_stack` keeps the undo states of one table in a deque
and moves through the stages `Unknown`, `New` and `Stack`; the deque is kept
here newest first, so its `back()` is the head of the list.
-/

namespace Cyberway.ChaindbUndoState

open ChaindbObject ChaindbJournal

/-- `undo_stage`. -/
inductive UndoStage where
  | unknown
  | new
  | stack
  deriving Repr, DecidableEq, Inhabited

/-- `undo_state::pk_value_map_t_`, a `std::map` from primary key to row. -/
abbrev PkValueMap := Std.TreeMap PrimaryKey ObjectValue

/-- `undo_state`: the pre-images one revision of one table has recorded. -/
structure UndoState where
  /-- Rows inserted in this revision. -/
  newValues : PkValueMap := ∅
  /-- Pre-images of rows updated in this revision. -/
  oldValues : PkValueMap := ∅
  /-- Pre-images of rows removed in this revision. -/
  removedValues : PkValueMap := ∅
  /-- The table's next primary key before this revision, or `Unset`. -/
  nextPk : PrimaryKey := primaryKeyUnset
  /-- Undo key of the `NextPk` record, or `Unset`. -/
  undoNextPk : PrimaryKey := primaryKeyUnset
  /-- The revision of this state. -/
  revision : Revision := impossibleRevision
  deriving Inhabited

namespace UndoState

/-- `undo_state::has_next_pk`. -/
def hasNextPk (s : UndoState) : Bool := s.nextPk != primaryKeyUnset

/-- `undo_state::reset_next_pk`. -/
def resetNextPk (s : UndoState) : UndoState :=
  {s with nextPk := primaryKeyUnset, undoNextPk := primaryKeyUnset}

/-- `undo_state::down_revision`. -/
def downRevision (s : UndoState) : UndoState := {s with revision := s.revision-1}

/-- `undo_state::next_pk_object`: the `NextPk` record of the state. -/
def nextPkObject (t : TableKey) (s : UndoState) (value : Variant := .null) : ObjectValue :=
  {service := {t.toService with revision := s.revision, undoPk := s.undoNextPk, undoRec := .nextPk}
   value := value}

end UndoState

/-- `table_undo_stack`: the undo states of one table and its stage machine. -/
structure TableUndoStack where
  /-- The table this stack belongs to. -/
  info : TableKey
  /-- Stage of the state machine. -/
  stage : UndoStage := .unknown
  /-- Revision of the table's current session. -/
  revision : Revision := impossibleRevision
  /-- The deque of undo states, newest first. -/
  stack : List UndoState := []
  /-- `undo_next_pk_map_`: undo key of the `NextPk` record by revision. -/
  undoNextPkMap : Std.TreeMap Revision PrimaryKey := ∅
  deriving Inhabited

namespace TableUndoStack

/-- The constructor `table_undo_stack(src, rev)`. -/
def create (info : TableKey) (rev : Revision) : TableUndoStack :=
  {info := info, stage := .new, revision := rev}

/-- `table_undo_stack::head_revision`: the newest state's revision, `0` when empty. -/
def headRevision (t : TableUndoStack) : Revision :=
  match t.stack with
  | [] => 0
  | s::_ => s.revision

/-- `table_undo_stack::start_session`: the new revision must be above the table's. -/
def startSession (t : TableUndoStack) (rev : Revision) : Option TableUndoStack :=
  if t.revision < rev then some {t with revision := rev, stage := .new} else none

/-- `table_undo_stack::head`: in stage `New` a state for the current revision
is pushed first. The stack is never empty in stage `Stack`. -/
def head (t : TableUndoStack) : Option (TableUndoStack × UndoState) :=
  match t.stage with
  | .new =>
    let s : UndoState := {revision := t.revision}
    some ({t with stage := .stack, stack := s::t.stack},s)
  | .stack =>
    match t.stack with
    | s::_ => some (t,s)
    | [] => none
  | .unknown => none

/-- Write back the newest state after it was changed in place. -/
def setHead (t : TableUndoStack) (s : UndoState) : TableUndoStack :=
  {t with stack := s::t.stack.tail}

/-- `table_undo_stack::tail`: the oldest state. -/
def tail (t : TableUndoStack) : Option UndoState := t.stack.getLast?

/-- `table_undo_stack::prev_state`: the state below the head. -/
def prevState (t : TableUndoStack) : Option UndoState :=
  match t.stage with
  | .unknown => none
  | .stack => if 2 ≤ t.stack.length then t.stack[1]? else none
  | .new => t.stack.head?

/-- `table_undo_stack::update_stage`. -/
def updateStage (t : TableUndoStack) : TableUndoStack :=
  if !t.stack.isEmpty && t.revision == t.headRevision then {t with stage := .stack}
  else if t.revision > 0 then {t with stage := .new}
  else {t with revision := impossibleRevision, stage := .unknown}

/-- `table_undo_stack::squash`: in stage `Stack` the head moves one revision
down, then the table's revision does. -/
def squash (t : TableUndoStack) : Option TableUndoStack :=
  match t.stage with
  | .unknown => none
  | .stack =>
    let stack := match t.stack with
      | s::rest => s.downRevision::rest
      | [] => []
    some (updateStage {t with stack := stack, revision := t.revision-1})
  | .new => some (updateStage {t with revision := t.revision-1})

/-- `table_undo_stack::undo`: in stage `Stack` the head is popped. -/
def undo (t : TableUndoStack) : Option TableUndoStack :=
  match t.stage with
  | .unknown => none
  | .stack => some (updateStage {t with stack := t.stack.tail, revision := t.revision-1})
  | .new => some (updateStage {t with revision := t.revision-1})

/-- `table_undo_stack::commit`: pop the oldest state; an emptied table
returns to stage `Unknown`. -/
def commit (t : TableUndoStack) : Option TableUndoStack :=
  if t.stack.isEmpty then none
  else
    let stack := t.stack.dropLast
    if stack.isEmpty then some {t with stack := [], revision := impossibleRevision, stage := .unknown}
    else some {t with stack := stack}

/-- `table_undo_stack::set_undo_next_pk`: an existing key for the revision
is kept and returned. -/
def setUndoNextPk (t : TableUndoStack) (rev : Revision) (undoPk : PrimaryKey) :
    TableUndoStack × PrimaryKey :=
  ({t with undoNextPkMap := t.undoNextPkMap.insertIfNew rev undoPk},
    (t.undoNextPkMap[rev]?).getD undoPk)

/-- `table_undo_stack::move_undo_next_pk`. The source entry always exists
when the code calls it; a missing one is treated as an error. -/
def moveUndoNextPk (t : TableUndoStack) (dst src : Revision) : Option TableUndoStack :=
  match t.undoNextPkMap[src]? with
  | some upk => some {t with undoNextPkMap := (t.undoNextPkMap.insertIfNew dst upk).erase src}
  | none => none

/-- `table_undo_stack::remove_undo_next_pk`: drop the entries below `rev`. -/
def removeUndoNextPk (t : TableUndoStack) (rev : Revision) : TableUndoStack :=
  {t with undoNextPkMap := t.undoNextPkMap.filter fun r _ => !(r < rev)}

/-- `table_undo_stack::empty`. -/
def empty (t : TableUndoStack) : Bool := t.stack.isEmpty

end TableUndoStack

/-- `undo_state::set_next_pk`: the undo key comes from the table's map. -/
def setNextPk (t : TableUndoStack) (s : UndoState) (nextPk undoPk : PrimaryKey) :
    TableUndoStack × UndoState :=
  let (t',upk) := t.setUndoNextPk s.revision undoPk
  (t',{s with nextPk := nextPk, undoNextPk := upk})

/-- `undo_state::move_next_pk`: `dst` takes the next key of `src`. -/
def moveNextPk (t : TableUndoStack) (dst src : UndoState) :
    Option (TableUndoStack × UndoState × UndoState) := do
  let t' ← t.moveUndoNextPk dst.revision src.revision
  pure (t',{dst with nextPk := src.nextPk, undoNextPk := src.undoNextPk},src.resetNextPk)

end Cyberway.ChaindbUndoState
