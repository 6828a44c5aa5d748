import Cyberway.ChaindbObject

/-!
# Journal write operations

Every change that chaindb makes to a table, to its rows or to the rows of
the system `undo` table, is first queued in the journal as a
`write_operation`. Two operations on the same slot are merged by
`journal::_detail::write`; the merged operation is flushed to the backing
store later. This module has the operations, the merge functions of
`journal.cpp`, and what a flushed operation does to a table of rows.
-/

namespace Cyberway.ChaindbJournal

open ChaindbObject

/-- `write_operation::operation_t`. -/
inductive Operation where
  | unknown
  | insert
  | update
  | revision
  | remove
  deriving Repr, DecidableEq, Inhabited

/-- `write_operation`: the operation, the revision that locates the row in
the store, and the object to write. -/
structure WriteOperation where
  /-- What to do with the slot. -/
  operation : Operation := .unknown
  /-- Revision the stored row must have, `unset_revision` when none. -/
  findRevision : Revision := unsetRevision
  /-- Object to write; only its service state for a service-only write. -/
  object : ObjectValue := {}
  deriving Repr, Inhabited

namespace WriteOperation

/-- `write_operation::insert`. -/
def insert (obj : ObjectValue) : WriteOperation := {operation := .insert, object := obj}

/-- `write_operation::update`, with or without a find revision. -/
def update (obj : ObjectValue) (findRev : Revision := unsetRevision) : WriteOperation :=
  {operation := .update, findRevision := findRev, object := obj}

/-- `write_operation::revision`: the revision is always downgraded by one. -/
def revision (findRev : Revision) (obj : ObjectValue) : WriteOperation :=
  {operation := .revision, findRevision := findRev,
    object := {obj with service := {obj.service with revision := findRev-1}}}

/-- `write_operation::remove`, with or without a find revision. -/
def remove (obj : ObjectValue) (findRev : Revision := unsetRevision) : WriteOperation :=
  {operation := .remove, findRevision := findRev, object := obj}

/-- `write_operation::clear`. -/
def clear (_ : WriteOperation) : WriteOperation := {}

end WriteOperation

/-- `journal::_detail::copy_find_revision`: the first find revision sticks;
one below `start_revision` is stored as `impossible_revision`. -/
def copyFindRevision (dst : WriteOperation) (findRevision : Revision) : WriteOperation :=
  if dst.findRevision != unsetRevision then dst
  else if findRevision ≥ startRevision then {dst with findRevision := findRevision}
  else {dst with findRevision := impossibleRevision}

/-- `journal::_detail::insert`: an insert fits an empty slot or follows a remove. -/
def mergeInsert (src dst : WriteOperation) : Except String WriteOperation :=
  match dst.operation with
  | .unknown => .ok src
  | .remove => .ok (copyFindRevision {dst with operation := .update, object := src.object} src.findRevision)
  | .insert | .update | .revision => .error "Wrong state on insert"

/-- `journal::_detail::update_revision`: only the service state is replaced. -/
def mergeUpdateRevision (src dst : WriteOperation) : Except String WriteOperation :=
  match dst.operation with
  | .unknown =>
    .ok (copyFindRevision
      {dst with
        operation := src.operation
        object := {dst.object with service := src.object.service}} src.findRevision)
  | .insert | .update | .revision =>
    .ok (copyFindRevision {dst with object := {dst.object with service := src.object.service}}
      src.findRevision)
  | .remove => .error "Wrong state on update_revision"

/-- `journal::_detail::update`. -/
def mergeUpdate (src dst : WriteOperation) : Except String WriteOperation :=
  match dst.operation with
  | .unknown | .revision =>
    .ok (copyFindRevision {dst with operation := src.operation, object := src.object} src.findRevision)
  | .insert | .update => .ok (copyFindRevision {dst with object := src.object} src.findRevision)
  | .remove => .error "Wrong state on update"

/-- `journal::_detail::remove`: a remove cancels a pending insert. -/
def mergeRemove (src dst : WriteOperation) : Except String WriteOperation :=
  match dst.operation with
  | .insert => .ok dst.clear
  | .unknown | .update | .revision =>
    .ok (copyFindRevision {dst with operation := .remove, object := src.object} src.findRevision)
  | .remove => .error "Wrong state on delete"

/-- `journal::_detail::write`: merge `src` into the slot holding `dst`. -/
def write (src dst : WriteOperation) : Except String WriteOperation :=
  match src.operation with
  | .insert => mergeInsert src dst
  | .update => mergeUpdate src dst
  | .revision => mergeUpdateRevision src dst
  | .remove => mergeRemove src dst
  | .unknown => .ok dst

/-- A write that a chaindb operation hands to the journal: to the table's
rows (`write_data`) or to the table's records in `undo` (`write_undo`). -/
inductive JournalWrite where
  | data (op : WriteOperation)
  | undo (op : WriteOperation)
  deriving Repr, Inhabited

/-- `journal::write(ctx, data, undo)`: a data write followed by an undo write. -/
def journalWrite (data undo : WriteOperation) : List JournalWrite := [.data data,.undo undo]

/-- The rows of the tables: `(table, pk)` to the stored object. -/
abbrev Rows := Std.TreeMap (TableKey × PrimaryKey) ObjectValue

/-- The system `undo` table: `undo_pk` to the undo record. -/
abbrev UndoRecords := Std.TreeMap PrimaryKey ObjectValue

/-- A flushed data write on the rows of table `t`. An update replaces the
row, a revision write sets the stored service fields of a present row. -/
def applyData (t : TableKey) (rows : Rows) (op : WriteOperation) : Rows :=
  match op.operation with
  | .insert | .update => rows.insert (t,op.object.pk) op.object
  | .revision =>
    match rows[(t,op.object.pk)]? with
    | some row => rows.insert (t,op.object.pk) {row with service := op.object.service}
    | none => rows
  | .remove => rows.erase (t,op.object.pk)
  | .unknown => rows

/-- A write on the `undo` table, keyed by the record's `undo_pk`. -/
def applyUndo (records : UndoRecords) (op : WriteOperation) : UndoRecords :=
  match op.operation with
  | .insert | .update => records.insert op.object.service.undoPk op.object
  | .revision =>
    match records[op.object.service.undoPk]? with
    | some r => records.insert op.object.service.undoPk {r with service := op.object.service}
    | none => records
  | .remove => records.erase op.object.service.undoPk
  | .unknown => records

/-- Apply the writes that chaindb handed to the journal, each for its table. -/
def applyWrites (rows : Rows) (records : UndoRecords) : List (TableKey × JournalWrite) → Rows × UndoRecords
  | [] => (rows,records)
  | (t,.data op)::ws => applyWrites (applyData t rows op) records ws
  | (_,.undo op)::ws => applyWrites rows (applyUndo records op) ws

end Cyberway.ChaindbJournal
