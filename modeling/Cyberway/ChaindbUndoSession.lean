import Cyberway.ChaindbUndoStack

/-!
# Undo sessions over all tables

`undo_stack_impl` keeps one `table_undo_stack` per touched table together
with the global revision, the tail revision below which everything is
committed, a global stage and the undo key counter. Starting a session
moves every table to the new revision; `undo`, `squash` and `commit` visit
every table and drop those whose stack became empty. `restore` rebuilds
the stack from the records of the system `undo` table after a restart.
Around it, `ChaindbState` adds the rows and the `undo` table that the
journal writes reach once they are flushed.
-/

namespace Cyberway.ChaindbUndoSession

open ChaindbObject ChaindbJournal ChaindbUndoState ChaindbUndoStack

/-- The `tables_` index of `undo_stack_impl`. -/
abbrev Tables := Std.TreeMap TableKey TableUndoStack

/-- `undo_stack_impl`, without its references to the controller, driver,
cache and journal. -/
structure UndoStackImpl where
  /-- Global stage: `Unknown` means writes are not recorded. -/
  stage : UndoStage := .unknown
  /-- `revision_`, the revision of the newest session. -/
  revision : Revision := 0
  /-- `tail_revision_`: sessions at or below it are committed. -/
  tailRevision : Revision := 0
  /-- `undo_pk_`, the undo key counter. -/
  undoPk : PrimaryKey := 1
  /-- The undo stacks of the touched tables. -/
  tables : Tables := ∅
  deriving Inhabited

/-- The journal writes of a global operation, each with its table. -/
abbrev Writes := List (TableKey × JournalWrite)

namespace UndoStackImpl

/-- `undo_stack_impl::clear`. -/
def clear (s : UndoStackImpl) : UndoStackImpl :=
  {s with tables := ∅, revision := 0, tailRevision := 0}

/-- `undo_stack_impl::set_revision`: only without an undo stack. -/
def setRevision (s : UndoStackImpl) (rev : Revision) : Option UndoStackImpl :=
  if s.tables.isEmpty then some {s with revision := rev, tailRevision := rev, stage := .unknown}
  else none

/-- `undo_stack_impl::enabled`. -/
def enabled (s : UndoStackImpl) : Bool :=
  match s.stage with
  | .stack | .new => true
  | .unknown => false

/-- `undo_stack_impl::get_table`: the table's stack, or a new one at the
current revision. -/
def getTable (s : UndoStackImpl) (t : TableKey) : TableUndoStack :=
  s.tables[t]?.getD (TableUndoStack.create t s.revision)

/-- `undo_stack_impl::start_undo_session`: every table moves to the new revision. -/
def startUndoSession (s : UndoStackImpl) (enabled : Bool) : Option (UndoStackImpl × Revision) :=
  if enabled then do
    let revision := s.revision+1
    let tables ← s.tables.foldl (fun acc t ts => do
      let tables ← acc
      let ts ← ts.startSession revision
      pure (tables.insert t ts)) (some s.tables)
    pure ({s with revision := revision, tables := tables, stage := .stack},revision)
  else some (s,impossibleRevision)

/-- `undo_stack_impl::for_tables`: run `f` on every table in order and drop
the tables whose stack is empty afterwards. -/
def forTables (tables : Tables) (f : TableUndoStack → Option (TableUndoStack × List JournalWrite)) :
    Option (Tables × Writes) :=
  tables.foldl (fun acc t ts => do
    let (tables,writes) ← acc
    let (ts,w) ← f ts
    pure (if ts.empty then tables.erase t else tables.insert t ts,writes++w.map ((t,·))))
    (some (tables,[]))

/-- The global stage after the revision went down or the tail went up. -/
def stageAfter (s : UndoStackImpl) : UndoStage :=
  if s.revision == s.tailRevision then .unknown else s.stage

/-- `undo_stack_impl::undo(revision_t)`: only the newest revision can be undone. -/
def undo (verify : TableKey → ObjectValue → Bool) (s : UndoStackImpl) (undoRevision : Revision) :
    Option (UndoStackImpl × Writes) := do
  if s.revision != undoRevision then none
  let (tables,writes) ← forTables s.tables fun ts =>
    if !ts.empty then undoTable verify ts undoRevision else some (ts,[])
  let s := {s with tables := tables, revision := s.revision-1}
  pure ({s with stage := s.stageAfter},writes)

/-- `undo_stack_impl::squash(revision_t)`: only the newest revision can be squashed. -/
def squash (s : UndoStackImpl) (squashRevision : Revision) : Option (UndoStackImpl × Writes) := do
  if s.revision != squashRevision then none
  let (tables,writes) ← forTables s.tables fun ts =>
    if !ts.empty then squashTable s.tailRevision ts squashRevision else some (ts,[])
  let s := {s with tables := tables, revision := s.revision-1}
  pure ({s with stage := s.stageAfter},writes)

/-- `undo_stack_impl::commit(revision_t)`: a revision at or below the tail
is ignored, as on replay. -/
def commit (s : UndoStackImpl) (commitRevision : Revision) : Option (UndoStackImpl × Writes) := do
  if commitRevision ≤ s.tailRevision then return (s,[])
  let (tables,writes) ← forTables s.tables fun ts => commitTable ts commitRevision
  let s := {s with tables := tables, tailRevision := commitRevision}
  pure ({s with stage := s.stageAfter},writes)

/-- `undo_stack_impl::insert(table_info, object_value)`. -/
def insert (verify : TableKey → ObjectValue → Bool) (s : UndoStackImpl) (t : TableKey)
    (obj : ObjectValue) : Option (UndoStackImpl × Writes) := do
  if !verify t obj then none
  if s.enabled then
    let (ts,undoPk,writes) ← insertTable s.revision s.undoPk (s.getTable t) obj
    pure ({s with tables := s.tables.insert t ts, undoPk := undoPk},writes.map ((t,·)))
  else pure (s,[(t,.data (.insert obj))])

/-- `undo_stack_impl::update(table_info, orig_obj, obj)`. -/
def update (verify : TableKey → ObjectValue → Bool) (s : UndoStackImpl) (t : TableKey)
    (origObj obj : ObjectValue) : Option (UndoStackImpl × Writes) := do
  if !verify t obj then none
  if s.enabled then
    let (ts,undoPk,writes) ← updateTable s.revision s.undoPk (s.getTable t) origObj obj
    pure ({s with tables := s.tables.insert t ts, undoPk := undoPk},writes.map ((t,·)))
  else pure (s,[(t,.data (.update obj))])

/-- `undo_stack_impl::remove(table_info, orig_obj)`. -/
def remove (s : UndoStackImpl) (t : TableKey) (origObj : ObjectValue) :
    Option (UndoStackImpl × Writes) := do
  if s.enabled then
    let (ts,undoPk,writes) ← removeTable s.revision s.undoPk (s.getTable t) origObj
    pure ({s with tables := s.tables.insert t ts, undoPk := undoPk},writes.map ((t,·)))
  else pure (s,[(t,.data (.remove origObj))])

/-- The next primary key stored in a `NextPk` record, `obj.value["npk"].as_uint64()`. -/
def nextPkOfRecord (obj : ObjectValue) : Option PrimaryKey :=
  match obj.value with
  | .object fields =>
    match fields.lookup "npk" with
    | some (.uint64 v) => some v
    | some (.int64 v) => some (v%2^64).toNat
    | _ => none
  | _ => none

/-- One iteration of the loop of `undo_stack_impl::restore`: find or start
the record's state in its table, advance the counters and file the record. -/
def restoreRecord (s : UndoStackImpl) (obj : ObjectValue) : Option UndoStackImpl := do
  let pk := obj.pk
  let key := obj.service.tableKey
  let ts := s.getTable key
  let ts ← if ts.revision != obj.service.revision then ts.startSession obj.service.revision else pure ts
  let (ts,state) ← ts.head
  let undoPk := if obj.service.undoPk ≥ s.undoPk then obj.service.undoPk+1 else s.undoPk
  let revision := if obj.service.revision > s.revision then obj.service.revision else s.revision
  let tailRevision := if startRevision ≥ s.tailRevision then obj.service.revision-1 else s.tailRevision
  let ts ← match obj.service.undoRec with
    | .newValue => pure (ts.setHead {state with newValues := state.newValues.insertIfNew pk obj})
    | .oldValue => pure (ts.setHead {state with oldValues := state.oldValues.insertIfNew pk obj})
    | .removedValue => pure (ts.setHead {state with removedValues := state.removedValues.insertIfNew pk obj})
    | .nextPk => do
      let npk ← nextPkOfRecord obj
      let (ts,state) := setNextPk ts state npk obj.service.undoPk
      pure (ts.setHead state)
    | .unknown => none
  pure {s with
    tables := s.tables.insert key ts, undoPk := undoPk, revision := revision
    tailRevision := tailRevision}

/-- `undo_stack_impl::restore`: rebuild the stack from the records of the
`undo` table, read in the order of its `(revision, undo_pk)` index. Skipped
unless the stack is fresh. -/
def restore (s : UndoStackImpl) (records : List ObjectValue) : Option UndoStackImpl :=
  if startRevision ≤ s.revision || startRevision ≤ s.tailRevision then some s
  else do
    let s ← records.foldl (fun acc obj => acc >>= fun s => restoreRecord s obj) (some s)
    if s.revision != s.tailRevision then
      let tables ← s.tables.foldl (fun acc t ts => do
        let tables ← acc
        if ts.revision != s.revision then
          let ts ← ts.startSession s.revision
          pure (tables.insert t ts)
        else pure tables) (some s.tables)
      pure {s with stage := .stack, tables := tables}
    else pure s

end UndoStackImpl

/-- The records of the `undo` table in the order of its revision index:
by revision, then by undo key. -/
def restoreOrder (records : UndoRecords) : List ObjectValue :=
  (records.toList.map (·.2)).mergeSort fun a b =>
    a.service.revision < b.service.revision ||
      (a.service.revision == b.service.revision && a.service.undoPk ≤ b.service.undoPk)

end Cyberway.ChaindbUndoSession
