import Cyberway.ChaindbUndoSession

/-!
# Runs of the undo stack over the stored rows

A `ChaindbState` is the undo stack together with the rows of the tables and
the records of the system `undo` table, both with every journal write the
stack handed over already flushed. A run applies the operations of the undo
stack: sessions, writes of rows that are absent (insert) or present (update,
remove), `undo`, `squash` and `commit` of a revision, and a restart, after
which a fresh stack is rebuilt by `restore` from the `undo` table.
-/

namespace Cyberway.ChaindbUndoRun

open ChaindbObject ChaindbJournal ChaindbUndoState ChaindbUndoStack ChaindbUndoSession

/-- The undo stack, the flushed rows and the flushed `undo` table. -/
structure ChaindbState where
  /-- The in-memory undo stack. -/
  undo : UndoStackImpl
  /-- The rows of all tables. -/
  rows : Rows
  /-- The system `undo` table. -/
  records : UndoRecords
  deriving Inhabited

/-- An operation of a run. -/
inductive Op where
  /-- `start_undo_session(true)`. -/
  | startUndoSession
  /-- Insert a row whose key is absent. -/
  | insert (t : TableKey) (obj : ObjectValue)
  /-- Update the present row with the key of `obj`. -/
  | update (t : TableKey) (obj : ObjectValue)
  /-- Remove the present row with key `pk`. -/
  | remove (t : TableKey) (pk : PrimaryKey)
  /-- `undo(revision)`. -/
  | undo (rev : Revision)
  /-- `squash(revision)`. -/
  | squash (rev : Revision)
  /-- `commit(revision)`. -/
  | commit (rev : Revision)
  /-- Restart: a fresh undo stack is rebuilt by `restore`. -/
  | restart
  deriving Inhabited

namespace ChaindbState

/-- Flush the writes of an operation. -/
def flush (s : ChaindbState) (u : UndoStackImpl) (writes : Writes) : ChaindbState :=
  let (rows,records) := applyWrites s.rows s.records writes
  ⟨u,rows,records⟩

/-- One operation; `none` when the code throws or the operation's key
precondition fails. -/
def step (verify : TableKey → ObjectValue → Bool) (s : ChaindbState) : Op → Option ChaindbState
  | .startUndoSession => do
    let (u,_) ← s.undo.startUndoSession true
    pure {s with undo := u}
  | .insert t obj =>
    if s.rows.contains (t,obj.pk) then none
    else do
      let (u,w) ← s.undo.insert verify t obj
      pure (s.flush u w)
  | .update t obj => do
    let orig ← s.rows[(t,obj.pk)]?
    let (u,w) ← s.undo.update verify t orig obj
    pure (s.flush u w)
  | .remove t pk => do
    let orig ← s.rows[(t,pk)]?
    let (u,w) ← s.undo.remove t orig
    pure (s.flush u w)
  | .undo rev => do
    let (u,w) ← s.undo.undo verify rev
    pure (s.flush u w)
  | .squash rev => do
    let (u,w) ← s.undo.squash rev
    pure (s.flush u w)
  | .commit rev => do
    let (u,w) ← s.undo.commit rev
    pure (s.flush u w)
  | .restart => do
    let u ← ({} : UndoStackImpl).restore (restoreOrder s.records)
    pure {s with undo := u}

/-- A run of operations. -/
def run (verify : TableKey → ObjectValue → Bool) (s : ChaindbState) : List Op → Option ChaindbState
  | [] => some s
  | op::ops => (s.step verify op).bind fun s => run verify s ops

end ChaindbState

/-- What undoing one state does to the rows of its table, as the claim of
rollback reads it: old values written back, new values removed, removed
values re-inserted, each pre-image with its restored service fields. -/
def applyUndoState (t : TableKey) (st : UndoState) (rows : Rows) : Rows :=
  let rows := st.oldValues.foldl (fun rows pk o => rows.insert (t,pk) (restoreUndoState o)) rows
  let rows := st.newValues.foldl (fun rows pk _ => rows.erase (t,pk)) rows
  st.removedValues.foldl (fun rows pk o => rows.insert (t,pk) (restoreUndoState o)) rows

/-- Undo, newest first, every state of revision `k` or above of every table. -/
def undoFrom (k : Revision) (u : UndoStackImpl) (rows : Rows) : Rows :=
  u.tables.foldl (fun rows t ts =>
    (ts.stack.filter fun st => decide (k ≤ st.revision)).foldl
      (fun rows st => applyUndoState t st rows) rows) rows

/-- A verifier that accepts every row, as it does for every table but the
system account table. -/
def acceptAll (_ : TableKey) (_ : ObjectValue) : Bool := true

/-- The table of the runs below. -/
def exampleTable : TableKey := (1,2,3)

/-- Row `7` of the example table with value `v`, last written in revision `rev`. -/
def exampleRow (rev : Revision) (v : ℕ) : ObjectValue :=
  {service := {exampleTable.toService 7 with payer := 5, size := 10, revision := rev}
   value := .uint64 v}

/-- The state `set_revision(1)` leaves over a database holding one row. -/
def exampleStart : ChaindbState :=
  ⟨{revision := 1, tailRevision := 1},(∅ : Rows).insert (exampleTable,7) (exampleRow 1 100),∅⟩

/-- Session 2 updates the row, session 3 removes it, and session 3 is
squashed into session 2. -/
def updateRemoveSquash : List Op :=
  [.startUndoSession,.update exampleTable (exampleRow 2 200),.startUndoSession,
    .remove exampleTable 7,.squash 3]

/-- After the squash of an update followed by a remove, the merged state of
revision 2 holds the row among its removed values, while the `undo` table
still holds its record as an `OldValue` of revision 2. -/
theorem squash_update_remove_keeps_old_record :
    ((exampleStart.run acceptAll updateRemoveSquash).map fun s =>
      (s.records.toList.any fun e =>
        e.2.pk == 7 && e.2.service.revision == 2 && e.2.service.undoRec == .oldValue) &&
      (s.undo.tables.toList.any fun e => e.2.stack.any fun (st : UndoState) =>
        st.revision == 2 && st.removedValues.contains 7 && !st.oldValues.contains 7)) =
      some true := by
  decide +kernel

/-- After the same run, a restart and an insert of the row, undoing revision
2 leaves the table without the row that it held when session 2 started;
without the restart the same insert and undo bring it back. -/
theorem restore_insert_undo_loses_row :
    exampleStart.rows.contains (exampleTable,7)=true ∧
    ((exampleStart.run acceptAll (updateRemoveSquash++[.restart,.insert exampleTable (exampleRow 2 300)])).map
      fun s => (undoFrom 2 s.undo s.rows).contains (exampleTable,7))=some false ∧
    ((exampleStart.run acceptAll
      (updateRemoveSquash++[.restart,.insert exampleTable (exampleRow 2 300),.undo 2])).map
      fun s => s.rows.contains (exampleTable,7))=some false ∧
    ((exampleStart.run acceptAll
      (updateRemoveSquash++[.insert exampleTable (exampleRow 2 300),.undo 2])).map
      fun s => s.rows.contains (exampleTable,7))=some true := by
  refine ⟨?_,?_,?_,?_⟩ <;> decide +kernel

end Cyberway.ChaindbUndoRun
