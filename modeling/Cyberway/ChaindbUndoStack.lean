import Cyberway.ChaindbUndoState

/-!
# The undo stack of chaindb

`undo_stack_impl` records, for every table touched in an undo session, the
pre-images of the rows it changes, and on `undo`, `squash` and `commit`
rolls back, merges or forgets the newest or oldest sessions. Each operation
here returns, besides the new stack, the writes it hands to the journal, in
the order in which the C++ code hands them over. The cache calls of the
source (`clear_unsuccess`, `set_revision`, `emplace`, `remove`,
`set_next_pk`) and `driver_.skip_pk` do not change the undo stack or the
journal and are left out. The value verifier is a parameter: it is a check
that may reject a row.
-/

namespace Cyberway.ChaindbUndoStack

open ChaindbObject ChaindbJournal ChaindbUndoState

/-- `undo_stack_impl::generate_undo_pk`: the key handed out and the next counter. -/
def generateUndoPk (undoPk : PrimaryKey) : PrimaryKey × PrimaryKey :=
  let pk := if isGoodPrimaryKey undoPk then undoPk else 1
  (pk,pk+1)

/-- `undo_stack_impl::copy_undo_object(dst, src)`: the current payer, size and
RAM flag go to `dst`; its value and pre-image stay. -/
def copyUndoObject (dst src : ObjectValue) : ObjectValue :=
  {dst with
    service := {dst.service with
      payer := src.service.payer, size := src.service.size, inRam := src.service.inRam}}

/-- Relabel the undo record of an object. -/
def setUndoRec (obj : ObjectValue) (rec : UndoRecord) : ObjectValue :=
  {obj with service := {obj.service with undoRec := rec}}

/-- Set the revision of an object. -/
def setRevision (obj : ObjectValue) (rev : Revision) : ObjectValue :=
  {obj with service := {obj.service with revision := rev}}

/-- `undo_stack_impl::init_undo_object`: the current service fields become the
pre-image, and the object is stamped with the session and a fresh undo key. -/
def initUndoObject (revision : Revision) (undoPk : PrimaryKey) (dst : ObjectValue)
    (rec : UndoRecord) : ObjectValue :=
  {dst with
    service := {dst.service with
      undoRevision := dst.service.revision, undoPayer := dst.service.payer,
      undoSize := sizeToUndoSize dst.service.size, undoInRam := dst.service.inRam,
      revision := revision, undoPk := undoPk, undoRec := rec}}

/-- `undo_stack_impl::restore_undo_state`: the pre-image fields come back. -/
def restoreUndoState (obj : ObjectValue) : ObjectValue :=
  {obj with
    service := {obj.service with
      revision := obj.service.undoRevision, payer := obj.service.undoPayer,
      size := undoSizeToSize obj.service.undoSize, inRam := obj.service.undoInRam}}

/-- The value of a `NextPk` record: `{npk: pk}`. -/
def nextPkValue (pk : PrimaryKey) : Variant := .object [("npk",.uint64 pk)]

/-- `undo_stack_impl::insert(table_undo_stack&, object_value)`. A row removed
earlier in the session comes back as an update of its first pre-image. -/
def insertTable (revision : Revision) (undoPk : PrimaryKey) (table : TableUndoStack)
    (obj : ObjectValue) : Option (TableUndoStack × PrimaryKey × List JournalWrite) := do
  let pk := obj.pk
  let (table,head) ← table.head
  let data := JournalWrite.data (.insert obj)
  match head.removedValues[pk]? with
  | some r =>
    let r := setUndoRec (copyUndoObject r obj) .oldValue
    let head := {head with
      oldValues := head.oldValues.insertIfNew pk r
      removedValues := head.removedValues.erase pk}
    pure (table.setHead head,undoPk,[data,.undo (.update r.cloneService)])
  | none =>
    let (upk,undoPk) := generateUndoPk undoPk
    let obj := initUndoObject revision upk obj .newValue
    let head := {head with newValues := head.newValues.insertIfNew pk obj}
    let writes := [data,.undo (.insert obj.cloneService)]
    if head.hasNextPk then pure (table.setHead head,undoPk,writes)
    else
      let (npkUpk,undoPk) := generateUndoPk undoPk
      let (table,head) := setNextPk table head pk npkUpk
      pure (table.setHead head,undoPk,
        writes++[.undo (.insert (head.nextPkObject table.info (nextPkValue pk)))])

/-- `undo_stack_impl::update(table_undo_stack&, orig_obj, obj)`. A row updated
again in the same session keeps its first pre-image. -/
def updateTable (revision : Revision) (undoPk : PrimaryKey) (table : TableUndoStack)
    (origObj obj : ObjectValue) : Option (TableUndoStack × PrimaryKey × List JournalWrite) := do
  let pk := origObj.pk
  let (table,head) ← table.head
  let data := JournalWrite.data (.update obj)
  match head.newValues[pk]? with
  | some n =>
    let n := copyUndoObject n obj
    pure (table.setHead {head with newValues := head.newValues.insert pk n},undoPk,
      [data,.undo (.update n.cloneService)])
  | none =>
    match head.oldValues[pk]? with
    | some o =>
      pure (table.setHead {head with oldValues := head.oldValues.insert pk (copyUndoObject o obj)},
        undoPk,[data,.data (.update obj)])
    | none =>
      let (upk,undoPk) := generateUndoPk undoPk
      let o := copyUndoObject (initUndoObject revision upk origObj .oldValue) obj
      pure (table.setHead {head with oldValues := head.oldValues.insertIfNew pk o},undoPk,
        [data,.undo (.insert o)])

/-- `undo_stack_impl::remove(table_undo_stack&, orig_obj)`. Removing a row
inserted in the same session forgets it; removing an updated row keeps
the update's pre-image. -/
def removeTable (revision : Revision) (undoPk : PrimaryKey) (table : TableUndoStack)
    (origObj : ObjectValue) : Option (TableUndoStack × PrimaryKey × List JournalWrite) := do
  let pk := origObj.pk
  let (table,head) ← table.head
  let data := JournalWrite.data (.remove origObj.cloneService)
  match head.newValues[pk]? with
  | some n =>
    pure (table.setHead {head with newValues := head.newValues.erase pk},undoPk,
      [data,.undo (.remove n)])
  | none =>
    match head.oldValues[pk]? with
    | some o =>
      let o := setUndoRec o .removedValue
      let head := {head with
        removedValues := head.removedValues.insertIfNew pk o
        oldValues := head.oldValues.erase pk}
      pure (table.setHead head,undoPk,[data,.undo (.update o)])
    | none =>
      let (upk,undoPk) := generateUndoPk undoPk
      let o := initUndoObject revision upk origObj .removedValue
      pure (table.setHead {head with removedValues := head.removedValues.insertIfNew pk o},undoPk,
        [data,.undo (.insert o)])

/-- `undo_stack_impl::remove_next_pk`: the writes that drop a state's
`NextPk` record, and the state without it. -/
def removeNextPk (info : TableKey) (s : UndoState) : List JournalWrite × UndoState :=
  if s.hasNextPk then ([.undo (.remove (s.nextPkObject info) s.revision)],s.resetNextPk)
  else ([],s)

section Verifier

-- `value_verifier::verify`, which may reject a restored row.
variable (verify : TableKey → ObjectValue → Bool)

/-- `undo_stack_impl::undo(table_undo_stack&, revision_t)`: write back the
old values, drop the new ones and re-insert the removed ones, then pop. -/
def undoTable (table : TableUndoStack) (undoRev : Revision) :
    Option (TableUndoStack × List JournalWrite) := do
  if undoRev > table.headRevision then
    let table ← table.undo
    return (table,[])
  let (table,head) ← table.head
  if head.revision != undoRev then none
  let old := head.oldValues.toList.map (·.2)
  let new := head.newValues.toList.map (·.2)
  let removed := head.removedValues.toList.map (·.2)
  if !(old.all fun o => verify table.info (restoreUndoState o)) then none
  if !(removed.all fun o => verify table.info (restoreUndoState o)) then none
  let writes :=
    old.flatMap (fun o => journalWrite (.update (restoreUndoState o) undoRev) (.remove o.cloneService undoRev))++
    new.flatMap (fun o => journalWrite (.remove o.cloneService undoRev) (.remove o.cloneService undoRev))++
    removed.flatMap (fun o => journalWrite (.insert (restoreUndoState o)) (.remove o.cloneService undoRev))
  let table ← table.undo
  return (table,writes++(removeNextPk table.info head).1)

end Verifier

/-- The writes of `process_state` over the old, new and removed values of a
state; `step hasData obj` are the writes for one object. -/
def processState (s : UndoState) (step : Bool → ObjectValue → List JournalWrite) :
    List JournalWrite :=
  (s.oldValues.toList.flatMap fun e => step true e.2)++
  (s.newValues.toList.flatMap fun e => step true e.2)++
  (s.removedValues.toList.flatMap fun e => step false e.2)

/-- Every recorded object of the state moved to revision `rev`. -/
def setRevisions (s : UndoState) (rev : Revision) : UndoState :=
  {s with
    oldValues := s.oldValues.map fun _ o => setRevision o rev
    newValues := s.newValues.map fun _ o => setRevision o rev
    removedValues := s.removedValues.map fun _ o => setRevision o rev}

/-- `undo_stack_impl::squash_state`: the head state moves one revision down. -/
def squashState (table : TableUndoStack) (state : UndoState) :
    Option (TableUndoStack × List JournalWrite) := do
  let rev := state.revision
  let writes := processState state fun hasData obj =>
    (if hasData then [.data (.revision rev obj.cloneService)] else [])++
      [.undo (.revision rev obj.cloneService)]
  let state := setRevisions state (rev-1)
  let (table,npk) ←
    if state.hasNextPk then do
      let table ← table.moveUndoNextPk (state.revision-1) state.revision
      pure (table,[JournalWrite.undo (.revision state.revision (state.nextPkObject table.info))])
    else pure (table,[])
  let table ← (table.setHead state).squash
  return (table,writes++npk)

/-- `undo_stack_impl::remove_state`: the head state is forgotten. -/
def removeState (table : TableUndoStack) (state : UndoState) :
    Option (TableUndoStack × List JournalWrite) := do
  let rev := state.revision
  let writes := processState state fun hasData obj =>
    (if hasData then [.data (.revision rev obj.cloneService)] else [])++
      [.undo (.remove obj.cloneService rev)]
  let table ← table.undo
  return (table,writes++(removeNextPk table.info state).1)

/-- One step of the first merge loop of `squash`: `B` updated the row. -/
def mergeOld (b : UndoState) (acc : Option (UndoState × List JournalWrite)) (obj : ObjectValue) :
    Option (UndoState × List JournalWrite) := do
  let (a,writes) ← acc
  let pk := obj.pk
  let found := journalWrite (.revision b.revision obj.cloneService) (.remove obj.cloneService b.revision)
  match a.newValues[pk]? with
  | some n => pure ({a with newValues := a.newValues.insert pk (copyUndoObject n obj)},writes++found)
  | none =>
    match a.oldValues[pk]? with
    | some o => pure ({a with oldValues := a.oldValues.insert pk (copyUndoObject o obj)},writes++found)
    | none =>
      if a.removedValues.contains pk then none
      pure ({a with oldValues := a.oldValues.insertIfNew pk (setRevision obj a.revision)},
        writes++journalWrite (.revision b.revision obj.cloneService) (.revision b.revision obj.cloneService))

/-- One step of the second merge loop of `squash`: `B` inserted the row. -/
def mergeNew (b : UndoState) (acc : UndoState × List JournalWrite) (obj : ObjectValue) :
    UndoState × List JournalWrite :=
  let (a,writes) := acc
  let pk := obj.pk
  match a.removedValues[pk]? with
  | some r =>
    let r := setUndoRec r .oldValue
    ({a with
        oldValues := a.oldValues.insertIfNew pk r
        removedValues := a.removedValues.erase pk},
      writes++[.undo (.remove obj.cloneService b.revision),.undo (.update r)])
  | none =>
    ({a with newValues := a.newValues.insertIfNew pk (setRevision obj a.revision)},
      writes++journalWrite (.revision b.revision obj.cloneService) (.revision b.revision obj.cloneService))

/-- One step of the third merge loop of `squash`: `B` removed the row. -/
def mergeRemoved (b : UndoState) (acc : Option (UndoState × List JournalWrite)) (obj : ObjectValue) :
    Option (UndoState × List JournalWrite) := do
  let (a,writes) ← acc
  let pk := obj.pk
  match a.newValues[pk]? with
  | some _ =>
    pure ({a with newValues := a.newValues.erase pk},writes++[.undo (.remove obj.cloneService b.revision)])
  | none =>
    match a.oldValues[pk]? with
    | some o =>
      pure ({a with
          removedValues := a.removedValues.insertIfNew pk o
          oldValues := a.oldValues.erase pk},
        writes++[.undo (.remove obj.cloneService b.revision)])
    | none =>
      if a.removedValues.contains pk then none
      pure ({a with removedValues := a.removedValues.insertIfNew pk (setRevision obj a.revision)},
        writes++[.undo (.revision b.revision obj.cloneService)])

/-- The three loops of `squash` that merge the values of `B` into `A`. -/
def mergeValues (a b : UndoState) : Option (UndoState × List JournalWrite) := do
  let acc ← (b.oldValues.toList.map (·.2)).foldl (mergeOld b) (some (a,[]))
  let acc := (b.newValues.toList.map (·.2)).foldl (mergeNew b) acc
  (b.removedValues.toList.map (·.2)).foldl (mergeRemoved b) (some acc)

/-- `undo_stack_impl::squash` for two neighbouring states: `B`, the head, is
merged into `A` below it and popped. -/
def mergeStates (table : TableUndoStack) (a b : UndoState) :
    Option (TableUndoStack × List JournalWrite) := do
  let (a,writes) ← mergeValues a b
  let (table,a,b,npk) ←
    if b.hasNextPk then
      if !a.hasNextPk then do
        let w := JournalWrite.undo (.revision b.revision (b.nextPkObject table.info))
        let (table,a,b) ← moveNextPk table a b
        pure (table,a,b,[w])
      else
        let (w,b) := removeNextPk table.info b
        pure (table,a,b,w)
    else pure (table,a,b,[])
  let table ← {table with stack := b::a::table.stack.drop 2}.undo
  return (table,writes++npk)

/-- `undo_stack_impl::squash(table_undo_stack&, revision_t)`. -/
def squashTable (tailRevision : Revision) (table : TableUndoStack) (squashRev : Revision) :
    Option (TableUndoStack × List JournalWrite) := do
  if squashRev > table.headRevision then
    let table ← table.squash
    return (table,[])
  let (table,state) ← table.head
  if state.revision != squashRev then none
  if table.stack.length == 1 then
    if state.revision-1 > tailRevision then squashState table state else removeState table state
  else
    let prev ← table.prevState
    if prev.revision != state.revision-1 then squashState table state
    else mergeStates table prev state

/-- The loop of `undo_stack_impl::commit(table_undo_stack&, revision_t)`,
with one unit of fuel for each state on the stack. -/
def commitLoop (commitRev : Revision) : ℕ → TableUndoStack → List JournalWrite →
    Option (TableUndoStack × List JournalWrite)
  | 0,table,writes => some (table,writes)
  | fuel+1,table,writes => do
    if table.empty then return (table,writes)
    let state ← table.tail
    if state.revision > commitRev then return (table,writes)
    let rev := state.revision
    let w := processState state fun _ obj => [.undo (.remove obj.cloneService rev)]
    let table ← table.commit
    commitLoop commitRev fuel table (writes++w++(removeNextPk table.info state).1)

/-- `undo_stack_impl::commit(table_undo_stack&, revision_t)`: forget the
states at or below `commitRev`, oldest first. -/
def commitTable (table : TableUndoStack) (commitRev : Revision) :
    Option (TableUndoStack × List JournalWrite) :=
  let table := table.removeUndoNextPk commitRev
  if table.empty then some (table,[]) else commitLoop commitRev table.stack.length table []

end Cyberway.ChaindbUndoStack
