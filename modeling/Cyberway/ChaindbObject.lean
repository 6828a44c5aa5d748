import Mathlib

/-!
# Chaindb objects, their service state and the table keys

Rows of chaindb are `object_value`s: a decoded `fc::variant` together with a
`service_state` that records where the row lives, who pays for it and, while
the row sits in an undo state, the pre-image fields that an undo restores.
Names, primary keys and undo keys are unsigned 64-bit values; `revision_t`
is `int64_t` and never comes near its bounds, so revisions are integers.
The row size is a C++ `int` and its undo copy a `size_t`, so the two keep
their machine types and the conversions between them.
-/

namespace Cyberway.ChaindbObject

/-- An account, scope or table name, as the raw 64-bit value. -/
abbrev AccountName := ℕ

/-- `primary_key_t`, a 64-bit primary key or undo key. -/
abbrev PrimaryKey := ℕ

/-- `revision_t`, the signed 64-bit undo revision. -/
abbrev Revision := ℤ

/-- `primary_key::End`, the largest 64-bit value. -/
def primaryKeyEnd : PrimaryKey := 2^64-1

/-- `primary_key::Unset`, one below `End`. -/
def primaryKeyUnset : PrimaryKey := 2^64-2

/-- `primary_key::is_good`: neither sentinel. -/
def isGoodPrimaryKey (pk : PrimaryKey) : Bool :=
  pk != primaryKeyUnset && pk != primaryKeyEnd

/-- `impossible_revision`. -/
def impossibleRevision : Revision := -1

/-- `unset_revision`. -/
def unsetRevision : Revision := -2

/-- `start_revision`, the revision of the genesis state. -/
def startRevision : Revision := 1

/-- The `fc::variant` values that chaindb stores and the serializers build. -/
inductive Variant where
  | null
  | int64 (v : ℤ)
  | uint64 (v : ℕ)
  | bool (v : Bool)
  | string (v : String)
  | blob (v : List UInt8)
  | array (items : List Variant)
  | object (fields : List (String × Variant))
  deriving Repr, Inhabited

/-- `undo_record`, the role of a row of the system `undo` table. -/
inductive UndoRecord where
  | unknown
  | oldValue
  | removedValue
  | newValue
  | nextPk
  deriving Repr, DecidableEq, Inhabited

/-- `service_state`: location, payer and the undo pre-image of a row. -/
structure ServiceState where
  /-- Primary key of the row. -/
  pk : PrimaryKey := primaryKeyUnset
  /-- Account charged for the row's storage. -/
  payer : AccountName := 0
  /-- Storage size, a C++ `int`. -/
  size : Int32 := 0
  /-- Whether the row is kept in RAM. -/
  inRam : Bool := true
  /-- Contract account owning the table. -/
  code : AccountName := 0
  /-- Scope of the row. -/
  scope : AccountName := 0
  /-- Table name. -/
  table : AccountName := 0
  /-- Undo revision in which the row was last written. -/
  revision : Revision := impossibleRevision
  /-- Key of the row's record in the `undo` table. -/
  undoPk : PrimaryKey := primaryKeyUnset
  /-- Role of the row's record in the `undo` table. -/
  undoRec : UndoRecord := .unknown
  /-- Pre-image revision. -/
  undoRevision : Revision := impossibleRevision
  /-- Pre-image payer. -/
  undoPayer : AccountName := 0
  /-- Pre-image size, a C++ `size_t`. -/
  undoSize : UInt64 := 0
  /-- Pre-image RAM flag. -/
  undoInRam : Bool := true
  deriving Repr, DecidableEq, Inhabited

/-- `object_value`: the service state and the decoded value. -/
structure ObjectValue where
  /-- Where the row lives and who pays for it. -/
  service : ServiceState := {}
  /-- Decoded row, `null` for a service-only clone. -/
  value : Variant := .null
  deriving Repr, Inhabited

/-- `object_value::pk`. -/
def ObjectValue.pk (obj : ObjectValue) : PrimaryKey := obj.service.pk

/-- `object_value::clone_service`: the service state with a `null` value. -/
def ObjectValue.cloneService (obj : ObjectValue) : ObjectValue := {service := obj.service}

@[simp] theorem ObjectValue.cloneService_service (obj : ObjectValue) :
    obj.cloneService.service=obj.service := rfl

@[simp] theorem ObjectValue.cloneService_pk (obj : ObjectValue) :
    obj.cloneService.pk=obj.pk := rfl

/-- The C++ conversion of an `int` size to `size_t`: sign extension. -/
def sizeToUndoSize (size : Int32) : UInt64 := size.toInt64.toUInt64

/-- The C++ conversion of a `size_t` back to `int`: truncation to 32 bits. -/
def undoSizeToSize (size : UInt64) : Int32 := size.toInt64.toInt32

/-- Storing a size in the undo copy and reading it back gives it unchanged. -/
@[simp] theorem undoSizeToSize_sizeToUndoSize (size : Int32) :
    undoSizeToSize (sizeToUndoSize size)=size := by
  show size.toInt64.toInt32=size
  exact Int32.toInt32_toInt64 size

/-- What a row holds for its readers: the value, its payer, its size and
its RAM flag. Revisions and undo bookkeeping are not part of it. -/
structure ObjectData where
  /-- Decoded row. -/
  value : Variant
  /-- Account charged for the row. -/
  payer : AccountName
  /-- Storage size. -/
  size : Int32
  /-- RAM flag. -/
  inRam : Bool
  deriving Repr, Inhabited

/-- The data a reader sees in a stored object. -/
def ObjectValue.data (obj : ObjectValue) : ObjectData :=
  ⟨obj.value,obj.service.payer,obj.service.size,obj.service.inRam⟩

/-- Tuple keys are ordered lexicographically, as the composite keys of the
C++ indexes are. -/
instance instOrdProdLex {α β : Type} [Ord α] [Ord β] : Ord (α × β) := lexOrd

/-- The key of a table object, `(code, table, scope)`, in the order in which
`table_object::index` sorts the tables. -/
abbrev TableKey := AccountName × AccountName × AccountName

/-- Contract account of a table. -/
def TableKey.code (t : TableKey) : AccountName := t.1

/-- Name of a table. -/
def TableKey.table (t : TableKey) : AccountName := t.2.1

/-- Scope of a table. -/
def TableKey.scope (t : TableKey) : AccountName := t.2.2

/-- `table_info::to_service`: a service state that locates `pk` in the table. -/
def TableKey.toService (t : TableKey) (pk : PrimaryKey := primaryKeyUnset) : ServiceState :=
  {code := t.code, scope := t.scope, table := t.table, pk := pk}

/-- The table a service state belongs to. -/
def ServiceState.tableKey (s : ServiceState) : TableKey := (s.code, s.table, s.scope)

end Cyberway.ChaindbObject
