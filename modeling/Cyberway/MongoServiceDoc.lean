import Cyberway.ChaindbObject
import Cyberway.ChaindbTypedName

/-!
# The `_SERVICE_` sub-document of the MongoDB driver

Every stored row carries its `service_state` in a `_SERVICE_` sub-document.
A table row stores its scope as a typed value, its revision, its payer as a
printed account name, its size and, for rows kept in RAM, a `ram` flag. A
row of the `undo` table stores all fourteen fields, the keys and payers as
decimal128 numbers whose low word is the value. `build_service_state` reads
either kind back, telling them apart by the first key, and checks that every
field was there.

The undo fields come back as written, the two sizes as 32-bit values. The
table fields come back too, except the scope of a table scoped by
`symbol_code`: the scope is printed as the code's letters, which drop its top
byte, so a scope with a non-zero top byte is read back as another one.
-/

namespace Cyberway.MongoServiceDoc

open ChaindbObject ChaindbTypedName

/-- The BSON values a `_SERVICE_` sub-document holds. -/
inductive Element where
  | int32 (val : Int32)
  | int64 (val : Int64)
  | decimal128 (high low : UInt64)
  | utf8 (val : List Char)
  | bool (val : Bool)
  deriving DecidableEq, Repr

/-- A BSON document: its keys and values in order. -/
abbrev Document := List (List Char × Element)

/-! ## Field names and values

The keys of `names.cpp`, spelled as their characters. -/

/-- `names::code_field`. -/
def codeField : List Char := ['c','o','d','e']
/-- `names::table_field`. -/
def tableField : List Char := ['t','a','b','l','e']
/-- `names::scope_field`. -/
def scopeField : List Char := ['s','c','o','p','e']
/-- `names::pk_field`. -/
def pkField : List Char := ['p','k']
/-- `names::undo_pk_field`. -/
def undoPkField : List Char := ['u','p','k']
/-- `names::undo_payer_field`. -/
def undoPayerField : List Char := ['u','y','r']
/-- `names::undo_size_field`. -/
def undoSizeField : List Char := ['u','s','z']
/-- `names::undo_ram_field`. -/
def undoRamField : List Char := ['u','r','m']
/-- `names::undo_rec_field`. -/
def undoRecField : List Char := ['u','c','t']
/-- `names::undo_rev_field`. -/
def undoRevField : List Char := ['u','v','s']
/-- `names::revision_field`. -/
def revisionField : List Char := ['r','e','v']
/-- `names::payer_field`. -/
def payerField : List Char := ['p','a','y','e','r']
/-- `names::size_field`. -/
def sizeField : List Char := ['s','i','z','e']
/-- `names::ram_field`. -/
def ramField : List Char := ['r','a','m']

/-- `DECIMAL_128_HIGH`: the exponent bias in the high word. -/
def decimal128High : UInt64 := (6176 : UInt64) <<< 49

/-- `to_decimal128`: the value as the low word. -/
def toDecimal128 (val : UInt64) : Element := .decimal128 decimal128High val

/-- `from_decimal128`: the low word of a decimal128. -/
def fromDecimal128 : Element → Option UInt64
  | .decimal128 _ low => some low
  | _ => none

/-- `get_int32`. -/
def Element.getInt32 : Element → Option Int32
  | .int32 v => some v
  | _ => none

/-- `get_int64`. -/
def Element.getInt64 : Element → Option Int64
  | .int64 v => some v
  | _ => none

/-- `from_utf8`. -/
def Element.getUtf8 : Element → Option (List Char)
  | .utf8 v => some v
  | _ => none

/-- `get_bool`. -/
def Element.getBool : Element → Option Bool
  | .bool v => some v
  | _ => none

/-- `static_cast<int32_t>` of an `undo_record`. -/
def undoRecordToInt32 : UndoRecord → Int32
  | .unknown => 0
  | .oldValue => 1
  | .removedValue => 2
  | .newValue => 3
  | .nextPk => 4

/-- `static_cast<undo_record>` of an `int32_t`; a number outside the five
records, which no writer stores, reads as `Unknown`. -/
def undoRecordOfInt32 (v : Int32) : UndoRecord :=
  if v=1 then .oldValue else if v=2 then .removedValue else if v=3 then .newValue
  else if v=4 then .nextPk else .unknown

/-! ## Writing -/

/-- `append_ram_field`: the flag is written only when it is set; archive
records go without it. -/
def appendRamField (name : List Char) (value : Bool) : Document :=
  if value then [(name,.bool true)] else []

/-- `append_typed_value`: integers as numbers, names and symbols as their
printed form. Its `assert(false)` for `Unknown` is out of reach. -/
def appendTypedValue (field : List Char) : TypedName → List Char × Element
  | ⟨.int64,v,_⟩ => (field,.int64 v.toInt64)
  | ⟨.uint64,v,_⟩ => (field,toDecimal128 v)
  | ⟨.name,v,h⟩ => (field,.utf8 (TypedName.toString ⟨.name,v,h⟩))
  | ⟨.symbol,v,h⟩ => (field,.utf8 (TypedName.toString ⟨.symbol,v,h⟩))
  | ⟨.symbolCode,v,h⟩ => (field,.utf8 (TypedName.toString ⟨.symbolCode,v,h⟩))
  | ⟨.unknown,_,h⟩ => (Bool.false_ne_true h).elim

/-- `build_service_document`: the `_SERVICE_` sub-document of a table row.
`scope_name::from_table` throws on a scope its kind does not accept. -/
def buildServiceDocument (table : TableInfo) (service : ServiceState) : Option Document := do
  let scope ← ScopeName.fromTable table
  pure ([appendTypedValue scopeField scope,
    (revisionField,.int64 (Int64.ofInt service.revision)),
    (payerField,.utf8 (nameToString service.payer.toUInt64)),
    (sizeField,.int32 service.size)]++appendRamField ramField service.inRam)

/-- `build_undo_document`: the `_SERVICE_` sub-document of an `undo` row. -/
def buildUndoDocument (service : ServiceState) : Document :=
  [(undoPkField,toDecimal128 service.undoPk.toUInt64),
    (undoRecField,.int32 (undoRecordToInt32 service.undoRec)),
    (undoRevField,.int64 (Int64.ofInt service.undoRevision)),
    (undoPayerField,toDecimal128 service.undoPayer.toUInt64),
    (undoSizeField,.int32 (undoSizeToSize service.undoSize)),
    (codeField,toDecimal128 service.code.toUInt64),
    (tableField,toDecimal128 service.table.toUInt64),
    (scopeField,toDecimal128 service.scope.toUInt64),
    (pkField,toDecimal128 service.pk.toUInt64),
    (revisionField,.int64 (Int64.ofInt service.revision)),
    (payerField,toDecimal128 service.payer.toUInt64),
    (sizeField,.int32 service.size)]++
    appendRamField ramField service.inRam++appendRamField undoRamField service.undoInRam

/-! ## Reading -/

/-- The exceptions of the readers. -/
inductive DriverError where
  /-- `driver_wrong_field_name_exception`: "Wrong field name ${name} in the row". -/
  | wrongFieldName (name : List Char)
  /-- `driver_wrong_field_type_exception`: "Wrong type for the field ${name} in
  the document". -/
  | wrongFieldType (name : List Char)
  /-- `driver_absent_field_exception`: "The row doesn't contain the some
  _SERVICE_ fields". -/
  | absentField
  deriving DecidableEq, Repr

/-- `validate_field_name`. -/
def validateFieldName (test : Bool) (key : List Char) : Except DriverError Unit :=
  if test then pure () else throw (.wrongFieldName key)

/-- `validate_field_type`. -/
def validateFieldType (test : Bool) (key : List Char) : Except DriverError Unit :=
  if test then pure () else throw (.wrongFieldType key)

/-- `validate_exist_field`. -/
def validateExistField (test : Bool) : Except DriverError Unit :=
  if test then pure () else throw .absentField

/-- A read of the element that fails: the readers catch every other
exception of a field as `validate_field_type(false)`. -/
def readOr {α : Type} (key : List Char) : Option α → Except DriverError α
  | some a => pure a
  | none => throw (.wrongFieldType key)

/-- `get_typed_value` for a key of the given kind: any other element type
ends in `from_value(info)`, which throws. -/
def getTypedValue (kind : ValueKind) : Element → Option TypedName
  | .int64 v => fromValueInt64 kind v
  | .decimal128 _ low => fromValueUint64 kind low
  | .utf8 v => fromValueString kind v
  | _ => none

/-- One field of `build_undo_state`: the state with the field read, and
whether the field counts towards the eleven that must be there (`uvs` and
the two RAM flags do not). -/
def undoField (state : ServiceState) (key : List Char) (itm : Element) : Except DriverError (ServiceState × Bool) :=
  match key with
  | 'c' :: _ => do
    validateFieldName (key == codeField) key
    let v ← readOr key (fromDecimal128 itm)
    pure ({state with code := v.toNat},true)
  | 't' :: _ => do
    validateFieldName (key == tableField) key
    let v ← readOr key (fromDecimal128 itm)
    pure ({state with table := v.toNat},true)
  | 's' :: _ =>
    if key == scopeField then do
      let v ← readOr key (fromDecimal128 itm)
      pure ({state with scope := v.toNat},true)
    else do
      validateFieldName (key == sizeField) key
      let v ← readOr key itm.getInt32
      pure ({state with size := v},true)
  | 'p' :: _ =>
    if key == pkField then do
      let v ← readOr key (fromDecimal128 itm)
      pure ({state with pk := v.toNat},true)
    else do
      validateFieldName (key == payerField) key
      let v ← readOr key (fromDecimal128 itm)
      pure ({state with payer := v.toNat},true)
  | 'r' :: _ =>
    if key == revisionField then do
      let v ← readOr key itm.getInt64
      pure ({state with revision := v.toInt},true)
    else do
      validateFieldName (key == ramField) key
      let v ← readOr key itm.getBool
      -- for archive records it should be absent
      validateFieldName v key
      pure ({state with inRam := v},false)
  | 'u' :: 'p' :: _ => do
    validateFieldName (key == undoPkField) key
    let v ← readOr key (fromDecimal128 itm)
    pure ({state with undoPk := v.toNat},true)
  | 'u' :: 'y' :: _ => do
    validateFieldName (key == undoPayerField) key
    let v ← readOr key (fromDecimal128 itm)
    pure ({state with undoPayer := v.toNat},true)
  | 'u' :: 's' :: _ => do
    validateFieldName (key == undoSizeField) key
    let v ← readOr key itm.getInt32
    pure ({state with undoSize := sizeToUndoSize v},true)
  | 'u' :: 'c' :: _ => do
    validateFieldName (key == undoRecField) key
    let v ← readOr key itm.getInt32
    pure ({state with undoRec := undoRecordOfInt32 v},true)
  | 'u' :: 'v' :: _ => do
    validateFieldName (key == undoRevField) key
    let v ← readOr key itm.getInt64
    pure ({state with undoRevision := v.toInt},false)
  | 'u' :: _ => do
    validateFieldName (key == undoRamField) key
    let v ← readOr key itm.getBool
    validateFieldName v key
    pure ({state with undoInRam := v},false)
  | _ => throw (.wrongFieldName key)

/-- The loop of a reader: each field read in turn, the counted ones
counted. -/
def readFields (field : ServiceState → List Char → Element → Except DriverError (ServiceState × Bool))
    (state : ServiceState) : Document → Except DriverError (ServiceState × ℕ)
  | [] => pure (state,0)
  | (key,itm) :: rest => do
    let (state,counted) ← field state key itm
    let (state,cnt) ← readFields field state rest
    pure (state,if counted then cnt+1 else cnt)

/-- `build_undo_state`: eleven counted fields must be there. -/
def buildUndoState (state : ServiceState) (src : Document) : Except DriverError ServiceState := do
  let (state,cnt) ← readFields undoField state src
  validateExistField (cnt == 11)
  pure state

/-- One field of the table-row branch of `build_service_state`. -/
def serviceField (info : TableInfo) (state : ServiceState) (key : List Char) (itm : Element) :
    Except DriverError (ServiceState × Bool) :=
  match key with
  | 's' :: _ =>
    if key == scopeField then do
      let v ← readOr key (getTypedValue (ScopeName.kindFromTable info) itm)
      pure ({state with scope := v.value.toNat},true)
    else do
      validateFieldName (key == sizeField) key
      let v ← readOr key itm.getInt32
      pure ({state with size := v},true)
  | 'p' :: _ => do
    validateFieldName (key == payerField) key
    let s ← readOr key itm.getUtf8
    -- `account_name(string)` throws on a string that is not a normal name
    let v ← readOr key (nameSet s)
    pure ({state with payer := v.toNat},true)
  | 'r' :: _ =>
    if key == revisionField then do
      let v ← readOr key itm.getInt64
      pure ({state with revision := v.toInt},true)
    else do
      validateFieldName (key == ramField) key
      let v ← readOr key itm.getBool
      -- for archive records it should be absent
      validateFieldType v key
      pure ({state with inRam := v},false)
  | _ => throw (.wrongFieldName key)

/-- `build_service_state`: both RAM flags start false; a sub-document whose
first key starts with `u` is an undo record, any other needs its four
counted fields. -/
def buildServiceState (info : TableInfo) (state : ServiceState) (src : Document) : Except DriverError ServiceState :=
  let state := {state with inRam := false,undoInRam := false}
  if (src.head?.bind fun field => field.1.head?)=some 'u' then buildUndoState state src
  else do
    let (state,cnt) ← readFields (serviceField info) state src
    validateExistField (cnt == 4)
    pure state

/-! ## Undo records read back -/

/-- The fields of a `service_state` lie within their C++ types: the names
and keys are `uint64_t`, the revisions `int64_t`. -/
structure Persistable (s : ServiceState) : Prop where
  pk : s.pk < 2^64
  payer : s.payer < 2^64
  code : s.code < 2^64
  scope : s.scope < 2^64
  table : s.table < 2^64
  undoPk : s.undoPk < 2^64
  undoPayer : s.undoPayer < 2^64
  revision : -2^63 ≤ s.revision ∧ s.revision < 2^63
  undoRevision : -2^63 ≤ s.undoRevision ∧ s.undoRevision < 2^63

/-- What `build_undo_state` reads from the document of `s`: every field
through the C++ type it is stored in. -/
def undoRead (s : ServiceState) : ServiceState where
  pk := s.pk.toUInt64.toNat
  payer := s.payer.toUInt64.toNat
  size := s.size
  inRam := s.inRam
  code := s.code.toUInt64.toNat
  scope := s.scope.toUInt64.toNat
  table := s.table.toUInt64.toNat
  revision := (Int64.ofInt s.revision).toInt
  undoPk := s.undoPk.toUInt64.toNat
  undoRec := undoRecordOfInt32 (undoRecordToInt32 s.undoRec)
  undoRevision := (Int64.ofInt s.undoRevision).toInt
  undoPayer := s.undoPayer.toUInt64.toNat
  undoSize := sizeToUndoSize (undoSizeToSize s.undoSize)
  undoInRam := s.undoInRam

/-- `build_service_state` recognises the undo document by its first key and
reads all of it, whatever the state it starts from. -/
theorem buildServiceState_undo (info : TableInfo) (state s : ServiceState) :
    buildServiceState info state (buildUndoDocument s)=.ok (undoRead s) := by
  obtain ⟨pk,payer,size,inRam,code,scope,table,revision,undoPk,undoRec,undoRevision,undoPayer,undoSize,
    undoInRam⟩ := s
  cases inRam <;> cases undoInRam <;> rfl

theorem toNat_toUInt64_of_lt {n : ℕ} (h : n < 2^64) : n.toUInt64.toNat=n := by
  rw [Nat.toUInt64_eq,UInt64.toNat_ofNat_of_lt' h]

theorem undoRecordOfInt32_toInt32 (r : UndoRecord) : undoRecordOfInt32 (undoRecordToInt32 r)=r := by
  cases r <;> decide

/-- Within their C++ types the fields read back as they were, the size of
the pre-image through `int`. -/
theorem undoRead_eq {s : ServiceState} (hs : Persistable s) :
    undoRead s={s with undoSize := sizeToUndoSize (undoSizeToSize s.undoSize)} := by
  simp only [undoRead,toNat_toUInt64_of_lt hs.pk,toNat_toUInt64_of_lt hs.payer,toNat_toUInt64_of_lt hs.code,
    toNat_toUInt64_of_lt hs.scope,toNat_toUInt64_of_lt hs.table,toNat_toUInt64_of_lt hs.undoPk,
    toNat_toUInt64_of_lt hs.undoPayer,Int64.toInt_ofInt_of_le hs.revision.1 hs.revision.2,
    Int64.toInt_ofInt_of_le hs.undoRevision.1 hs.undoRevision.2,undoRecordOfInt32_toInt32]

/-- An undo record comes back from its `_SERVICE_` sub-document on all
fourteen fields, its pre-image size as a 32-bit value. -/
theorem undo_service_round_trip (info : TableInfo) (state s : ServiceState) (hs : Persistable s) :
    buildServiceState info state (buildUndoDocument s)=
      .ok {s with undoSize := sizeToUndoSize (undoSizeToSize s.undoSize)} := by
  rw [buildServiceState_undo,undoRead_eq hs]

/-- A table scoped by account names in the scope 7, keyed by `id`. -/
def nameScopedTable : TableInfo := ⟨["id".toList],"uint64".toList,[],7⟩

/-- The undo record of a row whose old value was kept, in RAM, by revision 3. -/
def oldValueRow : ServiceState :=
  {pk := 5,payer := 3,code := 1,scope := 7,table := 2,revision := 4,undoPk := 9,undoRec := .oldValue,
    undoRevision := 3,undoPayer := 3,undoSize := 100,undoInRam := false}

theorem oldValueRow_persistable : Persistable oldValueRow := by
  constructor <;> decide

theorem old_value_row_round_trip :
    Persistable oldValueRow ∧ buildServiceState nameScopedTable {} (buildUndoDocument oldValueRow)=
      .ok {oldValueRow with undoSize := sizeToUndoSize (undoSizeToSize oldValueRow.undoSize)} :=
  ⟨oldValueRow_persistable,undo_service_round_trip nameScopedTable {} oldValueRow oldValueRow_persistable⟩

/-! ## Table rows read back -/

section ReadFields

variable {field : ServiceState → List Char → Element → Except DriverError (ServiceState × Bool)}
  {state st st' : ServiceState} {key : List Char} {itm : Element} {rest : Document} {n : ℕ}

/-- A counted field adds one to what the rest of the document counts. -/
theorem readFields_cons_counted (hf : field state key itm=.ok (st,true)) (hrest : readFields field st rest=.ok (st',n)) :
    readFields field state ((key,itm)::rest)=.ok (st',n+1) := by
  rw [readFields,hf]
  show readFields field st rest >>= _=_
  rw [hrest]; rfl

theorem readFields_cons_uncounted (hf : field state key itm=.ok (st,false)) (hrest : readFields field st rest=.ok (st',n)) :
    readFields field state ((key,itm)::rest)=.ok (st',n) := by
  rw [readFields,hf]
  show readFields field st rest >>= _=_
  rw [hrest]; rfl

end ReadFields

section ServiceFields

variable (info : TableInfo) (state : ServiceState)

theorem serviceField_scope {itm : Element} {t : TypedName} (h : getTypedValue (ScopeName.kindFromTable info) itm=some t) :
    serviceField info state scopeField itm=.ok ({state with scope := t.value.toNat},true) := by
  simp only [serviceField,scopeField,BEq.rfl,if_true,readOr,h]; rfl

theorem serviceField_revision (v : Int64) :
    serviceField info state revisionField (.int64 v)=.ok ({state with revision := v.toInt},true) := rfl

theorem serviceField_payer {n : ℕ} (h : n < 2^64) :
    serviceField info state payerField (.utf8 (nameToString n.toUInt64))=.ok ({state with payer := n},true) := by
  simp only [serviceField,payerField,validateFieldName,BEq.rfl,if_true,pure_bind,Element.getUtf8,readOr,
    nameSet_nameToString,toNat_toUInt64_of_lt h]
  rfl

theorem serviceField_size (v : Int32) :
    serviceField info state sizeField (.int32 v)=.ok ({state with size := v},true) := rfl

theorem serviceField_ram : serviceField info state ramField (.bool true)=.ok ({state with inRam := true},false) := rfl

/-- The fields `build_service_document` writes, read in the order written:
four counted, the RAM flag last and only when set. -/
theorem readFields_service {e : Element} {t : TypedName} (h : getTypedValue (ScopeName.kindFromTable info) e=some t)
    (revision : Int64) {payer : ℕ} (hpayer : payer < 2^64) (size : Int32) (inRam : Bool) :
    readFields (serviceField info) state ([(scopeField,e),(revisionField,.int64 revision),
        (payerField,.utf8 (nameToString payer.toUInt64)),(sizeField,.int32 size)]++appendRamField ramField inRam)=
      .ok ({state with
        scope := t.value.toNat
        revision := revision.toInt
        payer := payer
        size := size
        inRam := inRam || state.inRam},4) := by
  have hram : ∀ st : ServiceState,readFields (serviceField info) st (appendRamField ramField inRam)=
      .ok ({st with inRam := inRam || st.inRam},0) := by
    intro st
    cases inRam
    · rfl
    · exact readFields_cons_uncounted (serviceField_ram info st) rfl
  exact readFields_cons_counted (serviceField_scope info state h)
    (readFields_cons_counted (serviceField_revision info _ revision)
      (readFields_cons_counted (serviceField_payer info _ hpayer)
        (readFields_cons_counted (serviceField_size info _ size) (hram _))))

/-- A document whose first key is not an undo key is read as a table row's,
all four counted fields there. -/
theorem buildServiceState_table {key : List Char} {itm : Element} {rest : Document} {st : ServiceState}
    (hkey : key.head? ≠ some 'u')
    (h : readFields (serviceField info) {state with inRam := false,undoInRam := false} ((key,itm)::rest)=.ok (st,4)) :
    buildServiceState info state ((key,itm)::rest)=.ok st := by
  simp only [buildServiceState,List.head?_cons,Option.bind_some,if_neg hkey,h]
  rfl

end ServiceFields

/-- A table scoped by `symbol_code` in the scope `2 ^ 56`, keyed by `id`. -/
def codeScopedTable : TableInfo := ⟨["id".toList],"uint64".toList,"symbol_code".toList,2^56⟩

theorem service_scope_code_loses_top_byte :
    ∃ doc,buildServiceDocument codeScopedTable {scope := 2^56}=some doc ∧
      (buildServiceState codeScopedTable {} doc).map ServiceState.scope=.ok 0 := by
  have hft : ScopeName.fromTable codeScopedTable=some ⟨.symbolCode,2^56,isValid_code_top_byte⟩ := by
    rw [ScopeName.fromTable,show ScopeName.kindFromTable codeScopedTable=.symbolCode from rfl,
      show codeScopedTable.scope=2^56 from rfl,create,dif_pos isValid_code_top_byte]
  have hname : TypedName.toString ⟨.symbolCode,2^56,isValid_code_top_byte⟩=[] := by
    show symbolName ((2^56 : UInt64) <<< 8)=[]
    rw [show (2^56 : UInt64) <<< 8=0 by decide,symbolName,show (0 : UInt64) >>> 8=0 from rfl,symbolNameOf_zero]
  have hread : getTypedValue (ScopeName.kindFromTable codeScopedTable) (.utf8 [])=
      some ⟨.symbolCode,0,symbolValid_zero⟩ := by
    show (symbolOf 0 []).bind _=_
    rw [symbolOf_nil,Option.bind_some]
    exact create_self ⟨.symbolCode,0,symbolValid_zero⟩
  refine ⟨_,by rw [buildServiceDocument,hft]; rfl,?_⟩
  rw [show appendTypedValue scopeField ⟨.symbolCode,2^56,isValid_code_top_byte⟩=(scopeField,.utf8 []) by
    rw [← hname]; rfl]
  have hb := buildServiceState_table codeScopedTable {} (by decide)
    (readFields_service codeScopedTable _ hread (Int64.ofInt impossibleRevision) (show (0 : ℕ) < 2^64 by decide) 0 true)
  exact (congrArg (Except.map ServiceState.scope) hb).trans rfl

end Cyberway.MongoServiceDoc
