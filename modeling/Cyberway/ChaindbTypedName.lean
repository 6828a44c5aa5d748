import Cyberway.BigEndian

/-!
# Typed keys of the chain database

A primary key or a scope is a 64-bit payload with a kind: `int64`,
`uint64`, an account `name`, a `symbol` (a precision byte below up to seven
upper-case letters) or a `symbol_code` (the letters alone). `typed_name`
validates the payload for its kind, prints it (`to_string`), reads it back
(`from_string`), and puts it into an `fc::variant` (`to_variant`), from which
`primary_key::from_variant` reads it under the primary key's field path.

Strings are lists of characters. `fc` is not part of this tree; its numeric
parsers are modelled on the decimal numerals they read, and a reflected struct
becomes a variant object with one entry per reflected field.

Every kind but two reads back what it prints. A `symbol_code` is validated as
`symbol(value << 8)`, so its top byte is never looked at: a payload with a
non-zero top byte passes and prints without it. A `symbol` becomes the object
of its reflected `symbol_info`, which `from_variant` refuses.
-/

namespace Cyberway.ChaindbTypedName

open BigEndian

/-- `typed_name::value_kind`. -/
inductive ValueKind where
  | unknown
  | int64
  | uint64
  | name
  | symbol
  | symbolCode
  deriving DecidableEq, Repr

/-- The character that ends a C string. -/
def nulChar : Char := Char.ofNat 0

/-! ## Decimal numerals -/

/-- `std::to_string` of an integer: a minus sign before the decimal digits of
a negative one. -/
def decimalString (i : ℤ) : List Char :=
  if i < 0 then '-' :: Nat.toDigits 10 i.natAbs else Nat.toDigits 10 i.natAbs

namespace Fc

/-- A nonempty run of decimal digits and the number it denotes. -/
def parseDigits (s : List Char) : Option ℕ :=
  if s≠[] ∧ s.all Char.isDigit then some (Nat.ofDigitChars 10 s 0) else none

/-- `fc::to_uint64`: a decimal numeral below `2 ^ 64`. -/
def toUint64 (s : List Char) : Option UInt64 :=
  (parseDigits s).bind fun n => if n < 2^64 then some n.toUInt64 else none

/-- `fc::to_int64`: a decimal numeral, negative after a minus sign, within
the range of `int64_t`. -/
def toInt64 (s : List Char) : Option Int64 :=
  if s.head?=some '-' then (parseDigits s.tail).bind fun n => if n ≤ 2^63 then some (Int64.ofInt (-n)) else none
  else (parseDigits s).bind fun n => if n < 2^63 then some (Int64.ofInt n) else none

end Fc

/-! ## Account names -/

/-- The thirty-two characters of a name, by their five-bit symbol. -/
def charmap : List Char := ".12345abcdefghijklmnopqrstuvwxyz".toList

/-- `charmap[x]`; the index is always a masked symbol below 32. -/
def charmapAt (x : UInt64) : Char := charmap.getD x.toNat '.'

/-- `char_to_symbol`: `a`-`z` are 6 to 31, `1`-`5` are 1 to 5, anything
else 0. -/
def charToSymbol (c : Char) : UInt64 :=
  if 'a' ≤ c ∧ c ≤ 'z' then (c.toNat - 'a'.toNat+6).toUInt64
  else if '1' ≤ c ∧ c ≤ '5' then (c.toNat - '1'.toNat+1).toUInt64
  else 0

/-- The loop of `name::operator string` over `str[11]` down to `str[0]`: the
last of `i` characters is `charmap[tmp & 0x1f]`, the others come from
`tmp >> 5`. -/
def nameChars : ℕ → UInt64 → List Char
  | 0,_ => []
  | i+1,tmp => nameChars i (tmp >>> 5)++[charmapAt (tmp &&& 0x1f)]

/-- `name::operator string`: the thirteenth character from the low four
bits, the twelve before it from the rest, trailing dots trimmed. -/
def nameToString (value : UInt64) : List Char :=
  (nameChars 12 (value >>> 4)++[charmapAt (value &&& 0x0f)]).rdropWhile (· == '.')

/-- The first loop of `string_to_name`, from `str[i]` on: while `str[i]` is
not the end of the string and `i < 12`, the symbol of `str[i]` goes into the
five bits below the first `5 * i`. Returns the bits and the final `i`. -/
def stringToNameLoop : List Char → ℕ → UInt64 → UInt64 × ℕ
  | [],i,name => (name,i)
  | c :: cs,i,name =>
    if c=nulChar ∨ 12 ≤ i then (name,i)
    else stringToNameLoop cs (i+1) (name ||| ((charToSymbol c &&& 0x1f) <<< (64-5*(i+1)).toUInt64))

/-- `string_to_name`: after twelve characters, a thirteenth fills the low
four bits. -/
def stringToName (str : List Char) : UInt64 :=
  let (name,i) := stringToNameLoop str 0 0
  if i=12 then name ||| (charToSymbol (str.getD 12 nulChar) &&& 0x0F) else name

/-- `name::set`: the C string has at most 13 characters and is the normal
form that `to_string` prints for its value. -/
def nameSet (str : List Char) : Option UInt64 :=
  let s := str.takeWhile (· ≠ nulChar)
  if s.length ≤ 13 then
    let value := stringToName s
    if nameToString value=s then some value else none
  else none

/-! ## Symbols -/

/-- `symbol::max_precision`. -/
def maxPrecision : ℕ := 18

/-- The loop of `symbol::name`: the bytes of `v`, lowest first, while any
are left. -/
def symbolNameOf (v : UInt64) : List Char :=
  if v=0 then [] else Char.ofNat (v &&& 0xFF).toNat :: symbolNameOf (v >>> 8)
termination_by v.toNat
decreasing_by
  rw [UInt64.toNat_shiftRight]
  have hv : v.toNat≠0 := fun h0 => ‹¬v=0› (UInt64.toNat_inj.mp (by simpa using h0))
  simp only [Nat.shiftRight_eq_div_pow]
  exact Nat.div_lt_self (Nat.pos_of_ne_zero hv) (by decide)

/-- `symbol::name`: the letters above the precision byte. -/
def symbolName (value : UInt64) : List Char := symbolNameOf (value >>> 8)

/-- `symbol::valid_name`: upper-case letters only. -/
def validName (name : List Char) : Bool := name.all fun c => 'A' ≤ c ∧ c ≤ 'Z'

/-- `symbol::decimals`: the low byte. -/
def decimals (value : UInt64) : ℕ := (value &&& 0xFF).toNat

/-- `symbol::valid`. -/
def symbolValid (value : UInt64) : Bool := decimals value ≤ maxPrecision && validName (symbolName value)

/-- `symbol(uint64_t)`: the constructor asserts `valid()`. -/
def symbolOfValue (value : UInt64) : Option UInt64 := if symbolValid value then some value else none

/-- The loop of `string_to_symbol`: every character must be an upper-case
letter, and `str[i]` is or-ed in at `8 * (i + 1)`. -/
def stringToSymbolLoop : List Char → ℕ → UInt64 → Option UInt64
  | [],_,result => some result
  | c :: cs,i,result =>
    if 'A' ≤ c ∧ c ≤ 'Z' then stringToSymbolLoop cs (i+1) (result ||| (c.toNat.toUInt64 <<< (8*(i+1)).toUInt64))
    else none

/-- `string_to_symbol` over the C string, the precision in the low byte. -/
def stringToSymbol (precision : UInt8) (str : List Char) : Option UInt64 :=
  (stringToSymbolLoop (str.takeWhile (· ≠ nulChar)) 0 0).map (· ||| precision.toUInt64)

/-- `symbol(uint8_t, const char*)`. -/
def symbolOf (precision : UInt8) (str : List Char) : Option UInt64 :=
  (stringToSymbol precision str).bind symbolOfValue

/-- `symbol::operator string`: the precision, a comma and the letters. -/
def symbolToString (value : UInt64) : List Char := decimalString (decimals value)++ ',' :: symbolName value

/-- The white space that `fc::trim` removes: blanks and `\t` to `\r`. -/
def isSpace (c : Char) : Bool := c.toNat=32 || (9 ≤ c.toNat && c.toNat ≤ 13)

/-- `fc::trim`. -/
def trim (s : List Char) : List Char := (s.dropWhile isSpace).rdropWhile isSpace

/-- `symbol::from_string`: `"<precision>,<letters>"`, the precision at most 18. -/
def symbolFromString (str : List Char) : Option UInt64 := do
  let s := trim str
  guard (s≠[])
  let rest := s.dropWhile (· ≠ ',')
  guard (rest≠[])
  let p : UInt8 := (← Fc.toUint64 (s.takeWhile (· ≠ ','))).toUInt8
  guard (p.toNat ≤ maxPrecision)
  symbolOfValue (← stringToSymbol p rest.tail)

/-! ## Typed names -/

/-- `typed_name::is_valid`. -/
def isValid : ValueKind → UInt64 → Bool
  | .int64,_ | .uint64,_ | .name,_ => true
  | .symbol,value => symbolValid value
  | .symbolCode,value => symbolValid (value <<< 8)
  | .unknown,_ => false

/-- A `typed_name`. It is only made by `create`, which asserts `is_valid`, so
the check is part of the value. -/
structure TypedName where
  /-- `kind_`. -/
  kind : ValueKind
  /-- `value_`. -/
  value : UInt64
  /-- `create` checked the payload. -/
  valid : isValid kind value=true

/-- `typed_name::create`. -/
def create (kind : ValueKind) (value : UInt64) : Option TypedName :=
  if h : isValid kind value=true then some ⟨kind,value,h⟩ else none

/-- `typed_name::from_value(kind, int64_t)`. -/
def fromValueInt64 (kind : ValueKind) (value : Int64) : Option TypedName :=
  match kind with
  | .int64 => create kind value.toUInt64
  | _ => none

/-- `typed_name::from_value(kind, uint64_t)`. -/
def fromValueUint64 (kind : ValueKind) (value : UInt64) : Option TypedName :=
  match kind with
  | .uint64 => create kind value
  | _ => none

/-- `typed_name::from_value(kind, const string&)`. -/
def fromValueString (kind : ValueKind) (value : List Char) : Option TypedName :=
  match kind with
  | .name => (nameSet value).bind (create kind)
  | .symbolCode => (symbolOf 0 value).bind fun s => create kind (s >>> 8)
  | .symbol => (symbolFromString value).bind (create kind)
  | _ => none

/-- `typed_name::from_string`. -/
def fromString (kind : ValueKind) (value : List Char) : Option TypedName :=
  match kind with
  | .int64 => (Fc.toInt64 value).bind (fromValueInt64 kind)
  | .uint64 => (Fc.toUint64 value).bind (fromValueUint64 kind)
  | _ => fromValueString kind value

/-- `typed_name::to_string`. Its throw for `Unknown` is out of reach: no
valid name has that kind. -/
def TypedName.toString : TypedName → List Char
  | ⟨.int64,v,_⟩ => decimalString v.toInt64.toInt
  | ⟨.uint64,v,_⟩ => decimalString v.toNat
  | ⟨.name,v,_⟩ => nameToString v
  | ⟨.symbol,v,_⟩ => symbolToString v
  | ⟨.symbolCode,v,_⟩ => symbolName (v <<< 8)
  | ⟨.unknown,_,h⟩ => (Bool.false_ne_true h).elim

/-! ## Variants and tables -/

/-- The `fc::variant` values a key travels in. -/
inductive Variant where
  | int64 (val : Int64)
  | uint64 (val : UInt64)
  | string (val : List Char)
  | object (fields : List (List Char × Variant))

/-- `variant(symbol_info(value))`: `FC_REFLECT(symbol_info, (_decs)(_sym))`
makes an object of the two fields, the code printed by the `symbol_code`
converter. -/
def symbolInfoVariant (value : UInt64) : Variant :=
  .object [("_decs".toList,.uint64 (value &&& 0xFF)),("_sym".toList,.string (symbolName ((value >>> 8) <<< 8)))]

/-- `typed_name::to_variant`. -/
def TypedName.toVariant : TypedName → Variant
  | ⟨.int64,v,_⟩ => .int64 v.toInt64
  | ⟨.uint64,v,_⟩ => .uint64 v
  | ⟨.name,v,_⟩ => .string (nameToString v)
  | ⟨.symbol,v,_⟩ => symbolInfoVariant v
  | ⟨.symbolCode,v,_⟩ => .string (symbolName (v <<< 8))
  | ⟨.unknown,_,h⟩ => (Bool.false_ne_true h).elim

/-- `typed_name::kind_from_string` on a kind that passed the ABI check: the
first letter decides, and `symbol` is told from `symbol_code` by its length. -/
def kindFromString (kind : List Char) : ValueKind :=
  match kind with
  | 'i' :: _ => .int64
  | 'u' :: _ => .uint64
  | 'n' :: _ => .name
  | 's' :: _ => if kind.length=6 then .symbol else .symbolCode
  | _ => .unknown

/-- The part of `table_info` the keys read: the path and the type of the
primary key's order, the table's scope type, and the scope. -/
structure TableInfo where
  /-- `pk_order->path`. -/
  pkPath : List (List Char)
  /-- `pk_order->type`. -/
  pkType : List Char
  /-- `table->scope_type`. -/
  scopeType : List Char
  /-- `scope`. -/
  scope : UInt64

namespace PrimaryKey

/-- `primary_key::kind_from_table`. -/
def kindFromTable (info : TableInfo) : ValueKind := kindFromString info.pkType

/-- `primary_key::from_table`. -/
def fromTable (info : TableInfo) (value : UInt64) : Option TypedName := create (kindFromTable info) value

/-- `primary_key::to_variant(info)`: the key's variant nested under its path,
one single-field object per part. -/
def toVariant (info : TableInfo) (key : TypedName) : Variant :=
  info.pkPath.foldr (fun part value => .object [(part,value)]) key.toVariant

/-- `primary_key::to_variant(info, value)`. -/
def toVariantOf (info : TableInfo) (value : UInt64) : Option Variant := (fromTable info value).map (toVariant info)

/-- The walk of `from_variant` down the path: each part must be an object
holding the next key. -/
def walkPath : List (List Char) → Variant → Option Variant
  | [],value => some value
  | part :: path,.object fields => (fields.lookup part).bind (walkPath path)
  | _ :: _,_ => none

/-- `primary_key::from_variant`: the value at the end of the path must be an
`int64`, a `uint64` or a string. -/
def fromVariant (info : TableInfo) (row : Variant) : Option TypedName :=
  (walkPath info.pkPath row).bind fun
    | .int64 i => fromValueInt64 (kindFromTable info) i
    | .uint64 n => fromValueUint64 (kindFromTable info) n
    | .string s => fromValueString (kindFromTable info) s
    | .object _ => none

end PrimaryKey

namespace ScopeName

/-- `scope_name::kind_from_table`: a table without a scope type is scoped by
account names. -/
def kindFromTable (info : TableInfo) : ValueKind :=
  if info.scopeType=[] then .name else kindFromString info.scopeType

/-- `scope_name::from_table`. -/
def fromTable (info : TableInfo) : Option TypedName := create (kindFromTable info) info.scope

end ScopeName

/-! ## Decimal numerals read back -/

/-- The five bits `string_to_name` keeps of a character's symbol. -/
def nameSymbol (c : Char) : ℕ := (charToSymbol c &&& 0x1f).toNat

/-- The four bits it keeps of the thirteenth character. -/
def lastSymbol (c : Char) : ℕ := (charToSymbol c &&& 0x0F).toNat

theorem nameSymbol_lt (c : Char) : nameSymbol c < 32 := by
  rw [nameSymbol,UInt64.toNat_and]
  exact lt_of_le_of_lt Nat.and_le_right (by decide)

theorem charToSymbol_charmap : ∀ g : Fin 32, charToSymbol (charmap.getD g '.')=(g : ℕ).toUInt64 := by
  decide

theorem charmap_ne_nul : ∀ g : Fin 32, charmap.getD g '.'≠nulChar := by
  decide

/-- A dot, and the end of the string, stand for symbol 0. -/
theorem symbols_dot_nul : nameSymbol '.'=0 ∧ lastSymbol '.'=0 ∧ lastSymbol nulChar=0 := by
  decide

theorem nameSymbol_charmap {g : ℕ} (hg : g < 32) : nameSymbol (charmap.getD g '.')=g := by
  rw [nameSymbol,charToSymbol_charmap ⟨g,hg⟩,UInt64.toNat_and,Nat.toUInt64_eq,UInt64.toNat_ofNat_of_lt' (by
    simp only [UInt64.size]; omega),show (0x1f : UInt64).toNat=2^5-1 from rfl,Nat.and_two_pow_sub_one_eq_mod]
  exact Nat.mod_eq_of_lt hg

theorem lastSymbol_charmap {g : ℕ} (hg : g < 16) : lastSymbol (charmap.getD g '.')=g := by
  rw [lastSymbol,charToSymbol_charmap ⟨g,by omega⟩,UInt64.toNat_and,Nat.toUInt64_eq,UInt64.toNat_ofNat_of_lt' (by
    simp only [UInt64.size]; omega),show (0x0F : UInt64).toNat=2^4-1 from rfl,Nat.and_two_pow_sub_one_eq_mod]
  exact Nat.mod_eq_of_lt hg

/-- The characters `to_string` writes are the base-32 digits of the value,
spelled by the charmap. -/
theorem nameChars_eq (k : ℕ) : ∀ tmp : UInt64, nameChars k tmp=(digits 32 k tmp.toNat).map (charmap.getD · '.') := by
  induction k with
  | zero => intro tmp; rfl
  | succ k ih =>
    intro tmp
    have hshift : (tmp >>> 5).toNat=tmp.toNat/32 := by
      rw [UInt64.toNat_shiftRight,Nat.shiftRight_eq_div_pow]
      rfl
    have hmask : (tmp &&& 0x1f).toNat=tmp.toNat%32 := by
      rw [UInt64.toNat_and,show (0x1f : UInt64).toNat=2^5-1 from rfl,Nat.and_two_pow_sub_one_eq_mod]
    rw [nameChars,ih,hshift,digits_succ_eq_append,List.map_append,List.map_singleton,charmapAt,hmask]

/-- One step of the loop of `string_to_name`: or-ing a symbol into the five
bits below the first `5 * i` appends a base-32 digit to the packed prefix. -/
theorem packName_step {i A : ℕ} (hi : i < 12) (hA : A < 32^i) (c : Char) :
    (A*2^(64-5*i)).toUInt64 ||| ((charToSymbol c &&& 0x1f) <<< (64-5*(i+1)).toUInt64)=
      ((A*32+nameSymbol c)*2^(64-5*(i+1))).toUInt64 := by
  have hg := nameSymbol_lt c
  have hpow : ∀ j ≤ 12, 32^j*2^(64-5*j)=2^64 := fun j hj => by
    rw [show (32:ℕ)=2^5 by norm_num,← pow_mul,← pow_add]
    congr 1
    omega
  have hlt : (A*32+nameSymbol c)*2^(64-5*(i+1)) < 2^64 := by
    calc (A*32+nameSymbol c)*2^(64-5*(i+1)) < 32^(i+1)*2^(64-5*(i+1)) :=
          Nat.mul_lt_mul_of_pos_right (by rw [pow_succ]; omega) (by positivity)
      _ = 2^64 := hpow (i+1) (by omega)
  have hA' : A*2^(64-5*i) < 2^64 := by
    calc A*2^(64-5*i) < 32^i*2^(64-5*i) := Nat.mul_lt_mul_of_pos_right hA (by positivity)
      _ = 2^64 := hpow i (by omega)
  have hshift : (64-5*(i+1)).toUInt64.toNat%64=64-5*(i+1) := by
    rw [Nat.toUInt64_eq,UInt64.toNat_ofNat_of_lt' (by simp only [UInt64.size]; omega)]
    omega
  have hsym : nameSymbol c <<< (64-5*(i+1)) < 2^64 := by
    rw [Nat.shiftLeft_eq]
    exact lt_of_le_of_lt (Nat.mul_le_mul_right _ (by omega)) hlt
  apply UInt64.toNat_inj.mp
  rw [UInt64.toNat_or,UInt64.toNat_shiftLeft,hshift,Nat.toUInt64_eq,Nat.toUInt64_eq,
    UInt64.toNat_ofNat_of_lt' hA',UInt64.toNat_ofNat_of_lt' hlt,← nameSymbol,
    show 64-5*i=(64-5*(i+1))+5 by omega,← Nat.shiftLeft_eq,Nat.mod_eq_of_lt hsym,shiftLeft_or_shiftLeft hg,
    Nat.shiftLeft_eq]
  norm_num

/-- The loop of `string_to_name` over a string without NUL: entered at
`str[i]` with `A` packed in the top `5 * i` bits, it packs the next
`min (length) (12 - i)` symbols as base-32 digits after `A`. -/
theorem stringToNameLoop_eq (cs : List Char) (hcs : nulChar ∉ cs) :
    ∀ i A, i ≤ 12 → A < 32^i →
      stringToNameLoop cs i (A*2^(64-5*i)).toUInt64=
        ((((cs.take (12-i)).map nameSymbol).foldl (fun acc d => acc*32+d) A*
          2^(64-5*(i+min cs.length (12-i)))).toUInt64,i+min cs.length (12-i)) := by
  induction cs with
  | nil => intro i A _ _; simp [stringToNameLoop]
  | cons c cs ih =>
    intro i A hi hA
    have hcs' : nulChar ∉ cs := fun h => hcs (List.mem_cons_of_mem c h)
    by_cases h12 : 12 ≤ i
    · -- twelve symbols are in: the loop stops before `c`
      have h0 : 12-i=0 := by omega
      rw [stringToNameLoop,if_pos (Or.inr h12),h0]
      simp
    · have hc : c≠nulChar := fun h => hcs (h ▸ List.mem_cons_self)
      have hA' : A*32+nameSymbol c < 32^(i+1) := by
        have := nameSymbol_lt c
        rw [pow_succ]
        omega
      have hk : 12-i=(12-(i+1))+1 := by omega
      have hmin : min (cs.length+1) (12-(i+1)+1)=min cs.length (12-(i+1))+1 := Nat.succ_min_succ _ _
      rw [stringToNameLoop,if_neg (by tauto),packName_step (by omega) hA c,ih hcs' (i+1) _ (by omega) hA',hk,
        List.take_succ_cons,List.map_cons,List.foldl_cons,List.length_cons,hmin,← Nat.add_assoc,Nat.add_right_comm i 1]

/-- `string_to_name` of a string without NUL: the first twelve symbols as
base-32 digits from the top, then the thirteenth in the low four bits. -/
theorem stringToName_toNat (s : List Char) (hs : nulChar ∉ s) :
    (stringToName s).toNat=value 32 ((s.take 12).map nameSymbol)*2^(64-5*min s.length 12)+
      if 12 ≤ s.length then lastSymbol (s.getD 12 nulChar) else 0 := by
  have hloop := stringToNameLoop_eq s hs 0 0 (Nat.zero_le 12) (by norm_num)
  have hV := value_lt (b := 32) ((s.take 12).map nameSymbol) fun d hd => by
    obtain ⟨c,-,rfl⟩ := List.mem_map.mp hd
    exact nameSymbol_lt c
  have hlen : ((s.take 12).map nameSymbol).length=min s.length 12 := by simp [Nat.min_comm]
  have hpow : 32^min s.length 12*2^(64-5*min s.length 12)=2^64 := by
    rw [show (32:ℕ)=2^5 by norm_num,← pow_mul,← pow_add]
    congr 1
    omega
  have hfit : value 32 ((s.take 12).map nameSymbol)*2^(64-5*min s.length 12) < 2^64 := by
    rw [← hpow]
    exact Nat.mul_lt_mul_of_pos_right (hlen ▸ hV) (by positivity)
  rw [stringToName,show (0 : UInt64)=(0*2^(64-5*0)).toUInt64 from rfl,hloop]
  simp only [Nat.zero_add,Nat.sub_zero]
  rw [show ((s.take 12).map nameSymbol).foldl (fun acc d => acc*32+d) 0=value 32 ((s.take 12).map nameSymbol)
    from rfl]
  by_cases h12 : 12 ≤ s.length
  · -- twelve symbols: the thirteenth is or-ed into the four low bits left free
    have hm : min s.length 12=12 := by omega
    have hlast : lastSymbol (s.getD 12 nulChar) < 2^4 := by
      rw [lastSymbol,UInt64.toNat_and]
      exact lt_of_le_of_lt Nat.and_le_right (by decide)
    rw [hm] at hfit ⊢
    rw [if_pos rfl,if_pos h12,UInt64.toNat_or,Nat.toUInt64_eq,UInt64.toNat_ofNat_of_lt' hfit,← lastSymbol,
      show 64-5*12=4 from rfl,← Nat.shiftLeft_eq,← Nat.shiftLeft_add_eq_or_of_lt hlast]
  · have hm : min s.length 12≠12 := by omega
    rw [if_neg hm,if_neg h12,Nat.toUInt64_eq,UInt64.toNat_ofNat_of_lt' hfit,Nat.add_zero]

theorem dot_ne_nul : '.'≠nulChar := by decide

/-- A trailing dot adds nothing to a name: it is symbol 0, as is the end of
the string that stands in its place. -/
theorem stringToName_append_dot (s : List Char) (hs : nulChar ∉ s) (hlen : s.length < 13) :
    stringToName (s++['.'])=stringToName s := by
  have hs' : nulChar ∉ s++['.'] := by simpa using ⟨hs,dot_ne_nul.symm⟩
  obtain ⟨hdot,hlast,hnul⟩ := symbols_dot_nul
  apply UInt64.toNat_inj.mp
  rw [stringToName_toNat _ hs',stringToName_toNat _ hs,List.length_append,List.length_singleton]
  by_cases h12 : s.length < 12
  · rw [List.take_of_length_le (by simp; omega),List.take_of_length_le (by omega),List.map_append,
      List.map_singleton,hdot,value_concat,Nat.add_zero,Nat.min_eq_left (by omega : s.length+1 ≤ 12),
      Nat.min_eq_left (by omega : s.length ≤ 12),if_neg (by omega : ¬12 ≤ s.length)]
    have hpow : 2^(64-5*s.length)=2^(64-5*(s.length+1))*32 := by
      rw [show 64-5*s.length=(64-5*(s.length+1))+5 by omega,pow_add]
      rfl
    by_cases h11 : s.length=11
    · have hget : (s++['.']).getD 12 nulChar=nulChar :=
        List.getD_eq_default _ _ (by simp; omega)
      rw [if_pos (by omega),hget,hnul,hpow]
      ring
    · rw [if_neg (by omega),hpow]
      ring
  · have hget : (s++['.']).getD 12 nulChar = '.' := by
      rw [List.getD_append_right _ _ _ _ (by omega),show 12-s.length=0 by omega]
      rfl
    have hget' : s.getD 12 nulChar=nulChar := List.getD_eq_default _ _ (by omega)
    rw [List.take_append_of_le_length (by omega),Nat.min_eq_right (by omega : 12 ≤ s.length+1),
      Nat.min_eq_right (by omega : 12 ≤ s.length),if_pos (by omega),if_pos (by omega),hget,hget',hlast,hnul]

theorem stringToName_append_dots (s : List Char) (hs : nulChar ∉ s) :
    ∀ d, s.length+d ≤ 13 → stringToName (s++List.replicate d '.')=stringToName s
  | 0,_ => by rw [List.replicate_zero,List.append_nil]
  | d+1,hd => by
    have hs' : nulChar ∉ s++List.replicate d '.' := by
      simp only [List.mem_append,List.mem_replicate,not_or]
      exact ⟨hs,fun h => dot_ne_nul h.2.symm⟩
    rw [List.replicate_succ',← List.append_assoc,stringToName_append_dot _ hs' (by simp; omega),
      stringToName_append_dots s hs d (by omega)]

/-- The thirteen characters `to_string` writes before trimming. -/
theorem nameToString_eq (v : UInt64) :
    nameToString v=((digits 32 12 (v.toNat/16)).map (charmap.getD · '.')++
      [charmap.getD (v.toNat%16) '.']).rdropWhile (· == '.') := by
  have hshift : (v >>> 4).toNat=v.toNat/16 := by
    rw [UInt64.toNat_shiftRight,Nat.shiftRight_eq_div_pow]
    rfl
  have hmask : (v &&& 0x0f).toNat=v.toNat%16 := by
    rw [UInt64.toNat_and,show (0x0f : UInt64).toNat=2^4-1 from rfl,Nat.and_two_pow_sub_one_eq_mod]
  rw [nameToString,nameChars_eq,hshift,charmapAt,hmask]

/-- The untrimmed characters are charmap characters, none of them NUL. -/
theorem nul_not_mem_untrimmed (v : UInt64) :
    nulChar ∉ (digits 32 12 (v.toNat/16)).map (charmap.getD · '.')++[charmap.getD (v.toNat%16) '.'] := by
  simp only [List.mem_append,List.mem_map,List.mem_singleton,not_or]
  refine ⟨?_,fun h => charmap_ne_nul ⟨v.toNat%16,by omega⟩ h.symm⟩
  rintro ⟨g,hg,h⟩
  exact charmap_ne_nul ⟨g,lt_of_mem_digits (by norm_num) hg⟩ h

/-- `string_to_name` reads back the value of the thirteen untrimmed
characters. -/
theorem stringToName_untrimmed (v : UInt64) :
    stringToName ((digits 32 12 (v.toNat/16)).map (charmap.getD · '.')++[charmap.getD (v.toNat%16) '.'])=v := by
  set full := (digits 32 12 (v.toNat/16)).map (charmap.getD · '.')++[charmap.getD (v.toNat%16) '.'] with hfull
  have hlow : v.toNat%16 < 16 := Nat.mod_lt _ (by norm_num)
  have hnul : nulChar ∉ full := nul_not_mem_untrimmed v
  have hlen : full.length=13 := by simp [hfull]
  have hsyms : (full.take 12).map nameSymbol=digits 32 12 (v.toNat/16) := by
    rw [hfull,List.take_left' (by simp),List.map_map]
    conv_rhs => rw [← List.map_id (digits 32 12 (v.toNat/16))]
    exact List.map_congr_left fun g hg => nameSymbol_charmap (lt_of_mem_digits (by norm_num) hg)
  have hget : full.getD 12 nulChar=charmap.getD (v.toNat%16) '.' := by
    rw [hfull,List.getD_append_right _ _ _ _ (by simp)]
    simp
  have hquot : v.toNat/16 < 32^12 := by
    have := v.toNat_lt
    norm_num at this ⊢
    omega
  apply UInt64.toNat_inj.mp
  rw [stringToName_toNat full hnul,hsyms,value_digits,Nat.mod_eq_of_lt hquot,hlen,if_pos (by norm_num),hget,
    lastSymbol_charmap hlow]
  norm_num
  omega

theorem nul_not_mem_nameToString (v : UInt64) : nulChar ∉ nameToString v := fun h =>
  nul_not_mem_untrimmed v ((List.rdropWhile_prefix _ _).subset (nameToString_eq v ▸ h))

theorem length_nameToString_le (v : UInt64) : (nameToString v).length ≤ 13 := by
  rw [nameToString_eq]
  exact ((List.rdropWhile_prefix _ _).length_le).trans (by simp)

/-- `name::to_string` is read back by `string_to_name`: trimming the
trailing dots loses nothing. -/
theorem stringToName_nameToString (v : UInt64) : stringToName (nameToString v)=v := by
  set full := (digits 32 12 (v.toNat/16)).map (charmap.getD · '.')++[charmap.getD (v.toNat%16) '.'] with hfull
  have hsplit := List.rdropWhile_append_rtakeWhile (p := (· == '.')) (l := full)
  have hdots : full.rtakeWhile (· == '.')=List.replicate (full.rtakeWhile (· == '.')).length '.' :=
    List.eq_replicate_iff.mpr ⟨rfl,fun c hc => by simpa using List.mem_rtakeWhile_imp hc⟩
  have hlen : (full.rdropWhile (· == '.')).length+(full.rtakeWhile (· == '.')).length=13 := by
    rw [← List.length_append,hsplit]
    simp [hfull]
  have hnul := nul_not_mem_nameToString v
  rw [nameToString_eq] at hnul ⊢
  rw [← stringToName_append_dots _ hnul _ hlen.le,← hdots,hsplit,stringToName_untrimmed]

/-- `name(string)` takes the printed name back to its value. -/
theorem nameSet_nameToString (v : UInt64) : nameSet (nameToString v)=some v := by
  have htake : (nameToString v).takeWhile (· ≠ nulChar)=nameToString v :=
    List.takeWhile_eq_self_iff.mpr fun c hc => decide_eq_true fun h => nul_not_mem_nameToString v (h ▸ hc)
  simp only [nameSet,htake,if_pos (length_nameToString_le v),stringToName_nameToString,if_true]

theorem length_charmap : charmap.length=32 := rfl

/-- A charmap character is spelled back from its five-bit symbol. -/
theorem charmap_nameSymbol {c : Char} (hc : c ∈ charmap) : charmap.getD (nameSymbol c) '.'=c := by
  obtain ⟨g,hg,rfl⟩ := List.mem_iff_getElem.mp hc
  rw [← List.getD_eq_getElem _ '.' hg,nameSymbol_charmap (length_charmap ▸ hg)]

/-- One of the first sixteen charmap characters is spelled back from its
four-bit symbol. -/
theorem charmap_lastSymbol {c : Char} (hc : c ∈ charmap.take 16) : charmap.getD (lastSymbol c) '.'=c := by
  obtain ⟨g,hg,rfl⟩ := List.mem_iff_getElem.mp hc
  have hg' : g < 16 := by
    rw [List.length_take,length_charmap] at hg
    omega
  rw [List.getElem_take,← List.getD_eq_getElem _ '.',lastSymbol_charmap hg']

theorem nul_not_mem_charmap : nulChar ∉ charmap := by
  decide

/-- Trimming what satisfies `p` looks through a padding that satisfies it. -/
theorem rdropWhile_append_replicate {α : Type} (p : α → Bool) (l : List α) {a : α} (ha : p a=true) :
    ∀ k,(l++List.replicate k a).rdropWhile p=l.rdropWhile p
  | 0 => by rw [List.replicate_zero,List.append_nil]
  | k+1 => by
    rw [List.replicate_succ',← List.append_assoc,List.rdropWhile_concat_pos _ _ _ ha,
      rdropWhile_append_replicate p l ha k]

/-- A name in normal form prints back as itself: up to thirteen charmap
characters, the thirteenth among the first sixteen, and no trailing dot. The
string is padded with dots to thirteen characters, which `string_to_name`
does not see; its symbols are the digits `to_string` spells, and the
padding is what it trims. -/
theorem nameToString_stringToName {s : List Char} (hs : ∀ c ∈ s,c ∈ charmap) (hlen : s.length ≤ 13)
    (hlast : s.getLast?≠some '.') (h13 : ∀ c,s[12]?=some c → c ∈ charmap.take 16) :
    nameToString (stringToName s)=s := by
  set full := s++List.replicate (13-s.length) '.' with hfull
  have hnul : nulChar ∉ s := fun h => nul_not_mem_charmap (hs _ h)
  have hfull_len : full.length=13 := by simp [hfull]; omega
  have hfull_mem : ∀ c ∈ full,c ∈ charmap := by
    intro c hc
    rcases List.mem_append.mp hc with hc | hc
    · exact hs c hc
    · rw [List.eq_of_mem_replicate hc]
      decide
  have hget : full.getD 12 nulChar ∈ charmap.take 16 := by
    by_cases h13' : s.length=13
    · have hs12 : s[12]?=some (full.getD 12 nulChar) := by
        rw [hfull,h13',Nat.sub_self,List.replicate_zero,List.append_nil,List.getD_eq_getElem?_getD,
          List.getElem?_eq_getElem (by omega),Option.getD_some]
      exact h13 _ hs12
    · rw [hfull,List.getD_append_right _ _ _ _ (by omega),List.getD_eq_getElem _ _ (by simp; omega),
        List.getElem_replicate]
      decide
  set syms := (full.take 12).map nameSymbol with hsyms
  have hsyms_lt : ∀ d ∈ syms,d < 32 := by
    intro d hd
    obtain ⟨c,-,rfl⟩ := List.mem_map.mp hd
    exact nameSymbol_lt c
  have hsyms_len : syms.length=12 := by simp [hsyms,hfull_len]
  have hlast_lt : lastSymbol (full.getD 12 nulChar) < 16 := by
    rw [lastSymbol,UInt64.toNat_and]
    exact lt_of_le_of_lt Nat.and_le_right (by decide)
  have hval : (stringToName full).toNat=value 32 syms*16+lastSymbol (full.getD 12 nulChar) := by
    rw [stringToName_toNat full (fun h => nul_not_mem_charmap (hfull_mem _ h)),hfull_len,if_pos (by norm_num)]
    rfl
  have hquot : (stringToName full).toNat/16=value 32 syms := by omega
  have hrem : (stringToName full).toNat%16=lastSymbol (full.getD 12 nulChar) := by omega
  have hspell : (digits 32 12 (value 32 syms)).map (charmap.getD · '.')=full.take 12 := by
    have hdigits : digits 32 12 (value 32 syms)=syms := hsyms_len ▸ digits_value syms hsyms_lt
    rw [hdigits,hsyms,List.map_map]
    refine (List.map_congr_left fun c hc => ?_).trans (List.map_id _)
    exact charmap_nameSymbol (hfull_mem c (List.mem_of_mem_take hc))
  have huntrimmed : full.take 12++[charmap.getD (lastSymbol (full.getD 12 nulChar)) '.']=full := by
    rw [charmap_lastSymbol hget,List.getD_eq_getElem _ _ (by omega),List.take_append_getElem (by omega),
      List.take_of_length_le (by omega)]
  rw [← stringToName_append_dots s hnul (13-s.length) (by omega),← hfull,nameToString_eq,hquot,hrem,hspell,
    huntrimmed,hfull,rdropWhile_append_replicate _ _ (by rfl),List.rdropWhile_eq_self_iff]
  intro hne hdot
  exact hlast (by rw [List.getLast?_eq_some_getLast hne,beq_iff_eq.mp hdot])

/-! ## Symbols read back -/

theorem create_self (t : TypedName) : create t.kind t.value=some t := dif_pos t.valid

namespace PrimaryKey

/-- The walk goes back down the objects `to_variant` nests. -/
theorem walkPath_toVariant (info : TableInfo) (key : TypedName) : walkPath info.pkPath (toVariant info key)=some key.toVariant := by
  rw [toVariant]
  induction info.pkPath with
  | nil => rfl
  | cons part path ih => simp [walkPath,List.lookup,ih]

/-- A symbol key never comes back: its variant is the object of the
reflected `symbol_info`, and `from_variant` takes no object. -/
theorem fromVariant_toVariant_symbol (info : TableInfo) (key : TypedName) (hsym : key.kind=.symbol) :
    fromVariant info (toVariant info key)=none := by
  obtain ⟨kind,v,hv⟩ := key
  subst hsym
  rw [fromVariant,walkPath_toVariant,Option.bind_some]
  rfl

end PrimaryKey

/-! ## Round trips of the typed keys -/

/-- A table keyed by a `symbol` field `sym`. -/
def symbolTable : TableInfo := ⟨["sym".toList],"symbol".toList,[],0⟩

theorem symbolNameOf_zero : symbolNameOf 0=[] := by
  rw [symbolNameOf,if_pos rfl]

/-- The empty symbol of precision 0 is valid. -/
theorem symbolValid_zero : symbolValid 0=true := by
  rw [symbolValid,symbolName,show (0 : UInt64) >>> 8=0 from rfl,symbolNameOf_zero]
  decide

/-- `symbol(0, "")` is the value 0. -/
theorem symbolOf_nil : symbolOf 0 []=some 0 := by
  rw [symbolOf,stringToSymbol,List.takeWhile_nil,stringToSymbolLoop,Option.map_some,Option.bind_some,
    show (0 : UInt64) ||| (0 : UInt8).toUInt64=0 from rfl,symbolOfValue,if_pos symbolValid_zero]

/-- The code `2 ^ 56` passes `is_valid`: its top byte is shifted out before
the check, and no letters are left. -/
theorem isValid_code_top_byte : isValid .symbolCode (2^56)=true := by
  show symbolValid _=true
  rw [show (2^56 : UInt64) <<< 8=0 by decide]
  exact symbolValid_zero

/-- The two failures: the code `2 ^ 56` passes `is_valid` and is read back
as 0, and the symbol `4,A` of a symbol-keyed table does not come back from
its variant. -/
theorem typed_key_round_trip_fails :
    (∃ key : TypedName,key.kind=.symbolCode ∧ key.value=2^56 ∧
      (fromString key.kind key.toString).map TypedName.value=some 0) ∧
    ∃ row,PrimaryKey.toVariantOf symbolTable 0x4104=some row ∧ PrimaryKey.fromVariant symbolTable row=none := by
  have hshift : (2^56 : UInt64) <<< 8=0 := by decide
  have hA : symbolNameOf 0x41=['A'] := by
    rw [symbolNameOf,if_neg (by decide),show (0x41 : UInt64) >>> 8=0 from rfl,symbolNameOf_zero]
    rfl
  have hsym : isValid .symbol 0x4104=true := by
    show symbolValid _=true
    rw [symbolValid,symbolName,show (0x4104 : UInt64) >>> 8=0x41 from rfl,hA]
    decide
  refine ⟨⟨⟨.symbolCode,2^56,isValid_code_top_byte⟩,rfl,rfl,?_⟩,⟨PrimaryKey.toVariant symbolTable ⟨.symbol,0x4104,hsym⟩,?_,
    PrimaryKey.fromVariant_toVariant_symbol _ _ rfl⟩⟩
  · show ((symbolOf 0 (symbolName ((2^56 : UInt64) <<< 8))).bind fun s => create .symbolCode (s >>> 8)).map
      TypedName.value=some 0
    rw [hshift,symbolName,show (0 : UInt64) >>> 8=0 from rfl,symbolNameOf_zero,symbolOf_nil,Option.bind_some,
      show (0 : UInt64) >>> 8=0 from rfl,create,dif_pos (show isValid .symbolCode 0=true from symbolValid_zero)]
    rfl
  · rw [PrimaryKey.toVariantOf,PrimaryKey.fromTable,show PrimaryKey.kindFromTable symbolTable=.symbol from rfl,
      create,dif_pos hsym,Option.map_some]

end Cyberway.ChaindbTypedName
