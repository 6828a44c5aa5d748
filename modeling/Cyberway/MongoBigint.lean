import Cyberway.BigEndian

/-!
# The 128-bit key encoding of the MongoDB driver

`mongo_bigint_converter` stores an `int128` or a `uint128` field as a
17-byte blob: a tag byte, 0 for a negative `int128` and 1 otherwise, then
the 128 bits of the value, most significant byte first. The driver sorts
such fields by the blob (`get_order_field` appends `._binary`), compared as
unsigned bytes. Read as a base-256 number the blob is the value plus
`2 ^ 128`, so blobs compare as the integers do, and `parse_binary` reads
back the integer: as an `int128` when it is negative, as a `uint128`
otherwise.
-/

namespace Cyberway.MongoBigint

open BigEndian

/-- `mongo_bigint_converter::raw_value` with its `type`: the 128 bits of the
union, read as an `__int128` or as an `unsigned __int128`. -/
inductive BigintValue where
  | int128 (val : BitVec 128)
  | uint128 (val : BitVec 128)
  deriving DecidableEq, Repr

namespace BigintValue

/-- The bits of the union. -/
def bits : BigintValue → BitVec 128
  | int128 v => v
  | uint128 v => v

/-- The integer that `get_raw_value` denotes. -/
def toInt : BigintValue → ℤ
  | int128 v => v.toInt
  | uint128 v => v.toNat

end BigintValue

open BigintValue

/-- `fill_blob`: for `i = 8, 16, …, 128` (`CHAR_BIT` to `NUMBER_128_BITS`)
the next byte is `val >> (128 - i)`, cut to a `char`. -/
def fillBlob (val : BitVec 128) : List UInt8 :=
  (List.range 16).map fun k => UInt8.ofNat (val >>> (128-8*(k+1))).toNat

/-- `get_blob_value`, by `get_int128_blob` and `get_uint128_blob`: the tag
byte of the zero-filled blob is set to 1 unless the `int128` is negative. -/
def getBlobValue : BigintValue → List UInt8
  | .int128 v => (if 0 ≤ v.toInt then 1 else 0) :: fillBlob v
  | .uint128 v => 1 :: fillBlob v

/-- `parse_binary`: a blob of any size but `NUMBER_128_BLOB_SIZE` leaves the
converter invalid; a tag of 0 reads an `int128`, any other a `uint128`. -/
def parseBinary (bytes : List UInt8) : Option BigintValue :=
  if bytes.length≠17 then none
  else
    match bytes with
    | [] => none
    | type :: rest =>
      let val : BitVec 128 :=
        rest.foldl (fun val b => (val <<< 8) ||| BitVec.ofNat 128 (0xFF &&& b.toNat)) 0
      if type=0 then some (.int128 val) else some (.uint128 val)

/-! ## The blob as a number -/

/-- The integer of a value lies between `-2^127` and `2^128`. -/
theorem toInt_bounds (a : BigintValue) : -2^127 ≤ a.toInt ∧ a.toInt < 2^128 := by
  cases a with
  | int128 v =>
    have hle := BitVec.le_toInt v
    have hlt := BitVec.toInt_lt (x := v)
    norm_num at hle hlt
    simp only [BigintValue.toInt]
    omega
  | uint128 v =>
    have hv := v.isLt
    simp only [BigintValue.toInt]
    omega

/-- The bytes of `fill_blob` are the base-256 digits of the value. -/
theorem fillBlob_toNat (v : BitVec 128) : (fillBlob v).map UInt8.toNat=digits 256 16 v.toNat := by
  rw [fillBlob,List.map_map,digits_eq_map_range]
  apply List.map_congr_left
  intro k hk
  have hk := List.mem_range.mp hk
  have hshift : 128-8*(k+1)=8*(16-1-k) := by omega
  simp only [Function.comp_apply,UInt8.toNat_ofNat',BitVec.toNat_ushiftRight,Nat.shiftRight_eq_div_pow,hshift,
    pow_mul]
  norm_num

@[simp] theorem length_fillBlob (v : BitVec 128) : (fillBlob v).length=16 := by
  simp [fillBlob]

@[simp] theorem length_getBlobValue (a : BigintValue) : (getBlobValue a).length=17 := by
  cases a <;> simp [getBlobValue]

/-- The tag byte and the value's bits, and the integer they make: the tag is
0 exactly for a negative `int128`, whose bits are the value plus `2^128`. -/
theorem getBlobValue_eq (a : BigintValue) :
    ∃ tag : UInt8, getBlobValue a=tag :: fillBlob a.bits ∧ (tag=0 ↔ a.toInt < 0) ∧
      (a.toInt+2^128).toNat=tag.toNat*256^16+a.bits.toNat := by
  cases a with
  | int128 v =>
    have hv := v.isLt
    simp only [BigintValue.toInt,BigintValue.bits]
    by_cases h : 0 ≤ v.toInt
    · refine ⟨1,by rw [getBlobValue,if_pos h],iff_of_false (by decide) (not_lt.mpr h),?_⟩
      rw [show (1 : UInt8).toNat=1 from rfl]
      rw [BitVec.toInt_eq_toNat_cond] at h ⊢
      split_ifs at h ⊢ <;> omega
    · -- a negative `int128`: its bits are the value plus `2^128`
      refine ⟨0,by rw [getBlobValue,if_neg h],iff_of_true rfl (not_le.mp h),?_⟩
      rw [show (0 : UInt8).toNat=0 from rfl]
      rw [BitVec.toInt_eq_toNat_cond] at h ⊢
      split_ifs at h ⊢ <;> omega
  | uint128 v =>
    have hv := v.isLt
    simp only [BigintValue.toInt,BigintValue.bits]
    refine ⟨1,rfl,iff_of_false (by decide) (by omega),?_⟩
    rw [show (1 : UInt8).toNat=1 from rfl]
    omega

/-- Read as unsigned bytes, the blob is the base-256 digits of the value
plus `2 ^ 128`. -/
theorem getBlobValue_toNat (a : BigintValue) :
    (getBlobValue a).map UInt8.toNat=digits 256 17 (a.toInt+2^128).toNat := by
  obtain ⟨tag,hblob,-,hkey⟩ := getBlobValue_eq a
  rw [hblob,hkey,List.map_cons,fillBlob_toNat,digits_succ_of_lt tag.toNat_lt (by simpa using a.bits.isLt)]

/-! ## Order and round trip -/

/-- Blobs compare as unsigned bytes as the integers they encode. -/
theorem getBlobValue_lt_iff (a b : BigintValue) : getBlobValue a < getBlobValue b ↔ a.toInt < b.toInt := by
  have ha := toInt_bounds a
  have hb := toInt_bounds b
  rw [← map_lt_map_iff UInt8.toNat (fun _ _ => UInt8.lt_iff_toNat_lt.symm) (fun _ _ h => UInt8.toNat_inj.mp h),
    getBlobValue_toNat,getBlobValue_toNat,digits_lt_digits_iff (by norm_num),
    Nat.mod_eq_of_lt (by omega),Nat.mod_eq_of_lt (by omega)]
  omega

/-- `parse_binary` takes the sixteen bytes of `fill_blob` back to the value's bits. -/
theorem foldl_fillBlob (v : BitVec 128) :
    (fillBlob v).foldl (fun (val : BitVec 128) b => (val <<< 8) ||| BitVec.ofNat 128 (0xFF &&& b.toNat)) 0=v := by
  have hmask : ∀ b : UInt8, 0xFF &&& b.toNat=b.toNat := fun b => by
    rw [Nat.land_comm,show (0xFF : ℕ)=2^8-1 by norm_num,Nat.and_two_pow_sub_one_eq_mod,
      Nat.mod_eq_of_lt b.toNat_lt]
  have hread := foldl_shiftLeft_or (w := 128) (i := 8) (by norm_num) ((fillBlob v).map UInt8.toNat) 0
    (fun d hd => by obtain ⟨b,-,rfl⟩ := List.mem_map.mp hd; exact b.toNat_lt)
  rw [List.foldl_map] at hread
  simp only [hmask]
  apply BitVec.eq_of_toNat_eq
  rw [hread,fillBlob_toNat,show (2:ℕ)^8=256 by norm_num,value_digits,show (0 : BitVec 128).toNat=0 from rfl,
    Nat.zero_mul,Nat.zero_add,
    show (256:ℕ)^16=2^128 by norm_num,Nat.mod_mod,Nat.mod_eq_of_lt v.isLt]

/-- `parse_binary` of a blob gives the value's bits, as an `int128` when
the value is negative and as a `uint128` otherwise. -/
theorem parseBinary_getBlobValue (a : BigintValue) :
    parseBinary (getBlobValue a)=some (if a.toInt < 0 then .int128 a.bits else .uint128 a.bits) := by
  obtain ⟨tag,hblob,htag,-⟩ := getBlobValue_eq a
  unfold parseBinary
  rw [if_neg (by simp),hblob]
  simp only [foldl_fillBlob]
  by_cases h : a.toInt < 0 <;> simp [h,htag]

/-- The value `parse_binary` reads back denotes the same integer. -/
theorem toInt_parsed (a : BigintValue) :
    (if a.toInt < 0 then BigintValue.int128 a.bits else .uint128 a.bits).toInt=a.toInt := by
  cases a with
  | int128 v =>
    by_cases h : v.toInt < 0
    · simp only [BigintValue.toInt,BigintValue.bits,h,if_true]
    · have hv := v.isLt
      rw [if_neg (show ¬(BigintValue.int128 v).toInt < 0 from h)]
      show (v.toNat : ℤ)=v.toInt
      rw [BitVec.toInt_eq_toNat_cond] at h ⊢
      split_ifs at h ⊢ <;> omega
  | uint128 v =>
    have hnn : ¬(v.toNat : ℤ) < 0 := by omega
    simp only [BigintValue.toInt,BigintValue.bits,hnn,if_false]

theorem bigint_blob_order_and_roundtrip (x y : BigintValue) :
    (getBlobValue x).length=17 ∧ (getBlobValue y).length=17 ∧
      (x.toInt < y.toInt ↔ getBlobValue x < getBlobValue y) ∧
      ∃ c, parseBinary (getBlobValue x)=some c ∧ c.toInt=x.toInt ∧
        c=(if x.toInt < 0 then .int128 x.bits else .uint128 x.bits) :=
  ⟨length_getBlobValue x,length_getBlobValue y,(getBlobValue_lt_iff x y).symm,
    _,parseBinary_getBlobValue x,toInt_parsed x,rfl⟩

end Cyberway.MongoBigint
