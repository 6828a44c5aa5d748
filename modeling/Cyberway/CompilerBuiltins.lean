import Cyberway.CppInt

/-!
# Compiler builtins for 128-bit integers

WebAssembly has no 128-bit integers, so a contract compiled from C++ calls
the intrinsics of `compiler_builtins` for them: each takes its operands as
pairs of 64-bit words and writes the result through a reference. The
signed ones build `__int128` operands by `x = high; x <<= 64; x |= low` and
then apply the native operator; `__divti3`, `__modti3`, `__udivti3` and
`__umodti3` first throw `arithmetic_exception` ("divide by zero") for a zero
divisor.

Building an operand is always defined: the high word is below `2 ^ 64`, so
its shift fits. What follows is not. The native `*`, `/`, `%` and `>>` on
`__int128` are undefined exactly where the C++ standard says: an
unrepresentable product, `INT128_MIN / -1` and `INT128_MIN % -1`, and a
shift by 128 or more, which a contract chooses freely. Everywhere else each
builtin returns the two's-complement result; the unsigned ones are defined
for every non-zero divisor.
-/

namespace Cyberway.CompilerBuiltins

open CppInt

/-- `__int128 x = high; x <<= 64; x |= low;`: the operand an intrinsic
builds from two words. -/
def int128Of (low high : UInt64) : Cpp (BitVec 128) := do
  let x ← defined (shiftLeft (toSigned 128 high.toNat) 64)
  pure (x ||| toSigned 128 low.toNat)

/-- `unsigned __int128 x = high; x <<= 64; x |= low;`. -/
def uint128Of (low high : UInt64) : Cpp (BitVec 128) := do
  let x ← defined (ushiftLeft (toUnsigned 128 high.toNat) 64)
  pure (x ||| toUnsigned 128 low.toNat)

/-- `__ashrti3`: the signed operand shifted right by `shift`. -/
def ashrti3 (low high : UInt64) (shift : UInt32) : Cpp (BitVec 128) := do
  let ret ← int128Of low high
  defined (shiftRight ret shift.toNat)

/-- `__divti3`. -/
def divti3 (la ha lb hb : UInt64) : Cpp (BitVec 128) := do
  let lhs ← int128Of la ha
  let rhs ← int128Of lb hb
  check (rhs≠0) "divide by zero"
  defined (div lhs rhs)

/-- `__udivti3`. -/
def udivti3 (la ha lb hb : UInt64) : Cpp (BitVec 128) := do
  let lhs ← uint128Of la ha
  let rhs ← uint128Of lb hb
  check (rhs≠0) "divide by zero"
  defined (udiv lhs rhs)

/-- `__multi3`. -/
def multi3 (la ha lb hb : UInt64) : Cpp (BitVec 128) := do
  let lhs ← int128Of la ha
  let rhs ← int128Of lb hb
  defined (mul lhs rhs)

/-- `__modti3`. -/
def modti3 (la ha lb hb : UInt64) : Cpp (BitVec 128) := do
  let lhs ← int128Of la ha
  let rhs ← int128Of lb hb
  check (rhs≠0) "divide by zero"
  defined (mod lhs rhs)

/-- `__umodti3`. -/
def umodti3 (la ha lb hb : UInt64) : Cpp (BitVec 128) := do
  let lhs ← uint128Of la ha
  let rhs ← uint128Of lb hb
  check (rhs≠0) "divide by zero"
  defined (umod lhs rhs)

/-! ## Operands -/

/-- The 128-bit word with halves `high` and `low`. -/
def word (low high : UInt64) : BitVec 128 := high.toBitVec ++ low.toBitVec

theorem toNat_toSigned_word (n : UInt64) : (toSigned 128 n.toNat).toNat=n.toNat := by
  rw [toSigned,BitVec.ofInt_natCast,BitVec.toNat_ofNat]
  exact Nat.mod_eq_of_lt (lt_trans n.toNat_lt (by norm_num))

theorem toNat_toUnsigned_word (n : UInt64) : (toUnsigned 128 n.toNat).toNat=n.toNat := by
  rw [toUnsigned,BitVec.toNat_ofNat]
  exact Nat.mod_eq_of_lt (lt_trans n.toNat_lt (by norm_num))

/-- The high word shifted up and the low word or-ed in make the word. -/
theorem shiftLeft_or_eq_word {x y : BitVec 128} (low high : UInt64) (hx : x.toNat=high.toNat)
    (hy : y.toNat=low.toNat) : x <<< 64 ||| y=word low high := by
  have hfit : high.toNat <<< 64 < 2^128 := by
    rw [Nat.shiftLeft_eq]
    have := high.toNat_lt
    norm_num at this ⊢
    omega
  apply BitVec.eq_of_toNat_eq
  rw [word,BitVec.toNat_or,BitVec.toNat_shiftLeft,hx,hy,Nat.mod_eq_of_lt hfit,BitVec.toNat_append,
    UInt64.toNat_toBitVec,UInt64.toNat_toBitVec]

/-- Building a signed operand is defined and gives the word. -/
theorem int128Of_eq (low high : UInt64) : int128Of low high=.ok (word low high) := by
  have hx := toNat_toSigned_word high
  have hlt := high.toNat_lt
  have hmsb : (toSigned 128 high.toNat).msb=false := by
    rw [BitVec.msb_eq_false_iff_two_mul_lt,hx]
    norm_num at hlt ⊢
    omega
  have hfit : (toSigned 128 high.toNat).toNat*2^64 < 2^128 := by
    rw [hx]
    norm_num at hlt ⊢
    omega
  rw [int128Of,shiftLeft_eq_some (by norm_num) hmsb hfit]
  exact congrArg Except.ok (shiftLeft_or_eq_word low high hx (toNat_toSigned_word low))

/-- Building an unsigned operand gives the same word. -/
theorem uint128Of_eq (low high : UInt64) : uint128Of low high=.ok (word low high) := by
  rw [uint128Of,ushiftLeft_eq,if_pos (by norm_num)]
  exact congrArg Except.ok (shiftLeft_or_eq_word low high (toNat_toUnsigned_word high) (toNat_toUnsigned_word low))

/-! ## The builtins -/

/-- `__ashrti3` is the arithmetic shift of the word, undefined for a shift of
128 or more. -/
theorem ashrti3_eq (low high : UInt64) (shift : UInt32) :
    ashrti3 low high shift=
      if shift.toNat < 128 then .ok ((word low high).sshiftRight shift.toNat) else .error .undefined := by
  rw [ashrti3,int128Of_eq]
  show defined (shiftRight (word low high) shift.toNat)=_
  rw [shiftRight_eq]
  split <;> rfl

/-- `__divti3` throws for a zero divisor, is undefined for `INT128_MIN / -1`,
and is `sdiv` of the words otherwise. -/
theorem divti3_eq (la ha lb hb : UInt64) :
    divti3 la ha lb hb=
      if word lb hb=0 then .error (.exception "divide by zero")
      else if word la ha=BitVec.intMin 128 ∧ word lb hb=-1#128 then .error .undefined
      else .ok ((word la ha).sdiv (word lb hb)) := by
  rw [divti3,int128Of_eq,int128Of_eq]
  show (check (word lb hb≠0) "divide by zero" >>= fun _ => defined (div (word la ha) (word lb hb)))=_
  by_cases hb0 : word lb hb=0
  · rw [if_pos hb0,check,if_neg (not_not.mpr hb0)]
    rfl
  · rw [if_neg hb0,check,if_pos hb0]
    show defined (div (word la ha) (word lb hb))=_
    rw [div_eq (by norm_num),if_neg hb0]
    split <;> rfl

/-- `__modti3` throws for a zero divisor, is undefined for `INT128_MIN % -1`,
and is `srem` of the words otherwise. -/
theorem modti3_eq (la ha lb hb : UInt64) :
    modti3 la ha lb hb=
      if word lb hb=0 then .error (.exception "divide by zero")
      else if word la ha=BitVec.intMin 128 ∧ word lb hb=-1#128 then .error .undefined
      else .ok ((word la ha).srem (word lb hb)) := by
  rw [modti3,int128Of_eq,int128Of_eq]
  show (check (word lb hb≠0) "divide by zero" >>= fun _ => defined (mod (word la ha) (word lb hb)))=_
  by_cases hb0 : word lb hb=0
  · rw [if_pos hb0,check,if_neg (not_not.mpr hb0)]
    rfl
  · rw [if_neg hb0,check,if_pos hb0]
    show defined (mod (word la ha) (word lb hb))=_
    rw [mod_eq (by norm_num),if_neg hb0]
    split <;> rfl

/-- `__multi3` is the wrapped product of the words where the product of
their values fits `__int128`, and undefined elsewhere. -/
theorem multi3_eq (la ha lb hb : UInt64) :
    multi3 la ha lb hb=
      if Representable 128 ((word la ha).toInt*(word lb hb).toInt) then .ok (word la ha*word lb hb)
      else .error .undefined := by
  rw [multi3,int128Of_eq,int128Of_eq]
  show defined (mul (word la ha) (word lb hb))=_
  rw [mul_eq]
  split <;> rfl

/-- `__udivti3` throws for a zero divisor and divides the words otherwise. -/
theorem udivti3_eq (la ha lb hb : UInt64) :
    udivti3 la ha lb hb=
      if word lb hb=0 then .error (.exception "divide by zero") else .ok (word la ha/word lb hb) := by
  rw [udivti3,uint128Of_eq,uint128Of_eq]
  show (check (word lb hb≠0) "divide by zero" >>= fun _ => defined (udiv (word la ha) (word lb hb)))=_
  by_cases hb0 : word lb hb=0
  · rw [if_pos hb0,check,if_neg (not_not.mpr hb0)]
    rfl
  · rw [if_neg hb0,check,if_pos hb0]
    show defined (udiv (word la ha) (word lb hb))=_
    rw [udiv_eq,if_neg hb0]
    rfl

/-- `__umodti3` throws for a zero divisor and takes the remainder of the
words otherwise. -/
theorem umodti3_eq (la ha lb hb : UInt64) :
    umodti3 la ha lb hb=
      if word lb hb=0 then .error (.exception "divide by zero") else .ok (word la ha%word lb hb) := by
  rw [umodti3,uint128Of_eq,uint128Of_eq]
  show (check (word lb hb≠0) "divide by zero" >>= fun _ => defined (umod (word la ha) (word lb hb)))=_
  by_cases hb0 : word lb hb=0
  · rw [if_pos hb0,check,if_neg (not_not.mpr hb0)]
    rfl
  · rw [if_neg hb0,check,if_pos hb0]
    show defined (umod (word la ha) (word lb hb))=_
    rw [umod_eq,if_neg hb0]
    rfl

/-- Unlike the signed ones, the unsigned division builtins never reach
undefined behaviour: they throw for a zero divisor and return the quotient
and the remainder of the words otherwise. -/
theorem unsigned_division_builtins_exact (la ha lb hb : UInt64) :
    udivti3 la ha lb hb=
        (if word lb hb=0 then .error (.exception "divide by zero") else .ok (word la ha/word lb hb)) ∧
      umodti3 la ha lb hb=
        (if word lb hb=0 then .error (.exception "divide by zero") else .ok (word la ha%word lb hb)) :=
  ⟨udivti3_eq la ha lb hb,umodti3_eq la ha lb hb⟩

/-- Contracts reach undefined behaviour in the signed builtins:
`INT128_MIN / -1`, `INT128_MIN % -1`, `2^64 * 2^64` and a shift by 128. -/
theorem int128_builtins_reach_undefined :
    divti3 0 0x8000000000000000 0xFFFFFFFFFFFFFFFF 0xFFFFFFFFFFFFFFFF=.error .undefined ∧
      modti3 0 0x8000000000000000 0xFFFFFFFFFFFFFFFF 0xFFFFFFFFFFFFFFFF=.error .undefined ∧
      multi3 0 1 0 1=.error .undefined ∧ ashrti3 0 0 128=.error .undefined := by
  have hmin : word 0 0x8000000000000000=BitVec.intMin 128 := by decide
  have hneg : word 0xFFFFFFFFFFFFFFFF 0xFFFFFFFFFFFFFFFF=-1#128 := by decide
  have hne : word 0xFFFFFFFFFFFFFFFF 0xFFFFFFFFFFFFFFFF≠0 := by decide
  refine ⟨?_,?_,?_,?_⟩
  · rw [divti3_eq,if_neg hne,if_pos ⟨hmin,hneg⟩]
  · rw [modti3_eq,if_neg hne,if_pos ⟨hmin,hneg⟩]
  · -- `2^64 * 2^64 = 2^128` is past `INT128_MAX`
    rw [multi3_eq,if_neg (by decide)]
  · rw [ashrti3_eq,if_neg (by decide)]

end Cyberway.CompilerBuiltins
