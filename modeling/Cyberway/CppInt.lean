import Mathlib

/-!
# C++ integer arithmetic

What the C++17 abstract machine does with the integer operators of a `w`-bit
type. An object holds its `w`-bit representation; a signed one stands for
the integer `toInt` reads from it. A signed operator yields the mathematical
result when the type can represent it and is undefined behaviour otherwise
([expr]/4); `/` and `%` by zero and with an unrepresentable quotient are
undefined ([expr.mul]/4), as is a shift by the width or more
([expr.shift]/1); `<<` of a signed value is defined only for a non-negative
value whose shifted value fits the unsigned type ([expr.shift]/2). An
unsigned operator reduces modulo `2 ^ w`. Where the standard leaves the
result to the implementation (a conversion to a signed type out of its
range, `>>` of a negative value) the model takes what GCC and Clang
document: reduction modulo `2 ^ w`, and an arithmetic shift. Shift counts
are non-negative here.

Undefined behaviour is `none`. Running code is a computation in
`Except Stop`, which adds the exceptions a program throws.

Each defined result is the bit-vector operation of the same name: the
representable product is the wrapped product, the representable quotient
and remainder are `sdiv` and `srem`, and the shifts are `<<<` and
`sshiftRight`. What is left is the exact condition for undefined behaviour.
-/

namespace Cyberway.CppInt

/-- How running C++ code ends without a value: by an exception, or in
undefined behaviour, after which the standard places no requirement on it. -/
inductive Stop where
  | exception (what : String)
  | undefined
  deriving DecidableEq, Repr

/-- C++ code that returns an `α`, throws, or reaches undefined behaviour. -/
abbrev Cpp (α : Type) := Except Stop α

/-- An operation of the abstract machine run by the code: undefined
behaviour stops it. -/
def defined {α : Type} : Option α → Cpp α
  | some a => .ok a
  | none => .error .undefined

/-- An assertion that throws `what` unless `c` holds. -/
def check (c : Prop) [Decidable c] (what : String) : Cpp Unit :=
  if c then .ok () else .error (.exception what)

@[simp] theorem defined_some {α : Type} (a : α) : defined (some a)=.ok a := rfl

@[simp] theorem defined_none {α : Type} : (defined none : Cpp α)=.error .undefined := rfl

variable {w : ℕ}

/-- The values of a signed `w`-bit type. -/
def Representable (w : ℕ) (x : ℤ) : Prop := -2^(w-1) ≤ x ∧ x < 2^(w-1)

instance (x : ℤ) : Decidable (Representable w x) := inferInstanceAs (Decidable (_ ∧ _))

/-- A value converted to a signed `w`-bit type, reduced modulo `2 ^ w`
where it does not fit. -/
def toSigned (w : ℕ) (x : ℤ) : BitVec w := BitVec.ofInt w x

/-- A value converted to an unsigned `w`-bit type, reduced modulo `2 ^ w`. -/
def toUnsigned (w : ℕ) (x : ℕ) : BitVec w := BitVec.ofNat w x

/-- `a * b` on a signed type. -/
def mul (a b : BitVec w) : Option (BitVec w) :=
  if Representable w (a.toInt*b.toInt) then some (toSigned w (a.toInt*b.toInt)) else none

/-- `a / b` on a signed type: the quotient rounded toward zero. -/
def div (a b : BitVec w) : Option (BitVec w) :=
  if b.toInt≠0 ∧ Representable w (a.toInt.tdiv b.toInt) then some (toSigned w (a.toInt.tdiv b.toInt)) else none

/-- `a % b` on a signed type: the remainder of that quotient, undefined
where the quotient is. -/
def mod (a b : BitVec w) : Option (BitVec w) :=
  if b.toInt≠0 ∧ Representable w (a.toInt.tdiv b.toInt) then some (toSigned w (a.toInt.tmod b.toInt)) else none

/-- `a << s` on a signed type. -/
def shiftLeft (a : BitVec w) (s : ℕ) : Option (BitVec w) :=
  if s < w ∧ 0 ≤ a.toInt ∧ a.toInt*2^s < 2^w then some (toSigned w (a.toInt*2^s)) else none

/-- `a >> s` on a signed type: `a / 2 ^ s` rounded down. -/
def shiftRight (a : BitVec w) (s : ℕ) : Option (BitVec w) :=
  if s < w then some (toSigned w (a.toInt >>> s)) else none

/-- `a / b` on an unsigned type. -/
def udiv (a b : BitVec w) : Option (BitVec w) :=
  if b.toNat≠0 then some (toUnsigned w (a.toNat/b.toNat)) else none

/-- `a % b` on an unsigned type. -/
def umod (a b : BitVec w) : Option (BitVec w) :=
  if b.toNat≠0 then some (toUnsigned w (a.toNat%b.toNat)) else none

/-- `a << s` on an unsigned type. -/
def ushiftLeft (a : BitVec w) (s : ℕ) : Option (BitVec w) :=
  if s < w then some (toUnsigned w (a.toNat*2^s)) else none

/-! ## Representations -/

@[simp] theorem toSigned_toInt (a : BitVec w) : toSigned w a.toInt=a := BitVec.ofInt_toInt

theorem representable_toInt (a : BitVec w) : Representable w a.toInt := ⟨BitVec.le_toInt a,BitVec.toInt_lt⟩

theorem toInt_eq_zero_iff {a : BitVec w} : a.toInt=0 ↔ a=0 := by
  rw [← BitVec.toInt_zero (w := w),BitVec.toInt_inj]
  rfl

theorem toNat_eq_zero_iff {a : BitVec w} : a.toNat=0 ↔ a=0 := by
  rw [← BitVec.toNat_zero (w := w),BitVec.toNat_inj]
  rfl

/-- The least signed value, the only one whose negation does not fit. -/
theorem toInt_intMin (hw : 0 < w) : (BitVec.intMin w).toInt=-2^(w-1) := BitVec.toInt_intMin_of_pos hw

theorem toInt_neg_one (hw : 0 < w) : (-1#w).toInt=-1 := by
  rw [BitVec.neg_one_eq_allOnes,BitVec.toInt_allOnes,if_pos hw]

/-! ## The operators as bit-vector operations -/

/-- `*` is the wrapped product where the true product is representable. -/
theorem mul_eq (a b : BitVec w) :
    mul a b=if Representable w (a.toInt*b.toInt) then some (a*b) else none := by
  rw [mul,toSigned,BitVec.ofInt_mul,BitVec.ofInt_toInt,BitVec.ofInt_toInt]

/-- The quotient of `intMin` by `-1` is the one that does not fit. -/
theorem representable_tdiv_iff (hw : 0 < w) (a b : BitVec w) :
    Representable w (a.toInt.tdiv b.toInt) ↔ ¬(a=BitVec.intMin w ∧ b=-1#w) := by
  constructor
  · rintro ⟨-,hlt⟩ ⟨rfl,rfl⟩
    rw [toInt_intMin hw,toInt_neg_one hw,Int.tdiv_neg,Int.tdiv_one,neg_neg] at hlt
    exact lt_irrefl _ hlt
  · intro h
    have hne : a≠BitVec.intMin w ∨ b≠-1#w := by tauto
    rw [← BitVec.toInt_sdiv_of_ne_or_ne a b hne]
    exact representable_toInt _

/-- `/` is `sdiv`, undefined for a zero divisor and for `intMin / -1`. -/
theorem div_eq (hw : 0 < w) (a b : BitVec w) :
    div a b=if b=0 then none else if a=BitVec.intMin w ∧ b=-1#w then none else some (a.sdiv b) := by
  simp only [div,ne_eq,toInt_eq_zero_iff,representable_tdiv_iff hw]
  by_cases hb : b=0
  · simp [hb]
  by_cases hmin : a=BitVec.intMin w ∧ b=-1#w
  · simp [hmin]
  · have hne : a≠BitVec.intMin w ∨ b≠-1#w := by tauto
    rw [if_pos ⟨hb,hmin⟩,if_neg hb,if_neg hmin,toSigned,← BitVec.toInt_sdiv_of_ne_or_ne a b hne,
      BitVec.ofInt_toInt]

/-- `%` is `srem`, undefined where `/` is. -/
theorem mod_eq (hw : 0 < w) (a b : BitVec w) :
    mod a b=if b=0 then none else if a=BitVec.intMin w ∧ b=-1#w then none else some (a.srem b) := by
  simp only [mod,ne_eq,toInt_eq_zero_iff,representable_tdiv_iff hw,← BitVec.toInt_srem,toSigned_toInt]
  by_cases hb : b=0
  · simp [hb]
  · by_cases hmin : a=BitVec.intMin w ∧ b=-1#w
    · simp [hmin]
    · rw [if_pos ⟨hb,hmin⟩,if_neg hb,if_neg hmin]

/-- `>>` is the arithmetic shift below the width. -/
theorem shiftRight_eq (a : BitVec w) (s : ℕ) :
    shiftRight a s=if s < w then some (a.sshiftRight s) else none := by
  rw [shiftRight,toSigned,← BitVec.toInt_sshiftRight,BitVec.ofInt_toInt]

/-- `<<` of a non-negative value that fits after the shift is `<<<`. -/
theorem shiftLeft_eq_some {a : BitVec w} {s : ℕ} (hs : s < w) (ha : a.msb=false)
    (hfit : a.toNat*2^s < 2^w) : shiftLeft a s=some (a <<< s) := by
  have hint : a.toInt=a.toNat := BitVec.toInt_eq_toNat_of_msb ha
  rw [shiftLeft,if_pos ⟨hs,by rw [hint]; positivity,by rw [hint]; exact_mod_cast hfit⟩,hint,toSigned]
  congr 1
  apply BitVec.eq_of_toNat_eq
  rw [show (a.toNat : ℤ)*2^s=((a.toNat*2^s : ℕ) : ℤ) by push_cast; rfl,BitVec.ofInt_natCast,
    BitVec.toNat_ofNat,BitVec.toNat_shiftLeft,Nat.shiftLeft_eq]

/-- Unsigned `/` is `udiv`, undefined for a zero divisor. -/
theorem udiv_eq (a b : BitVec w) : udiv a b=if b=0 then none else some (a/b) := by
  simp only [udiv,ne_eq,toNat_eq_zero_iff]
  by_cases hb : b=0
  · simp [hb]
  · rw [if_pos hb,if_neg hb,toUnsigned]
    congr 1
    apply BitVec.eq_of_toNat_eq
    rw [BitVec.toNat_ofNat,BitVec.toNat_udiv,Nat.mod_eq_of_lt (lt_of_le_of_lt (Nat.div_le_self _ _) a.isLt)]

/-- Unsigned `%` is `umod`, undefined for a zero divisor. -/
theorem umod_eq (a b : BitVec w) : umod a b=if b=0 then none else some (a%b) := by
  simp only [umod,ne_eq,toNat_eq_zero_iff]
  by_cases hb : b=0
  · simp [hb]
  · rw [if_pos hb,if_neg hb,toUnsigned]
    congr 1
    apply BitVec.eq_of_toNat_eq
    rw [BitVec.toNat_ofNat,BitVec.toNat_umod,Nat.mod_eq_of_lt (lt_of_le_of_lt (Nat.mod_le _ _) a.isLt)]

/-- Unsigned `<<` below the width is `<<<`. -/
theorem ushiftLeft_eq (a : BitVec w) (s : ℕ) : ushiftLeft a s=if s < w then some (a <<< s) else none := by
  rw [ushiftLeft,toUnsigned]
  congr 2
  apply BitVec.eq_of_toNat_eq
  rw [BitVec.toNat_ofNat,BitVec.toNat_shiftLeft,Nat.shiftLeft_eq]

/-! ## Running code -/

/-- The result of a signed `w`-bit operator whose mathematical result is
`x`, its operands read as integers: undefined where `x` does not fit. -/
def signed (w : ℕ) (x : ℤ) : Option ℤ := if Representable w x then some x else none

theorem defined_signed_eq_ok {x y : ℤ} : defined (signed w x)=.ok y ↔ Representable w x ∧ y=x := by
  unfold signed
  split_ifs with h
  · simp [h,eq_comm]
  · simp [h]

theorem check_eq_ok {c : Prop} [Decidable c] {what : String} : check c what=.ok () ↔ c := by
  unfold check
  split_ifs with h
  · simp [h]
  · simp [h]

/-- Code that returned ran its first part to a value. -/
theorem bind_eq_ok {α β : Type} {x : Cpp α} {f : α → Cpp β} {b : β} (h : (x >>= f)=.ok b) :
    ∃ a,x=.ok a ∧ f a=.ok b := by
  cases x with
  | error e => cases h
  | ok a => exact ⟨a,rfl,h⟩

end Cyberway.CppInt
