import Mathlib

/-!
# Smearing the bits of a number downwards

`v ||| v >>> 1`, then `||| >>> 2`, `||| >>> 4` and so on sets every bit
below the highest set bit of `v`: after the shifts by `1, 2, …, 2 ^ (k-1)`
bit `j` is set exactly when one of the bits `j, …, j + 2 ^ k - 1` of `v` is.
Once `2 ^ k` covers all the bits of `v`, the result is `2 ^ size v - 1`; one
more makes it the least power of two above `v`, without a loop.
-/

namespace Cyberway.BitSmear

/-- `k` rounds of `v |= v >> 2 ^ i`, for `i = 0, …, k - 1`. -/
def smear (v : ℕ) : ℕ → ℕ
  | 0 => v
  | k+1 => smear v k ||| smear v k >>> 2^k

/-- Bit `j` of the smear is set when one of the `2 ^ k` bits from `j` up is. -/
theorem testBit_smear (v : ℕ) :
    ∀ k j,(smear v k).testBit j=true ↔ ∃ i,j ≤ i ∧ i < j+2^k ∧ v.testBit i=true
  | 0,j => by
    constructor
    · intro h
      exact ⟨j,Nat.le_refl j,by omega,h⟩
    · rintro ⟨i,h₁,h₂,h₃⟩
      rwa [show j=i by omega]
  | k+1,j => by
    rw [smear,Nat.testBit_or,Nat.testBit_shiftRight,Bool.or_eq_true,testBit_smear v k j,testBit_smear v k (2^k+j),
      Nat.pow_succ]
    constructor
    · rintro (⟨i,h₁,h₂,h₃⟩ | ⟨i,h₁,h₂,h₃⟩)
      · exact ⟨i,h₁,by omega,h₃⟩
      · exact ⟨i,by omega,by omega,h₃⟩
    · rintro ⟨i,h₁,h₂,h₃⟩
      -- the set bit lies in the lower or in the upper half of the window
      by_cases hi : i < j+2^k
      · exact .inl ⟨i,h₁,hi,h₃⟩
      · exact .inr ⟨i,by omega,by omega,h₃⟩

/-- A number below `2 ^ 2 ^ k` smears to `2 ^ size v - 1`. -/
theorem smear_eq {v k : ℕ} (h : v < 2^2^k) : smear v k=2^v.size-1 := by
  apply Nat.eq_of_testBit_eq
  intro j
  rw [Nat.testBit_two_pow_sub_one,Bool.eq_iff_iff,testBit_smear,decide_eq_true_iff,Nat.lt_size]
  constructor
  · rintro ⟨i,h₁,-,h₃⟩
    exact Nat.le_trans (Nat.pow_le_pow_right (by decide) h₁) (Nat.ge_two_pow_of_testBit h₃)
  · intro hj
    have hshift : v >>> j≠0 := by
      rw [Nat.shiftRight_eq_div_pow]
      exact Nat.ne_of_gt (Nat.div_pos hj (Nat.two_pow_pos j))
    obtain ⟨i,hi⟩ := Nat.exists_testBit_of_ne_zero hshift
    rw [Nat.testBit_shiftRight] at hi
    have hlt : j+i < 2^k := (Nat.pow_lt_pow_iff_right (by decide)).mp
      (Nat.lt_of_le_of_lt (Nat.ge_two_pow_of_testBit hi) h)
    exact ⟨j+i,by omega,by omega,hi⟩

/-- The bits of `v - 1` count the doublings up to a power of two at least `v`. -/
theorem size_sub_one {v : ℕ} (h : 1 ≤ v) : (v-1).size=Nat.clog 2 v := by
  apply le_antisymm
  · rw [Nat.size_le]
    have := Nat.le_pow_clog (by decide : 1 < 2) v
    omega
  · apply Nat.clog_le_of_le_pow
    have := Nat.lt_size_self (v-1)
    omega

/-- Smearing `v - 1` and adding one gives the least power of two at least `v`. -/
theorem smear_sub_one_add_one {v k : ℕ} (h₁ : 1 ≤ v) (h₂ : v ≤ 2^2^k) : smear (v-1) k+1=2^Nat.clog 2 v := by
  rw [smear_eq (by omega),size_sub_one h₁]
  exact Nat.sub_add_cancel (Nat.one_le_two_pow)

end Cyberway.BitSmear
