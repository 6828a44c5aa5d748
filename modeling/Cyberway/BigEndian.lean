import Mathlib

/-!
# Big-endian digits

The `k` base-`b` digits of a number, most significant first, and the value
of such a digit list. Digit lists of one length compare lexicographically as
the numbers they denote, and reading the digits back gives the number modulo
`b ^ k`. For bit vectors, shifting up by `i` bits and or-ing in a value below
`2 ^ i` is a multiply-and-add step of that reading.
-/

namespace Cyberway.BigEndian

/-- The `k` base-`b` digits of `n`, most significant first. -/
def digits (b : ℕ) : ℕ → ℕ → List ℕ
  | 0,_ => []
  | k+1,n => n/b^k%b :: digits b k n

/-- The value of base-`b` digits, most significant first. -/
def value (b : ℕ) (ds : List ℕ) : ℕ := ds.foldl (fun acc d => acc*b+d) 0

section Digits

variable {b : ℕ}

@[simp] theorem digits_zero (n : ℕ) : digits b 0 n=[] := rfl

@[simp] theorem digits_succ (k n : ℕ) : digits b (k+1) n=n/b^k%b :: digits b k n := rfl

@[simp] theorem length_digits (k n : ℕ) : (digits b k n).length=k := by
  induction k with
  | zero => rfl
  | succ k ih => simp [ih]

/-- The digits read only the number modulo `b ^ k`. -/
theorem digits_mod_pow (k n : ℕ) : digits b k (n%b^k)=digits b k n := by
  induction k generalizing n with
  | zero => rfl
  | succ k ih =>
    have hhead : n%b^(k+1)/b^k%b=n/b^k%b := by
      rw [pow_succ,Nat.mod_mul_right_div_self,Nat.mod_mod]
    have htail : n%b^(k+1)%b^k=n%b^k := Nat.mod_mod_of_dvd n (pow_dvd_pow b (Nat.le_succ k))
    rw [digits_succ,digits_succ,hhead,← ih (n%b^(k+1)),htail,ih]

/-- A leading digit below `b` in front of a number below `b ^ k`. -/
theorem digits_succ_of_lt {d n k : ℕ} (hd : d < b) (hn : n < b^k) :
    digits b (k+1) (d*b^k+n)=d :: digits b k n := by
  have hpos : 0 < b^k := lt_of_le_of_lt (Nat.zero_le n) hn
  have hdiv : (d*b^k+n)/b^k=d := by
    rw [Nat.add_comm,Nat.add_mul_div_right _ _ hpos,Nat.div_eq_of_lt hn,Nat.zero_add]
  have hmod : (d*b^k+n)%b^k=n := by
    rw [Nat.add_comm,Nat.add_mul_mod_self_right,Nat.mod_eq_of_lt hn]
  rw [digits_succ,hdiv,Nat.mod_eq_of_lt hd,← digits_mod_pow k,hmod]

/-- The digits as a map over their positions. -/
theorem digits_eq_map_range (k n : ℕ) : digits b k n=(List.range k).map fun j => n/b^(k-1-j)%b := by
  induction k with
  | zero => rfl
  | succ k ih =>
    rw [digits_succ,ih,List.range_succ_eq_map,List.map_cons,List.map_map]
    congr 1
    apply List.map_congr_left
    intro j hj
    have hj := List.mem_range.mp hj
    simp only [Function.comp_apply,Nat.succ_eq_add_one]
    congr 3
    omega

/-- The last of `k + 1` digits is the number modulo `b`; before it stand the
`k` digits of the quotient. -/
theorem digits_succ_eq_append (k n : ℕ) : digits b (k+1) n=digits b k (n/b)++[n%b] := by
  induction k generalizing n with
  | zero => simp
  | succ k ih =>
    rw [digits_succ,ih,digits_succ,Nat.div_div_eq_div_mul,← pow_succ']
    rfl

/-- Every digit is below the base. -/
theorem lt_of_mem_digits (hb : 0 < b) {k n d : ℕ} (hd : d ∈ digits b k n) : d < b := by
  induction k with
  | zero => simp at hd
  | succ k ih =>
    rcases List.mem_cons.mp hd with rfl | hd
    · exact Nat.mod_lt _ hb
    · exact ih hd

/-- Reading digits after a prefix: the prefix moves up by the digits' length. -/
theorem foldl_value (ds : List ℕ) (a : ℕ) :
    ds.foldl (fun acc d => acc*b+d) a=a*b^ds.length+value b ds := by
  induction ds generalizing a with
  | nil => simp [value]
  | cons d ds ih =>
    simp only [value,List.foldl_cons,List.length_cons] at ih ⊢
    rw [ih,ih (0*b+d)]
    ring

theorem value_cons (d : ℕ) (ds : List ℕ) : value b (d :: ds)=d*b^ds.length+value b ds := by
  rw [value,List.foldl_cons,foldl_value]
  simp

/-- A digit appended at the end. -/
theorem value_concat (ds : List ℕ) (d : ℕ) : value b (ds++[d])=value b ds*b+d := by
  rw [value,List.foldl_append,List.foldl_cons,List.foldl_nil]
  rfl

/-- Digits below the base have a value below the base to their number. -/
theorem value_lt : ∀ ds : List ℕ, (∀ d ∈ ds, d < b) → value b ds < b^ds.length
  | [],_ => by simp [value]
  | d :: ds,hds => by
    have hd := hds d List.mem_cons_self
    have ih := value_lt ds fun e he => hds e (List.mem_cons_of_mem d he)
    rw [value_cons,List.length_cons,pow_succ']
    calc d*b^ds.length+value b ds < d*b^ds.length+b^ds.length := Nat.add_lt_add_left ih _
      _ = (d+1)*b^ds.length := by ring
      _ ≤ b*b^ds.length := Nat.mul_le_mul_right _ hd

/-- Reading the `k` digits of `n` gives `n` modulo `b ^ k`. -/
theorem value_digits (k n : ℕ) : value b (digits b k n)=n%b^k := by
  induction k with
  | zero => simp [value,Nat.mod_one]
  | succ k ih =>
    rw [digits_succ,value_cons,ih,length_digits,Nat.mod_pow_succ]
    ring

/-- Digits below the base are the digits of their value. -/
theorem digits_value : ∀ ds : List ℕ, (∀ d ∈ ds, d < b) → digits b ds.length (value b ds)=ds
  | [],_ => rfl
  | d :: ds,hds => by
    have hd := hds d List.mem_cons_self
    have hv := value_lt ds fun e he => hds e (List.mem_cons_of_mem d he)
    have hpos : 0 < b^ds.length := Nat.pos_of_ne_zero fun h => by omega
    -- the leading digit is the quotient by `b ^ length`, the rest the remainder
    have hdiv : (d*b^ds.length+value b ds)/b^ds.length=d := by
      rw [Nat.add_comm,Nat.add_mul_div_right _ _ hpos,Nat.div_eq_of_lt hv,Nat.zero_add]
    rw [List.length_cons,digits_succ,value_cons,hdiv,Nat.mod_eq_of_lt hd,← digits_mod_pow,Nat.add_comm,
      Nat.add_mul_mod_self_right,Nat.mod_eq_of_lt hv,digits_value ds fun e he => hds e (List.mem_cons_of_mem d he)]

/-- Two numbers with remainders below `P` compare by quotient first. -/
theorem mul_add_lt_mul_add_iff {P q q' r r' : ℕ} (hr : r < P) (hr' : r' < P) :
    P*q+r < P*q'+r' ↔ q < q' ∨ q=q' ∧ r < r' := by
  constructor
  · intro h
    rcases lt_trichotomy q q' with hq | rfl | hq
    · exact .inl hq
    · exact .inr ⟨rfl,by omega⟩
    · have hle : P*(q'+1) ≤ P*q := Nat.mul_le_mul_left P hq
      rw [Nat.mul_succ] at hle
      omega
  · rintro (hq | ⟨rfl,hlt⟩)
    · have hle : P*(q+1) ≤ P*q' := Nat.mul_le_mul_left P hq
      rw [Nat.mul_succ] at hle
      omega
    · omega

/-- Digit lists of one length compare lexicographically as the numbers
modulo `b ^ k`. -/
theorem digits_lt_digits_iff (hb : 0 < b) (k : ℕ) :
    ∀ n m, digits b k n < digits b k m ↔ n%b^k < m%b^k := by
  induction k with
  | zero => intro n m; simp [Nat.mod_one]
  | succ k ih =>
    intro n m
    have hp : 0 < b^k := pow_pos hb k
    rw [digits_succ,digits_succ,List.cons_lt_cons_iff,ih,Nat.mod_pow_succ,Nat.mod_pow_succ,
      Nat.add_comm (n%b^k),Nat.add_comm (m%b^k),mul_add_lt_mul_add_iff (Nat.mod_lt _ hp) (Nat.mod_lt _ hp)]

end Digits

/-- Lists compare lexicographically through a map that reflects the order of
their elements. -/
theorem map_lt_map_iff {α β : Type*} [LT α] [LT β] (f : α → β) (hf : ∀ a a', f a < f a' ↔ a < a')
    (hinj : Function.Injective f) : ∀ l l' : List α, l.map f < l'.map f ↔ l < l'
  | [],[] => by simp [List.not_lt_nil]
  | [],_ :: _ => by simp [List.nil_lt_cons]
  | _ :: _,[] => by simp [List.not_lt_nil]
  | a :: l,a' :: l' => by
    rw [List.map_cons,List.map_cons,List.cons_lt_cons_iff,List.cons_lt_cons_iff,hf,hinj.eq_iff,
      map_lt_map_iff f hf hinj l l']

/-- A field `g < 2 ^ k` placed just below `a`, both shifted up by `s`: the or
of the two is a multiply-and-add. -/
theorem shiftLeft_or_shiftLeft {a g s k : ℕ} (hg : g < 2^k) :
    a <<< (s+k) ||| g <<< s=(a*2^k+g) <<< s := by
  rw [Nat.add_comm s k,Nat.shiftLeft_add,← Nat.shiftLeft_or_distrib,← Nat.shiftLeft_add_eq_or_of_lt hg,
    Nat.shiftLeft_eq a k]

/-! ## Shifting bytes into a bit vector -/

/-- Shifting up by `i` bits and or-ing in a value below `2 ^ i` is a
multiply-and-add, modulo the width: the two have no bit in common. -/
theorem toNat_shiftLeft_or {w i : ℕ} (x : BitVec w) {d : ℕ} (hd : d < 2^i) (hi : i ≤ w) :
    ((x <<< i) ||| BitVec.ofNat w d).toNat=(x.toNat*2^i+d)%2^w := by
  have hdw : d < 2^w := lt_of_lt_of_le hd (Nat.pow_le_pow_right (by norm_num) hi)
  have hand : (x <<< i) &&& BitVec.ofNat w d=0 := by
    ext k hk
    simp only [BitVec.getElem_and,BitVec.getElem_shiftLeft]
    by_cases hki : k < i
    · simp [hki]
    · have hdk : d.testBit k=false :=
        Nat.testBit_lt_two_pow (lt_of_lt_of_le hd (Nat.pow_le_pow_right (by norm_num) (by omega)))
      simp [hki,BitVec.getElem_eq_testBit_toNat,BitVec.toNat_ofNat,Nat.mod_eq_of_lt hdw,hdk]
  rw [← BitVec.add_eq_or_of_and_eq_zero _ _ hand,BitVec.toNat_add,BitVec.toNat_shiftLeft,BitVec.toNat_ofNat,
    Nat.mod_eq_of_lt hdw,Nat.shiftLeft_eq,Nat.mod_add_mod]

/-- Shifting a list of values below `2 ^ i` into a bit vector reads them as
base-`2 ^ i` digits after the bits already there, modulo the width. -/
theorem foldl_shiftLeft_or {w i : ℕ} (hi : i ≤ w) :
    ∀ (ds : List ℕ) (x : BitVec w), (∀ d ∈ ds, d < 2^i) →
      (ds.foldl (fun (v : BitVec w) d => (v <<< i) ||| BitVec.ofNat w d) x).toNat=
        (x.toNat*(2^i)^ds.length+value (2^i) ds)%2^w
  | [],x,_ => by simp [value,Nat.mod_eq_of_lt x.isLt]
  | d :: ds,x,hds => by
    rw [List.foldl_cons,foldl_shiftLeft_or hi ds _ (fun e he => hds e (List.mem_cons_of_mem d he)),
      toNat_shiftLeft_or x (hds d List.mem_cons_self) hi,Nat.add_mod,Nat.mod_mul_mod,← Nat.add_mod,
      value_cons,List.length_cons]
    congr 1
    ring

end Cyberway.BigEndian
