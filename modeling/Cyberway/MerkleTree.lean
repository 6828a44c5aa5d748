import Mathlib.Data.Nat.Log
import Mathlib.Algebra.Group.Nat.Even
import Mathlib.Tactic.Positivity

/-!
# Merkle trees over a list, odd levels padded

The levels of a binary Merkle tree whose leaves are a list: each level
hashes the nodes of the one below in pairs, and a last node without a
partner is hashed with itself. This file gives the width of each level,
each node in terms of the two below it, that the nodes above a block of
leaves whose number is a multiple of `2 ^ k` do not depend on what follows
the block, and that level `clog 2 n` holds the single root.
-/

namespace Cyberway.MerkleTree

variable {D : Type} (f : D → D → D)

/-- The level above: the nodes hashed in pairs, a last node without a
partner hashed with itself. -/
def up : List D → List D
  | [] => []
  | [a] => [f a a]
  | a :: b :: rest => f a b :: up rest

/-- The nodes `k` levels above the leaves. -/
def level (leaves : List D) : ℕ → List D
  | 0 => leaves
  | k+1 => up f (level leaves k)

@[simp] theorem level_zero (leaves : List D) : level f leaves 0=leaves := rfl

@[simp] theorem level_succ (leaves : List D) (k : ℕ) : level f leaves (k+1)=up f (level f leaves k) := rfl

/-- The levels above the level above are the levels one higher. -/
theorem level_up (leaves : List D) : ∀ k,level f (up f leaves) k=level f leaves (k+1)
  | 0 => rfl
  | k+1 => by
    rw [level_succ,level_up leaves k]
    rfl

theorem length_up : ∀ l : List D,(up f l).length=(l.length+1)/2
  | [] => by simp [up]
  | [_] => by simp [up]
  | _ :: _ :: rest => by
    rw [up,List.length_cons,length_up rest,List.length_cons,List.length_cons]
    omega

/-- The node `p` of the level above is the pair at `2p`, or the node at `2p`
hashed with itself when it has no partner. -/
theorem getElem?_up : ∀ (l : List D) (p : ℕ),(up f l)[p]?=l[2*p]?.map fun a => f a (l[2*p+1]?.getD a)
  | [],_ => rfl
  | [_],0 => rfl
  | [_],p+1 => by simp [up]
  | _ :: _ :: _,0 => rfl
  | _ :: _ :: rest,p+1 => by
    rw [up,List.getElem?_cons_succ,getElem?_up rest p,show 2*(p+1)=2*p+1+1 by omega]
    simp only [List.getElem?_cons_succ]

/-- A block of even length is paired on its own. -/
theorem up_append : ∀ (l₁ l₂ : List D),Even l₁.length → up f (l₁++l₂)=up f l₁++up f l₂
  | [],_,_ => rfl
  | [_],_,h => by simp at h
  | a :: b :: rest,l₂,h => by
    have hrest : Even rest.length := by
      rw [List.length_cons,List.length_cons,Nat.even_add_one,Nat.even_add_one,not_not] at h
      exact h
    rw [List.cons_append,List.cons_append,up,up,up_append rest l₂ hrest,List.cons_append]

/-- Above a block of `2 ^ k`-divisible length, each level has its exact share. -/
theorem length_level_of_dvd {L : List D} {k : ℕ} (h : 2^k ∣ L.length) : (level f L k).length=L.length/2^k := by
  induction k with
  | zero => simp
  | succ k ih =>
    have hk : 2^k ∣ L.length := (pow_dvd_pow 2 (Nat.le_succ k)).trans h
    obtain ⟨c,hc⟩ := h
    have hpos : 0 < 2^k := by positivity
    have h₁ : L.length/2^k=2*c := by
      rw [hc,pow_succ,mul_assoc,Nat.mul_div_cancel_left _ hpos]
    have h₂ : L.length/2^(k+1)=c := by
      rw [hc,Nat.mul_div_cancel_left _ (by positivity)]
    rw [level_succ,length_up,ih hk,h₁,h₂]
    omega

/-- The levels above a block of `2 ^ k`-divisible length are those of the
block followed by those of the rest. -/
theorem level_append {L : List D} (M : List D) {k : ℕ} (h : 2^k ∣ L.length) :
    level f (L++M) k=level f L k++level f M k := by
  induction k with
  | zero => rfl
  | succ k ih =>
    have hk : 2^k ∣ L.length := (pow_dvd_pow 2 (Nat.le_succ k)).trans h
    -- level `k` of the block has an even number of nodes
    have heven : Even (level f L k).length := by
      rw [length_level_of_dvd f hk]
      obtain ⟨c,hc⟩ := h
      have hpos : 0 < 2^k := by positivity
      rw [hc,pow_succ,mul_assoc,Nat.mul_div_cancel_left _ hpos]
      exact even_two_mul c
    rw [level_succ,ih hk,up_append f _ _ heven]
    rfl

/-- The width of level `k`: the leaves divided by `2 ^ k`, rounded up. -/
theorem length_level (L : List D) (k : ℕ) : (level f L k).length=(L.length+2^k-1)/2^k := by
  induction k with
  | zero => simp
  | succ k ih =>
    have hpos : 0 < 2^k := by positivity
    rw [level_succ,length_up,ih,pow_succ,← Nat.div_div_eq_div_mul]
    congr 1
    rw [← Nat.add_div_right _ hpos]
    congr 1
    omega

/-- A node whose leaves all lie in `L` is the same whatever follows `L`. -/
theorem getElem?_level_append {L : List D} (M : List D) {k p : ℕ} (hp : (p+1)*2^k ≤ L.length) :
    (level f (L++M) k)[p]?=(level f L k)[p]? := by
  have hblock : 2^k ∣ (L.take ((p+1)*2^k)).length := by
    rw [List.length_take_of_le hp]
    exact Dvd.intro_left _ rfl
  have hlen : p < (level f (L.take ((p+1)*2^k)) k).length := by
    rw [length_level_of_dvd f hblock,List.length_take_of_le hp,Nat.mul_div_cancel _ (by positivity)]
    exact p.lt_add_one
  have hL : L=L.take ((p+1)*2^k)++L.drop ((p+1)*2^k) := (List.take_append_drop _ L).symm
  rw [hL,List.append_assoc,level_append f _ hblock,level_append f _ hblock,List.getElem?_append_left hlen,
    List.getElem?_append_left hlen]

/-- Level `clog 2 n` of `n ≥ 1` leaves is the root alone. -/
theorem length_level_clog {L : List D} (hL : L≠[]) : (level f L (Nat.clog 2 L.length)).length=1 := by
  have hpos : 0 < L.length := List.length_pos_iff.mpr hL
  have hle : L.length ≤ 2^Nat.clog 2 L.length := Nat.le_pow_clog (by norm_num) _
  have hpow : 0 < 2^Nat.clog 2 L.length := by positivity
  rw [length_level]
  exact Nat.div_eq_of_lt_le (by omega) (by omega)

/-! ## Counting in binary

Appending leaf `n` walks up its index as a binary counter: at level `j` the
node above it is number `n / 2 ^ j`, and the carry of `n + 1` reaches level
`j` when the bits below `j` of `n` are all set. -/

theorem testBit_iff_div_mod {n j : ℕ} : n.testBit j=true ↔ n/2^j % 2=1 := by
  rw [Nat.testBit_eq_decide_div_mod_eq,decide_eq_true_iff]

theorem div_two_pow_succ (n j : ℕ) : n/2^(j+1)=n/2^j/2 := by
  rw [Nat.pow_succ,Nat.div_div_eq_div_mul]

theorem succ_div_two_pow_of_mod_ne {n j : ℕ} (h : n % 2^j≠2^j-1) : (n+1)/2^j=n/2^j := by
  have hP : 0 < 2^j := Nat.two_pow_pos j
  have hlt : n % 2^j+1 < 2^j := by
    have := Nat.mod_lt n hP
    omega
  have hn : n+1=(n % 2^j+1)+2^j*(n/2^j) := by
    have := Nat.mod_add_div n (2^j)
    omega
  rw [hn,Nat.add_mul_div_left _ _ hP,Nat.div_eq_of_lt hlt,Nat.zero_add]

theorem succ_div_two_pow_of_mod_eq {n j : ℕ} (h : n % 2^j=2^j-1) : (n+1)/2^j=n/2^j+1 := by
  have hP : 0 < 2^j := Nat.two_pow_pos j
  have hn : n+1=2^j+2^j*(n/2^j) := by
    have := Nat.mod_add_div n (2^j)
    omega
  rw [hn,Nat.add_mul_div_left _ _ hP,Nat.div_self hP,Nat.add_comm]

theorem testBit_succ_of_mod_ne {n j : ℕ} (h : n % 2^j≠2^j-1) : (n+1).testBit j=n.testBit j := by
  rw [Nat.testBit_eq_decide_div_mod_eq,Nat.testBit_eq_decide_div_mod_eq,succ_div_two_pow_of_mod_ne h]

/-- A carry into bit `j` flips it. -/
theorem testBit_succ_of_mod_eq {n j : ℕ} (h : n % 2^j=2^j-1) : (n+1).testBit j=!n.testBit j := by
  rw [Nat.testBit_eq_decide_div_mod_eq,Nat.testBit_eq_decide_div_mod_eq,succ_div_two_pow_of_mod_eq h]
  rcases Nat.mod_two_eq_zero_or_one (n/2^j) with hq | hq <;> simp [Nat.add_mod,hq]

/-- The bits below `j + 1` are all set when those below `j` and bit `j` are. -/
theorem mod_two_pow_succ_eq_iff {n j : ℕ} : n % 2^(j+1)=2^(j+1)-1 ↔ n % 2^j=2^j-1 ∧ n/2^j % 2=1 := by
  have hlt := Nat.mod_lt n (Nat.two_pow_pos j)
  rw [Nat.mod_pow_succ,Nat.pow_succ]
  rcases Nat.mod_two_eq_zero_or_one (n/2^j) with h | h <;> rw [h] <;> omega

/-- One more leaf after a power of two needs one more level. -/
theorem clog_succ_of_eq_two_pow {n : ℕ} (h : n=2^Nat.clog 2 n) : Nat.clog 2 (n+1)=Nat.clog 2 n+1 := by
  apply le_antisymm
  · apply Nat.clog_le_of_le_pow
    rw [Nat.pow_succ]
    have := Nat.one_le_two_pow (n := Nat.clog 2 n)
    omega
  · exact (Nat.lt_clog_iff_pow_lt (by decide)).mpr (by omega)

/-- One more leaf below a power of two needs no more levels. -/
theorem clog_succ_of_ne_two_pow {n : ℕ} (h : n≠2^Nat.clog 2 n) : Nat.clog 2 (n+1)=Nat.clog 2 n := by
  apply le_antisymm
  · apply Nat.clog_le_of_le_pow
    have := Nat.le_pow_clog (by decide : 1 < 2) n
    omega
  · exact Nat.clog_mono_right 2 (Nat.le_succ n)

/-! ## The left neighbours of the next leaf

The roots of complete subtrees just left of leaf `n`: at level `i` when bit
`i` of `n` is set, the node before the one above leaf `n`. These are the
nodes that leaf `n` is paired with on its way up, and together with the
node above it at each level they give the levels of `n + 1` leaves. -/

/-- The root of the complete subtree just left of leaf `n` at level `i`,
when bit `i` of `n` is set. -/
def leftAt (leaves : List D) (n i : ℕ) : Option D :=
  if n.testBit i then (level f leaves i)[n/2^i-1]? else none

/-- The roots `leftAt` at the levels `lo ≤ i < hi`, lowest first. -/
def lefts (leaves : List D) (n lo hi : ℕ) : List D :=
  (List.range' lo (hi-lo)).filterMap (leftAt f leaves n)

@[simp] theorem lefts_self (leaves : List D) (n lo : ℕ) : lefts f leaves n lo lo=[] := by
  simp [lefts]

theorem lefts_eq_cons (leaves : List D) (n : ℕ) {lo hi : ℕ} (h : lo < hi) :
    lefts f leaves n lo hi=(leftAt f leaves n lo).toList++lefts f leaves n (lo+1) hi := by
  rw [lefts,show hi-lo=hi-(lo+1)+1 by omega,List.range'_succ,List.filterMap_cons,lefts]
  cases leftAt f leaves n lo <;> rfl

theorem lefts_succ (leaves : List D) (n : ℕ) {lo hi : ℕ} (h : lo ≤ hi) :
    lefts f leaves n lo (hi+1)=lefts f leaves n lo hi++(leftAt f leaves n hi).toList := by
  rw [lefts,lefts,show hi+1-lo=hi-lo+1 by omega,List.range'_concat,List.filterMap_append,
    show lo+1*(hi-lo)=hi by omega]
  cases h : leftAt f leaves n hi <;> simp [h]

theorem leftAt_of_testBit_false {leaves : List D} {n i : ℕ} (h : n.testBit i=false) : leftAt f leaves n i=none := by
  rw [leftAt,h]
  rfl

theorem testBit_of_leftAt {leaves : List D} {n i : ℕ} {left : D} (h : leftAt f leaves n i=some left) :
    n.testBit i=true := by
  unfold leftAt at h
  split_ifs at h with hb
  exact hb

/-- A set bit of the number of leaves has its complete subtree. -/
theorem exists_leftAt {L : List D} {j : ℕ} (h : L.length.testBit j=true) : ∃ left,leftAt f L L.length j=some left := by
  have hodd := testBit_iff_div_mod.mp h
  have hP : 0 < 2^j := Nat.two_pow_pos j
  have hlen : L.length/2^j-1 < (level f L j).length := by
    rw [length_level]
    have := Nat.div_le_div_right (c := 2^j) (show L.length ≤ L.length+2^j-1 by omega)
    generalize L.length/2^j = q at hodd this
    omega
  rw [leftAt,if_pos h,List.getElem?_eq_getElem hlen]
  exact ⟨_,rfl⟩

/-- Below the bit of a power of two there is nothing to the left. -/
theorem lefts_of_eq_two_pow (leaves : List D) {n c : ℕ} (h : n=2^c) : lefts f leaves n 0 c=[] := by
  rw [lefts,List.filterMap_eq_nil_iff]
  intro i hi
  rw [List.mem_range'_1] at hi
  rw [leftAt,h,Nat.testBit_two_pow,if_neg (by simp; omega)]

/-- At the bit of a power of two, the whole tree is to the left. -/
theorem leftAt_of_eq_two_pow (leaves : List D) {n c : ℕ} (h : n=2^c) : leftAt f leaves n c=(level f leaves c)[0]? := by
  rw [leftAt,h,Nat.testBit_two_pow,if_pos (decide_eq_true rfl),Nat.div_self (Nat.two_pow_pos c)]

/-! ### One more leaf -/

section Snoc

variable {L : List D} (d : D)

/-- With one more leaf, level `j` has one node more than the complete ones. -/
theorem length_level_append_singleton (j : ℕ) : (level f (L++[d]) j).length=L.length/2^j+1 := by
  have hP : 0 < 2^j := Nat.two_pow_pos j
  rw [length_level,List.length_append,List.length_singleton,show L.length+1+2^j-1=L.length+2^j*1 by omega,
    Nat.add_mul_div_left _ _ hP]

/-- The complete nodes of a level do not depend on the new leaf. -/
theorem getElem?_level_append_singleton {j p : ℕ} (hp : p < L.length/2^j) :
    (level f (L++[d]) j)[p]?=(level f L j)[p]? := by
  apply getElem?_level_append f [d]
  have h₁ := Nat.div_mul_le_self L.length (2^j)
  have h₂ := Nat.mul_le_mul_right (2^j) (show p+1 ≤ L.length/2^j by omega)
  omega

/-- The left neighbours of leaf `n + 1` at a level the carry does not reach
are those of leaf `n`. -/
theorem leftAt_succ_of_mod_ne {j : ℕ} (h : L.length % 2^j≠2^j-1) :
    leftAt f (L++[d]) (L.length+1) j=leftAt f L L.length j := by
  unfold leftAt
  rw [testBit_succ_of_mod_ne h,succ_div_two_pow_of_mod_ne h]
  split_ifs with hb
  · apply getElem?_level_append_singleton f d
    have hodd := testBit_iff_div_mod.mp hb
    generalize L.length/2^j = q at hodd
    omega
  · rfl

/-- Where the carry reaches level `j`, leaf `n + 1` has a left neighbour
there exactly when leaf `n` has none: the node above leaf `n`. -/
theorem leftAt_succ_of_mod_eq {j : ℕ} (h : L.length % 2^j=2^j-1) :
    leftAt f (L++[d]) (L.length+1) j=if L.length.testBit j then none else (level f (L++[d]) j)[L.length/2^j]? := by
  unfold leftAt
  rw [testBit_succ_of_mod_eq h,succ_div_two_pow_of_mod_eq h,Nat.add_sub_cancel]
  cases L.length.testBit j <;> rfl

/-- The node above the new leaf when it is a left child: hashed with itself. -/
theorem getElem?_level_succ_of_even {top : D} {j : ℕ} (he : L.length/2^j % 2=0)
    (htop : (level f (L++[d]) j)[L.length/2^j]?=some top) :
    (level f (L++[d]) (j+1))[L.length/2^(j+1)]?=some (f top top) := by
  have hp : 2*(L.length/2^(j+1))=L.length/2^j := by
    rw [div_two_pow_succ]
    generalize L.length/2^j = q at he
    omega
  have hnone : (level f (L++[d]) j)[L.length/2^j+1]?=none :=
    List.getElem?_eq_none (by rw [length_level_append_singleton])
  rw [level_succ,getElem?_up,hp,htop,hnone]
  rfl

/-- The node above the new leaf when it is a right child: its left
neighbour hashed with it. -/
theorem getElem?_level_succ_of_odd {left top : D} {j : ℕ} (hleft : leftAt f L L.length j=some left)
    (htop : (level f (L++[d]) j)[L.length/2^j]?=some top) :
    (level f (L++[d]) (j+1))[L.length/2^(j+1)]?=some (f left top) := by
  have hodd := testBit_iff_div_mod.mp (testBit_of_leftAt f hleft)
  have hq : 0 < L.length/2^j := by
    generalize L.length/2^j = q at hodd
    omega
  have hp : 2*(L.length/2^(j+1))=L.length/2^j-1 := by
    rw [div_two_pow_succ]
    generalize L.length/2^j = q at hodd
    omega
  have hleft' : (level f (L++[d]) j)[L.length/2^j-1]?=some left := by
    rw [getElem?_level_append_singleton f d (p := L.length/2^j-1) (by omega)]
    rwa [leftAt,if_pos (testBit_of_leftAt f hleft)] at hleft
  rw [level_succ,getElem?_up,hp,hleft',Nat.sub_add_cancel hq,htop]
  rfl

end Snoc

end Cyberway.MerkleTree
