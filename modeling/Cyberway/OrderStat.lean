import Mathlib

/-!
# Order statistics of lists

`orderStat d l i` is the element at position `i` of `l` sorted from low to
high (`d` past the end), that is the `(i+1)`-th smallest element. It does
not depend on the order of `l`; it is at most `v` exactly when more than
`i` elements are at most `v`; so it grows when the elements grow, does not
move when an element at least as large as every other is appended, grows
with `i`, and is bounded by any bound of the elements.
-/

namespace Cyberway.OrderStat

variable {α : Type} [LinearOrder α]

/-- The element at position `i` of `l` sorted from low to high. Every sort
gives the same list; this one sorts by insertion. -/
def orderStat (d : α) (l : List α) (i : ℕ) : α := (l.insertionSort (· ≤ ·)).getD i d

theorem sorted_insertionSort (l : List α) : (l.insertionSort (· ≤ ·)).Pairwise (· ≤ ·) :=
  List.pairwise_insertionSort _ l

theorem insertionSort_length (l : List α) : (l.insertionSort (· ≤ ·)).length=l.length :=
  (List.perm_insertionSort _ l).length_eq

/-- Sorting forgets the order of the elements. -/
theorem insertionSort_eq_of_perm {l l' : List α} (h : l.Perm l') :
    l.insertionSort (· ≤ ·)=l'.insertionSort (· ≤ ·) :=
  List.Perm.eq_of_pairwise' (sorted_insertionSort l) (sorted_insertionSort l')
    (((List.perm_insertionSort _ l).trans h).trans (List.perm_insertionSort _ l').symm)

theorem orderStat_perm {l l' : List α} (h : l.Perm l') (d : α) (i : ℕ) :
    orderStat d l i=orderStat d l' i := by
  rw [orderStat,orderStat,insertionSort_eq_of_perm h]

/-- In a sorted list, the element at `i` is at most `v` exactly when more
than `i` elements are at most `v`. -/
theorem sorted_getD_le_iff {s : List α} (hs : s.Pairwise (· ≤ ·)) {i : ℕ} (hi : i < s.length)
    (d v : α) : s.getD i d ≤ v ↔ i < s.countP (fun x => decide (x ≤ v)) := by
  induction s generalizing i with
  | nil => simp at hi
  | cons x t ih =>
    rw [List.pairwise_cons] at hs
    obtain ⟨hx,ht⟩ := hs
    rw [List.countP_cons]
    by_cases hxv : x ≤ v
    · cases i with
      | zero => simp [hxv]
      | succ j =>
        simp only [List.getD_cons_succ,hxv,decide_true,if_true]
        rw [ih ht (by simpa using hi)]
        omega
    · have hnone : t.countP (fun y => decide (y ≤ v))=0 := by
        rw [List.countP_eq_zero]
        intro y hy
        have := hx y hy
        simp only [decide_eq_true_eq]
        exact fun hyv => hxv (le_trans this hyv)
      have hge : x ≤ (x::t).getD i d := by
        cases i with
        | zero => exact le_refl x
        | succ j =>
          have hj : j < t.length := by simpa using hi
          rw [List.getD_cons_succ,List.getD_eq_getElem _ _ hj]
          exact hx _ (List.getElem_mem hj)
      simp only [hnone,hxv,decide_false,Bool.false_eq_true,if_false,Nat.add_zero]
      constructor
      · intro h
        exact absurd (le_trans hge h) hxv
      · intro h
        omega

/-- The element at position `i` is at most `v` exactly when more than `i`
elements of the list are at most `v`. -/
theorem orderStat_le_iff {l : List α} {i : ℕ} (hi : i < l.length) (d v : α) :
    orderStat d l i ≤ v ↔ i < l.countP (fun x => decide (x ≤ v)) := by
  rw [orderStat,sorted_getD_le_iff (sorted_insertionSort l) (by rwa [insertionSort_length]) d v,
    (List.perm_insertionSort _ l).countP_eq]

/-- Raising elements lowers the count of those at most `v`. -/
theorem countP_le_of_forall₂ {l l' : List α} (h : List.Forall₂ (· ≤ ·) l l') (v : α) :
    l'.countP (fun x => decide (x ≤ v)) ≤ l.countP (fun x => decide (x ≤ v)) := by
  induction h with
  | nil => rfl
  | @cons x x' t t' hxx' _ ih =>
    rw [List.countP_cons,List.countP_cons]
    by_cases hx' : x' ≤ v
    · simp [hx',le_trans hxx' hx']
      exact ih
    · simp only [hx',decide_false,Bool.false_eq_true,if_false,Nat.add_zero]
      exact le_trans ih (Nat.le_add_right _ _)

/-- Raising elements raises every order statistic. -/
theorem orderStat_mono {l l' : List α} (h : List.Forall₂ (· ≤ ·) l l') {i : ℕ} (hi : i < l.length)
    (d : α) : orderStat d l i ≤ orderStat d l' i := by
  have hi' : i < l'.length := h.length_eq ▸ hi
  -- the statistic of `l'` has more than `i` elements of `l'` below it, so of `l`
  have hcount := (orderStat_le_iff hi' d (orderStat d l' i)).mp le_rfl
  exact (orderStat_le_iff hi d _).mpr (lt_of_lt_of_le hcount (countP_le_of_forall₂ h _))

/-- Appending an element at least as large as every other leaves the
statistics below the old length alone. -/
theorem orderStat_append_max {l : List α} {v : α} (hv : ∀ x ∈ l, x ≤ v) {i : ℕ}
    (hi : i < l.length) (d : α) : orderStat d (l++[v]) i=orderStat d l i := by
  have hsorted : (l.insertionSort (· ≤ ·)++[v]).Pairwise (· ≤ ·) := by
    rw [List.pairwise_append]
    refine ⟨sorted_insertionSort l,by simp,fun x hx y hy => ?_⟩
    rw [List.mem_singleton] at hy
    subst hy
    exact hv x ((List.perm_insertionSort _ l).subset hx)
  have hperm : (l++[v]).insertionSort (· ≤ ·)=l.insertionSort (· ≤ ·)++[v] :=
    List.Perm.eq_of_pairwise' (sorted_insertionSort _) hsorted
      ((List.perm_insertionSort _ _).trans ((List.perm_insertionSort _ l).symm.append_right [v]))
  rw [orderStat,orderStat,hperm,List.getD_append _ _ _ _ (by rwa [insertionSort_length])]

/-- Order statistics grow with the position. -/
theorem orderStat_le_orderStat {l : List α} {i j : ℕ} (hij : i ≤ j) (hj : j < l.length) (d : α) :
    orderStat d l i ≤ orderStat d l j := by
  have hj' : j < (l.insertionSort (· ≤ ·)).length := by rwa [insertionSort_length]
  rw [orderStat,orderStat,List.getD_eq_getElem _ _ (lt_of_le_of_lt hij hj'),
    List.getD_eq_getElem _ _ hj']
  rcases Nat.lt_or_eq_of_le hij with hlt | rfl
  · exact List.pairwise_iff_getElem.mp (sorted_insertionSort l) i j _ hj' hlt
  · exact le_rfl

/-- A bound of every element bounds every order statistic. -/
theorem orderStat_le_of_forall_le {l : List α} {b : α} (hb : ∀ x ∈ l, x ≤ b) {i : ℕ}
    (hi : i < l.length) (d : α) : orderStat d l i ≤ b := by
  have hi' : i < (l.insertionSort (· ≤ ·)).length := by rwa [insertionSort_length]
  rw [orderStat,List.getD_eq_getElem _ _ hi']
  exact hb _ ((List.perm_insertionSort _ l).subset (List.getElem_mem hi'))

end Cyberway.OrderStat
