import Mathlib

/-!
# Flat maps

A `boost::container::flat_map` keeps its pairs in a vector sorted by key,
each key once; `Map` carries that invariant. `assign m k v` is
`m[k] = v`: the pair of key `k` takes the value, or a new pair goes in at
its place in key order. Its values are those of `m` with one of them
replaced by `v`, or those of `m` and `v` in some order.
-/

namespace Cyberway.FlatMap

variable {α β : Type} [LinearOrder α]

/-- A `flat_map`: pairs sorted by strictly increasing key. -/
structure Map (α β : Type) [LinearOrder α] where
  /-- The pairs, in key order. -/
  toList : List (α × β)
  /-- Keys strictly increase, so each occurs once. -/
  sorted : toList.Pairwise fun a b => a.1 < b.1

/-- `operator[]` on the vector of pairs, followed by an assignment: walk up
to the first key not below `k`; replace its value if it is `k`, otherwise
insert `(k, v)` before it. -/
def assignList : List (α × β) → α → β → List (α × β)
  | [],k,v => [(k,v)]
  | p::rest,k,v =>
    if k<p.1 then (k,v)::p::rest
    else if k=p.1 then (k,v)::rest
    else p::assignList rest k v

theorem mem_assignList {l : List (α × β)} {k : α} {v : β} {q : α × β} (h : q ∈ assignList l k v) :
    q ∈ l ∨ q=(k,v) := by
  induction l with
  | nil => simp_all [assignList]
  | cons p rest ih =>
    simp only [assignList] at h
    split_ifs at h
    · rcases List.mem_cons.mp h with rfl | h
      · exact .inr rfl
      · exact .inl h
    · rcases List.mem_cons.mp h with rfl | h
      · exact .inr rfl
      · exact .inl (List.mem_cons_of_mem p h)
    · rcases List.mem_cons.mp h with rfl | h
      · exact .inl List.mem_cons_self
      · rcases ih h with h | h
        · exact .inl (List.mem_cons_of_mem p h)
        · exact .inr h

theorem assignList_sorted {l : List (α × β)} (hl : l.Pairwise fun a b => a.1 < b.1) (k : α) (v : β) :
    (assignList l k v).Pairwise fun a b => a.1 < b.1 := by
  induction l with
  | nil => simp [assignList]
  | cons p rest ih =>
    rw [List.pairwise_cons] at hl
    obtain ⟨hp,hrest⟩ := hl
    simp only [assignList]
    split_ifs with hlt heq
    · refine List.Pairwise.cons (fun q hq => ?_) (List.Pairwise.cons hp hrest)
      rcases List.mem_cons.mp hq with rfl | hq
      · exact hlt
      · exact lt_trans hlt (hp q hq)
    · exact List.Pairwise.cons (fun q hq => heq ▸ hp q hq) hrest
    · refine List.Pairwise.cons (fun q hq => ?_) (ih hrest)
      rcases mem_assignList hq with hq | rfl
      · exact hp q hq
      · exact lt_of_le_of_ne (not_lt.mp hlt) (Ne.symm heq)

/-- Assigning a key that is not there puts its pair in. -/
theorem assignList_perm {l : List (α × β)} {k : α} (hk : k ∉ l.map (·.1)) (v : β) :
    (assignList l k v).Perm ((k,v) :: l) := by
  induction l with
  | nil => exact List.Perm.refl _
  | cons p rest ih =>
    have hne : k≠p.1 := fun h => hk (h ▸ List.mem_cons_self)
    have hrest : k ∉ rest.map (·.1) := fun h => hk (List.mem_cons_of_mem _ h)
    simp only [assignList]
    split_ifs with hlt
    · exact List.Perm.refl _
    · exact ((ih hrest).cons p).trans (List.Perm.swap _ _ _)

/-- In a sorted list, `find` returns the pair of each key. -/
theorem find?_of_mem_sorted {l : List (α × β)} (hl : l.Pairwise fun a b => a.1 < b.1) {q : α × β} (hq : q ∈ l) :
    l.find? (fun p => p.1=q.1)=some q := by
  induction l with
  | nil => simp at hq
  | cons p rest ih =>
    rw [List.pairwise_cons] at hl
    rcases List.mem_cons.mp hq with rfl | hq
    · simp
    · have hne : p.1≠q.1 := ne_of_lt (hl.1 q hq)
      rw [List.find?_cons_of_neg (by simpa using hne)]
      exact ih hl.2 hq

/-- Assigning a key that is there replaces its value where it stands. -/
theorem assignList_of_find? {l : List (α × β)} (hl : l.Pairwise fun a b => a.1 < b.1) {k : α} {v₀ : β}
    (h : (l.find? fun p => p.1=k).map (·.2)=some v₀) (v : β) :
    ∃ i,∃ hi : i < (l.map (·.2)).length,(l.map (·.2))[i]=v₀ ∧ (assignList l k v).map (·.2)=(l.map (·.2)).set i v := by
  induction l with
  | nil => simp at h
  | cons p rest ih =>
    rw [List.pairwise_cons] at hl
    by_cases hk : p.1=k
    · rw [List.find?_cons_of_pos (by simpa using hk),Option.map_some,Option.some_inj] at h
      refine ⟨0,by simp,by simp [h],?_⟩
      simp [assignList,hk]
    · rw [List.find?_cons_of_neg (by simpa using hk)] at h
      have hlt : ¬k<p.1 := by
        intro hlt
        obtain ⟨q,hq,-⟩ := Option.map_eq_some_iff.mp h
        have hqk : q.1=k := by simpa using List.find?_some hq
        exact absurd (hl.1 q (List.mem_of_find?_eq_some hq)) (by rw [hqk]; exact lt_asymm hlt)
      obtain ⟨i,hi,hget,hset⟩ := ih hl.2 h
      refine ⟨i+1,by simpa using hi,by simpa using hget,?_⟩
      simp [assignList,hlt,Ne.symm hk,hset]

/-- `find` after `m[k] = v` sees the new value at `k`. -/
theorem find?_assignList_self (l : List (α × β)) (k : α) (v : β) :
    ((assignList l k v).find? fun p => p.1=k).map (·.2)=some v := by
  induction l with
  | nil => simp [assignList]
  | cons p rest ih =>
    simp only [assignList]
    split_ifs with hlt heq
    · simp
    · simp
    · rw [List.find?_cons_of_neg (by simpa [eq_comm] using heq)]
      exact ih

/-- `find` after `m[k] = v` sees the old value at every other key. -/
theorem find?_assignList_of_ne (l : List (α × β)) (k : α) (v : β) {k' : α} (hk : k'≠k) :
    ((assignList l k v).find? fun p => p.1=k').map (·.2)=(l.find? fun p => p.1=k').map (·.2) := by
  induction l with
  | nil => simp [assignList,Ne.symm hk]
  | cons p rest ih =>
    simp only [assignList]
    split_ifs with hlt heq
    · rw [List.find?_cons_of_neg (by simpa using Ne.symm hk)]
    · rw [List.find?_cons_of_neg (by simpa using Ne.symm hk),List.find?_cons_of_neg (by simpa [← heq] using Ne.symm hk)]
    · by_cases hp : p.1=k'
      · rw [List.find?_cons_of_pos (by simpa using hp),List.find?_cons_of_pos (by simpa using hp)]
      · rw [List.find?_cons_of_neg (by simpa using hp),List.find?_cons_of_neg (by simpa using hp),ih]

/-- Adding `g` over the pairs after `m[k] = v`, for a key that holds `v₀`:
`g (k, v₀)` out, `g (k, v)` in. -/
theorem sum_assignList {M : Type} [AddCommMonoid M] (g : α × β → M) {l : List (α × β)}
    (hl : l.Pairwise fun a b => a.1 < b.1) {k : α} {v₀ : β} (h : (l.find? fun p => p.1=k).map (·.2)=some v₀)
    (v : β) : ((assignList l k v).map g).sum+g (k,v₀)=(l.map g).sum+g (k,v) := by
  induction l with
  | nil => simp at h
  | cons p rest ih =>
    rw [List.pairwise_cons] at hl
    by_cases hk : p.1=k
    · rw [List.find?_cons_of_pos (by simpa using hk),Option.map_some,Option.some_inj] at h
      have hp : p=(k,v₀) := by rw [← hk,← h]
      simp only [assignList,lt_irrefl,if_false,if_true,List.map_cons,List.sum_cons,hp]
      abel
    · rw [List.find?_cons_of_neg (by simpa using hk)] at h
      have hlt : ¬k<p.1 := by
        intro hlt
        obtain ⟨q,hq,-⟩ := Option.map_eq_some_iff.mp h
        have hqk : q.1=k := by simpa using List.find?_some hq
        exact absurd (hl.1 q (List.mem_of_find?_eq_some hq)) (by rw [hqk]; exact lt_asymm hlt)
      simp only [assignList,hlt,Ne.symm hk,if_false,List.map_cons,List.sum_cons]
      rw [add_assoc,ih hl.2 h,← add_assoc]

/-- `find` after removing the pairs of key `k`. -/
theorem find?_filter_ne (l : List (α × β)) (k k' : α) :
    ((l.filter fun p => p.1≠k).find? fun p => p.1=k').map (·.2)=
      if k'=k then none else (l.find? fun p => p.1=k').map (·.2) := by
  induction l with
  | nil => simp
  | cons p rest ih =>
    by_cases hp : p.1=k
    · rw [List.filter_cons_of_neg (by simpa using hp),ih]
      by_cases hk : k'=k
      · rw [if_pos hk,if_pos hk]
      · rw [if_neg hk,if_neg hk,List.find?_cons_of_neg (by simp [hp,Ne.symm hk])]
    · rw [List.filter_cons_of_pos (by simpa using hp)]
      by_cases hpk : p.1=k'
      · have hk : k'≠k := hpk ▸ hp
        rw [List.find?_cons_of_pos (by simpa using hpk),List.find?_cons_of_pos (by simpa using hpk),if_neg hk]
      · rw [List.find?_cons_of_neg (by simpa using hpk),List.find?_cons_of_neg (by simpa using hpk),ih]

/-- Adding `g` over the pairs without those of key `k`, in a sorted list
where `k` holds `v₀`: `g (k, v₀)` less. -/
theorem sum_filter_ne {M : Type} [AddCommMonoid M] (g : α × β → M) {l : List (α × β)}
    (hl : l.Pairwise fun a b => a.1 < b.1) {k : α} {v₀ : β} (h : (l.find? fun p => p.1=k).map (·.2)=some v₀) :
    ((l.filter fun p => p.1≠k).map g).sum+g (k,v₀)=(l.map g).sum := by
  induction l with
  | nil => simp at h
  | cons p rest ih =>
    rw [List.pairwise_cons] at hl
    by_cases hk : p.1=k
    · rw [List.find?_cons_of_pos (by simpa using hk),Option.map_some,Option.some_inj] at h
      have hp : p=(k,v₀) := by rw [← hk,← h]
      have hrest : rest.filter (fun q => q.1≠k)=rest :=
        List.filter_eq_self.mpr fun q hq => by simpa [← hk] using ne_of_gt (hl.1 q hq)
      rw [List.filter_cons_of_neg (by simpa using hk),hrest,List.map_cons,List.sum_cons,hp,add_comm]
    · rw [List.find?_cons_of_neg (by simpa using hk)] at h
      rw [List.filter_cons_of_pos (by simpa using hk),List.map_cons,List.sum_cons,List.map_cons,
        List.sum_cons,add_assoc,ih hl.2 h]

/-- In a sorted list, the pairs of key `k` are the one that `find` returns. -/
theorem filter_key_eq_find? {l : List (α × β)} (hl : l.Pairwise fun a b => a.1 < b.1) (k : α) :
    l.filter (fun p => p.1=k)=(l.find? fun p => p.1=k).toList := by
  induction l with
  | nil => rfl
  | cons p rest ih =>
    rw [List.pairwise_cons] at hl
    by_cases hk : p.1=k
    · -- the keys after `p` are above `k`
      have hrest : rest.filter (fun q => q.1=k)=[] :=
        List.filter_eq_nil_iff.mpr fun q hq => by simpa [← hk] using ne_of_gt (hl.1 q hq)
      rw [List.filter_cons_of_pos (by simpa using hk),List.find?_cons_of_pos (by simpa using hk),hrest]
      rfl
    · rw [List.filter_cons_of_neg (by simpa using hk),List.find?_cons_of_neg (by simpa using hk),ih hl.2]

namespace Map

/-- The empty map. -/
def empty : Map α β := ⟨[],.nil⟩

/-- `m[k] = v`. -/
def assign (m : Map α β) (k : α) (v : β) : Map α β :=
  ⟨assignList m.toList k v,assignList_sorted m.sorted k v⟩

/-- `find`: the value of key `k`, if any. -/
def find? (m : Map α β) (k : α) : Option β := (m.toList.find? fun p => p.1=k).map (·.2)

/-- The values in key order, as iterating the map yields them. -/
def values (m : Map α β) : List β := m.toList.map (·.2)

/-- The keys in order. -/
def keys (m : Map α β) : List α := m.toList.map (·.1)

/-- Every value changed by `f`, as a loop over the pairs does it. -/
def mapValues (f : β → β) (m : Map α β) : Map α β :=
  ⟨m.toList.map fun q => (q.1,f q.2),List.pairwise_map.mpr m.sorted⟩

@[simp] theorem values_mapValues (f : β → β) (m : Map α β) : (m.mapValues f).values=m.values.map f := by
  simp [values,mapValues]

@[simp] theorem keys_empty : (empty : Map α β).keys=[] := rfl

/-- A value of the map is what `find` returns for some key. -/
theorem mem_values_iff {m : Map α β} {v : β} : v ∈ m.values ↔ ∃ k,m.find? k=some v := by
  constructor
  · intro hv
    obtain ⟨q,hq,rfl⟩ := List.mem_map.mp hv
    exact ⟨q.1,by rw [find?,find?_of_mem_sorted m.sorted hq]; rfl⟩
  · rintro ⟨k,hk⟩
    obtain ⟨q,hq,rfl⟩ := Option.map_eq_some_iff.mp hk
    exact List.mem_map_of_mem (List.mem_of_find?_eq_some hq)

/-- `m[k] = v` for a new key: one more pair. -/
theorem assign_perm_of_not_mem {m : Map α β} {k : α} (hk : k ∉ m.keys) (v : β) :
    (m.assign k v).values.Perm (v :: m.values) ∧ (m.assign k v).keys.Perm (k :: m.keys) :=
  ⟨(assignList_perm hk v).map Prod.snd,(assignList_perm hk v).map Prod.fst⟩

/-- `m[k] = v` for a key of the map: its value replaced where it stands. -/
theorem values_assign_of_find? {m : Map α β} {k : α} {v₀ : β} (h : m.find? k=some v₀) (v : β) :
    ∃ i,∃ hi : i < m.values.length,m.values[i]=v₀ ∧ (m.assign k v).values=m.values.set i v :=
  assignList_of_find? m.sorted h v

@[simp] theorem values_empty : (empty : Map α β).values=[] := rfl

theorem values_assignList (l : List (α × β)) (k : α) (v : β) :
    (∃ p < l.length, (assignList l k v).map (·.2)=(l.map (·.2)).set p v) ∨
      ((assignList l k v).map (·.2)).Perm (v::l.map (·.2)) := by
  induction l with
  | nil => exact .inr (by simp [assignList])
  | cons q rest ih =>
    simp only [assignList]
    split_ifs with hlt heq
    · exact .inr (by simp)
    · exact .inl ⟨0,by simp,by simp⟩
    · rcases ih with ⟨p,hp,hset⟩ | hperm
      · exact .inl ⟨p+1,by simpa using hp,by simp [hset]⟩
      · refine .inr ?_
        simp only [List.map_cons]
        exact (List.Perm.cons _ hperm).trans (List.Perm.swap _ _ _)

/-- The values after `m[k] = v`: one value replaced by `v`, or `v` added. -/
theorem values_assign (m : Map α β) (k : α) (v : β) :
    (∃ p < m.values.length, (m.assign k v).values=m.values.set p v) ∨
      (m.assign k v).values.Perm (v::m.values) := by
  simp only [values,assign,List.length_map]
  exact values_assignList m.toList k v

theorem mem_values_assign {m : Map α β} {k : α} {v x : β} (h : x ∈ (m.assign k v).values) :
    x ∈ m.values ∨ x=v := by
  obtain ⟨q,hq,rfl⟩ := List.mem_map.mp h
  rcases mem_assignList hq with hq | rfl
  · exact .inl (List.mem_map_of_mem hq)
  · exact .inr rfl

theorem mem_values_of_find? {m : Map α β} {k : α} {v : β} (h : m.find? k=some v) : v ∈ m.values := by
  obtain ⟨q,hq,rfl⟩ := Option.map_eq_some_iff.mp h
  exact List.mem_map_of_mem (List.mem_of_find?_eq_some hq)

/-- `erase(k)`: the pair of key `k` removed. -/
def erase (m : Map α β) (k : α) : Map α β :=
  ⟨m.toList.filter fun p => p.1≠k,m.sorted.filter _⟩

@[simp] theorem find?_assign_self (m : Map α β) (k : α) (v : β) : (m.assign k v).find? k=some v :=
  find?_assignList_self m.toList k v

theorem find?_assign_of_ne (m : Map α β) {k k' : α} (v : β) (h : k'≠k) : (m.assign k v).find? k'=m.find? k' :=
  find?_assignList_of_ne m.toList k v h

theorem find?_assign (m : Map α β) (k : α) (v : β) (k' : α) :
    (m.assign k v).find? k'=if k'=k then some v else m.find? k' := by
  by_cases h : k'=k
  · rw [if_pos h,h,find?_assign_self]
  · rw [if_neg h,find?_assign_of_ne m v h]

theorem find?_erase (m : Map α β) (k k' : α) : (m.erase k).find? k'=if k'=k then none else m.find? k' :=
  find?_filter_ne m.toList k k'

@[simp] theorem find?_erase_self (m : Map α β) (k : α) : (m.erase k).find? k=none := by
  rw [find?_erase,if_pos rfl]

theorem find?_erase_of_ne (m : Map α β) {k k' : α} (h : k'≠k) : (m.erase k).find? k'=m.find? k' := by
  rw [find?_erase,if_neg h]

/-- Over the pairs, `m[k] = v` trades `g (k, v₀)` for `g (k, v)`. -/
theorem sum_assign {M : Type} [AddCommMonoid M] (g : α × β → M) {m : Map α β} {k : α} {v₀ : β}
    (h : m.find? k=some v₀) (v : β) :
    ((m.assign k v).toList.map g).sum+g (k,v₀)=(m.toList.map g).sum+g (k,v) :=
  sum_assignList g m.sorted h v

/-- Over the pairs, `erase(k)` takes `g (k, v₀)` away. -/
theorem sum_erase {M : Type} [AddCommMonoid M] (g : α × β → M) {m : Map α β} {k : α} {v₀ : β}
    (h : m.find? k=some v₀) : ((m.erase k).toList.map g).sum+g (k,v₀)=(m.toList.map g).sum :=
  sum_filter_ne g m.sorted h

/-- Adding `g` over the values of key `k` gives `g` of the value `find` returns. -/
theorem sum_filter_key {M : Type} [AddCommMonoid M] (g : β → M) (m : Map α β) (k : α) :
    ((m.toList.filter fun p => p.1=k).map fun p => g p.2).sum=((m.find? k).map g).getD 0 := by
  rw [filter_key_eq_find? m.sorted,find?]
  cases m.toList.find? fun p => p.1=k <;> simp

/-- A key that `find` sees is a key of a pair. -/
theorem mem_toList_of_find? {m : Map α β} {k : α} {v : β} (h : m.find? k=some v) : (k,v) ∈ m.toList := by
  obtain ⟨q,hq,rfl⟩ := Option.map_eq_some_iff.mp h
  have hqk : q.1=k := by simpa using List.find?_some hq
  rw [← hqk]
  exact List.mem_of_find?_eq_some hq

/-- The pair of a key is what `find` returns for it. -/
theorem find?_of_mem_toList {m : Map α β} {k : α} {v : β} (h : (k,v) ∈ m.toList) : m.find? k=some v := by
  rw [find?,find?_of_mem_sorted m.sorted h]
  rfl

/-- A map built by assignments from the empty map holds only assigned values. -/
theorem mem_values_foldl_assign {γ : Type} (key : γ → α) (val : γ → β) (l : List γ) {x : β}
    (h : x ∈ (l.foldl (fun m c => m.assign (key c) (val c)) empty).values) : ∃ c ∈ l, x=val c := by
  suffices ∀ (m : Map α β), x ∈ (l.foldl (fun m c => m.assign (key c) (val c)) m).values →
      x ∈ m.values ∨ ∃ c ∈ l, x=val c by
    rcases this empty h with h | h
    · simp at h
    · exact h
  clear h
  induction l with
  | nil => intro m hm; exact .inl hm
  | cons c rest ih =>
    intro m hm
    rcases ih _ hm with hm | ⟨c',hc',rfl⟩
    · rcases mem_values_assign hm with hm | rfl
      · exact .inl hm
      · exact .inr ⟨c,List.mem_cons_self,rfl⟩
    · exact .inr ⟨c',List.mem_cons_of_mem c hc',rfl⟩

end Map

end Cyberway.FlatMap
