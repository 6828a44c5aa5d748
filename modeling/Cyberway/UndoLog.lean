import Mathlib

/-!
# Undo logs, key by key

An undo log keeps, for every key a session touched, what undoing the
session must do to that key: erase a key the session created, or write
back the value the key held before the session. Only the first change of a
key in a session is recorded; later changes leave its entry alone. This
file gives that per-key algebra over an arbitrary value type: the effect of
an entry, the condition under which an entry faithfully records a session,
how an entry evolves under the session's writes, and the merge of the
entries of two consecutive sessions into one. A last section proves that a
fold which changes one key per element acts key by key.
-/

namespace Cyberway.UndoLog

/-- What undoing one session does to one key. -/
inductive Entry (V : Type) where
  /-- The session created the key: undo erases it. -/
  | new
  /-- The key held `x` and the session changed it: undo writes `x` back. -/
  | upd (x : V)
  /-- The key held `x` and the session erased it: undo writes `x` back. -/
  | del (x : V)
  /-- The session did not touch the key. -/
  | nop
  deriving Repr, DecidableEq

namespace Entry

variable {V : Type}

/-- The effect of undoing the entry on what the key holds. -/
def apply : Entry V → Option V → Option V
  | .new,_ => none
  | .upd x,_ => some x
  | .del x,_ => some x
  | .nop,v => v

/-- `e.ends v`: the entry can record a session that left the key holding
`v`: a created or changed key is present, an erased one absent. -/
def ends : Entry V → Option V → Prop
  | .new,v => v.isSome
  | .upd _,v => v.isSome
  | .del _,v => v=none
  | .nop,_ => True

@[simp] theorem apply_nop (v : Option V) : (nop : Entry V).apply v=v := rfl

@[simp] theorem ends_nop (v : Option V) : (nop : Entry V).ends v := trivial

/-! ## The entry of a running session -/

/-- The entry after the session creates the key: an erased key that comes
back counts as changed, with its first value. -/
def afterInsert : Entry V → Entry V
  | .del x => .upd x
  | _ => .new

/-- The entry after the session changes a key that held `old`: only an
untouched key records it. -/
def afterUpdate (old : V) : Entry V → Entry V
  | .nop => .upd old
  | e => e

/-- The entry after the session erases a key that held `old`: a key the
session created is forgotten, a changed key keeps its first value. -/
def afterRemove (old : V) : Entry V → Entry V
  | .new => .nop
  | .upd x => .del x
  | .nop => .del old
  | e => e

/-- Creating an absent key keeps the entry faithful and its undo the same. -/
theorem afterInsert_spec {e : Entry V} (h : e.ends none) (y : V) :
    e.afterInsert.ends (some y) ∧ e.afterInsert.apply (some y)=e.apply none := by
  cases e <;> simp_all [ends,afterInsert,apply]

/-- Changing a present key keeps the entry faithful and its undo the same. -/
theorem afterUpdate_spec {e : Entry V} {x : V} (h : e.ends (some x)) (y : V) :
    (e.afterUpdate x).ends (some y) ∧ (e.afterUpdate x).apply (some y)=e.apply (some x) := by
  cases e <;> simp_all [ends,afterUpdate,apply]

/-- Erasing a present key keeps the entry faithful and its undo the same. -/
theorem afterRemove_spec {e : Entry V} {x : V} (h : e.ends (some x)) :
    (e.afterRemove x).ends none ∧ (e.afterRemove x).apply none=e.apply (some x) := by
  cases e <;> simp_all [ends,afterRemove,apply]

/-! ## Merging consecutive sessions -/

/-- The entry of two consecutive sessions taken as one: `a` of the older,
`b` of the newer. The four pairs marked N/A are not recorded by two
consecutive sessions (`merge_defined`); they keep `a`. -/
def merge : Entry V → Entry V → Entry V
  | .new,.new => .new
  | .new,.upd _ => .new
  | .new,.del _ => .nop
  | .new,.nop => .new
  | .upd x,.new => .upd x
  | .upd x,.upd _ => .upd x
  | .upd x,.del _ => .del x
  | .upd x,.nop => .upd x
  | .del x,.new => .upd x
  | .del x,.upd _ => .del x
  | .del x,.del _ => .del x
  | .del x,.nop => .del x
  | .nop,b => b

@[simp] theorem merge_nop (a : Entry V) : a.merge .nop=a := by
  cases a <;> rfl

@[simp] theorem nop_merge (b : Entry V) : Entry.nop.merge b=b := rfl

/-- The four N/A pairs never meet: if `b` records the newer session faithfully
and `a` the older one, `a` is not `new` or `upd` under a created key, nor
`del` under a changed or erased one. -/
theorem merge_defined {a b : Entry V} {v : Option V} (hb : b.ends v) (ha : a.ends (b.apply v)) :
    (b=.new → a=.nop ∨ ∃ x, a=.del x) ∧ (∀ y, (b=.upd y ∨ b=.del y) → ∀ x, a≠.del x) := by
  cases a <;> cases b <;> simp_all [ends,apply]

/-- Undoing the merged entry is undoing `b`, then `a`, whenever the key is
absent in case `b` erased it. The one pair that needs the condition is
`new` then `del`: the merged entry does nothing, while undoing the two
erases the key. -/
theorem apply_merge {a b : Entry V} {v : Option V} (h : ∀ y, b=.del y → v=none) :
    (a.merge b).apply v=a.apply (b.apply v) := by
  cases a <;> cases b <;> simp_all [merge,apply]

end Entry

/-! ## Stores -/

section Store

variable {K V : Type}

/-- Undo a session whose entry at key `k` is `e k` on the store `σ`. -/
def undo (e : K → Entry V) (σ : K → Option V) : K → Option V := fun k => (e k).apply (σ k)

/-- The entries `e` record a session that left the store `σ`. -/
def Ends (e : K → Entry V) (σ : K → Option V) : Prop := ∀ k, (e k).ends (σ k)

/-- A write of `v` at key `k₀` that changes the entries only at `k₀`, and
there keeps the entry faithful and its undo the same, keeps the whole log
faithful and its undo the same. -/
theorem ends_undo_update [DecidableEq K] {e e' : K → Entry V} {σ : K → Option V} {k₀ : K}
    {v : Option V} (hfar : ∀ k, k≠k₀ → e' k=e k) (he : Ends e σ)
    (hk₀ : (e' k₀).ends v ∧ (e' k₀).apply v=(e k₀).apply (σ k₀)) :
    Ends e' (Function.update σ k₀ v) ∧ undo e' (Function.update σ k₀ v)=undo e σ := by
  constructor
  · intro k
    by_cases hk : k=k₀
    · subst hk; simpa using hk₀.1
    · rw [Function.update_of_ne hk,hfar k hk]; exact he k
  · funext k
    by_cases hk : k=k₀
    · subst hk; simpa [undo] using hk₀.2
    · simp only [undo,Function.update_of_ne hk,hfar k hk]

/-- Undoing the merged session is undoing the newer, then the older one, on
every store in which the keys the newer session erased are absent. -/
theorem undo_merge {a b : K → Entry V} {σ : K → Option V} (h : ∀ k y, b k=.del y → σ k=none) :
    undo (fun k => (a k).merge (b k)) σ=undo a (undo b σ) := by
  funext k
  exact Entry.apply_merge (h k)

end Store

/-! ## Folds that act key by key -/

section PointwiseFold

variable {S X K E : Type} [DecidableEq K] {f : S → X → S} {key : X → K} {view : S → K → E}
  {P : S → Prop} {g : X → E → E} {pre : X → E → Prop}

/-- A fold whose step at `x` changes the view only at `key x`, to
`g x` of what it was there, acts key by key when the keys are distinct:
each visited key ends at `g x` of its first view, every other key is left
alone, and the invariant `P` of the steps holds at the end. -/
theorem foldl_pointwise
    (hstep : ∀ s x, P s → pre x (view s (key x)) →
      P (f s x) ∧ ∀ q, view (f s x) q=if q=key x then g x (view s q) else view s q) :
    ∀ (l : List X) (s : S), (l.map key).Nodup → P s → (∀ x ∈ l, pre x (view s (key x))) →
      P (l.foldl f s) ∧ (∀ x ∈ l, view (l.foldl f s) (key x)=g x (view s (key x))) ∧
        ∀ q, (∀ x ∈ l, key x≠q) → view (l.foldl f s) q=view s q := by
  intro l
  induction l with
  | nil => intro s _ hP _; simp [hP]
  | cons x l ih =>
    intro s hnd hP hpre
    rw [List.map_cons,List.nodup_cons] at hnd
    obtain ⟨hx,hnd⟩ := hnd
    obtain ⟨hP1,hview⟩ := hstep s x hP (hpre x List.mem_cons_self)
    -- the later keys differ from `key x`, so the step leaves their view alone
    have hfar : ∀ y ∈ l, view (f s x) (key y)=view s (key y) := by
      intro y hy
      have hne : key y≠key x := fun h => hx (h ▸ List.mem_map_of_mem hy)
      rw [hview,if_neg hne]
    obtain ⟨hPl,hin,hout⟩ := ih (f s x) hnd hP1
      (fun y hy => hfar y hy ▸ hpre y (List.mem_cons_of_mem x hy))
    refine ⟨hPl,?_,?_⟩
    · intro y hy
      rcases List.mem_cons.mp hy with rfl | hy
      · have hnot : ∀ z ∈ l, key z≠key y := fun z hz h => hx (h ▸ List.mem_map_of_mem hz)
        rw [List.foldl_cons,hout _ hnot,hview,if_pos rfl]
      · rw [List.foldl_cons,hin y hy,hfar y hy]
    · intro q hq
      rw [List.foldl_cons,hout q (fun y hy => hq y (List.mem_cons_of_mem x hy)),hview,
        if_neg (Ne.symm (hq x List.mem_cons_self))]

end PointwiseFold

end Cyberway.UndoLog
