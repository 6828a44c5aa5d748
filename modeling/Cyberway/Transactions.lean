import Mathlib.Logic.Basic

/-!
# Transactions that roll back

A transaction either commits the state it computes or fails, and a failed
transaction leaves the state as it was. This file runs a list of such
transactions and gives the two rules that carry a property through a run:
an invariant that every committed transaction keeps holds after the run,
and a reflexive, transitive relation that every transaction committed from
a state of the invariant establishes relates the start of the run to its
end. Inside one transaction, a loop that stops at its first failure keeps
an invariant the same way, and returns when each turn does.
-/

namespace Cyberway.Transactions

variable {σ α ε : Type} (step : σ → α → Except ε σ)

/-- Apply one transaction: the state it computes, or the old one if it fails. -/
def commit (s : σ) (a : α) : σ :=
  match step s a with
  | .ok s' => s'
  | .error _ => s

/-- Apply the transactions in order. -/
def run (as : List α) (s : σ) : σ := as.foldl (commit step) s

@[simp] theorem run_nil (s : σ) : run step [] s=s := rfl

@[simp] theorem run_cons (a : α) (as : List α) (s : σ) : run step (a::as) s=run step as (commit step s a) := rfl

/-- A run ends with its last transaction. -/
theorem run_append_singleton (as : List α) (a : α) (s : σ) : run step (as++[a]) s=commit step (run step as s) a := by
  rw [run,List.foldl_append,List.foldl_cons,List.foldl_nil]
  rfl

/-- A transaction either rolls back or commits what it computes. -/
theorem commit_cases (s : σ) (a : α) : commit step s a=s ∨ step s a=.ok (commit step s a) := by
  unfold commit
  cases step s a with
  | ok s' => exact .inr rfl
  | error _ => exact .inl rfl

variable {step} {I : σ → Prop} {R : σ → σ → Prop}

/-- The invariant rule for a loop that stops at the first failure, with an
invariant that may name the items still to come: what each turn keeps
holds after a loop that returns. -/
theorem foldlM_invariant {f : σ → α → Except ε σ} {J : List α → σ → Prop}
    (hstep : ∀ s a as s',J (a::as) s → f s a=.ok s' → J as s') :
    ∀ (as : List α) s s',J as s → as.foldlM f s=.ok s' → J [] s'
  | [],s,s',hs,h => by
    rw [List.foldlM_nil] at h
    cases h
    exact hs
  | a::as,s,s',hs,h => by
    rw [List.foldlM_cons] at h
    cases hf : f s a with
    | error e =>
      rw [hf] at h
      cases h
    | ok s₁ =>
      rw [hf] at h
      exact foldlM_invariant hstep as s₁ s' (hstep s a as s₁ hs hf) h

/-- The progress rule for such a loop: if each turn, from a state of the
invariant for the items still to come, returns a state of the invariant for
the rest, the loop returns a state of the invariant for no items. -/
theorem foldlM_ok {f : σ → α → Except ε σ} {J : List α → σ → Prop}
    (hstep : ∀ s a as,J (a::as) s → ∃ s',f s a=.ok s' ∧ J as s') :
    ∀ (as : List α) s,J as s → ∃ s',as.foldlM f s=.ok s' ∧ J [] s'
  | [],s,hs => ⟨s,rfl,hs⟩
  | a::as,s,hs => by
    obtain ⟨s₁,h₁,hs₁⟩ := hstep s a as hs
    rw [List.foldlM_cons,h₁]
    exact foldlM_ok hstep as s₁ hs₁

/-- The invariant rule: what every committed transaction keeps holds after
any run. -/
theorem run_invariant (hstep : ∀ s a s',I s → step s a=.ok s' → I s') : ∀ as s,I s → I (run step as s)
  | [],_,hs => hs
  | a::as,s,hs => by
    rw [run_cons]
    refine run_invariant hstep as _ ?_
    rcases commit_cases step s a with h | h
    · rwa [h]
    · exact hstep s a _ hs h

/-- The relation rule: a reflexive, transitive relation that every
transaction committed from a state of the invariant establishes relates
the start of any run from such a state to its end. -/
theorem run_rel (hrefl : ∀ s,R s s) (htrans : ∀ s₁ s₂ s₃,R s₁ s₂ → R s₂ s₃ → R s₁ s₃)
    (hstep : ∀ s a s',I s → step s a=.ok s' → I s' ∧ R s s') : ∀ as s,I s → R s (run step as s)
  | [],s,_ => hrefl s
  | a::as,s,hs => by
    rw [run_cons]
    rcases commit_cases step s a with h | h
    · rw [h]
      exact run_rel hrefl htrans hstep as s hs
    · obtain ⟨hI,hR⟩ := hstep s a _ hs h
      exact htrans _ _ _ hR (run_rel hrefl htrans hstep as _ hI)

end Cyberway.Transactions
