import Cyberway.AuthorityChecker

/-!
# What it means for an authority to be satisfied

The declarative reading of an authority: a permission level is satisfied
by keys, permissions and a delay when it is provided, when the empty-named
permission of its actor is, or when its authority has entries whose weights
reach the threshold and each of which is met: a provided key, a wait no
longer than the delay, a satisfied permission level. Derivations are
finite, so a cycle of permissions never satisfies itself, and there is no
depth limit. This reading only grows with the keys, the permissions and the
delay.
-/

namespace Cyberway.AuthorityChecker

variable {Key : Type}

/-- `provided_delay >= fc::seconds(wait_sec)`, the delay in microseconds. -/
def WaitMet (delay : ℤ) (w : WaitWeight) : Prop := (w.waitSec.toNat : ℤ)*1000000 ≤ delay

instance (delay : ℤ) (w : WaitWeight) : Decidable (WaitMet delay w) :=
  inferInstanceAs (Decidable (_ ≤ _))

@[simp] theorem weightSum_nil : weightSum ([] : List (MetaPermission Key))=0 := rfl

@[simp] theorem weightSum_cons (e : MetaPermission Key) (es : List (MetaPermission Key)) :
    weightSum (e::es)=e.weight.toNat+weightSum es := by
  simp [weightSum]

theorem weightSum_perm {es es' : List (MetaPermission Key)} (h : es.Perm es') :
    weightSum es=weightSum es' := (h.map _).sum_eq

/-- An entry is met, given which permission levels are satisfied. -/
def EntryMet (sat : PermissionLevel → Prop) (keys : Set Key) (delay : ℤ) :
    MetaPermission Key → Prop
  | .account p => sat p.permission
  | .key k => k.key ∈ keys
  | .wait w => WaitMet delay w

/-- Met entries of the authority reach its threshold. -/
def Meets (met : MetaPermission Key → Prop) (a : Authority Key) : Prop :=
  ∃ S : List (MetaPermission Key), S.Subperm a.entries ∧ a.threshold.toNat ≤ weightSum S ∧ ∀ e ∈ S, met e

section Sat

variable (pta : PermissionToAuthority Key) (keys : Set Key) (perms : Set PermissionLevel) (delay : ℤ)

/-- The permission levels that keys, permissions and a delay satisfy. -/
inductive Sat : PermissionLevel → Prop
  | provided {p : PermissionLevel} : p ∈ perms → Sat p
  | actor {p : PermissionLevel} : Sat ⟨p.actor,0⟩ → Sat p
  | authority {p : PermissionLevel} {a : Authority Key} (S : List (MetaPermission Key)) :
      pta p=some a → S.Subperm a.entries → a.threshold.toNat ≤ weightSum S →
      (∀ pw, MetaPermission.account pw ∈ S → Sat pw.permission) →
      (∀ k, MetaPermission.key k ∈ S → k.key ∈ keys) →
      (∀ w, MetaPermission.wait w ∈ S → WaitMet delay w) → Sat p

/-- An authority is satisfied when its met entries reach the threshold. -/
def AuthSat (a : Authority Key) : Prop := Meets (EntryMet (Sat pta keys perms delay) keys delay) a

variable {pta keys perms delay}

theorem entryMet_iff {e : MetaPermission Key} :
    EntryMet (Sat pta keys perms delay) keys delay e ↔
      (∀ pw, e=.account pw → Sat pta keys perms delay pw.permission) ∧ (∀ k, e=.key k → k.key ∈ keys) ∧
        ∀ w, e=.wait w → WaitMet delay w := by
  cases e <;> simp [EntryMet]

/-- A permission level with an authority that the factors satisfy is satisfied. -/
theorem Sat.of_authSat {p : PermissionLevel} {a : Authority Key} (hp : pta p=some a)
    (ha : AuthSat pta keys perms delay a) : Sat pta keys perms delay p := by
  obtain ⟨S,hsub,hthr,hmet⟩ := ha
  exact .authority S hp hsub hthr (fun pw h => entryMet_iff.mp (hmet _ h) |>.1 pw rfl)
    (fun k h => entryMet_iff.mp (hmet _ h) |>.2.1 k rfl) (fun w h => entryMet_iff.mp (hmet _ h) |>.2.2 w rfl)

/-- How a level is satisfied when no empty-named permission has an
authority: it is provided, the empty-named permission of its actor is
provided, or its authority is satisfied. -/
theorem Sat.cases_of_empty (hempty : ∀ actor, pta ⟨actor,0⟩=none) {p : PermissionLevel}
    (h : Sat pta keys perms delay p) :
    p ∈ perms ∨ (⟨p.actor,0⟩ : PermissionLevel) ∈ perms ∨
      ∃ a, pta p=some a ∧ AuthSat pta keys perms delay a := by
  induction h with
  | provided hp => exact .inl hp
  | @actor p _ ih =>
    rcases ih with h | h | ⟨a,ha,-⟩
    · exact .inr (.inl h)
    · exact .inr (.inl h)
    · rw [hempty] at ha
      cases ha
  | @authority p a S hp hsub hthr hacc hkey hwait _ =>
    refine .inr (.inr ⟨a,hp,S,hsub,hthr,fun e he => ?_⟩)
    cases e with
    | account pw => exact hacc pw he
    | key k => exact hkey k he
    | wait w => exact hwait w he

/-- More keys, more permissions and a longer delay satisfy at least as much. -/
theorem Sat.mono {keys' : Set Key} {perms' : Set PermissionLevel} {delay' : ℤ} (hkeys : keys ⊆ keys')
    (hperms : perms ⊆ perms') (hdelay : delay ≤ delay') {p : PermissionLevel}
    (h : Sat pta keys perms delay p) : Sat pta keys' perms' delay' p := by
  induction h with
  | provided hp => exact .provided (hperms hp)
  | actor _ ih => exact .actor ih
  | authority S hp hsub hthr _ hkey hwait ih =>
    exact .authority S hp hsub hthr ih (fun k hk => hkeys (hkey k hk)) (fun w hw => le_trans (hwait w hw) hdelay)

/-- An authority that the factors satisfy stays satisfied with more of them. -/
theorem AuthSat.mono {keys' : Set Key} {perms' : Set PermissionLevel} {delay' : ℤ} (hkeys : keys ⊆ keys')
    (hperms : perms ⊆ perms') (hdelay : delay ≤ delay') {a : Authority Key}
    (h : AuthSat pta keys perms delay a) : AuthSat pta keys' perms' delay' a := by
  obtain ⟨S,hsub,hthr,hmet⟩ := h
  refine ⟨S,hsub,hthr,fun e he => ?_⟩
  have hme := hmet e he
  cases e with
  | account pw => exact Sat.mono hkeys hperms hdelay hme
  | key k => exact hkeys hme
  | wait w => exact le_trans hme hdelay

end Sat

end Cyberway.AuthorityChecker
