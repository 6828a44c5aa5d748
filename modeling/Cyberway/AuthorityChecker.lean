import Mathlib

/-!
# The authority checker

`authority_checker` decides whether provided keys, provided permissions and
a provided delay satisfy an authority: a threshold and weighted keys,
permission levels and waits. The entries are visited from the highest
weight down, and the visit stops as soon as the tally reaches the
threshold. A permission level counts when the cache says it is satisfied;
a level the cache does not know is looked up with `permission_to_authority`
and checked one level deeper, while the depth is below the limit, after
being marked as being evaluated so that a cycle through it counts nothing.
Its result is cached for the rest of the call, whatever depth it was
computed at. Keys of a satisfied authority are marked used; those of an
unsatisfied one are released again.

The weights are `uint16_t`, the tally `uint32_t`; names and public keys
are compared only. `permission_to_authority` failing with
`permission_query_exception` is `none`.
-/

namespace Cyberway.AuthorityChecker

/-- `permission_level`: an actor and the name of one of its permissions. -/
structure PermissionLevel where
  /-- The account. -/
  actor : ℕ
  /-- The permission name; `0` is the empty name. -/
  permission : ℕ
  deriving DecidableEq, Repr

/-- `permission_level_weight`. -/
structure PermissionLevelWeight where
  /-- The permission level that must be satisfied. -/
  permission : PermissionLevel
  /-- Its weight. -/
  weight : UInt16
  deriving DecidableEq, Repr

/-- `key_weight`. -/
structure KeyWeight (Key : Type) where
  /-- The public key that must be provided. -/
  key : Key
  /-- Its weight. -/
  weight : UInt16
  deriving DecidableEq, Repr

/-- `wait_weight`. -/
structure WaitWeight where
  /-- The delay, in seconds, that must be provided. -/
  waitSec : UInt32
  /-- Its weight. -/
  weight : UInt16
  deriving DecidableEq, Repr

/-- `authority`. -/
structure Authority (Key : Type) where
  /-- The weight the satisfied entries must reach. -/
  threshold : UInt32
  /-- Weighted keys. -/
  keys : List (KeyWeight Key)
  /-- Weighted permission levels. -/
  accounts : List PermissionLevelWeight
  /-- Weighted delays. -/
  waits : List WaitWeight
  deriving DecidableEq, Repr

/-- `meta_permission`: `static_variant<permission_level_weight, key_weight, wait_weight>`. -/
inductive MetaPermission (Key : Type)
  | account (p : PermissionLevelWeight)
  | key (k : KeyWeight Key)
  | wait (w : WaitWeight)
  deriving DecidableEq, Repr

/-- `permission_to_authority` failing with `permission_query_exception` is `none`. -/
abbrev PermissionToAuthority (Key : Type) := PermissionLevel → Option (Authority Key)

variable {Key : Type}

namespace MetaPermission

/-- `get_weight_visitor`. -/
def weight : MetaPermission Key → UInt16
  | account p => p.weight
  | key k => k.weight
  | wait w => w.weight

/-- `which()` of the static variant. -/
def which : MetaPermission Key → ℕ
  | account _ => 0
  | key _ => 1
  | wait _ => 2

/-- `meta_permission_comparator` with ties allowed: `a` may come before
`b` when `(weight, which)` of `a` is at least that of `b`. -/
def Precedes (a b : MetaPermission Key) : Prop :=
  b.weight < a.weight ∨ (b.weight=a.weight ∧ b.which ≤ a.which)

instance : DecidableRel (@Precedes Key) := fun _ _ => inferInstanceAs (Decidable (_ ∨ _))

end MetaPermission

/-- The entries of an authority in the order of insertion into the
`meta_permission_set`: waits, keys, accounts. -/
def Authority.entries (a : Authority Key) : List (MetaPermission Key) :=
  a.waits.map .wait++a.keys.map .key++a.accounts.map .account

/-- The `meta_permission_set` of an authority: the entries from the highest
`(weight, which)` down, equal ones in the order they were inserted. -/
def Authority.metaPermissions (a : Authority Key) : List (MetaPermission Key) :=
  a.entries.insertionSort MetaPermission.Precedes

/-- The total weight of a list of entries. -/
def weightSum (es : List (MetaPermission Key)) : ℕ := (es.map fun e => e.weight.toNat).sum

/-- `permission_level`'s `operator<`: by actor, then by permission. -/
def PermissionLevel.Lt (p q : PermissionLevel) : Prop :=
  p.actor < q.actor ∨ (p.actor=q.actor ∧ p.permission < q.permission)

instance : DecidableRel PermissionLevel.Lt := fun _ _ => inferInstanceAs (Decidable (_ ∨ _))

/-- `validate(authority)`: at most `2^16` entries, a positive threshold,
keys, accounts and waits strictly ascending, no zero first wait, and
weights reaching the threshold. -/
def validate [LT Key] [DecidableRel fun a b : Key => a < b] (a : Authority Key) : Bool :=
  decide (a.keys.length+a.accounts.length+a.waits.length ≤ 2^16) && a.threshold≠0 &&
    decide (a.keys.IsChain fun k k' : KeyWeight Key => k.key < k'.key) &&
    decide (a.accounts.IsChain fun p p' : PermissionLevelWeight => p.permission.Lt p'.permission) &&
    (match a.waits with
     | [] => true
     | w::_ => w.waitSec≠0) &&
    decide (a.waits.IsChain fun w w' : WaitWeight => w.waitSec < w'.waitSec) &&
    decide (a.threshold.toNat ≤ weightSum a.entries%2^32)

/-- `total_weight += weight` on `uint32_t`. -/
def uint32Add (total : ℕ) (w : UInt16) : ℕ := (total+w.toNat)%2^32

/-- `permission_cache_status`. -/
inductive CacheStatus
  | beingEvaluated
  | permissionUnsatisfied
  | permissionSatisfied
  deriving DecidableEq, Repr

/-- `permission_cache_type`. -/
abbrev Cache := PermissionLevel → Option CacheStatus

/-- `permission_status_in_cache`: the level itself, or else its actor with
the empty permission name. -/
def permissionStatusInCache (c : Cache) (level : PermissionLevel) : Option CacheStatus :=
  match c level with
  | some s => some s
  | none => c ⟨level.actor,0⟩

/-- `cached_permissions.emplace(level, s)`: inserts only a missing level. -/
def emplace (c : Cache) (level : PermissionLevel) (s : CacheStatus) : Cache :=
  match c level with
  | none => Function.update c level (some s)
  | some _ => c

/-- `authority_checker`: what it is built with. -/
structure Checker (Key : Type) where
  /-- `permission_to_authority`. -/
  permissionToAuthority : PermissionToAuthority Key
  /-- `recursion_depth_limit`. -/
  recursionDepthLimit : UInt16
  /-- `provided_keys`. -/
  providedKeys : List Key
  /-- `provided_permissions`. -/
  providedPermissions : List PermissionLevel
  /-- `provided_delay`, in microseconds. -/
  providedDelay : ℤ

/-- What a check changes: the cache of the call and `_used_keys`. -/
structure CheckerState where
  /-- The permission cache of the current call. -/
  cache : Cache
  /-- `_used_keys`, parallel to `provided_keys`. -/
  usedKeys : List Bool

variable [DecidableEq Key] (ck : Checker Key)

/-- The visitor on a key: a provided key counts and is marked used. -/
def visitKey (k : KeyWeight Key) (total : ℕ) (st : CheckerState) : ℕ × CheckerState :=
  match ck.providedKeys.idxOf? k.key with
  | some i => (uint32Add total k.weight,{st with usedKeys := st.usedKeys.set i true})
  | none => (total,st)

/-- The visitor on a wait: `provided_delay >= fc::seconds(wait_sec)`. -/
def visitWait (w : WaitWeight) (total : ℕ) : ℕ :=
  if (w.waitSec.toNat : ℤ)*1000000 ≤ ck.providedDelay then uint32Add total w.weight else total

/-- `permission.visit(visitor)`, with the visitor of account entries at
the current depth. -/
def visit (visitAccount : PermissionLevelWeight → ℕ → CheckerState → ℕ × CheckerState) :
    MetaPermission Key → ℕ → CheckerState → ℕ × CheckerState
  | .account p,total,st => visitAccount p total st
  | .key k,total,st => visitKey ck k total st
  | .wait w,total,st => (visitWait ck w total,st)

/-- The loop of `satisfied(authority, cache, depth)`: visit the entries in
order until the tally reaches the threshold. -/
def tallyLoop (visitAccount : PermissionLevelWeight → ℕ → CheckerState → ℕ × CheckerState)
    (threshold : ℕ) : List (MetaPermission Key) → ℕ → CheckerState → Bool × CheckerState
  | [],_,st => (false,st)
  | e::es,total,st =>
    let (total,st) := visit ck visitAccount e total st
    if total ≥ threshold then (true,st) else tallyLoop visitAccount threshold es total st

/-- `satisfied(authority, cache, depth)`: the keys it used are released
unless it is satisfied. -/
def satisfiedAuthWith (visitAccount : PermissionLevelWeight → ℕ → CheckerState → ℕ × CheckerState)
    (auth : Authority Key) (st : CheckerState) : Bool × CheckerState :=
  match tallyLoop ck visitAccount auth.threshold.toNat auth.metaPermissions 0 st with
  | (true,st') => (true,st')
  | (false,st') => (false,{st' with usedKeys := st.usedKeys})

/-- The visitor on a permission level with `n` levels of recursion left,
`recursion_depth_limit - recursion_depth`. -/
def visitPermission : ℕ → PermissionLevelWeight → ℕ → CheckerState → ℕ × CheckerState
  | n,p,total,st =>
    match permissionStatusInCache st.cache p.permission,n with
    | some .permissionSatisfied,_ => (uint32Add total p.weight,st)
    | some _,_ => (total,st)
    -- not cached, and the depth limit reached
    | none,0 => (total,st)
    | none,n+1 =>
      match ck.permissionToAuthority p.permission with
      -- the permission does not exist: go on without it
      | none => (total,st)
      | some auth =>
        let st := {st with cache := emplace st.cache p.permission .beingEvaluated}
        match satisfiedAuthWith ck (visitPermission n) auth st with
        | (true,st) =>
          (uint32Add total p.weight,
            {st with cache := Function.update st.cache p.permission (some .permissionSatisfied)})
        | (false,st) =>
          (total,{st with cache := Function.update st.cache p.permission (some .permissionUnsatisfied)})

/-- `initialize_permission_cache`: the provided permissions are satisfied. -/
def initializePermissionCache : Cache :=
  fun q => if q ∈ ck.providedPermissions then some .permissionSatisfied else none

/-- `satisfied(permission_level)` on a fresh cache, from the checker's used
keys; returns the answer and the used keys after it. -/
def satisfied (usedKeys : List Bool) (permission : PermissionLevel) : Bool × List Bool :=
  let r := visitPermission ck ck.recursionDepthLimit.toNat ⟨permission,1⟩ 0
    ⟨initializePermissionCache ck,usedKeys⟩
  (decide (r.1 > 0),r.2.usedKeys)

/-- `satisfied(authority)` on a fresh cache. -/
def satisfiedAuthority (usedKeys : List Bool) (auth : Authority Key) : Bool × List Bool :=
  let r := satisfiedAuthWith ck (visitPermission ck ck.recursionDepthLimit.toNat) auth
    ⟨initializePermissionCache ck,usedKeys⟩
  (r.1,r.2.usedKeys)

/-- `satisfied(permission_level, override_provided_delay)`: the provided
delay is replaced for the call and restored after it. -/
def satisfiedWithDelay (usedKeys : List Bool) (permission : PermissionLevel) (delay : ℤ) :
    Bool × List Bool :=
  satisfied {ck with providedDelay := delay} usedKeys permission

/-- The checker as `make_auth_checker` builds it: no key used yet. -/
def initialUsedKeys : List Bool := ck.providedKeys.map fun _ => false

/-! ## Equations

Each function of the checker is unfolded once, here; the proofs about the
checker cite these equations. -/

theorem permissionStatusInCache_eq (c : Cache) (q : PermissionLevel) :
    permissionStatusInCache c q=(c q).or (c ⟨q.actor,0⟩) := by
  unfold permissionStatusInCache
  cases c q <;> rfl

theorem emplace_eq (c : Cache) (q : PermissionLevel) (s : CacheStatus) :
    emplace c q s=(c q).elim (Function.update c q (some s)) fun _ => c := by
  unfold emplace
  cases c q <;> rfl

omit [DecidableEq Key] in
theorem initializePermissionCache_apply (q : PermissionLevel) :
    initializePermissionCache ck q=if q ∈ ck.providedPermissions then some .permissionSatisfied else none := rfl

section Visitor

variable (va : PermissionLevelWeight → ℕ → CheckerState → ℕ × CheckerState)

theorem visit_key (k : KeyWeight Key) (t : ℕ) (st : CheckerState) : visit ck va (.key k) t st=visitKey ck k t st :=
  rfl

theorem visit_wait (w : WaitWeight) (t : ℕ) (st : CheckerState) :
    visit ck va (.wait w) t st=
      (if (w.waitSec.toNat : ℤ)*1000000 ≤ ck.providedDelay then uint32Add t w.weight else t,st) := rfl

theorem tallyLoop_nil (thr t : ℕ) (st : CheckerState) : tallyLoop ck va thr [] t st=(false,st) := rfl

theorem tallyLoop_cons (thr : ℕ) (e : MetaPermission Key) (es : List (MetaPermission Key)) (t : ℕ)
    (st : CheckerState) :
    tallyLoop ck va thr (e::es) t st=
      if (visit ck va e t st).1 ≥ thr then (true,(visit ck va e t st).2)
      else tallyLoop ck va thr es (visit ck va e t st).1 (visit ck va e t st).2 := by
  rw [tallyLoop]

/-- The loop's answer, with the used keys released when it is false. -/
theorem satisfiedAuthWith_eq (auth : Authority Key) (st : CheckerState) :
    satisfiedAuthWith ck va auth st=
      if (tallyLoop ck va auth.threshold.toNat auth.metaPermissions 0 st).1 then
        tallyLoop ck va auth.threshold.toNat auth.metaPermissions 0 st
      else (false,{(tallyLoop ck va auth.threshold.toNat auth.metaPermissions 0 st).2 with usedKeys := st.usedKeys}) := by
  unfold satisfiedAuthWith
  rcases tallyLoop ck va auth.threshold.toNat auth.metaPermissions 0 st with ⟨_|_,st'⟩ <;> rfl

end Visitor

theorem visitPermission_eq (n : ℕ) (pw : PermissionLevelWeight) (t : ℕ) (st : CheckerState) :
    visitPermission ck n pw t st=
      match permissionStatusInCache st.cache pw.permission,n with
      | some .permissionSatisfied,_ => (uint32Add t pw.weight,st)
      | some _,_ => (t,st)
      | none,0 => (t,st)
      | none,n+1 =>
        match ck.permissionToAuthority pw.permission with
        | none => (t,st)
        | some auth =>
          match satisfiedAuthWith ck (visitPermission ck n) auth
            {st with cache := emplace st.cache pw.permission .beingEvaluated} with
          | (true,st) =>
            (uint32Add t pw.weight,{st with cache := Function.update st.cache pw.permission (some .permissionSatisfied)})
          | (false,st) =>
            (t,{st with cache := Function.update st.cache pw.permission (some .permissionUnsatisfied)}) := by
  rw [visitPermission.eq_def]

theorem satisfied_fst (usedKeys : List Bool) (permission : PermissionLevel) :
    (satisfied ck usedKeys permission).1=
      decide ((visitPermission ck ck.recursionDepthLimit.toNat ⟨permission,1⟩ 0
        ⟨initializePermissionCache ck,usedKeys⟩).1 > 0) := rfl

end Cyberway.AuthorityChecker
