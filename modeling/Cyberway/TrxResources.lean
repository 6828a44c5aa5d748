import Cyberway.FlatMap
import Cyberway.ResourceLimits
import Cyberway.ChaindbStorage

/-!
# Available resources of a transaction

`transaction_context::available_resources_t` keeps, for every account the
transaction bills, the CPU time it can still pay for (`cpu_limits`), and
the least of these (`min_cpu_limit`), which bounds the billing timer.
Storage charged to a billed payer lowers its limit by the storage's CPU
equivalent and a refund raises it; net usage is charged to every billed
account; `check_cpu_usage` compares a usage with the least limit.

`min_cpu_limit` is the least limit, `UINT64_MAX` without billed accounts,
in every state a transaction reaches (`Inv`): `update_storage_usage`
recomputes it only when a refund raises the payer that held it, and folds
the payer's new limit into it otherwise, which suffices because a charge
only lowers the payer's limit and a refund to another payer leaves the
least limit where it was. So the "SYSTEM: incorrect cpu limit" assertion of
`add_net_usage` never fires. `check_cpu_usage` takes an `int64_t` and
compares it with the `uint64_t` limit after the usual arithmetic
conversions: a non-negative usage throws exactly when it is above some
billed account's limit, but a negative one becomes a huge unsigned value
and throws as soon as an account has a limit below `UINT64_MAX`.
-/

namespace Cyberway.TrxResources

open FlatMap ResourceLimits ChaindbObject ChaindbStorage

/-- What `available_resources_t` reads of its `transaction_context`. -/
structure TrxContext where
  /-- `explicit_billed_cpu_time`. -/
  explicitBilledCpuTime : Bool
  /-- `pricelist`, by resource. -/
  pricelist : ResourceId → Ratio
  /-- `bill_to_accounts`, a `flat_set`. -/
  billToAccounts : List AccountName
  /-- The set holds each account once, in order. -/
  billSorted : billToAccounts.Pairwise (· < ·)
  /-- `get_account_balance` of each account at the pending block time. -/
  balance : AccountName → ℕ

/-- `available_resources_t`. -/
structure AvailableResources where
  /-- `cpu_limits`: the CPU each billed account can still pay for. -/
  cpuLimits : Map AccountName ℕ
  /-- `min_cpu_limit`. -/
  minCpuLimit : ℕ

/-- A constructed `available_resources_t`. -/
def AvailableResources.initial : AvailableResources := ⟨Map.empty,uint64Max⟩

/-- The limit `init` gives an account: its balance in CPU at the CPU price,
and no limit when CPU is free or the balance is unlimited. -/
def cpuLimitOf (cpuPrice : Ratio) (balance : ℕ) : Except String ℕ :=
  if cpuPrice.numerator≠0 ∧ balance < uint64Max then safeProp balance cpuPrice.denominator cpuPrice.numerator false
  else .ok uint64Max

/-- `init`: a limit for each billed account, in the set's order, and the
least of them. -/
def init (ctx : TrxContext) (st : AvailableResources) : Except String AvailableResources :=
  ctx.billToAccounts.foldlM (fun st a => do
      let lim ← cpuLimitOf (ctx.pricelist .cpu) (ctx.balance a)
      pure ⟨st.cpuLimits.assign a lim,min lim st.minCpuLimit⟩)
    {st with minCpuLimit := uint64Max}

/-- `cost ? (cpu_price.numerator ? safe_prop_ceil(cost, …) : UINT64_MAX) : 0`:
the CPU equivalent of a storage cost, unlimited when CPU is free. -/
def cpuEquivalent (cpuPrice : Ratio) (cost : ℕ) : Except String ℕ :=
  if cost≠0 then
    if cpuPrice.numerator≠0 then safePropCeil cost cpuPrice.denominator cpuPrice.numerator false
    else .ok uint64Max
  else .ok 0

/-- The payer's new limit in `update_storage_usage`: a charge must be
covered by the limit and lowers it; a refund raises it, up to
`UINT64_MAX`. -/
def chargedLimit (delta : ℤ) (lim cpu : ℕ) : Except String ℕ :=
  if 0 < delta then do
    eosAssert (lim ≥ cpu) "account ${a} has insufficient staked tokens: unspent cpu = ${b}, delta = ${d}, storage price = ${psn}/${psd}, cost = ${c}, cpu price = ${pcn}/${pcd}, cpu equivalent = ${e}"
    pure (lim-cpu)
  else .ok (if uint64Max-lim > cpu then lim+cpu else uint64Max)

/-- `update_storage_usage`: storage charged or refunded to a billed payer
moves its limit by the storage's CPU equivalent; the least limit is
recomputed when a refund goes to the payer that held it, and otherwise
takes in the payer's new limit. -/
def updateStorageUsage (ctx : TrxContext) (st : AvailableResources) (storage : StoragePayerInfo) :
    Except String AvailableResources :=
  if ctx.explicitBilledCpuTime=true ∨ storage.delta=0 then .ok st
  else match st.cpuLimits.find? storage.payer with
    | none => .ok st
    | some lim => do
      let cost ← safePropCeil storage.delta.natAbs (ctx.pricelist .storage).numerator
        (ctx.pricelist .storage).denominator true
      let cpu ← cpuEquivalent (ctx.pricelist .cpu) cost
      let needToUpdateMin := decide (lim=st.minCpuLimit ∧ storage.delta < 0)
      let lim' ← chargedLimit storage.delta lim cpu
      let cpuLimits := st.cpuLimits.assign storage.payer lim'
      if needToUpdateMin then pure ⟨cpuLimits,cpuLimits.values.foldl min uint64Max⟩
      else pure ⟨cpuLimits,min lim' st.minCpuLimit⟩

/-- The message of the assertion in the loop of `add_net_usage`. -/
def incorrectCpuLimit : String := "SYSTEM: incorrect cpu limit"

/-- The loop of `add_net_usage` over `cpu_limits`, in key order: each limit
must cover `cpu`, and the least charged limit is kept. -/
def chargeLimits (cpu : ℕ) : List ℕ → ℕ → Except String ℕ
  | [],mn => .ok mn
  | b :: rest,mn => do
    eosAssert (b ≥ cpu) incorrectCpuLimit
    chargeLimits cpu rest (min mn (b-cpu))

/-- `add_net_usage`: the CPU equivalent of the net usage is charged to every
billed account, after a check against the least limit. -/
def addNetUsage (ctx : TrxContext) (st : AvailableResources) (delta : ℤ) : Except String AvailableResources := do
  eosAssert (delta ≥ 0) "SYSTEM: available_resources_t::add_net_usage, usage_delta < 0"
  let cpuPrice := ctx.pricelist .cpu
  if ctx.explicitBilledCpuTime=true ∨ delta=0 ∨ cpuPrice.numerator=0 then pure st
  else
    let netPrice := ctx.pricelist .net
    let cost ← safePropCeil delta.toNat netPrice.numerator netPrice.denominator true
    let cpu ← safePropCeil cost cpuPrice.denominator cpuPrice.numerator false
    eosAssert (st.minCpuLimit ≥ cpu) "transaction costs too much; unspent cpu = ${b}, cost cpu equivalent = ${e}"
    let minCpuLimit ← chargeLimits cpu st.cpuLimits.values uint64Max
    pure ⟨st.cpuLimits.mapValues (· - cpu),minCpuLimit⟩

/-- `check_cpu_usage`: the `int64_t` usage is compared with the `uint64_t`
limit as an unsigned value. -/
def checkCpuUsage (st : AvailableResources) (usage : ℤ) : Except String Unit :=
  eosAssert (st.minCpuLimit ≥ (usage%2^64).toNat) "transaction costs too much; unspent cpu = ${b}, usage = ${u}"

/-- A call on `available_resources_t`. -/
inductive Call where
  | storage (info : StoragePayerInfo)
  | net (delta : ℤ)
  | check (usage : ℤ)

/-- What a call does to the state, or what it throws. -/
def step (ctx : TrxContext) (st : AvailableResources) : Call → Except String AvailableResources
  | .storage info => updateStorageUsage ctx st info
  | .net delta => addNetUsage ctx st delta
  | .check usage => (checkCpuUsage st usage).map fun _ => st

/-- The states of a transaction: `init` of the constructed object, then
calls that return normally. -/
inductive Reachable (ctx : TrxContext) : AvailableResources → Prop
  | start {st : AvailableResources} : init ctx .initial=.ok st → Reachable ctx st
  | call {st st' : AvailableResources} (c : Call) : Reachable ctx st → step ctx st c=.ok st' → Reachable ctx st'

/-! ## The least of a list -/

section Least

variable {α : Type} [LinearOrder α]

theorem le_foldl_min_iff (u a : α) (l : List α) : u ≤ l.foldl min a ↔ u ≤ a ∧ ∀ b ∈ l,u ≤ b := by
  induction l generalizing a with
  | nil => simp
  | cons b l ih =>
    simp only [List.foldl_cons,ih,le_min_iff,List.mem_cons,forall_eq_or_imp]
    tauto

theorem foldl_min_le {a b : α} {l : List α} (hb : b ∈ l) : l.foldl min a ≤ b :=
  ((le_foldl_min_iff _ a l).mp le_rfl).2 b hb

/-- The least of a list and a start is the start or an element. -/
theorem foldl_min_mem (a : α) (l : List α) : l.foldl min a=a ∨ l.foldl min a ∈ l := by
  induction l generalizing a with
  | nil => exact .inl rfl
  | cons b l ih =>
    rw [List.foldl_cons]
    rcases ih (min a b) with h | h
    · rcases min_choice a b with hab | hab
      · exact .inl (h.trans hab)
      · exact .inr (by rw [h,hab]; exact List.mem_cons_self)
    · exact .inr (List.mem_cons_of_mem b h)

theorem foldl_min_cons (a x : α) (l : List α) : (x :: l).foldl min a=min x (l.foldl min a) := by
  apply eq_of_forall_le_iff
  intro u
  simp only [le_foldl_min_iff,le_min_iff,List.mem_cons,forall_eq_or_imp]
  tauto

/-- Replacing an element by a smaller one, or one that is not the least,
moves the least to the least of the new element and the old least. -/
theorem foldl_min_set {l : List α} {i : ℕ} (hi : i < l.length) (a y : α)
    (h : l.foldl min a≠l[i] ∨ y ≤ l[i]) : (l.set i y).foldl min a=min y (l.foldl min a) := by
  have hy : y ∈ l.set i y := List.mem_set hi y
  have hrest : ∀ j (hj : j < l.length),j≠i → l[j] ∈ l.set i y := fun j hj hji => by
    rw [← List.getElem_set_ne (Ne.symm hji) (by simpa using hj)]
    exact List.getElem_mem _
  apply eq_of_forall_le_iff
  intro u
  rw [le_foldl_min_iff,le_min_iff,le_foldl_min_iff]
  constructor
  · rintro ⟨ha,hall⟩
    refine ⟨hall y hy,ha,fun b hb => ?_⟩
    obtain ⟨j,hj,rfl⟩ := List.getElem_of_mem hb
    by_cases hji : j=i
    · subst hji
      rcases h with h | h
      · have hu : u ≤ l.foldl min a := by
          rcases foldl_min_mem a l with hm | hm
          · rw [hm]
            exact ha
          · obtain ⟨k,hk,hkm⟩ := List.getElem_of_mem hm
            have hki : k≠j := fun hki => by
              subst hki
              exact h hkm.symm
            rw [← hkm]
            exact hall _ (hrest k hk hki)
        exact hu.trans (foldl_min_le (List.getElem_mem _))
      · exact (hall y hy).trans h
    · exact hall _ (hrest j hj hji)
  · rintro ⟨hy',ha,hall⟩
    refine ⟨ha,fun b hb => ?_⟩
    rcases List.mem_or_eq_of_mem_set hb with hb | rfl
    · exact hall b hb
    · exact hy'

end Least

/-! ## The invariant -/

/-- The invariant of `available_resources_t`. -/
structure Inv (st : AvailableResources) : Prop where
  /-- `min_cpu_limit` is the least limit, `UINT64_MAX` when there is none. -/
  min_eq : st.minCpuLimit=st.cpuLimits.values.foldl min uint64Max
  /-- Every limit is a `uint64_t`. -/
  le_max : ∀ b ∈ st.cpuLimits.values,b ≤ uint64Max

theorem inv_initial : Inv .initial := ⟨rfl,by simp [AvailableResources.initial]⟩

theorem safeProp_le_max {a n d r : ℕ} (h : safeProp a n d false=.ok r) : r ≤ uint64Max := by
  simp only [safeProp,downgradeCast,Bool.false_eq_true,if_false] at h
  split_ifs at h
  · rw [← Except.ok.inj h]
    exact Nat.zero_le _
  · rw [← Except.ok.inj h]
    exact Nat.min_le_right _ _

theorem cpuLimitOf_le_max {p : Ratio} {b lim : ℕ} (h : cpuLimitOf p b=.ok lim) : lim ≤ uint64Max := by
  unfold cpuLimitOf at h
  split_ifs at h
  · exact safeProp_le_max h
  · exact (Except.ok.inj h).ge

/-- One account of `init`: a new key with its limit, folded into the least. -/
theorem init_loop_inv (ctx : TrxContext) : ∀ (as : List AccountName) (st st' : AvailableResources),
    as.Pairwise (· < ·) → (∀ a ∈ as,a ∉ st.cpuLimits.keys) → Inv st →
    as.foldlM (fun st a => do
        let lim ← cpuLimitOf (ctx.pricelist .cpu) (ctx.balance a)
        pure (⟨st.cpuLimits.assign a lim,min lim st.minCpuLimit⟩ : AvailableResources)) st=.ok st' →
      Inv st'
  | [],st,st',_,_,hinv,h => by
    rw [List.foldlM_nil] at h
    rwa [← Except.ok.inj h]
  | a :: as,st,st',hsorted,hkeys,hinv,h => by
    rw [List.foldlM_cons] at h
    obtain ⟨st₁,h₁,h⟩ := bind_eq_ok h
    obtain ⟨lim,hlim,h₁⟩ := bind_eq_ok h₁
    rw [← Except.ok.inj h₁] at h
    rw [List.pairwise_cons] at hsorted
    obtain ⟨hvals,hkeys'⟩ := st.cpuLimits.assign_perm_of_not_mem (hkeys a List.mem_cons_self) lim
    refine init_loop_inv ctx as _ st' hsorted.2 (fun b hb hbk => ?_) ⟨?_,fun b hb => ?_⟩ h
    · -- the accounts still to come are neither `a` nor already there
      rcases List.mem_cons.mp (hkeys'.subset hbk) with rfl | hbk
      · exact lt_irrefl _ (hsorted.1 _ hb)
      · exact hkeys b (List.mem_cons_of_mem a hb) hbk
    · show min lim st.minCpuLimit=_
      rw [hvals.foldl_eq,foldl_min_cons,hinv.min_eq]
    · rcases List.mem_cons.mp (hvals.subset hb) with rfl | hb
      · exact cpuLimitOf_le_max hlim
      · exact hinv.le_max b hb

theorem init_inv {ctx : TrxContext} {st : AvailableResources} (h : init ctx .initial=.ok st) : Inv st :=
  init_loop_inv ctx ctx.billToAccounts _ st ctx.billSorted (fun _ _ => by simp [AvailableResources.initial])
    inv_initial h

/-- What `update_storage_usage` can do: nothing, or set the payer's limit to
a `uint64_t` and either recompute the least limit or fold the new limit
into it, the latter only after a charge or when the payer did not hold the
least limit. -/
theorem updateStorageUsage_eq_ok {ctx : TrxContext} {st st' : AvailableResources} {storage : StoragePayerInfo}
    (h : updateStorageUsage ctx st storage=.ok st') :
    st'=st ∨ ∃ lim lim',st.cpuLimits.find? storage.payer=some lim ∧
      st'.cpuLimits=st.cpuLimits.assign storage.payer lim' ∧ (lim ≤ uint64Max → lim' ≤ uint64Max) ∧
      (st'.minCpuLimit=st'.cpuLimits.values.foldl min uint64Max ∨
        st'.minCpuLimit=min lim' st.minCpuLimit ∧ (lim≠st.minCpuLimit ∨ lim' ≤ lim)) := by
  unfold updateStorageUsage at h
  split_ifs at h with hskip
  · exact .inl (Except.ok.inj h).symm
  split at h
  · exact .inl (Except.ok.inj h).symm
  rename_i lim hfind
  obtain ⟨cost,-,h⟩ := bind_eq_ok h
  obtain ⟨cpu,-,h⟩ := bind_eq_ok h
  obtain ⟨lim',hlim',h⟩ := bind_eq_ok h
  have hcharge : 0 < storage.delta → lim' ≤ lim := fun hpos => by
    rw [chargedLimit,if_pos hpos] at hlim'
    obtain ⟨_,-,hlim'⟩ := bind_eq_ok hlim'
    rw [← Except.ok.inj hlim']
    exact Nat.sub_le _ _
  have hmax : lim ≤ uint64Max → lim' ≤ uint64Max := fun hle => by
    by_cases hpos : 0 < storage.delta
    · exact (hcharge hpos).trans hle
    · rw [chargedLimit,if_neg hpos] at hlim'
      rw [← Except.ok.inj hlim']
      split_ifs <;> omega
  refine .inr ⟨lim,lim',hfind,?_,hmax,?_⟩ <;> split_ifs at h with hneed <;> rw [← Except.ok.inj h]
  · exact .inl rfl
  · refine .inr ⟨rfl,?_⟩
    -- no recomputation: the payer did not hold the least limit, or this is a charge
    have hne : ¬(lim=st.minCpuLimit ∧ storage.delta < 0) := by simpa using hneed
    by_cases hmin : lim=st.minCpuLimit
    · exact .inr (hcharge (by omega))
    · exact .inl hmin

theorem updateStorageUsage_inv {ctx : TrxContext} {st st' : AvailableResources} {storage : StoragePayerInfo}
    (hinv : Inv st) (h : updateStorageUsage ctx st storage=.ok st') : Inv st' := by
  rcases updateStorageUsage_eq_ok h with rfl | ⟨lim,lim',hfind,hlimits,hmax,hmin⟩
  · exact hinv
  obtain ⟨i,hi,hget,hvals⟩ := st.cpuLimits.values_assign_of_find? hfind lim'
  have hlim : lim ≤ uint64Max := hinv.le_max lim (Map.mem_values_of_find? hfind)
  refine ⟨?_,fun b hb => ?_⟩
  · rcases hmin with hmin | ⟨hmin,hcase⟩
    · exact hmin
    · rw [hmin,hlimits,hvals,foldl_min_set hi _ _ (by rw [← hinv.min_eq,hget]; exact hcase.imp Ne.symm id)]
      rw [hinv.min_eq]
  · rw [hlimits,hvals] at hb
    rcases List.mem_or_eq_of_mem_set hb with hb | rfl
    · exact hinv.le_max b hb
    · exact hmax hlim

theorem chargeLimits_eq_ok {cpu : ℕ} : ∀ {vs : List ℕ} {mn r : ℕ},chargeLimits cpu vs mn=.ok r →
    r=(vs.map (· - cpu)).foldl min mn
  | [],mn,r,h => (Except.ok.inj h).symm
  | b :: vs,mn,r,h => by
    obtain ⟨-,-,h⟩ := bind_eq_ok h
    rw [chargeLimits_eq_ok h,List.map_cons,List.foldl_cons]

/-- The loop of `add_net_usage` returns when every limit covers the charge. -/
theorem chargeLimits_of_le {cpu : ℕ} : ∀ (vs : List ℕ) (mn : ℕ),(∀ b ∈ vs,cpu ≤ b) →
    ∃ r,chargeLimits cpu vs mn=.ok r
  | [],mn,_ => ⟨mn,rfl⟩
  | b :: vs,mn,hall => by
    rw [chargeLimits,(eosAssert_eq_ok).mpr (hall b List.mem_cons_self),ok_bind]
    exact chargeLimits_of_le vs _ fun c hc => hall c (List.mem_cons_of_mem b hc)

/-- What `add_net_usage` can do: nothing, or charge every limit a `cpu` no
larger than the least limit and make the least charged limit the new one. -/
theorem addNetUsage_eq_ok {ctx : TrxContext} {st st' : AvailableResources} {delta : ℤ}
    (h : addNetUsage ctx st delta=.ok st') :
    st'=st ∨ ∃ cpu,cpu ≤ st.minCpuLimit ∧
      st'=⟨st.cpuLimits.mapValues (· - cpu),(st.cpuLimits.values.map (· - cpu)).foldl min uint64Max⟩ := by
  obtain ⟨-,-,h⟩ := bind_eq_ok h
  dsimp only at h
  split_ifs at h
  · exact .inl (Except.ok.inj h).symm
  obtain ⟨cost,-,h⟩ := bind_eq_ok h
  obtain ⟨cpu,-,h⟩ := bind_eq_ok h
  obtain ⟨_,hcovered,h⟩ := bind_eq_ok h
  obtain ⟨mn,hmn,h⟩ := bind_eq_ok h
  refine .inr ⟨cpu,eosAssert_eq_ok.mp hcovered,?_⟩
  rw [← Except.ok.inj h,chargeLimits_eq_ok hmn]

theorem addNetUsage_inv {ctx : TrxContext} {st st' : AvailableResources} {delta : ℤ} (hinv : Inv st)
    (h : addNetUsage ctx st delta=.ok st') : Inv st' := by
  rcases addNetUsage_eq_ok h with rfl | ⟨cpu,-,rfl⟩
  · exact hinv
  refine ⟨by simp,fun b hb => ?_⟩
  rw [Map.values_mapValues] at hb
  obtain ⟨c,hc,rfl⟩ := List.mem_map.mp hb
  exact (Nat.sub_le c cpu).trans (hinv.le_max c hc)

theorem step_inv {ctx : TrxContext} {st st' : AvailableResources} {c : Call} (hinv : Inv st)
    (h : step ctx st c=.ok st') : Inv st' := by
  cases c with
  | storage info => exact updateStorageUsage_inv hinv h
  | net delta => exact addNetUsage_inv hinv h
  | check usage =>
    rw [step] at h
    cases hc : checkCpuUsage st usage <;> rw [hc] at h
    · exact absurd h (by simp [Except.map])
    · rw [← Except.ok.inj h]
      exact hinv

/-- The invariant holds in every state a transaction reaches. -/
theorem reachable_inv {ctx : TrxContext} {st : AvailableResources} (h : Reachable ctx st) : Inv st := by
  induction h with
  | start h => exact init_inv h
  | call c _ h ih => exact step_inv ih h

/-! ## The checks -/

theorem safePropCeil_ne_incorrect (a n d : ℕ) (strict : Bool) : safePropCeil a n d strict≠.error incorrectCpuLimit := by
  intro h
  unfold safePropCeil at h
  split_ifs at h
  · exact absurd (Except.error.inj h) (by decide)
  · rcases bind_eq_error h with h | ⟨_,-,h⟩
    · unfold downgradeCast at h
      split_ifs at h
      exact absurd (Except.error.inj h) (by simp [incorrectCpuLimit])
    · cases h

/-- From a state with the invariant, `add_net_usage` never throws
"SYSTEM: incorrect cpu limit": the charge passed the check against the
least limit, so every limit covers it. -/
theorem addNetUsage_ne_incorrect {ctx : TrxContext} {st : AvailableResources} (hinv : Inv st) (delta : ℤ) :
    addNetUsage ctx st delta≠.error incorrectCpuLimit := by
  intro h
  rcases bind_eq_error h with h | ⟨_,-,h⟩
  · exact absurd (eosAssert_eq_error h) (by decide)
  dsimp only at h
  split_ifs at h
  · cases h
  rcases bind_eq_error h with h | ⟨cost,-,h⟩
  · exact safePropCeil_ne_incorrect _ _ _ _ h
  rcases bind_eq_error h with h | ⟨cpu,-,h⟩
  · exact safePropCeil_ne_incorrect _ _ _ _ h
  rcases bind_eq_error h with h | ⟨_,hcovered,h⟩
  · exact absurd (eosAssert_eq_error h) (by decide)
  have hall : ∀ b ∈ st.cpuLimits.values,cpu ≤ b := by
    have hle := eosAssert_eq_ok.mp hcovered
    rw [ge_iff_le,hinv.min_eq,le_foldl_min_iff] at hle
    exact hle.2
  obtain ⟨r,hr⟩ := chargeLimits_of_le st.cpuLimits.values uint64Max hall
  rw [hr,ok_bind] at h
  cases h

/-- A usage that is a non-negative `int64_t` passes the check exactly when
every limit covers it. -/
theorem checkCpuUsage_eq_ok_iff {st : AvailableResources} (hinv : Inv st) {usage : ℤ} (h0 : 0 ≤ usage)
    (h63 : usage < 2^63) : checkCpuUsage st usage=.ok () ↔ ∀ b ∈ st.cpuLimits.values,usage ≤ b := by
  have hconv : (usage%2^64).toNat=usage.toNat := by rw [Int.emod_eq_of_lt h0 (by omega)]
  rw [checkCpuUsage,eosAssert_eq_ok,hconv,ge_iff_le,hinv.min_eq,le_foldl_min_iff]
  constructor
  · rintro ⟨-,hall⟩ b hb
    have := hall b hb
    omega
  · intro hall
    refine ⟨by unfold uint64Max; omega,fun b hb => ?_⟩
    have := hall b hb
    omega

/-- In every state a transaction reaches, `min_cpu_limit` is the least of
the `uint64_t` limits, `UINT64_MAX` without billed accounts; `add_net_usage`
never throws "SYSTEM: incorrect cpu limit"; and a non-negative `int64_t`
usage fails `check_cpu_usage` exactly when it is above some billed
account's limit. -/
theorem available_resources_min_cpu_limit (ctx : TrxContext) {st : AvailableResources} (h : Reachable ctx st) :
    (st.minCpuLimit=st.cpuLimits.values.foldl min uint64Max ∧ ∀ b ∈ st.cpuLimits.values,b ≤ uint64Max) ∧
      (∀ delta,addNetUsage ctx st delta≠.error "SYSTEM: incorrect cpu limit") ∧
      ∀ usage : ℤ,0 ≤ usage → usage < 2^63 →
        (checkCpuUsage st usage≠.ok () ↔ ∃ a lim,st.cpuLimits.find? a=some lim ∧ (lim : ℤ) < usage) := by
  have hinv := reachable_inv h
  refine ⟨⟨hinv.min_eq,hinv.le_max⟩,addNetUsage_ne_incorrect hinv,fun usage h0 h63 => ?_⟩
  rw [Ne,checkCpuUsage_eq_ok_iff hinv h0 h63]
  constructor
  · intro hnot
    push Not at hnot
    obtain ⟨b,hb,hlt⟩ := hnot
    obtain ⟨a,ha⟩ := Map.mem_values_iff.mp hb
    exact ⟨a,b,ha,hlt⟩
  · rintro ⟨a,lim,ha,hlt⟩ hall
    exact absurd (hall lim (Map.mem_values_of_find? ha)) (not_le.mpr hlt)

/-- A transaction that bills account 1, with a balance of 100 at a CPU
price of one. -/
def oneAccount : TrxContext where
  explicitBilledCpuTime := false
  pricelist := fun _ => ⟨1,1⟩
  billToAccounts := [1]
  billSorted := List.pairwise_singleton _ _
  balance := fun _ => 100

/-- Its state after `init`: account 1 can still pay for 100. -/
def oneAccountState : AvailableResources := ⟨Map.empty.assign 1 100,100⟩

theorem one_account_min_cpu_limit :
    oneAccountState.minCpuLimit=oneAccountState.cpuLimits.values.foldl min uint64Max ∧
      ∀ delta,addNetUsage oneAccount oneAccountState delta≠.error "SYSTEM: incorrect cpu limit" :=
  let h := available_resources_min_cpu_limit oneAccount (.start rfl)
  ⟨h.1.1,h.2.1⟩

end Cyberway.TrxResources
