import Mathlib

/-!
# Resource limits

The producer-voted `chain_config`, the checks `chain_config::validate`
makes of it, and what `resource_limits_manager` does with it:
`set_limit_params` turns each resource's window into a number of blocks
through `elastic_limit_parameters::set`, and `get_pricelist` splits the
total stake between the resources in proportion to their relative usage.

`validate` does not look at the windows, the decrease percentages or the
targets, so it accepts configurations that `set_limit_params` then
rejects. `get_pricelist` adds the usage percentages with
`std::accumulate(…, 0)`, an `int` accumulator: past `2 ^ 31` the sum wraps,
and the stake is no longer split in proportion.
-/

namespace Cyberway.ResourceLimits

/-- `config::percent_100`. -/
def percent100 : ℕ := 10000

/-- `config::min_resource_usage_pct`: `percent_1 / 10`. -/
def minResourceUsagePct : ℕ := 10

/-- `config::block_interval_ms`. -/
def blockIntervalMs : ℕ := 3000

/-- `config::_GB`. -/
def gb : ℕ := 1024*1024*1024

/-- The largest `uint64_t`. -/
def uint64Max : ℕ := 2^64-1

/-- `EOS_ASSERT`: throw the message unless the condition holds. -/
def eosAssert (c : Prop) [Decidable c] (msg : String) : Except String Unit :=
  if c then .ok () else .error msg

@[simp] theorem ok_bind {α β : Type} (a : α) (f : α → Except String β) : (Except.ok a >>= f)=f a := rfl

@[simp] theorem error_bind {α β : Type} (e : String) (f : α → Except String β) :
    (Except.error e >>= f : Except String β)=.error e := rfl

@[simp] theorem eosAssert_eq_ok {c : Prop} [Decidable c] {msg : String} : eosAssert c msg=.ok () ↔ c := by
  unfold eosAssert
  split_ifs with h <;> simp [h]

/-- A computation that returned ran its first part to a value. -/
theorem bind_eq_ok {α β : Type} {x : Except String α} {f : α → Except String β} {b : β}
    (h : (x >>= f)=.ok b) : ∃ a,x=.ok a ∧ f a=.ok b := by
  cases x with
  | error e =>
    rw [error_bind] at h
    exact absurd h (by simp)
  | ok a => exact ⟨a,rfl,h⟩

/-- A computation that threw threw in its first part or after it. -/
theorem bind_eq_error {α β : Type} {x : Except String α} {f : α → Except String β} {e : String}
    (h : (x >>= f)=.error e) : x=.error e ∨ ∃ a,x=.ok a ∧ f a=.error e := by
  cases x with
  | error e' =>
    rw [error_bind] at h
    exact .inl (by rw [Except.error.inj h])
  | ok a => exact .inr ⟨a,rfl,h⟩

/-- What `EOS_ASSERT` throws is its message. -/
theorem eosAssert_eq_error {c : Prop} [Decidable c] {msg e : String} (h : eosAssert c msg=.error e) : e=msg := by
  unfold eosAssert at h
  split_ifs at h
  exact (Except.error.inj h).symm

/-- `resource_id`. -/
inductive ResourceId where
  | cpu
  | net
  | ram
  | storage
  deriving DecidableEq, Repr

namespace ResourceId

/-- The resources in the order of `resource_id`, from 0 to `resources_num - 1`. -/
def all : List ResourceId := [cpu,net,ram,storage]

/-- The index of the resource in the per-resource vectors. -/
def index : ResourceId → ℕ
  | cpu => 0
  | net => 1
  | ram => 2
  | storage => 3

end ResourceId

/-- `std::vector::operator[]`: an entry past the end is undefined
behaviour, taken here as a failure. -/
def vectorAt (v : List ℕ) (i : ℕ) : Except String ℕ :=
  match v[i]? with
  | some x => .ok x
  | none => .error "vector index out of range"

/-! ## The configuration and its checks -/

/-- The fields of `chain_config` that `validate` and `set_limit_params` read. -/
structure ChainConfig where
  /-- `context_free_discount_net_usage_num`. -/
  contextFreeDiscountNetUsageNum : ℕ
  /-- `context_free_discount_net_usage_den`. -/
  contextFreeDiscountNetUsageDen : ℕ
  /-- `min_transaction_cpu_usage`. -/
  minTransactionCpuUsage : ℕ
  /-- `min_transaction_ram_usage`. -/
  minTransactionRamUsage : ℕ
  /-- `max_authority_depth`. -/
  maxAuthorityDepth : ℕ
  /-- `ram_size`. -/
  ramSize : ℕ
  /-- `reserved_ram_size`. -/
  reservedRamSize : ℕ
  /-- `max_block_usage`, per resource. -/
  maxBlockUsage : List ℕ
  /-- `max_transaction_usage`, per resource. -/
  maxTransactionUsage : List ℕ
  /-- `target_virtual_limits`, per resource. -/
  targetVirtualLimits : List ℕ
  /-- `min_virtual_limits`, per resource. -/
  minVirtualLimits : List ℕ
  /-- `max_virtual_limits`, per resource. -/
  maxVirtualLimits : List ℕ
  /-- `usage_windows` in milliseconds, per resource. -/
  usageWindows : List ℕ
  /-- `virtual_limit_decrease_pct`, per resource. -/
  virtualLimitDecreasePct : List ℕ
  /-- `virtual_limit_increase_pct`, per resource. -/
  virtualLimitIncreasePct : List ℕ
  /-- `account_usage_windows` in milliseconds, per resource. -/
  accountUsageWindows : List ℕ
  deriving DecidableEq, Repr

namespace ChainConfig

/-- The per-resource checks of `validate`. -/
def validateResource (c : ChainConfig) (i : ℕ) : Except String Unit := do
  let mn ← vectorAt c.minVirtualLimits i
  let mx ← vectorAt c.maxVirtualLimits i
  eosAssert (mn ≤ mx) "min virtual limit > max virtual limits"
  let tu ← vectorAt c.maxTransactionUsage i
  let bu ← vectorAt c.maxBlockUsage i
  eosAssert (tu < bu) "max transaction usage must be less than max block usage"

/-- `chain_config::validate`. Once the minimum transaction usage is below
the transaction maximum, which is below the block maximum, the block
maximum less the minimum does not wrap around. -/
def validate (c : ChainConfig) : Except String Unit := do
  (ResourceId.all.map ResourceId.index).forM c.validateResource
  eosAssert (c.ramSize ≥ gb) "RAM size can\x27t be less than 1 GB"
  eosAssert (c.reservedRamSize*2 ≤ c.ramSize) "Reserved RAM size can\x27t be less than half of RAM size"
  eosAssert (c.contextFreeDiscountNetUsageDen > 0)
    "net usage discount ratio for context free data cannot have a 0 denominator"
  eosAssert (c.contextFreeDiscountNetUsageNum ≤ c.contextFreeDiscountNetUsageDen)
    "net usage discount ratio for context free data cannot exceed 1"
  let cpuTrx ← vectorAt c.maxTransactionUsage ResourceId.cpu.index
  let cpuBlock ← vectorAt c.maxBlockUsage ResourceId.cpu.index
  eosAssert (c.minTransactionCpuUsage ≤ cpuTrx) "min transaction cpu usage cannot exceed max transaction cpu usage"
  eosAssert (cpuTrx < cpuBlock-c.minTransactionCpuUsage)
    "max transaction cpu usage must be at less than the difference between the max block cpu usage and the min transaction cpu usage"
  let ramTrx ← vectorAt c.maxTransactionUsage ResourceId.ram.index
  let ramBlock ← vectorAt c.maxBlockUsage ResourceId.ram.index
  eosAssert (c.minTransactionRamUsage ≤ ramTrx) "min transaction ram usage cannot exceed max transaction ram usage"
  eosAssert (ramTrx < ramBlock-c.minTransactionRamUsage)
    "max transaction ram usage must be at less than the difference between the max block ram usage and the min transaction ram usage"
  eosAssert (1 ≤ c.maxAuthorityDepth) "max authority depth should be at least 1"

end ChainConfig

/-! ## Setting the limit parameters -/

/-- `ratio`. -/
structure Ratio where
  /-- `numerator`. -/
  numerator : ℕ
  /-- `denominator`. -/
  denominator : ℕ
  deriving DecidableEq, Repr

/-- `constant_rate`: one hundred percent. -/
def constantRate : Ratio := ⟨percent100,percent100⟩

/-- `elastic_limit_parameters`. -/
structure ElasticLimitParameters where
  /-- The desired usage. -/
  target : ℕ := 0
  /-- `min`. -/
  min : ℕ := 0
  /-- `max`. -/
  max : ℕ := 0
  /-- The number of blocks that contribute to the average usage. -/
  periods : ℕ := 0
  /-- The rate at which a congested resource contracts its limit. -/
  decreaseRate : Ratio := constantRate
  /-- The rate at which an uncongested resource expands its limit. -/
  increaseRate : Ratio := constantRate
  deriving DecidableEq, Repr

/-- `elastic_limit_parameters::set`: the denominators keep their value. -/
def ElasticLimitParameters.set (p : ElasticLimitParameters)
    (target min max averageWindowMs decreasePct increasePct : ℕ) : Except String ElasticLimitParameters := do
  eosAssert (decreasePct < percent100) "incorrect elastic limit parameter \x27decrease_pct\x27"
  let periods := averageWindowMs/blockIntervalMs
  eosAssert (periods > 0) "elastic limit parameter \x27periods\x27 cannot be zero"
  pure {p with
    target := target
    min := min
    max := max
    periods := periods
    decreaseRate := {p.decreaseRate with numerator := percent100-decreasePct}
    increaseRate := {p.increaseRate with numerator := percent100+increasePct}}

/-- The fields of `resource_limits_config_object`. -/
structure ResourceConfig where
  /-- `limit_parameters`, per resource. -/
  limitParameters : ResourceId → ElasticLimitParameters
  /-- `account_usage_average_windows` in blocks, per resource. -/
  accountUsageAverageWindows : ResourceId → ℕ

/-- One turn of the loop of `set_limit_params`. -/
def setLimitParam (c : ChainConfig) (cfg : ResourceConfig) (r : ResourceId) : Except String ResourceConfig := do
  let p ← (cfg.limitParameters r).set (← vectorAt c.targetVirtualLimits r.index)
    (← vectorAt c.minVirtualLimits r.index) (← vectorAt c.maxVirtualLimits r.index)
    (← vectorAt c.usageWindows r.index) (← vectorAt c.virtualLimitDecreasePct r.index)
    (← vectorAt c.virtualLimitIncreasePct r.index)
  let window := (← vectorAt c.accountUsageWindows r.index)/blockIntervalMs
  pure {cfg with
    limitParameters := Function.update cfg.limitParameters r p
    accountUsageAverageWindows := Function.update cfg.accountUsageAverageWindows r window}

/-- `resource_limits_manager::set_limit_params`: the resources in order. -/
def setLimitParams (cfg : ResourceConfig) (c : ChainConfig) : Except String ResourceConfig :=
  ResourceId.all.foldlM (setLimitParam c) cfg

/-- `set` succeeds exactly when the decrease is below a hundred percent and
the window is at least a block long. -/
theorem set_isOk_iff (p : ElasticLimitParameters) (target min max averageWindowMs decreasePct increasePct : ℕ) :
    (∃ q, p.set target min max averageWindowMs decreasePct increasePct=.ok q) ↔
      decreasePct < percent100 ∧ blockIntervalMs ≤ averageWindowMs := by
  have hperiods : averageWindowMs/blockIntervalMs > 0 ↔ blockIntervalMs ≤ averageWindowMs :=
    Nat.div_pos_iff.trans (and_iff_right (by decide))
  unfold ElasticLimitParameters.set eosAssert
  by_cases hd : decreasePct < percent100 <;> by_cases hw : averageWindowMs/blockIntervalMs > 0 <;>
    simp [hd,hw,← hperiods]

/-- A CPU window shorter than a block stops `set_limit_params` at its first
resource, once the CPU entries it reads before are there and the decrease
is below a hundred percent. -/
theorem setLimitParams_short_cpu_window (cfg : ResourceConfig) (c : ChainConfig) {t mn mx w d i : ℕ}
    (ht : c.targetVirtualLimits[0]?=some t) (hmn : c.minVirtualLimits[0]?=some mn)
    (hmx : c.maxVirtualLimits[0]?=some mx) (hw : c.usageWindows[0]?=some w)
    (hd : c.virtualLimitDecreasePct[0]?=some d) (hi : c.virtualLimitIncreasePct[0]?=some i)
    (hdec : d < percent100) (hshort : w < blockIntervalMs) :
    setLimitParams cfg c=.error "elastic limit parameter \x27periods\x27 cannot be zero" := by
  have hlong : ¬blockIntervalMs ≤ w := Nat.not_le.mpr hshort
  simp [setLimitParams,ResourceId.all,setLimitParam,ResourceId.index,vectorAt,ht,hmn,hmx,hw,hd,hi,
    ElasticLimitParameters.set,eosAssert,hdec,hlong]

/-! ## A configuration that `validate` accepts and `set_limit_params` rejects -/

/-- The genesis configuration of `genesis_state`, with a CPU usage window of
one second: shorter than a block. -/
def shortWindowConfig : ChainConfig where
  contextFreeDiscountNetUsageNum := 20
  contextFreeDiscountNetUsageDen := 100
  minTransactionCpuUsage := 100
  minTransactionRamUsage := 1024
  maxAuthorityDepth := 6
  ramSize := 8*gb
  reservedRamSize := 512*1024*1024
  maxBlockUsage := [1400000,1024*1024,128*1024*1024,4*1024*1024]
  maxTransactionUsage := [800000,512*1024,64*1024*1024,4*1024*1024-1]
  targetVirtualLimits := [140000,512*1024,64*1024*1024,32*gb/10512000]
  minVirtualLimits := [1400000,1024*1024,32*1024*1024,16*gb/10512000]
  maxVirtualLimits := [1400000000,1000*1024*1024,1000*32*1024*1024,100*32*gb/10512000]
  usageWindows := [1000,60000,60000,86400000]
  virtualLimitDecreasePct := [100,100,100,100]
  virtualLimitIncreasePct := [10,10,10,10]
  accountUsageWindows := [3600000,3600000,3600000,2592000000]

theorem validate_accepts_unusable_window (cfg : ResourceConfig) :
    shortWindowConfig.validate=.ok () ∧
      setLimitParams cfg shortWindowConfig=.error "elastic limit parameter \x27periods\x27 cannot be zero" :=
  ⟨by decide,setLimitParams_short_cpu_window cfg _ rfl rfl rfl rfl rfl rfl (by decide) (by decide)⟩

/-! ## The price list -/

/-- A zero divisor traps; taken here as a failure. -/
def divisionByZero : String := "integer division by zero"

/-- `downgrade_cast<uint64_t>`: a strict cast throws out of range, another clamps. -/
def downgradeCast (val : ℕ) (strict : Bool) : Except String ℕ :=
  if strict then
    if val ≤ uint64Max then .ok val
    else .error "Casting a higher bit integer value ${v} to a lower bit integer value which cannot contain the value, valid range is [${min}, ${max}]"
  else .ok (min val uint64Max)

/-- `safe_prop<uint64_t>`: the product taken in 128 bits, divided and cast back. -/
def safeProp (arg numer denom : ℕ) (strict : Bool) : Except String ℕ :=
  if arg=0 ∨ numer=0 then .ok 0
  else if denom=0 then .error divisionByZero
  else downgradeCast (arg*numer/denom) strict

/-- `safe_prop_ceil<uint64_t>`: as `safe_prop`, rounded up unless the
quotient is already the largest `uint64_t`. -/
def safePropCeil (arg numer denom : ℕ) (strict : Bool) : Except String ℕ :=
  if arg=0 ∨ numer=0 then .ok 0
  else if denom=0 then .error divisionByZero
  else do
    let mul := arg*numer
    let div ← downgradeCast (mul/denom) strict
    pure (if mul%denom≠0 then (if div≠uint64Max then div+1 else div) else div)

/-- `safe_share_to_pct`: `arg` as a share of `total`, in hundredths of a percent. -/
def safeShareToPct (arg total : ℕ) : Except String ℕ := safeProp arg percent100 total true

/-- One step of `std::accumulate` from an `int`: the `int` is widened to
`uint64_t`, the sum taken modulo `2^64`, and the result stored back in the
`int`, its low 32 bits read as signed. -/
def accumulateStep (acc : ℤ) (u : ℕ) : ℤ := Int.bmod (acc%2^64+u) (2^32)

/-- `std::accumulate(used_pct.begin(), used_pct.end(), 0)` assigned to a
`uint64_t`: the `int` result is sign-extended. -/
def accumulateInt (l : List ℕ) : ℕ := ((l.foldl accumulateStep 0)%2^64).toNat

/-- What `get_pricelist` reads of `resource_limits_state_object`: the
averages of the block usage accumulators and the virtual limits. -/
structure ResourceState where
  /-- `block_usage_accumulators[i].average()`. -/
  averages : ResourceId → ℕ
  /-- `virtual_limits`. -/
  virtualLimits : ResourceId → ℕ

/-- The `stake_stat_object` of the core token, when it and the token's
`stake_param_object` exist. -/
structure StakeStat where
  /-- `enabled`. -/
  enabled : Bool
  /-- `total_staked`, an `int64_t`. -/
  totalStaked : ℤ

/-- `used_pct[i]`: the average usage as a share of the target, and at
least `min_resource_usage_pct`. -/
def usedPct (st : ResourceState) (cfg : ResourceConfig) (r : ResourceId) : Except String ℕ := do
  let pct ← safeShareToPct (st.averages r) (cfg.limitParameters r).target
  pure (max pct minResourceUsagePct)

/-- `resource_limits_manager::get_pricelist`: without enabled staking
every price is `0/1`; with it, resource `i` costs its share of the total
stake, `used_pct[i] / used_pct_sum`, per unit of its capacity in the
averaging window. -/
def getPricelist (st : ResourceState) (cfg : ResourceConfig) (stake : Option StakeStat) :
    Except String (List Ratio) := do
  let used ← ResourceId.all.mapM (usedPct st cfg)
  let usedPctSum := accumulateInt used
  match stake with
  | some stat =>
    if stat.enabled=true ∧ stat.totalStaked≠0 then do
      eosAssert (stat.totalStaked > 0) "SYSTEM: incorrect total_staked"
      (ResourceId.all.zip used).mapM fun (r,u) => do
        let n ← safePropCeil stat.totalStaked.toNat u usedPctSum true
        pure ⟨n,min (st.virtualLimits r*cfg.accountUsageAverageWindows r) uint64Max⟩
    else pure (ResourceId.all.map fun _ => ⟨0,1⟩)
  | none => pure (ResourceId.all.map fun _ => ⟨0,1⟩)

/-- `bmod` reads its argument modulo the divisor only. -/
theorem bmod_congr {x y : ℤ} {m : ℕ} (h : x%m=y%m) : Int.bmod x m=Int.bmod y m := by
  simp only [Int.bmod,h]

/-- The accumulator holds the sum so far, modulo `2^32`, as a signed value. -/
theorem foldl_accumulateStep (l : List ℕ) (s : ℤ) :
    l.foldl accumulateStep (Int.bmod s (2^32))=Int.bmod (s+l.sum) (2^32) := by
  induction l generalizing s with
  | nil => simp
  | cons u l ih =>
    -- widening to 64 bits keeps the low 32 bits
    have hstep : accumulateStep (Int.bmod s (2^32)) u=Int.bmod (s+u) (2^32) := by
      apply bmod_congr
      rw [Int.add_emod,Int.emod_emod_of_dvd _ (by norm_num),Int.bmod_emod,← Int.add_emod]
    rw [List.foldl_cons,hstep,ih,List.sum_cons,Nat.cast_add,add_assoc]

/-- `used_pct_sum` is the sum modulo `2^32`, sign-extended from 32 to 64 bits. -/
theorem accumulateInt_eq (l : List ℕ) :
    accumulateInt l=if l.sum%2^32 < 2^31 then l.sum%2^32 else l.sum%2^32+(2^64-2^32) := by
  have h := foldl_accumulateStep l 0
  rw [show Int.bmod 0 (2^32)=0 by decide,zero_add] at h
  rw [accumulateInt,h,Int.bmod]
  split_ifs <;> omega

/-- The share the claim of proportionality gives resource `i`:
`total * u_i / U` rounded up, with `U` the sum of the usage shares. -/
def proportionalShare (total u usedSum : ℕ) : ℕ := (total*u+usedSum-1)/usedSum

/-- CPU usage of 214749 per block against a CPU target of 1 and no usage of
the other resources. -/
def wrapUsage : ResourceState where
  averages := fun r => if r=.cpu then 214749 else 0
  virtualLimits := fun _ => 1

/-- Targets of 1 for the CPU and 1000 for the other resources. -/
def wrapLimits : ResourceConfig where
  limitParameters := fun r => {target := if r=.cpu then 1 else 1000}
  accountUsageAverageWindows := fun _ => 1

theorem pricelist_int_accumulator_wraps :
    ResourceId.all.mapM (usedPct wrapUsage wrapLimits)=.ok [2147490000,10,10,10] ∧
      (getPricelist wrapUsage wrapLimits (some ⟨true,1000⟩)).map (·.map Ratio.numerator)=.ok [1,1,1,1] ∧
      [2147490000,10,10,10].map (fun u => proportionalShare 1000 u [2147490000,10,10,10].sum)=[1000,1,1,1] :=
  ⟨by decide +kernel,by decide +kernel,by decide +kernel⟩

end Cyberway.ResourceLimits
