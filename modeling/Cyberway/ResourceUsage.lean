import Cyberway.ResourceLimits
import Cyberway.Transactions

/-!
# Block usage and the elastic limits

`resource_limits_state_object` keeps, per resource, the usage of the
pending block, an exponential moving average of the usage of past blocks
and a virtual limit. A transaction adds its usage to the pending block with
`add_pending_delta`, which clamps to `± INT64_MAX / 2` so that the sum of
two clamped values cannot overflow, and refuses a block past its maximum;
`process_block_usage` folds the pending usage into the average, moves the
virtual limit by its rate, clamps it to `[min, max]`, and empties the
pending block; `get_block_limit` asserts that the pending usage is under
the block maximum.

The accumulator `add` checks, before it writes, that its `uint64_t` sums
cannot wrap. Moving to a new ordinal only lowers the average, so the
checks made on the old values still cover the new ones: from values that
fit, no sum wraps.

The chain configuration that transactions are checked against may change
within a block, through `set_blockchain_parameters_packed`, and `validate`
does not look at the pending usage: a lower block maximum then leaves the
pending usage over it, and the assert of `get_block_limit` fires for the
rest of the block. Over runs whose chain configurations bound the block
maxima by `U` and the usage windows by `W` blocks, with `2·U·P + W` within
`uint64_t`, every block at a new slot goes through: `set_limit_params` and
`process_block_usage` never fail.
-/

namespace Cyberway.ResourceLimits

/-! ## The usage accumulator -/

/-- `config::rate_limiting_precision`. -/
def rateLimitingPrecision : ℕ := 1000*1000

/-- `max_raw_value`: the largest usage whose scaled value fits `uint64_t`. -/
def maxRawValue : ℕ := uint64Max/rateLimitingPrecision

/-- `integer_divide_ceil`, for a positive divisor. -/
def integerDivideCeil (num den : ℕ) : ℕ := num/den+if num % den>0 then 1 else 0

/-- Line 55 of `add`: the usage scaled by the precision and spread over the
window, rounded up and cast back to `uint64_t`; a zero window traps in the
division. -/
def valueExContrib (units windowSize : ℕ) : Except String ℕ :=
  if windowSize=0 then .error divisionByZero
  else downgradeCast (integerDivideCeil (units*rateLimitingPrecision) windowSize) true

/-- `exponential_moving_average_accumulator<>`. -/
structure UsageAccumulator where
  /-- `last_ordinal`: the last period that contributed to the average. -/
  lastOrdinal : ℕ
  /-- `value_ex`: the average, scaled by the precision. -/
  valueEx : ℕ
  /-- `consumed`: the last average and the usage of the current period. -/
  consumed : ℕ
  deriving DecidableEq, Repr

namespace UsageAccumulator

/-- The accumulator the constructor makes. -/
def zero : UsageAccumulator := ⟨0,0,0⟩

/-- `average`: the scaled value, rounded up. -/
def average (a : UsageAccumulator) : ℕ := integerDivideCeil a.valueEx rateLimitingPrecision

/-- Lines 60-65 of `add`: the scaled value decayed by the periods elapsed
since `last_ordinal`, or nothing after a whole window. -/
def decayed (a : UsageAccumulator) (ordinal windowSize : ℕ) : Except String ℕ :=
  if a.lastOrdinal+windowSize>ordinal then safeProp a.valueEx (windowSize-(ordinal-a.lastOrdinal)) windowSize true
  else pure 0

/-- Lines 58-69 of `add`: at a new ordinal the average decays, and
`consumed` restarts from it. -/
def advance (a : UsageAccumulator) (ordinal windowSize : ℕ) : Except String UsageAccumulator :=
  if ordinal≠0 ∧ a.lastOrdinal≠ordinal then do
    eosAssert (ordinal>a.lastOrdinal) "new ordinal(${n}) cannot be less than the previous ordinal(${p})"
    let valueEx ← a.decayed ordinal windowSize
    pure ⟨ordinal,valueEx,integerDivideCeil valueEx rateLimitingPrecision⟩
  else pure a

/-- `add`: `unitsSigned` more usage, or less when it is negative, in period
`ordinal` of a window of `windowSize` periods. The checks come before any
write; the `uint64_t` sums are taken modulo `2 ^ 64`. -/
def add (a : UsageAccumulator) (unitsSigned : ℤ) (ordinal windowSize : ℕ) : Except String UsageAccumulator := do
  let units := unitsSigned.natAbs
  eosAssert (unitsSigned<0 ∨ units ≤ maxRawValue)
    "Usage exceeds maximum value representable after extending for precision"
  eosAssert (unitsSigned<0 ∨ uint64Max-a.consumed ≥ units) "Overflow in tracked usage when adding usage!"
  let contrib ← valueExContrib units windowSize
  eosAssert (unitsSigned<0 ∨ uint64Max-a.valueEx ≥ contrib) "Overflow in accumulated value when adding usage!"
  let a ← a.advance ordinal windowSize
  if unitsSigned<0 then
    pure {a with consumed := a.consumed-min a.consumed units,valueEx := a.valueEx-min a.valueEx contrib}
  else
    pure {a with consumed := (a.consumed+units) % 2^64,valueEx := (a.valueEx+contrib) % 2^64}

/-- The fields of an accumulator fit their `uint64_t`. -/
structure Bounded (a : UsageAccumulator) : Prop where
  valueEx_le : a.valueEx ≤ uint64Max
  consumed_le : a.consumed ≤ uint64Max

/-! ### What one call does -/

theorem safeProp_le_self {arg numer denom r : ℕ} {strict : Bool} (h : safeProp arg numer denom strict=.ok r)
    (hn : numer ≤ denom) : r ≤ arg := by
  have hdiv : arg*numer/denom ≤ arg :=
    Nat.div_le_of_le_mul (by rw [Nat.mul_comm denom]; exact Nat.mul_le_mul_left arg hn)
  unfold safeProp downgradeCast at h
  split_ifs at h <;> cases h
  · exact Nat.zero_le _
  · exact hdiv
  · exact Nat.le_trans (Nat.min_le_left _ _) hdiv

theorem safeProp_mul_le {arg numer denom r : ℕ} {strict : Bool} (h : safeProp arg numer denom strict=.ok r) :
    r*denom ≤ arg*numer := by
  have hdiv := Nat.div_mul_le_self (arg*numer) denom
  unfold safeProp downgradeCast at h
  split_ifs at h <;> cases h
  · rw [Nat.zero_mul]
    exact Nat.zero_le _
  · exact hdiv
  · exact Nat.le_trans (Nat.mul_le_mul_right _ (Nat.min_le_left _ _)) hdiv

/-- Decay never raises the value, takes at least one period's share off it
at a later ordinal, and a whole window clears it. -/
theorem decayed_eq_ok {a : UsageAccumulator} {ordinal windowSize v : ℕ} (h : a.decayed ordinal windowSize=.ok v) :
    v ≤ a.valueEx ∧ (a.lastOrdinal+windowSize ≤ ordinal → v=0) ∧
      (a.lastOrdinal < ordinal → v*windowSize ≤ a.valueEx*(windowSize-1)) := by
  unfold decayed at h
  split_ifs at h with hin
  · refine ⟨safeProp_le_self h (Nat.sub_le _ _),fun hgap => absurd hin (by omega),fun hlt => ?_⟩
    -- the remaining share `window - elapsed` is at most `window - 1`
    exact Nat.le_trans (safeProp_mul_le h) (Nat.mul_le_mul_left _ (by omega))
  · cases h
    exact ⟨Nat.zero_le _,fun _ => rfl,fun _ => by rw [Nat.zero_mul]; exact Nat.zero_le _⟩

/-- A contribution that is computed has a positive window. -/
theorem valueExContrib_eq_ok {units windowSize c : ℕ} (h : valueExContrib units windowSize=.ok c) :
    0 < windowSize ∧ c=integerDivideCeil (units*rateLimitingPrecision) windowSize := by
  unfold valueExContrib at h
  -- the zero window is the trap, which `split_ifs` discards
  split_ifs at h with hw
  unfold downgradeCast at h
  rw [if_pos rfl] at h
  by_cases hle : integerDivideCeil (units*rateLimitingPrecision) windowSize ≤ uint64Max
  · rw [if_pos hle] at h
    exact ⟨Nat.pos_of_ne_zero hw,(Except.ok.inj h).symm⟩
  · rw [if_neg hle] at h
    cases h

theorem integerDivideCeil_le (num den : ℕ) : integerDivideCeil num den ≤ num/den+1 := by
  unfold integerDivideCeil
  split_ifs <;> omega

/-- At a new ordinal the average only decays: the accumulator is kept, or it
moves to the ordinal with a lower scaled value and `consumed` its average;
after a whole window the value is gone. -/
theorem advance_eq_ok {a a' : UsageAccumulator} {ordinal windowSize : ℕ}
    (h : a.advance ordinal windowSize=.ok a') :
    ((ordinal=0 ∨ a.lastOrdinal=ordinal) ∧ a'=a) ∨ (a'.lastOrdinal=ordinal ∧ a'.valueEx ≤ a.valueEx ∧ a'.consumed=a'.average ∧
      (a.lastOrdinal+windowSize ≤ ordinal → a'.valueEx=0) ∧ a.lastOrdinal < ordinal ∧
      a'.valueEx*windowSize ≤ a.valueEx*(windowSize-1)) := by
  unfold advance at h
  split_ifs at h with hnew
  · obtain ⟨_,hlt,h⟩ := bind_eq_ok h
    obtain ⟨v,hv,h⟩ := bind_eq_ok h
    cases h
    have hlt := eosAssert_eq_ok.mp hlt
    obtain ⟨hle,hgap,hshare⟩ := decayed_eq_ok hv
    exact .inr ⟨rfl,hle,rfl,hgap,hlt,hshare hlt⟩
  · exact .inl ⟨by omega,(Except.ok.inj h).symm⟩

/-- The average of a scaled value that fits is far below `uint64_t`'s
range, so a usage up to `max_raw_value` can be added to it. -/
theorem average_add_le {v u : ℕ} (hv : v ≤ uint64Max) (hu : u ≤ maxRawValue) :
    integerDivideCeil v rateLimitingPrecision+u ≤ uint64Max := by
  have hc := integerDivideCeil_le v rateLimitingPrecision
  have hd : v/rateLimitingPrecision ≤ maxRawValue := Nat.div_le_div_right hv
  have hm : 2*maxRawValue+1 ≤ uint64Max := by decide
  omega

/-- A call that returns: its checks passed, the window is positive, and from
values that fit, the sums do not wrap: the new accumulator is the advanced
one with the usage added exactly, or taken off down to zero. -/
theorem add_eq_ok {a a' : UsageAccumulator} {u : ℤ} {ordinal windowSize : ℕ} (ha : a.Bounded)
    (h : a.add u ordinal windowSize=.ok a') :
    ∃ adv contrib,a.advance ordinal windowSize=.ok adv ∧ valueExContrib u.natAbs windowSize=.ok contrib ∧
      if u<0 then
        a'={adv with consumed := adv.consumed-min adv.consumed u.natAbs,valueEx := adv.valueEx-min adv.valueEx contrib}
      else adv.consumed+u.natAbs ≤ uint64Max ∧ adv.valueEx+contrib ≤ uint64Max ∧
        a'={adv with consumed := adv.consumed+u.natAbs,valueEx := adv.valueEx+contrib} := by
  obtain ⟨_,hraw,h⟩ := bind_eq_ok h
  obtain ⟨_,hcons,h⟩ := bind_eq_ok h
  obtain ⟨contrib,hc,h⟩ := bind_eq_ok h
  obtain ⟨_,hval,h⟩ := bind_eq_ok h
  obtain ⟨adv,hadv,h⟩ := bind_eq_ok h
  refine ⟨adv,contrib,hadv,hc,?_⟩
  rw [eosAssert_eq_ok] at hraw hcons hval
  split_ifs at h ⊢ with hneg
  · exact (Except.ok.inj h).symm
  · have hraw := hraw.resolve_left hneg
    have hcons := hcons.resolve_left hneg
    have hval := hval.resolve_left hneg
    have hfit : adv.consumed+u.natAbs ≤ uint64Max ∧ adv.valueEx+contrib ≤ uint64Max := by
      rcases advance_eq_ok hadv with ⟨-,rfl⟩ | ⟨-,hle,hcon,-⟩
      · exact ⟨by have := ha.consumed_le; omega,by have := ha.valueEx_le; omega⟩
      · refine ⟨?_,by have := ha.valueEx_le; omega⟩
        rw [hcon]
        exact average_add_le (Nat.le_trans hle ha.valueEx_le) hraw
    refine ⟨hfit.1,hfit.2,?_⟩
    rw [← Except.ok.inj h,Nat.mod_eq_of_lt (by unfold uint64Max at hfit; omega),
      Nat.mod_eq_of_lt (by unfold uint64Max at hfit; omega)]

theorem integerDivideCeil_le_max {v : ℕ} (hv : v ≤ uint64Max) : integerDivideCeil v rateLimitingPrecision ≤ uint64Max :=
  Nat.le_trans (Nat.le_add_right _ _) (average_add_le hv (Nat.zero_le maxRawValue))

theorem advance_bounded {a a' : UsageAccumulator} {ordinal windowSize : ℕ} (ha : a.Bounded)
    (h : a.advance ordinal windowSize=.ok a') : a'.Bounded := by
  rcases advance_eq_ok h with ⟨-,rfl⟩ | ⟨-,hle,hcon,-⟩
  · exact ha
  · have hv := Nat.le_trans hle ha.valueEx_le
    exact ⟨hv,by rw [hcon]; exact integerDivideCeil_le_max hv⟩

/-- From values that fit, a call that returns leaves values that fit. -/
theorem add_bounded {a a' : UsageAccumulator} {u : ℤ} {ordinal windowSize : ℕ} (ha : a.Bounded)
    (h : a.add u ordinal windowSize=.ok a') : a'.Bounded := by
  obtain ⟨adv,contrib,hadv,-,h⟩ := add_eq_ok ha h
  have hb := advance_bounded ha hadv
  split_ifs at h with hneg
  · subst h
    exact ⟨Nat.le_trans (Nat.sub_le _ _) hb.valueEx_le,Nat.le_trans (Nat.sub_le _ _) hb.consumed_le⟩
  · obtain ⟨hcons,hval,rfl⟩ := h
    exact ⟨hval,hcons⟩

/-- From values that fit, a call that adds usage takes its `uint64_t` sums
exactly, with no wrap, and leaves values that fit. -/
theorem add_exact {a a' : UsageAccumulator} {u : ℤ} {ordinal windowSize : ℕ} (ha : a.Bounded) (hu : 0 ≤ u)
    (h : a.add u ordinal windowSize=.ok a') :
    ∃ adv contrib,a.advance ordinal windowSize=.ok adv ∧ valueExContrib u.natAbs windowSize=.ok contrib ∧
      a'={adv with consumed := adv.consumed+u.natAbs,valueEx := adv.valueEx+contrib} ∧ a'.Bounded := by
  obtain ⟨adv,contrib,hadv,hc,h'⟩ := add_eq_ok ha h
  rw [if_neg (Int.not_lt.mpr hu)] at h'
  exact ⟨adv,contrib,hadv,hc,h'.2.2,add_bounded ha h⟩

theorem add_exact_sample :
    (⟨4,5000000,7⟩ : UsageAccumulator).Bounded ∧ (0 : ℤ) ≤ 2 ∧
      ∃ a',(⟨4,5000000,7⟩ : UsageAccumulator).add 2 6 10=.ok a' ∧
        ∃ adv contrib,(⟨4,5000000,7⟩ : UsageAccumulator).advance 6 10=.ok adv ∧
          valueExContrib (2 : ℤ).natAbs 10=.ok contrib ∧
          a'={adv with consumed := adv.consumed+(2 : ℤ).natAbs,valueEx := adv.valueEx+contrib} ∧ a'.Bounded := by
  have hb : (⟨4,5000000,7⟩ : UsageAccumulator).Bounded := ⟨by decide,by decide⟩
  obtain ⟨a',h⟩ : ∃ a',(⟨4,5000000,7⟩ : UsageAccumulator).add 2 6 10=.ok a' := ⟨_,rfl⟩
  exact ⟨hb,by decide,a',h,add_exact hb (by decide) h⟩

end UsageAccumulator

/-! ## The block usage -/

/-- `resource_limits_state_object`, per resource. -/
structure LimitsState where
  /-- `block_usage_accumulators`: the average usage of past blocks. -/
  blockUsageAccumulators : ResourceId → UsageAccumulator
  /-- `pending_usage`, an `int64_t`: the usage of the pending block. -/
  pendingUsage : ResourceId → ℤ
  /-- `virtual_limits`. -/
  virtualLimits : ResourceId → ℕ

/-- The state `initialize_database` makes: no usage, and every virtual
limit at its maximum. -/
def initialState (cfg : ResourceConfig) : LimitsState :=
  ⟨fun _ => UsageAccumulator.zero,fun _ => 0,fun r => (cfg.limitParameters r).max⟩

/-- `large_number_no_overflow`: `INT64_MAX / 2`. -/
def largeNumberNoOverflow : ℤ := (2^63-1)/2

/-- A `uint64_t` converted to `int64_t`: reduced modulo `2 ^ 64` into the
signed range. -/
def int64OfUInt64 (x : ℕ) : ℤ := if x < 2^63 then x else x-2^64

/-- `std::max(std::min(x, large_number_no_overflow), -large_number_no_overflow)`. -/
def clampLarge (x : ℤ) : ℤ := max (min x largeNumberNoOverflow) (-largeNumberNoOverflow)

/-- `add_pending_delta`: the delta and the new pending usage clamped to
`± large_number_no_overflow`, and the pending usage refused past the block
maximum of the chain configuration. -/
def LimitsState.addPendingDelta (st : LimitsState) (delta : ℤ) (chainCfg : ChainConfig) (res : ResourceId) :
    Except String LimitsState := do
  let delta := clampLarge delta
  let pending := clampLarge (st.pendingUsage res+delta)
  let maxUsage := int64OfUInt64 (← vectorAt chainCfg.maxBlockUsage res.index)
  eosAssert (pending ≤ maxUsage)
    "Block has insufficient resources(${res}): delta = ${delta}, new_pending = ${new_pending}, max = ${max}"
  pure {st with pendingUsage := Function.update st.pendingUsage res pending}

/-- `update_elastic_limit`: the limit shrinks by the decrease rate while the
average usage is over the target and grows by the increase rate otherwise,
and is clamped to `[min, max]`. -/
def updateElasticLimit (currentLimit averageUsage : ℕ) (params : ElasticLimitParameters) : Except String ℕ := do
  let rate := if averageUsage>params.target then params.decreaseRate else params.increaseRate
  let result ← safeProp currentLimit rate.numerator rate.denominator false
  pure (min (max result params.min) params.max)

/-- `update_virtual_limit`. -/
def LimitsState.updateVirtualLimit (st : LimitsState) (cfg : ResourceConfig) (res : ResourceId) :
    Except String LimitsState := do
  let limit ← updateElasticLimit (st.virtualLimits res) (st.blockUsageAccumulators res).average (cfg.limitParameters res)
  pure {st with virtualLimits := Function.update st.virtualLimits res limit}

/-- One turn of the loop of `process_block_usage`: the pending usage added
to the average in period `timeSlot`, the virtual limit updated from the new
average, and the pending usage emptied. -/
def LimitsState.processResource (cfg : ResourceConfig) (timeSlot : ℕ) (st : LimitsState) (res : ResourceId) :
    Except String LimitsState := do
  let acc ← (st.blockUsageAccumulators res).add (st.pendingUsage res) timeSlot (cfg.limitParameters res).periods
  let st ← {st with blockUsageAccumulators := Function.update st.blockUsageAccumulators res acc}.updateVirtualLimit cfg res
  pure {st with pendingUsage := Function.update st.pendingUsage res 0}

/-- `process_block_usage`: the resources in order. -/
def LimitsState.processBlockUsage (st : LimitsState) (cfg : ResourceConfig) (timeSlot : ℕ) : Except String LimitsState :=
  ResourceId.all.foldlM (LimitsState.processResource cfg timeSlot) st

/-- What changes the block usage or what it is read under: a transaction's
usage (`add_transaction_usage`), a storage delta (`add_storage_usage`, once
the stake checks pass), a new chain configuration
(`set_blockchain_parameters_packed`, which a privileged contract may call
within a block), and the end of a block (`finalize_block`). -/
inductive LimitsEvent where
  | transaction (cpuUsage netUsage ramUsage : ℕ)
  | storage (delta : ℤ)
  | setParameters (c : ChainConfig)
  | block (timeSlot : ℕ)

/-- The block usage with the configurations it is read under. -/
structure LimitsChain where
  /-- `global_property_object::configuration`. -/
  chainCfg : ChainConfig
  /-- `resource_limits_config_object`. -/
  cfg : ResourceConfig
  /-- `resource_limits_state_object`. -/
  st : LimitsState

/-- Each event. The `uint64_t` usages of a transaction are passed as
`int64_t` deltas and checked against the block maxima of the chain
configuration of the moment; `set_blockchain_parameters_packed` stores any
configuration that `validate` accepts; `finalize_block` sets the limit
parameters from the chain configuration, then processes the block under
them. -/
def LimitsChain.apply (s : LimitsChain) : LimitsEvent → Except String LimitsChain
  | .transaction cpuUsage netUsage ramUsage => do
    let st ← s.st.addPendingDelta (int64OfUInt64 cpuUsage) s.chainCfg .cpu
    let st ← st.addPendingDelta (int64OfUInt64 netUsage) s.chainCfg .net
    let st ← st.addPendingDelta (int64OfUInt64 ramUsage) s.chainCfg .ram
    pure {s with st := st}
  | .storage delta => do
    let st ← s.st.addPendingDelta delta s.chainCfg .storage
    pure {s with st := st}
  | .setParameters c => do
    c.validate
    pure {s with chainCfg := c}
  | .block timeSlot => do
    let cfg ← setLimitParams s.cfg s.chainCfg
    let st ← s.st.processBlockUsage cfg timeSlot
    pure {s with cfg := cfg,st := st}

/-- The state after `evs` from `initialize_database` under the chain
configuration `chainCfg` and the resource configuration `cfg`, an event
that fails rolled back with its transaction or block. -/
def runEvents (chainCfg : ChainConfig) (cfg : ResourceConfig) (evs : List LimitsEvent) : LimitsChain :=
  Transactions.run LimitsChain.apply evs ⟨chainCfg,cfg,initialState cfg⟩

/-! ### What each call does -/

/-- The conversion never raises a value. -/
theorem int64OfUInt64_le (x : ℕ) : int64OfUInt64 x ≤ x := by
  unfold int64OfUInt64
  split_ifs <;> omega

theorem addPendingDelta_eq_ok {st st' : LimitsState} {delta : ℤ} {chainCfg : ChainConfig} {res : ResourceId}
    (h : st.addPendingDelta delta chainCfg res=.ok st') :
    ∃ m,vectorAt chainCfg.maxBlockUsage res.index=.ok m ∧
      clampLarge (st.pendingUsage res+clampLarge delta) ≤ int64OfUInt64 m ∧
      st'={st with pendingUsage := Function.update st.pendingUsage res (clampLarge (st.pendingUsage res+clampLarge delta))} := by
  obtain ⟨m,hm,h⟩ := bind_eq_ok h
  obtain ⟨_,hle,h⟩ := bind_eq_ok h
  exact ⟨m,hm,eosAssert_eq_ok.mp hle,(Except.ok.inj h).symm⟩

theorem vectorAt_of_lt {v : List ℕ} {i : ℕ} (h : i < v.length) : vectorAt v i=.ok v[i] := by
  rw [vectorAt,List.getElem?_eq_getElem h]

/-- A chain configuration with the default block maxima. -/
def sampleChainConfig : ChainConfig where
  contextFreeDiscountNetUsageNum := 20
  contextFreeDiscountNetUsageDen := 100
  minTransactionCpuUsage := 100
  minTransactionRamUsage := 1024
  maxAuthorityDepth := 6
  ramSize := 8*gb
  reservedRamSize := 512*1024*1024
  maxBlockUsage := [1400000,1024*1024,128*1024*1024,4*1024*1024]
  maxTransactionUsage := [800000,512*1024,64*1024*1024,4*1024*1024-1]
  targetVirtualLimits := [140000,512*1024,64*1024*1024,1000]
  minVirtualLimits := [1400000,1024*1024,32*1024*1024,1000]
  maxVirtualLimits := [1400000000,1000*1024*1024,1000*32*1024*1024,100000]
  usageWindows := [60000,60000,60000,60000]
  virtualLimitDecreasePct := [100,100,100,100]
  virtualLimitIncreasePct := [10,10,10,10]
  accountUsageWindows := [86400000,86400000,86400000,86400000]

/-- A resource configuration with the default rates. -/
def sampleResourceConfig : ResourceConfig := ⟨fun _ => {periods := 2,max := 1000},fun _ => 1⟩

/-! ### A new chain configuration within a block -/

/-- `sampleChainConfig` with CPU maxima of 500000 units a block and 400000
a transaction. -/
def lowerCpuConfig : ChainConfig :=
  {sampleChainConfig with
    maxBlockUsage := [500000,1024*1024,128*1024*1024,4*1024*1024]
    maxTransactionUsage := [400000,512*1024,64*1024*1024,4*1024*1024-1]}

theorem integerDivideCeil_mul_le (u : ℕ) {w : ℕ} (hw : 0 < w) : integerDivideCeil u w*w ≤ u+w-1 := by
  have hdm := Nat.div_add_mod' u w
  have hlt := Nat.mod_lt u hw
  unfold integerDivideCeil
  split_ifs with h
  · rw [Nat.add_mul,Nat.one_mul]
    omega
  · rw [Nat.add_zero]
    omega

/-- Rounding up never passes the dividend: a remainder needs a divisor of
at least two and a positive dividend. -/
theorem integerDivideCeil_le_self {x w : ℕ} (hw : 0 < w) : integerDivideCeil x w ≤ x := by
  unfold integerDivideCeil
  split_ifs with h
  · have hw2 : 1 < w := by
      by_contra hw1
      rw [show w=1 by omega,Nat.mod_one] at h
      exact lt_irrefl 0 h
    have hx : 0 < x := Nat.pos_of_ne_zero (by rintro rfl; rw [Nat.zero_mod] at h; exact lt_irrefl 0 h)
    have := Nat.div_lt_self hx hw2
    omega
  · rw [Nat.add_zero]
    exact Nat.div_le_self x w

/-- The decayed value and a new contribution, both rounded, stay under
`B + W` when the old value did and the window is at most `W`. -/
theorem decay_add_le {d v c w W B : ℕ} (hw : 0 < w) (hwW : w ≤ W) (hd : d*w ≤ v*(w-1)) (hv : v ≤ B+W)
    (hc : c*w ≤ B+w-1) : d+c ≤ B+W := by
  have h₁ : v*(w-1) ≤ (B+W)*(w-1) := Nat.mul_le_mul_right _ hv
  have h₂ : (B+W)*(w-1)+(B+W)=(B+W)*w := by
    rw [← Nat.mul_succ]
    congr 1
    omega
  have h₃ : (d+c)*w < (B+W)*w := by
    rw [Nat.add_mul]
    omega
  exact Nat.le_of_lt (Nat.lt_of_mul_lt_mul_right h₃)

namespace UsageAccumulator

/-- The bound of an accumulator fed usage within `± U` once per period of
windows of at most `W` periods. -/
structure BlockBound (U W : ℕ) (a : UsageAccumulator) : Prop where
  valueEx_le : a.valueEx ≤ U*rateLimitingPrecision+W
  consumed_le : a.consumed ≤ 2*U+W+1

theorem blockBound_zero (U W : ℕ) : BlockBound U W zero := ⟨Nat.zero_le _,Nat.zero_le _⟩

/-- The average of a value under `U·P + W` is under `U + W + 1`. -/
theorem average_le_of_le {v U W : ℕ} (hv : v ≤ U*rateLimitingPrecision+W) :
    integerDivideCeil v rateLimitingPrecision ≤ U+W+1 := by
  have h₁ := integerDivideCeil_le v rateLimitingPrecision
  have h₂ : v/rateLimitingPrecision ≤ U+W :=
    calc v/rateLimitingPrecision ≤ (W+rateLimitingPrecision*U)/rateLimitingPrecision :=
          Nat.div_le_div_right (by rw [Nat.mul_comm]; omega)
      _ = W/rateLimitingPrecision+U := Nat.add_mul_div_left _ _ (by decide)
      _ ≤ U+W := by have := Nat.div_le_self W rateLimitingPrecision; omega
  omega

/-- A call at a new, positive ordinal with a usage of at most `U`, over a
window of at most `W` periods, keeps the bound: the decay takes at least a
period's share off the old value, and the new contribution is at most a
period's share of `U·P`. -/
theorem add_blockBound {U W w ordinal : ℕ} {u : ℤ} {a a' : UsageAccumulator} (hb : BlockBound U W a) (ha : a.Bounded)
    (hu : 0 ≤ u → u.natAbs ≤ U) (hwW : w ≤ W) (hpos : 0 < ordinal) (hnew : a.lastOrdinal < ordinal)
    (h : a.add u ordinal w=.ok a') : BlockBound U W a' ∧ a'.lastOrdinal=ordinal := by
  obtain ⟨adv,contrib,hadv,hc,h⟩ := add_eq_ok ha h
  obtain ⟨hw,rfl⟩ := valueExContrib_eq_ok hc
  rcases advance_eq_ok hadv with ⟨hold,-⟩ | ⟨hord,hle,hcon,-,-,hshare⟩
  · omega
  have hv : adv.valueEx ≤ U*rateLimitingPrecision+W := Nat.le_trans hle hb.valueEx_le
  have havg : adv.consumed ≤ U+W+1 := by
    rw [hcon]
    exact average_le_of_le hv
  split_ifs at h with hneg
  · subst h
    exact ⟨⟨Nat.le_trans (Nat.sub_le _ _) hv,Nat.le_trans (Nat.sub_le _ _) (by omega)⟩,hord⟩
  · obtain ⟨-,-,rfl⟩ := h
    have hU := hu (Int.not_lt.mp hneg)
    have hcw : integerDivideCeil (u.natAbs*rateLimitingPrecision) w*w ≤ U*rateLimitingPrecision+w-1 :=
      Nat.le_trans (integerDivideCeil_mul_le _ hw) (by have := Nat.mul_le_mul_right rateLimitingPrecision hU; omega)
    exact ⟨⟨decay_add_le hw hwW hshare hb.valueEx_le hcw,show adv.consumed+u.natAbs ≤ _ by omega⟩,hord⟩

theorem safeProp_ok {arg numer denom : ℕ} (hd : 0 < denom) (hn : numer ≤ denom) (harg : arg ≤ uint64Max) :
    ∃ r,safeProp arg numer denom true=.ok r := by
  have hdiv : arg*numer/denom ≤ arg :=
    Nat.div_le_of_le_mul (by rw [Nat.mul_comm denom]; exact Nat.mul_le_mul_left arg hn)
  by_cases h0 : arg=0 ∨ numer=0
  · exact ⟨0,by rw [safeProp,if_pos h0]⟩
  · exact ⟨_,by rw [safeProp,if_neg h0,if_neg (by omega),downgradeCast,if_pos rfl,if_pos (Nat.le_trans hdiv harg)]⟩

/-- At a later, positive ordinal the decay divides by the window, which is
positive while it is still running. -/
theorem advance_ok {a : UsageAccumulator} {ordinal windowSize : ℕ} (hpos : 0 < ordinal) (hnew : a.lastOrdinal < ordinal)
    (hv : a.valueEx ≤ uint64Max) : ∃ adv,a.advance ordinal windowSize=.ok adv := by
  have hd : ∃ v,a.decayed ordinal windowSize=.ok v := by
    unfold decayed
    split_ifs with hin
    · exact safeProp_ok (by omega) (Nat.sub_le _ _) hv
    · exact ⟨0,rfl⟩
  obtain ⟨v,hd⟩ := hd
  refine ⟨⟨ordinal,v,integerDivideCeil v rateLimitingPrecision⟩,?_⟩
  rw [advance,if_pos ⟨Nat.pos_iff_ne_zero.mp hpos,Nat.ne_of_lt hnew⟩,eosAssert_eq_ok.mpr hnew,ok_bind,hd,ok_bind]
  rfl

theorem valueExContrib_ok {units windowSize : ℕ} (hw : 0 < windowSize) (hle : units*rateLimitingPrecision ≤ uint64Max) :
    valueExContrib units windowSize=.ok (integerDivideCeil (units*rateLimitingPrecision) windowSize) := by
  rw [valueExContrib,if_neg (Nat.pos_iff_ne_zero.mp hw),downgradeCast,if_pos rfl,
    if_pos (Nat.le_trans (integerDivideCeil_le_self hw) hle)]

/-- From the bound, a call at a new, positive ordinal with a usage within
`± U` over a positive window passes every check, when `2·U·P + W` fits
`uint64_t`. -/
theorem add_ok {U W w ordinal : ℕ} {u : ℤ} {a : UsageAccumulator} (hb : BlockBound U W a) (hw : 0 < w)
    (hfit : 2*U*rateLimitingPrecision+W+1 ≤ uint64Max) (hu : u.natAbs ≤ U) (hpos : 0 < ordinal)
    (hnew : a.lastOrdinal < ordinal) : ∃ a',a.add u ordinal w=.ok a' := by
  have hUP : 2*U*rateLimitingPrecision=2*(U*rateLimitingPrecision) := Nat.mul_assoc 2 U _
  have hunits : u.natAbs*rateLimitingPrecision ≤ U*rateLimitingPrecision := Nat.mul_le_mul_right _ hu
  have hcU : integerDivideCeil (u.natAbs*rateLimitingPrecision) w ≤ U*rateLimitingPrecision :=
    Nat.le_trans (integerDivideCeil_le_self hw) hunits
  have hraw : u.natAbs ≤ maxRawValue := (Nat.le_div_iff_mul_le (by decide)).mpr (by unfold uint64Max at *; omega)
  have h3U : 3*U ≤ 2*U*rateLimitingPrecision := by
    unfold rateLimitingPrecision
    omega
  have hcons : uint64Max-a.consumed ≥ u.natAbs := by
    have := hb.consumed_le
    omega
  have hval : uint64Max-a.valueEx ≥ integerDivideCeil (u.natAbs*rateLimitingPrecision) w := by
    have := hb.valueEx_le
    omega
  obtain ⟨adv,hadv⟩ := advance_ok hpos hnew (by have := hb.valueEx_le; omega)
  rw [add,eosAssert_eq_ok.mpr (Or.inr hraw),ok_bind,eosAssert_eq_ok.mpr (Or.inr hcons),ok_bind,
    valueExContrib_ok hw (by omega),ok_bind,eosAssert_eq_ok.mpr (Or.inr hval),ok_bind,hadv,ok_bind]
  split_ifs
  · exact ⟨_,rfl⟩
  · exact ⟨_,rfl⟩

/-- The bound fits `uint64_t` when `2·U·P + W` does. -/
theorem BlockBound.bounded {U W : ℕ} {a : UsageAccumulator} (hb : BlockBound U W a)
    (hfit : 2*U*rateLimitingPrecision+W+1 ≤ uint64Max) : a.Bounded := by
  have h3U : 3*U ≤ 2*U*rateLimitingPrecision := by
    unfold rateLimitingPrecision
    omega
  have hUP : 2*U*rateLimitingPrecision=2*(U*rateLimitingPrecision) := Nat.mul_assoc 2 U _
  exact ⟨by have := hb.valueEx_le; omega,by have := hb.consumed_le; omega⟩

end UsageAccumulator

open UsageAccumulator (BlockBound)

/-- What a block needs of the resource configuration for a usage of at
most `U` a block and windows of at most `W` blocks: every window is
positive and at most `W`, every rate has a positive denominator, and
`2·U·P + W` fits `uint64_t`. -/
structure ConfigFits (U W : ℕ) (cfg : ResourceConfig) : Prop where
  periods_pos : ∀ r,0 < (cfg.limitParameters r).periods
  periods_le : ∀ r,(cfg.limitParameters r).periods ≤ W
  decrease_pos : ∀ r,0 < (cfg.limitParameters r).decreaseRate.denominator
  increase_pos : ∀ r,0 < (cfg.limitParameters r).increaseRate.denominator
  fits : 2*U*rateLimitingPrecision+W+1 ≤ uint64Max

/-- `set` makes the window positive and keeps the denominators of the rates. -/
theorem set_eq_ok {p q : ElasticLimitParameters} {target min max averageWindowMs decreasePct increasePct : ℕ}
    (h : p.set target min max averageWindowMs decreasePct increasePct=.ok q) :
    q.periods=averageWindowMs/blockIntervalMs ∧ 0 < q.periods ∧
      q.decreaseRate.denominator=p.decreaseRate.denominator ∧ q.increaseRate.denominator=p.increaseRate.denominator := by
  obtain ⟨_,-,h⟩ := bind_eq_ok h
  obtain ⟨_,hw,h⟩ := bind_eq_ok h
  cases h
  exact ⟨rfl,eosAssert_eq_ok.mp hw,rfl,rfl⟩

/-- One turn of `set_limit_params`, past its six reads of the configuration,
`set` and the account window, replaces the parameters of its resource by
parameters with the window read from `usage_windows`, positive, and the old
denominators. -/
theorem setLimitParam_eq_ok {c : ChainConfig} {cfg cfg' : ResourceConfig} {r : ResourceId}
    (h : setLimitParam c cfg r=.ok cfg') :
    ∃ p,(∃ w,vectorAt c.usageWindows r.index=.ok w ∧ p.periods=w/blockIntervalMs) ∧ 0 < p.periods ∧
      p.decreaseRate.denominator=(cfg.limitParameters r).decreaseRate.denominator ∧
      p.increaseRate.denominator=(cfg.limitParameters r).increaseRate.denominator ∧
      cfg'.limitParameters=Function.update cfg.limitParameters r p := by
  obtain ⟨_,-,h⟩ := bind_eq_ok h
  obtain ⟨_,-,h⟩ := bind_eq_ok h
  obtain ⟨_,-,h⟩ := bind_eq_ok h
  obtain ⟨w,hw,h⟩ := bind_eq_ok h
  obtain ⟨_,-,h⟩ := bind_eq_ok h
  obtain ⟨_,-,h⟩ := bind_eq_ok h
  obtain ⟨p,hp,h⟩ := bind_eq_ok h
  obtain ⟨_,-,h⟩ := bind_eq_ok h
  cases h
  obtain ⟨hper,hpos,hdec,hinc⟩ := set_eq_ok hp
  exact ⟨p,⟨w,hw,hper⟩,hpos,hdec,hinc,rfl⟩

/-- `set_limit_params` with the resources `rs` still to come: the rates keep
positive denominators, and every resource done has a positive window read
from `usage_windows`. -/
structure SetProgress (c : ChainConfig) (rs : List ResourceId) (cfg : ResourceConfig) : Prop where
  denominators_pos : ∀ r,0 < (cfg.limitParameters r).decreaseRate.denominator ∧
    0 < (cfg.limitParameters r).increaseRate.denominator
  window : ∀ r,r ∉ rs → 0 < (cfg.limitParameters r).periods ∧
    ∃ w,vectorAt c.usageWindows r.index=.ok w ∧ (cfg.limitParameters r).periods=w/blockIntervalMs

theorem SetProgress.setLimitParam {c : ChainConfig} {r : ResourceId} {rs : List ResourceId} {cfg cfg' : ResourceConfig}
    (hp : SetProgress c (r::rs) cfg) (h : setLimitParam c cfg r=.ok cfg') : SetProgress c rs cfg' := by
  obtain ⟨p,hw,hpos,hdec,hinc,hcfg'⟩ := setLimitParam_eq_ok h
  refine ⟨?_,?_⟩
  · rw [hcfg']
    exact (Function.forall_update_iff _ (fun _ (q : ElasticLimitParameters) =>
      0 < q.decreaseRate.denominator ∧ 0 < q.increaseRate.denominator)).mpr
        ⟨⟨hdec ▸ (hp.denominators_pos r).1,hinc ▸ (hp.denominators_pos r).2⟩,fun r' _ => hp.denominators_pos r'⟩
  · intro r' hr'
    rw [hcfg']
    by_cases he : r'=r
    · subst he
      rw [Function.update_self]
      exact ⟨hpos,hw⟩
    · rw [Function.update_of_ne he]
      exact hp.window r' (List.not_mem_cons_of_ne_of_not_mem he hr')

/-- From parameters whose rates have positive denominators, such as the
defaults, `set_limit_params` leaves a configuration that fits a usage of
`U` a block once every window of `usage_windows`, in blocks, is at most `W`
and `2·U·P + W` fits. -/
theorem setLimitParams_configFits {c : ChainConfig} {cfg cfg' : ResourceConfig} {U W : ℕ}
    (hden : ∀ r,0 < (cfg.limitParameters r).decreaseRate.denominator ∧ 0 < (cfg.limitParameters r).increaseRate.denominator)
    (hwin : ∀ r w,vectorAt c.usageWindows (ResourceId.index r)=.ok w → w/blockIntervalMs ≤ W)
    (hfit : 2*U*rateLimitingPrecision+W+1 ≤ uint64Max) (h : setLimitParams cfg c=.ok cfg') : ConfigFits U W cfg' := by
  have hall : ∀ r,r ∈ ResourceId.all := fun r => by cases r <;> decide
  have hp := Transactions.foldlM_invariant (J := SetProgress c) (fun _ _ _ _ hp h => hp.setLimitParam h) _ _ _
    ⟨hden,fun r hr => absurd (hall r) hr⟩ h
  refine ⟨fun r => (hp.window r List.not_mem_nil).1,fun r => ?_,fun r => (hp.denominators_pos r).1,
    fun r => (hp.denominators_pos r).2,hfit⟩
  obtain ⟨-,w,hw,hper⟩ := hp.window r List.not_mem_nil
  rw [hper]
  exact hwin r w hw

/-- A rate with a positive denominator never divides by zero, and the
non-strict cast saturates: the new limit is always computed. -/
theorem updateElasticLimit_ok (currentLimit averageUsage : ℕ) {params : ElasticLimitParameters}
    (hdec : 0 < params.decreaseRate.denominator) (hinc : 0 < params.increaseRate.denominator) :
    ∃ limit,updateElasticLimit currentLimit averageUsage params=.ok limit := by
  have hsafe : ∀ rate : Ratio,0 < rate.denominator →
      ∃ r,safeProp currentLimit rate.numerator rate.denominator false=.ok r := by
    intro rate hr
    by_cases h0 : currentLimit=0 ∨ rate.numerator=0
    · exact ⟨0,by rw [safeProp,if_pos h0]⟩
    · exact ⟨_,by rw [safeProp,if_neg h0,if_neg (Nat.pos_iff_ne_zero.mp hr)]; rfl⟩
  obtain ⟨r,hr⟩ := hsafe (if averageUsage>params.target then params.decreaseRate else params.increaseRate)
    (by split_ifs <;> assumption)
  exact ⟨_,by simp only [updateElasticLimit,hr,ok_bind]; rfl⟩

theorem processResource_eq_of_ok {cfg : ResourceConfig} {timeSlot : ℕ} {st : LimitsState} {res : ResourceId}
    {acc : UsageAccumulator} {limit : ℕ}
    (hacc : (st.blockUsageAccumulators res).add (st.pendingUsage res) timeSlot (cfg.limitParameters res).periods=.ok acc)
    (hlimit : updateElasticLimit (st.virtualLimits res) acc.average (cfg.limitParameters res)=.ok limit) :
    st.processResource cfg timeSlot res=.ok ⟨Function.update st.blockUsageAccumulators res acc,
      Function.update st.pendingUsage res 0,Function.update st.virtualLimits res limit⟩ := by
  simp only [LimitsState.processResource,LimitsState.updateVirtualLimit,hacc,ok_bind,Function.update_self,hlimit]
  rfl

/-- The state of `process_block_usage` at slot `t` with the resources `rs`
still to come: these are behind `t` with a pending usage within `± U`, the
others are at `t` with nothing pending, and every accumulator keeps its
bound. -/
structure BlockProgress (U W t : ℕ) (rs : List ResourceId) (st : LimitsState) : Prop where
  bound : ∀ r,BlockBound U W (st.blockUsageAccumulators r)
  nodup : rs.Nodup
  pending_le : ∀ r ∈ rs,(st.pendingUsage r).natAbs ≤ U
  behind : ∀ r ∈ rs,(st.blockUsageAccumulators r).lastOrdinal < t
  done : ∀ r,r ∉ rs → (st.blockUsageAccumulators r).lastOrdinal=t ∧ st.pendingUsage r=0

/-- One turn of the loop goes through and moves its resource to the done ones. -/
theorem BlockProgress.processResource {U W t : ℕ} {cfg : ResourceConfig} {r : ResourceId} {rs : List ResourceId}
    {st : LimitsState} (hcfg : ConfigFits U W cfg) (ht : 0 < t) (hp : BlockProgress U W t (r::rs) st) :
    ∃ st',st.processResource cfg t r=.ok st' ∧ BlockProgress U W t rs st' := by
  have hr : r ∈ r::rs := List.mem_cons_self
  have hpend := hp.pending_le r hr
  obtain ⟨acc,hacc⟩ := UsageAccumulator.add_ok (hp.bound r) (hcfg.periods_pos r) hcfg.fits hpend ht (hp.behind r hr)
  obtain ⟨hbound,hlast⟩ := UsageAccumulator.add_blockBound (hp.bound r) ((hp.bound r).bounded hcfg.fits)
    (fun _ => hpend) (hcfg.periods_le r) ht (hp.behind r hr) hacc
  obtain ⟨limit,hlimit⟩ := updateElasticLimit_ok (st.virtualLimits r) acc.average (hcfg.decrease_pos r) (hcfg.increase_pos r)
  obtain ⟨hnot,hnodup⟩ := List.nodup_cons.mp hp.nodup
  refine ⟨_,processResource_eq_of_ok hacc hlimit,⟨?_,hnodup,?_,?_,?_⟩⟩
  · exact (Function.forall_update_iff _ (fun _ (a : UsageAccumulator) => BlockBound U W a)).mpr
      ⟨hbound,fun r' _ => hp.bound r'⟩
  · intro r' hr'
    dsimp only
    rw [Function.update_of_ne (ne_of_mem_of_not_mem hr' hnot)]
    exact hp.pending_le r' (List.mem_cons_of_mem r hr')
  · intro r' hr'
    dsimp only
    rw [Function.update_of_ne (ne_of_mem_of_not_mem hr' hnot)]
    exact hp.behind r' (List.mem_cons_of_mem r hr')
  · intro r' hr'
    dsimp only
    by_cases he : r'=r
    · subst he
      rw [Function.update_self,Function.update_self]
      exact ⟨hlast,rfl⟩
    · rw [Function.update_of_ne he,Function.update_of_ne he]
      exact hp.done r' (List.not_mem_cons_of_ne_of_not_mem he hr')

/-- A block at a new, positive slot never fails when the configuration fits
a usage of `U` a block, the accumulators keep their bound and the pending
usage is within `± U`: after it every accumulator is at the slot and keeps
its bound, and nothing is pending. -/
theorem processBlockUsage_ok {U W t : ℕ} {cfg : ResourceConfig} {st : LimitsState} (hcfg : ConfigFits U W cfg)
    (hb : ∀ r,BlockBound U W (st.blockUsageAccumulators r))
    (hu : ∀ r,(st.pendingUsage r).natAbs ≤ U) (ht : 0 < t) (hnew : ∀ r,(st.blockUsageAccumulators r).lastOrdinal < t) :
    ∃ st',st.processBlockUsage cfg t=.ok st' ∧ ∀ r,BlockBound U W (st'.blockUsageAccumulators r) ∧
      (st'.blockUsageAccumulators r).lastOrdinal=t ∧ st'.pendingUsage r=0 := by
  have hall : ∀ r,r ∈ ResourceId.all := fun r => by cases r <;> decide
  have h₀ : BlockProgress U W t ResourceId.all st :=
    ⟨hb,by decide,fun r _ => hu r,fun r _ => hnew r,fun r hr => absurd (hall r) hr⟩
  obtain ⟨st',hst',hp⟩ := Transactions.foldlM_ok (J := BlockProgress U W t)
    (fun _ _ _ hp => hp.processResource hcfg ht) _ _ h₀
  exact ⟨st',hst',fun r => ⟨hp.bound r,hp.done r List.not_mem_nil⟩⟩

/-! ### Runs with increasing slots -/

/-- What the blocks of a run need of a chain configuration, for usages of
at most `U` a block and windows of at most `W` blocks: every block maximum
is at most `U`; `set_limit_params` finds each entry it reads, each usage
window is one to `W` blocks long, and each decrease is below a hundred
percent; and `2·U·P + W` fits `uint64_t`. -/
structure ChainFits (U W : ℕ) (c : ChainConfig) : Prop where
  max_le : ∀ r : ResourceId,∃ m,vectorAt c.maxBlockUsage r.index=.ok m ∧ m ≤ U
  entries : ∀ r : ResourceId,r.index < c.targetVirtualLimits.length ∧ r.index < c.minVirtualLimits.length ∧
    r.index < c.maxVirtualLimits.length ∧ r.index < c.virtualLimitIncreasePct.length ∧
    r.index < c.accountUsageWindows.length
  window : ∀ r : ResourceId,∃ w,vectorAt c.usageWindows r.index=.ok w ∧ blockIntervalMs ≤ w ∧
    w/blockIntervalMs ≤ W
  decrease : ∀ r : ResourceId,∃ d,vectorAt c.virtualLimitDecreasePct r.index=.ok d ∧ d < percent100
  fits : 2*U*rateLimitingPrecision+W+1 ≤ uint64Max

section Fits

variable {U W : ℕ} {c : ChainConfig}

/-- Under a configuration that fits, each turn of `set_limit_params` finds
its entries and `set` accepts them. -/
theorem setLimitParam_ok (hc : ChainFits U W c) (cfg : ResourceConfig) (r : ResourceId) :
    ∃ cfg',setLimitParam c cfg r=.ok cfg' := by
  obtain ⟨ht,hmn,hmx,hi,ha⟩ := hc.entries r
  obtain ⟨w,hw,hw1,-⟩ := hc.window r
  obtain ⟨d,hd,hd1⟩ := hc.decrease r
  obtain ⟨p,hp⟩ := (set_isOk_iff (cfg.limitParameters r) c.targetVirtualLimits[r.index] c.minVirtualLimits[r.index]
    c.maxVirtualLimits[r.index] w d c.virtualLimitIncreasePct[r.index]).mpr ⟨hd1,hw1⟩
  simp only [setLimitParam,vectorAt_of_lt ht,vectorAt_of_lt hmn,vectorAt_of_lt hmx,hw,hd,vectorAt_of_lt hi,hp,
    vectorAt_of_lt ha,ok_bind]
  exact ⟨_,rfl⟩

theorem setLimitParams_ok (hc : ChainFits U W c) (cfg : ResourceConfig) : ∃ cfg',setLimitParams cfg c=.ok cfg' := by
  obtain ⟨cfg',h,-⟩ := Transactions.foldlM_ok (J := fun _ _ => True)
    (fun cfg r _ _ => (setLimitParam_ok hc cfg r).imp fun _ h => ⟨h,trivial⟩) ResourceId.all cfg trivial
  exact ⟨cfg',h⟩

/-- The windows that `set_limit_params` reads from a configuration that fits
are at most `W` blocks. -/
theorem ChainFits.window_le (hc : ChainFits U W c) (r : ResourceId) {w : ℕ} (hw : vectorAt c.usageWindows r.index=.ok w) :
    w/blockIntervalMs ≤ W := by
  obtain ⟨w',hw',-,hle⟩ := hc.window r
  rw [hw] at hw'
  cases hw'
  exact hle

end Fits

/-- The slot of a block. -/
def LimitsEvent.blockSlot : LimitsEvent → Option ℕ
  | .block timeSlot => some timeSlot
  | _ => none

/-- The slots of the blocks of a run, in order. -/
def blockSlots (evs : List LimitsEvent) : List ℕ := evs.filterMap LimitsEvent.blockSlot

theorem blockSlots_append_singleton (evs : List LimitsEvent) (ev : LimitsEvent) :
    blockSlots (evs++[ev])=blockSlots evs++ev.blockSlot.toList := by
  cases h : ev.blockSlot <;> simp [blockSlots,List.filterMap_append,h]

/-- An event within the bounds `U` and `W`: the usages it adds are
nonnegative (a transaction's are below `2 ^ 63`, so that `int64_t` reads
them as themselves, and a storage delta frees nothing), and a new chain
configuration fits usages of `U` a block and windows of `W` blocks. -/
def LimitsEvent.Within (U W : ℕ) : LimitsEvent → Prop
  | .transaction cpuUsage netUsage ramUsage => cpuUsage < 2^63 ∧ netUsage < 2^63 ∧ ramUsage < 2^63
  | .storage delta => 0 ≤ delta
  | .setParameters c => ChainFits U W c
  | .block _ => True

theorem clampLarge_nonneg {x : ℤ} (h : 0 ≤ x) : 0 ≤ clampLarge x := by
  unfold clampLarge largeNumberNoOverflow
  omega

theorem int64OfUInt64_nonneg {x : ℕ} (h : x < 2^63) : 0 ≤ int64OfUInt64 x := by
  rw [int64OfUInt64,if_pos h]
  exact Int.natCast_nonneg x

theorem runEvents_append_singleton (chainCfg : ChainConfig) (cfg : ResourceConfig) (evs : List LimitsEvent)
    (ev : LimitsEvent) :
    runEvents chainCfg cfg (evs++[ev])=Transactions.commit LimitsChain.apply (runEvents chainCfg cfg evs) ev :=
  Transactions.run_append_singleton _ evs ev _

/-- What holds between the events of a run within `U` and `W`: every
accumulator keeps its bound and sits at the start or at a slot of the run;
the pending usage lies between zero and `U`; the rates keep positive
denominators; and the chain configuration fits. -/
structure SlotInv (U W : ℕ) (slots : List ℕ) (s : LimitsChain) : Prop where
  bound : ∀ r,BlockBound U W (s.st.blockUsageAccumulators r)
  at_slot : ∀ r,(s.st.blockUsageAccumulators r).lastOrdinal=0 ∨ (s.st.blockUsageAccumulators r).lastOrdinal ∈ slots
  pending_nonneg : ∀ r,0 ≤ s.st.pendingUsage r
  pending_le : ∀ r,s.st.pendingUsage r ≤ U
  denominators_pos : ∀ r,0 < (s.cfg.limitParameters r).decreaseRate.denominator ∧
    0 < (s.cfg.limitParameters r).increaseRate.denominator
  chain_fits : ChainFits U W s.chainCfg

section Slots

variable {U W : ℕ}

theorem slotInv_initial {c : ChainConfig} {cfg : ResourceConfig} (hc : ChainFits U W c)
    (hden : ∀ r,0 < (cfg.limitParameters r).decreaseRate.denominator ∧
      0 < (cfg.limitParameters r).increaseRate.denominator) :
    SlotInv U W [] ⟨c,cfg,initialState cfg⟩ :=
  ⟨fun _ => UsageAccumulator.blockBound_zero _ _,fun _ => .inl rfl,fun _ => le_refl 0,
    fun _ => Int.natCast_nonneg U,hden,hc⟩

theorem SlotInv.mono {slots slots' : List ℕ} {s : LimitsChain} (hs : SlotInv U W slots s) (h : slots ⊆ slots') :
    SlotInv U W slots' s :=
  ⟨hs.bound,fun r => (hs.at_slot r).imp_right (@h _),hs.pending_nonneg,hs.pending_le,hs.denominators_pos,
    hs.chain_fits⟩

/-- A nonnegative delta that the block maximum admits leaves the
accumulators as they are, and the pending usage between zero and `U`. -/
theorem SlotInv.addPendingDelta {slots : List ℕ} {c : ChainConfig} {cfg : ResourceConfig} {st st' : LimitsState}
    {delta : ℤ} {res : ResourceId} (hs : SlotInv U W slots ⟨c,cfg,st⟩) (hd : 0 ≤ delta)
    (h : st.addPendingDelta delta c res=.ok st') : SlotInv U W slots ⟨c,cfg,st'⟩ := by
  obtain ⟨m,hm,hle,rfl⟩ := addPendingDelta_eq_ok h
  obtain ⟨m',hm',hmU⟩ := hs.chain_fits.max_le res
  rw [hm] at hm'
  cases hm'
  refine ⟨hs.bound,hs.at_slot,?_,?_,hs.denominators_pos,hs.chain_fits⟩
  · exact (Function.forall_update_iff _ (fun _ (p : ℤ) => 0 ≤ p)).mpr
      ⟨clampLarge_nonneg (Int.add_nonneg (hs.pending_nonneg res) (clampLarge_nonneg hd)),fun r _ => hs.pending_nonneg r⟩
  · exact (Function.forall_update_iff _ (fun _ (p : ℤ) => p ≤ U)).mpr
      ⟨Int.le_trans hle (Int.le_trans (int64OfUInt64_le m) (Int.ofNat_le.mpr hmU)),fun r _ => hs.pending_le r⟩

/-- A block at a positive slot after all the earlier ones goes through:
`set_limit_params` accepts the chain configuration and leaves a resource
configuration that fits, and `process_block_usage` passes every check. It
keeps the invariant with its slot added. -/
theorem SlotInv.block_ok {slots : List ℕ} {s : LimitsChain} {t : ℕ} (hs : SlotInv U W slots s)
    (ht : 0 < t) (hlater : ∀ x ∈ slots,x < t) :
    ∃ s',s.apply (.block t)=.ok s' ∧ SlotInv U W (slots++[t]) s' := by
  obtain ⟨cfg',hcfg'⟩ := setLimitParams_ok hs.chain_fits s.cfg
  have hfits : ConfigFits U W cfg' :=
    setLimitParams_configFits hs.denominators_pos (fun r _ hw => hs.chain_fits.window_le r hw) hs.chain_fits.fits hcfg'
  have hu : ∀ r,(s.st.pendingUsage r).natAbs ≤ U := fun r => by
    have := hs.pending_le r
    have := hs.pending_nonneg r
    omega
  have hbehind : ∀ r,(s.st.blockUsageAccumulators r).lastOrdinal < t := fun r => by
    rcases hs.at_slot r with h0 | hin
    · omega
    · exact hlater _ hin
  obtain ⟨st',hst',hdone⟩ := processBlockUsage_ok hfits hs.bound hu ht hbehind
  refine ⟨⟨s.chainCfg,cfg',st'⟩,?_,⟨fun r => (hdone r).1,fun r => .inr ?_,fun r => ?_,fun r => ?_,
    fun r => ⟨hfits.decrease_pos r,hfits.increase_pos r⟩,hs.chain_fits⟩⟩
  · simp only [LimitsChain.apply,hcfg',hst',ok_bind]
    rfl
  · rw [(hdone r).2.1]
    exact List.mem_append_right _ (List.mem_singleton_self t)
  · rw [(hdone r).2.2]
  · rw [(hdone r).2.2]
    exact Int.natCast_nonneg U

/-- A committed event within `U` and `W` keeps the invariant, a block at a
slot after all the earlier ones adding its slot. -/
theorem SlotInv.apply {slots : List ℕ} {s s' : LimitsChain} {ev : LimitsEvent}
    (hs : SlotInv U W slots s) (hev : ev.Within U W)
    (hnew : ∀ t,ev.blockSlot=some t → 0 < t ∧ ∀ x ∈ slots,x < t) (h : s.apply ev=.ok s') :
    SlotInv U W (slots++ev.blockSlot.toList) s' := by
  cases ev with
  | transaction cpuUsage netUsage ramUsage =>
    obtain ⟨hcpu,hnet,hram⟩ := hev
    obtain ⟨st₁,h₁,h⟩ := bind_eq_ok h
    obtain ⟨st₂,h₂,h⟩ := bind_eq_ok h
    obtain ⟨st₃,h₃,h⟩ := bind_eq_ok h
    cases h
    rw [show slots++(LimitsEvent.transaction cpuUsage netUsage ramUsage).blockSlot.toList=slots from List.append_nil _]
    exact ((hs.addPendingDelta (int64OfUInt64_nonneg hcpu) h₁).addPendingDelta (int64OfUInt64_nonneg hnet) h₂).addPendingDelta
      (int64OfUInt64_nonneg hram) h₃
  | storage delta =>
    obtain ⟨st₁,h₁,h⟩ := bind_eq_ok h
    cases h
    rw [show slots++(LimitsEvent.storage delta).blockSlot.toList=slots from List.append_nil _]
    exact hs.addPendingDelta hev h₁
  | setParameters c =>
    obtain ⟨_,-,h⟩ := bind_eq_ok h
    cases h
    rw [show slots++(LimitsEvent.setParameters c).blockSlot.toList=slots from List.append_nil _]
    exact ⟨hs.bound,hs.at_slot,hs.pending_nonneg,hs.pending_le,hs.denominators_pos,hev⟩
  | block t =>
    obtain ⟨ht,hlater⟩ := hnew t rfl
    obtain ⟨s'',hs'',hinv''⟩ := hs.block_ok ht hlater
    have heq : s'=s'' := Except.ok.inj (h.symm.trans hs'')
    rw [heq]
    exact hinv''

section Run

variable {c₀ : ChainConfig} {cfg₀ : ResourceConfig} (hc₀ : ChainFits U W c₀)
  (hden₀ : ∀ r,0 < (cfg₀.limitParameters r).decreaseRate.denominator ∧
    0 < (cfg₀.limitParameters r).increaseRate.denominator)
include hc₀ hden₀

/-- Along a run within `U` and `W` whose blocks come at increasing, positive
slots, the invariant holds, with the slots of the run's blocks. -/
theorem run_slotInv (evs : List LimitsEvent) (hev : ∀ ev ∈ evs,ev.Within U W) (hslots : (blockSlots evs).Pairwise (·<·))
    (hpos : ∀ t ∈ blockSlots evs,0 < t) : SlotInv U W (blockSlots evs) (runEvents c₀ cfg₀ evs) := by
  induction evs using List.reverseRecOn with
  | nil => exact slotInv_initial hc₀ hden₀
  | append_singleton evs ev ih =>
    rw [blockSlots_append_singleton] at hslots hpos ⊢
    have hs := ih (fun e he => hev e (List.mem_append_left _ he)) (List.pairwise_append.mp hslots).1
      (fun t ht => hpos t (List.mem_append_left _ ht))
    have hmem : ∀ t,ev.blockSlot=some t → t ∈ ev.blockSlot.toList := fun t ht => by
      rw [ht]
      exact List.mem_singleton_self t
    rw [runEvents_append_singleton]
    rcases Transactions.commit_cases LimitsChain.apply (runEvents c₀ cfg₀ evs) ev with hc | hc
    · rw [hc]
      exact hs.mono (List.subset_append_left _ _)
    · exact hs.apply (hev ev (List.mem_append_right _ (List.mem_singleton_self ev)))
        (fun t ht => ⟨hpos t (List.mem_append_right _ (hmem t ht)),
          fun x hx => (List.pairwise_append.mp hslots).2.2 x hx t (hmem t ht)⟩) hc

theorem run_block_ok (evs : List LimitsEvent) (hev : ∀ ev ∈ evs,ev.Within U W) (hslots : (blockSlots evs).Pairwise (·<·))
    (hpos : ∀ t ∈ blockSlots evs,0 < t) {t : ℕ} (ht : 0 < t) (hlater : ∀ x ∈ blockSlots evs,x < t) :
    ∃ s',(runEvents c₀ cfg₀ evs).apply (.block t)=.ok s' := by
  obtain ⟨s',hs',-⟩ := (run_slotInv hc₀ hden₀ evs hev hslots hpos).block_ok ht hlater
  exact ⟨s',hs'⟩

end Run

end Slots

/-- The sample configurations fit usages of `2 ^ 27` a block and windows of
20 blocks. -/
theorem sampleChainConfig_fits : ChainFits (128*1024*1024) 20 sampleChainConfig :=
  ⟨fun r => by cases r <;> exact ⟨_,rfl,by decide⟩,fun r => by cases r <;> decide,
    fun r => by cases r <;> exact ⟨_,rfl,by decide,by decide⟩,fun r => by cases r <;> exact ⟨_,rfl,by decide⟩,
    by decide⟩

theorem lowerCpuConfig_fits : ChainFits (128*1024*1024) 20 lowerCpuConfig :=
  ⟨fun r => by cases r <;> exact ⟨_,rfl,by decide⟩,fun r => by cases r <;> decide,
    fun r => by cases r <;> exact ⟨_,rfl,by decide,by decide⟩,fun r => by cases r <;> exact ⟨_,rfl,by decide⟩,
    by decide⟩

/-- A transaction, a block, a storage delta, a new chain configuration and a block. -/
def sampleRun : List LimitsEvent :=
  [.transaction 1000 200 300,.block 1,.storage 5,.setParameters lowerCpuConfig,.block 2]

theorem run_block_ok_sample :
    ChainFits (128*1024*1024) 20 sampleChainConfig ∧
      (∀ r,0 < (sampleResourceConfig.limitParameters r).decreaseRate.denominator ∧
        0 < (sampleResourceConfig.limitParameters r).increaseRate.denominator) ∧
      (∀ ev ∈ sampleRun,ev.Within (128*1024*1024) 20) ∧ (blockSlots sampleRun).Pairwise (·<·) ∧
      (∀ t ∈ blockSlots sampleRun,0 < t) ∧ 0 < 3 ∧ (∀ x ∈ blockSlots sampleRun,x < 3) ∧
      ∃ s',(runEvents sampleChainConfig sampleResourceConfig sampleRun).apply (.block 3)=.ok s' := by
  have hden : ∀ r,0 < (sampleResourceConfig.limitParameters r).decreaseRate.denominator ∧
      0 < (sampleResourceConfig.limitParameters r).increaseRate.denominator :=
    fun r => by cases r <;> exact ⟨by decide,by decide⟩
  have hev : ∀ ev ∈ sampleRun,ev.Within (128*1024*1024) 20 := by
    intro ev hev
    simp only [sampleRun,List.mem_cons,List.not_mem_nil,or_false] at hev
    rcases hev with rfl | rfl | rfl | rfl | rfl
    · exact ⟨by decide,by decide,by decide⟩
    · trivial
    · show (0 : ℤ) ≤ 5
      decide
    · exact lowerCpuConfig_fits
    · trivial
  exact ⟨sampleChainConfig_fits,hden,hev,by decide,by decide,by decide,by decide,
    run_block_ok sampleChainConfig_fits hden sampleRun hev (by decide) (by decide) (by decide) (by decide)⟩

/-- One turn of the loop of `get_used_resources_cost`: the resource's usage
at its price, rounded up, added to the cost unless that reaches
`UINT64_MAX`, where the cost stays. -/
def usedCostStep (resUsage : ResourceId → ℕ) (prices : ResourceId → Ratio) (cost : ℕ) (res : ResourceId) :
    Except String ℕ := do
  let add ← safePropCeil (resUsage res) (prices res).numerator (prices res).denominator true
  pure (if uint64Max-cost>add then cost+add else uint64Max)

/-- `get_used_resources_cost`, from the usage `get_account_usage` reports:
the cost of all resources, refused over `max_cost`. -/
def getUsedResourcesCost (resUsage : ResourceId → ℕ) (prices : ResourceId → Ratio) (maxCost : ℕ) :
    Except String ℕ := do
  let cost ← ResourceId.all.foldlM (usedCostStep resUsage prices) 0
  eosAssert (maxCost ≥ cost)
    "account ${a} has insufficient staked tokens (${s}).\n usage: cpu ${uc}, net ${un}, ram ${ur}, storage ${us}; \n prices: cpu ${pc}, net ${pn}, ram ${pr}, storage ${ps};\n cost ${c}"
  pure cost

section Cost

variable {resUsage : ResourceId → ℕ} {prices : ResourceId → Ratio} {adds : ResourceId → ℕ}

/-- The saturating sum is the sum cut at `UINT64_MAX`. -/
theorem usedCostStep_eq (hadds : ∀ r,safePropCeil (resUsage r) (prices r).numerator (prices r).denominator true=.ok (adds r))
    {cost : ℕ} (hcost : cost ≤ uint64Max) (r : ResourceId) :
    usedCostStep resUsage prices cost r=.ok (min (cost+adds r) uint64Max) := by
  rw [usedCostStep,hadds r,ok_bind]
  congr 1
  split_ifs with h <;> omega

theorem foldlM_usedCostStep (hadds : ∀ r,safePropCeil (resUsage r) (prices r).numerator (prices r).denominator true=.ok (adds r)) :
    ∀ (l : List ResourceId) {cost : ℕ},cost ≤ uint64Max →
      l.foldlM (usedCostStep resUsage prices) cost=.ok (min (cost+(l.map adds).sum) uint64Max)
  | [],cost,hcost => by
    rw [List.foldlM_nil,List.map_nil,List.sum_nil,Nat.add_zero,Nat.min_eq_left hcost]
    rfl
  | r::l,cost,hcost => by
    rw [List.foldlM_cons,usedCostStep_eq hadds hcost r,ok_bind,
      foldlM_usedCostStep hadds l (Nat.min_le_right _ _),List.map_cons,List.sum_cons]
    congr 1
    omega

/-- `get_used_resources_cost` returns the sum of the resources' costs cut at
`UINT64_MAX`, and returns exactly when that is within `max_cost`. -/
theorem getUsedResourcesCost_eq_ok_iff
    (hadds : ∀ r,safePropCeil (resUsage r) (prices r).numerator (prices r).denominator true=.ok (adds r))
    (maxCost cost : ℕ) :
    getUsedResourcesCost resUsage prices maxCost=.ok cost ↔
      cost=min (ResourceId.all.map adds).sum uint64Max ∧ cost ≤ maxCost := by
  rw [getUsedResourcesCost,foldlM_usedCostStep hadds _ (Nat.zero_le _),ok_bind,Nat.zero_add]
  unfold eosAssert
  split_ifs with hle
  · rw [ok_bind]
    constructor
    · intro h
      cases h
      exact ⟨rfl,hle⟩
    · rintro ⟨rfl,-⟩
      rfl
  · constructor
    · intro h
      cases h
    · rintro ⟨rfl,hc⟩
      exact absurd hc hle

end Cost

theorem getUsedResourcesCost_eq_ok_iff_sample :
    (∀ _ : ResourceId,safePropCeil 7 3 2 true=.ok 11) ∧
      (getUsedResourcesCost (fun _ => 7) (fun _ => ⟨3,2⟩) 50=.ok 44 ↔
        44=min (ResourceId.all.map fun _ => 11).sum uint64Max ∧ 44 ≤ 50) := by
  have hadds : ∀ _ : ResourceId,safePropCeil 7 3 2 true=.ok 11 := fun _ => rfl
  exact ⟨hadds,@getUsedResourcesCost_eq_ok_iff (fun _ => 7) (fun _ => ⟨3,2⟩) (fun _ => 11) hadds 50 44⟩

end Cyberway.ResourceLimits
