import Cyberway.FlatMap
import Cyberway.CppInt

/-!
# Proxied stake

`stake.cpp` keeps, for each token, the agents that hold stake, the grants
through which an agent proxies part of its stake to another, and the
candidates that collect votes. `update_proxied` refreshes an agent's
proxied funds along its grants, recursively, and recalls whole the grants
that broke; `recall_proxied` takes a percentage of one grant back. A recall
walks the grants of the recipient recursively and takes the same proportion
of the balance and of the shares at every level; the balance changes of
candidates (agents of proxy level 0) are collected in `votes_changes`, which
`set_votes` then adds to their votes and to the token's total.

The model holds one token's rows: each table is a `flat_map` from its
`by_key` index to the fields the functions read. Signed arithmetic on the
`int64_t` fields is undefined where the result does not fit. The C++
recursion ends because the grants form an acyclic graph; here it is bounded
by `depth`, and a run that needs more stops with `.undefined`. A grant
cursor visits the grants of one grantor in key order and skips those erased
on the way, as a `chaindb` cursor does.
-/

namespace Cyberway.Stake

open FlatMap CppInt

/-- `account_name`, as its 64-bit value. -/
abbrev AccountName := ℕ

/-- The key of a grant in `stake.grant`'s `by_key` index: grantor, then recipient. -/
abbrev GrantKey := Lex (AccountName × AccountName)

/-- `stake_agent_object`: the fields the traversals read or write. -/
structure Agent where
  /-- `proxy_level`: 0 for a candidate's agent. -/
  proxyLevel : ℕ
  /-- `last_proxied_update`, in seconds. -/
  lastProxiedUpdate : ℕ
  balance : ℤ
  proxied : ℤ
  /-- `shares_sum`: the agent's own share and the shares granted to it. -/
  sharesSum : ℤ
  fee : ℤ
  minOwnStaked : ℤ
  deriving DecidableEq, Repr

/-- `stake_grant_object`, without its key. -/
structure Grant where
  pct : ℤ
  share : ℤ
  breakFee : ℤ
  breakMinOwnStaked : ℤ
  deriving DecidableEq, Repr

/-- `stake_candidate_object`: what `set_votes` reads and writes. -/
structure Candidate where
  /-- `latest_pick`, in seconds. -/
  latestPick : ℕ
  votes : ℤ
  priority : ℤ
  deriving DecidableEq, Repr

/-- `stake_stat_object`: the fields read here. -/
structure Stat where
  totalVotes : ℤ
  /-- `last_reward`, in seconds. -/
  lastReward : ℕ
  deriving DecidableEq, Repr

/-- `autorc_info_t`. -/
structure AutorcInfo where
  breakFeeEnabled : Bool
  breakMinStakeEnabled : Bool
  deriving DecidableEq, Repr

/-- The two tables the traversals change, `stake.agent` and `stake.grant`. -/
structure Tables where
  agents : Map AccountName Agent
  grants : Map GrantKey Grant

/-- One token's staking rows. -/
structure Ledger where
  tables : Tables
  candidates : Map AccountName Candidate
  /-- `stake.autorc`'s `by_key` index, if the system ABI has the table. -/
  autorcs : Option (Map AccountName AutorcInfo)
  /-- Whether the token has a `stake.param` row. -/
  hasParam : Bool
  stat : Option Stat
  /-- The `supply` of the token's row in `cyber.token`'s `stat` table, if any. -/
  supply : Option ℤ

/-- `votes_changes`: the balance change of each candidate's agent. -/
abbrev VotesChanges := Map AccountName ℤ

/-! ## Arithmetic -/

/-- The `int64_t` result of an operator whose mathematical result is `x`. -/
def int64 (x : ℤ) : Cpp ℤ := defined (signed 64 x)

/-- `std::numeric_limits<int64_t>::max()`. -/
def int64Max : ℤ := 2^63-1

/-- `config::percent_100`. -/
def percent100 : ℤ := 10000

/-- `config::priority_precision`. -/
def priorityPrecision : ℤ := 1000000

/-- `downgrade_cast<int64_t>` from `int128_t`, strict: out of range it throws. -/
def downgradeCast (val : ℤ) : Cpp ℤ := do
  check (Representable 64 val)
    "Casting a higher bit integer value ${v} to a lower bit integer value which cannot contain the value, valid range is [${min}, ${max}]"
  pure val

/-- `safe_prop<int64_t>`: `arg * numer / denom` in 128 bits, rounded toward
zero, and cast back; a zero divisor is undefined. -/
def safeProp (arg numer denom : ℤ) : Cpp ℤ :=
  if arg=0 ∨ numer=0 then pure 0
  else do
    let q ← defined (if denom=0 then none else some ((arg*numer).tdiv denom))
    downgradeCast q

/-- `safe_pct<int64_t>`: `arg` hundredths of a percent of `total`. -/
def safePct (arg total : ℤ) : Cpp ℤ := safeProp arg total percent100

/-! ## Rows -/

/-- `get_agent`. -/
def getAgent (t : Tables) (name : AccountName) : Cpp Agent :=
  match t.agents.find? name with
  | some a => .ok a
  | none => .error (.exception "agent doesn't exist")

/-- `agents_idx.modify(*agent, f)`: the agent's row rewritten by `f`. -/
def modifyAgent (t : Tables) (name : AccountName) (f : Agent → Cpp Agent) : Cpp Tables := do
  let a ← getAgent t name
  let a ← f a
  pure {t with agents := t.agents.assign name a}

/-- `*grant_itr`: the row under a cursor; one whose row was erased is undefined. -/
def getGrant (t : Tables) (key : GrantKey) : Cpp Grant := defined (t.grants.find? key)

/-- The recipients of `grantor`'s grants in key order: the rows a cursor
from `lower_bound(grant_key(token_code, grantor))` walks while the grantor
matches. -/
def recipients (t : Tables) (grantor : AccountName) : List AccountName :=
  (t.grants.keys.filter fun k => (ofLex k).1=grantor).map fun k => (ofLex k).2

/-- `votes_changes[name] -= delta`. -/
def subChange (vc : VotesChanges) (name : AccountName) (delta : ℤ) : Cpp VotesChanges := do
  let c ← int64 ((vc.find? name).getD 0-delta)
  pure (vc.assign name c)

/-- `autorcs_t`'s index: `stake.autorc`'s, unless the table is missing or
has no row for the empty account. -/
def autorcIndex (table : Option (Map AccountName AutorcInfo)) : Option (Map AccountName AutorcInfo) :=
  match table with
  | some m => if (m.find? 0).isSome then some m else none
  | none => none

/-- `autorcs_t::get`. -/
def autorcsGet (idx : Option (Map AccountName AutorcInfo)) (account : AccountName) : AutorcInfo :=
  match idx with
  | none => ⟨true,true⟩
  | some m => (m.find? account).getD ⟨false,false⟩

/-! ## The traversals -/

/-- What `recall_proxied_traversal` takes: the grant under the cursor, the
share to recall from its recipient, `forced_erase`, the tables and
`votes_changes`; it returns the amount recalled. -/
abbrev RecallFn := GrantKey → ℤ → Bool → Tables → VotesChanges → Cpp (ℤ × Tables × VotesChanges)

/-- The loop of `recall_proxied_traversal` over the grants of `grantor`:
each grant gives up its share times `share / sharesSum`. -/
def recallLoop (recallChild : RecallFn) (grantor : AccountName) (share sharesSum : ℤ) :
    List AccountName → ℤ → Tables → VotesChanges → Cpp (ℤ × Tables × VotesChanges)
  | [],proxiedRet,t,vc => pure (proxiedRet,t,vc)
  | r::rs,proxiedRet,t,vc =>
    match t.grants.find? (toLex (grantor,r)) with
    | none => recallLoop recallChild grantor share sharesSum rs proxiedRet t vc
    | some g => do
      let curShare ← safeProp g.share share sharesSum
      let (ret,t,vc) ← recallChild (toLex (grantor,r)) curShare false t vc
      let proxiedRet ← int64 (proxiedRet+ret)
      recallLoop recallChild grantor share sharesSum rs proxiedRet t vc

/-- `recall_proxied_traversal`: recall `share` of the shares of the
recipient of grant `key`, that proportion of its balance and, recursively,
of the grants it made; the grant loses the share, or is erased. -/
def recallProxiedTraversal : ℕ → RecallFn
  | 0,_,_,_,_,_ => .error .undefined
  | depth+1,key,share,forcedErase,t,vc => do
    let name := (ofLex key).2
    let agent ← getAgent t name
    check (share≥0) "SYSTEM: share can't be negative"
    check (share≤agent.sharesSum) "SYSTEM: incorrect share val"
    let balanceRet ← safeProp agent.balance share agent.sharesSum
    check (balanceRet≤agent.balance) "SYSTEM: incorrect balance_ret val"
    let (proxiedRet,t,vc) ←
      recallLoop (recallProxiedTraversal depth) name share agent.sharesSum (recipients t name) 0 t vc
    check (proxiedRet≤agent.proxied) "SYSTEM: incorrect proxied_ret val"
    let t ← modifyAgent t name fun a => do
      let balance ← int64 (a.balance-balanceRet)
      let proxied ← int64 (a.proxied-proxiedRet)
      let sharesSum ← int64 (a.sharesSum-share)
      pure {a with balance,proxied,sharesSum}
    let vc ← (if agent.proxyLevel=0 then subChange vc name balanceRet else pure vc)
    let ret ← int64 (balanceRet+proxiedRet)
    let g ← getGrant t key
    if (g.pct≠0 ∨ g.share>share) ∧ forcedErase=false then do
      let rest ← int64 (g.share-share)
      pure (ret,{t with grants := t.grants.assign key {g with share := rest}},vc)
    else pure (ret,{t with grants := t.grants.erase key},vc)

/-- What `update_proxied_traversal` takes below the top: the agent's name and
row, the tables and `votes_changes`. -/
abbrev UpdateFn := AccountName → Agent → Tables → VotesChanges → Cpp (Tables × VotesChanges)

/-- `grantor_breaks_due_to_fee`: the recipient's fee rose above the grant's limit. -/
def breaksDueToFee (autorc : AutorcInfo) (g : Grant) (proxyAgent : Agent) : Bool :=
  autorc.breakFeeEnabled && decide (g.breakFee<proxyAgent.fee)

/-- `grantor_breaks_due_to_stake`: the recipient's own stake fell below the grant's limit. -/
def breaksDueToStake (autorc : AutorcInfo) (g : Grant) (proxyAgent : Agent) : Bool :=
  autorc.breakMinStakeEnabled && decide (g.breakMinOwnStaked>proxyAgent.minOwnStaked)

/-- The loop of `update_proxied_traversal` over the grants of `name`: bring
each recipient up to date, then count its funds through the grant, or
recall the grant whole when the recipient's proxy level is not below the
grantor's or the grant breaks on the recipient's fee or own stake. -/
def updateLoop (updateChild : UpdateFn) (recallChild : RecallFn) (autorc : AutorcInfo) (name : AccountName)
    (agent : Agent) : List AccountName → ℤ → ℤ → Tables → VotesChanges → Cpp (ℤ × ℤ × Tables × VotesChanges)
  | [],newProxied,recalled,t,vc => pure (newProxied,recalled,t,vc)
  | r::rs,newProxied,recalled,t,vc =>
    match t.grants.find? (toLex (name,r)) with
    | none => updateLoop updateChild recallChild autorc name agent rs newProxied recalled t vc
    | some _ => do
      let proxyAgent ← getAgent t r
      let (t,vc) ← updateChild r proxyAgent t vc
      -- `proxy_agent` and the cursor read the rows the recursion left
      let proxyAgent ← getAgent t r
      let g ← getGrant t (toLex (name,r))
      if proxyAgent.proxyLevel<agent.proxyLevel ∧ breaksDueToFee autorc g proxyAgent=false ∧
          breaksDueToStake autorc g proxyAgent=false then do
        let newProxied ← (if proxyAgent.sharesSum≠0 then do
            let funds ← int64 (proxyAgent.balance+proxyAgent.proxied)
            let p ← safeProp funds g.share proxyAgent.sharesSum
            int64 (newProxied+p)
          else pure newProxied)
        updateLoop updateChild recallChild autorc name agent rs newProxied recalled t vc
      else do
        let (ret,t,vc) ← recallChild (toLex (name,r)) g.share true t vc
        let recalled ← int64 (recalled+ret)
        updateLoop updateChild recallChild autorc name agent rs newProxied recalled t vc

/-- `update_proxied_traversal` from the agent `name`, whose row is `agent`:
unless it is up to date and not forced, walk its grants, take back what was
recalled and set its proxied funds and update time. -/
def updateProxiedTraversal (now : ℕ) (idx : Option (Map AccountName AutorcInfo)) (lastReward : ℕ)
    (force : Bool) : ℕ → UpdateFn
  | 0,_,_,_,_ => .error .undefined
  | depth+1,name,agent,t,vc =>
    if lastReward≥agent.lastProxiedUpdate ∨ force=true then do
      let (newProxied,recalled,t,vc) ←
        updateLoop (updateProxiedTraversal now idx lastReward force depth) (recallProxiedTraversal depth)
          (autorcsGet idx name) name agent (recipients t name) 0 0 t vc
      let t ← modifyAgent t name fun a => do
        let balance ← int64 (a.balance+recalled)
        pure {a with balance,proxied := newProxied,lastProxiedUpdate := now}
      pure (t,vc)
    else pure (t,vc)

/-! ## What each step does -/

section Steps

variable {t t' : Tables} {vc vc' : VotesChanges} {name : AccountName}

theorem int64_eq_ok {x y : ℤ} : int64 x=.ok y ↔ Representable 64 x ∧ y=x := defined_signed_eq_ok

theorem downgradeCast_eq_ok {v q : ℤ} (h : downgradeCast v=.ok q) : q=v := by
  obtain ⟨⟨⟩,-,h⟩ := bind_eq_ok h
  exact (Except.ok.inj h).symm

theorem safeProp_comm (a n d : ℤ) : safeProp a n d=safeProp n a d := by
  unfold safeProp
  by_cases h : a=0 ∨ n=0
  · rw [if_pos h,if_pos h.symm]
  · rw [if_neg h,if_neg (show ¬(n=0 ∨ a=0) from fun h' => h h'.symm),mul_comm]

/-- A proportion of at most one of a non-negative amount lies between zero
and the amount. -/
theorem safeProp_bounds {a n d q : ℤ} (ha : 0≤a) (hn : 0≤n) (hnd : n≤d) (h : safeProp a n d=.ok q) :
    0≤q ∧ q≤a := by
  unfold safeProp at h
  by_cases h0 : a=0 ∨ n=0
  · rw [if_pos h0] at h
    cases h
    exact ⟨le_rfl,ha⟩
  · rw [if_neg h0] at h
    obtain ⟨q₀,hq₀,h⟩ := bind_eq_ok h
    have hd : 0<d := by omega
    rw [if_neg hd.ne',defined_some,Except.ok.injEq] at hq₀
    rw [downgradeCast_eq_ok h,← hq₀,Int.tdiv_eq_ediv_of_nonneg (mul_nonneg ha hn)]
    exact ⟨Int.ediv_nonneg (mul_nonneg ha hn) hd.le,Int.ediv_le_of_le_mul hd (mul_le_mul_of_nonneg_left hnd ha)⟩

theorem getAgent_eq_ok {a : Agent} : getAgent t name=.ok a ↔ t.agents.find? name=some a := by
  cases h : t.agents.find? name with
  | none => simp [getAgent,h]
  | some a' => simp [getAgent,h]

theorem getGrant_eq_ok {key : GrantKey} {g : Grant} : getGrant t key=.ok g ↔ t.grants.find? key=some g := by
  cases h : t.grants.find? key with
  | none => simp [getGrant,h]
  | some g' => simp [getGrant,h]

/-- A row that was modified existed, and holds what `f` made of it. -/
theorem modifyAgent_eq_ok {f : Agent → Cpp Agent} (h : modifyAgent t name f=.ok t') :
    ∃ a a',t.agents.find? name=some a ∧ f a=.ok a' ∧ t'={t with agents := t.agents.assign name a'} := by
  obtain ⟨a,ha,h⟩ := bind_eq_ok h
  obtain ⟨a',ha',h⟩ := bind_eq_ok h
  exact ⟨a,a',getAgent_eq_ok.mp ha,ha',(Except.ok.inj h).symm⟩

theorem subChange_eq_ok {delta : ℤ} (h : subChange vc name delta=.ok vc') :
    vc'=vc.assign name ((vc.find? name).getD 0-delta) := by
  obtain ⟨c,hc,h⟩ := bind_eq_ok h
  rw [int64_eq_ok] at hc
  rw [← hc.2]
  exact (Except.ok.inj h).symm

theorem recallLoop_nil (c : RecallFn) (grantor : AccountName) (s S acc : ℤ) (t : Tables) (vc : VotesChanges) :
    recallLoop c grantor s S [] acc t vc=.ok (acc,t,vc) := rfl

theorem updateLoop_nil (u : UpdateFn) (c : RecallFn) (autorc : AutorcInfo) (name : AccountName) (agent : Agent)
    (newProxied recalled : ℤ) (t : Tables) (vc : VotesChanges) :
    updateLoop u c autorc name agent [] newProxied recalled t vc=.ok (newProxied,recalled,t,vc) := rfl

/-- Past the depth bound a recall stops. -/
theorem recallProxiedTraversal_zero (key : GrantKey) (share : ℤ) (forcedErase : Bool) (t : Tables)
    (vc : VotesChanges) : recallProxiedTraversal 0 key share forcedErase t vc=.error .undefined := rfl

/-- Past the depth bound an update stops. -/
theorem updateProxiedTraversal_zero (now : ℕ) (idx : Option (Map AccountName AutorcInfo)) (lastReward : ℕ)
    (force : Bool) (name : AccountName) (agent : Agent) (t : Tables) (vc : VotesChanges) :
    updateProxiedTraversal now idx lastReward force 0 name agent t vc=.error .undefined := rfl

/-- An agent the recall loop passes over has no grant left from `grantor`. -/
theorem recallLoop_cons_of_none {c : RecallFn} {grantor r : AccountName} {rs : List AccountName} {s S acc : ℤ}
    (hg : t.grants.find? (toLex (grantor,r))=none) :
    recallLoop c grantor s S (r::rs) acc t vc=recallLoop c grantor s S rs acc t vc := by
  rw [recallLoop,hg]

/-- One turn of the recall loop over a grant that is still there. -/
theorem recallLoop_cons_of_some {c : RecallFn} {grantor r : AccountName} {rs : List AccountName} {s S acc : ℤ}
    {g : Grant} {res : ℤ × Tables × VotesChanges} (hg : t.grants.find? (toLex (grantor,r))=some g)
    (h : recallLoop c grantor s S (r::rs) acc t vc=.ok res) :
    ∃ cur ret t₁ vc₁,safeProp g.share s S=.ok cur ∧ c (toLex (grantor,r)) cur false t vc=.ok (ret,t₁,vc₁) ∧
      Representable 64 (acc+ret) ∧ recallLoop c grantor s S rs (acc+ret) t₁ vc₁=.ok res := by
  rw [recallLoop,hg] at h
  obtain ⟨cur,hcur,h⟩ := bind_eq_ok h
  obtain ⟨⟨ret,t₁,vc₁⟩,hret,h⟩ := bind_eq_ok h
  obtain ⟨acc₁,hacc,h⟩ := bind_eq_ok h
  obtain ⟨hrep,rfl⟩ := int64_eq_ok.mp hacc
  exact ⟨cur,ret,t₁,vc₁,hcur,hret,hrep,h⟩

/-- What a successful `recall_proxied_traversal` did: it checked the share,
took `balanceRet` of the recipient's balance and `proxiedRet` from the
grants below, wrote the recipient's row and `votes_changes`, and cut or
erased the grant. -/
theorem recallProxiedTraversal_succ_eq_ok {depth : ℕ} {key : GrantKey} {share ret : ℤ} {forcedErase : Bool}
    (h : recallProxiedTraversal (depth+1) key share forcedErase t vc=.ok (ret,t',vc')) :
    ∃ (agent : Agent) (balanceRet proxiedRet : ℤ) (t₁ : Tables) (vc₁ : VotesChanges) (a₁ : Agent) (g : Grant),
      t.agents.find? (ofLex key).2=some agent ∧ 0 ≤ share ∧
      share≤agent.sharesSum ∧ safeProp agent.balance share agent.sharesSum=.ok balanceRet ∧
      recallLoop (recallProxiedTraversal depth) (ofLex key).2 share agent.sharesSum (recipients t (ofLex key).2)
        0 t vc=.ok (proxiedRet,t₁,vc₁) ∧
      t₁.agents.find? (ofLex key).2=some a₁ ∧ t₁.grants.find? key=some g ∧ ret=balanceRet+proxiedRet ∧
      vc'=(if agent.proxyLevel=0 then vc₁.assign (ofLex key).2 ((vc₁.find? (ofLex key).2).getD 0-balanceRet)
        else vc₁) ∧
      (let t₂ : Tables := {t₁ with agents := (t₁.agents.assign (ofLex key).2
        {a₁ with balance := a₁.balance-balanceRet,proxied := a₁.proxied-proxiedRet,sharesSum := a₁.sharesSum-share})}
       ((g.pct≠0 ∨ g.share>share) ∧ forcedErase=false ∧
          t'={t₂ with grants := t₂.grants.assign key {g with share := g.share-share}}) ∨
        (¬((g.pct≠0 ∨ g.share>share) ∧ forcedErase=false) ∧ t'={t₂ with grants := t₂.grants.erase key})) := by
  rw [recallProxiedTraversal] at h
  obtain ⟨agent,hagent,h⟩ := bind_eq_ok h
  obtain ⟨⟨⟩,hs₀,h⟩ := bind_eq_ok h
  obtain ⟨⟨⟩,hsS,h⟩ := bind_eq_ok h
  obtain ⟨balanceRet,hbr,h⟩ := bind_eq_ok h
  obtain ⟨⟨⟩,-,h⟩ := bind_eq_ok h
  obtain ⟨⟨proxiedRet,t₁,vc₁⟩,hloop,h⟩ := bind_eq_ok h
  obtain ⟨⟨⟩,-,h⟩ := bind_eq_ok h
  obtain ⟨t₂,ht₂,h⟩ := bind_eq_ok h
  obtain ⟨a₁,a₂,ha₁,ha₂,rfl⟩ := modifyAgent_eq_ok ht₂
  obtain ⟨b,hb,ha₂⟩ := bind_eq_ok ha₂
  obtain ⟨p,hp,ha₂⟩ := bind_eq_ok ha₂
  obtain ⟨q,hq,ha₂⟩ := bind_eq_ok ha₂
  rw [int64_eq_ok] at hb hp hq
  obtain ⟨-,rfl⟩ := hb
  obtain ⟨-,rfl⟩ := hp
  obtain ⟨-,rfl⟩ := hq
  cases ha₂
  obtain ⟨vc₂,hvc₂,h⟩ := bind_eq_ok h
  obtain ⟨r,hr,h⟩ := bind_eq_ok h
  obtain ⟨-,rfl⟩ := int64_eq_ok.mp hr
  obtain ⟨g,hg,h⟩ := bind_eq_ok h
  rw [getGrant_eq_ok] at hg
  refine ⟨agent,balanceRet,proxiedRet,t₁,vc₁,a₁,g,getAgent_eq_ok.mp hagent,check_eq_ok.mp hs₀,check_eq_ok.mp hsS,
    hbr,hloop,ha₁,hg,?_⟩
  split_ifs at h with hcut
  · obtain ⟨rest,hrest,h⟩ := bind_eq_ok h
    obtain ⟨-,rfl⟩ := int64_eq_ok.mp hrest
    cases h
    refine ⟨rfl,?_,.inl ⟨hcut.1,hcut.2,rfl⟩⟩
    split_ifs at hvc₂ with h0
    · rw [if_pos h0,subChange_eq_ok hvc₂]
    · rw [if_neg h0]
      exact (Except.ok.inj hvc₂).symm
  · cases h
    refine ⟨rfl,?_,.inr ⟨hcut,rfl⟩⟩
    split_ifs at hvc₂ with h0
    · rw [if_pos h0,subChange_eq_ok hvc₂]
    · rw [if_neg h0]
      exact (Except.ok.inj hvc₂).symm

/-- An agent the update loop passes over has no grant left from `name`. -/
theorem updateLoop_cons_of_none {u : UpdateFn} {c : RecallFn} {autorc : AutorcInfo} {agent : Agent}
    {r : AccountName} {rs : List AccountName} {newProxied recalled : ℤ}
    (hg : t.grants.find? (toLex (name,r))=none) :
    updateLoop u c autorc name agent (r::rs) newProxied recalled t vc=
      updateLoop u c autorc name agent rs newProxied recalled t vc := by
  rw [updateLoop,hg]

/-- One turn of the update loop over a grant that is still there: the
recipient is brought up to date, then the grant is kept, or recalled whole. -/
theorem updateLoop_cons_of_some {u : UpdateFn} {c : RecallFn} {autorc : AutorcInfo} {agent : Agent}
    {r : AccountName} {rs : List AccountName} {newProxied recalled : ℤ} {g₀ : Grant}
    {res : ℤ × ℤ × Tables × VotesChanges} (hg : t.grants.find? (toLex (name,r))=some g₀)
    (h : updateLoop u c autorc name agent (r::rs) newProxied recalled t vc=.ok res) :
    ∃ (proxyAgent : Agent) (t₁ : Tables) (vc₁ : VotesChanges) (proxyAgent₁ : Agent) (g : Grant),
      t.agents.find? r=some proxyAgent ∧ u r proxyAgent t vc=.ok (t₁,vc₁) ∧
      t₁.agents.find? r=some proxyAgent₁ ∧ t₁.grants.find? (toLex (name,r))=some g ∧
      (((proxyAgent₁.proxyLevel<agent.proxyLevel ∧ breaksDueToFee autorc g proxyAgent₁=false ∧
          breaksDueToStake autorc g proxyAgent₁=false) ∧
          ∃ newProxied',updateLoop u c autorc name agent rs newProxied' recalled t₁ vc₁=.ok res) ∨
      (¬(proxyAgent₁.proxyLevel<agent.proxyLevel ∧ breaksDueToFee autorc g proxyAgent₁=false ∧
          breaksDueToStake autorc g proxyAgent₁=false) ∧
          ∃ ret t₂ vc₂,c (toLex (name,r)) g.share true t₁ vc₁=.ok (ret,t₂,vc₂) ∧ Representable 64 (recalled+ret) ∧
            updateLoop u c autorc name agent rs newProxied (recalled+ret) t₂ vc₂=.ok res)) := by
  rw [updateLoop,hg] at h
  obtain ⟨proxyAgent,hpa,h⟩ := bind_eq_ok h
  obtain ⟨⟨t₁,vc₁⟩,hu,h⟩ := bind_eq_ok h
  obtain ⟨proxyAgent₁,hpa₁,h⟩ := bind_eq_ok h
  obtain ⟨g,hg₁,h⟩ := bind_eq_ok h
  refine ⟨proxyAgent,t₁,vc₁,proxyAgent₁,g,getAgent_eq_ok.mp hpa,hu,getAgent_eq_ok.mp hpa₁,getGrant_eq_ok.mp hg₁,?_⟩
  by_cases hkeep : proxyAgent₁.proxyLevel<agent.proxyLevel ∧ breaksDueToFee autorc g proxyAgent₁=false ∧
      breaksDueToStake autorc g proxyAgent₁=false
  · rw [if_pos hkeep] at h
    obtain ⟨newProxied',-,h⟩ := bind_eq_ok h
    exact .inl ⟨hkeep,newProxied',h⟩
  · rw [if_neg hkeep] at h
    obtain ⟨⟨ret,t₂,vc₂⟩,hret,h⟩ := bind_eq_ok h
    obtain ⟨recalled',hrec,h⟩ := bind_eq_ok h
    obtain ⟨hrep,rfl⟩ := int64_eq_ok.mp hrec
    exact .inr ⟨hkeep,ret,t₂,vc₂,hret,hrep,h⟩

/-- What a successful `update_proxied_traversal` did: nothing if the agent
was up to date and the walk not forced; otherwise it walked the grants and
wrote the agent's balance, proxied funds and update time. -/
theorem updateProxiedTraversal_succ_eq_ok {now lastReward depth : ℕ} {idx : Option (Map AccountName AutorcInfo)}
    {force : Bool} {agent : Agent}
    (h : updateProxiedTraversal now idx lastReward force (depth+1) name agent t vc=.ok (t',vc')) :
    (¬(lastReward≥agent.lastProxiedUpdate ∨ force=true) ∧ t'=t ∧ vc'=vc) ∨
      ((lastReward≥agent.lastProxiedUpdate ∨ force=true) ∧
        ∃ (newProxied recalled : ℤ) (t₁ : Tables) (a₁ : Agent),
          updateLoop (updateProxiedTraversal now idx lastReward force depth) (recallProxiedTraversal depth)
            (autorcsGet idx name) name agent (recipients t name) 0 0 t vc=.ok (newProxied,recalled,t₁,vc') ∧
          t₁.agents.find? name=some a₁ ∧
          t'={t₁ with agents := (t₁.agents.assign name
            {a₁ with balance := a₁.balance+recalled,proxied := newProxied,lastProxiedUpdate := now})}) := by
  rw [updateProxiedTraversal] at h
  split_ifs at h with hrun
  · obtain ⟨⟨newProxied,recalled,t₁,vc₁⟩,hloop,h⟩ := bind_eq_ok h
    obtain ⟨t₂,ht₂,h⟩ := bind_eq_ok h
    cases h
    obtain ⟨a₁,a₂,ha₁,ha₂,rfl⟩ := modifyAgent_eq_ok ht₂
    obtain ⟨b,hb,ha₂⟩ := bind_eq_ok ha₂
    obtain ⟨-,rfl⟩ := int64_eq_ok.mp hb
    cases ha₂
    exact .inr ⟨hrun,newProxied,recalled,t₁,a₁,hloop,ha₁,rfl⟩
  · cases h
    exact .inl ⟨hrun,rfl,rfl⟩

end Steps

/-! ## Votes -/

/-- `stake_candidate_object::set_votes`. -/
def Candidate.setVotes (c : Candidate) (arg curSupply : ℤ) : Cpp Candidate := do
  check (arg≥0) "SYSTEM: votes can't be nagative"
  if arg=0 then pure {c with votes := arg,priority := int64Max}
  else
    -- `latest_pick.sec_since_epoch()` is a `uint32_t` and `priority_precision`
    -- an `int32_t`: their product is taken in `uint32_t`
    let priority128 := min ((curSupply*priorityPrecision).tdiv arg) int64Max+
      ((c.latestPick*priorityPrecision.toNat)%2^32 : ℕ)
    pure {c with votes := arg,priority := (min priority128 int64Max).bmod (2^64)}

/-- The sum of the changes, in an `int64_t` accumulator. -/
def sumChanges : List ℤ → ℤ → Cpp ℤ
  | [],s => pure s
  | v::vs,s => do
    let s ← int64 (s+v)
    sumChanges vs s

/-- `candidates_idx.find(...)`, asserted to exist. -/
def getCandidate (cands : Map AccountName Candidate) (name : AccountName) : Cpp Candidate :=
  match cands.find? name with
  | some c => .ok c
  | none => .error (.exception "SYSTEM: candidate doesn't exist")

/-- The loop of `set_votes` over the changes, in key order. -/
def applyChanges (supply : ℤ) : Map AccountName Candidate → List (AccountName × ℤ) → Cpp (Map AccountName Candidate)
  | cands,[] => pure cands
  | cands,(name,change)::rest => do
    let c ← getCandidate cands name
    let votes ← int64 (c.votes+change)
    let c ← c.setVotes votes supply
    applyChanges supply (cands.assign name c) rest

/-- The supply in the token contract's `stat` row. -/
def getSupply (l : Ledger) : Cpp ℤ :=
  match l.supply with
  | some s => pure s
  | none => .error (.exception "SYSTEM: token doesn't exist")

/-- `set_votes`: the changes added to the token's total votes and to each
candidate's votes. -/
def setVotes (l : Ledger) (stat : Stat) (vc : VotesChanges) : Cpp Ledger := do
  let sum ← sumChanges vc.values 0
  let totalVotes ← int64 (stat.totalVotes+sum)
  let supply ← getSupply l
  let candidates ← applyChanges supply l.candidates vc.toList
  pure {l with stat := some {stat with totalVotes},candidates}

theorem Candidate.setVotes_votes {c c' : Candidate} {arg curSupply : ℤ} (h : c.setVotes arg curSupply=.ok c') :
    c'.votes=arg := by
  obtain ⟨-,-,h⟩ := bind_eq_ok h
  dsimp only at h
  split_ifs at h <;> cases h <;> rfl

theorem sumChanges_eq_ok : ∀ {vs : List ℤ} {s s' : ℤ},sumChanges vs s=.ok s' → s'=s+vs.sum
  | [],s,s',h => by
    cases h
    rw [List.sum_nil,add_zero]
  | v::vs,s,s',h => by
    obtain ⟨s₁,h₁,h⟩ := bind_eq_ok h
    rw [sumChanges_eq_ok h,(int64_eq_ok.mp h₁).2,List.sum_cons,add_assoc]

theorem applyChanges_cons_eq_ok {supply change : ℤ} {cands cands' : Map AccountName Candidate} {name : AccountName}
    {rest : List (AccountName × ℤ)} (h : applyChanges supply cands ((name,change)::rest)=.ok cands') :
    ∃ c c',cands.find? name=some c ∧ c'.votes=c.votes+change ∧ applyChanges supply (cands.assign name c') rest=.ok cands' := by
  rw [applyChanges] at h
  obtain ⟨c,hc,h⟩ := bind_eq_ok h
  obtain ⟨votes,hv,h⟩ := bind_eq_ok h
  obtain ⟨c',hc',h⟩ := bind_eq_ok h
  refine ⟨c,c',?_,(Candidate.setVotes_votes hc').trans (int64_eq_ok.mp hv).2,h⟩
  cases hf : cands.find? name with
  | none => simp [getCandidate,hf] at hc
  | some c₀ => simpa [getCandidate,hf] using hc

theorem setVotes_eq_ok {l l' : Ledger} {stat : Stat} {vc : VotesChanges} (h : setVotes l stat vc=.ok l') :
    ∃ sum supply candidates,sumChanges vc.values 0=.ok sum ∧ getSupply l=.ok supply ∧
      applyChanges supply l.candidates vc.toList=.ok candidates ∧
      l'={l with stat := some {stat with totalVotes := stat.totalVotes+sum},candidates} := by
  obtain ⟨sum,hs,h⟩ := bind_eq_ok h
  obtain ⟨totalVotes,ht,h⟩ := bind_eq_ok h
  obtain ⟨supply,hsup,h⟩ := bind_eq_ok h
  obtain ⟨candidates,hc,h⟩ := bind_eq_ok h
  refine ⟨sum,supply,candidates,hs,hsup,hc,?_⟩
  cases h
  rw [(int64_eq_ok.mp ht).2]

/-! ## The entry points -/

/-- The token's `stake.stat` row, which both entry points require. -/
def getStat (l : Ledger) : Cpp Stat :=
  match l.stat with
  | some s => pure s
  | none => .error (.exception "no staking for token")

/-- `update_proxied`. -/
def updateProxied (depth now : ℕ) (l : Ledger) (account : AccountName) (force : Bool) : Cpp Ledger := do
  let stat ← getStat l
  let agent ← getAgent l.tables account
  let (t,vc) ← updateProxiedTraversal now (autorcIndex l.autorcs) stat.lastReward force depth account agent
    l.tables Map.empty
  setVotes {l with tables := t} stat vc

/-- The loop of `recall_proxied` over the grantor's grants: it stops at the
grant to `recipientName` and recalls `pct` of it, and leaves the amount `0`
when there is none. -/
def recallGrant (depth : ℕ) (t : Tables) (vc : VotesChanges) (grantorName recipientName : AccountName) (pct : ℤ) :
    Cpp (ℤ × Tables × VotesChanges) :=
  match t.grants.find? (toLex (grantorName,recipientName)) with
  | some g => do
    let share ← safePct pct g.share
    recallProxiedTraversal depth (toLex (grantorName,recipientName)) share false t vc
  | none => pure (0,t,vc)

/-- `recall_proxied`: bring the grantor up to date, forced, then recall
`pct` hundredths of a percent of its grant to `recipientName`. -/
def recallProxied (depth now : ℕ) (l : Ledger) (grantorName recipientName : AccountName) (pct : ℤ) :
    Cpp Ledger := do
  check (1≤pct ∧ pct≤percent100) "pct must be between 0.01% and 100% (1-10000)"
  check (l.hasParam=true) "no staking for token"
  let stat ← getStat l
  let grantorAsAgent ← getAgent l.tables grantorName
  let (t,vc) ← updateProxiedTraversal now (autorcIndex l.autorcs) 0 true depth grantorName grantorAsAgent
    l.tables Map.empty
  let (amount,t,vc) ← recallGrant depth t vc grantorName recipientName pct
  check (amount>0) "amount to recall must be positive"
  let t ← modifyAgent t grantorName fun a => do
    let balance ← int64 (a.balance+amount)
    let proxied ← int64 (a.proxied-amount)
    pure {a with balance,proxied}
  setVotes {l with tables := t} stat vc

theorem getStat_eq_ok {l : Ledger} {stat : Stat} : getStat l=.ok stat ↔ l.stat=some stat := by
  cases h : l.stat with
  | none => simp [getStat,h]
  | some s => simp [getStat,h,pure,Except.pure]

theorem updateProxied_eq_ok {depth now : ℕ} {l l' : Ledger} {account : AccountName} {force : Bool}
    (h : updateProxied depth now l account force=.ok l') :
    ∃ stat agent t vc,getStat l=.ok stat ∧ l.tables.agents.find? account=some agent ∧
      updateProxiedTraversal now (autorcIndex l.autorcs) stat.lastReward force depth account agent l.tables Map.empty=
        .ok (t,vc) ∧ setVotes {l with tables := t} stat vc=.ok l' := by
  obtain ⟨stat,hs,h⟩ := bind_eq_ok h
  obtain ⟨agent,ha,h⟩ := bind_eq_ok h
  obtain ⟨⟨t,vc⟩,hu,h⟩ := bind_eq_ok h
  exact ⟨stat,agent,t,vc,hs,getAgent_eq_ok.mp ha,hu,h⟩

theorem recallGrant_eq_ok {depth : ℕ} {t t' : Tables} {vc vc' : VotesChanges} {grantorName recipientName : AccountName}
    {pct amount : ℤ} (h : recallGrant depth t vc grantorName recipientName pct=.ok (amount,t',vc')) :
    (∃ g share,t.grants.find? (toLex (grantorName,recipientName))=some g ∧ safePct pct g.share=.ok share ∧
      recallProxiedTraversal depth (toLex (grantorName,recipientName)) share false t vc=.ok (amount,t',vc')) ∨
    amount=0 := by
  unfold recallGrant at h
  cases hg : t.grants.find? (toLex (grantorName,recipientName)) with
  | none =>
    rw [hg] at h
    cases h
    exact .inr rfl
  | some g =>
    rw [hg] at h
    obtain ⟨share,hs,h⟩ := bind_eq_ok h
    exact .inl ⟨g,share,rfl,hs,h⟩

theorem recallProxied_eq_ok {depth now : ℕ} {l l' : Ledger} {grantorName recipientName : AccountName} {pct : ℤ}
    (h : recallProxied depth now l grantorName recipientName pct=.ok l') :
    1 ≤ pct ∧ pct ≤ percent100 ∧ ∃ stat grantor t₁ vc₁ g share amount t₂ vc₂ a,getStat l=.ok stat ∧
      l.tables.agents.find? grantorName=some grantor ∧
      updateProxiedTraversal now (autorcIndex l.autorcs) 0 true depth grantorName grantor l.tables Map.empty=
        .ok (t₁,vc₁) ∧
      t₁.grants.find? (toLex (grantorName,recipientName))=some g ∧ safePct pct g.share=.ok share ∧
      recallProxiedTraversal depth (toLex (grantorName,recipientName)) share false t₁ vc₁=.ok (amount,t₂,vc₂) ∧
      0<amount ∧ t₂.agents.find? grantorName=some a ∧
      setVotes {l with tables := {t₂ with agents := (t₂.agents.assign grantorName
        {a with balance := a.balance+amount,proxied := a.proxied-amount})}} stat vc₂=.ok l' := by
  obtain ⟨_,hpct,h⟩ := bind_eq_ok h
  obtain ⟨-,-,h⟩ := bind_eq_ok h
  obtain ⟨stat,hs,h⟩ := bind_eq_ok h
  obtain ⟨grantor,hga,h⟩ := bind_eq_ok h
  obtain ⟨⟨t₁,vc₁⟩,hu,h⟩ := bind_eq_ok h
  obtain ⟨⟨amount,t₂,vc₂⟩,hr,h⟩ := bind_eq_ok h
  obtain ⟨_,hpos,h⟩ := bind_eq_ok h
  obtain ⟨t₃,hm,h⟩ := bind_eq_ok h
  rw [check_eq_ok] at hpct hpos
  obtain ⟨a,a',ha,hf,rfl⟩ := modifyAgent_eq_ok hm
  -- the new balance and `proxied` are representable, so they are the plain sums
  obtain ⟨balance,hb,hf⟩ := bind_eq_ok hf
  obtain ⟨proxied,hp,hf⟩ := bind_eq_ok hf
  cases hf
  rw [(int64_eq_ok.mp hb).2,(int64_eq_ok.mp hp).2] at h
  rcases recallGrant_eq_ok hr with ⟨g,share,hg,hsh,hrec⟩ | rfl
  · exact ⟨hpct.1,hpct.2,stat,grantor,t₁,vc₁,g,share,amount,t₂,vc₂,a,hs,getAgent_eq_ok.mp hga,hu,hg,hsh,hrec,hpos,ha,h⟩
  · exact absurd hpos (lt_irrefl 0)

end Cyberway.Stake
