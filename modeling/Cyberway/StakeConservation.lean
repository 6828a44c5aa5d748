import Cyberway.StakeLedger

/-!
# What the stake traversals keep

A recall takes balance from the agents below a grant and hands the sum back
to the caller, which adds it to the grantor's balance: the token's total
balance is kept by `update_proxied` and `recall_proxied`. Every agent keeps
its proxy level, and grants only shrink. A candidate's agent loses exactly
what its entry in `votes_changes` records, so after `set_votes` its votes
less its balance is unchanged, as is the token's total votes less the sum of
the candidates' votes; this needs candidates' agents to grant nothing, or
the balance `update_proxied` recalls to them would be uncounted.

On an acyclic grant graph with non-negative shares, each agent also keeps
its own share, `shares_sum` less the shares granted to it: a recall takes
from the recipient's `shares_sum` the share it takes from the grant. The
recursion below a grant never touches the grants of higher-ranked grantors,
so the grant still holds the share its caller read when it is cut.
-/

namespace Cyberway.Stake

open FlatMap CppInt

/-! ## The quantities -/

/-- The sum of the agents' balances. -/
def totalBalance (t : Tables) : ℤ := (t.agents.toList.map fun p => p.2.balance).sum

/-- The balance of `x`'s agent, `0` without one. -/
def balanceOf (t : Tables) (x : AccountName) : ℤ := ((t.agents.find? x).map (·.balance)).getD 0

/-- The proxy level of `x`'s agent, if any. -/
def levelOf (t : Tables) (x : AccountName) : Option ℕ := (t.agents.find? x).map (·.proxyLevel)

/-- `x`'s entry in `votes_changes`, `0` without one. -/
def changeOf (vc : VotesChanges) (x : AccountName) : ℤ := (vc.find? x).getD 0

/-- The shares of the grants to `x`. -/
def grantedTo (t : Tables) (x : AccountName) : ℤ :=
  (t.grants.toList.map fun p => if (ofLex p.1).2=x then p.2.share else 0).sum

/-- `x`'s own share: its `shares_sum` less the shares granted to it. -/
def ownShare (t : Tables) (x : AccountName) : ℤ := ((t.agents.find? x).map (·.sharesSum)).getD 0-grantedTo t x

/-- Every grant of `t'` is one of `t`, with the same terms but a share no larger. -/
def Shrinks (t t' : Tables) : Prop :=
  ∀ k g',t'.grants.find? k=some g' → ∃ g,t.grants.find? k=some g ∧ g'.pct=g.pct ∧ g'.breakFee=g.breakFee ∧
    g'.breakMinOwnStaked=g.breakMinOwnStaked ∧ g'.share≤g.share

/-- Candidates' agents grant nothing: every grantor is a proxy. -/
def GrantorsProxy (t : Tables) : Prop :=
  ∀ k g a,t.grants.find? k=some g → t.agents.find? (ofLex k).1=some a → a.proxyLevel≠0

/-- The grants form an acyclic graph, ranked down from grantor to recipient. -/
def Ranked (rank : AccountName → ℕ) (t : Tables) : Prop :=
  ∀ k g,t.grants.find? k=some g → rank (ofLex k).2 < rank (ofLex k).1

/-- No grant holds a negative share. -/
def NonnegShares (t : Tables) : Prop := ∀ k g,t.grants.find? k=some g → 0≤g.share

/-! Each condition is one on the pairs of a table, so it can be decided on a
concrete ledger. -/

theorem grantorsProxy_iff {t : Tables} :
    GrantorsProxy t ↔ ∀ p ∈ t.grants.toList,∀ a ∈ t.agents.find? (ofLex p.1).1,a.proxyLevel≠0 :=
  ⟨fun h p hp a ha => h p.1 p.2 a (Map.find?_of_mem_toList hp) ha,
    fun h _ _ a hk ha => h _ (Map.mem_toList_of_find? hk) a ha⟩

theorem ranked_iff {rank : AccountName → ℕ} {t : Tables} :
    Ranked rank t ↔ ∀ p ∈ t.grants.toList,rank (ofLex p.1).2 < rank (ofLex p.1).1 :=
  ⟨fun h p hp => h p.1 p.2 (Map.find?_of_mem_toList hp),fun h _ _ hk => h _ (Map.mem_toList_of_find? hk)⟩

theorem nonnegShares_iff {t : Tables} : NonnegShares t ↔ ∀ p ∈ t.grants.toList,0 ≤ p.2.share :=
  ⟨fun h p hp => h p.1 p.2 (Map.find?_of_mem_toList hp),fun h _ _ hk => h _ (Map.mem_toList_of_find? hk)⟩

instance (t : Tables) : Decidable (GrantorsProxy t) := decidable_of_iff _ grantorsProxy_iff.symm

instance (rank : AccountName → ℕ) (t : Tables) : Decidable (Ranked rank t) := decidable_of_iff _ ranked_iff.symm

instance (t : Tables) : Decidable (NonnegShares t) := decidable_of_iff _ nonnegShares_iff.symm

/-! ## Writes -/

section Writes

variable {t : Tables} {name x : AccountName} {a : Agent}

theorem totalBalance_assign (h : t.agents.find? name=some a) (a' : Agent) :
    totalBalance {t with agents := t.agents.assign name a'}+a.balance=totalBalance t+a'.balance :=
  Map.sum_assign (fun p => p.2.balance) h a'

theorem balanceOf_assign (t : Tables) (name : AccountName) (a' : Agent) (x : AccountName) :
    balanceOf {t with agents := t.agents.assign name a'} x=if x=name then a'.balance else balanceOf t x := by
  unfold balanceOf
  rw [Map.find?_assign]
  split_ifs <;> rfl

theorem levelOf_assign (t : Tables) (name : AccountName) (a' : Agent) (x : AccountName) :
    levelOf {t with agents := t.agents.assign name a'} x=if x=name then some a'.proxyLevel else levelOf t x := by
  unfold levelOf
  rw [Map.find?_assign]
  split_ifs <;> rfl

/-- A write that keeps an agent's level keeps every level. -/
theorem levelOf_assign_of_level (h : t.agents.find? name=some a) {a' : Agent} (hl : a'.proxyLevel=a.proxyLevel)
    (x : AccountName) : levelOf {t with agents := t.agents.assign name a'} x=levelOf t x := by
  rw [levelOf_assign]
  split_ifs with hx
  · rw [hx,levelOf,h,hl]
    rfl
  · rfl

theorem ownShare_assign (t : Tables) (name : AccountName) (a' : Agent) (x : AccountName) :
    ownShare {t with agents := t.agents.assign name a'} x=
      if x=name then a'.sharesSum-grantedTo t x else ownShare t x := by
  unfold ownShare
  rw [Map.find?_assign]
  split_ifs <;> rfl

/-- A write that keeps an agent's `shares_sum` keeps every own share. -/
theorem ownShare_assign_of_sharesSum (h : t.agents.find? name=some a) {a' : Agent} (hs : a'.sharesSum=a.sharesSum)
    (x : AccountName) : ownShare {t with agents := t.agents.assign name a'} x=ownShare t x := by
  rw [ownShare_assign]
  split_ifs with hx
  · rw [hx,hs,ownShare,h]
    rfl
  · rfl

/-- The share a grant adds to `x`'s total. -/
def shareTo (k : GrantKey) (g : Grant) (x : AccountName) : ℤ := if (ofLex k).2=x then g.share else 0

theorem grantedTo_assign {k : GrantKey} {g : Grant} (h : t.grants.find? k=some g) (g' : Grant) (x : AccountName) :
    grantedTo {t with grants := t.grants.assign k g'} x+shareTo k g x=grantedTo t x+shareTo k g' x :=
  Map.sum_assign (fun p => if (ofLex p.1).2=x then p.2.share else 0) h g'

theorem grantedTo_erase {k : GrantKey} {g : Grant} (h : t.grants.find? k=some g) (x : AccountName) :
    grantedTo {t with grants := t.grants.erase k} x+shareTo k g x=grantedTo t x :=
  Map.sum_erase (fun p => if (ofLex p.1).2=x then p.2.share else 0) h

theorem ownShare_grant_assign {k : GrantKey} {g : Grant} (h : t.grants.find? k=some g) (g' : Grant)
    (x : AccountName) : ownShare {t with grants := t.grants.assign k g'} x+shareTo k g' x=ownShare t x+shareTo k g x := by
  have := grantedTo_assign h g' x
  unfold ownShare
  dsimp only
  linarith

theorem ownShare_grant_erase {k : GrantKey} {g : Grant} (h : t.grants.find? k=some g) (x : AccountName) :
    ownShare {t with grants := t.grants.erase k} x=ownShare t x+shareTo k g x := by
  have := grantedTo_erase h x
  unfold ownShare
  dsimp only
  linarith

end Writes

/-! ## Shrinking grants -/

namespace Shrinks

theorem refl (t : Tables) : Shrinks t t := fun _ g h => ⟨g,h,rfl,rfl,rfl,le_rfl⟩

theorem trans {t t₁ t₂ : Tables} (h₁ : Shrinks t t₁) (h₂ : Shrinks t₁ t₂) : Shrinks t t₂ := by
  intro k g₂ hk
  obtain ⟨g₁,hk₁,hp₁,hf₁,hm₁,hle₁⟩ := h₂ k g₂ hk
  obtain ⟨g,hk,hp,hf,hm,hle⟩ := h₁ k g₁ hk₁
  exact ⟨g,hk,hp₁.trans hp,hf₁.trans hf,hm₁.trans hm,le_trans hle₁ hle⟩

/-- Writing an agent leaves the grants. -/
theorem of_agents (t : Tables) (agents : Map AccountName Agent) : Shrinks t {t with agents} :=
  refl t

/-- Cutting a grant's share. -/
theorem assign {t : Tables} {k : GrantKey} {g : Grant} (h : t.grants.find? k=some g) {s : ℤ} (hs : s≤g.share) :
    Shrinks t {t with grants := t.grants.assign k {g with share := s}} := by
  intro k' g' hk'
  rw [Map.find?_assign] at hk'
  split_ifs at hk' with hkk
  · cases hk'
    exact ⟨g,hkk ▸ h,rfl,rfl,rfl,hs⟩
  · exact refl t k' g' hk'

/-- Erasing a grant. -/
theorem erase (t : Tables) (k : GrantKey) : Shrinks t {t with grants := t.grants.erase k} := by
  intro k' g' hk'
  rw [Map.find?_erase] at hk'
  split_ifs at hk'
  exact refl t k' g' hk'

end Shrinks

theorem GrantorsProxy.of_shrinks {t t' : Tables} (hg : GrantorsProxy t) (hs : Shrinks t t')
    (hl : ∀ x,levelOf t' x=levelOf t x) : GrantorsProxy t' := by
  intro k g' a' hk ha'
  obtain ⟨g,hk₀,-⟩ := hs k g' hk
  have hlevel := hl (ofLex k).1
  rw [levelOf,levelOf,ha',Option.map_some] at hlevel
  obtain ⟨a,ha,hlev⟩ := Option.map_eq_some_iff.mp hlevel.symm
  rw [← hlev]
  exact hg k g a hk₀ ha

theorem Ranked.of_shrinks {rank : AccountName → ℕ} {t t' : Tables} (hr : Ranked rank t) (hs : Shrinks t t') :
    Ranked rank t' := by
  intro k g' hk
  obtain ⟨g,hk₀,-⟩ := hs k g' hk
  exact hr k g hk₀

/-- An agent of level 0 has no grants to walk. -/
theorem recipients_eq_nil {t : Tables} {x : AccountName} {a : Agent} (hg : GrantorsProxy t)
    (ha : t.agents.find? x=some a) (h0 : a.proxyLevel=0) : recipients t x=[] := by
  rw [recipients,List.map_eq_nil_iff,List.filter_eq_nil_iff]
  intro k hk hx
  obtain ⟨⟨k',g⟩,hmem,rfl⟩ := List.mem_map.mp hk
  have hx' : (ofLex k').1=x := by simpa using hx
  exact hg k' g a (Map.find?_of_mem_toList hmem) (hx' ▸ ha) h0

/-! ## What a traversal moves -/

/-- What a successful traversal did, `d` being the balance it took out of
the agents below it: the balances fell by `d` in all, no agent changed
level, grants only shrank, the entries in `votes_changes` of agents of
other levels stayed, and, where candidates' agents grant nothing, the
balance of a candidate's agent fell by exactly what its entry fell. -/
structure Moved (t : Tables) (vc : VotesChanges) (d : ℤ) (t' : Tables) (vc' : VotesChanges) : Prop where
  balance : totalBalance t'+d=totalBalance t
  level : ∀ x,levelOf t' x=levelOf t x
  shrinks : Shrinks t t'
  untracked : ∀ x,levelOf t x≠some 0 → changeOf vc' x=changeOf vc x
  tracked : GrantorsProxy t → ∀ x,levelOf t x=some 0 → balanceOf t' x-changeOf vc' x=balanceOf t x-changeOf vc x

namespace Moved

variable {t t₁ t₂ : Tables} {vc vc₁ vc₂ : VotesChanges}

theorem refl (t : Tables) (vc : VotesChanges) : Moved t vc 0 t vc :=
  ⟨add_zero _,fun _ => rfl,Shrinks.refl t,fun _ _ => rfl,fun _ _ _ => rfl⟩

theorem trans {d₁ d₂ : ℤ} (h₁ : Moved t vc d₁ t₁ vc₁) (h₂ : Moved t₁ vc₁ d₂ t₂ vc₂) : Moved t vc (d₁+d₂) t₂ vc₂ where
  balance := by
    have := h₁.balance
    have := h₂.balance
    linarith
  level x := (h₂.level x).trans (h₁.level x)
  shrinks := h₁.shrinks.trans h₂.shrinks
  untracked x hx := (h₂.untracked x (by rwa [h₁.level x])).trans (h₁.untracked x hx)
  tracked hg x hx :=
    (h₂.tracked (hg.of_shrinks h₁.shrinks h₁.level) x (by rwa [h₁.level x])).trans (h₁.tracked hg x hx)

/-- A write of the grants alone. -/
theorem of_grants {grants : Map GrantKey Grant} (hs : Shrinks t {t with grants}) : Moved t vc 0 {t with grants} vc :=
  ⟨add_zero _,fun _ => rfl,hs,fun _ _ => rfl,fun _ _ _ => rfl⟩

/-- A write of one agent's row that keeps its level and takes `d` of its
balance, with `votes_changes` recording that loss if it is a candidate's agent. -/
theorem of_agent {name : AccountName} {a a' : Agent} {d : ℤ} (h : t.agents.find? name=some a)
    (hl : a'.proxyLevel=a.proxyLevel) (hd : a'.balance=a.balance-d)
    (hother : ∀ x,x≠name ∨ a.proxyLevel≠0 → changeOf vc₁ x=changeOf vc x)
    (hself : a.proxyLevel=0 → changeOf vc₁ name=changeOf vc name-d) :
    Moved t vc d {t with agents := t.agents.assign name a'} vc₁ where
  balance := by
    have := totalBalance_assign h a'
    linarith
  level := levelOf_assign_of_level h hl
  shrinks := Shrinks.refl t
  untracked x hx := by
    refine hother x (or_iff_not_imp_left.mpr fun hxn h0 => hx ?_)
    rw [not_not.mp hxn]
    simp [levelOf,h,h0]
  tracked _ x hx := by
    rw [balanceOf_assign]
    split_ifs with hxn
    · subst hxn
      have h0 : a.proxyLevel=0 := by
        rw [levelOf,h] at hx
        exact Option.some_injective _ hx
      rw [hself h0,balanceOf,h,hd]
      simp only [Option.map_some,Option.getD_some]
      ring
    · rw [hother x (.inl hxn)]

end Moved

/-- A recall function whose successful calls move out what they return. -/
def RecallMoves (c : RecallFn) : Prop :=
  ∀ key share forced t vc ret t' vc',c key share forced t vc=.ok (ret,t',vc') → Moved t vc ret t' vc'

/-- The recall loop moves out what it adds to its accumulator. -/
theorem recallLoop_moved {c : RecallFn} (hc : RecallMoves c) (grantor : AccountName) (share sharesSum : ℤ) :
    ∀ (rs : List AccountName) (acc : ℤ) (t : Tables) (vc : VotesChanges) (acc' : ℤ) (t' : Tables)
      (vc' : VotesChanges),recallLoop c grantor share sharesSum rs acc t vc=.ok (acc',t',vc') →
      Moved t vc (acc'-acc) t' vc'
  | [],acc,t,vc,acc',t',vc',h => by
    rw [recallLoop_nil] at h
    cases h
    rw [sub_self]
    exact Moved.refl t vc
  | r::rs,acc,t,vc,acc',t',vc',h => by
    cases hg : t.grants.find? (toLex (grantor,r)) with
    | none =>
      rw [recallLoop_cons_of_none hg] at h
      exact recallLoop_moved hc grantor share sharesSum rs acc t vc acc' t' vc' h
    | some g =>
      obtain ⟨cur,ret,t₁,vc₁,-,hret,-,h⟩ := recallLoop_cons_of_some hg h
      have hmoved := (hc _ _ _ _ _ _ _ _ hret).trans
        (recallLoop_moved hc grantor share sharesSum rs (acc+ret) t₁ vc₁ acc' t' vc' h)
      rwa [show ret+(acc'-(acc+ret))=acc'-acc by ring] at hmoved

/-- A recall moves out of the agents below the grant what it returns. -/
theorem recallProxiedTraversal_moved : ∀ depth,RecallMoves (recallProxiedTraversal depth)
  | 0 => by
    intro key share forced t vc ret t' vc' h
    rw [recallProxiedTraversal_zero] at h
    cases h
  | depth+1 => by
    intro key share forced t vc ret t' vc' h
    obtain ⟨agent,balanceRet,proxiedRet,t₁,vc₁,a₁,g,ha,hs₀,-,-,hloop,ha₁,hg,rfl,rfl,hcut⟩ :=
      recallProxiedTraversal_succ_eq_ok h
    have hl := recallLoop_moved (recallProxiedTraversal_moved depth) _ _ _ _ _ _ _ _ _ _ hloop
    rw [sub_zero] at hl
    -- the loop left the recipient's level, which decides whether `votes_changes` records it
    have hlev : a₁.proxyLevel=agent.proxyLevel := by
      have := hl.level (ofLex key).2
      rw [levelOf,levelOf,ha₁,ha] at this
      exact Option.some_injective _ this
    dsimp only at hcut
    set a₂ : Agent :=
      {a₁ with balance := a₁.balance-balanceRet,proxied := a₁.proxied-proxiedRet,sharesSum := a₁.sharesSum-share}
    set vc₂ : VotesChanges := if agent.proxyLevel=0 then
      vc₁.assign (ofLex key).2 ((vc₁.find? (ofLex key).2).getD 0-balanceRet) else vc₁ with hvc₂
    set t₂ : Tables := {t₁ with agents := t₁.agents.assign (ofLex key).2 a₂}
    have hw : Moved t₁ vc₁ balanceRet t₂ vc₂ := by
      refine Moved.of_agent ha₁ rfl rfl (fun x hx => ?_) (fun h0 => ?_)
      · rw [hvc₂]
        split_ifs with h0
        · rw [changeOf,changeOf,Map.find?_assign_of_ne _ _ (hx.resolve_right (not_not.mpr (hlev.trans h0)))]
        · rfl
      · rw [hvc₂,if_pos (hlev ▸ h0),changeOf,Map.find?_assign_self]
        rfl
    rcases hcut with ⟨-,-,rfl⟩ | ⟨-,rfl⟩
    · have hcutw : Moved t₂ vc₂ 0 {t₂ with grants := t₂.grants.assign key {g with share := g.share-share}} vc₂ :=
        Moved.of_grants (Shrinks.assign hg (by omega))
      have := (hl.trans hw).trans hcutw
      rwa [add_zero,add_comm] at this
    · have hcutw : Moved t₂ vc₂ 0 {t₂ with grants := t₂.grants.erase key} vc₂ := Moved.of_grants (Shrinks.erase _ key)
      have := (hl.trans hw).trans hcutw
      rwa [add_zero,add_comm] at this

/-- An update function whose successful calls move no balance. -/
def UpdateMoves (u : UpdateFn) : Prop :=
  ∀ name agent t vc t' vc',u name agent t vc=.ok (t',vc') → Moved t vc 0 t' vc'

/-- The update loop moves out what it adds to its `recalled` accumulator. -/
theorem updateLoop_moved {u : UpdateFn} {c : RecallFn} (hu : UpdateMoves u) (hc : RecallMoves c) (autorc : AutorcInfo)
    (name : AccountName) (agent : Agent) :
    ∀ (rs : List AccountName) (newProxied recalled : ℤ) (t : Tables) (vc : VotesChanges) (newProxied' recalled' : ℤ)
      (t' : Tables) (vc' : VotesChanges),
      updateLoop u c autorc name agent rs newProxied recalled t vc=.ok (newProxied',recalled',t',vc') →
      Moved t vc (recalled'-recalled) t' vc'
  | [],_,recalled,t,vc,_,recalled',t',vc',h => by
    rw [updateLoop_nil] at h
    cases h
    rw [sub_self]
    exact Moved.refl _ _
  | r::rs,newProxied,recalled,t,vc,newProxied',recalled',t',vc',h => by
    cases hg : t.grants.find? (toLex (name,r)) with
    | none =>
      rw [updateLoop_cons_of_none hg] at h
      exact updateLoop_moved hu hc autorc name agent rs newProxied recalled t vc newProxied' recalled' t' vc' h
    | some g₀ =>
      obtain ⟨pa,t₁,vc₁,pa₁,g,-,hup,-,-,⟨-,np,h⟩ | ⟨-,ret,t₂,vc₂,hret,-,h⟩⟩ := updateLoop_cons_of_some hg h
      · have hm := (hu _ _ _ _ _ _ hup).trans
          (updateLoop_moved hu hc autorc name agent rs np recalled t₁ vc₁ newProxied' recalled' t' vc' h)
        rwa [zero_add] at hm
      · have hm := ((hu _ _ _ _ _ _ hup).trans (hc _ _ _ _ _ _ _ _ hret)).trans
          (updateLoop_moved hu hc autorc name agent rs newProxied (recalled+ret) t₂ vc₂ newProxied' recalled' t' vc' h)
        rwa [show 0+ret+(recalled'-(recalled+ret))=recalled'-recalled by ring] at hm

/-- An update moves no balance: what it recalls goes to the agent it starts from. -/
theorem updateProxiedTraversal_moved (now : ℕ) (idx : Option (Map AccountName AutorcInfo)) (lastReward : ℕ)
    (force : Bool) : ∀ depth,UpdateMoves (updateProxiedTraversal now idx lastReward force depth)
  | 0 => by
    intro name agent t vc t' vc' h
    rw [updateProxiedTraversal_zero] at h
    cases h
  | depth+1 => by
    intro name agent t vc t' vc' h
    rcases updateProxiedTraversal_succ_eq_ok h with ⟨-,rfl,rfl⟩ | ⟨-,newProxied,recalled,t₁,a₁,hloop,ha₁,rfl⟩
    · exact Moved.refl _ _
    · have hl := updateLoop_moved (updateProxiedTraversal_moved now idx lastReward force depth)
        (recallProxiedTraversal_moved depth) _ _ _ _ _ _ _ _ _ _ _ _ hloop
      rw [sub_zero] at hl
      refine ⟨?_,fun x => ?_,hl.shrinks.trans (Shrinks.of_agents t₁ _),hl.untracked,fun hg x hx => ?_⟩
      · have h₁ := totalBalance_assign ha₁
          {a₁ with balance := a₁.balance+recalled,proxied := newProxied,lastProxiedUpdate := now}
        have h₂ := hl.balance
        dsimp only at h₁
        linarith
      · refine (levelOf_assign_of_level ha₁ ?_ x).trans (hl.level x)
        rfl
      · rw [balanceOf_assign]
        split_ifs with hxn
        · -- a candidate's agent grants nothing, so nothing was recalled to it
          subst hxn
          obtain ⟨a,ha,ha0⟩ := Option.map_eq_some_iff.mp hx
          rw [recipients_eq_nil hg ha ha0,updateLoop_nil] at hloop
          cases hloop
          simp [balanceOf,ha₁]
        · exact hl.tracked hg x hx

/-! ## Own shares on a ranked graph -/

/-- The grants of grantors ranked above `p` are untouched. -/
def FrameAbove (rank : AccountName → ℕ) (p : AccountName) (t t' : Tables) : Prop :=
  ∀ k,rank p < rank (ofLex k).1 → t'.grants.find? k=t.grants.find? k

/-- What a recall under a grant of `p` keeps on a ranked graph: every own
share, non-negative shares, and the grants of grantors above `p`. -/
structure KeepsShares (rank : AccountName → ℕ) (p : AccountName) (t t' : Tables) : Prop where
  own : ∀ x,ownShare t' x=ownShare t x
  nonneg : NonnegShares t'
  frame : FrameAbove rank p t t'

theorem KeepsShares.trans {rank : AccountName → ℕ} {p : AccountName} {t t₁ t₂ : Tables} (h₁ : KeepsShares rank p t t₁)
    (h₂ : KeepsShares rank p t₁ t₂) : KeepsShares rank p t t₂ :=
  ⟨fun x => (h₂.own x).trans (h₁.own x),h₂.nonneg,fun k hk => (h₂.frame k hk).trans (h₁.frame k hk)⟩

theorem KeepsShares.refl {rank : AccountName → ℕ} {p : AccountName} {t : Tables} (hn : NonnegShares t) :
    KeepsShares rank p t t :=
  ⟨fun _ => rfl,hn,fun _ _ => rfl⟩

/-- What keeps the grants above `p` keeps those above any agent ranked higher. -/
theorem KeepsShares.mono {rank : AccountName → ℕ} {p q : AccountName} {t t' : Tables} (hpq : rank p ≤ rank q)
    (h : KeepsShares rank p t t') : KeepsShares rank q t t' :=
  ⟨h.own,h.nonneg,fun k hk => h.frame k (lt_of_le_of_lt hpq hk)⟩

theorem ownShare_of_find? {t : Tables} {x : AccountName} {a : Agent} (h : t.agents.find? x=some a) :
    ownShare t x=a.sharesSum-grantedTo t x := by
  simp [ownShare,h]

/-- A recall function that keeps shares when the share it is asked for is
at most the grant's, and all of it when it must erase the grant. -/
def RecallKeepsShares (rank : AccountName → ℕ) (c : RecallFn) : Prop :=
  ∀ key share forced t vc ret t' vc',Ranked rank t → NonnegShares t →
    (∃ g,t.grants.find? key=some g ∧ share≤g.share ∧ (forced=true → share=g.share)) →
    c key share forced t vc=.ok (ret,t',vc') → KeepsShares rank (ofLex key).1 t t'

/-- The recall loop of `name` asks each grant for at most its share. -/
theorem recallLoop_keepsShares {rank : AccountName → ℕ} {c : RecallFn} (hc : RecallKeepsShares rank c)
    (hm : RecallMoves c) (name : AccountName) {share sharesSum : ℤ} (hs₀ : 0 ≤ share) (hsS : share ≤ sharesSum) :
    ∀ (rs : List AccountName) (acc : ℤ) (t : Tables) (vc : VotesChanges) (acc' : ℤ) (t' : Tables)
      (vc' : VotesChanges),Ranked rank t → NonnegShares t →
      recallLoop c name share sharesSum rs acc t vc=.ok (acc',t',vc') → KeepsShares rank name t t'
  | [],acc,t,vc,acc',t',vc',_,hn,h => by
    rw [recallLoop_nil] at h
    cases h
    exact KeepsShares.refl hn
  | r::rs,acc,t,vc,acc',t',vc',hr,hn,h => by
    cases hg : t.grants.find? (toLex (name,r)) with
    | none =>
      rw [recallLoop_cons_of_none hg] at h
      exact recallLoop_keepsShares hc hm name hs₀ hsS rs acc t vc acc' t' vc' hr hn h
    | some g =>
      obtain ⟨cur,ret,t₁,vc₁,hcur,hret,-,h⟩ := recallLoop_cons_of_some hg h
      have hle := (safeProp_bounds (hn _ g hg) hs₀ hsS hcur).2
      have h₁ := hc _ _ false _ _ _ _ _ hr hn ⟨g,hg,hle,fun h => absurd h Bool.false_ne_true⟩ hret
      rw [ofLex_toLex] at h₁
      exact h₁.trans (recallLoop_keepsShares hc hm name hs₀ hsS rs (acc+ret) t₁ vc₁ acc' t' vc'
        (hr.of_shrinks (hm _ _ _ _ _ _ _ _ hret).shrinks) h₁.nonneg h)

/-- A recall on a ranked graph with non-negative shares keeps every own
share: the share it takes from the recipient's `shares_sum` is the share the
grant loses. -/
theorem recallProxiedTraversal_keepsShares (rank : AccountName → ℕ) :
    ∀ depth,RecallKeepsShares rank (recallProxiedTraversal depth)
  | 0 => by
    intro key share forced t vc ret t' vc' _ _ _ h
    rw [recallProxiedTraversal_zero] at h
    cases h
  | depth+1 => by
    intro key share forced t vc ret t' vc' hr hn ⟨g₀,hg₀,hle₀,hforced⟩ h
    obtain ⟨agent,balanceRet,proxiedRet,t₁,vc₁,a₁,g,ha,hs₀,hsS,-,hloop,ha₁,hg,-,-,hcut⟩ :=
      recallProxiedTraversal_succ_eq_ok h
    have hl := recallLoop_keepsShares (recallProxiedTraversal_keepsShares rank depth)
      (recallProxiedTraversal_moved depth) _ hs₀ hsS _ _ _ _ _ _ _ hr hn hloop
    -- the recipient ranks below the grantor, so the loop left the grant as the caller read it
    have hbelow : rank (ofLex key).2 < rank (ofLex key).1 := hr key g₀ hg₀
    rw [hl.frame key hbelow,hg₀,Option.some_inj] at hg
    subst hg
    have hframe := (hl.mono hbelow.le).frame
    dsimp only at hcut
    set a₂ : Agent :=
      {a₁ with balance := a₁.balance-balanceRet,proxied := a₁.proxied-proxiedRet,sharesSum := a₁.sharesSum-share}
    set t₂ : Tables := {t₁ with agents := t₁.agents.assign (ofLex key).2 a₂}
    have hown₂ : ∀ x,ownShare t₂ x=ownShare t x-if (ofLex key).2=x then share else 0 := by
      intro x
      rw [ownShare_assign,← hl.own x]
      by_cases hx : x=(ofLex key).2
      · rw [if_pos hx,if_pos hx.symm,hx,ownShare_of_find? ha₁]
        simp only [a₂]
        ring
      · rw [if_neg hx,if_neg (Ne.symm hx),sub_zero]
    have hshare₂ : t₂.grants.find? key=some g₀ := (hl.frame key hbelow).trans hg₀
    rcases hcut with ⟨-,-,rfl⟩ | ⟨hnot,rfl⟩
    · refine ⟨fun x => ?_,fun k g' hk => ?_,fun k hk => ?_⟩
      · have := ownShare_grant_assign hshare₂ {g₀ with share := g₀.share-share} x
        rw [hown₂ x] at this
        unfold shareTo at this
        split_ifs at this <;> linarith
      · rw [Map.find?_assign] at hk
        split_ifs at hk
        · cases hk
          exact sub_nonneg.mpr hle₀
        · exact hl.nonneg k g' hk
      · have hk' : k≠key := fun h => lt_irrefl _ (h ▸ hk)
        exact (Map.find?_assign_of_ne _ _ hk').trans (hframe k hk)
    · have heq : g₀.share=share := by
        cases forced with
        | true => exact (hforced rfl).symm
        | false =>
          have : ¬(g₀.pct≠0 ∨ g₀.share>share) := fun h => hnot ⟨h,rfl⟩
          push Not at this
          exact le_antisymm this.2 hle₀
      refine ⟨fun x => ?_,fun k g' hk => ?_,fun k hk => ?_⟩
      · rw [ownShare_grant_erase hshare₂,hown₂ x]
        unfold shareTo
        split_ifs <;> linarith
      · rw [Map.find?_erase] at hk
        split_ifs at hk
        exact hl.nonneg k g' hk
      · have hk' : k≠key := fun h => lt_irrefl _ (h ▸ hk)
        exact (Map.find?_erase_of_ne _ hk').trans (hframe k hk)

/-- An update function that keeps shares on a ranked graph, and the grants
of every agent ranked above the one it starts from. -/
def UpdateKeepsShares (rank : AccountName → ℕ) (u : UpdateFn) : Prop :=
  ∀ name agent t vc t' vc',Ranked rank t → NonnegShares t → u name agent t vc=.ok (t',vc') → KeepsShares rank name t t'

/-- The update loop of `name` updates each recipient, ranked below `name`,
and recalls a grant only whole. -/
theorem updateLoop_keepsShares {rank : AccountName → ℕ} {u : UpdateFn} {c : RecallFn} (hu : UpdateKeepsShares rank u)
    (hum : UpdateMoves u) (hc : RecallKeepsShares rank c) (hcm : RecallMoves c) (autorc : AutorcInfo)
    (name : AccountName) (agent : Agent) :
    ∀ (rs : List AccountName) (newProxied recalled : ℤ) (t : Tables) (vc : VotesChanges) (newProxied' recalled' : ℤ)
      (t' : Tables) (vc' : VotesChanges),Ranked rank t → NonnegShares t →
      updateLoop u c autorc name agent rs newProxied recalled t vc=.ok (newProxied',recalled',t',vc') →
      KeepsShares rank name t t'
  | [],_,_,t,vc,_,_,t',vc',_,hn,h => by
    rw [updateLoop_nil] at h
    cases h
    exact KeepsShares.refl hn
  | r::rs,newProxied,recalled,t,vc,newProxied',recalled',t',vc',hr,hn,h => by
    cases hg : t.grants.find? (toLex (name,r)) with
    | none =>
      rw [updateLoop_cons_of_none hg] at h
      exact updateLoop_keepsShares hu hum hc hcm autorc name agent rs newProxied recalled t vc newProxied' recalled'
        t' vc' hr hn h
    | some g₀ =>
      obtain ⟨pa,t₁,vc₁,pa₁,g,-,hup,-,hg₁,hrest⟩ := updateLoop_cons_of_some hg h
      -- the recipient ranks below `name`, so its update leaves the grants above `name`
      have hrn : rank r < rank name := by
        have := hr _ _ hg
        rwa [ofLex_toLex] at this
      have h₁ := (hu _ _ _ _ _ _ hr hn hup).mono hrn.le
      have hr₁ := hr.of_shrinks (hum _ _ _ _ _ _ hup).shrinks
      rcases hrest with ⟨-,np,h⟩ | ⟨-,ret,t₂,vc₂,hret,-,h⟩
      · exact h₁.trans (updateLoop_keepsShares hu hum hc hcm autorc name agent rs np recalled t₁ vc₁ newProxied'
          recalled' t' vc' hr₁ h₁.nonneg h)
      · have h₂ := hc _ _ true _ _ _ _ _ hr₁ h₁.nonneg ⟨g,hg₁,le_rfl,fun _ => rfl⟩ hret
        rw [ofLex_toLex] at h₂
        have hr₂ := hr₁.of_shrinks (hcm _ _ _ _ _ _ _ _ hret).shrinks
        exact (h₁.trans h₂).trans (updateLoop_keepsShares hu hum hc hcm autorc name agent rs newProxied
          (recalled+ret) t₂ vc₂ newProxied' recalled' t' vc' hr₂ h₂.nonneg h)

/-- An update on a ranked graph with non-negative shares keeps every own
share: its own write leaves `shares_sum` alone. -/
theorem updateProxiedTraversal_keepsShares (rank : AccountName → ℕ) (now : ℕ)
    (idx : Option (Map AccountName AutorcInfo)) (lastReward : ℕ) (force : Bool) :
    ∀ depth,UpdateKeepsShares rank (updateProxiedTraversal now idx lastReward force depth)
  | 0 => by
    intro name agent t vc t' vc' _ _ h
    rw [updateProxiedTraversal_zero] at h
    cases h
  | depth+1 => by
    intro name agent t vc t' vc' hr hn h
    rcases updateProxiedTraversal_succ_eq_ok h with ⟨-,rfl,-⟩ | ⟨-,newProxied,recalled,t₁,a₁,hloop,ha₁,rfl⟩
    · exact KeepsShares.refl hn
    · have hl := updateLoop_keepsShares (updateProxiedTraversal_keepsShares rank now idx lastReward force depth)
        (updateProxiedTraversal_moved now idx lastReward force depth) (recallProxiedTraversal_keepsShares rank depth)
        (recallProxiedTraversal_moved depth) _ _ _ _ _ _ _ _ _ _ _ _ hr hn hloop
      refine ⟨fun x => ?_,hl.nonneg,hl.frame⟩
      refine (ownShare_assign_of_sharesSum ha₁ ?_ x).trans (hl.own x)
      rfl

end Cyberway.Stake
