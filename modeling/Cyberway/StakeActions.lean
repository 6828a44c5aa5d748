import Cyberway.StakeConservation
import Cyberway.Transactions

/-!
# The stake transactions

`update_proxied` and `recall_proxied` as whole transactions: a traversal,
for a recall one more recall and the grantor's write, and then
`set_votes`. A successful call keeps the total balance of the agents,
every agent's level and, on a ranked graph, every own share; it only
shrinks grants; and it moves each candidate's votes with the balance of its
agent, and the token's total votes with the candidates' sum. By the rule
for transactions that roll back, every run of calls from a consistent
ledger ends in a consistent ledger.
-/

namespace Cyberway.Stake

open FlatMap CppInt

/-! ## Votes -/

/-- The votes of candidate `x`, `0` without a candidate row. -/
def votesOf (cands : Map AccountName Candidate) (x : AccountName) : ℤ := ((cands.find? x).map (·.votes)).getD 0

/-- The votes of all candidates. -/
def candidateVotes (cands : Map AccountName Candidate) : ℤ := (cands.toList.map fun p => p.2.votes).sum

/-- The token's `total_votes`, `0` without a `stat` row. -/
def statVotes (l : Ledger) : ℤ := (l.stat.map (·.totalVotes)).getD 0

theorem votesOf_assign (cands : Map AccountName Candidate) (name : AccountName) (c : Candidate) (x : AccountName) :
    votesOf (cands.assign name c) x=if x=name then c.votes else votesOf cands x := by
  rw [votesOf,Map.find?_assign]
  split_ifs <;> rfl

/-- The loop of `set_votes` adds to each candidate the changes of its key,
and all the changes to the candidates' sum. -/
theorem applyChanges_votes {supply : ℤ} :
    ∀ (l : List (AccountName × ℤ)) (cands cands' : Map AccountName Candidate),applyChanges supply cands l=.ok cands' →
      (∀ x,votesOf cands' x=votesOf cands x+((l.filter fun p => p.1=x).map (·.2)).sum) ∧
        candidateVotes cands'=candidateVotes cands+(l.map (·.2)).sum
  | [],cands,cands',h => by
    cases h
    simp
  | (name,change)::rest,cands,cands',h => by
    obtain ⟨c,c',hc,hv,h⟩ := applyChanges_cons_eq_ok h
    obtain ⟨hx,hsum⟩ := applyChanges_votes rest _ _ h
    refine ⟨fun x => ?_,?_⟩
    · rw [hx x,votesOf_assign]
      by_cases hxn : x=name
      · subst hxn
        rw [if_pos rfl,hv,List.filter_cons_of_pos (by simp),votesOf,hc]
        simp only [Option.map_some,Option.getD_some,List.map_cons,List.sum_cons]
        ring
      · rw [if_neg hxn,List.filter_cons_of_neg (by simpa using Ne.symm hxn)]
    · have := Map.sum_assign (fun p => p.2.votes) hc c'
      unfold candidateVotes at hsum ⊢
      rw [hsum,List.map_cons,List.sum_cons]
      dsimp only at this
      linarith

/-- A successful `set_votes` leaves the tables, adds to each candidate its
change, and adds the sum of the changes to the token's total votes. -/
theorem setVotes_votes {l l' : Ledger} {stat : Stat} {vc : VotesChanges} (h : setVotes l stat vc=.ok l') :
    l'.tables=l.tables ∧ (∀ x,votesOf l'.candidates x=votesOf l.candidates x+changeOf vc x) ∧
      statVotes l'-candidateVotes l'.candidates=stat.totalVotes-candidateVotes l.candidates := by
  obtain ⟨sum,supply,candidates,hs,-,hc,rfl⟩ := setVotes_eq_ok h
  obtain ⟨hx,hsum⟩ := applyChanges_votes _ _ _ hc
  refine ⟨rfl,fun x => ?_,?_⟩
  · -- the keys of `votes_changes` are unique, so the changes of `x` are its one entry
    rw [hx x,Map.sum_filter_key (fun v => v) vc x,Option.map_id']
    rfl
  · rw [sumChanges_eq_ok hs,zero_add]
    dsimp only [statVotes]
    rw [Option.map_some,Option.getD_some,hsum]
    unfold Map.values
    ring

/-! ## What a transaction keeps -/

/-- What a successful transaction keeps of the tables: the total balance,
every agent's level, and grants that only shrink. -/
structure Conserves (t t' : Tables) : Prop where
  balance : totalBalance t'=totalBalance t
  level : ∀ x,levelOf t' x=levelOf t x
  shrinks : Shrinks t t'

theorem Moved.conserves {t t' : Tables} {vc vc' : VotesChanges} (h : Moved t vc 0 t' vc') : Conserves t t' :=
  ⟨by simpa using h.balance,h.level,h.shrinks⟩

/-- How the votes follow a transaction: a candidate's agent gains in votes
what it gains in balance, the other candidates keep their votes, and the
token's total votes move with the candidates' sum. -/
structure VotesFollow (l l' : Ledger) : Prop where
  tracked : ∀ x,levelOf l.tables x=some 0 →
    votesOf l'.candidates x-balanceOf l'.tables x=votesOf l.candidates x-balanceOf l.tables x
  untracked : ∀ x,levelOf l.tables x≠some 0 → votesOf l'.candidates x=votesOf l.candidates x
  total : statVotes l'-candidateVotes l'.candidates=statVotes l-candidateVotes l.candidates

/-- A traversal from empty `votes_changes` that moved no balance, followed
by `set_votes`, makes the votes follow the balances. -/
theorem votesFollow_of_moved {l l' : Ledger} {stat : Stat} {t : Tables} {vc : VotesChanges} (hg : GrantorsProxy l.tables)
    (hs : getStat l=.ok stat) (hm : Moved l.tables Map.empty 0 t vc) (hv : setVotes {l with tables := t} stat vc=.ok l') :
    VotesFollow l l' := by
  obtain ⟨htab,hvotes,htotal⟩ := setVotes_votes hv
  have hempty : ∀ x,changeOf Map.empty x=0 := fun _ => rfl
  refine ⟨fun x hx => ?_,fun x hx => ?_,?_⟩
  · have := hm.tracked hg x hx
    rw [hempty,sub_zero] at this
    rw [hvotes x,htab]
    dsimp only
    linarith
  · rw [hvotes x,hm.untracked x hx,hempty,add_zero]
  · rw [htotal,statVotes,getStat_eq_ok.mp hs]
    rfl

/-- A proxy `1` that grants half its shares to the candidate `2`, whose
votes are its agent's balance. -/
def sampleLedger : Ledger where
  tables := ⟨⟨[(1,⟨1,0,100,50,100,0,0⟩),(2,⟨0,0,50,0,50,0,0⟩)],by decide⟩,⟨[(toLex (1,2),⟨0,50,100,0⟩)],by decide⟩⟩
  candidates := ⟨[(2,⟨0,50,0⟩)],by decide⟩
  autorcs := none
  hasParam := true
  stat := some ⟨50,0⟩
  supply := some 1000

/-! ## `update_proxied` -/

section UpdateProxied

variable {depth now : ℕ} {l l' : Ledger} {account : AccountName} {force : Bool}

theorem updateProxied_moved (h : updateProxied depth now l account force=.ok l') :
    ∃ stat t vc,getStat l=.ok stat ∧ Moved l.tables Map.empty 0 t vc ∧ setVotes {l with tables := t} stat vc=.ok l' := by
  obtain ⟨stat,agent,t,vc,hs,-,hu,hv⟩ := updateProxied_eq_ok h
  exact ⟨stat,t,vc,hs,updateProxiedTraversal_moved _ _ _ _ _ _ _ _ _ _ _ hu,hv⟩

/-- A successful `update_proxied` keeps the total balance and every level,
and only shrinks grants. -/
theorem updateProxied_conserves (h : updateProxied depth now l account force=.ok l') :
    Conserves l.tables l'.tables := by
  obtain ⟨stat,t,vc,-,hm,hv⟩ := updateProxied_moved h
  rw [(setVotes_votes hv).1]
  exact hm.conserves

theorem updateProxied_conserves_sample :
    ∃ l',updateProxied 3 10 sampleLedger 1 true=.ok l' ∧ Conserves sampleLedger.tables l'.tables := by
  obtain ⟨l',h⟩ : ∃ l',updateProxied 3 10 sampleLedger 1 true=.ok l' := ⟨_,rfl⟩
  exact ⟨l',h,updateProxied_conserves h⟩

/-- After a successful `update_proxied`, where candidates' agents grant
nothing, the votes follow the balances. -/
theorem updateProxied_votesFollow (hg : GrantorsProxy l.tables) (h : updateProxied depth now l account force=.ok l') :
    VotesFollow l l' := by
  obtain ⟨stat,t,vc,hs,hm,hv⟩ := updateProxied_moved h
  exact votesFollow_of_moved hg hs hm hv

theorem updateProxied_votesFollow_sample :
    GrantorsProxy sampleLedger.tables ∧
      ∃ l',updateProxied 3 10 sampleLedger 1 true=.ok l' ∧ VotesFollow sampleLedger l' := by
  have hg : GrantorsProxy sampleLedger.tables := by decide
  obtain ⟨l',h⟩ : ∃ l',updateProxied 3 10 sampleLedger 1 true=.ok l' := ⟨_,rfl⟩
  exact ⟨hg,l',h,updateProxied_votesFollow hg h⟩

/-- A successful `update_proxied` on a ranked graph with non-negative
shares keeps every own share, and the shares non-negative. -/
theorem updateProxied_keepsShares {rank : AccountName → ℕ} (hr : Ranked rank l.tables) (hn : NonnegShares l.tables)
    (h : updateProxied depth now l account force=.ok l') :
    (∀ x,ownShare l'.tables x=ownShare l.tables x) ∧ NonnegShares l'.tables := by
  obtain ⟨stat,agent,t,vc,-,-,hu,hv⟩ := updateProxied_eq_ok h
  have hk := updateProxiedTraversal_keepsShares rank _ _ _ _ _ _ _ _ _ _ _ hr hn hu
  rw [(setVotes_votes hv).1]
  exact ⟨hk.own,hk.nonneg⟩

theorem updateProxied_keepsShares_sample :
    Ranked (fun x => (levelOf sampleLedger.tables x).getD 0) sampleLedger.tables ∧ NonnegShares sampleLedger.tables ∧
      ∃ l',updateProxied 3 10 sampleLedger 1 true=.ok l' ∧
        (∀ x,ownShare l'.tables x=ownShare sampleLedger.tables x) ∧ NonnegShares l'.tables := by
  have hr : Ranked (fun x => (levelOf sampleLedger.tables x).getD 0) sampleLedger.tables := by decide
  have hn : NonnegShares sampleLedger.tables := by decide
  obtain ⟨l',h⟩ : ∃ l',updateProxied 3 10 sampleLedger 1 true=.ok l' := ⟨_,rfl⟩
  exact ⟨hr,hn,l',h,updateProxied_keepsShares hr hn h⟩

end UpdateProxied

/-! ## `recall_proxied` -/

section RecallProxied

variable {depth now : ℕ} {l l' : Ledger} {grantorName recipientName : AccountName} {pct : ℤ}

/-- A successful `recall_proxied` keeps the total balance and every level,
and only shrinks grants: the grantor gets back what the recall moved out. -/
theorem recallProxied_conserves (h : recallProxied depth now l grantorName recipientName pct=.ok l') :
    Conserves l.tables l'.tables := by
  obtain ⟨-,-,stat,grantor,t₁,vc₁,g,share,amount,t₂,vc₂,a,-,-,hu,-,-,hr,-,ha,hv⟩ := recallProxied_eq_ok h
  have hm := (updateProxiedTraversal_moved _ _ _ _ _ _ _ _ _ _ _ hu).trans
    (recallProxiedTraversal_moved _ _ _ _ _ _ _ _ _ hr)
  rw [(setVotes_votes hv).1]
  refine ⟨?_,fun x => ?_,hm.shrinks.trans (Shrinks.of_agents _ _)⟩
  · have h₁ := totalBalance_assign ha {a with balance := a.balance+amount,proxied := a.proxied-amount}
    have h₂ := hm.balance
    dsimp only at h₁ ⊢
    linarith
  · refine (levelOf_assign_of_level ha ?_ x).trans (hm.level x)
    rfl

theorem recallProxied_conserves_sample :
    ∃ l',recallProxied 3 10 sampleLedger 1 2 5000=.ok l' ∧ Conserves sampleLedger.tables l'.tables := by
  obtain ⟨l',h⟩ : ∃ l',recallProxied 3 10 sampleLedger 1 2 5000=.ok l' := ⟨_,rfl⟩
  exact ⟨l',h,recallProxied_conserves h⟩

/-- After a successful `recall_proxied`, where candidates' agents grant
nothing, the votes follow the balances: the grantor, whose balance grows,
is a proxy. -/
theorem recallProxied_votesFollow (hg : GrantorsProxy l.tables)
    (h : recallProxied depth now l grantorName recipientName pct=.ok l') : VotesFollow l l' := by
  obtain ⟨-,-,stat,grantor,t₁,vc₁,g,share,amount,t₂,vc₂,a,hs,-,hu,hg₁,-,hr,-,ha,hv⟩ := recallProxied_eq_ok h
  have hm₁ := updateProxiedTraversal_moved _ _ _ _ _ _ _ _ _ _ _ hu
  have hm₂ := recallProxiedTraversal_moved _ _ _ _ _ _ _ _ _ hr
  -- the grant read after the update names the grantor, so the grantor proxies
  have hlevel : a.proxyLevel≠0 := by
    have hl := hm₂.level grantorName
    rw [levelOf,levelOf,ha,Option.map_some] at hl
    obtain ⟨a₁,ha₁,hlev⟩ := Option.map_eq_some_iff.mp hl.symm
    rw [← hlev]
    exact hg.of_shrinks hm₁.shrinks hm₁.level _ g a₁ hg₁ ha₁
  have hm₃ : Moved t₂ vc₂ (-amount)
      {t₂ with agents := t₂.agents.assign grantorName {a with balance := a.balance+amount,proxied := a.proxied-amount}}
      vc₂ :=
    Moved.of_agent ha rfl (sub_neg_eq_add _ _).symm (fun _ _ => rfl) (fun h0 => absurd h0 hlevel)
  have hm := (hm₁.trans hm₂).trans hm₃
  rw [zero_add,add_neg_cancel] at hm
  exact votesFollow_of_moved hg hs hm hv

theorem recallProxied_votesFollow_sample :
    GrantorsProxy sampleLedger.tables ∧
      ∃ l',recallProxied 3 10 sampleLedger 1 2 5000=.ok l' ∧ VotesFollow sampleLedger l' := by
  have hg : GrantorsProxy sampleLedger.tables := by decide
  obtain ⟨l',h⟩ : ∃ l',recallProxied 3 10 sampleLedger 1 2 5000=.ok l' := ⟨_,rfl⟩
  exact ⟨hg,l',h,recallProxied_votesFollow hg h⟩

/-- A successful `recall_proxied` on a ranked graph with non-negative
shares keeps every own share, and the shares non-negative: it recalls at
most the grant's share. -/
theorem recallProxied_keepsShares {rank : AccountName → ℕ} (hr : Ranked rank l.tables) (hn : NonnegShares l.tables)
    (h : recallProxied depth now l grantorName recipientName pct=.ok l') :
    (∀ x,ownShare l'.tables x=ownShare l.tables x) ∧ NonnegShares l'.tables := by
  obtain ⟨hpct,hpct',stat,grantor,t₁,vc₁,g,share,amount,t₂,vc₂,a,-,-,hu,hg₁,hsh,hrec,-,ha,hv⟩ :=
    recallProxied_eq_ok h
  have hk₁ := updateProxiedTraversal_keepsShares rank _ _ _ _ _ _ _ _ _ _ _ hr hn hu
  have hr₁ := hr.of_shrinks (updateProxiedTraversal_moved _ _ _ _ _ _ _ _ _ _ _ hu).shrinks
  have hle : share≤g.share := by
    rw [safePct,safeProp_comm] at hsh
    exact (safeProp_bounds (hk₁.nonneg _ g hg₁) (by omega) hpct' hsh).2
  have hk₂ := recallProxiedTraversal_keepsShares rank depth _ _ false _ _ _ _ _ hr₁ hk₁.nonneg
    ⟨g,hg₁,hle,fun h => absurd h Bool.false_ne_true⟩ hrec
  rw [(setVotes_votes hv).1]
  refine ⟨fun x => ?_,hk₂.nonneg⟩
  refine ((ownShare_assign_of_sharesSum ha ?_ x).trans (hk₂.own x)).trans (hk₁.own x)
  rfl

theorem recallProxied_keepsShares_sample :
    Ranked (fun x => (levelOf sampleLedger.tables x).getD 0) sampleLedger.tables ∧ NonnegShares sampleLedger.tables ∧
      ∃ l',recallProxied 3 10 sampleLedger 1 2 5000=.ok l' ∧
        (∀ x,ownShare l'.tables x=ownShare sampleLedger.tables x) ∧ NonnegShares l'.tables := by
  have hr : Ranked (fun x => (levelOf sampleLedger.tables x).getD 0) sampleLedger.tables := by decide
  have hn : NonnegShares sampleLedger.tables := by decide
  obtain ⟨l',h⟩ : ∃ l',recallProxied 3 10 sampleLedger 1 2 5000=.ok l' := ⟨_,rfl⟩
  exact ⟨hr,hn,l',h,recallProxied_keepsShares hr hn h⟩

end RecallProxied

/-! ## Runs of calls -/

/-- A call of the native stake code. -/
inductive Action where
  /-- `update_proxied(now, account, force)`. -/
  | updateProxied (now : ℕ) (account : AccountName) (force : Bool)
  /-- `recall_proxied(now, grantor_name, recipient_name, pct)`. -/
  | recallProxied (now : ℕ) (grantorName recipientName : AccountName) (pct : ℤ)
  deriving DecidableEq, Repr

/-- One call, with `depth` bounding the traversals' recursion. -/
def applyAction (depth : ℕ) (l : Ledger) : Action → Cpp Ledger
  | .updateProxied now account force => updateProxied depth now l account force
  | .recallProxied now grantorName recipientName pct => recallProxied depth now l grantorName recipientName pct

/-- The ledger after a run of calls; a call that stops, by an exception or
at undefined behaviour, is rolled back with its transaction. -/
def runActions (depth : ℕ) (actions : List Action) (l : Ledger) : Ledger :=
  Transactions.run (applyAction depth) actions l

/-- A consistent ledger, for a ranking of the agents under which every
grant goes down: no negative share, candidates' agents that grant nothing,
candidates whose votes are their agents' balances, and total votes that
are the candidates' sum. -/
structure Consistent (rank : AccountName → ℕ) (l : Ledger) : Prop where
  ranked : Ranked rank l.tables
  nonneg : NonnegShares l.tables
  grantors : GrantorsProxy l.tables
  votes : ∀ x,levelOf l.tables x=some 0 → votesOf l.candidates x=balanceOf l.tables x
  total : statVotes l=candidateVotes l.candidates

theorem votes_iff {t : Tables} {cands : Map AccountName Candidate} :
    (∀ x,levelOf t x=some 0 → votesOf cands x=balanceOf t x) ↔
      ∀ p ∈ t.agents.toList,p.2.proxyLevel=0 → votesOf cands p.1=p.2.balance := by
  constructor
  · intro h p hp h0
    have hf := Map.find?_of_mem_toList hp
    have := h p.1 (by rw [levelOf,hf,Option.map_some,h0])
    rwa [balanceOf,hf] at this
  · intro h x hx
    obtain ⟨a,ha,h0⟩ := Option.map_eq_some_iff.mp hx
    rw [balanceOf,ha]
    exact h _ (Map.mem_toList_of_find? ha) h0

theorem consistent_iff {rank : AccountName → ℕ} {l : Ledger} :
    Consistent rank l ↔ Ranked rank l.tables ∧ NonnegShares l.tables ∧ GrantorsProxy l.tables ∧
      (∀ p ∈ l.tables.agents.toList,p.2.proxyLevel=0 → votesOf l.candidates p.1=p.2.balance) ∧
      statVotes l=candidateVotes l.candidates :=
  ⟨fun h => ⟨h.ranked,h.nonneg,h.grantors,votes_iff.mp h.votes,h.total⟩,
    fun ⟨hr,hn,hg,hv,ht⟩ => ⟨hr,hn,hg,votes_iff.mpr hv,ht⟩⟩

instance (rank : AccountName → ℕ) (l : Ledger) : Decidable (Consistent rank l) :=
  decidable_of_iff _ consistent_iff.symm

/-- What a run keeps: the total balance, every level and every own share;
and grants only shrink. -/
structure Keeps (l l' : Ledger) : Prop where
  conserves : Conserves l.tables l'.tables
  own : ∀ x,ownShare l'.tables x=ownShare l.tables x

theorem Keeps.refl (l : Ledger) : Keeps l l := ⟨⟨rfl,fun _ => rfl,Shrinks.refl _⟩,fun _ => rfl⟩

theorem Keeps.trans {l₁ l₂ l₃ : Ledger} (h₁ : Keeps l₁ l₂) (h₂ : Keeps l₂ l₃) : Keeps l₁ l₃ :=
  ⟨⟨h₂.conserves.balance.trans h₁.conserves.balance,fun x => (h₂.conserves.level x).trans (h₁.conserves.level x),
    h₁.conserves.shrinks.trans h₂.conserves.shrinks⟩,fun x => (h₂.own x).trans (h₁.own x)⟩

section Runs

variable {rank : AccountName → ℕ} {l l' : Ledger}

/-- A call that keeps the tables' quantities and non-negative shares, and
that the votes follow, keeps a ledger consistent. -/
theorem Consistent.of_call (hc : Consistent rank l) (hk : Conserves l.tables l'.tables) (hn : NonnegShares l'.tables)
    (hv : VotesFollow l l') : Consistent rank l' where
  ranked := hc.ranked.of_shrinks hk.shrinks
  nonneg := hn
  grantors := hc.grantors.of_shrinks hk.shrinks hk.level
  votes x hx := by
    have hx₀ : levelOf l.tables x=some 0 := (hk.level x).symm.trans hx
    have := hv.tracked x hx₀
    rw [hc.votes x hx₀,sub_self] at this
    linarith
  total := by
    have := hv.total
    rw [hc.total,sub_self] at this
    linarith

/-- The step rule: a successful call on a consistent ledger gives a
consistent ledger and keeps what runs keep. -/
theorem applyAction_consistent {depth : ℕ} {a : Action} (hc : Consistent rank l) (h : applyAction depth l a=.ok l') :
    Consistent rank l' ∧ Keeps l l' := by
  cases a with
  | updateProxied now account force =>
    have hk := updateProxied_conserves h
    have hs := updateProxied_keepsShares hc.ranked hc.nonneg h
    exact ⟨hc.of_call hk hs.2 (updateProxied_votesFollow hc.grantors h),hk,hs.1⟩
  | recallProxied now grantorName recipientName pct =>
    have hk := recallProxied_conserves h
    have hs := recallProxied_keepsShares hc.ranked hc.nonneg h
    exact ⟨hc.of_call hk hs.2 (recallProxied_votesFollow hc.grantors h),hk,hs.1⟩

/-- Every run of calls from a consistent ledger ends in a consistent ledger. -/
theorem runActions_consistent (depth : ℕ) (actions : List Action) (hc : Consistent rank l) :
    Consistent rank (runActions depth actions l) :=
  Transactions.run_invariant (fun _ _ _ hc h => (applyAction_consistent hc h).1) actions l hc

theorem runActions_consistent_sample :
    Consistent (fun x => (levelOf sampleLedger.tables x).getD 0) sampleLedger ∧
      Consistent (fun x => (levelOf sampleLedger.tables x).getD 0)
        (runActions 3 [.updateProxied 10 1 true,.recallProxied 20 1 2 5000] sampleLedger) := by
  have hc : Consistent (fun x => (levelOf sampleLedger.tables x).getD 0) sampleLedger := by decide
  exact ⟨hc,runActions_consistent 3 [.updateProxied 10 1 true,.recallProxied 20 1 2 5000] hc⟩

/-- Every run of calls from a consistent ledger keeps the total balance,
every level and every own share, and only shrinks grants. -/
theorem runActions_keeps (depth : ℕ) (actions : List Action) (hc : Consistent rank l) :
    Keeps l (runActions depth actions l) :=
  Transactions.run_rel Keeps.refl (fun _ _ _ => Keeps.trans) (fun _ _ _ hc h => applyAction_consistent hc h)
    actions l hc

theorem runActions_keeps_sample :
    Consistent (fun x => (levelOf sampleLedger.tables x).getD 0) sampleLedger ∧
      Keeps sampleLedger (runActions 3 [.updateProxied 10 1 true,.recallProxied 20 1 2 5000] sampleLedger) := by
  have hc : Consistent (fun x => (levelOf sampleLedger.tables x).getD 0) sampleLedger := by decide
  exact ⟨hc,runActions_keeps 3 [.updateProxied 10 1 true,.recallProxied 20 1 2 5000] hc⟩

end Runs

end Cyberway.Stake
