import Cyberway.AuthorityCheckerSound

/-!
# The authority checker is exact on ranked graphs

When every level's authority refers only to existing levels of lower rank,
the root's rank is below the depth limit, no permission has the empty name
and every authority passes `validate`, the checker's answer is the
declarative one (`satisfied_iff_sat`), which grows with the factors. In
general it does not: a level first reached through a long path is cached
unsatisfied because the depth limit cut its evaluation, and extra keys can
make the checker skip the short path that would have found it satisfied.
-/

namespace Cyberway.AuthorityChecker

variable {Key : Type} (ck : Checker Key)

/-! ## Exactness on ranked graphs -/

/-- Every level's authority refers only to existing levels of lower rank. -/
def Ranked (pta : PermissionToAuthority Key) (rank : PermissionLevel → ℕ) : Prop :=
  ∀ p a, pta p=some a → ∀ pw ∈ a.accounts, (pta pw.permission).isSome → rank pw.permission < rank p

/-- No permission has the empty name: `updateauth` refuses to create one. -/
def NoEmptyName (pta : PermissionToAuthority Key) : Prop := ∀ actor, pta ⟨actor,0⟩=none

/-- Each weight is below `2^16`. -/
theorem weightSum_le_length (es : List (MetaPermission Key)) : weightSum es ≤ 65535*es.length := by
  induction es with
  | nil => simp
  | cons e es ih =>
    have he := UInt16.toNat_lt e.weight
    simp only [weightSum_cons,List.length_cons]
    omega

/-- A valid authority has a positive threshold, and its weights fit the
`uint32_t` tally. -/
theorem validate_spec [LT Key] [DecidableRel fun a b : Key => a < b] {a : Authority Key}
    (h : validate a=true) : 0 < a.threshold.toNat ∧ weightSum a.entries < 2^32 := by
  simp only [validate,Bool.and_eq_true,decide_eq_true_eq] at h
  obtain ⟨⟨⟨⟨⟨⟨hlen,hthr⟩,-⟩,-⟩,-⟩,-⟩,-⟩ := h
  have hpos : a.threshold.toNat≠0 := fun h0 => by
    simp only [ne_eq] at hthr
    exact hthr (UInt32.toNat_inj.mp (by simpa using h0))
  have hentries : a.entries.length=a.waits.length+a.keys.length+a.accounts.length := by
    rw [Authority.entries,List.length_append,List.length_append,List.length_map,List.length_map,
      List.length_map]
  have hsum := weightSum_le_length a.entries
  refine ⟨Nat.pos_of_ne_zero hpos,?_⟩
  omega

/-- The cache tells the truth about every level it holds, holds the provided
permissions, holds empty-named levels only when they are provided, and
marks as being evaluated exactly the levels of `B`. -/
structure CacheExact (ck : Checker Key) (B : Set PermissionLevel) (c : Cache) : Prop where
  satisfied : ∀ q, c q=some .permissionSatisfied → ck.Sat q
  unsatisfied : ∀ q, c q=some .permissionUnsatisfied → ¬ck.Sat q
  provided : ∀ q ∈ ck.providedPermissions, c q=some .permissionSatisfied
  emptyName : ∀ q s, q.permission=0 → c q=some s → q ∈ ck.providedPermissions
  being : ∀ q, c q=some .beingEvaluated ↔ q ∈ B

section Exact

variable {ck} {B : Set PermissionLevel} {c : Cache}

theorem CacheExact.sound (hc : CacheExact ck B c) : CacheSound ck c := hc.satisfied

/-- The empty-named entry of an actor, when there is one, is a provided
permission, so satisfied. -/
theorem CacheExact.actor_satisfied (hc : CacheExact ck B c) {q : PermissionLevel} {s : CacheStatus}
    (hs : c ⟨q.actor,0⟩=some s) : s=.permissionSatisfied := by
  have hmem := hc.emptyName _ s rfl hs
  rw [hc.provided _ hmem] at hs
  exact (Option.some.inj hs).symm

theorem CacheExact.status_unsatisfied (hc : CacheExact ck B c) {q : PermissionLevel}
    (h : permissionStatusInCache c q=some .permissionUnsatisfied) : ¬ck.Sat q := by
  rcases permissionStatusInCache_eq_some h with h | ⟨-,h⟩
  · exact hc.unsatisfied q h
  · cases hc.actor_satisfied h

theorem CacheExact.status_being (hc : CacheExact ck B c) {q : PermissionLevel}
    (h : permissionStatusInCache c q=some .beingEvaluated) : q ∈ B := by
  rcases permissionStatusInCache_eq_some h with h | ⟨-,h⟩
  · exact (hc.being q).mp h
  · cases hc.actor_satisfied h

/-- A level the cache knows nothing of is satisfied exactly when its
authority is: neither it nor its actor's empty-named permission is provided. -/
theorem CacheExact.sat_iff_of_none (hempty : NoEmptyName ck.permissionToAuthority) (hc : CacheExact ck B c)
    {q : PermissionLevel} (h : permissionStatusInCache c q=none) :
    ck.Sat q ↔ ∃ a, ck.permissionToAuthority q=some a ∧ Meets ck.EntryMet a := by
  obtain ⟨hq,hactor⟩ := permissionStatusInCache_eq_none h
  constructor
  · intro hsat
    rcases Sat.cases_of_empty hempty hsat with hmem | hmem | ha
    · rw [hc.provided q hmem] at hq
      cases hq
    · rw [hc.provided _ hmem] at hactor
      cases hactor
    · exact ha
  · rintro ⟨a,hp,ha⟩
    exact Sat.of_authSat hp ha

/-- Writing a status for a level that is neither provided nor empty-named
keeps the cache exact, when the status is true of the level and the marked
levels become `B'`. -/
theorem CacheExact.update (hc : CacheExact ck B c) {B' : Set PermissionLevel} {q : PermissionLevel}
    {s : CacheStatus} (hq : q ∉ ck.providedPermissions) (hq0 : q.permission≠0)
    (hsat : s=.permissionSatisfied → ck.Sat q) (hunsat : s=.permissionUnsatisfied → ¬ck.Sat q)
    (hB : ∀ x, x ∈ B' ↔ (x ∈ B ∧ x≠q) ∨ (x=q ∧ s=.beingEvaluated)) :
    CacheExact ck B' (Function.update c q (some s)) where
  satisfied x hx := by
    by_cases hxq : x=q
    · subst hxq
      simp only [Function.update_self,Option.some.injEq] at hx
      exact hsat hx
    · rw [Function.update_of_ne hxq] at hx
      exact hc.satisfied x hx
  unsatisfied x hx := by
    by_cases hxq : x=q
    · subst hxq
      simp only [Function.update_self,Option.some.injEq] at hx
      exact hunsat hx
    · rw [Function.update_of_ne hxq] at hx
      exact hc.unsatisfied x hx
  provided x hx := by
    have hxq : x≠q := fun h => hq (h ▸ hx)
    rw [Function.update_of_ne hxq]
    exact hc.provided x hx
  emptyName x s' hx0 hx := by
    have hxq : x≠q := fun h => hq0 (h ▸ hx0)
    rw [Function.update_of_ne hxq] at hx
    exact hc.emptyName x s' hx0 hx
  being x := by
    rw [hB]
    by_cases hxq : x=q
    · subst hxq
      simp
    · rw [Function.update_of_ne hxq,hc.being]
      simp [hxq]

theorem cacheExact_initial : CacheExact ck ∅ (initializePermissionCache ck) where
  satisfied := cacheSound_initial
  unsatisfied q hq := by
    rw [initializePermissionCache_apply] at hq
    split_ifs at hq
    cases hq
  provided q hq := by rw [initializePermissionCache_apply,if_pos hq]
  emptyName q s _ hq := by
    rw [initializePermissionCache_apply] at hq
    split_ifs at hq with hmem
    exact hmem
  being q := by
    rw [initializePermissionCache_apply]
    split_ifs <;> simp

end Exact

/-- What an exact visitor does: keep `I` and add an entry's weight exactly
when the entry is met, as long as the tally does not overflow. -/
def VisitExact (ck : Checker Key) (I : Cache → Prop) (e : MetaPermission Key) (f : ℕ → CheckerState → ℕ × CheckerState) : Prop :=
  ∀ t st, I st.cache → t+e.weight.toNat < 2^32 → I (f t st).2.cache ∧
    ((ck.EntryMet e ∧ (f t st).1=t+e.weight.toNat) ∨ (¬ck.EntryMet e ∧ (f t st).1=t))

section ExactVisit

variable [DecidableEq Key]

theorem visit_exact {I : Cache → Prop} {va : PermissionLevelWeight → ℕ → CheckerState → ℕ × CheckerState}
    {e : MetaPermission Key} (hacc : ∀ pw, e=.account pw → VisitExact ck I e (va pw)) :
    VisitExact ck I e (visit ck va e) := by
  intro t st hI hfit
  cases e with
  | account pw => exact hacc pw rfl t st hI hfit
  | key k =>
    obtain ⟨hcache,hcount⟩ := visitKey_spec ck k t st
    refine ⟨hcache ▸ hI,?_⟩
    simp only [visit_key,hcount]
    split_ifs with hk
    · exact .inl ⟨hk,uint32Add_of_lt hfit⟩
    · exact .inr ⟨hk,rfl⟩
  | wait w =>
    refine ⟨hI,?_⟩
    simp only [visit_wait]
    split_ifs with hw
    · exact .inl ⟨hw,uint32Add_of_lt hfit⟩
    · exact .inr ⟨hw,rfl⟩

/-- Below the threshold and without overflow, the loop answers true
exactly when met entries reach the threshold from the starting tally. -/
theorem tallyLoop_exact {I : Cache → Prop} {va : PermissionLevelWeight → ℕ → CheckerState → ℕ × CheckerState}
    (thr : ℕ) (es : List (MetaPermission Key))
    (hacc : ∀ pw, MetaPermission.account pw ∈ es → VisitExact ck I (.account pw) (va pw)) :
    ∀ t st, I st.cache → t < thr → t+weightSum es < 2^32 → I (tallyLoop ck va thr es t st).2.cache ∧
      ((tallyLoop ck va thr es t st).1=true ↔
        ∃ S, S.Sublist es ∧ (∀ e ∈ S, ck.EntryMet e) ∧ thr ≤ t+weightSum S) := by
  induction es with
  | nil =>
    intro t st hI hlt _
    refine ⟨hI,?_⟩
    simp only [tallyLoop_nil,Bool.false_eq_true,false_iff,not_exists,not_and,List.sublist_nil]
    rintro S rfl -
    simpa using hlt
  | cons e es ih =>
    intro t st hI hlt hfit
    have hvisit : VisitExact ck I e (visit ck va e) :=
      visit_exact ck fun pw he => he ▸ hacc pw (he ▸ List.mem_cons_self)
    obtain ⟨hI1,hcount⟩ := hvisit t st hI (by simp at hfit; omega)
    rcases hv : visit ck va e t st with ⟨t1,st1⟩
    rw [hv] at hI1 hcount
    simp only [tallyLoop_cons,hv]
    split_ifs with hge
    · refine ⟨hI1,iff_of_true rfl ?_⟩
      rcases hcount with ⟨hmet,rfl⟩ | ⟨-,rfl⟩
      · exact ⟨[e],by simp,by simpa using hmet,by simpa using hge⟩
      · omega
    · have hfit1 : t1+weightSum es < 2^32 := by
        simp only [weightSum_cons] at hfit
        rcases hcount with ⟨-,rfl⟩ | ⟨-,rfl⟩ <;> omega
      obtain ⟨hI2,hiff⟩ := ih (fun pw h => hacc pw (List.mem_cons_of_mem e h)) t1 st1 hI1 (by omega) hfit1
      refine ⟨hI2,hiff.trans ⟨?_,?_⟩⟩
      · rintro ⟨S,hsub,hmet,hthr⟩
        rcases hcount with ⟨hmete,rfl⟩ | ⟨-,rfl⟩
        · refine ⟨e::S,hsub.cons_cons e,?_,by simp; omega⟩
          intro e' he'
          rcases List.mem_cons.mp he' with rfl | he'
          · exact hmete
          · exact hmet e' he'
        · exact ⟨S,hsub.cons e,hmet,hthr⟩
      · rintro ⟨S,hsub,hmet,hthr⟩
        rcases List.sublist_cons_iff.mp hsub with hsub' | ⟨S',rfl,hsub'⟩
        · refine ⟨S,hsub',hmet,?_⟩
          rcases hcount with ⟨-,rfl⟩ | ⟨-,rfl⟩ <;> omega
        · rcases hcount with ⟨-,rfl⟩ | ⟨hnot,-⟩
          · exact ⟨S',hsub',fun e' h => hmet e' (List.mem_cons_of_mem e h),by simp at hthr; omega⟩
          · exact absurd (hmet e List.mem_cons_self) hnot

/-- With a positive threshold and weights that fit, `satisfied(authority,
cache, depth)` answers true exactly when the met entries reach the
threshold. -/
theorem satisfiedAuthWith_exact {I : Cache → Prop}
    {va : PermissionLevelWeight → ℕ → CheckerState → ℕ × CheckerState} {auth : Authority Key}
    (hpos : 0 < auth.threshold.toNat) (hfit : weightSum auth.entries < 2^32)
    (hacc : ∀ pw ∈ auth.accounts, VisitExact ck I (.account pw) (va pw)) (st : CheckerState)
    (hI : I st.cache) :
    I (satisfiedAuthWith ck va auth st).2.cache ∧
      ((satisfiedAuthWith ck va auth st).1=true ↔ Meets ck.EntryMet auth) := by
  have hperm := List.perm_insertionSort MetaPermission.Precedes auth.entries
  have hloop := tallyLoop_exact ck auth.threshold.toNat auth.metaPermissions
    (fun pw h => hacc pw (account_mem_entries.mp (mem_metaPermissions.mp h))) 0 st hI hpos
    (by rw [Nat.zero_add,Authority.metaPermissions,weightSum_perm hperm]; exact hfit)
  have hsel : (∃ S, S.Sublist auth.metaPermissions ∧ (∀ e ∈ S, ck.EntryMet e) ∧
      auth.threshold.toNat ≤ 0+weightSum S) ↔ Meets ck.EntryMet auth := by
    constructor
    · rintro ⟨S,hsub,hmet,hthr⟩
      exact ⟨S,subperm_entries_of_sublist hsub,by simpa using hthr,hmet⟩
    · rintro ⟨S,hsub,hthr,hmet⟩
      obtain ⟨S',hS',hsub'⟩ := hsub.trans hperm.symm.subperm
      exact ⟨S',hsub',fun e he => hmet e (hS'.mem_iff.mp he),by rw [weightSum_perm hS']; simpa using hthr⟩
  rw [satisfiedAuthWith_eq]
  rcases hres : tallyLoop ck va auth.threshold.toNat auth.metaPermissions 0 st with ⟨_|_,st'⟩ <;>
    rw [hres] at hloop
  · exact ⟨hloop.1,iff_of_false Bool.false_ne_true fun h => Bool.false_ne_true (hloop.2.mpr (hsel.mpr h))⟩
  · exact ⟨hloop.1,iff_of_true rfl (hsel.mp (hloop.2.mp rfl))⟩

/-- A level with a status in the cache counts exactly when it is
satisfied, as long as it is not being evaluated. -/
theorem visitPermission_cached_exact {rank : PermissionLevel → ℕ} {B : Set PermissionLevel} {n : ℕ}
    {pw : PermissionLevelWeight} {t : ℕ} {st : CheckerState} {s : CacheStatus}
    (hB : ∀ q ∈ B, (ck.permissionToAuthority q).isSome)
    (hrank : (ck.permissionToAuthority pw.permission).isSome → ∀ q ∈ B, rank pw.permission < rank q)
    (hc : CacheExact ck B st.cache) (hs : permissionStatusInCache st.cache pw.permission=some s)
    (hfit : t+pw.weight.toNat < 2^32) :
    CacheExact ck B (visitPermission ck n pw t st).2.cache ∧
      ((ck.EntryMet (.account pw) ∧ (visitPermission ck n pw t st).1=t+pw.weight.toNat) ∨
        (¬ck.EntryMet (.account pw) ∧ (visitPermission ck n pw t st).1=t)) := by
  rw [visitPermission_cached ck hs]
  refine ⟨hc,?_⟩
  cases s with
  | beingEvaluated =>
    -- a level being evaluated has a higher rank than every level visited now
    have hmem := hc.status_being hs
    exact absurd (hrank (hB _ hmem) _ hmem) (lt_irrefl _)
  | permissionUnsatisfied => exact .inr ⟨hc.status_unsatisfied hs,rfl⟩
  | permissionSatisfied => exact .inl ⟨sat_of_status hc.sound hs,uint32Add_of_lt hfit⟩

/-- On a ranked graph of valid authorities, the visitor on a level whose
rank is below the levels left and below every level being evaluated adds
the level's weight exactly when the level is satisfied. -/
theorem visitPermission_exact {rank : PermissionLevel → ℕ} (hranked : Ranked ck.permissionToAuthority rank)
    (hvalid : ∀ p a, ck.permissionToAuthority p=some a → 0 < a.threshold.toNat ∧ weightSum a.entries < 2^32)
    (hempty : NoEmptyName ck.permissionToAuthority) (n : ℕ) :
    ∀ (pw : PermissionLevelWeight) (B : Set PermissionLevel), (∀ q ∈ B, (ck.permissionToAuthority q).isSome) →
      ((ck.permissionToAuthority pw.permission).isSome →
        rank pw.permission < n ∧ ∀ q ∈ B, rank pw.permission < rank q) →
      VisitExact ck (CacheExact ck B) (.account pw) (visitPermission ck n pw) := by
  induction n with
  | zero =>
    intro pw B hB hrank t st hc hfit
    cases hs : permissionStatusInCache st.cache pw.permission with
    | some s => exact visitPermission_cached_exact ck hB (fun h => (hrank h).2) hc hs hfit
    | none =>
      rw [visitPermission_zero ck hs]
      refine ⟨hc,.inr ⟨fun hsat => ?_,rfl⟩⟩
      obtain ⟨a,hp,-⟩ := (hc.sat_iff_of_none hempty hs).mp hsat
      exact absurd (hrank (by simp [hp])).1 (Nat.not_lt_zero _)
  | succ n ih =>
    intro pw B hB hrank t st hc hfit
    cases hs : permissionStatusInCache st.cache pw.permission with
    | some s => exact visitPermission_cached_exact ck hB (fun h => (hrank h).2) hc hs hfit
    | none =>
      cases hp : ck.permissionToAuthority pw.permission with
      | none =>
        rw [visitPermission_missing ck hs hp]
        refine ⟨hc,.inr ⟨fun hsat => ?_,rfl⟩⟩
        obtain ⟨a,hp',-⟩ := (hc.sat_iff_of_none hempty hs).mp hsat
        rw [hp] at hp'
        cases hp'
      | some auth =>
        obtain ⟨hq,-⟩ := permissionStatusInCache_eq_none hs
        have hnotB : pw.permission ∉ B := fun h => by
          rw [(hc.being _).mpr h] at hq
          cases hq
        have hnotP : pw.permission ∉ ck.providedPermissions := fun h => by
          rw [hc.provided _ h] at hq
          cases hq
        have hne0 : pw.permission.permission≠0 := fun h0 => by
          have hp0 : ck.permissionToAuthority ⟨pw.permission.actor,pw.permission.permission⟩=some auth := hp
          rw [h0,hempty] at hp0
          cases hp0
        have hrank_pw := hrank (by simp [hp])
        have hc1 : CacheExact ck (insert pw.permission B) (emplace st.cache pw.permission .beingEvaluated) := by
          rw [emplace_of_none hq]
          exact hc.update hnotP hne0 nofun nofun fun x => by by_cases hx : x=pw.permission <;> simp [hx]
        -- each entry of its authority has a lower rank and one level less
        have hacc : ∀ q ∈ auth.accounts, VisitExact ck (CacheExact ck (insert pw.permission B)) (.account q)
            (visitPermission ck n q) := by
          intro q hq'
          refine ih q _ (fun x hx => ?_) (fun hsome => ?_)
          · rcases hx with rfl | hx
            · simp [hp]
            · exact hB x hx
          · have hlt := hranked _ _ hp q hq' hsome
            refine ⟨by omega,fun x hx => ?_⟩
            rcases hx with rfl | hx
            · exact hlt
            · exact lt_trans hlt (hrank_pw.2 x hx)
        obtain ⟨hpos,hfit'⟩ := hvalid _ _ hp
        rcases hres : satisfiedAuthWith ck (visitPermission ck n) auth
          {st with cache := emplace st.cache pw.permission .beingEvaluated} with ⟨r,st2⟩
        obtain ⟨hc2,hiff⟩ := satisfiedAuthWith_exact ck hpos hfit' hacc
          {st with cache := emplace st.cache pw.permission .beingEvaluated} hc1
        rw [hres] at hc2 hiff
        have hsat_iff : ck.Sat pw.permission ↔ Meets ck.EntryMet auth := by
          rw [hc.sat_iff_of_none hempty hs]
          constructor
          · rintro ⟨a,ha,hm⟩
            rw [hp] at ha
            cases ha
            exact hm
          · exact fun hm => ⟨auth,hp,hm⟩
        have hB' : ∀ s : CacheStatus, s≠.beingEvaluated → ∀ x, x ∈ B ↔
            (x ∈ insert pw.permission B ∧ x≠pw.permission) ∨ (x=pw.permission ∧ s=.beingEvaluated) := by
          intro s hs' x
          by_cases hx : x=pw.permission
          · subst hx
            simp [hnotB,hs']
          · simp [hx]
        rw [visitPermission_evaluate ck hs hp hres]
        cases r with
        | true =>
          have hsat := hsat_iff.mpr (hiff.mp rfl)
          exact ⟨hc2.update hnotP hne0 (fun _ => hsat) nofun (hB' _ nofun),.inl ⟨hsat,uint32Add_of_lt hfit⟩⟩
        | false =>
          have hnsat : ¬ck.Sat pw.permission := fun h => Bool.false_ne_true (hiff.mpr (hsat_iff.mp h))
          exact ⟨hc2.update hnotP hne0 nofun (fun _ => hnsat) (hB' _ nofun),.inr ⟨hnsat,rfl⟩⟩

/-- On a ranked graph of valid authorities whose root is below the depth
limit, `satisfied(permission_level)` is the declarative answer. -/
theorem satisfied_iff_sat {rank : PermissionLevel → ℕ} (hranked : Ranked ck.permissionToAuthority rank)
    (hvalid : ∀ p a, ck.permissionToAuthority p=some a → 0 < a.threshold.toNat ∧ weightSum a.entries < 2^32)
    (hempty : NoEmptyName ck.permissionToAuthority) {permission : PermissionLevel}
    (hroot : (ck.permissionToAuthority permission).isSome → rank permission < ck.recursionDepthLimit.toNat)
    (usedKeys : List Bool) : (satisfied ck usedKeys permission).1=true ↔ ck.Sat permission := by
  obtain ⟨-,hcount⟩ := visitPermission_exact ck hranked hvalid hempty _ ⟨permission,1⟩ ∅ (by simp)
    (fun h => ⟨hroot h,by simp⟩) 0 ⟨initializePermissionCache ck,usedKeys⟩ cacheExact_initial
    (by simp [MetaPermission.weight])
  rw [satisfied_fst,decide_eq_true_eq]
  rcases hcount with ⟨hsat,h1⟩ | ⟨hnsat,h0⟩
  · rw [h1]
    exact iff_of_true (by simp [MetaPermission.weight]) hsat
  · rw [h0]
    exact iff_of_false (lt_irrefl 0) hnsat

/-- On a ranked graph of valid authorities whose entries are below the
depth limit, `satisfied(authority)` is the declarative answer. -/
theorem satisfiedAuthority_iff_authSat {rank : PermissionLevel → ℕ}
    (hranked : Ranked ck.permissionToAuthority rank)
    (hvalid : ∀ p a, ck.permissionToAuthority p=some a → 0 < a.threshold.toNat ∧ weightSum a.entries < 2^32)
    (hempty : NoEmptyName ck.permissionToAuthority) {auth : Authority Key} (hpos : 0 < auth.threshold.toNat)
    (hfit : weightSum auth.entries < 2^32)
    (hroot : ∀ pw ∈ auth.accounts, (ck.permissionToAuthority pw.permission).isSome →
      rank pw.permission < ck.recursionDepthLimit.toNat)
    (usedKeys : List Bool) : (satisfiedAuthority ck usedKeys auth).1=true ↔ Meets ck.EntryMet auth :=
  (satisfiedAuthWith_exact ck hpos hfit
    (fun pw hpw => visitPermission_exact ck hranked hvalid hempty _ pw ∅ (by simp)
      fun h => ⟨hroot pw hpw h,by simp⟩) ⟨initializePermissionCache ck,usedKeys⟩ cacheExact_initial).2

/-- On a ranked graph of valid authorities whose entries are below the
depth limit, more factors keep `satisfied(authority)` true. -/
theorem satisfiedAuthority_mono {rank : PermissionLevel → ℕ} (hranked : Ranked ck.permissionToAuthority rank)
    (hvalid : ∀ p a, ck.permissionToAuthority p=some a → 0 < a.threshold.toNat ∧ weightSum a.entries < 2^32)
    (hempty : NoEmptyName ck.permissionToAuthority) {auth : Authority Key} (hpos : 0 < auth.threshold.toNat)
    (hfit : weightSum auth.entries < 2^32)
    (hroot : ∀ pw ∈ auth.accounts, (ck.permissionToAuthority pw.permission).isSome →
      rank pw.permission < ck.recursionDepthLimit.toNat)
    {keys' : List Key} {perms' : List PermissionLevel} {delay' : ℤ} (hkeys : ck.providedKeys ⊆ keys')
    (hperms : ck.providedPermissions ⊆ perms') (hdelay : ck.providedDelay ≤ delay') (usedKeys usedKeys' : List Bool)
    (h : (satisfiedAuthority ck usedKeys auth).1=true) :
    (satisfiedAuthority {ck with providedKeys := keys',providedPermissions := perms',providedDelay := delay'}
      usedKeys' auth).1=true := by
  rw [satisfiedAuthority_iff_authSat ck hranked hvalid hempty hpos hfit hroot] at h
  rw [satisfiedAuthority_iff_authSat ⟨ck.permissionToAuthority,ck.recursionDepthLimit,keys',perms',delay'⟩
    hranked hvalid hempty hpos hfit hroot]
  exact AuthSat.mono (fun k hk => hkeys hk) (fun q hq => hperms hq) hdelay h

end ExactVisit

/-! ## Monotonicity -/

theorem satisfied_monotone_on_ranked_graphs [DecidableEq Key] [LT Key] [DecidableRel fun a b : Key => a < b]
    (pta : PermissionToAuthority Key) (limit : UInt16) (rank : PermissionLevel → ℕ)
    {keys keys' : List Key} {perms perms' : List PermissionLevel} {delay delay' : ℤ}
    (permission : PermissionLevel) (usedKeys usedKeys' : List Bool)
    (hranked : Ranked pta rank) (hroot : (pta permission).isSome → rank permission < limit.toNat)
    (hvalid : ∀ p a, pta p=some a → validate a=true) (hempty : NoEmptyName pta)
    (hkeys : keys ⊆ keys') (hperms : perms ⊆ perms') (hdelay : delay ≤ delay')
    (h : (satisfied ⟨pta,limit,keys,perms,delay⟩ usedKeys permission).1=true) :
    (satisfied ⟨pta,limit,keys',perms',delay'⟩ usedKeys' permission).1=true := by
  have hvalid' := fun p a hp => validate_spec (hvalid p a hp)
  rw [satisfied_iff_sat _ hranked hvalid' hempty hroot] at h ⊢
  exact Sat.mono (fun k hk => hkeys hk) (fun q hq => hperms hq) hdelay h

/-! ## Extra keys can lose an answer

Level 1 needs levels 2 (weight 2) and 3 (weight 1). Level 2 is met by key
100, or else by level 5; level 3 only through level 4, which needs level
5; level 5 needs level 6, which key 200 meets. With the depth limit 4 and
key 200 alone, level 5 is first evaluated below level 2, found satisfied
and cached, and level 4 finds it in the cache. With keys 200 and 100,
level 2 is met by its key, so level 5 is first reached below level 4, one
level deeper, where level 6 is beyond the limit: level 5 is cached
unsatisfied and level 1 fails. With the limit 5 the graph is ranked below
the limit and both answers are true. -/

/-- The authorities of the example, by level. -/
def lossAuthorities : List (PermissionLevel × Authority ℕ) :=
  [(⟨1,1⟩,⟨3,[],[⟨⟨2,1⟩,2⟩,⟨⟨3,1⟩,1⟩],[]⟩),
   (⟨2,1⟩,⟨1,[⟨100,2⟩],[⟨⟨5,1⟩,1⟩],[]⟩),
   (⟨3,1⟩,⟨1,[],[⟨⟨4,1⟩,1⟩],[]⟩),
   (⟨4,1⟩,⟨1,[],[⟨⟨5,1⟩,1⟩],[]⟩),
   (⟨5,1⟩,⟨1,[],[⟨⟨6,1⟩,1⟩],[]⟩),
   (⟨6,1⟩,⟨1,[⟨200,1⟩],[],[]⟩)]

/-- `permission_to_authority` of the example. -/
def lossGraph : PermissionToAuthority ℕ := fun p => (lossAuthorities.find? fun x => x.1=p).map (·.2)

/-- The example's checker with depth limit `limit` and keys `keys`. -/
def lossChecker (limit : UInt16) (keys : List ℕ) : Checker ℕ := ⟨lossGraph,limit,keys,[],0⟩

theorem satisfied_loses_with_more_keys :
    [200] ⊆ [200,100] ∧ (satisfied (lossChecker 4 [200]) [false] ⟨1,1⟩).1=true ∧
      (satisfied (lossChecker 4 [200,100]) [false,false] ⟨1,1⟩).1=false :=
  ⟨by decide,by decide,by decide⟩

/-- Ranks of the example: each level above those its authority needs. -/
def lossRank (p : PermissionLevel) : ℕ := [0,4,2,3,2,1,0].getD p.actor 0

/-- A level of the example has the authority listed for it. -/
theorem mem_lossAuthorities {p : PermissionLevel} {a : Authority ℕ} (h : lossGraph p=some a) :
    (p,a) ∈ lossAuthorities := by
  obtain ⟨x,hx,rfl⟩ := Option.map_eq_some_iff.mp h
  have hp : x.1=p := by simpa using List.find?_some hx
  subst hp
  exact List.mem_of_find?_eq_some hx

theorem lossGraph_ranked : Ranked lossGraph lossRank := by
  intro p a hp pw hpw hsome
  have hcheck : ∀ x ∈ lossAuthorities, ∀ q ∈ x.2.accounts, (lossGraph q.permission).isSome →
      lossRank q.permission < lossRank x.1 := by decide
  exact hcheck (p,a) (mem_lossAuthorities hp) pw hpw hsome

theorem lossGraph_valid (p : PermissionLevel) (a : Authority ℕ) (h : lossGraph p=some a) : validate a=true := by
  have hcheck : ∀ x ∈ lossAuthorities, validate x.2=true := by decide
  exact hcheck (p,a) (mem_lossAuthorities h)

theorem lossGraph_noEmptyName : NoEmptyName lossGraph := by
  intro actor
  simp [lossGraph,lossAuthorities]

/-- The authority of level `1@1` of the example. -/
def lossRootAuthority : Authority ℕ := ⟨3,[],[⟨⟨2,1⟩,2⟩,⟨⟨3,1⟩,1⟩],[]⟩

theorem lossGraph_fits (p : PermissionLevel) (a : Authority ℕ) (h : lossGraph p=some a) :
    0 < a.threshold.toNat ∧ weightSum a.entries < 2^32 := by
  have hcheck : ∀ x ∈ lossAuthorities, 0 < x.2.threshold.toNat ∧ weightSum x.2.entries < 2^32 := by decide
  exact hcheck (p,a) (mem_lossAuthorities h)

/-- Checked as an authority with the limit 5, level 1's requirement stays met
when key 100 is added. -/
theorem root_authority_keeps_answer :
    (satisfiedAuthority (lossChecker 5 [200]) [false] lossRootAuthority).1=true ∧
      (satisfiedAuthority {lossChecker 5 [200] with providedKeys := [200,100],providedPermissions := [],providedDelay := 0}
        [false,false] lossRootAuthority).1=true :=
  have h : (satisfiedAuthority (lossChecker 5 [200]) [false] lossRootAuthority).1=true := by decide
  ⟨h,satisfiedAuthority_mono (lossChecker 5 [200]) lossGraph_ranked lossGraph_fits lossGraph_noEmptyName (by decide)
    (by decide) (by decide) (by decide) (List.Subset.refl _) le_rfl [false] [false,false] h⟩

theorem satisfied_keeps_answer_below_limit :
    (satisfied (lossChecker 5 [200,100]) [false,false] ⟨1,1⟩).1=true :=
  satisfied_monotone_on_ranked_graphs lossGraph 5 lossRank ⟨1,1⟩ [false] [false,false] lossGraph_ranked
    (fun _ => by decide) lossGraph_valid lossGraph_noEmptyName (by decide) (List.Subset.refl _) le_rfl
    (show (satisfied (lossChecker 5 [200]) [false] ⟨1,1⟩).1=true by decide)

end Cyberway.AuthorityChecker
