import Cyberway.AuthoritySat

/-!
# The authority checker is sound

Whatever the permission graph and the depth limit, `satisfied` answers
true only for a level that the factors satisfy in the declarative sense
(`satisfied_sound`): the cache holds `permission_satisfied` only for
satisfied levels, a level being evaluated counts nothing, and the
`uint32_t` tally never exceeds the true sum of the weights it counted.
-/

namespace Cyberway.AuthorityChecker

variable {Key : Type} (ck : Checker Key)

/-- The levels the checker's factors satisfy. -/
abbrev Checker.Sat : PermissionLevel → Prop :=
  AuthorityChecker.Sat ck.permissionToAuthority {k | k ∈ ck.providedKeys} {q | q ∈ ck.providedPermissions}
    ck.providedDelay

/-- The entries the checker's factors meet. -/
abbrev Checker.EntryMet : MetaPermission Key → Prop :=
  AuthorityChecker.EntryMet ck.Sat {k | k ∈ ck.providedKeys} ck.providedDelay

/-! ## The pieces of a visit -/

theorem uint32Add_le (t : ℕ) (w : UInt16) : uint32Add t w ≤ t+w.toNat := Nat.mod_le _ _

theorem uint32Add_of_lt {t : ℕ} {w : UInt16} (h : t+w.toNat < 2^32) : uint32Add t w=t+w.toNat :=
  Nat.mod_eq_of_lt h

/-- A status found in the cache is the level's own, or, when the level has
none, that of its actor's empty-named permission. -/
theorem permissionStatusInCache_eq_some {c : Cache} {q : PermissionLevel} {s : CacheStatus}
    (h : permissionStatusInCache c q=some s) : c q=some s ∨ (c q=none ∧ c ⟨q.actor,0⟩=some s) := by
  rw [permissionStatusInCache_eq] at h
  cases hq : c q with
  | some s' =>
    rw [hq,Option.some_or] at h
    exact .inl h
  | none =>
    rw [hq,Option.none_or] at h
    exact .inr ⟨rfl,h⟩

theorem permissionStatusInCache_eq_none {c : Cache} {q : PermissionLevel}
    (h : permissionStatusInCache c q=none) : c q=none ∧ c ⟨q.actor,0⟩=none := by
  rw [permissionStatusInCache_eq] at h
  cases hq : c q with
  | some s' =>
    rw [hq,Option.some_or] at h
    cases h
  | none =>
    rw [hq,Option.none_or] at h
    exact ⟨rfl,h⟩

theorem emplace_of_none {c : Cache} {q : PermissionLevel} (h : c q=none) (s : CacheStatus) :
    emplace c q s=Function.update c q (some s) := by
  rw [emplace_eq,h]
  rfl

theorem mem_metaPermissions {a : Authority Key} {e : MetaPermission Key} :
    e ∈ a.metaPermissions ↔ e ∈ a.entries :=
  (List.perm_insertionSort _ _).mem_iff

theorem account_mem_entries {a : Authority Key} {pw : PermissionLevelWeight} :
    MetaPermission.account pw ∈ a.entries ↔ pw ∈ a.accounts := by
  simp [Authority.entries]

/-- Selected entries of the sorted set are selected entries of the authority. -/
theorem subperm_entries_of_sublist {a : Authority Key} {S : List (MetaPermission Key)}
    (h : S.Sublist a.metaPermissions) : S.Subperm a.entries :=
  h.subperm.trans (List.perm_insertionSort _ _).subperm

section Visit

variable [DecidableEq Key]

/-- A key counts exactly when it is provided, and changes only the used keys. -/
theorem visitKey_spec (k : KeyWeight Key) (t : ℕ) (st : CheckerState) :
    (visitKey ck k t st).2.cache=st.cache ∧
      (visitKey ck k t st).1=if k.key ∈ ck.providedKeys then uint32Add t k.weight else t := by
  unfold visitKey
  cases h : ck.providedKeys.idxOf? k.key with
  | none =>
    have hk : k.key ∉ ck.providedKeys := List.idxOf?_eq_none_iff.mp h
    simp [hk]
  | some i =>
    have hk : k.key ∈ ck.providedKeys := List.isSome_idxOf?.mp (by simp [h])
    simp [hk]

/-- A level with a status in the cache counts when the status is satisfied,
and the state stays. -/
theorem visitPermission_cached {n : ℕ} {pw : PermissionLevelWeight} {t : ℕ} {st : CheckerState}
    {s : CacheStatus} (h : permissionStatusInCache st.cache pw.permission=some s) :
    visitPermission ck n pw t st=(if s=.permissionSatisfied then uint32Add t pw.weight else t,st) := by
  rw [visitPermission_eq,h]
  cases s <;> rfl

/-- At the depth limit a level without status counts nothing. -/
theorem visitPermission_zero {pw : PermissionLevelWeight} {t : ℕ} {st : CheckerState}
    (h : permissionStatusInCache st.cache pw.permission=none) : visitPermission ck 0 pw t st=(t,st) := by
  rw [visitPermission_eq,h]

/-- A level without status and without authority counts nothing. -/
theorem visitPermission_missing {n : ℕ} {pw : PermissionLevelWeight} {t : ℕ} {st : CheckerState}
    (h : permissionStatusInCache st.cache pw.permission=none) (hp : ck.permissionToAuthority pw.permission=none) :
    visitPermission ck (n+1) pw t st=(t,st) := by
  rw [visitPermission_eq,h,hp]

/-- A level without status below the depth limit is marked, its authority
checked one level deeper, and the answer cached. -/
theorem visitPermission_evaluate {n : ℕ} {pw : PermissionLevelWeight} {t : ℕ} {st st2 : CheckerState}
    {auth : Authority Key} {r : Bool} (h : permissionStatusInCache st.cache pw.permission=none)
    (hp : ck.permissionToAuthority pw.permission=some auth)
    (hres : satisfiedAuthWith ck (visitPermission ck n) auth
      {st with cache := emplace st.cache pw.permission .beingEvaluated}=(r,st2)) :
    visitPermission ck (n+1) pw t st=
      if r then (uint32Add t pw.weight,{st2 with cache := Function.update st2.cache pw.permission (some .permissionSatisfied)})
      else (t,{st2 with cache := Function.update st2.cache pw.permission (some .permissionUnsatisfied)}) := by
  rw [visitPermission_eq,h,hp]
  dsimp only
  rw [hres]
  cases r <;> rfl

end Visit

/-! ## Soundness -/

/-- Every level cached as satisfied is satisfied. -/
def CacheSound (c : Cache) : Prop := ∀ q, c q=some .permissionSatisfied → ck.Sat q

/-- What a sound visitor does: keep the cache sound and count an entry's
weight only if the entry is met, the tally rising by at most the weight. -/
def VisitSound (I : Cache → Prop) (e : MetaPermission Key)
    (f : ℕ → CheckerState → ℕ × CheckerState) : Prop :=
  ∀ t st, I st.cache → I (f t st).2.cache ∧
    ((f t st).1=t ∨ (ck.EntryMet e ∧ (f t st).1 ≤ t+e.weight.toNat))

variable {ck}

/-- A level whose lookup says satisfied is satisfied: its own entry, or its
actor's empty-named one, is. -/
theorem sat_of_status {c : Cache} (hc : CacheSound ck c) {q : PermissionLevel}
    (h : permissionStatusInCache c q=some .permissionSatisfied) : ck.Sat q := by
  rcases permissionStatusInCache_eq_some h with h | ⟨-,h⟩
  · exact hc q h
  · exact .actor (hc _ h)

theorem cacheSound_update {c : Cache} (hc : CacheSound ck c) {q : PermissionLevel} {s : CacheStatus}
    (hs : s=.permissionSatisfied → ck.Sat q) : CacheSound ck (Function.update c q (some s)) := by
  intro q' hq'
  by_cases hq : q'=q
  · subst hq
    simp only [Function.update_self,Option.some.injEq] at hq'
    exact hs hq'
  · rw [Function.update_of_ne hq] at hq'
    exact hc q' hq'

theorem cacheSound_emplace {c : Cache} (hc : CacheSound ck c) (q : PermissionLevel) :
    CacheSound ck (emplace c q .beingEvaluated) := by
  rw [emplace_eq]
  cases c q with
  | none => exact cacheSound_update hc nofun
  | some _ => exact hc

theorem cacheSound_initial : CacheSound ck (initializePermissionCache ck) := by
  intro q hq
  rw [initializePermissionCache_apply] at hq
  split_ifs at hq with hmem
  exact .provided hmem

section Tally

variable [DecidableEq Key]

theorem visit_sound {I : Cache → Prop} {va : PermissionLevelWeight → ℕ → CheckerState → ℕ × CheckerState}
    {e : MetaPermission Key} (hacc : ∀ pw, e=.account pw → VisitSound ck I e (va pw)) :
    VisitSound ck I e (visit ck va e) := by
  intro t st hI
  cases e with
  | account pw => exact hacc pw rfl t st hI
  | key k =>
    obtain ⟨hcache,hcount⟩ := visitKey_spec ck k t st
    refine ⟨hcache ▸ hI,?_⟩
    simp only [visit_key,hcount]
    split_ifs with hk
    · exact .inr ⟨hk,uint32Add_le t k.weight⟩
    · exact .inl rfl
  | wait w =>
    refine ⟨hI,?_⟩
    simp only [visit_wait]
    split_ifs with hw
    · exact .inr ⟨hw,uint32Add_le t w.weight⟩
    · exact .inl rfl

/-- The loop answers true only when met entries it visited reach the
threshold from the starting tally. -/
theorem tallyLoop_sound {I : Cache → Prop} {va : PermissionLevelWeight → ℕ → CheckerState → ℕ × CheckerState}
    (thr : ℕ) (es : List (MetaPermission Key))
    (hacc : ∀ pw, MetaPermission.account pw ∈ es → VisitSound ck I (.account pw) (va pw)) :
    ∀ t st, I st.cache → I (tallyLoop ck va thr es t st).2.cache ∧
      ((tallyLoop ck va thr es t st).1=true →
        ∃ S, S.Sublist es ∧ (∀ e ∈ S, ck.EntryMet e) ∧ thr ≤ t+weightSum S) := by
  induction es with
  | nil => exact fun t st hI => ⟨hI,fun h => absurd h Bool.false_ne_true⟩
  | cons e es ih =>
    intro t st hI
    have hvisit : VisitSound ck I e (visit ck va e) :=
      visit_sound fun pw he => he ▸ hacc pw (he ▸ List.mem_cons_self)
    obtain ⟨hI1,hcount⟩ := hvisit t st hI
    rcases hv : visit ck va e t st with ⟨t1,st1⟩
    rw [hv] at hI1 hcount
    simp only [tallyLoop_cons,hv]
    split_ifs with hge
    · refine ⟨hI1,fun _ => ?_⟩
      rcases hcount with rfl | ⟨hmet,hle⟩
      · exact ⟨[],List.nil_sublist _,fun _ h => absurd h List.not_mem_nil,by simpa using hge⟩
      · exact ⟨[e],by simp,by simpa using hmet,by simp; omega⟩
    · obtain ⟨hI2,hS⟩ := ih (fun pw h => hacc pw (List.mem_cons_of_mem e h)) t1 st1 hI1
      refine ⟨hI2,fun htrue => ?_⟩
      obtain ⟨S,hsub,hmet,hthr⟩ := hS htrue
      rcases hcount with rfl | ⟨hmete,hle⟩
      · exact ⟨S,hsub.cons e,hmet,hthr⟩
      · refine ⟨e::S,hsub.cons_cons e,?_,by simp; omega⟩
        intro e' he'
        rcases List.mem_cons.mp he' with rfl | he'
        · exact hmete
        · exact hmet e' he'

/-- `satisfied(authority, cache, depth)` answers true only for an authority
whose met entries reach the threshold. -/
theorem satisfiedAuthWith_sound {I : Cache → Prop}
    {va : PermissionLevelWeight → ℕ → CheckerState → ℕ × CheckerState} {auth : Authority Key}
    (hacc : ∀ pw ∈ auth.accounts, VisitSound ck I (.account pw) (va pw)) (st : CheckerState)
    (hI : I st.cache) :
    I (satisfiedAuthWith ck va auth st).2.cache ∧
      ((satisfiedAuthWith ck va auth st).1=true → Meets ck.EntryMet auth) := by
  have hloop := tallyLoop_sound auth.threshold.toNat auth.metaPermissions
    (fun pw h => hacc pw (account_mem_entries.mp (mem_metaPermissions.mp h))) 0 st hI
  rw [satisfiedAuthWith_eq]
  rcases hres : tallyLoop ck va auth.threshold.toNat auth.metaPermissions 0 st with ⟨_|_,st'⟩ <;>
    rw [hres] at hloop
  · exact ⟨hloop.1,nofun⟩
  · obtain ⟨hI',hS⟩ := hloop
    obtain ⟨S,hsub,hmet,hthr⟩ := hS rfl
    exact ⟨hI',fun _ => ⟨S,subperm_entries_of_sublist hsub,by simpa using hthr,hmet⟩⟩

/-- A level with a status in the cache counts only if it is satisfied. -/
theorem visitPermission_cached_sound {n : ℕ} {pw : PermissionLevelWeight} {t : ℕ} {st : CheckerState}
    {s : CacheStatus} (hc : CacheSound ck st.cache) (hs : permissionStatusInCache st.cache pw.permission=some s) :
    CacheSound ck (visitPermission ck n pw t st).2.cache ∧ ((visitPermission ck n pw t st).1=t ∨
      (ck.EntryMet (.account pw) ∧ (visitPermission ck n pw t st).1 ≤ t+pw.weight.toNat)) := by
  rw [visitPermission_cached ck hs]
  refine ⟨hc,?_⟩
  split_ifs with hsat
  · subst hsat
    exact .inr ⟨sat_of_status hc hs,uint32Add_le t pw.weight⟩
  · exact .inl rfl

/-- The visitor on a permission level, at any depth, keeps the cache sound
and counts the level only if it is satisfied. -/
theorem visitPermission_sound (n : ℕ) :
    ∀ pw, VisitSound ck (CacheSound ck) (.account pw) (visitPermission ck n pw) := by
  induction n with
  | zero =>
    intro pw t st hc
    cases hs : permissionStatusInCache st.cache pw.permission with
    | some s => exact visitPermission_cached_sound hc hs
    | none => exact ⟨(visitPermission_zero ck hs).symm ▸ hc,.inl (by rw [visitPermission_zero ck hs])⟩
  | succ n ih =>
    intro pw t st hc
    cases hs : permissionStatusInCache st.cache pw.permission with
    | some s => exact visitPermission_cached_sound hc hs
    | none =>
      cases hp : ck.permissionToAuthority pw.permission with
      | none => exact ⟨(visitPermission_missing ck hs hp).symm ▸ hc,.inl (by rw [visitPermission_missing ck hs hp])⟩
      | some auth =>
        rcases hres : satisfiedAuthWith ck (visitPermission ck n) auth
          {st with cache := emplace st.cache pw.permission .beingEvaluated} with ⟨r,st2⟩
        obtain ⟨hc2,hmeets⟩ := satisfiedAuthWith_sound (fun q _ => ih q)
          {st with cache := emplace st.cache pw.permission .beingEvaluated} (cacheSound_emplace hc pw.permission)
        rw [hres] at hc2 hmeets
        rw [visitPermission_evaluate ck hs hp hres]
        cases r with
        | true =>
          have hsat : ck.Sat pw.permission := Sat.of_authSat hp (hmeets rfl)
          exact ⟨cacheSound_update hc2 fun _ => hsat,.inr ⟨hsat,uint32Add_le t pw.weight⟩⟩
        | false => exact ⟨cacheSound_update hc2 nofun,.inl rfl⟩

/-- The checker never accepts a level that its factors do not satisfy,
whatever the permission graph and the depth limit. -/
theorem satisfied_sound (usedKeys : List Bool) (permission : PermissionLevel)
    (h : (satisfied ck usedKeys permission).1=true) : ck.Sat permission := by
  obtain ⟨-,hcount⟩ := visitPermission_sound ck.recursionDepthLimit.toNat ⟨permission,1⟩ 0
    ⟨initializePermissionCache ck,usedKeys⟩ cacheSound_initial
  rw [satisfied_fst,decide_eq_true_eq] at h
  rcases hcount with h0 | ⟨hsat,-⟩
  · rw [h0] at h
    exact absurd h (lt_irrefl 0)
  · exact hsat

end Tally

/-- A checker whose level `1@1` needs key 7, which is provided. -/
def keyChecker : Checker ℕ := ⟨fun p => if p=⟨1,1⟩ then some ⟨1,[⟨7,1⟩],[],[]⟩ else none,5,[7],[],0⟩

theorem keyChecker_satisfied_sat : (satisfied keyChecker [false] ⟨1,1⟩).1=true ∧ keyChecker.Sat ⟨1,1⟩ :=
  have h : (satisfied keyChecker [false] ⟨1,1⟩).1=true := by decide
  ⟨h,satisfied_sound [false] ⟨1,1⟩ h⟩

end Cyberway.AuthorityChecker
