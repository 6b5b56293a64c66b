import Rinit.Requires
import Rinit.Soft

/-!
# Starts that wait for a stop

A start of a unit that is being stopped is answered at once and made once the stop is over.
`startKept` : the start stays on file in every run that does not stop or remove the unit, and
the pass that finds the stop over carries it out, exactly when the unit is not left failed or
waiting without a timer. The pass takes the start off the file before it asks what it would
lead to, and goes on only when that is a plain spawn, so the start of a unit whose restart
tripped the breaker is gone without a word (`not_startKept_tripped`).
-/

namespace Rinit

namespace UnitManager

variable {k : Kernel} {m m' : UnitManager} {u v : UnitName} {op : Op} {rt : UnitRuntime}

/-! ## The starts on file -/

theorem queuedStarts_requestStop (k : Kernel) (m : UnitManager) (u : UnitName)
    (source : RequestSource) : (m.requestStop k u source).1.queuedStarts = m.queuedStarts ∨
      (m.requestStop k u source).1.queuedStarts = m.queuedStarts.erase u := by
  have hsubmit (m : UnitManager) : (m.submitRequest k u .stopped source).1.queuedStarts =
      m.queuedStarts.erase u := by
    rw [submitRequest_fst]
    exact congrArg (·.erase u) (queuedStarts_answered k m u .stopped source)
  unfold requestStop request
  split
  · exact .inr (hsubmit m)
  · split
    · exact .inl rfl
    · next m' hm' => exact .inr ((hsubmit m').trans
        (congrArg (·.erase u) (sameRequests_instantiate hm').queuedStarts))

theorem mem_queuedStarts_requestStop (h : v ∈ m.queuedStarts) (hne : u ≠ v)
    (source : RequestSource) : v ∈ (m.requestStop k u source).1.queuedStarts := by
  rcases queuedStarts_requestStop k m u source with heq | heq <;> rw [heq]
  · exact h
  · exact Std.ExtTreeMap.mem_erase.mpr ⟨by simpa using hne, h⟩

/-- The stops that a start makes leave a unit's start on file, unless they stop the unit. -/
theorem mem_queuedStarts_stopConflicts (h : u ∈ m.queuedStarts)
    (hu : u ∉ (m.stopConflicts k v).2) : u ∈ (m.stopConflicts k v).1.queuedStarts := by
  revert hu
  unfold stopConflicts
  split
  · exact fun _ => h
  · refine Runs.foldl_induction (P := fun _ (s : UnitManager × List UnitName) =>
      u ∉ s.2 → u ∈ s.1.queuedStarts) (fun _ => h) ?_
    intro _ other _ s _ ih
    unfold stopConflict
    split
    · simp only [if_true, List.mem_append, List.mem_singleton, not_or]
      rintro ⟨hs, hne⟩
      rw [stopUnit, queuedStarts_update]
      exact mem_queuedStarts_requestStop (ih hs) (Ne.symm hne) .userStop
    · exact ih

/-- A pass leaves the start of a unit that is still being stopped. -/
theorem mem_queuedStarts_dueQueuedStarts (h : u ∈ m.queuedStarts) (hex : m.unitExists u = true)
    (hd : m.isDeactivating u = true) : u ∈ (m.dueQueuedStarts k).1.queuedStarts := by
  unfold dueQueuedStarts
  refine (Runs.foldl_induction (P := fun _ (s : UnitManager × List UnitName) =>
    s.1.get u = m.get u ∧ u ∈ s.1.queuedStarts) ⟨rfl, h⟩ ?_).2
  rintro _ ⟨w, source⟩ _ ⟨s, out⟩ - ⟨hget, hmem⟩
  refine ⟨(get_dueQueuedStart k s w source u).trans hget, ?_⟩
  dsimp only at hget hmem ⊢
  by_cases hw : w = u
  · subst hw
    have hexs : s.unitExists w = true := by rwa [unitExists, hget]
    have hds : s.isDeactivating w = true := by rwa [isDeactivating, hget]
    simpa [dueQueuedStart, hexs, hds] using hmem
  · have herase : u ∈ s.queuedStarts.erase w :=
      Std.ExtTreeMap.mem_erase.mpr ⟨by simpa using hw, hmem⟩
    unfold dueQueuedStart
    split
    · exact herase
    · split
      · exact hmem
      · change u ∈ (requestStart k { s with queuedStarts := s.queuedStarts.erase w } w
          source).1.queuedStarts
        rw [queuedStarts_requestStart]
        split
        · exact Std.ExtTreeMap.mem_insert.mpr (.inr herase)
        · exact herase

/-- No later stop, retirement or reload takes the start of `u` off the file : the unit is not
asked to stop, not stopped for a conflict and not removed, and no pass finds the stop over. -/
def Unremoved (u : UnitName) (k : Kernel) (m : UnitManager) : Op → Prop
  | .requestStop v _ | .retire v => v ≠ u
  | .stopConflicts v => u ∉ (m.stopConflicts k v).2
  | .dueQueuedStarts => m.isDeactivating u = true
  | _ => True

theorem unitExists_apply (hex : m.unitExists u = true) (hop : op ≠ .retire u) :
    (m.apply k op).unitExists u = true := by
  obtain ⟨rt, hrt, hret⟩ := (Option.any_eq_true _ _).mp hex
  have hret : rt.retired = false := by simpa using hret
  rw [unitExists]
  rcases apply_cases k m op with ⟨v, config, -, hget⟩ | rfl | ht
  · rw [hget]
    split
    · rfl
    · exact hex
  · change (m.pruneRetired.1.get u).any _ = true
    rw [get_pruneRetired, hrt, Option.filter_some, if_pos (by simp [UnitRuntime.prunable, hret])]
    simp [hret]
  · obtain ⟨rt', hrt', hsteps⟩ := ht.get_of_some hrt
    have hret' : rt'.retired = false := by
      clear hrt'
      induction hsteps with
      | refl => exact hret
      | @tail rt₁ rt₂ _ ht ih =>
        cases redefined_of_touch ht with
        | kept _ _ hr => exact hr.trans ih
        | @redefined config inFlight =>
          obtain ⟨_, _, _, heq, -⟩ := rt₁.redefine_eq config inFlight
          rw [heq]
        | adopted => rw [UnitRuntime.adoptPendingConfig_retired, ih]
        | retired h => exact absurd h hop
        | compressed => exact ih
    simp [hrt', hret']

theorem mem_queuedStarts_apply (h : u ∈ m.queuedStarts) (hex : m.unitExists u = true)
    (hop : Unremoved u k m op) : u ∈ (m.apply k op).queuedStarts := by
  by_cases hr : op.Requests
  · cases op with
    | requestStart v source =>
      change u ∈ (m.requestStart k v source).1.queuedStarts
      rw [queuedStarts_requestStart]
      split
      · exact Std.ExtTreeMap.mem_insert.mpr (.inr h)
      · exact h
    | requestStop v source => exact mem_queuedStarts_requestStop h hop source
    | dueQueuedStarts => exact mem_queuedStarts_dueQueuedStarts h hex hop
    | stopConflicts v => exact mem_queuedStarts_stopConflicts h hop
    | retire v =>
      have herase : u ∈ m.queuedStarts.erase v :=
        Std.ExtTreeMap.mem_erase.mpr ⟨by simpa using (show v ≠ u from hop), h⟩
      unfold apply retire
      dsimp only
      split
      · exact herase
      · exact herase
    | _ => exact hr.elim
  · rw [(sameRequests_apply hr).queuedStarts]
    exact h

/-! ## The pass that finds the stop over -/

theorem action_eq_spawnProcess {target : JobTarget} {state : UnitState}
    (h : JobQueue.action target state = some .spawnProcess) : state = .inactive := by
  cases target <;> cases state <;> first | rfl | cases h

/-- A start is passed on exactly for a unit that is down. -/
theorem dueQueuedStart_snd (hrt : m.get u = some rt) (source : RequestSource) :
    (m.dueQueuedStart k u source).2 = true ↔ rt.retired = false ∧ rt.state = .inactive := by
  unfold dueQueuedStart
  by_cases hret : rt.retired = true
  · simp [unitExists, hrt, hret]
  have hret : rt.retired = false := by simpa using hret
  rw [if_neg (by simp [unitExists, hrt, hret])]
  by_cases hd : rt.state = .deactivating
  · simp [isDeactivating, hrt, hd]
  rw [if_neg (by simp [isDeactivating, hrt, hd])]
  have hget : ({ m with queuedStarts := m.queuedStarts.erase u } : UnitManager).get u = some rt :=
    hrt
  dsimp only
  rw [decide_eq_true_eq, request, hget]
  dsimp only
  constructor
  · intro he
    refine ⟨hret, ?_⟩
    rw [submitRequest_snd, effectFor, filed_get, hget, Option.bind_some, JobQueue.reconcile] at he
    obtain ⟨t, -, ht⟩ := Option.bind_eq_some_iff.mp he
    exact action_eq_spawnProcess ht
  · rintro ⟨-, hs⟩
    rw [submitRequest_started_effect hget source (spent_of_inactive hget hs), hs]
    rfl

theorem mem_dueQueuedStarts (hu : u ∈ m.queuedStarts) (hrt : m.get u = some rt) :
    u ∈ (m.dueQueuedStarts k).2 ↔ rt.retired = false ∧ rt.state = .inactive := by
  have hfold : u ∈ (m.dueQueuedStarts k).2 ↔
      u ∈ m.queuedStarts.toList.map Prod.fst ∧ rt.retired = false ∧ rt.state = .inactive := by
    unfold dueQueuedStarts
    refine (Runs.foldl_induction (P := fun done (s : UnitManager × List UnitName) =>
      s.1.get u = m.get u ∧ (u ∈ s.2 ↔
        u ∈ done.map Prod.fst ∧ rt.retired = false ∧ rt.state = .inactive)) ⟨rfl, by simp⟩ ?_).2
    rintro done ⟨w, source⟩ _ ⟨s, out⟩ - ⟨hget, hmem⟩
    refine ⟨(get_dueQueuedStart k s w source u).trans hget, ?_⟩
    dsimp only at hget hmem ⊢
    by_cases hw : w = u
    · subst hw
      have hsnd := dueQueuedStart_snd (k := k) (hget.trans hrt) source
      by_cases hc : rt.retired = false ∧ rt.state = .inactive
      · rw [if_pos (hsnd.mpr hc)]
        simp [hc]
      · rw [if_neg (fun h => hc (hsnd.mp h)), hmem]
        simp [hc]
    · have hsplit : u ∈ (if (s.dueQueuedStart k w source).2 = true then out ++ [w] else out) ↔
          u ∈ out := by
        split
        · simp [Ne.symm hw]
        · rfl
      rw [hsplit, hmem]
      simp [Ne.symm hw]
  rw [hfold]
  have hmem : u ∈ m.queuedStarts.toList.map Prod.fst := by
    obtain ⟨source, hs⟩ := Option.isSome_iff_exists.mp
      (Std.ExtTreeMap.isSome_getElem?_iff_mem.mpr hu)
    exact List.mem_map.mpr
      ⟨(u, source), Std.ExtTreeMap.mem_toList_iff_getElem?_eq_some.mpr hs, rfl⟩
  exact and_iff_right hmem

/-! ## The start takes place -/

/-- The start of `u` takes place : the pass returns the unit for a flow, or it is up or on its
way up, or its restart is armed. -/
def TakesPlace (k : Kernel) (m : UnitManager) (u : UnitName) : Prop :=
  u ∈ (m.dueQueuedStarts k).2 ∨ ∃ rt, m.get u = some rt ∧
    (rt.state = .starting ∨ rt.state = .active ∨ rt.state = .activeExited ∨
      rt.restartAt.isSome = true)

/-- The stop left the unit failed, or waiting, and no timer will bring it back. -/
def LeftBehind (rt : UnitRuntime) : Prop :=
  (rt.state.isFailed = true ∨ rt.state = .restartWait) ∧ rt.restartAt = none

theorem takesPlace_iff (hu : u ∈ m.queuedStarts) (hrt : m.get u = some rt)
    (hret : rt.retired = false) (hd : rt.state ≠ .deactivating) :
    TakesPlace k m u ↔ ¬LeftBehind rt := by
  have hstate : (∃ rt', m.get u = some rt' ∧ (rt'.state = .starting ∨ rt'.state = .active ∨
      rt'.state = .activeExited ∨ rt'.restartAt.isSome = true)) ↔ (rt.state = .starting ∨
      rt.state = .active ∨ rt.state = .activeExited ∨ rt.restartAt.isSome = true) := by
    simp [hrt]
  rw [TakesPlace, mem_dueQueuedStarts hu hrt, hstate, LeftBehind, ← Option.isNone_iff_eq_none]
  cases hs : rt.state <;> cases rt.restartAt <;> simp_all [UnitState.isFailed]

/-- A start that is accepted while its unit is being stopped stays on file, and is carried out
once the stop is over, exactly when the unit is not left behind. -/
theorem startKept {source : RequestSource} (hex : m.unitExists u = true)
    (hd : m.isDeactivating u = true)
    (hrun : Guarded (Unremoved u) (m.requestStart k u source).1 m') :
    (m.requestStart k u source).2 = none ∧ u ∈ m'.queuedStarts ∧ ∃ rt, m'.get u = some rt ∧
      (rt.state ≠ .deactivating → ∀ k', TakesPlace k' m' u ↔ ¬LeftBehind rt) := by
  refine ⟨(requestStart_eq_none_iff k m u source).mpr (.inl hd), ?_⟩
  have hqueued : u ∈ m'.queuedStarts ∧ m'.unitExists u = true := by
    induction hrun with
    | refl =>
      refine ⟨?_, show (m.apply k (.requestStart u source)).unitExists u = true from
        unitExists_apply hex (by simp)⟩
      rw [queuedStarts_requestStart, if_pos hd]
      exact Std.ExtTreeMap.mem_insert_self
    | tail _ hstep ih =>
      obtain ⟨k₁, op, -, hop, rfl⟩ := hstep
      refine ⟨mem_queuedStarts_apply ih.1 ih.2 hop, unitExists_apply ih.2 ?_⟩
      rintro rfl
      exact hop rfl
  obtain ⟨hmem, hex'⟩ := hqueued
  obtain ⟨rt, hrt, hret⟩ := (Option.any_eq_true _ _).mp hex'
  exact ⟨hmem, rt, hrt, fun hd' k' => takesPlace_iff hmem hrt (by simpa using hret) hd'⟩

/-! ## Concrete runs -/

/-- A service that is being stopped. -/
def halting : UnitManager :=
  up.apply (.granting 1 10) (.requestStop serviceA .userStop)
    |>.apply (.granting 1 10) (.stopUnit serviceA)

/-- A start is asked for meanwhile, and then the service exits. -/
def halted : UnitManager :=
  (halting.requestStart (.granting 2 10) serviceA .userStart).1.apply (.granting 3 10)
    (.onChildExit 10 .success)

/-- The start of a service that was stopped is carried out. -/
theorem startKept_halted : serviceA ∈ halted.queuedStarts ∧
    (halted.get serviceA).map (·.state) = some .inactive ∧
    TakesPlace (.granting 4 10) halted serviceA := by
  have hrun : Guarded (Unremoved serviceA)
      (halting.requestStart (.granting 2 10) serviceA .userStart).1 halted :=
    .single ⟨.granting 3 10, .onChildExit 10 .success, trivial, trivial, rfl⟩
  obtain ⟨-, hmem, rt, hrt, htakes⟩ := startKept (by decide) (by decide) hrun
  have hstate : (halted.get serviceA).map (·.state) = some .inactive := by decide
  have hs : rt.state = .inactive := by simpa [hrt] using hstate
  refine ⟨hmem, hstate, (htakes (by simp [hs]) (.granting 4 10)).mpr ?_⟩
  simp [LeftBehind, hs, UnitState.isFailed]

/-- A start is asked for while a service is being restarted, and then the service exits. -/
def tripped : UnitManager :=
  (fragileRestarting.requestStart (.granting 2 10) serviceA .userStart).1.apply (.granting 3 10)
    (.onChildExit 10 (.signalled 15))

/-- The restart trips the breaker, and the pass drops the start. -/
theorem not_startKept_tripped : Reachable fragileRestarting ∧
    fragileRestarting.unitExists serviceA = true ∧
    fragileRestarting.isDeactivating serviceA = true ∧
    Guarded (Unremoved serviceA)
      (fragileRestarting.requestStart (.granting 2 10) serviceA .userStart).1 tripped ∧
    (tripped.get serviceA).map (·.state) = some (.failed .startLimitHit) ∧
    (tripped.dueQueuedStarts (.granting 4 10)).1.queuedStarts.contains serviceA = false ∧
    ¬TakesPlace (.granting 4 10) tripped serviceA := by
  refine ⟨.step _ _ reachable_fragileUp trivial, by decide, by decide,
    .single ⟨.granting 3 10, .onChildExit 10 (.signalled 15), trivial, trivial, rfl⟩,
    by decide, by decide, ?_⟩
  rintro (hmem | ⟨rt, hrt, hrest⟩)
  · exact absurd hmem (by decide)
  · have hstate : (tripped.get serviceA).map (fun rt => (rt.state, rt.restartAt)) =
        some (.failed .startLimitHit, none) := by decide
    rw [hrt, Option.map_some, Option.some.injEq, Prod.mk.injEq] at hstate
    simp [hstate.1, hstate.2] at hrest

end UnitManager

end Rinit
