import Rinit.Batch

/-!
# Failures and what requires them

When an exit leaves a unit failed, whatever requires it and has no process is to fail with it.
`propagated_iff` : an exit propagates, exactly when a failure it leaves without a word found
everything failed already. There are two kinds of those : the probe or the stop command of a
unit that has failed before, and the exit of a unit that is stopped to be restarted and whose
breaker trips, which returns before the dependents are looked at (`not_propagated_restart`).
-/

namespace Rinit

open Relation

namespace UnitRuntime

variable (k : Kernel) (rt : UnitRuntime)

/-- The exit is that of a stop for a restart, and the breaker forbids the restart. -/
def tripsAfterStop : Bool :=
  rt.state = .deactivating && rt.restartAfterStop && (rt.backoff.onFailure k.now).2.isNone

/-- The one way in which an exit fails a unit and does not say so. -/
theorem settleExit_silent (boot : Bool) (outcome : ExitOutcome) :
    (rt.settleExit k boot outcome).1.state.isFailed = true ∧
      (rt.settleExit k boot outcome).2.fails = false ↔ rt.tripsAfterStop k = true := by
  by_cases hd : rt.state = .deactivating
  · by_cases hflag : rt.restartAfterStop = true
    · have hsettle : rt.settleExit k boot outcome =
          scheduleRestart k false { rt with restartAfterStop := false } := by
        unfold settleExit
        rw [if_pos hd, if_pos hflag]
      have htrips : rt.tripsAfterStop k = (rt.backoff.onFailure k.now).2.isNone := by
        simp [tripsAfterStop, hd, hflag]
      rw [hsettle, htrips, scheduleRestart]
      generalize rt.backoff.onFailure k.now = r
      obtain ⟨backoff, _ | delay⟩ := r
      · simp [Verdict.fails]
      · simp [Verdict.fails, UnitState.isFailed]
    · rw [settleExit_of_deactivating k rt boot outcome hd (by simpa using hflag)]
      simp [tripsAfterStop, hflag, UnitState.isFailed]
  · have htrips : rt.tripsAfterStop k = false := by simp [tripsAfterStop, hd]
    rw [htrips]
    simp only [Bool.false_eq_true, iff_false, not_and, Bool.not_eq_false]
    unfold settleExit
    rw [if_neg hd]
    dsimp only
    split
    · simp [UnitState.isFailed]
    · next t ht =>
      split
      · next hs =>
        -- a oneshot that ran to completion has not failed
        simp only [Bool.and_eq_true, decide_eq_true_eq] at hs
        rcases rt.transition_exitEvent ht with ⟨-, htarget⟩ | ⟨hact, -⟩
        · simp [htarget, hs.1.2, hs.2, UnitState.isFailed]
        · simp [hact] at hs
      · split
        · exact id
        · split
          · exact id
          · rcases scheduleRestart_eq k { rt with state := t.target } true with
              ⟨b, a, d, h⟩ | ⟨b, f, h⟩ <;> rw [h]
            · simp [UnitState.isFailed]
            · simp [Verdict.fails]

theorem mainExit_silent (boot : Bool) (pid : Pid) (outcome : ExitOutcome) :
    (rt.mainExit k boot pid outcome).val.1.state.isFailed = true ∧
      (rt.mainExit k boot pid outcome).val.2.fails = false ↔ rt.tripsAfterStop k = true :=
  settleExit_silent k (rt.reaped outcome) boot outcome

end UnitRuntime

namespace UnitManager

variable {k : Kernel} {m m' : UnitManager} {u : UnitName} {rt : UnitRuntime} {pid : Pid}

/-- The unit an exit belongs to : its probe, its stop command or its process is `pid`. -/
def exitOwner (m : UnitManager) (pid : Pid) : Option UnitName :=
  (m.probeOwner pid).or ((m.execStopOwner pid).or (m.mainOwner pid))

/-- If `u` is failed, so is every unit that requires it through units without a process. -/
def Propagated (m : UnitManager) (u : UnitName) : Prop :=
  m.isFailed u = true → ∀ d, Fails m.units u d → m.isFailed d = true

/-- The exit leaves `u` failed and fails nothing with it : `u` has failed before, or it was
stopped to be restarted and its breaker trips. -/
def FailsSilently (k : Kernel) (m : UnitManager) (pid : Pid) (u : UnitName) : Prop :=
  m.isFailed u = true ∨ m.ExitsMain pid u ∧ (m.get u).any (·.tripsAfterStop k) = true

/-- A failure that nothing else was changed for. -/
theorem propagated_of_agree (hother : ∀ x, x ≠ u → m'.get x = m.get x)
    (hconfig : (m'.get u).map UnitRuntime.config = (m.get u).map UnitRuntime.config)
    (hu : m'.get u = some rt) (hf : rt.state.isFailed = true) (hp : rt.pid = none) :
    Propagated m' u ↔ ∀ d, d ≠ u → Fails m.units u d → m.isFailed d = true := by
  have hfailed : m'.isFailed u = true := by simp [isFailed, hu, hf]
  have hsame {d : UnitName} (hd : d ≠ u) : m'.isFailed d = m.isFailed d := by
    rw [isFailed, hother d hd, isFailed]
  constructor
  · intro h d hd hfails
    rw [← hsame hd]
    refine h hfailed d (hfails.mono (fun x => ?_) fun x rtx hx hpx => ?_)
    · by_cases hxu : x = u
      · rw [hxu]
        exact hconfig
      · exact congrArg _ (hother x hxu)
    · by_cases hxu : x = u
      · exact ⟨rt, hxu ▸ hu, hp⟩
      · exact ⟨rtx, (hother x hxu).trans hx, hpx⟩
  · intro h _ d hfails
    by_cases hd : d = u
    · rw [hd]
      exact hfailed
    · rw [hsame hd]
      exact h d hd (hfails.of_agree hother hconfig hd)

/-- A failure that is recorded as one propagates. -/
theorem propagated_failStart (k : Kernel) (m : UnitManager) (u : UnitName) :
    Propagated (m.failStart k u).1 u := by
  intro _ d hfails
  have hget (x : UnitName) := get_cascade (m.update u (·.failOwn k m.cgroup u)) u x
    fun _ => isFailed_of_failOwn
  have hcascade (x : UnitName) : ((m.failStart k u).1.get x).map UnitRuntime.config =
        ((m.update u (·.failOwn k m.cgroup u)).get x).map UnitRuntime.config ∧
      ((m.failStart k u).1.get x).map UnitRuntime.pid =
        ((m.update u (·.failOwn k m.cgroup u)).get x).map UnitRuntime.pid := by
    rw [failStart, hget x]
    split
    · cases (m.update u (·.failOwn k m.cgroup u)).get x with
      | none => exact ⟨rfl, rfl⟩
      | some rt => exact ⟨congrArg some (dragDown_config rt), congrArg some (dragDown_pid rt)⟩
    · exact ⟨rfl, rfl⟩
  have hbefore : Fails (m.update u (·.failOwn k m.cgroup u)).units u d := by
    refine hfails.mono (fun x => (hcascade x).1.symm) fun x rt hx hp => ?_
    have hpid := (hcascade x).2
    rw [show (m.failStart k u).1.get x = some rt from hx, Option.map_some, hp] at hpid
    exact Option.map_eq_some_iff.mp hpid.symm
  obtain ⟨rt, hrt, -⟩ := hbefore.exists_rt
  have hd := hget d
  rw [if_pos hbefore, show (m.update u (·.failOwn k m.cgroup u)).get d = some rt from hrt,
    Option.map_some] at hd
  rw [isFailed, failStart, hd, Option.any_some]
  exact dragDown_isFailed rt

/-- The exit of a probe or of a stop command changes its unit and nothing else, and leaves it
failed only if it was. -/
theorem propagated_update {f : UnitRuntime → Traced UnitRuntime} (hm : Reachable m)
    (hrt : m.get u = some rt) (hmain : ¬m.ExitsMain pid u)
    (hstate : (f rt).val.state.isFailed = true ↔ rt.state.isFailed = true)
    (hpid : rt.pid = none → (f rt).val.pid = none) (hconfig : (f rt).val.config = rt.config) :
    Propagated (m.update u f) u ↔
      (FailsSilently k m pid u → ∀ d, d ≠ u → Fails m.units u d → m.isFailed d = true) := by
  have hget : (m.update u f).get u = some (f rt).val := by rw [get_update, if_pos rfl, hrt]; rfl
  have hsilent : FailsSilently k m pid u ↔ rt.state.isFailed = true := by
    simp [FailsSilently, hmain, isFailed, hrt]
  rw [hsilent]
  by_cases hf : rt.state.isFailed = true
  · rw [propagated_of_agree (m := m) (fun x hx => by rw [get_update, if_neg (Ne.symm hx)])
      (by rw [hget, hrt]; exact congrArg some hconfig) hget (hstate.mpr hf)
      (hpid (hm.failedIdle hrt hf))]
    exact ⟨fun h _ => h, fun h => h hf⟩
  · refine iff_of_true (fun hfailed => ?_) fun h => absurd h hf
    rw [isFailed, hget, Option.any_some] at hfailed
    exact absurd (hstate.mp hfailed) hf

theorem finishProbe_isFailed (hp : rt.state.isFailed = true → rt.pid = none) (cg : Cgroup)
    (outcome : ExitOutcome) :
    ((rt.finishProbe k cg u outcome).val.state.isFailed = true ↔ rt.state.isFailed = true) ∧
      (rt.pid = none → (rt.finishProbe k cg u outcome).val.pid = none) ∧
      (rt.finishProbe k cg u outcome).val.config = rt.config := by
  have h := rt.probed_finishProbe k cg u outcome
  generalize (rt.finishProbe k cg u outcome).val = rt' at h
  cases h with
  | noted => exact ⟨.rfl, id, rfl⟩
  | stopping hpid | gone hpid =>
    have hf : ¬rt.state.isFailed = true := fun hf => by simp [hp hf] at hpid
    exact ⟨iff_of_false (by simp [UnitState.isFailed]) hf, by simp, rfl⟩

/-- The exit of the main process. -/
theorem propagated_onMainExit (hm : Reachable m) (ho : m.ExitsMain pid u) (hrt : m.get u = some rt)
    (hp : rt.pid = some pid) (outcome : ExitOutcome) :
    Propagated (m.onMainExit k u rt pid outcome).1 u ↔
      (FailsSilently k m pid u → ∀ d, d ≠ u → Fails m.units u d → m.isFailed d = true) := by
  have hnot : rt.state.isFailed = false := by
    by_contra hf
    simp [hm.failedIdle hrt (by simpa using hf)] at hp
  have hsilent : FailsSilently k m pid u ↔ rt.tripsAfterStop k = true := by
    simp [FailsSilently, ho, isFailed, hrt, hnot]
  rw [hsilent]
  unfold onMainExit
  split
  · next daemon hd =>
    -- a daemon takes over, so the unit is active
    have hstarting : rt.state = .starting := (forkedDaemon_eq_some hd).1
    refine iff_of_true (fun hf => ?_) fun h => ?_
    · simp [isFailed, UnitRuntime.markDaemonStarted, UnitRuntime.scheduleHealth,
        UnitState.isFailed] at hf
    · simp [UnitRuntime.tripsAfterStop, hstarting] at h
  · dsimp only
    have hiff := rt.mainExit_silent k m.bootInProgress pid outcome
    have hpid : (rt.mainExit k m.bootInProgress pid outcome).val.1.pid = none := by
      have h := rt.settled_mainExit k m.bootInProgress pid outcome
      generalize (rt.mainExit k m.bootInProgress pid outcome).val = r at h
      cases h <;> rfl
    split
    · next hfails =>
      refine iff_of_true (propagated_failStart k _ u) fun h => ?_
      exact absurd (hfails.symm.trans (hiff.mpr h).2) (by simp)
    · next hfails =>
      have hfails : (rt.mainExit k m.bootInProgress pid outcome).val.2.fails = false := by
        simpa using hfails
      by_cases htrips : rt.tripsAfterStop k = true
      · rw [propagated_of_agree (m := m) (fun x hx => by rw [get_put, if_neg (Ne.symm hx)])
          (by rw [get_put, if_pos rfl, hrt]; exact congrArg some (mainExit_config ..))
          (by rw [get_put, if_pos rfl]) (hiff.mpr htrips).1 hpid]
        exact ⟨fun h _ => h, fun h => h htrips⟩
      · refine iff_of_true (fun hf => ?_) fun h => absurd h htrips
        rw [isFailed, get_put, if_pos rfl, Option.any_some] at hf
        exact absurd (hiff.mp ⟨hf, hfails⟩) htrips

/-- An exit propagates the failure of its unit, exactly when a failure it leaves silently has
nothing to fail. -/
theorem propagated_iff (hm : Reachable m) (ho : m.exitOwner pid = some u) (outcome : ExitOutcome) :
    Propagated (m.onChildExit k pid outcome).1 u ↔
      (FailsSilently k m pid u → ∀ d, d ≠ u → Fails m.units u d → m.isFailed d = true) := by
  unfold exitOwner at ho
  unfold onChildExit
  cases hprobe : m.probeOwner pid with
  | some v =>
    obtain rfl : v = u := by simpa [hprobe] using ho
    obtain ⟨rt, hrt, -⟩ := owner_eq_some hprobe
    obtain ⟨hstate, hpid, hconfig⟩ := finishProbe_isFailed (k := k) (u := v) (hm.failedIdle hrt)
      m.cgroup outcome
    exact propagated_update hm hrt (fun h => by simp [h.probe] at hprobe) hstate hpid hconfig
  | none =>
    cases hexec : m.execStopOwner pid with
    | some v =>
      obtain rfl : v = u := by simpa [hprobe, hexec] using ho
      obtain ⟨rt, hrt, -⟩ := owner_eq_some hexec
      refine propagated_update hm hrt (fun h => by simp [h.execStop] at hexec) ?_ ?_ ?_
      all_goals rw [UnitRuntime.execStopExit_val]
      exact id
    | none =>
      have hmain : m.mainOwner pid = some u := by simpa [hprobe, hexec] using ho
      have hexits : m.ExitsMain pid u := ⟨hprobe, hexec, hmain⟩
      obtain ⟨rt, hrt, hp⟩ := hexits.get
      rw [hmain]
      dsimp only
      rw [hrt]
      exact propagated_onMainExit hm hexits hrt hp outcome

/-! ## Concrete runs -/

/-- A service whose breaker trips at its first failure. -/
def fragile : UnitConfig := { UnitConfig.new serviceA with startLimitBurst := 1 }

/-- A service that requires it. -/
def fragileDependent : UnitConfig := { UnitConfig.new serviceB with deps.requires := [serviceA] }

/-- The service is up, its dependent is not. -/
def fragileUp : UnitManager :=
  ({} : UnitManager).apply (.granting 0 10) (.addWithInFlight fragile false)
    |>.apply (.granting 0 10) (.addWithInFlight fragileDependent false)
    |>.apply (.granting 0 10) (.beginSpawnUnit serviceA)

theorem reachable_fragileUp : Reachable fragileUp :=
  .step _ _ (.step _ _ (.step _ _ .new rfl) rfl) trivial

/-- The crash of the service fails its dependent. -/
theorem propagated_crash :
    ((fragileUp.onChildExit (.granting 1 10) 10 (.failure 1)).1.get serviceA).map (·.state) =
      some (.failed .startFailure) ∧
    Propagated (fragileUp.onChildExit (.granting 1 10) 10 (.failure 1)).1 serviceA := by
  refine ⟨by decide, (propagated_iff reachable_fragileUp (by decide) (.failure 1)).mpr ?_⟩
  rintro (hf | ⟨-, htrips⟩)
  · exact absurd hf (by decide)
  · exact absurd htrips (by decide)

/-- The service is being restarted. -/
def fragileRestarting : UnitManager := fragileUp.apply (.granting 1 10) (.restartUnit serviceA)

/-- The service fails at its restart, and its dependent could still be started. -/
theorem not_propagated_restart : Reachable fragileRestarting ∧
    fragileRestarting.exitOwner 10 = some serviceA ∧
    ((fragileRestarting.onChildExit (.granting 2 10) 10 (.signalled 15)).1.get serviceA).map
      (·.state) = some (.failed .startLimitHit) ∧
    ((fragileRestarting.onChildExit (.granting 2 10) 10 (.signalled 15)).1.get serviceB).map
      (fun rt => (rt.state, rt.pid, rt.config.deps.requires)) = some (.inactive, none, [serviceA]) ∧
    ¬Propagated (fragileRestarting.onChildExit (.granting 2 10) 10 (.signalled 15)).1 serviceA := by
  refine ⟨.step _ _ reachable_fragileUp trivial, by decide, by decide, by decide, fun h => ?_⟩
  have hfails : Fails (fragileRestarting.onChildExit (.granting 2 10) 10 (.signalled 15)).1.units
      serviceA serviceB := by
    refine .single ⟨by decide, ?_⟩
    have hpid : ((fragileRestarting.onChildExit (.granting 2 10) 10 (.signalled 15)).1.get
        serviceB).any (fun rt => rt.pid = none) = true := by decide
    obtain ⟨rt, hrt, hp⟩ := (Option.any_eq_true _ _).mp hpid
    exact ⟨rt, hrt, by simpa using hp⟩
  exact absurd (h (by decide) serviceB hfails) (by decide)

end UnitManager

end Rinit
