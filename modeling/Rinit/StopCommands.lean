import Rinit.Reaped

/-!
# The deadline of a stop command

A stop that runs an `ExecStop=` command arms the deadline of the stop with it, and the pass
that fires the deadline takes both. Two changes take the deadline away and leave the command :
the exit of the main process, and a start that is given up. `stopsBounded_of_run` : as long as
a run has neither while a stop command is in flight, every stop command has its deadline, and
the first such change leaves one without (`not_stopsBounded_exited`).
-/

namespace Rinit

open Relation

/-- A stop command in flight belongs to a unit that has its process, is being stopped and has a
deadline for it. -/
def UnitRuntime.StopBound (rt : UnitRuntime) : Prop :=
  rt.execStopPid.isSome = true →
    rt.state = .deactivating ∧ rt.pid.isSome = true ∧ rt.killAt.isSome = true

namespace UnitRuntime

variable {k : Kernel} {cg : Cgroup} {u : UnitName} {rt rt' : UnitRuntime}

theorem StopBound.of_none (h : rt.execStopPid = none) : rt.StopBound := by
  intro hs
  rw [h] at hs
  cases hs

theorem StopBound.of_eq (h : rt.StopBound) (he : rt'.execStopPid = rt.execStopPid)
    (hs : rt'.state = rt.state) (hp : rt'.pid = rt.pid) (hk : rt'.killAt = rt.killAt) :
    rt'.StopBound := by
  unfold StopBound
  rw [he, hs, hp, hk]
  exact h

theorem StopBound.eq_none (h : rt.StopBound) (hs : rt.state ≠ .deactivating ∨ rt.pid = none) :
    rt.execStopPid = none := by
  by_contra he
  obtain ⟨hd, hp, -⟩ := h (Option.isSome_iff_ne_none.mpr he)
  rcases hs with hs | hs
  · exact hs hd
  · rw [hs] at hp
    cases hp

theorem stopBound_escalate (pid : Pid) (hs : rt.state = .deactivating) (hp : rt.pid.isSome = true) :
    (rt.escalate k cg u pid).val.StopBound := by
  unfold escalate
  split
  · exact .of_none rfl
  · exact fun _ => ⟨hs, hp, rfl⟩

/-- A stop command is started with its deadline. -/
theorem stopBound_stop (h : rt.StopBound) : (rt.stop k cg u).val.StopBound := by
  unfold stop
  split
  · exact h
  · next hd =>
    have he : rt.execStopPid = none := h.eq_none (.inl hd)
    rw [Traced.bind_val, quiesce_val]
    have signal (pid : Pid) (hp : rt.pid = some pid) (sent : Except Errno Unit) :
        (rt.quiet.afterStopSignal k cg u pid sent).val.StopBound := by
      have hpid : rt.quiet.pid.isSome = true := by
        rw [show rt.quiet.pid = some pid from hp]
        rfl
      unfold afterStopSignal
      split
      · exact stopBound_escalate pid rfl hpid
      · split
        · exact .of_none he
        · exact .of_none he
    split
    · refine .of_none ?_
      unfold stopLeftovers
      split
      · exact he
      · rw [Traced.bind_val]
        dsimp only
        split
        · exact he
        · exact he
    · next pid hp =>
      unfold stopProcess
      split
      · exact signal pid hp _
      · rw [Traced.bind_val]
        split
        · refine stopBound_escalate pid rfl ?_
          change rt.pid.isSome = true
          rw [show rt.pid = some pid from hp]
          rfl
        · exact signal pid hp _

theorem stopBound_kill (h : rt.StopBound) : (rt.kill k cg u).val.1.StopBound := by
  unfold kill
  split
  · simp only [Traced.bind_val]
    split
    · exact .of_none rfl
    · rw [Traced.pure_val]
      split
      · exact .of_none rfl
      · exact .of_none rfl
  · exact h

theorem stopBound_startTimeout (h : rt.StopBound) : (rt.startTimeout k cg u).val.1.StopBound := by
  unfold startTimeout
  split
  · exact h.of_eq rfl rfl rfl rfl
  · next hs =>
    have hs : rt.state = .starting := by simpa using hs
    have he : rt.execStopPid = none := h.eq_none (.inl (by simp [hs]))
    split
    · exact .of_none he
    · exact h

theorem stopBound_beginSpawn (h : rt.StopBound) : (rt.beginSpawn k cg u).val.1.StopBound := by
  unfold beginSpawn
  rw [Traced.bind_val]
  by_cases hp : rt.pid.isSome = true
  · obtain ⟨_, _, _, _, -, -, hsame⟩ := clearLeftovers_eq k rt
    rw [hsame hp, if_pos hp]
    exact h
  · have hp : rt.pid = none := by simpa using hp
    have hnone : (rt.clearLeftovers k).val.execStopPid = none := by
      unfold clearLeftovers
      rw [if_neg (by simp [hp])]
      rfl
    split
    · exact .of_none hnone
    · split
      · exact .of_none hnone
      · rcases spawnProcess_val k cg u (rt.clearLeftovers k).val with
          ⟨e, he⟩ | ⟨pid, oom, pending, -, heq⟩
        · rw [he]
          exact .of_none hnone
        · rw [heq]
          refine .of_none ?_
          dsimp only
          unfold registerSpawn
          dsimp only
          split <;> rfl

end UnitRuntime

/-! ## Steps -/

variable {k : Kernel} {m : UnitManager} {u : UnitName} {op : Op} {rt rt' : UnitRuntime}

/-- The step takes no deadline away from a stop command : no main process exits, and no start is
given up, while the unit's stop command is in flight. -/
def KeepsStop (m : UnitManager) : Op → Prop
  | .onChildExit pid _ => ∀ u, m.ExitsMain pid u → ∀ rt, m.get u = some rt → rt.execStopPid = none
  | .failStart unit => ∀ rt, m.get unit = some rt → rt.execStopPid = none
  | _ => True

/-- Every other touch keeps the deadline with the command. -/
theorem stopBound_touch (ht : Touch k m u op rt rt') (hop : op.Promised)
    (hexit : ∀ pid outcome, op ≠ .onChildExit pid outcome) (hfail : ∀ v, op ≠ .failStart v)
    (hs : Serviced u rt) (h : rt.StopBound) : rt'.StopBound := by
  cases ht with
  | @redefine config inFlight =>
    obtain ⟨_, _, _, heq, -⟩ := rt.redefine_eq config inFlight
    rw [heq]
    exact h.of_eq rfl rfl rfl rfl
  | adopt =>
    rcases rt.adoptPendingConfig_eq with heq | ⟨_, _, -, -, heq⟩ <;> rw [heq]
    · exact h
    · exact h.of_eq rfl rfl rfl rfl
  | retire | restartFlag | clearStartLimit | compress | capStartDeadline | noteConnection =>
    exact h.of_eq rfl rfl rfl rfl
  | settle | conflictSettle =>
    rcases rt.settle_eq .stopped with heq | ⟨heq, hst⟩
    · rw [heq]
      exact h
    · rw [heq]
      refine .of_none (h.eq_none (.inl fun hd => ?_))
      rw [hd] at hst
      simp [UnitState.isFailed] at hst
  | stop | restartStop | conflictStop => exact UnitRuntime.stopBound_stop h
  | resetFailed =>
    by_cases hf : rt.state.isFailed = true
    · refine .of_none (h.eq_none (.inl fun hd => ?_))
      rw [hd] at hf
      cases hf
    · exact h.of_eq rfl (if_neg hf) rfl rfl
  | failStart => exact absurd rfl (hfail u)
  | dragDown hop _ _ _ hp =>
    have he : rt.execStopPid = none := h.eq_none (.inr hp)
    unfold UnitRuntime.dragDown
    split <;> exact .of_none he
  | failTarget =>
    -- a target has no process to stop
    refine .of_none ?_
    have he : rt.execStopPid = none := by
      refine h.eq_none (.inr ?_)
      by_contra hp
      cases (hs.service (Option.isSome_iff_ne_none.mpr hp)).symm.trans hop
    rw [UnitRuntime.failOwn_val]
    split <;> exact he
  | reachTarget =>
    refine .of_none (h.eq_none (.inr ?_))
    by_contra hp
    cases (hs.service (Option.isSome_iff_ne_none.mpr hp)).symm.trans hop
  | beginSpawn => exact UnitRuntime.stopBound_beginSpawn h
  | onNotify message =>
    rcases rt.onNotify_eq k message with ⟨_, heq⟩ | ⟨hst, _, _, _, _, -, heq⟩
    · rw [heq]
      exact h.of_eq rfl rfl rfl rfl
    · rw [heq]
      exact .of_none (h.eq_none (.inl (by simp [hst])))
  | finishProbe | execStopExit | daemonStarted | mainExit | failExit =>
    exact absurd rfl (hexit _ _)
  | dueIdle =>
    obtain ⟨_, heq⟩ := rt.dueIdle_eq k
    rw [heq]
    exact h.of_eq rfl rfl rfl rfl
  | startTimeout => exact UnitRuntime.stopBound_startTimeout h
  | kill => exact UnitRuntime.stopBound_kill h
  | healthProbe =>
    obtain ⟨_, _, _, heq, -⟩ := rt.healthProbe_eq k u
    rw [heq]
    exact h.of_eq rfl rfl rfl rfl
  | probeTimeout =>
    obtain ⟨_, heq⟩ := rt.probeTimeout_eq k
    rw [heq]
    exact h.of_eq rfl rfl rfl rfl
  | dueRestart =>
    obtain ⟨_, heq, -⟩ := rt.dueRestart_eq k
    rw [heq]
    exact h.of_eq rfl rfl rfl rfl

/-- What is left of the stop command and its deadline by the exit of the main process. -/
theorem mainExit_stop (boot : Bool) (pid : Pid) (outcome : ExitOutcome) (rt : UnitRuntime) :
    (rt.mainExit k boot pid outcome).val.1.execStopPid = rt.execStopPid ∧
      (rt.mainExit k boot pid outcome).val.1.killAt = none := by
  have h := rt.settled_mainExit k boot pid outcome
  generalize (rt.mainExit k boot pid outcome).val = r at h
  cases h <;> exact ⟨rfl, rfl⟩

/-- What is left of them by a start that is given up. -/
theorem failOwn_stop (k : Kernel) (cg : Cgroup) (u : UnitName) (rt : UnitRuntime) :
    (rt.failOwn k cg u).val.execStopPid = rt.execStopPid ∧
      (rt.failOwn k cg u).val.killAt = none := by
  rw [UnitRuntime.failOwn_val]
  split <;> exact ⟨rfl, rfl⟩

/-- An exit keeps the deadline of every stop command that outlives it. -/
theorem stopBound_exitChange {pid : Pid} {outcome : ExitOutcome}
    (hk : KeepsStop m (.onChildExit pid outcome))
    (hrt : m.get u = some rt) (hp : Probing rt) (h : rt.StopBound)
    (hc : m.ExitChange k pid outcome u rt rt') : rt'.StopBound := by
  have idle (hmain : m.ExitsMain pid u) : rt.execStopPid = none := hk u hmain rt hrt
  cases hc with
  | same => exact h
  | probe _ hprobe =>
    -- a unit that is being stopped is not probed
    have he : rt.execStopPid = none := by
      by_contra he
      obtain ⟨hd, hpid, -⟩ := h (Option.isSome_iff_ne_none.mpr he)
      cases hprobe.symm.trans (hp hpid (by simp [hd]))
    have hs := rt.probed_finishProbe k m.cgroup u outcome
    generalize (rt.finishProbe k m.cgroup u outcome).val = rt' at hs
    cases hs <;> exact .of_none he
  | stopCommand =>
    rw [UnitRuntime.execStopExit_val]
    exact .of_none rfl
  | daemon hmain => exact .of_none (idle hmain)
  | settled hmain => exact .of_none ((mainExit_stop ..).1.trans (idle hmain))
  | failed hmain =>
    exact .of_none ((failOwn_stop ..).1.trans ((mainExit_stop ..).1.trans (idle hmain)))
  | dragged _ _ hpid =>
    have he : rt.execStopPid = none := h.eq_none (.inr hpid)
    unfold UnitRuntime.dragDown
    split <;> exact .of_none he

/-- A step that takes no deadline away keeps the bounds. -/
theorem stopBound_apply (hm : Reachable m) (h : ∀ u rt, m.get u = some rt → rt.StopBound)
    (hop : op.Promised) (hk : KeepsStop m op) (hrt : (m.apply k op).get u = some rt) :
    rt.StopBound := by
  by_cases hexit : ∃ pid outcome, op = .onChildExit pid outcome
  · obtain ⟨pid, outcome, rfl⟩ := hexit
    obtain ⟨rt₀, hrt₀, -⟩ := (UnitManager.touched_onChildExit k m pid outcome).get_some hrt
    obtain ⟨rt', hrt', hc⟩ := UnitManager.exitChange_onChildExit k pid outcome hrt₀
    obtain rfl := Option.some.inj (hrt.symm.trans hrt')
    exact stopBound_exitChange hk hrt₀ (hm.probing hrt₀) (h u rt₀ hrt₀) hc
  by_cases hfail : ∃ v, op = .failStart v
  · obtain ⟨v, rfl⟩ := hfail
    obtain ⟨rt₀, hrt₀, -⟩ := (UnitManager.touched_failStart k m v).get_some hrt
    have hb := h u rt₀ hrt₀
    change (m.failStart k v).1.get u = some rt at hrt
    rcases UnitManager.get_failStart k v hrt₀ with ⟨rfl, hget⟩ | ⟨-, hget | ⟨-, hp, hget⟩⟩
    · obtain rfl := Option.some.inj (hrt.symm.trans hget)
      exact .of_none ((failOwn_stop ..).1.trans (hk rt₀ hrt₀))
    · obtain rfl := Option.some.inj (hrt.symm.trans hget)
      exact hb
    · obtain rfl := Option.some.inj (hrt.symm.trans hget)
      have he : rt₀.execStopPid = none := hb.eq_none (.inr hp)
      unfold UnitRuntime.dragDown
      split <;> exact .of_none he
  · refine (UnitManager.inv_apply (P := fun u rt => Serviced u rt ∧ rt.StopBound)
      (fun u rt hrt => ⟨hm.serviced hrt, h u rt hrt⟩) (fun u config hmk => ⟨?_, .of_none rfl⟩)
      (fun u rt rt' ht hb => ⟨serviced_touch hop ht hb.1, ?_⟩) u rt hrt).2
    · exact ⟨⟨hmk.name, hmk.kind hop, fun c hc => by cases hc⟩, fun hp => by cases hp⟩
    · exact stopBound_touch ht hop (fun pid outcome h => hexit ⟨pid, outcome, h⟩)
        (fun v h => hfail ⟨v, h⟩) hb.1 hb.2

/-! ## Runs -/

/-- Every stop command in flight has a deadline. -/
def StopsBounded (m : UnitManager) : Prop :=
  ∀ u rt, m.get u = some rt → rt.execStopPid.isSome = true → rt.killAt.isSome = true

/-- The exit of the main process of a unit that is being stopped leaves its stop command
without a deadline. -/
theorem exit_of_stopping {pid : Pid} (ho : m.ExitsMain pid u) (hrt : m.get u = some rt)
    (hs : rt.state = .deactivating) (outcome : ExitOutcome) :
    ∃ rt', (m.onChildExit k pid outcome).1.get u = some rt' ∧
      rt'.execStopPid = rt.execStopPid ∧ rt'.killAt = none := by
  have hd : m.forkedDaemon k u rt outcome = none := by
    simp [UnitManager.forkedDaemon, UnitManager.forks, hs]
  obtain ⟨he, hk⟩ := mainExit_stop (k := k) m.bootInProgress pid outcome rt
  unfold UnitManager.onChildExit
  rw [ho.probe, ho.execStop, ho.main]
  dsimp only
  rw [hrt]
  dsimp only
  unfold UnitManager.onMainExit
  rw [hd]
  dsimp only
  let x : Traced UnitRuntime := ⟨(rt.mainExit k m.bootInProgress pid outcome).val.1,
    (rt.mainExit k m.bootInProgress pid outcome).calls⟩
  have hget : (m.put u x).get u = some x.val := by rw [UnitManager.get_put, if_pos rfl]
  split
  · rcases UnitManager.get_failStart (m := m.put u x) k u hget with ⟨-, hfail⟩ | ⟨hne, -⟩
    · exact ⟨_, hfail, (failOwn_stop ..).1.trans he, (failOwn_stop ..).2⟩
    · exact absurd rfl hne
  · exact ⟨x.val, hget, he, hk⟩

/-- A step that takes the deadline of a stop command away leaves the command without one. -/
theorem keepsStop_of_stopsBounded (h : ∀ u rt, m.get u = some rt → rt.StopBound)
    (hb : StopsBounded (m.apply k op)) : KeepsStop m op := by
  have unbounded {v : UnitName} {rt rt' : UnitRuntime} (hrt' : (m.apply k op).get v = some rt')
      (he : rt'.execStopPid = rt.execStopPid) (hk : rt'.killAt = none) : rt.execStopPid = none := by
    by_contra hne
    have hkill := hb v rt' hrt' (by rw [he]; exact Option.isSome_iff_ne_none.mpr hne)
    rw [hk] at hkill
    cases hkill
  cases op with
  | onChildExit pid outcome =>
    intro v hmain rt hrt
    by_contra hne
    have hstopping := (h v rt hrt (Option.isSome_iff_ne_none.mpr hne)).1
    obtain ⟨rt', hrt', he, hk⟩ := exit_of_stopping (k := k) hmain hrt hstopping outcome
    exact hne (unbounded hrt' he hk)
  | failStart v =>
    intro rt hrt
    rcases UnitManager.get_failStart k v hrt with ⟨-, hget⟩ | ⟨hv, -⟩
    · exact unbounded hget (failOwn_stop ..).1 (failOwn_stop ..).2
    · exact absurd rfl hv
  | _ => trivial

/-- In a run that takes no deadline away every stop command has one, and a further step leaves
it so exactly when it takes none away either. -/
theorem stopsBounded_of_run (h : Guarded (fun _ => KeepsStop) {} m) : StopsBounded m ∧
    ∀ k op, op.Promised → (StopsBounded (m.apply k op) ↔ KeepsStop m op) := by
  have hbound : ∀ u rt, m.get u = some rt → rt.StopBound := by
    induction h with
    | refl =>
      intro u rt hrt
      simp [UnitManager.get] at hrt
    | tail hrun hstep ih =>
      obtain ⟨k, op, hop, hkeeps, rfl⟩ := hstep
      intro u rt hrt
      exact stopBound_apply (Guarded.reachable hrun .new) ih hop hkeeps hrt
  have hm : Reachable m := h.reachable .new
  refine ⟨fun u rt hrt he => (hbound u rt hrt he).2.2, fun k op hop =>
    ⟨keepsStop_of_stopsBounded hbound, fun hkeeps u rt hrt he => ?_⟩⟩
  exact (stopBound_apply hm hbound hop hkeeps hrt he).2.2

/-! ## A concrete run -/

/-- A service with a stop command. -/
def commandConfig : UnitConfig :=
  { UnitConfig.new serviceA with execStop := ⟨["/bin/flush"]⟩, timeoutStopSec := 5 }

/-- Its stop command is running. -/
def commandRunning : UnitManager :=
  ({} : UnitManager).apply (.granting 0 10) (.addWithInFlight commandConfig false)
    |>.apply (.granting 0 10) (.beginSpawnUnit serviceA)
    |>.apply (.granting 1 10) (.stopUnit serviceA)

theorem stopsBounded_commandRunning : StopsBounded commandRunning ∧
    ((commandRunning.get serviceA).map fun rt => (rt.execStopPid, rt.killAt)) =
      some (some 11, some 5001) := by
  refine ⟨(stopsBounded_of_run ?_).1, by decide⟩
  refine .tail (.tail (.single ⟨.granting 0 10, .addWithInFlight commandConfig false, rfl, trivial,
    rfl⟩) ⟨.granting 0 10, .beginSpawnUnit serviceA, trivial, trivial, rfl⟩) ?_
  exact ⟨.granting 1 10, .stopUnit serviceA, trivial, trivial, rfl⟩

/-- The service exits before its stop command does, and nothing bounds the command. -/
theorem not_stopsBounded_exited :
    Reachable (commandRunning.apply (.granting 2 10) (.onChildExit 10 (.signalled 15))) ∧
    ((commandRunning.apply (.granting 2 10) (.onChildExit 10 (.signalled 15))).get serviceA).map
      (fun rt => (rt.state, rt.execStopPid, rt.killAt)) = some (.inactive, some 11, none) ∧
    ¬StopsBounded (commandRunning.apply (.granting 2 10) (.onChildExit 10 (.signalled 15))) := by
  have hstate : ((commandRunning.apply (.granting 2 10) (.onChildExit 10 (.signalled 15))).get
      serviceA).map (fun rt => (rt.state, rt.execStopPid, rt.killAt)) =
        some (.inactive, some 11, none) := by decide
  refine ⟨.step _ _ (.step _ _ (.step _ _ (.step _ _ .new rfl) trivial) trivial) trivial, hstate,
    fun h => ?_⟩
  obtain ⟨rt, hrt, heq⟩ := Option.map_eq_some_iff.mp hstate
  simp only [Prod.mk.injEq] at heq
  have := h serviceA rt hrt (by rw [heq.2.1]; rfl)
  rw [heq.2.2] at this
  cases this

end Rinit
