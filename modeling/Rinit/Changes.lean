import Rinit.Runtime

/-!
# What each change does to a unit

One lemma for each function of `UnitRuntime` that the manager applies : which fields it
writes and with what, whatever the kernel answers. The proofs about runs use these and do
not unfold the functions.
-/

namespace Rinit.UnitRuntime

section Specs

variable (k : Kernel) (cg : Cgroup) (u : UnitName) (rt : UnitRuntime)

/-! ## Definitions -/

theorem redefine_eq (config : UnitConfig) (inFlight : Bool) : ∃ c b p,
    (rt.redefine config inFlight).1 =
      { rt with config := c, backoff := b, pendingConfig := p, retired := false } ∧
    (c = rt.config ∨ c = config) ∧ (p = none ∨ p = some config) := by
  unfold redefine
  dsimp only
  split
  · exact ⟨_, _, _, rfl, .inl rfl, .inl rfl⟩
  · split
    · exact ⟨_, _, _, rfl, .inl rfl, .inr rfl⟩
    · exact ⟨_, _, _, rfl, .inr rfl, .inl rfl⟩

theorem adoptPendingConfig_eq : rt.adoptPendingConfig = rt ∨ ∃ c b, rt.pendingConfig = some c ∧
    rt.isUp = false ∧ rt.adoptPendingConfig =
      { rt with config := c, backoff := b, pendingConfig := none } := by
  unfold adoptPendingConfig
  split
  · exact .inl rfl
  · next hup =>
    split
    · next c hc => exact .inr ⟨c, _, hc, by simpa using hup, rfl⟩
    · exact .inl rfl

theorem adoptPendingConfig_retired : rt.adoptPendingConfig.retired = rt.retired := by
  rcases rt.adoptPendingConfig_eq with h | ⟨c, b, -, -, h⟩ <;> rw [h]

theorem retire_val : (rt.retire k).val = { rt with
    retired := true
    restartAt := none
    healthAt := none
    probeDeadline := none
    idleAt := none
    restartAfterStop := false
    probePid := none } :=
  rfl

theorem settle_eq (target : JobTarget) : rt.settle target = rt ∨
    rt.settle target = { rt with state := .inactive } ∧
      (rt.state = .inactive ∨ rt.state = .activeExited ∨ rt.state.isFailed = true) := by
  unfold settle
  split
  all_goals first
    | exact .inl rfl
    | refine .inr ⟨rfl, ?_⟩
      simp [*]

/-! ## Stopping -/

/-- What a stop leaves of a unit's timers. -/
def quiet (rt : UnitRuntime) : UnitRuntime :=
  { rt with
    restartAt := none
    startDeadline := none
    killAt := none
    healthAt := none
    probeDeadline := none
    restartAfterStop := false
    probePid := none }

theorem quiesce_val : (rt.quiesce k).val = rt.quiet := rfl

theorem escalate_eq (pid : Pid) : ∃ es ka, (rt.escalate k cg u pid).val =
    { rt with execStopPid := es, killAt := ka } := by
  unfold escalate
  split
  · exact ⟨_, _, rfl⟩
  · exact ⟨_, _, rfl⟩

/-- A stop is under way, or it is delivered, or it found nothing to stop, or it was refused. -/
inductive Stopped (rt : UnitRuntime) : UnitRuntime → Prop
  | busy (h : rt.state = .deactivating) : Stopped rt rt
  | gone (h : rt.state ≠ .deactivating) {pid : Option Pid} (hp : pid = none) (group : Option Pid) :
    Stopped rt { rt.quiet with pid := pid, state := .inactive, group := group }
  | delivered (h : rt.state ≠ .deactivating) (execStopPid : Option Pid) (killAt : Option ℕ) :
    Stopped rt
      { rt.quiet with state := .deactivating, execStopPid := execStopPid, killAt := killAt }
  | refused (h : rt.state ≠ .deactivating) (hp : rt.pid.isSome = true) : Stopped rt rt.quiet

theorem stopped_afterStopSignal (pid : Pid) (h : rt.state ≠ .deactivating)
    (hp : rt.pid.isSome = true) (sent : Except Errno Unit) :
    Stopped rt (rt.quiet.afterStopSignal k cg u pid sent).val := by
  unfold afterStopSignal
  split
  · obtain ⟨es, ka, heq⟩ := escalate_eq k cg u { rt.quiet with state := .deactivating } pid
    rw [heq]
    exact .delivered h es ka
  · split
    · exact .gone h rfl rt.group
    · exact .refused h hp

theorem stopped_stop : Stopped rt (rt.stop k cg u).val := by
  unfold stop
  split
  · next h => exact .busy h
  · next h =>
    rw [Traced.bind_val, quiesce_val]
    split
    · next hp =>
      unfold stopLeftovers
      split
      · exact .gone h hp none
      · rw [Traced.bind_val]
        dsimp only
        split
        · exact .delivered h rt.execStopPid _
        · exact .delivered h rt.execStopPid _
    · next pid hp =>
      have hp' : rt.pid.isSome = true := by
        rw [show rt.pid = some pid from hp]
        rfl
      unfold stopProcess
      split
      · exact stopped_afterStopSignal k cg u rt pid h hp' _
      · rw [Traced.bind_val]
        split
        · next stopPid _ =>
          obtain ⟨es, ka, heq⟩ := escalate_eq k cg u
            { rt.quiet with execStopPid := some stopPid, state := .deactivating } pid
          rw [heq]
          exact .delivered h es ka
        · exact stopped_afterStopSignal k cg u rt pid h hp' _

theorem failOwn_val : (rt.failOwn k cg u).val =
    if rt.state.isFailed then { rt with restartAt := none, startDeadline := none, killAt := none }
    else { rt with
      restartAt := none
      startDeadline := none
      killAt := none
      pid := none
      group := none
      state := .failed .startFailure } :=
  rfl

theorem startTimeout_eq : ∃ sd ka, (rt.startTimeout k cg u).val.1 =
    { rt with startDeadline := sd, killAt := ka } := by
  unfold startTimeout
  split
  · exact ⟨_, _, rfl⟩
  · split
    · exact ⟨_, _, rfl⟩
    · exact ⟨_, _, rfl⟩

/-- The second stage of a stop ends the stop of a unit without a process. -/
theorem kill_eq : (∃ ka es, (rt.kill k cg u).val.1 = { rt with killAt := ka, execStopPid := es }) ∨
    rt.state = .deactivating ∧ rt.pid = none ∧ (rt.kill k cg u).val.1 =
      { rt with killAt := none, execStopPid := none, group := none, state := .inactive } := by
  unfold kill
  split
  · simp only [Traced.bind_val]
    split
    · exact .inl ⟨_, _, rfl⟩
    · next hp =>
      rw [Traced.pure_val]
      split
      · next hd => exact .inr ⟨hd, hp, rfl⟩
      · exact .inl ⟨_, _, rfl⟩
  · exact .inl ⟨_, _, rfl⟩

/-! ## Probes -/

theorem healthProbe_eq : ∃ ha pp pd, (rt.healthProbe k u).val.1 =
    { rt with healthAt := ha, probePid := pp, probeDeadline := pd } ∧
    (pp = rt.probePid ∨ rt.state = .active) := by
  unfold healthProbe
  split
  · exact ⟨_, _, _, rfl, .inl rfl⟩
  · next hs =>
    have hs : rt.state = .active := by simpa using hs
    split
    · exact ⟨_, _, _, rfl, .inl rfl⟩
    · split
      · exact ⟨_, _, _, rfl, .inl rfl⟩
      · simp only [Traced.bind_val]
        split
        · exact ⟨_, _, _, rfl, .inr hs⟩
        · exact ⟨_, _, _, rfl, .inr hs⟩

theorem probeTimeout_eq : ∃ pd, (rt.probeTimeout k).val.1 = { rt with probeDeadline := pd } := by
  unfold probeTimeout
  split
  · dsimp only
    split
    · exact ⟨_, rfl⟩
    · exact ⟨_, rfl⟩
  · exact ⟨_, rfl⟩

/-- A finished probe is recorded; it stops the unit, finds it gone, or changes nothing else. -/
inductive Probed (rt : UnitRuntime) : UnitRuntime → Prop
  | noted (healthAt : Option ℕ) (healthy : Option Bool) :
    Probed rt { rt with
      probePid := none, probeDeadline := none, healthy := healthy, healthAt := healthAt }
  | stopping (hp : rt.pid.isSome = true) (killAt : Option ℕ) (healthy : Option Bool) :
    Probed rt { rt with
      probePid := none
      probeDeadline := none
      healthy := healthy
      state := .deactivating
      restartAfterStop := true
      killAt := killAt }
  | gone (hp : rt.pid.isSome = true) (healthy : Option Bool) :
    Probed rt { rt with
      probePid := none
      probeDeadline := none
      healthy := healthy
      state := .inactive
      pid := none }

theorem probed_finishProbe (outcome : ExitOutcome) :
    Probed rt (rt.finishProbe k cg u outcome).val := by
  unfold finishProbe
  dsimp only
  split
  · exact .noted _ _
  · split
    · next pid _ hp =>
      have hp' : rt.pid.isSome = true := by
        rw [show rt.pid = some pid from hp]
        rfl
      unfold unhealthy
      rw [Traced.bind_val]
      split
      · dsimp only
        split
        · exact .stopping hp' _ _
        · exact .stopping hp' _ _
      · split
        · exact .gone hp' _
        · exact .noted _ _
    · exact .noted _ _

/-! ## Starting -/

/-- The unit once what an earlier instance left behind is gone. -/
theorem clearLeftovers_eq : ∃ g pp pd es, (rt.clearLeftovers k).val =
    { rt with group := g, probePid := pp, probeDeadline := pd, execStopPid := es } ∧
    (rt.pid = none → pp = none) ∧ (rt.pid.isSome = true → (rt.clearLeftovers k).val = rt) := by
  unfold clearLeftovers
  split
  · next hp => exact ⟨_, _, _, _, rfl, fun h => by simp [h] at hp, fun _ => rfl⟩
  · next hp => exact ⟨_, _, _, _, rfl, fun _ => rfl, fun h => absurd h hp⟩

/-- A start finds a process, or makes one, or is done without one, or fails. -/
inductive Spawned (rt : UnitRuntime) : UnitRuntime → Prop
  | running (h : rt.pid.isSome = true) : Spawned rt rt
  | kept (h : rt.pid = none) (g : Option Pid) (pd : Option ℕ) (es : Option Pid) :
    Spawned rt { rt with group := g, probePid := none, probeDeadline := pd, execStopPid := es }
  | noProcess (h : rt.pid = none) (hs : rt.spawns = false) (g : Option Pid) (pd : Option ℕ)
    (es : Option Pid) :
    Spawned rt { rt with
      group := g, probePid := none, probeDeadline := pd, execStopPid := es, state := .active }
  | spawned (h : rt.pid = none) (hs : rt.spawns = true) {rt' : UnitRuntime} {pid : Pid}
    (hp : rt'.pid = some pid) (hst : rt'.state = .starting ∨ rt'.state = .active)
    (hra : rt'.restartAt = none) (hpp : rt'.probePid = none)
    (hflag : rt'.restartAfterStop = rt.restartAfterStop) (hc : rt'.config = rt.config)
    (hpc : rt'.pendingConfig = rt.pendingConfig) (hr : rt'.retired = rt.retired) : Spawned rt rt'

theorem registerSpawn_state (pid : Pid) (oomKills : Option ℕ) :
    (rt.registerSpawn k pid oomKills).state = .starting ∨
      (rt.registerSpawn k pid oomKills).state = .active := by
  unfold registerSpawn
  dsimp only
  split <;> simp [scheduleHealth]

/-- A fork fails, or its process is registered. -/
theorem spawnProcess_val : (∃ e, (rt.spawnProcess k cg u).val = (rt, .error e)) ∨
    ∃ pid oomKills pending, k.spawn u = .ok (pid, pending) ∧ (rt.spawnProcess k cg u).val =
      (rt.registerSpawn k pid oomKills, .ok (.spawn pending)) := by
  unfold spawnProcess
  split
  · exact .inl ⟨_, rfl⟩
  · dsimp only
    split
    · exact .inl ⟨_, rfl⟩
    · split
      · exact .inl ⟨_, rfl⟩
      · split
        · exact .inl ⟨_, rfl⟩
        · next hs => exact .inr ⟨_, _, _, hs, rfl⟩

theorem spawned_beginSpawn : Spawned rt (rt.beginSpawn k cg u).val.1 := by
  obtain ⟨g, pp, pd, es, hc, hpp, hsame⟩ := clearLeftovers_eq k rt
  unfold beginSpawn
  rw [Traced.bind_val]
  by_cases hp : rt.pid.isSome = true
  · rw [hsame hp, if_pos hp]
    exact .running hp
  · have hp : rt.pid = none := by simpa using hp
    have hpp := hpp hp
    subst hpp
    rw [hc, if_neg (by simp [hp])]
    split
    · next hs => exact .noProcess hp (by simpa [spawns] using hs) g pd es
    · next hs =>
      have hs : rt.spawns = true := by simpa [spawns] using hs
      rcases spawnProcess_val k cg u { rt with
        group := g, probePid := none, probeDeadline := pd, execStopPid := es } with
        ⟨e, he⟩ | ⟨pid, oom, pending, -, heq⟩
      · rw [he]
        exact .kept hp g pd es
      · rw [heq]
        dsimp only
        unfold registerSpawn
        dsimp only
        split
        all_goals exact .spawned hp hs rfl (by simp [scheduleHealth]) rfl rfl rfl rfl rfl rfl

/-- A start that does not fail finds a process, or leaves the unit starting or active. -/
theorem beginSpawn_ok {b : SpawnBegin} (h : (rt.beginSpawn k cg u).val.2 = .ok b) :
    rt.pid.isSome = true ∨ (rt.beginSpawn k cg u).val.1.state = .starting ∨
      (rt.beginSpawn k cg u).val.1.state = .active := by
  obtain ⟨g, pp, pd, es, hc, -⟩ := clearLeftovers_eq k rt
  unfold beginSpawn at h ⊢
  rw [Traced.bind_val, hc] at h ⊢
  by_cases hp : rt.pid.isSome = true
  · exact .inl hp
  · refine .inr ?_
    rw [if_neg hp] at h ⊢
    split
    · exact .inr rfl
    · next hs =>
      rw [if_neg hs] at h
      rcases spawnProcess_val k cg u { rt with
        group := g, probePid := pp, probeDeadline := pd, execStopPid := es } with
        ⟨e, he⟩ | ⟨pid, oom, pending, -, heq⟩
      · rw [he] at h
        cases h
      · rw [heq]
        exact registerSpawn_state k _ pid oom

theorem onNotify_eq (message : NotifyMessage) :
    (∃ status, (rt.onNotify k message).1 = { rt with status := status }) ∨
    rt.state = .starting ∧ ∃ status healthAt backoff state,
      (state = .active ∨ state = .activeExited) ∧ (rt.onNotify k message).1 = { rt with
        status := status
        state := state
        startDeadline := none
        backoff := backoff
        healthAt := healthAt } := by
  unfold onNotify
  dsimp only
  split
  · exact .inl ⟨_, rfl⟩
  · next hs =>
    have hs : rt.state = .starting := by
      by_contra hne
      simp [hne] at hs
    split
    · next t ht =>
      refine .inr ⟨hs, _, _, _, t.target, ?_, rfl⟩
      simp only [hs, transition] at ht
      cases hk : rt.config.serviceKind <;> simp only [hk, transitionTable] at ht <;>
        rw [← Except.ok.inj ht] <;> simp
    · exact .inl ⟨_, rfl⟩

/-! ## Exits -/

theorem scheduleRestart_eq (fails : Bool) :
    (∃ backoff at_ delay, rt.scheduleRestart k fails =
      ({ rt with backoff := backoff, state := .restartWait, restartAt := some at_ },
        .restartScheduled delay)) ∨
    ∃ backoff failures, rt.scheduleRestart k fails =
      ({ rt with backoff := backoff, state := .failed .startLimitHit },
        .startLimitTripped failures fails) := by
  unfold scheduleRestart
  split
  · exact .inl ⟨_, _, _, rfl⟩
  · exact .inr ⟨_, _, rfl⟩

/-- An exit settles a unit in one of three ways : in a state without a timer, in a backoff, or
in a failure of the breaker. -/
inductive Settled (rt : UnitRuntime) : UnitRuntime × Verdict → Prop
  | state {state reported : UnitState} {fails : Bool} (h : state ≠ .restartWait)
    (hd : state ≠ .deactivating) (hf : fails = true → state.isFailed = true) :
    Settled rt ({ rt with state := state }, .exited reported fails)
  | wait (flag : Bool) (backoff : BackoffState) (at_ delay : ℕ) :
    Settled rt
      ({ rt with
          restartAfterStop := flag
          backoff := backoff
          state := .restartWait
          restartAt := some at_ },
        .restartScheduled delay)
  | limit (flag fails : Bool) (backoff : BackoffState) (failures : ℕ) :
    Settled rt
      ({ rt with
          restartAfterStop := flag
          backoff := backoff
          state := .failed .startLimitHit },
        .startLimitTripped failures fails)

/-- Where the table takes the exit of a unit that is not being stopped. -/
theorem transition_exitEvent {outcome : ExitOutcome} {t : Transition}
    (h : transition rt.state (rt.exitEvent outcome) rt.policy rt.config.serviceKind = .ok t) :
    rt.state = .starting ∧ t.target = (if rt.config.serviceKind = .oneshot ∧ outcome = .success
      then .activeExited else .failed .startFailure) ∨
    rt.state = .active ∧ t.target = (if rt.policy.wantsRestart outcome then .restartWait
      else if outcome = .success then .inactive else .failed .startFailure) := by
  unfold transition exitEvent at h
  cases hs : rt.state with
  | starting =>
    refine .inl ⟨rfl, ?_⟩
    by_cases ho : rt.config.serviceKind = .oneshot ∧ outcome = .success
    · simp only [hs, ho.1, ho.2, and_self, if_true, transitionTable] at h ⊢
      rw [← Except.ok.inj h]
    · simp only [hs, ho, if_true, if_false, transitionTable] at h ⊢
      rw [← Except.ok.inj h]
  | active =>
    refine .inr ⟨rfl, ?_⟩
    simp only [hs, reduceCtorEq, if_false, transitionTable] at h
    split_ifs at h ⊢ <;> rw [← Except.ok.inj h]
  | inactive | activeExited | deactivating | restartWait | failed _ =>
    simp [hs, transitionTable] at h

theorem settled_settleExit (boot : Bool) (outcome : ExitOutcome) :
    Settled rt (rt.settleExit k boot outcome) := by
  unfold settleExit
  split
  · split
    · rcases scheduleRestart_eq k { rt with restartAfterStop := false } false with
        ⟨b, a, d, h⟩ | ⟨b, f, h⟩
      · rw [h]
        exact .wait false b a d
      · rw [h]
        exact .limit false false b f
    · exact .state (by simp) (by simp) (by simp)
  · dsimp only
    split
    · exact .state (by simp) (by simp) (by simp)
    · next t ht =>
      have hd : t.target ≠ .deactivating := by
        rcases rt.transition_exitEvent ht with ⟨-, h⟩ | ⟨-, h⟩ <;> rw [h] <;> split_ifs <;> simp
      have hw (hw : ¬rt.policy.wantsRestart outcome = true ∨ rt.state = .starting) :
          t.target ≠ .restartWait := by
        rcases rt.transition_exitEvent ht with ⟨-, h⟩ | ⟨hs, h⟩
        · rw [h]
          split_ifs <;> simp
        · rw [h, if_neg (hw.resolve_right (by simp [hs]))]
          split_ifs <;> simp
      split
      · next hs => exact .state (hw (.inr (by simp_all))) hd (by simp)
      · split
        · next hs => exact .state (hw (.inr (by simp_all))) hd id
        · split
          · next hs => exact .state (hw (.inl (by simpa [policy] using hs))) hd id
          · rcases scheduleRestart_eq k { rt with state := t.target } true with
              ⟨b, a, d, h⟩ | ⟨b, f, h⟩
            · rw [h]
              exact .wait rt.restartAfterStop b a d
            · rw [h]
              exact .limit rt.restartAfterStop true b f
/-- The exit of a unit that is being stopped for good completes the stop. -/
theorem settleExit_of_deactivating (boot : Bool) (outcome : ExitOutcome)
    (h : rt.state = .deactivating) (hf : rt.restartAfterStop = false) :
    rt.settleExit k boot outcome = ({ rt with state := .inactive }, .exited .inactive false) := by
  unfold settleExit
  rw [if_pos h, if_neg (by simp [hf])]

/-- The exit of a unit that is down leaves it down. -/
theorem settleExit_of_inactive (boot : Bool) (outcome : ExitOutcome) (h : rt.state = .inactive) :
    rt.settleExit k boot outcome = ({ rt with state := .inactive }, .exited .inactive false) := by
  unfold settleExit
  rw [if_neg (by simp [h])]
  dsimp only
  split
  · rfl
  · next t ht =>
    rcases rt.transition_exitEvent ht with ⟨hs, -⟩ | ⟨hs, -⟩ <;> simp [h] at hs

/-- What is left of a unit whose process was reaped. -/
def reaped (outcome : ExitOutcome) (rt : UnitRuntime) : UnitRuntime :=
  { rt with
    oomKillsAtStart := none
    pid := none
    startDeadline := none
    probePid := none
    group := none
    killAt := none
    healthAt := none
    probeDeadline := none
    lastOutcome := some outcome }

theorem mainExit_val (boot : Bool) (pid : Pid) (outcome : ExitOutcome) :
    (rt.mainExit k boot pid outcome).val = (rt.reaped outcome).settleExit k boot outcome :=
  rfl

theorem settled_mainExit (boot : Bool) (pid : Pid) (outcome : ExitOutcome) :
    Settled (rt.reaped outcome) (rt.mainExit k boot pid outcome).val :=
  settled_settleExit k _ boot outcome

theorem execStopExit_val (outcome : ExitOutcome) :
    (rt.execStopExit k cg u outcome).val = { rt with execStopPid := none } := by
  unfold execStopExit
  dsimp only
  split <;> rfl

theorem dueRestart_eq : ∃ ra, (rt.dueRestart k).1 = { rt with restartAt := ra } ∧
    (ra = none ∨ ra = rt.restartAt) := by
  unfold dueRestart
  split
  · exact ⟨_, rfl, .inl rfl⟩
  · split
    · exact ⟨_, rfl, .inl rfl⟩
    · exact ⟨_, rfl, .inr rfl⟩

theorem dueIdle_eq : ∃ ia, (rt.dueIdle k).1 = { rt with idleAt := ia } := by
  unfold dueIdle
  split
  · exact ⟨_, rfl⟩
  · exact ⟨_, rfl⟩

end Specs

end Rinit.UnitRuntime
