import Rinit.BootLog
import Rinit.Books
import Rinit.Targets
import Rinit.Tended

/-!
# The units of a plan while it is booted

While a plan without `Conflicts=` and `SocketActivate=` is booted, the units keep their
definitions, nothing listens, and no request is on file but the starts the boot asks for
(`Frame`). `Landed` is where an exit takes a unit meanwhile, and `Turned` what a turn does when
nothing is excluded.
-/

namespace Rinit

open Relation

/-! ## What stays -/

/-- The operations of a boot, besides the requests it makes. -/
def Op.Boots : Op → Prop
  | .reachTarget unit => unit.ty = .target
  | .failStart _ | .beginSpawnUnit _ | .capStartDeadline _ _ | .onNotify _ _ | .onChildExit _ _
  | .dueIdleUnits | .dueStartTimeouts | .dueKills | .dueHealthProbes | .dueProbeTimeouts
  | .dueRestarts | .note _ => True
  | _ => False

theorem Op.Boots.promised {op : Op} (h : op.Boots) : op.Promised := by
  cases op <;> first | exact h | exact h.elim

/-- The requests, the listeners and the mode are the same. -/
structure UnitManager.Undisturbed (m m' : UnitManager) : Prop where
  jobs : m'.jobs = m.jobs
  queuedStarts : m'.queuedStarts = m.queuedStarts
  listenFds : m'.listenFds = m.listenFds
  bootInProgress : m'.bootInProgress = m.bootInProgress

namespace UnitManager

variable {k : Kernel} {m m' m'' : UnitManager} {u : UnitName} {op : Op}

theorem Undisturbed.refl (m : UnitManager) : m.Undisturbed m := ⟨rfl, rfl, rfl, rfl⟩

theorem Undisturbed.trans (h : m.Undisturbed m') (h' : m'.Undisturbed m'') : m.Undisturbed m'' :=
  ⟨h'.jobs.trans h.jobs, h'.queuedStarts.trans h.queuedStarts, h'.listenFds.trans h.listenFds,
    h'.bootInProgress.trans h.bootInProgress⟩

theorem undisturbed_put (m : UnitManager) (u : UnitName) (x : Traced UnitRuntime) :
    m.Undisturbed (m.put u x) := ⟨rfl, rfl, rfl, rfl⟩

theorem undisturbed_update (m : UnitManager) (u : UnitName)
    (f : UnitRuntime → Traced UnitRuntime) : m.Undisturbed (m.update u f) := by
  unfold update
  split
  · exact undisturbed_put ..
  · exact .refl m

theorem undisturbed_failStart (k : Kernel) (m : UnitManager) (u : UnitName) :
    m.Undisturbed (m.failStart k u).1 :=
  (undisturbed_update m u _).trans ⟨rfl, rfl, rfl, rfl⟩

theorem undisturbed_onMainExit (k : Kernel) (m : UnitManager) (u : UnitName) (rt : UnitRuntime)
    (pid : Pid) (outcome : ExitOutcome) : m.Undisturbed (m.onMainExit k u rt pid outcome).1 := by
  unfold onMainExit
  split
  · exact undisturbed_put ..
  · dsimp only
    split
    · exact (undisturbed_put m u _).trans (undisturbed_failStart k _ u)
    · exact undisturbed_put ..

theorem undisturbed_onChildExit (k : Kernel) (m : UnitManager) (pid : Pid) (outcome : ExitOutcome) :
    m.Undisturbed (m.onChildExit k pid outcome).1 := by
  unfold onChildExit
  split
  · exact undisturbed_update ..
  · split
    · exact undisturbed_update ..
    · split
      · exact .refl m
      · split
        · exact .refl m
        · exact undisturbed_onMainExit ..

theorem undisturbed_apply (h : op.Boots) : m.Undisturbed (m.apply k op) := by
  cases op with
  | addWithInFlight | instantiate | retire | pruneRetired | adoptPendingConfig | startOrder
  | requestStart | requestStop | dueQueuedStarts | stopUnit | restartUnit | resetFailed
  | clearStartLimit | stopConflicts | compressStopTimeouts | noteConnection | setTemplates
  | setListeners | setShutdownOrder | setCgroup | setBootInProgress => exact h.elim
  | failStart => exact undisturbed_failStart ..
  | reachTarget u =>
    change m.Undisturbed (m.reachTarget k u).1
    unfold reachTarget
    split
    · exact .refl m
    · split
      · exact undisturbed_failStart ..
      · exact undisturbed_update ..
  | beginSpawnUnit u =>
    change m.Undisturbed (m.beginSpawnUnit k u).1
    unfold beginSpawnUnit
    split
    · exact .refl m
    · exact undisturbed_put ..
  | capStartDeadline => exact undisturbed_update ..
  | onNotify u message =>
    change m.Undisturbed (m.onNotify k u message).1
    unfold onNotify
    split
    · exact .refl m
    · exact undisturbed_put ..
  | onChildExit => exact undisturbed_onChildExit ..
  | dueIdleUnits | dueStartTimeouts | dueKills | dueHealthProbes | dueProbeTimeouts | dueRestarts
  | note => exact ⟨rfl, rfl, rfl, rfl⟩

end UnitManager

/-- The unit has been ready since it was spawned. -/
def UnitState.isLate : UnitState → Bool
  | .active | .activeExited | .deactivating | .restartWait => true
  | .inactive | .starting | .failed _ => false

namespace UnitRuntime

variable (k : Kernel) (cg : Cgroup) (u : UnitName) (rt : UnitRuntime)

/-- A new process is registered : the unit is up at once if it is `simple`. -/
structure Launched (k : Kernel) (rt rt' : UnitRuntime) : Prop where
  pid : rt'.pid.isSome = true
  state : rt'.state = if rt.config.serviceKind = .simple then .active else .starting
  restartAt : rt'.restartAt = none
  idleAt : rt'.idleAt = k.deadline rt.idleSecs

theorem launched_registerSpawn (pid : Pid) (oomKills : Option ℕ) :
    Launched k rt (rt.registerSpawn k pid oomKills) := by
  unfold registerSpawn
  dsimp only
  split
  all_goals
    next hk => exact ⟨rfl, by simp [hk, scheduleHealth], rfl, rfl⟩

/-- A start of a service finds a process, fails before it makes one, or makes one. -/
theorem beginSpawn_cases (hs : rt.spawns = true) :
    rt.pid.isSome = true ∧ (rt.beginSpawn k cg u).val.1 = rt ∨
    rt.pid = none ∧ ((∃ e, (rt.beginSpawn k cg u).val.2 = .error e) ∧
        (∃ g pd es, (rt.beginSpawn k cg u).val.1 =
          { rt with group := g, probePid := none, probeDeadline := pd, execStopPid := es }) ∨
      (∃ pending, (rt.beginSpawn k cg u).val.2 = .ok (.spawn pending)) ∧
        Launched k rt (rt.beginSpawn k cg u).val.1) := by
  obtain ⟨g, pp, pd, es, hc, hpp, hsame⟩ := clearLeftovers_eq k rt
  unfold beginSpawn
  rw [Traced.bind_val]
  by_cases hp : rt.pid.isSome = true
  · rw [hsame hp, if_pos hp]
    exact .inl ⟨hp, rfl⟩
  · have hp : rt.pid = none := by simpa using hp
    obtain rfl := hpp hp
    rw [hc, if_neg (by simp [hp]), if_neg (by simpa [spawns] using hs)]
    refine .inr ⟨hp, ?_⟩
    rcases spawnProcess_val k cg u { rt with
      group := g, probePid := none, probeDeadline := pd, execStopPid := es } with
      ⟨e, he⟩ | ⟨pid, oom, pending, -, heq⟩
    · rw [he]
      exact .inl ⟨⟨e, rfl⟩, g, pd, es, rfl⟩
    · rw [heq]
      have h := launched_registerSpawn k { rt with
        group := g, probePid := none, probeDeadline := pd, execStopPid := es } pid oom
      exact .inr ⟨⟨pending, rfl⟩, h.pid, h.state, h.restartAt, h.idleAt⟩

/-- Where an exit takes a unit while the boot runs : a start that is cut short is not tried
again, and a backoff follows only on a start that was completed. -/
inductive Landed (rt : UnitRuntime) (outcome : ExitOutcome) (rt' : UnitRuntime) : Prop
  | down (hs : rt'.state = .inactive) (hp : rt'.pid = rt.pid)
  | failed (hs : rt'.state.isFailed = true) (hp : rt'.pid = rt.pid)
    (ht : rt'.restartAt = rt.restartAt)
  | completed (hs : rt'.state = .activeExited) (h : rt.state = .starting)
    (hk : rt.config.serviceKind = .oneshot) (ho : outcome = .success)
  | waiting (hs : rt'.state = .restartWait) (h : rt.state.isLate = true)

theorem landed_scheduleRestart (fails : Bool) (outcome : ExitOutcome) {rt' : UnitRuntime}
    (hp : rt'.pid = rt.pid) (ht : rt'.restartAt = rt.restartAt) (h : rt.state.isLate = true) :
    Landed rt outcome (rt'.scheduleRestart k fails).1 := by
  rcases scheduleRestart_eq k rt' fails with ⟨b, a, d, he⟩ | ⟨b, f, he⟩ <;> rw [he]
  · exact .waiting rfl h
  · exact .failed rfl hp ht

theorem landed_settleExit (outcome : ExitOutcome) :
    Landed rt outcome (rt.settleExit k true outcome).1 := by
  unfold settleExit
  split
  · next hd =>
    split
    · exact landed_scheduleRestart k rt false outcome rfl rfl (by rw [hd]; rfl)
    · exact .down rfl rfl
  · dsimp only
    split
    · exact .down rfl rfl
    · next t ht =>
      rcases rt.transition_exitEvent ht with ⟨hs, htarget⟩ | ⟨hs, htarget⟩
      · split
        · next h =>
          simp only [hs, decide_true, Bool.true_and, Bool.and_eq_true, decide_eq_true_eq] at h
          rw [if_pos h] at htarget
          exact .completed htarget hs h.1 h.2
        · next h =>
          simp only [hs, decide_true, Bool.true_and, Bool.and_eq_true, decide_eq_true_eq] at h
          rw [if_neg h] at htarget
          rw [if_pos (by simp [hs])]
          exact .failed (by rw [htarget]; rfl) rfl rfl
      · rw [if_neg (by simp [hs]), if_neg (by simp [hs])]
        split
        · next hw =>
          rw [if_neg (by simpa [policy] using hw)] at htarget
          split at htarget
          · exact .down htarget rfl
          · exact .failed (by rw [htarget]; rfl) rfl rfl
        · exact landed_scheduleRestart k rt true outcome rfl rfl (by rw [hs]; rfl)

theorem deadline_idleSecs (hs : rt.config.socketActivate = none) :
    k.deadline rt.idleSecs = none := by
  simp [idleSecs, hs, Kernel.deadline]

theorem beginSpawn_idleAt (hs : rt.config.socketActivate = none) (hi : rt.idleAt = none) :
    (rt.beginSpawn k cg u).val.1.idleAt = none := by
  by_cases hsp : rt.spawns = true
  · rcases rt.beginSpawn_cases k cg u hsp with ⟨-, h⟩ | ⟨-, ⟨-, g, pd, es, h⟩ | ⟨-, h⟩⟩
    · rw [h, hi]
    · rw [h]
      exact hi
    · rw [h.idleAt, deadline_idleSecs k rt hs]
  · have h := spawned_beginSpawn k cg u rt
    generalize (rt.beginSpawn k cg u).val.1 = rt' at h
    cases h with
    | running | kept | noProcess => exact hi
    | spawned _ hsp' => exact absurd hsp' hsp

end UnitRuntime

/-- A unit without `SocketActivate=` gets no idle deadline. -/
theorem idleAt_touch {k : Kernel} {m : UnitManager} {u : UnitName} {op : Op}
    {rt rt' : UnitRuntime} (ht : Touch k m u op rt rt') (hop : op.Boots)
    (hs : rt.config.socketActivate = none) (hi : rt.idleAt = none) : rt'.idleAt = none := by
  cases ht with
  | redefine | retire | adopt | settle | stop | restartStop | restartFlag | resetFailed
  | clearStartLimit | conflictSettle | conflictStop | compress | noteConnection => exact hop.elim
  | failStart | failTarget | failExit =>
    rw [UnitRuntime.failOwn_val]
    split <;> exact hi
  | dragDown =>
    unfold UnitRuntime.dragDown
    split <;> exact hi
  | reachTarget | capStartDeadline => exact hi
  | beginSpawn => exact rt.beginSpawn_idleAt k m.cgroup u hs hi
  | onNotify message =>
    rcases rt.onNotify_eq k message with ⟨_, h⟩ | ⟨-, _, _, _, _, -, h⟩ <;> rw [h] <;> exact hi
  | finishProbe outcome =>
    have h := rt.probed_finishProbe k m.cgroup u outcome
    generalize (rt.finishProbe k m.cgroup u outcome).val = rt' at h
    cases h <;> exact hi
  | execStopExit outcome =>
    rw [UnitRuntime.execStopExit_val]
    exact hi
  | daemonStarted => exact rt.deadline_idleSecs k hs
  | @mainExit pid outcome _ _ =>
    have h := rt.settled_mainExit k m.bootInProgress pid outcome
    generalize (rt.mainExit k m.bootInProgress pid outcome).val = r at h
    cases h <;> exact hi
  | dueIdle => simp [UnitRuntime.dueIdle, hi]
  | startTimeout =>
    obtain ⟨_, _, h⟩ := rt.startTimeout_eq k m.cgroup u
    rw [h]
    exact hi
  | kill =>
    rcases rt.kill_eq k m.cgroup u with ⟨_, _, h⟩ | ⟨-, -, h⟩ <;> rw [h] <;> exact hi
  | healthProbe =>
    obtain ⟨_, _, _, h, -⟩ := rt.healthProbe_eq k u
    rw [h]
    exact hi
  | probeTimeout =>
    obtain ⟨_, h⟩ := rt.probeTimeout_eq k
    rw [h]
    exact hi
  | dueRestart =>
    obtain ⟨_, h, -⟩ := rt.dueRestart_eq k
    rw [h]
    exact hi

namespace StartFlow

variable {k : Kernel} {t t' : Turn} {m : UnitManager}

/-- The unit of the flow excludes nothing. -/
def Unopposed (t : Turn) : Prop :=
  ∀ rt, t.manager.get t.flow.unit = some rt → rt.config.deps.conflicts = []

theorem Unopposed.stopConflicts (h : Unopposed t) (k : Kernel) :
    t.manager.stopConflicts k t.flow.unit = (t.manager, []) := by
  unfold UnitManager.stopConflicts
  split
  · rfl
  · next rt hrt => rw [h rt hrt, List.foldl_nil]

theorem Cleared.unopposed {waits : List ConflictWait} (h : Cleared k t waits m)
    (hu : Unopposed t) : m = t.manager := by
  cases h with
  | again => rfl
  | first => rw [hu.stopConflicts]

theorem Passed.unopposed (h : Passed k t m) (hu : Unopposed t) :
    ∃ calls, m = t.manager.noted calls := by
  cases h with
  | before _ calls => exact ⟨calls, rfl⟩
  | cleared hc _ calls => exact ⟨calls, by rw [hc.unopposed hu]⟩

theorem Waits.unopposed {stage : StartStage} (h : Waits k t m stage) (hu : Unopposed t) :
    (∃ calls, m = t.manager.noted calls) ∧ stage.isEarly = true := by
  cases h with
  | sockets => exact ⟨⟨[], t.manager.noted_nil.symm⟩, rfl⟩
  | conflicts hc calls => exact ⟨⟨calls, by rw [hc.unopposed hu]⟩, rfl⟩
  | pre hp => exact ⟨hp.unopposed hu, rfl⟩

/-- What a turn does when nothing is excluded by its unit. -/
inductive Turned (k : Kernel) (t t' : Turn) : Prop
  | cancelled (h : Blocked t) (hm : t'.manager = t.manager) (hd : t'.done.isSome = true)
  | failed (calls : List Call) {m : UnitManager} (hm : m = t.manager.noted calls ∨
      (∃ e, ((t.manager.noted calls).beginSpawnUnit k t.flow.unit).2 = .error e) ∧
        m = ((t.manager.noted calls).beginSpawnUnit k t.flow.unit).1)
    (hm' : t'.manager = (m.failStart k t.flow.unit).1) (hd : t'.done.isSome = true)
  | waits (calls : List Call) (hm : t'.manager = t.manager.noted calls) (hd : t'.done = none)
    (he : t'.flow.stage.isEarly = true)
  | spawned (calls : List Call) {b : UnitRuntime.SpawnBegin}
    (hs : ((t.manager.noted calls).beginSpawnUnit k t.flow.unit).2 = .ok b)
    (hf : Follows ((t.manager.noted calls).beginSpawnUnit k t.flow.unit).1 t.flow t')
  | later (hs : t.flow.stage.isEarly = false) (hf : Follows t.manager t.flow t')

theorem turned_advance (k : Kernel) (hd : t.done = none) (hu : Unopposed t) :
    Turned k t (advance k t) := by
  cases advanced_advance k t hd with
  | cancelled h reason he =>
    rw [he]
    exact .cancelled h rfl rfl
  | failed _ hm reason hm' hd' =>
    have hd' : (advance k t).done.isSome = true := by rw [hd']; rfl
    cases hm with
    | nothing calls => exact .failed calls (.inl rfl) hm' hd'
    | passed hp =>
      obtain ⟨calls, rfl⟩ := hp.unopposed hu
      exact .failed calls (.inl rfl) hm' hd'
    | spawn hp he =>
      obtain ⟨calls, rfl⟩ := hp.unopposed hu
      exact .failed calls (.inr ⟨⟨_, he⟩, rfl⟩) hm' hd'
  | waits _ hm hm' hd' hf =>
    obtain ⟨⟨calls, rfl⟩, he⟩ := hm.unopposed hu
    exact .waits calls hm' hd' (by rw [hf]; exact he)
  | spawned _ hm hs hf =>
    obtain ⟨calls, rfl⟩ := hm.unopposed hu
    exact .spawned calls hs hf
  | later _ hs hf => exact .later hs hf

end StartFlow

namespace Boot

/-- What does not change while the units of a plan are booted. -/
structure Frame (plan : BootPlan) (m : UnitManager) : Prop where
  proper : plan.Proper
  plain : ∀ c ∈ plan.configs, c.deps.conflicts = [] ∧ c.socketActivate = none
  reachable : Reachable m
  boot : m.bootInProgress = true
  listenFds : m.listenFds = ∅
  queued : m.queuedStarts = ∅
  started : ∀ u, m.targetOf u ≠ some .stopped
  config : ∀ u, (m.get u).map UnitRuntime.config = plan.configOf u
  rest : ∀ u rt, m.get u = some rt →
    rt.pendingConfig = none ∧ rt.retired = false ∧ rt.idleAt = none

variable {plan : BootPlan} {k : Kernel} {m : UnitManager} {u : UnitName} {op : Op}
  {rt : UnitRuntime}

theorem Frame.configOf (h : Frame plan m) (hrt : m.get u = some rt) :
    plan.configOf u = some rt.config := by
  rw [← h.config u, hrt]
  rfl

theorem Frame.mem (h : Frame plan m) (hrt : m.get u = some rt) :
    rt.config ∈ plan.configs ∧ rt.config.name = u :=
  BootPlan.mem_of_configOf (h.configOf hrt)

/-- The units are those of the plan. -/
theorem Frame.exists_get {m' : UnitManager} (h : Frame plan m) (h' : Frame plan m')
    {rt' : UnitRuntime} (hrt' : m'.get u = some rt') : ∃ rt, m.get u = some rt := by
  have hconfig := (h.config u).trans (h'.config u).symm
  rw [hrt'] at hconfig
  exact (Option.map_eq_some_iff.mp hconfig).imp fun _ => And.left

theorem redefined_of_boots {rt' : UnitRuntime} (ht : Touch k m u op rt rt') (hop : op.Boots) :
    rt'.config = rt.config ∧ rt'.pendingConfig = rt.pendingConfig ∧ rt'.retired = rt.retired := by
  cases redefined_of_touch ht with
  | kept hc hp hr => exact ⟨hc, hp, hr⟩
  | redefined h | adopted h | retired h | compressed h =>
    rw [h] at hop
    exact hop.elim

theorem Frame.apply (h : Frame plan m) (k : Kernel) (op : Op) (hop : op.Boots) :
    Frame plan (m.apply k op) := by
  have hundisturbed := m.undisturbed_apply (k := k) hop
  have htouched : Touched k m op m (m.apply k op) := by
    rcases UnitManager.apply_cases k m op with ⟨u, config, hmakes, -⟩ | rfl | htouched
    · cases hmakes <;> exact hop.elim
    · exact hop.elim
    · exact htouched
  -- an operation is a run of touches of each unit, and none of a boot changes a definition
  have hkept (u : UnitName) (rt rt' : UnitRuntime) (hrt : m.get u = some rt)
      (hrun : ReflTransGen (Touch k m u op) rt rt') : rt'.config = rt.config ∧
        rt'.pendingConfig = none ∧ rt'.retired = false ∧ rt'.idleAt = none := by
    obtain ⟨hpending, hretired, hidle⟩ := h.rest u rt hrt
    induction hrun with
    | refl => exact ⟨rfl, hpending, hretired, hidle⟩
    | tail _ ht ih =>
      obtain ⟨hc, hp, hr⟩ := redefined_of_boots ht hop
      refine ⟨hc.trans ih.1, hp.trans ih.2.1, hr.trans ih.2.2.1, idleAt_touch ht hop ?_ ih.2.2.2⟩
      rw [ih.1]
      exact (h.plain rt.config (h.mem hrt).1).2
  exact {
    proper := h.proper
    plain := h.plain
    reachable := h.reachable.step k op hop.promised
    boot := hundisturbed.bootInProgress.trans h.boot
    listenFds := hundisturbed.listenFds.trans h.listenFds
    queued := hundisturbed.queuedStarts.trans h.queued
    started := fun u => by
      rw [UnitManager.targetOf, hundisturbed.jobs]
      exact h.started u
    config := fun u => by
      rw [← h.config u]
      cases hrt : m.get u with
      | some rt =>
        obtain ⟨rt', hrt', hrun⟩ := htouched.get_of_some hrt
        rw [hrt']
        exact congrArg some (hkept u rt rt' hrt hrun).1
      | none =>
        cases hrt' : (m.apply k op).get u with
        | none => rfl
        | some rt' =>
          obtain ⟨rt, hrt'', -⟩ := htouched.get_some hrt'
          cases hrt.symm.trans hrt''
    rest := fun u rt' hrt' => by
      obtain ⟨rt, hrt, hrun⟩ := htouched.get_some hrt'
      exact (hkept u rt rt' hrt hrun).2 }

theorem Frame.congr {m' : UnitManager} (h : Frame plan m) (hr : Reachable m')
    (hget : ∀ v, m'.get v = m.get v) (hboot : m'.bootInProgress = m.bootInProgress)
    (hfds : m'.listenFds = m.listenFds) (hqueued : m'.queuedStarts = m.queuedStarts)
    (hstarted : ∀ v, m'.targetOf v = some .stopped → m.targetOf v = some .stopped) :
    Frame plan m' where
  proper := h.proper
  plain := h.plain
  reachable := hr
  boot := hboot.trans h.boot
  listenFds := hfds.trans h.listenFds
  queued := hqueued.trans h.queued
  started u hu := h.started u (hstarted u hu)
  config u := by rw [hget u, h.config u]
  rest u rt hrt := h.rest u rt (hget u ▸ hrt)

/-- No definition is waiting for the start of a unit. -/
theorem Frame.adopt (h : Frame plan m) (u : UnitName) :
    Frame plan (m.adoptPendingConfig u) ∧ ∀ v, (m.adoptPendingConfig u).get v = m.get v := by
  have hget (v : UnitName) : (m.adoptPendingConfig u).get v = m.get v := by
    unfold UnitManager.adoptPendingConfig
    split
    · next rt hrt =>
      have hsame : rt.adoptPendingConfig = rt := by
        unfold UnitRuntime.adoptPendingConfig
        split
        · rfl
        · rw [(h.rest u rt hrt).1]
      rw [UnitManager.invalidateGraph_get, UnitManager.get_put, hsame]
      split
      · next huv => rw [← huv, hrt, Traced.pure_val]
      · rfl
    · rfl
  have hr : Reachable (m.apply (.granting 0 0) (.adoptPendingConfig u)) :=
    h.reachable.step _ _ trivial
  refine ⟨h.congr hr hget ?_ ?_ ?_ fun v => ?_, hget⟩
  all_goals
    unfold UnitManager.adoptPendingConfig
    split
    · first
      | rfl
      | exact id
    · first
      | rfl
      | exact id

/-- A unit that is down is to be spawned when it is asked for. -/
theorem Frame.request (h : Frame plan m) (hrt : m.get u = some rt) (hs : rt.state = .inactive) :
    (m.requestStart k u .dependency).2 = some .spawnProcess ∧
      Frame plan (m.requestStart k u .dependency).1 ∧
      ∀ v, (m.requestStart k u .dependency).1.get v = m.get v := by
  have heq : m.requestStart k u .dependency = m.submitRequest k u .started .dependency := by
    unfold UnitManager.requestStart UnitManager.request
    rw [hrt]
  have htarget := UnitManager.filed_targetOf k m u .started .dependency
  have heffect : (m.filed k u .started .dependency).effectFor u = some .spawnProcess := by
    rw [UnitManager.effectFor, UnitManager.filed_get, hrt, Option.bind_some, JobQueue.reconcile,
      htarget, Option.bind_some, hs]
    generalize JobQueue.winner _ _ = t at htarget
    cases ht : t.target with
    | started => rfl
    | stopped => exact absurd (UnitManager.stopped_of_filed _ htarget ht) (h.started u)
  have hanswered : m.answered k u .started .dependency = m.filed k u .started .dependency := by
    unfold UnitManager.answered
    rw [if_neg (by simp [heffect])]
  have hfst : (m.submitRequest k u .started .dependency).1 = m.filed k u .started .dependency := by
    rw [UnitManager.submitRequest_fst, hanswered, heffect]
    rfl
  have hr : Reachable (m.apply k (.requestStart u .dependency)) :=
    h.reachable.step k _ (Nat.zero_le _)
  have hget (v : UnitName) : (m.filed k u .started .dependency).get v = m.get v :=
    UnitManager.filed_get k m u v .started .dependency
  rw [heq, hfst]
  refine ⟨heffect, h.congr (hfst ▸ heq ▸ hr) hget ?_ ?_ ?_ fun v hv => ?_, hget⟩
  · exact (UnitManager.keeps_forgetSpentTarget m u).bootInProgress
  · unfold UnitManager.filed UnitManager.forgetSpentTarget
    dsimp only
    split <;> rfl
  · unfold UnitManager.filed UnitManager.forgetSpentTarget
    dsimp only
    split <;> rfl
  · refine UnitManager.stopped_of_submitRequest .dependency (k := k) (u := u) ?_
    rw [hfst]
    exact hv

end Boot

end Rinit
