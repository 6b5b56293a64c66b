import Rinit.Changes
import Rinit.Failures
import Rinit.Runs

/-!
# Runs of the manager

`Op` lists what the supervisor asks of the manager, `Op.Promised` what it promises with it,
and `Reachable` is every state a sequence of operations leads to. `Touch` says once what an
operation can do to one unit : each operation takes the runtime of a unit through touches of
its own kind, leaves it out, or makes a new one (`apply_cases`). The invariants of a unit are
then shown for the touches (`Reachable.inv`).
-/

namespace Rinit

open Relation

/-- What the supervisor asks of the manager. -/
inductive Op where
  | addWithInFlight (config : UnitConfig) (inFlight : Bool)
  | instantiate (unit : UnitName)
  | retire (unit : UnitName)
  | pruneRetired
  | adoptPendingConfig (unit : UnitName)
  | startOrder (unit : UnitName)
  | requestStart (unit : UnitName) (source : RequestSource)
  | requestStop (unit : UnitName) (source : RequestSource)
  | dueQueuedStarts
  | stopUnit (unit : UnitName)
  | restartUnit (unit : UnitName)
  | resetFailed (unit : UnitName)
  | clearStartLimit (unit : UnitName)
  | stopConflicts (unit : UnitName)
  | compressStopTimeouts (secs : ℕ)
  | failStart (unit : UnitName)
  | reachTarget (unit : UnitName)
  | beginSpawnUnit (unit : UnitName)
  | capStartDeadline (unit : UnitName) (deadline : ℕ)
  | noteConnection (unit : UnitName)
  | onNotify (unit : UnitName) (message : UnitRuntime.NotifyMessage)
  | onChildExit (pid : Pid) (outcome : ExitOutcome)
  | dueIdleUnits
  | dueStartTimeouts
  | dueKills
  | dueHealthProbes
  | dueProbeTimeouts
  | dueRestarts
  | setTemplates (templates : Std.ExtTreeMap String String compare)
  | setListeners (fds : Std.ExtTreeMap UnitName ℤ compare)
  | setShutdownOrder (order : List UnitName)
  | setCgroup (cgroup : Cgroup)
  | setBootInProgress (boot : Bool)
  | note (calls : List Call)

namespace UnitManager

/-- Carry out an operation. -/
def apply (k : Kernel) (m : UnitManager) : Op → UnitManager
  | .addWithInFlight config inFlight => (m.addWithInFlight config inFlight).1
  | .instantiate unit => (m.instantiate unit).toOption.getD m
  | .retire unit => m.retire k unit
  | .pruneRetired => m.pruneRetired.1
  | .adoptPendingConfig unit => m.adoptPendingConfig unit
  | .startOrder unit => (m.startOrder unit).1
  | .requestStart unit source => (m.requestStart k unit source).1
  | .requestStop unit source => (m.requestStop k unit source).1
  | .dueQueuedStarts => (m.dueQueuedStarts k).1
  | .stopUnit unit => m.stopUnit k unit
  | .restartUnit unit => (m.restartUnit k unit).1
  | .resetFailed unit => m.resetFailed unit
  | .clearStartLimit unit => m.clearStartLimit unit
  | .stopConflicts unit => (m.stopConflicts k unit).1
  | .compressStopTimeouts secs => m.compressStopTimeouts secs
  | .failStart unit => (m.failStart k unit).1
  | .reachTarget unit => (m.reachTarget k unit).1
  | .beginSpawnUnit unit => (m.beginSpawnUnit k unit).1
  | .capStartDeadline unit deadline => m.capStartDeadline unit deadline
  | .noteConnection unit => m.noteConnection k unit
  | .onNotify unit message => (m.onNotify k unit message).1
  | .onChildExit pid outcome => (m.onChildExit k pid outcome).1
  | .dueIdleUnits => (m.dueIdleUnits k).1
  | .dueStartTimeouts => (m.dueStartTimeouts k).1
  | .dueKills => (m.dueKills k).1
  | .dueHealthProbes => (m.dueHealthProbes k).1
  | .dueProbeTimeouts => (m.dueProbeTimeouts k).1
  | .dueRestarts => (m.dueRestarts k).1
  | .setTemplates templates => { m with templates := templates }
  | .setListeners fds => { m with listenFds := fds }
  | .setShutdownOrder order => { m with shutdownOrder := order }
  | .setCgroup cgroup => { m with cgroup := cgroup }
  | .setBootInProgress boot => { m with bootInProgress := boot }
  | .note calls => { m with calls := m.calls ++ calls }

end UnitManager

/-- What the callers promise : a definition has the type its name says, starts and stops
come from their own sources, and only targets are reached. -/
def Op.Promised : Op → Prop
  | .addWithInFlight config _ => config.kind = config.name.ty
  | .requestStart _ source => source.rank ≤ RequestSource.userStart.rank
  | .requestStop _ source => RequestSource.userStop.rank ≤ source.rank
  | .reachTarget unit => unit.ty = .target
  | _ => True

/-- The states a manager gets into. -/
inductive Reachable : UnitManager → Prop
  | new : Reachable {}
  | step {m : UnitManager} (k : Kernel) (op : Op) : Reachable m → op.Promised →
    Reachable (m.apply k op)

/-- The exit of `pid` is taken for the exit of the main process of `u`. -/
structure UnitManager.ExitsMain (m : UnitManager) (pid : Pid) (u : UnitName) : Prop where
  probe : m.probeOwner pid = none
  execStop : m.execStopOwner pid = none
  main : m.mainOwner pid = some u

/-- `op` fails `root` and whatever requires it : a start that failed, a target one of whose
requirements failed, or an exit nothing restarts. -/
inductive FailsUnit (k : Kernel) (m : UnitManager) : Op → UnitName → Prop
  | start (root : UnitName) : FailsUnit k m (.failStart root) root
  | target {root : UnitName} {rt : UnitRuntime} (h : m.get root = some rt)
    (hf : rt.state.isFailed || rt.config.deps.requires.any m.isFailed) :
    FailsUnit k m (.reachTarget root) root
  | exit {root : UnitName} {rt : UnitRuntime} {pid : Pid} {outcome : ExitOutcome}
    (h : m.get root = some rt) (ho : m.ExitsMain pid root)
    (hd : m.forkedDaemon k root rt outcome = none)
    (hf : (rt.mainExit k m.bootInProgress pid outcome).val.2.fails = true) :
    FailsUnit k m (.onChildExit pid outcome) root

/-- What one operation can do to the runtime of a unit. -/
inductive Touch (k : Kernel) (m : UnitManager) (u : UnitName) : Op → UnitRuntime → UnitRuntime → Prop
  | redefine {config : UnitConfig} (inFlight : Bool) (rt : UnitRuntime) (h : config.name = u) :
    Touch k m u (.addWithInFlight config inFlight) rt (rt.redefine config inFlight).1
  | retire (rt : UnitRuntime) : Touch k m u (.retire u) rt (rt.retire k).val
  | adopt (rt : UnitRuntime) : Touch k m u (.adoptPendingConfig u) rt rt.adoptPendingConfig
  | settle (source : RequestSource) (rt : UnitRuntime) :
    Touch k m u (.requestStop u source) rt (rt.settle .stopped)
  | stop (rt : UnitRuntime) : Touch k m u (.stopUnit u) rt (rt.stop k m.cgroup u).val
  | restartStop {rt : UnitRuntime} (h : rt.state = .active ∨ rt.state = .starting ∨
      rt.state = .restartWait ∨ rt.state = .deactivating) :
    Touch k m u (.restartUnit u) rt (rt.stop k m.cgroup u).val
  | restartFlag {rt : UnitRuntime} (h : rt.state = .deactivating) :
    Touch k m u (.restartUnit u) rt { rt with restartAfterStop := true }
  | resetFailed (rt : UnitRuntime) : Touch k m u (.resetFailed u) rt rt.resetFailed
  | clearStartLimit (rt : UnitRuntime) : Touch k m u (.clearStartLimit u) rt rt.clearStartLimit
  | conflictSettle (v : UnitName) {rt : UnitRuntime} (h : UnitManager.needsStop rt = true) :
    Touch k m u (.stopConflicts v) rt (rt.settle .stopped)
  | conflictStop (v : UnitName) {rt : UnitRuntime} (h : UnitManager.needsStop rt = true) :
    Touch k m u (.stopConflicts v) rt (rt.stop k m.cgroup u).val
  | compress (secs : ℕ) (rt : UnitRuntime) :
    Touch k m u (.compressStopTimeouts secs) rt (rt.compressStopTimeout secs)
  | failStart (rt : UnitRuntime) : Touch k m u (.failStart u) rt (rt.failOwn k m.cgroup u).val
  | dragDown {op : Op} {root : UnitName} {rt : UnitRuntime} (hop : FailsUnit k m op root)
    (hne : u ≠ root) (h : Fails m.units root u) (hrt : m.get u = some rt) (hp : rt.pid = none) :
    Touch k m u op rt rt.dragDown
  | failTarget (rt : UnitRuntime) : Touch k m u (.reachTarget u) rt (rt.failOwn k m.cgroup u).val
  | reachTarget {rt : UnitRuntime} (h : rt.state.isFailed = false) :
    Touch k m u (.reachTarget u) rt { rt with state := .active }
  | beginSpawn (rt : UnitRuntime) :
    Touch k m u (.beginSpawnUnit u) rt (rt.beginSpawn k m.cgroup u).val.1
  | capStartDeadline (deadline : ℕ) (rt : UnitRuntime) :
    Touch k m u (.capStartDeadline u deadline) rt (rt.capStartDeadline deadline)
  | noteConnection (rt : UnitRuntime) : Touch k m u (.noteConnection u) rt (rt.noteConnection k)
  | onNotify (message : UnitRuntime.NotifyMessage) (rt : UnitRuntime) :
    Touch k m u (.onNotify u message) rt (rt.onNotify k message).1
  | finishProbe {pid : Pid} (outcome : ExitOutcome) {rt : UnitRuntime} (h : rt.probePid = some pid) :
    Touch k m u (.onChildExit pid outcome) rt (rt.finishProbe k m.cgroup u outcome).val
  | execStopExit {pid : Pid} (outcome : ExitOutcome) {rt : UnitRuntime}
    (h : rt.execStopPid = some pid) :
    Touch k m u (.onChildExit pid outcome) rt (rt.execStopExit k m.cgroup u outcome).val
  | daemonStarted {pid daemon : Pid} {outcome : ExitOutcome} {rt : UnitRuntime}
    (h : rt.pid = some pid) (hd : m.forkedDaemon k u rt outcome = some daemon) :
    Touch k m u (.onChildExit pid outcome) rt (rt.markDaemonStarted k daemon)
  | mainExit {pid : Pid} (outcome : ExitOutcome) {rt : UnitRuntime} (h : rt.pid = some pid) :
    Touch k m u (.onChildExit pid outcome) rt
      (rt.mainExit k m.bootInProgress pid outcome).val.1
  | failExit {pid : Pid} {outcome : ExitOutcome} {rt : UnitRuntime}
    (h : rt.state.isFailed = true) (hp : rt.pid = none) :
    Touch k m u (.onChildExit pid outcome) rt (rt.failOwn k m.cgroup u).val
  | dueIdle (rt : UnitRuntime) : Touch k m u .dueIdleUnits rt (rt.dueIdle k).1
  | startTimeout (rt : UnitRuntime) :
    Touch k m u .dueStartTimeouts rt (rt.startTimeout k m.cgroup u).val.1
  | kill (rt : UnitRuntime) : Touch k m u .dueKills rt (rt.kill k m.cgroup u).val.1
  | healthProbe (rt : UnitRuntime) : Touch k m u .dueHealthProbes rt (rt.healthProbe k u).val.1
  | probeTimeout (rt : UnitRuntime) : Touch k m u .dueProbeTimeouts rt (rt.probeTimeout k).val.1
  | dueRestart (rt : UnitRuntime) : Touch k m u .dueRestarts rt (rt.dueRestart k).1

/-- An operation makes an entry of its own : a definition that was not known, or an
instance. -/
inductive Makes (m : UnitManager) (u : UnitName) (config : UnitConfig) : Op → Prop
  | add (inFlight : Bool) (h : config.name = u) (hn : m.get u = none) :
    Makes m u config (.addWithInFlight config inFlight)
  | instantiate (h : m.expand u = .ok config) : Makes m u config (.instantiate u)
  | requestStart (source : RequestSource) (h : m.expand u = .ok config) (hn : m.get u = none) :
    Makes m u config (.requestStart u source)
  | requestStop (source : RequestSource) (h : m.expand u = .ok config) (hn : m.get u = none) :
    Makes m u config (.requestStop u source)

theorem UnitManager.parse_of_expand {m : UnitManager} {u : UnitName} {config : UnitConfig}
    (h : m.expand u = .ok config) : ∃ text, parse u text = .ok config := by
  unfold expand at h
  repeat' split at h
  all_goals first
    | cases h; done
    | obtain rfl := Except.ok.inj h
      exact ⟨_, ‹_›⟩

theorem Makes.name {m : UnitManager} {u : UnitName} {config : UnitConfig} {op : Op}
    (h : Makes m u config op) : config.name = u := by
  cases h with
  | add _ h _ => exact h
  | instantiate h | requestStart _ h _ | requestStop _ h _ =>
    obtain ⟨text, ht⟩ := UnitManager.parse_of_expand h
    exact parse_name ht

theorem Makes.kind {m : UnitManager} {u : UnitName} {config : UnitConfig} {op : Op}
    (h : Makes m u config op) (hp : op.Promised) : config.kind = u.ty := by
  cases h with
  | add _ h _ => exact hp.trans (congrArg UnitName.ty h)
  | instantiate h | requestStart _ h _ | requestStop _ h _ =>
    obtain ⟨text, ht⟩ := UnitManager.parse_of_expand h
    exact parse_kind ht

/-! ## Operations as touches -/

/-- Every unit went from `m₁` to `m₂` by touches of `op`. -/
def Touched (k : Kernel) (m : UnitManager) (op : Op) (m₁ m₂ : UnitManager) : Prop :=
  ∀ u, Option.Rel (ReflTransGen (Touch k m u op)) (m₁.get u) (m₂.get u)

namespace Touched

variable {k : Kernel} {m m₁ m₂ m₃ : UnitManager} {op : Op} {u : UnitName}

theorem rel_refl (o : Option UnitRuntime) : Option.Rel (ReflTransGen (Touch k m u op)) o o := by
  cases o with
  | none => exact .none
  | some rt => exact .some .refl

theorem of_get_eq (h : ∀ u, m₂.get u = m₁.get u) : Touched k m op m₁ m₂ :=
  fun u => h u ▸ rel_refl _

theorem trans (h : Touched k m op m₁ m₂) (h' : Touched k m op m₂ m₃) : Touched k m op m₁ m₃ := by
  intro u
  have h1 := h u
  have h2 := h' u
  generalize m₁.get u = o₁ at h1
  generalize m₂.get u = o₂ at h1 h2
  generalize m₃.get u = o₃ at h2
  cases h1 with
  | none => exact h2
  | some h1 =>
    cases h2 with
    | some h2 => exact .some (h1.trans h2)

/-- Every unit is touched once. -/
theorem of_map {f : UnitName → UnitRuntime → UnitRuntime} (h : ∀ u, m₂.get u = (m₁.get u).map (f u))
    (ht : ∀ u rt, Touch k m u op rt (f u rt)) : Touched k m op m₁ m₂ := by
  intro u
  rw [h u]
  cases m₁.get u with
  | none => exact .none
  | some rt => exact .some (.single (ht u rt))

/-- One unit is touched. -/
theorem of_single {f : UnitRuntime → UnitRuntime}
    (h : ∀ v, m₂.get v = if u = v then (m₁.get u).map f else m₁.get v)
    (ht : ∀ rt, m₁.get u = some rt → Touch k m u op rt (f rt)) : Touched k m op m₁ m₂ := by
  intro v
  rw [h v]
  split
  · next huv =>
    subst huv
    cases hrt : m₁.get u with
    | none => exact .none
    | some rt => exact .some (.single (ht rt hrt))
  · exact rel_refl _

theorem get_some (h : Touched k m op m₁ m₂) {rt' : UnitRuntime} (h' : m₂.get u = some rt') :
    ∃ rt, m₁.get u = some rt ∧ ReflTransGen (Touch k m u op) rt rt' := by
  have hu := h u
  rw [h'] at hu
  generalize m₁.get u = o at hu
  cases hu with
  | some hr => exact ⟨_, rfl, hr⟩

theorem get_of_some (h : Touched k m op m₁ m₂) {rt : UnitRuntime} (h' : m₁.get u = some rt) :
    ∃ rt', m₂.get u = some rt' ∧ ReflTransGen (Touch k m u op) rt rt' := by
  have hu := h u
  rw [h'] at hu
  generalize m₂.get u = o at hu
  cases hu with
  | some hr => exact ⟨_, rfl, hr⟩

end Touched

namespace UnitManager

variable {k : Kernel} {m : UnitManager} {u v : UnitName} {rt : UnitRuntime}

/-- Nothing but the units, the requests and the trace changed. -/
structure Keeps (m m' : UnitManager) : Prop where
  cgroup : m'.cgroup = m.cgroup
  templates : m'.templates = m.templates
  bootInProgress : m'.bootInProgress = m.bootInProgress
  graphCache : m'.graphCache = m.graphCache
  graphRevision : m'.graphRevision = m.graphRevision

theorem Keeps.refl (m : UnitManager) : Keeps m m := ⟨rfl, rfl, rfl, rfl, rfl⟩

theorem Keeps.trans {m m' m'' : UnitManager} (h : Keeps m m') (h' : Keeps m' m'') : Keeps m m'' :=
  ⟨h'.cgroup.trans h.cgroup, h'.templates.trans h.templates,
    h'.bootInProgress.trans h.bootInProgress, h'.graphCache.trans h.graphCache,
    h'.graphRevision.trans h.graphRevision⟩

theorem keeps_update (m : UnitManager) (u : UnitName) (f : UnitRuntime → Traced UnitRuntime) :
    Keeps m (m.update u f) := by
  unfold update
  split
  · exact ⟨rfl, rfl, rfl, rfl, rfl⟩
  · exact .refl m

theorem keeps_modify (m : UnitManager) (u : UnitName) (f : UnitRuntime → UnitRuntime) :
    Keeps m (m.modify u f) :=
  keeps_update m u _

theorem touched_update {op : Op} {m₁ : UnitManager} {f : UnitRuntime → Traced UnitRuntime}
    (ht : ∀ rt, m₁.get u = some rt → Touch k m u op rt (f rt).val) :
    Touched k m op m₁ (m₁.update u f) :=
  .of_single (fun v => get_update m₁ u v f) ht

theorem touched_modify {op : Op} {m₁ : UnitManager} {f : UnitRuntime → UnitRuntime}
    (ht : ∀ rt, m₁.get u = some rt → Touch k m u op rt (f rt)) :
    Touched k m op m₁ (m₁.modify u f) :=
  touched_update ht

theorem touched_pass {op : Op} {f : UnitName → UnitRuntime → Traced (UnitRuntime × Bool)}
    (ht : ∀ u rt, Touch k m u op rt (f u rt).val.1) : Touched k m op m (m.pass f).1 :=
  .of_map (fun v => get_pass m v f) ht

/-! ### Requests -/

@[simp] theorem forgetSpentTarget_get (m : UnitManager) (u v : UnitName) :
    (m.forgetSpentTarget u).get v = m.get v := by
  unfold forgetSpentTarget
  split <;> rfl

theorem keeps_forgetSpentTarget (m : UnitManager) (u : UnitName) :
    Keeps m (m.forgetSpentTarget u) := by
  unfold forgetSpentTarget
  split <;> exact ⟨rfl, rfl, rfl, rfl, rfl⟩

theorem keeps_applyNoneTransition (m : UnitManager) (u : UnitName) :
    Keeps m (m.applyNoneTransition u) := by
  unfold applyNoneTransition
  split
  · split
    · exact keeps_modify ..
    · exact .refl m
  · exact .refl m

/-- The manager once the request is filed. -/
def filed (k : Kernel) (m : UnitManager) (unit : UnitName) (target : JobTarget)
    (source : RequestSource) : UnitManager :=
  let m := m.forgetSpentTarget unit
  { m with jobs := (m.jobs.submit ⟨unit, target, source, k.now⟩).1 }

@[simp] theorem filed_get (k : Kernel) (m : UnitManager) (u v : UnitName) (target : JobTarget)
    (source : RequestSource) : (m.filed k u target source).get v = m.get v :=
  forgetSpentTarget_get m u v

theorem filed_targetOf (k : Kernel) (m : UnitManager) (u : UnitName) (target : JobTarget)
    (source : RequestSource) : (m.filed k u target source).jobs.targetOf u =
      some (JobQueue.winner ⟨target, source, k.now⟩ ((m.forgetSpentTarget u).jobs.targetOf u)) :=
  JobQueue.targetOf_submit _ ⟨u, target, source, k.now⟩

/-- A start never finds a spent stop : that is forgotten first. -/
theorem filed_started_effect {source : RequestSource} (h : m.get u = some rt)
    {t : MergedTarget} (ht : (m.filed k u .started source).jobs.targetOf u = some t)
    (he : JobQueue.action t.target rt.state = some .none) : t.target = .started := by
  rw [filed_targetOf] at ht
  obtain rfl := Option.some.inj ht
  cases hold : (m.forgetSpentTarget u).jobs.targetOf u with
  | none => rfl
  | some current =>
    rw [hold] at he
    unfold JobQueue.winner at he ⊢
    by_cases hout : JobQueue.outranks ⟨.started, source, k.now⟩ current = true
    · simp only [hout, if_true]
    · simp only [hout, Bool.false_eq_true, if_false] at he ⊢
      have hspent : m.effectFor u ≠ some .none := by
        intro hs
        unfold forgetSpentTarget at hold
        rw [if_pos hs, JobQueue.targetOf_forget, if_pos rfl] at hold
        cases hold
      unfold forgetSpentTarget at hold
      rw [if_neg hspent] at hold
      exact absurd (by simp [effectFor, h, JobQueue.reconcile, hold, he]) hspent

/-- The manager once the request is filed and, where nothing has to be done, settled. -/
def answered (k : Kernel) (m : UnitManager) (unit : UnitName) (target : JobTarget)
    (source : RequestSource) : UnitManager :=
  if (m.filed k unit target source).effectFor unit = some .none then
    (m.filed k unit target source).applyNoneTransition unit
  else m.filed k unit target source

theorem submitRequest_fst (k : Kernel) (m : UnitManager) (u : UnitName) (target : JobTarget)
    (source : RequestSource) : (m.submitRequest k u target source).1 =
      { m.answered k u target source with
        queuedStarts := match target with
          | .started =>
            if ((m.filed k u target source).effectFor u).isNone &&
                (m.answered k u target source).isDeactivating u then
              (m.answered k u target source).queuedStarts.insert u source
            else (m.answered k u target source).queuedStarts
          | .stopped => (m.answered k u target source).queuedStarts.erase u } :=
  rfl

theorem submitRequest_snd (k : Kernel) (m : UnitManager) (u : UnitName) (target : JobTarget)
    (source : RequestSource) :
    (m.submitRequest k u target source).2 = (m.filed k u target source).effectFor u :=
  rfl

theorem get_applyNoneTransition {m : UnitManager} (h : m.get u = some rt) :
    (m.applyNoneTransition u).get v = m.get v ∨ v = u ∧ ∃ t, m.jobs.targetOf u = some t ∧
      JobQueue.action t.target rt.state = some .none ∧
      (m.applyNoneTransition u).get v = some (rt.settle t.target) := by
  unfold applyNoneTransition
  split
  · next he =>
    unfold targetOf
    cases ht : m.jobs.targetOf u with
    | none => exact .inl rfl
    | some t =>
      simp only [Option.map_some, get_modify]
      split
      · next huv =>
        subst huv
        refine .inr ⟨rfl, t, rfl, ?_, by rw [h, Option.map_some]⟩
        simpa [effectFor, h, JobQueue.reconcile, ht] using he
      · exact .inl rfl
  · exact .inl rfl

/-- A request only ever settles its unit, and only a stop does. -/
theorem get_submitRequest (h : m.get u = some rt) (target : JobTarget) (source : RequestSource) :
    (m.submitRequest k u target source).1.get v = m.get v ∨
      v = u ∧ target = .stopped ∧
        (m.submitRequest k u target source).1.get v = some (rt.settle .stopped) := by
  change (m.answered k u target source).get v = _ ∨ _ ∧ _ ∧ (m.answered k u target source).get v = _
  unfold answered
  have hf : (m.filed k u target source).get u = some rt := by rw [filed_get, h]
  by_cases he : (m.filed k u target source).effectFor u = some .none
  · rw [if_pos he]
    rcases get_applyNoneTransition (v := v) hf with hv | ⟨rfl, t, ht, ha, hv⟩
    · exact .inl (hv.trans (filed_get ..))
    · cases hta : t.target with
      | started =>
        refine .inl (hv.trans ?_)
        rw [hta, UnitRuntime.settle_started, h]
      | stopped =>
        refine .inr ⟨rfl, ?_, hv.trans (by rw [hta])⟩
        cases target with
        | stopped => rfl
        | started => simp [filed_started_effect h ht ha] at hta
  · rw [if_neg he]
    exact .inl (filed_get k m u v target source)

@[simp] theorem invalidateGraph_get (m : UnitManager) (u : UnitName) :
    m.invalidateGraph.get u = m.get u :=
  rfl

theorem get_insert (m : UnitManager) (u v : UnitName) (rt : UnitRuntime) :
    ({ m with units := m.units.insert u rt } : UnitManager).get v =
      if u = v then some rt else m.get v :=
  get_put m u v (pure rt)

theorem get_instantiate {m' : UnitManager} (h : m.instantiate u = .ok m') :
    ∃ config, m.expand u = .ok config ∧
      ∀ v, m'.get v = if u = v then some (UnitRuntime.new config) else m.get v := by
  unfold instantiate at h
  split at h
  · cases h
  · next config hc =>
    obtain rfl := Except.ok.inj h
    exact ⟨config, hc, fun v => get_insert m u v _⟩

/-- A request either settles a known unit or makes an instance. -/
theorem get_request (k : Kernel) (m : UnitManager) (u : UnitName) (target : JobTarget)
    (source : RequestSource) (v : UnitName) :
    (m.request k u target source).1.get v = m.get v ∨
    (∃ rt, v = u ∧ target = .stopped ∧ m.get u = some rt ∧
      (m.request k u target source).1.get v = some (rt.settle .stopped)) ∨
    ∃ config, v = u ∧ m.get u = none ∧ m.expand u = .ok config ∧
      (m.request k u target source).1.get v = some (UnitRuntime.new config) := by
  unfold request
  split
  · next rt h =>
    rcases get_submitRequest (k := k) (v := v) h target source with hv | ⟨rfl, ht, hv⟩
    · exact .inl hv
    · exact .inr (.inl ⟨rt, rfl, ht, h, hv⟩)
  · next h =>
    split
    · exact .inl rfl
    · next m' hm' =>
      obtain ⟨config, hc, hget⟩ := get_instantiate hm'
      have hu : m'.get u = some (UnitRuntime.new config) := by rw [hget, if_pos rfl]
      by_cases huv : v = u
      · refine .inr (.inr ⟨config, huv, h, hc, ?_⟩)
        subst huv
        rcases get_submitRequest (k := k) (v := v) hu target source with hv | ⟨-, -, hv⟩
        · exact hv.trans hu
        · exact hv
      · refine .inl ?_
        rcases get_submitRequest (k := k) (v := v) hu target source with hv | ⟨rfl, -⟩
        · rw [hv, hget, if_neg (Ne.symm huv)]
        · exact absurd rfl huv

theorem keeps_submitRequest (k : Kernel) (m : UnitManager) (u : UnitName) (target : JobTarget)
    (source : RequestSource) : Keeps m (m.submitRequest k u target source).1 := by
  have hfiled : Keeps m (m.filed k u target source) :=
    (keeps_forgetSpentTarget m u).trans ⟨rfl, rfl, rfl, rfl, rfl⟩
  have hanswered : Keeps m (m.answered k u target source) := by
    unfold answered
    split
    · exact hfiled.trans (keeps_applyNoneTransition _ u)
    · exact hfiled
  exact hanswered.trans ⟨rfl, rfl, rfl, rfl, rfl⟩

/-- A request for a known unit touches nothing but the units. -/
theorem keeps_request (k : Kernel) (h : m.get u = some rt) (target : JobTarget)
    (source : RequestSource) : Keeps m (m.request k u target source).1 := by
  unfold request
  rw [h]
  exact keeps_submitRequest ..

theorem needsStop_settle (h : needsStop rt = true) (target : JobTarget) :
    needsStop (rt.settle target) = true := by
  unfold UnitRuntime.settle
  split <;> simp_all [needsStop]

theorem touched_stopConflict {m₁ : UnitManager} (hc : m₁.cgroup = m.cgroup) (v other : UnitName) :
    Touched k m (.stopConflicts v) m₁ (m₁.stopConflict k other).1 := by
  unfold stopConflict
  split
  · next hn =>
    obtain ⟨rt, hrt, hns⟩ := (Option.any_eq_true _ _).mp hn
    have hk := keeps_request k hrt .stopped .userStop
    have hget (v : UnitName) := get_request k m₁ other .stopped .userStop v
    have hstate : ∃ rt', (m₁.requestStop k other .userStop).1.get other = some rt' ∧
        needsStop rt' = true := by
      rcases hget other with h | ⟨rt0, -, -, h0, h⟩ | ⟨_, -, h0, -⟩
      · exact ⟨rt, h.trans hrt, hns⟩
      · obtain rfl := Option.some.inj (hrt.symm.trans h0)
        exact ⟨_, h, needsStop_settle hns .stopped⟩
      · cases hrt.symm.trans h0
    have h1 : Touched k m (.stopConflicts v) m₁ (m₁.requestStop k other .userStop).1 := by
      intro w
      rcases hget w with h | ⟨rt0, rfl, -, h0, h⟩ | ⟨_, rfl, h0, -⟩
      · rw [requestStop, h]
        exact Touched.rel_refl _
      · obtain rfl := Option.some.inj (hrt.symm.trans h0)
        rw [requestStop, h, hrt]
        exact .some (.single (.conflictSettle v hns))
      · cases hrt.symm.trans h0
    refine h1.trans (touched_update fun rt' hrt' => ?_)
    obtain ⟨rt'', h'', hn''⟩ := hstate
    obtain rfl := Option.some.inj (hrt'.symm.trans h'')
    have hcg : (m₁.requestStop k other .userStop).1.cgroup = m.cgroup := hk.cgroup.trans hc
    rw [hcg]
    exact .conflictStop v hn''
  · exact .of_get_eq fun _ => rfl

theorem keeps_stopConflict (k : Kernel) (m : UnitManager) (other : UnitName) :
    Keeps m (m.stopConflict k other).1 := by
  unfold stopConflict
  split
  · next hn =>
    obtain ⟨rt, hrt, -⟩ := (Option.any_eq_true _ _).mp hn
    exact (keeps_request k hrt .stopped .userStop).trans (keeps_update ..)
  · exact .refl m

theorem touched_stopConflicts (k : Kernel) (m : UnitManager) (v : UnitName) :
    Touched k m (.stopConflicts v) m (m.stopConflicts k v).1 := by
  unfold stopConflicts
  split
  · exact .of_get_eq fun _ => rfl
  · next rt _ =>
    refine (Runs.foldl_induction (P := fun _ (s : UnitManager × List UnitName) =>
      Touched k m (.stopConflicts v) m s.1 ∧ s.1.cgroup = m.cgroup)
      ⟨.of_get_eq fun _ => rfl, rfl⟩ ?_).1
    intro _ other _ s _ h
    exact ⟨h.1.trans (touched_stopConflict h.2 v other),
      (keeps_stopConflict k s.1 other).cgroup.trans h.2⟩

/-- Re-making a queued start leaves the units as they are. -/
theorem get_dueQueuedStart (k : Kernel) (m : UnitManager) (u : UnitName) (source : RequestSource)
    (v : UnitName) : (m.dueQueuedStart k u source).1.get v = m.get v := by
  unfold dueQueuedStart
  split
  · rfl
  · next hex =>
    split
    · rfl
    · obtain ⟨rt, hrt⟩ : ∃ rt, m.get u = some rt := by
        cases h : m.get u with
        | none => simp [unitExists, h] at hex
        | some rt => exact ⟨rt, rfl⟩
      rcases get_request k { m with queuedStarts := m.queuedStarts.erase u } u .started source v
        with h | ⟨_, -, h0, -⟩ | ⟨_, -, h0, -⟩
      · exact h
      · cases h0
      · exact nomatch hrt.symm.trans h0

theorem get_dueQueuedStarts (k : Kernel) (m : UnitManager) (v : UnitName) :
    (m.dueQueuedStarts k).1.get v = m.get v := by
  unfold dueQueuedStarts
  refine Runs.foldl_induction (P := fun _ (s : UnitManager × List UnitName) =>
    s.1.get v = m.get v) rfl ?_
  intro _ e _ s _ h
  exact (get_dueQueuedStart k s.1 e.1 e.2 v).trans h

/-- A restart leaves the unit to a start, or stops it and may note to start it again. -/
theorem restartUnit_cases (k : Kernel) (m : UnitManager) (u : UnitName) :
    (m.restartUnit k u).1 = m ∨
      (∃ rt, m.get u = some rt ∧ (rt.state = .active ∨ rt.state = .starting ∨
        rt.state = .restartWait ∨ rt.state = .deactivating)) ∧
      ((m.restartUnit k u).1 = m.stopUnit k u ∨
        (m.stopUnit k u).isDeactivating u = true ∧ (m.restartUnit k u).1 =
          (m.stopUnit k u).modify u fun rt => { rt with restartAfterStop := true }) := by
  unfold restartUnit
  cases hrt : m.get u with
  | none => exact .inl rfl
  | some rt =>
    dsimp only
    cases hs : rt.state with
    | activeExited | inactive | failed => exact .inl rfl
    | active | starting | restartWait | deactivating =>
      refine .inr ⟨⟨rt, rfl, by simp [hs]⟩, ?_⟩
      dsimp only
      split
      · next hd => exact .inr ⟨hd, rfl⟩
      · exact .inl rfl

theorem touched_restartUnit (k : Kernel) (m : UnitManager) (u : UnitName) :
    Touched k m (.restartUnit u) m (m.restartUnit k u).1 := by
  rcases restartUnit_cases k m u with heq | ⟨⟨rt, hrt, hs⟩, hstop⟩
  · rw [heq]
    exact .of_get_eq fun _ => rfl
  · have h1 : Touched k m (.restartUnit u) m (m.stopUnit k u) :=
      touched_update fun rt' hrt' => by
        obtain rfl := Option.some.inj (hrt'.symm.trans hrt)
        exact .restartStop hs
    rcases hstop with heq | ⟨hd, heq⟩
    · rw [heq]
      exact h1
    · rw [heq]
      refine h1.trans (touched_modify fun rt' hrt' => .restartFlag ?_)
      simpa [isDeactivating, hrt'] using hd

/-! ### Failures -/

theorem failOwn_isFailed (k : Kernel) (cg : Cgroup) (u : UnitName) (rt : UnitRuntime) :
    (rt.failOwn k cg u).val.state.isFailed = true := by
  rw [UnitRuntime.failOwn_val]
  split
  · assumption
  · rfl

theorem failOwn_config (k : Kernel) (cg : Cgroup) (u : UnitName) (rt : UnitRuntime) :
    (rt.failOwn k cg u).val.config = rt.config := by
  rw [UnitRuntime.failOwn_val]
  split <;> rfl

theorem isFailed_of_failOwn {root : UnitName} {rt : UnitRuntime}
    (hrt : (m.update root (·.failOwn k m.cgroup root)).get root = some rt) :
    rt.state.isFailed = true := by
  rw [get_update, if_pos rfl] at hrt
  obtain ⟨rt0, -, rfl⟩ := Option.map_eq_some_iff.mp hrt
  exact failOwn_isFailed ..

/-- A start that failed leaves its unit failed. -/
theorem isFailed_of_failStart {root : UnitName} {rt : UnitRuntime}
    (hrt : (m.failStart k root).1.get root = some rt) : rt.state.isFailed = true := by
  rw [failStart, get_cascade _ _ _ fun _ => isFailed_of_failOwn] at hrt
  split at hrt
  · obtain ⟨rt0, -, rfl⟩ := Option.map_eq_some_iff.mp hrt
    exact dragDown_isFailed rt0
  · exact isFailed_of_failOwn hrt

/-- Failing a unit touches it and drags down what requires it. -/
theorem touched_fail {op : Op} {root : UnitName} {m₁ : UnitManager} (hop : FailsUnit k m op root)
    (h : Touched k m op m m₁) (hcg : m₁.cgroup = m.cgroup)
    (hother : ∀ x, x ≠ root → m₁.get x = m.get x)
    (hconfig : (m₁.get root).map UnitRuntime.config = (m.get root).map UnitRuntime.config)
    (hfail : ∀ rt, m₁.get root = some rt → Touch k m root op rt (rt.failOwn k m.cgroup root).val) :
    Touched k m op m (m₁.failStart k root).1 := by
  have h1 : Touched k m op m₁ (m₁.update root (·.failOwn k m₁.cgroup root)) :=
    touched_update fun rt hrt => hcg ▸ hfail rt hrt
  refine (h.trans h1).trans fun x => ?_
  rw [failStart, get_cascade _ _ _ fun _ => isFailed_of_failOwn]
  split
  · next hx =>
    cases hget : (m₁.update root (·.failOwn k m₁.cgroup root)).get x with
    | none => exact .none
    | some rt =>
      by_cases hxr : x = root
      · subst hxr
        rw [Option.map_some, dragDown_of_isFailed (isFailed_of_failOwn hget)]
        exact .some .refl
      · have hfails : Fails m.units root x := by
          refine hx.of_agree (fun y hy => ?_) ?_ hxr
          · refine Eq.trans ?_ (hother y hy)
            rw [← get, get_update, if_neg (Ne.symm hy)]
          · refine Eq.trans ?_ hconfig
            rw [← get, get_update, if_pos rfl]
            cases m₁.get root with
            | none => rfl
            | some rt => exact congrArg some (failOwn_config ..)
        rw [get_update, if_neg (Ne.symm hxr), hother x hxr] at hget
        obtain ⟨rt', hrt', hp⟩ := hfails.exists_rt
        obtain rfl := Option.some.inj (hget.symm.trans hrt')
        exact .some (.single (.dragDown hop hxr hfails hget hp))
  · exact Touched.rel_refl _

theorem touched_failStart (k : Kernel) (m : UnitManager) (u : UnitName) :
    Touched k m (.failStart u) m (m.failStart k u).1 :=
  touched_fail (.start u) (.of_get_eq fun _ => rfl) rfl (fun _ _ => rfl) rfl fun rt _ => .failStart rt

theorem touched_reachTarget (k : Kernel) (m : UnitManager) (u : UnitName) :
    Touched k m (.reachTarget u) m (m.reachTarget k u).1 := by
  unfold reachTarget
  split
  · exact .of_get_eq fun _ => rfl
  · next rt hrt =>
    split
    · next hf =>
      exact touched_fail (.target hrt hf) (.of_get_eq fun _ => rfl) rfl (fun _ _ => rfl) rfl
        fun rt _ => .failTarget rt
    · next hf =>
      refine touched_modify fun rt' hrt' => .reachTarget ?_
      obtain rfl := Option.some.inj (hrt.symm.trans hrt')
      simp only [Bool.or_eq_true, not_or, Bool.not_eq_true] at hf
      exact hf.1

/-! ### Exits -/

theorem owner_eq_some {p : UnitRuntime → Bool} (h : m.owner p = some u) :
    ∃ rt, m.get u = some rt ∧ p rt = true := by
  unfold owner at h
  obtain ⟨e, he, rfl⟩ := Option.map_eq_some_iff.mp h
  exact ⟨e.2, Std.ExtTreeMap.mem_toList_iff_getElem?_eq_some.mp (List.mem_of_find?_eq_some he),
    by simpa using List.find?_some he⟩

theorem owner_eq_none {p : UnitRuntime → Bool} (h : m.owner p = none) (hrt : m.get u = some rt) :
    p rt = false := by
  unfold owner at h
  rw [Option.map_eq_none_iff, List.find?_eq_none] at h
  simpa using h (u, rt) (Std.ExtTreeMap.mem_toList_iff_getElem?_eq_some.mpr hrt)

theorem mainExit_config (boot : Bool) (pid : Pid) (outcome : ExitOutcome) (rt : UnitRuntime) :
    (rt.mainExit k boot pid outcome).val.1.config = rt.config := by
  have h := rt.settled_mainExit k boot pid outcome
  generalize (rt.mainExit k boot pid outcome).val = r at h
  cases h <;> rfl

/-- An exit that fails a unit leaves it failed and without a process. -/
theorem mainExit_of_fails {boot : Bool} {pid : Pid} {outcome : ExitOutcome} {rt : UnitRuntime}
    (hf : (rt.mainExit k boot pid outcome).val.2.fails = true) :
    (rt.mainExit k boot pid outcome).val.1.state.isFailed = true ∧
      (rt.mainExit k boot pid outcome).val.1.pid = none := by
  have h := rt.settled_mainExit k boot pid outcome
  generalize (rt.mainExit k boot pid outcome).val = r at h hf
  cases h with
  | state h hd hst => exact ⟨hst hf, rfl⟩
  | wait => cases hf
  | limit => exact ⟨rfl, rfl⟩

theorem touched_onMainExit {pid : Pid} (h : m.get u = some rt) (hp : rt.pid = some pid)
    (ho : m.ExitsMain pid u) (outcome : ExitOutcome) :
    Touched k m (.onChildExit pid outcome) m (m.onMainExit k u rt pid outcome).1 := by
  have put (x : Traced UnitRuntime) (hx : Touch k m u (.onChildExit pid outcome) rt x.val) :
      Touched k m (.onChildExit pid outcome) m (m.put u x) :=
    .of_single (f := fun _ => x.val) (fun v => by rw [get_put, h, Option.map_some])
      fun rt' hrt' => by
        obtain rfl := Option.some.inj (h.symm.trans hrt')
        exact hx
  unfold onMainExit
  split
  · next daemon hd => exact put _ (.daemonStarted hp hd)
  · next hd =>
    have hput := put ⟨(rt.mainExit k m.bootInProgress pid outcome).val.1,
      (rt.mainExit k m.bootInProgress pid outcome).calls⟩ (.mainExit outcome hp)
    dsimp only
    split
    · next hf =>
      refine touched_fail (.exit h ho hd hf) hput rfl (fun x hx => ?_) ?_ fun rt' hrt' => ?_
      · rw [get_put, if_neg (Ne.symm hx)]
      · rw [get_put, if_pos rfl, h]
        exact congrArg some (mainExit_config _ _ _ _)
      · rw [get_put, if_pos rfl] at hrt'
        obtain rfl := Option.some.inj hrt'
        obtain ⟨h1, h2⟩ := mainExit_of_fails hf
        exact .failExit h1 h2
    · exact hput

theorem ExitsMain.get {pid : Pid} (h : m.ExitsMain pid u) :
    ∃ rt, m.get u = some rt ∧ rt.pid = some pid := by
  obtain ⟨rt, hrt, hp⟩ := owner_eq_some h.main
  exact ⟨rt, hrt, by simpa using hp⟩

theorem touched_onChildExit (k : Kernel) (m : UnitManager) (pid : Pid) (outcome : ExitOutcome) :
    Touched k m (.onChildExit pid outcome) m (m.onChildExit k pid outcome).1 := by
  unfold onChildExit
  split
  · next u hu =>
    obtain ⟨rt, hrt, hp⟩ := owner_eq_some hu
    refine touched_update fun rt' hrt' => .finishProbe outcome ?_
    obtain rfl := Option.some.inj (hrt.symm.trans hrt')
    simpa using hp
  · next hprobe =>
    split
    · next u hu =>
      obtain ⟨rt, hrt, hp⟩ := owner_eq_some hu
      refine touched_update fun rt' hrt' => .execStopExit outcome ?_
      obtain rfl := Option.some.inj (hrt.symm.trans hrt')
      simpa using hp
    · next hexec =>
      split
      · exact .of_get_eq fun _ => rfl
      · next u hu =>
        have ho : m.ExitsMain pid u := ⟨hprobe, hexec, hu⟩
        split
        · exact .of_get_eq fun _ => rfl
        · next rt hrt =>
          obtain ⟨rt', hrt', hp⟩ := ho.get
          obtain rfl := Option.some.inj (hrt.symm.trans hrt')
          exact touched_onMainExit hrt hp ho outcome

/-! ### Every operation -/

theorem get_addWithInFlight_new {config : UnitConfig} {inFlight : Bool}
    (h : m.get config.name = none) (v : UnitName) : (m.addWithInFlight config inFlight).1.get v =
      if config.name = v then some (UnitRuntime.new config) else m.get v := by
  unfold addWithInFlight
  rw [h]
  exact get_insert m config.name v _

theorem get_addWithInFlight_known {config : UnitConfig} {inFlight : Bool}
    (h : m.get config.name = some rt) (v : UnitName) :
    (m.addWithInFlight config inFlight).1.get v =
      if config.name = v then some (rt.redefine config inFlight).1 else m.get v := by
  unfold addWithInFlight
  rw [h]
  dsimp only
  split <;> exact get_put m config.name v _

theorem get_pruneRetired (m : UnitManager) (v : UnitName) :
    m.pruneRetired.1.get v = (m.get v).filter fun rt => !rt.prunable := by
  have h : m.pruneRetired.1.units = m.units.filter fun _ rt => !rt.prunable := by
    unfold pruneRetired
    dsimp only
    split <;> rfl
  unfold get
  rw [h, Std.ExtTreeMap.getElem?_filter']

/-- Reading the start order only ever writes the cache. -/
theorem startOrder_fst (m : UnitManager) (u : UnitName) :
    ∃ cache, (m.startOrder u).1 = { m with graphCache := cache } := by
  have hrebuild : ∃ cache, (graph.rebuild m).1 = { m with graphCache := cache } := by
    unfold graph.rebuild
    split <;> exact ⟨_, rfl⟩
  have hgraph : ∃ cache, m.graph.1 = { m with graphCache := cache } := by
    unfold graph
    split
    · split
      · exact ⟨_, rfl⟩
      · exact hrebuild
    · exact hrebuild
  unfold startOrder
  split <;> next h =>
    rw [h] at hgraph
    exact hgraph

theorem get_startOrder (m : UnitManager) (u v : UnitName) : (m.startOrder u).1.get v = m.get v := by
  obtain ⟨cache, h⟩ := m.startOrder_fst u
  rw [h]
  rfl

theorem touched_retire (k : Kernel) (m : UnitManager) (u : UnitName) :
    Touched k m (.retire u) m (m.retire k u) := by
  unfold retire
  dsimp only
  split
  · next rt h =>
    have h' : m.get u = some rt := h
    refine .of_single (u := u) (f := fun rt => (rt.retire k).val) (fun v => ?_) fun rt _ => .retire rt
    rw [invalidateGraph_get, get_put, h', Option.map_some]
    rfl
  · exact .of_get_eq fun _ => rfl

theorem touched_adoptPendingConfig (k : Kernel) (m : UnitManager) (u : UnitName) :
    Touched k m (.adoptPendingConfig u) m (m.adoptPendingConfig u) := by
  unfold adoptPendingConfig
  split
  · next rt h =>
    refine .of_single (u := u) (f := UnitRuntime.adoptPendingConfig) (fun v => ?_)
      fun rt _ => .adopt rt
    rw [invalidateGraph_get, get_put, h, Option.map_some]
    rfl
  · exact .of_get_eq fun _ => rfl

theorem touched_beginSpawnUnit (k : Kernel) (m : UnitManager) (u : UnitName) :
    Touched k m (.beginSpawnUnit u) m (m.beginSpawnUnit k u).1 := by
  unfold beginSpawnUnit
  split
  · exact .of_get_eq fun _ => rfl
  · next rt h =>
    refine .of_single (u := u) (f := fun rt => (rt.beginSpawn k m.cgroup u).val.1) (fun v => ?_)
      fun rt _ => .beginSpawn rt
    rw [get_put, h, Option.map_some]

theorem touched_onNotify (k : Kernel) (m : UnitManager) (u : UnitName)
    (message : UnitRuntime.NotifyMessage) :
    Touched k m (.onNotify u message) m (m.onNotify k u message).1 := by
  unfold onNotify
  split
  · exact .of_get_eq fun _ => rfl
  · next rt h =>
    refine .of_single (u := u) (f := fun rt => (rt.onNotify k message).1) (fun v => ?_)
      fun rt _ => .onNotify message rt
    rw [get_put, h, Option.map_some]
    rfl

/-- The cases of an operation : it makes the entry of a unit, or prunes, or touches. -/
theorem apply_cases (k : Kernel) (m : UnitManager) (op : Op) :
    (∃ u config, Makes m u config op ∧
      ∀ v, (m.apply k op).get v = if u = v then some (UnitRuntime.new config) else m.get v) ∨
    op = .pruneRetired ∨ Touched k m op m (m.apply k op) := by
  cases op with
  | addWithInFlight config inFlight =>
    cases h : m.get config.name with
    | none => exact .inl ⟨_, config, .add inFlight rfl h, get_addWithInFlight_new h⟩
    | some rt =>
      refine .inr (.inr (.of_single (u := config.name) (f := fun _ => (rt.redefine config inFlight).1)
        (fun v => ?_) fun rt' hrt' => ?_))
      · rw [h]
        exact get_addWithInFlight_known h v
      · obtain rfl := Option.some.inj (h.symm.trans hrt')
        exact .redefine inFlight rt rfl
  | instantiate u =>
    have happly : m.apply k (.instantiate u) = (m.instantiate u).toOption.getD m := rfl
    rw [happly]
    cases h : m.instantiate u with
    | error e => exact .inr (.inr (.of_get_eq fun _ => rfl))
    | ok m' =>
      obtain ⟨config, hc, hget⟩ := get_instantiate h
      exact .inl ⟨u, config, .instantiate hc, hget⟩
  | retire u => exact .inr (.inr (touched_retire k m u))
  | pruneRetired => exact .inr (.inl rfl)
  | adoptPendingConfig u => exact .inr (.inr (touched_adoptPendingConfig k m u))
  | startOrder u =>
    exact .inr (.inr (.of_get_eq fun v => get_startOrder m u v))
  | requestStart u source =>
    by_cases hmade : ∃ config, m.get u = none ∧ m.expand u = .ok config ∧
        (m.request k u .started source).1.get u = some (UnitRuntime.new config)
    · obtain ⟨config, hn, hc, hu⟩ := hmade
      refine .inl ⟨u, config, .requestStart source hc hn, fun v => ?_⟩
      split
      · next huv => exact huv ▸ hu
      · next huv =>
        rcases get_request k m u .started source v with h | ⟨_, rfl, -⟩ | ⟨_, rfl, -⟩
        · exact h
        · exact absurd rfl huv
        · exact absurd rfl huv
    · refine .inr (.inr (.of_get_eq fun v => ?_))
      rcases get_request k m u .started source v with h | ⟨_, -, h, -⟩ | ⟨config, rfl, h⟩
      · exact h
      · cases h
      · exact absurd ⟨config, h⟩ hmade
  | requestStop u source =>
    by_cases hmade : ∃ config, m.get u = none ∧ m.expand u = .ok config ∧
        (m.request k u .stopped source).1.get u = some (UnitRuntime.new config)
    · obtain ⟨config, hn, hc, hu⟩ := hmade
      refine .inl ⟨u, config, .requestStop source hc hn, fun v => ?_⟩
      split
      · next huv => exact huv ▸ hu
      · next huv =>
        rcases get_request k m u .stopped source v with h | ⟨_, rfl, -⟩ | ⟨_, rfl, -⟩
        · exact h
        · exact absurd rfl huv
        · exact absurd rfl huv
    · refine .inr (.inr fun v => ?_)
      rcases get_request k m u .stopped source v with h | ⟨rt, rfl, -, hrt, h⟩ | ⟨config, rfl, h⟩
      · exact h.symm ▸ Touched.rel_refl _
      · rw [hrt, apply, requestStop, h]
        exact .some (.single (.settle source rt))
      · exact absurd ⟨config, h⟩ hmade
  | dueQueuedStarts => exact .inr (.inr (.of_get_eq fun v => get_dueQueuedStarts k m v))
  | stopUnit u => exact .inr (.inr (touched_update fun rt _ => .stop rt))
  | restartUnit u => exact .inr (.inr (touched_restartUnit k m u))
  | resetFailed u => exact .inr (.inr (touched_modify fun rt _ => .resetFailed rt))
  | clearStartLimit u => exact .inr (.inr (touched_modify fun rt _ => .clearStartLimit rt))
  | stopConflicts u => exact .inr (.inr (touched_stopConflicts k m u))
  | compressStopTimeouts secs =>
    refine .inr (.inr (.of_map (fun v => ?_) fun v rt => .compress secs rt))
    simp [apply, compressStopTimeouts, get, Std.ExtTreeMap.getElem?_map]
  | failStart u => exact .inr (.inr (touched_failStart k m u))
  | reachTarget u => exact .inr (.inr (touched_reachTarget k m u))
  | beginSpawnUnit u => exact .inr (.inr (touched_beginSpawnUnit k m u))
  | capStartDeadline u deadline =>
    exact .inr (.inr (touched_modify fun rt _ => .capStartDeadline deadline rt))
  | noteConnection u => exact .inr (.inr (touched_modify fun rt _ => .noteConnection rt))
  | onNotify u message => exact .inr (.inr (touched_onNotify k m u message))
  | onChildExit pid outcome => exact .inr (.inr (touched_onChildExit k m pid outcome))
  | dueIdleUnits => exact .inr (.inr (touched_pass fun u rt => .dueIdle rt))
  | dueStartTimeouts => exact .inr (.inr (touched_pass fun u rt => .startTimeout rt))
  | dueKills => exact .inr (.inr (touched_pass fun u rt => .kill rt))
  | dueHealthProbes => exact .inr (.inr (touched_pass fun u rt => .healthProbe rt))
  | dueProbeTimeouts => exact .inr (.inr (touched_pass fun u rt => .probeTimeout rt))
  | dueRestarts => exact .inr (.inr (touched_pass fun u rt => .dueRestart rt))
  | setTemplates | setListeners | setShutdownOrder | setCgroup | setBootInProgress | note =>
    exact .inr (.inr (.of_get_eq fun _ => rfl))

/-! ## Invariants -/

/-- A property of units that new units have and touches keep. -/
theorem inv_apply {P : UnitName → UnitRuntime → Prop} {op : Op}
    (hm : ∀ u rt, m.get u = some rt → P u rt)
    (hnew : ∀ u config, Makes m u config op → P u (UnitRuntime.new config))
    (ht : ∀ u rt rt', Touch k m u op rt rt' → P u rt → P u rt') :
    ∀ u rt, (m.apply k op).get u = some rt → P u rt := by
  intro u rt h
  rcases apply_cases k m op with ⟨w, config, hmk, hget⟩ | rfl | htouch
  · rw [hget u] at h
    split at h
    · next hwu =>
      subst hwu
      obtain rfl := Option.some.inj h
      exact hnew w config hmk
    · exact hm u rt h
  · have hprune : m.pruneRetired.1.get u = some rt := h
    rw [get_pruneRetired, Option.filter_eq_some_iff] at hprune
    exact hm u rt hprune.1
  · obtain ⟨rt0, h0, hr⟩ := htouch.get_some h
    have hp := hm u rt0 h0
    clear h
    induction hr with
    | refl => exact hp
    | tail _ hstep ih => exact ht u _ _ hstep ih

end UnitManager

/-- A property of units holds in every reachable state. -/
theorem Reachable.inv {P : UnitName → UnitRuntime → Prop} {m : UnitManager} (h : Reachable m)
    (hnew : ∀ u config, config.name = u → config.kind = u.ty → P u (UnitRuntime.new config))
    (ht : ∀ k m u op rt rt', op.Promised → Touch k m u op rt rt' → P u rt → P u rt') :
    ∀ u rt, m.get u = some rt → P u rt := by
  induction h with
  | new =>
    intro u rt h
    simp [UnitManager.get] at h
  | step k op _ hp ih =>
    exact UnitManager.inv_apply ih (fun u config hmk => hnew u config hmk.name (hmk.kind hp))
      fun u rt rt' => ht k _ u op rt rt' hp

/-- A unit is filed under the name of its definition, which has the type the name says; so
does the definition it waits for. -/
structure Filed (u : UnitName) (rt : UnitRuntime) : Prop where
  name : rt.config.name = u
  kind : rt.config.kind = u.ty
  pending : ∀ c, rt.pendingConfig = some c → c.name = u ∧ c.kind = u.ty

theorem Filed.of_eq {u : UnitName} {rt rt' : UnitRuntime} (h : Filed u rt)
    (hc : rt'.config = rt.config) (hp : rt'.pendingConfig = rt.pendingConfig) : Filed u rt' :=
  ⟨hc ▸ h.name, hc ▸ h.kind, fun c hpc => h.pending c (hp ▸ hpc)⟩

/-- What a touch does to the definition of a unit. -/
inductive Redefined (u : UnitName) (op : Op) (rt : UnitRuntime) : UnitRuntime → Prop
  | kept {rt' : UnitRuntime} (hc : rt'.config = rt.config)
    (hp : rt'.pendingConfig = rt.pendingConfig) (hr : rt'.retired = rt.retired) :
    Redefined u op rt rt'
  | redefined {config : UnitConfig} {inFlight : Bool} (hop : op = .addWithInFlight config inFlight)
    (hn : config.name = u) : Redefined u op rt (rt.redefine config inFlight).1
  | adopted (hop : op = .adoptPendingConfig u) : Redefined u op rt rt.adoptPendingConfig
  | retired (hop : op = .retire u) {rt' : UnitRuntime} (hc : rt'.config = rt.config)
    (hp : rt'.pendingConfig = rt.pendingConfig) (hr : rt'.retired = true) : Redefined u op rt rt'
  | compressed {secs : ℕ} (hop : op = .compressStopTimeouts secs) :
    Redefined u op rt (rt.compressStopTimeout secs)

theorem redefined_of_touch {k : Kernel} {m : UnitManager} {u : UnitName} {op : Op}
    {rt rt' : UnitRuntime} (ht : Touch k m u op rt rt') : Redefined u op rt rt' := by
  cases ht with
  | redefine inFlight _ hu => exact .redefined rfl hu
  | adopt => exact .adopted rfl
  | compress secs => exact .compressed rfl
  | retire => exact .retired rfl rfl rfl rfl
  | restartFlag | resetFailed | clearStartLimit | reachTarget | capStartDeadline
  | noteConnection | daemonStarted => exact .kept rfl rfl rfl
  | settle | conflictSettle =>
    rcases rt.settle_eq .stopped with heq | ⟨heq, -⟩ <;> rw [heq] <;> exact .kept rfl rfl rfl
  | stop | restartStop | conflictStop =>
    have hs := rt.stopped_stop k m.cgroup u
    generalize (rt.stop k m.cgroup u).val = rt' at hs
    cases hs <;> exact .kept rfl rfl rfl
  | failStart | failTarget | failExit =>
    rw [UnitRuntime.failOwn_val]
    split <;> exact .kept rfl rfl rfl
  | dragDown =>
    unfold UnitRuntime.dragDown
    split <;> exact .kept rfl rfl rfl
  | beginSpawn =>
    have hs := rt.spawned_beginSpawn k m.cgroup u
    generalize (rt.beginSpawn k m.cgroup u).val.1 = rt' at hs
    cases hs with
    | running | kept | noProcess => exact .kept rfl rfl rfl
    | spawned _ _ _ _ _ _ _ hc hpc hr => exact .kept hc hpc hr
  | onNotify message =>
    rcases rt.onNotify_eq k message with ⟨_, heq⟩ | ⟨-, _, _, _, _, -, heq⟩ <;>
      exact heq ▸ .kept rfl rfl rfl
  | finishProbe outcome =>
    have hs := rt.probed_finishProbe k m.cgroup u outcome
    generalize (rt.finishProbe k m.cgroup u outcome).val = rt' at hs
    cases hs <;> exact .kept rfl rfl rfl
  | execStopExit outcome =>
    rw [UnitRuntime.execStopExit_val]
    exact .kept rfl rfl rfl
  | @mainExit pid outcome _ hp =>
    have hs := rt.settled_mainExit k m.bootInProgress pid outcome
    generalize (rt.mainExit k m.bootInProgress pid outcome).val = r at hs
    cases hs <;> exact .kept rfl rfl rfl
  | dueIdle =>
    obtain ⟨_, heq⟩ := rt.dueIdle_eq k
    exact heq ▸ .kept rfl rfl rfl
  | startTimeout =>
    obtain ⟨_, _, heq⟩ := rt.startTimeout_eq k m.cgroup u
    exact heq ▸ .kept rfl rfl rfl
  | kill =>
    rcases rt.kill_eq k m.cgroup u with ⟨_, _, heq⟩ | ⟨-, -, heq⟩ <;> exact heq ▸ .kept rfl rfl rfl
  | healthProbe =>
    obtain ⟨_, _, _, heq, -⟩ := rt.healthProbe_eq k u
    exact heq ▸ .kept rfl rfl rfl
  | probeTimeout =>
    obtain ⟨_, heq⟩ := rt.probeTimeout_eq k
    exact heq ▸ .kept rfl rfl rfl
  | dueRestart =>
    obtain ⟨_, heq, -⟩ := rt.dueRestart_eq k
    exact heq ▸ .kept rfl rfl rfl

theorem filed_touch {k : Kernel} {m : UnitManager} {u : UnitName} {op : Op} {rt rt' : UnitRuntime}
    (hop : op.Promised) (ht : Touch k m u op rt rt') (h : Filed u rt) : Filed u rt' := by
  cases redefined_of_touch ht with
  | kept hc hp => exact h.of_eq hc hp
  | retired _ hc hp => exact h.of_eq hc hp
  | compressed => exact ⟨h.name, h.kind, h.pending⟩
  | @redefined config inFlight hadd hu =>
    subst hadd
    obtain ⟨c, b, p, heq, hc, hp⟩ := rt.redefine_eq config inFlight
    have hnew : config.name = u ∧ config.kind = u.ty := ⟨hu, hop.trans (congrArg UnitName.ty hu)⟩
    rw [heq]
    refine ⟨?_, ?_, fun c' hc' => ?_⟩
    · rcases hc with rfl | rfl
      · exact h.name
      · exact hnew.1
    · rcases hc with rfl | rfl
      · exact h.kind
      · exact hnew.2
    · rcases hp with rfl | rfl
      · cases hc'
      · obtain rfl := Option.some.inj hc'
        exact hnew
  | adopted =>
    rcases rt.adoptPendingConfig_eq with heq | ⟨c, b, hc, -, heq⟩
    · rwa [heq]
    · rw [heq]
      exact ⟨(h.pending c hc).1, (h.pending c hc).2, fun c' hc' => by cases hc'⟩

theorem Reachable.filed {m : UnitManager} (h : Reachable m) {u : UnitName} {rt : UnitRuntime}
    (hrt : m.get u = some rt) : Filed u rt :=
  h.inv (P := Filed) (fun _ _ hn hk => ⟨hn, hk, fun c hc => by cases hc⟩)
    (fun _ _ _ _ _ _ hop ht => filed_touch hop ht) u rt hrt

/-! ## Runs under a condition -/

/-- One operation, as its caller promises and under the condition `G`. -/
def Guarded.Step (G : Kernel → UnitManager → Op → Prop) (m m' : UnitManager) : Prop :=
  ∃ k op, op.Promised ∧ G k m op ∧ m' = m.apply k op

/-- A run each of whose steps meets `G`. -/
def Guarded (G : Kernel → UnitManager → Op → Prop) : UnitManager → UnitManager → Prop :=
  ReflTransGen (Guarded.Step G)

/-- A run goes on with an operation that meets the condition. -/
theorem Guarded.snoc {G : Kernel → UnitManager → Op → Prop} {m m' : UnitManager}
    (h : Guarded G m m') (k : Kernel) (op : Op) (hp : op.Promised) (hg : G k m' op) :
    Guarded G m (m'.apply k op) :=
  h.tail ⟨k, op, hp, hg, rfl⟩

theorem Guarded.mono {G G' : Kernel → UnitManager → Op → Prop} {m m' : UnitManager}
    (h : Guarded G m m') (hG : ∀ k m op, G k m op → G' k m op) : Guarded G' m m' := by
  induction h with
  | refl => exact .refl
  | tail _ hstep ih =>
    obtain ⟨k, op, hp, hg, hm⟩ := hstep
    exact ih.tail ⟨k, op, hp, hG k _ op hg, hm⟩

theorem Guarded.reachable {G : Kernel → UnitManager → Op → Prop} {m m' : UnitManager}
    (h : Guarded G m m') (hm : Reachable m) : Reachable m' := by
  induction h with
  | refl => exact hm
  | tail _ hstep ih =>
    obtain ⟨k, op, hp, -, rfl⟩ := hstep
    exact .step k op ih hp

/-- A property of units that a run under a condition keeps. -/
theorem Guarded.inv {G : Kernel → UnitManager → Op → Prop} {P : UnitName → UnitRuntime → Prop}
    {m m' : UnitManager} (h : Guarded G m m') (hm : ∀ u rt, m.get u = some rt → P u rt)
    (hnew : ∀ u config, config.name = u → config.kind = u.ty → P u (UnitRuntime.new config))
    (ht : ∀ k m u op rt rt', op.Promised → G k m op → Touch k m u op rt rt' → P u rt → P u rt') :
    ∀ u rt, m'.get u = some rt → P u rt := by
  induction h with
  | refl => exact hm
  | tail _ hstep ih =>
    obtain ⟨k, op, hp, hg, rfl⟩ := hstep
    exact UnitManager.inv_apply ih (fun u config hmk => hnew u config hmk.name (hmk.kind hp))
      fun u rt rt' => ht k _ u op rt rt' hp hg

end Rinit
