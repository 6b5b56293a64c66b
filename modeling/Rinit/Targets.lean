import Rinit.Soft

/-!
# Starts that turn into stops

A start that does not outrank the stop on file for its unit is answered with what the stop
asks for. `startEffect_of_sound` : this is never a stop, in every run that keeps the stops on
file to units that are down or on their way down (`StopsHold`). The steps that do not are
named by `Deed.Sound` : a stop of a unit that is being restarted, or one whose signal is
refused; a restart of a unit that is being stopped; and a spawn, or a target that is reached,
with a stop on file. `not_startEffect_restarted` is the second of these.
-/

namespace Rinit

open Relation

variable {k : Kernel} {m m' : UnitManager} {u v : UnitName} {op : Op} {rt rt' : UnitRuntime}
  {t : MergedTarget}

/-! ## Units that are down for good -/

/-- The unit is down, or on its way down and not meant to come back. -/
structure Halted (rt : UnitRuntime) : Prop where
  active : rt.state ≠ .active
  starting : rt.state ≠ .starting
  restartWait : rt.state ≠ .restartWait
  process : rt.pid.isSome = true →
    rt.probePid = none ∧ (rt.state = .deactivating → rt.restartAfterStop = false)

namespace Halted

theorem of_eq (h : Halted rt) (hs : rt'.state = rt.state) (hp : rt'.pid = rt.pid)
    (hf : rt'.restartAfterStop = rt.restartAfterStop) (hq : rt'.probePid = rt.probePid) :
    Halted rt' where
  active := hs ▸ h.active
  starting := hs ▸ h.starting
  restartWait := hs ▸ h.restartWait
  process hp' := by
    rw [hq, hs, hf]
    exact h.process (hp ▸ hp')

theorem of_inactive (hs : rt.state = .inactive) (hq : rt.pid.isSome = true → rt.probePid = none) :
    Halted rt where
  active := by simp [hs]
  starting := by simp [hs]
  restartWait := by simp [hs]
  process hp := ⟨hq hp, by simp [hs]⟩

theorem of_failed (hs : rt.state.isFailed = true) (hp : rt.pid = none) : Halted rt := by
  obtain ⟨reason, hs⟩ := UnitState.isFailed_iff.mp hs
  exact ⟨by simp [hs], by simp [hs], by simp [hs], by simp [hp]⟩

theorem settle (h : Halted rt) (target : JobTarget) : Halted (rt.settle target) := by
  rcases rt.settle_eq target with heq | ⟨heq, -⟩ <;> rw [heq]
  · exact h
  · exact of_inactive rfl fun hp => (h.process hp).1

theorem failOwn (h : Halted rt) (cg : Cgroup) : Halted (rt.failOwn k cg u).val := by
  rw [UnitRuntime.failOwn_val]
  split
  · exact h.of_eq rfl rfl rfl rfl
  · exact of_failed rfl rfl

/-- A stop halts the unit, if it is not being restarted and the signal is not refused. -/
theorem of_stop (cg : Cgroup) (hprobing : Probing rt) (hr : ¬Restarting rt)
    (hsig : ¬Halted rt → ∀ pid, rt.pid = some pid → k.Signals pid sigTerm) :
    Halted (rt.stop k cg u).val := by
  have hstate : Halted rt ∨ (rt.stop k cg u).val.state = .inactive ∨
      (rt.stop k cg u).val.state = .deactivating := by
    by_cases h : Halted rt
    · exact .inl h
    · exact .inr (stop_state (hsig h))
  have hs := rt.stopped_stop k cg u
  generalize (rt.stop k cg u).val = rt' at hs hstate
  cases hs with
  | busy hd =>
    exact ⟨by simp [hd], by simp [hd], by simp [hd], fun hp =>
      ⟨hprobing hp (by simp [hd]), fun _ => Bool.eq_false_iff.mpr fun hf => hr ⟨hd, hf, hp⟩⟩⟩
  | gone _ hp => exact of_inactive rfl (by simp [hp])
  | delivered => exact ⟨by simp, by simp, by simp, fun _ => ⟨rfl, fun _ => rfl⟩⟩
  | refused hd hp =>
    rcases hstate with h | h | h
    · exact ⟨h.active, h.starting, h.restartWait, fun _ => ⟨rfl, fun _ => rfl⟩⟩
    · exact of_inactive h fun _ => rfl
    · exact absurd h hd

end Halted

/-- The exit of a unit that is down leaves it down. -/
theorem UnitRuntime.settleExit_of_halted (boot : Bool) (outcome : ExitOutcome) (h : Halted rt)
    (hf : rt.state = .deactivating → rt.restartAfterStop = false) :
    rt.settleExit k boot outcome = ({ rt with state := .inactive }, .exited .inactive false) := by
  by_cases hd : rt.state = .deactivating
  · exact settleExit_of_deactivating k rt boot outcome hd (hf hd)
  · unfold settleExit
    rw [if_neg hd]
    dsimp only
    split
    · rfl
    · next t ht =>
      rcases rt.transition_exitEvent ht with ⟨hs, -⟩ | ⟨hs, -⟩
      · exact absurd hs h.starting
      · exact absurd hs h.active

/-- Only a restart, a spawn or a target that is reached brings a halted unit back. -/
theorem halted_touch (hr : op ≠ .restartUnit u) (hb : op ≠ .beginSpawnUnit u)
    (ht : op ≠ .reachTarget u) (htouch : Touch k m u op rt rt') (h : Halted rt) : Halted rt' := by
  cases htouch with
  | restartStop | restartFlag => exact absurd rfl hr
  | beginSpawn => exact absurd rfl hb
  | failTarget | reachTarget => exact absurd rfl ht
  | @redefine config inFlight =>
    obtain ⟨_, _, _, heq, -⟩ := rt.redefine_eq config inFlight
    rw [heq]
    exact h.of_eq rfl rfl rfl rfl
  | adopt =>
    rcases rt.adoptPendingConfig_eq with heq | ⟨_, _, -, -, heq⟩ <;> rw [heq]
    · exact h
    · exact h.of_eq rfl rfl rfl rfl
  | retire => exact ⟨h.active, h.starting, h.restartWait, fun _ => ⟨rfl, fun _ => rfl⟩⟩
  | settle | conflictSettle => exact h.settle .stopped
  | stop | conflictStop =>
    refine .of_stop m.cgroup (fun hp _ => (h.process hp).1) (fun hr => ?_) fun hn => absurd h hn
    exact absurd hr.2.1 (by simp [(h.process hr.2.2).2 hr.1])
  | resetFailed =>
    by_cases hf : rt.state.isFailed = true
    · exact .of_inactive (if_pos hf) fun hp => (h.process hp).1
    · exact h.of_eq (if_neg hf) rfl rfl rfl
  | clearStartLimit | compress | capStartDeadline | noteConnection => exact h.of_eq rfl rfl rfl rfl
  | failStart | failExit => exact h.failOwn m.cgroup
  | dragDown _ _ _ _ hp =>
    unfold UnitRuntime.dragDown
    split
    · exact h
    · exact .of_failed rfl hp
  | onNotify message =>
    rcases rt.onNotify_eq k message with ⟨_, heq⟩ | ⟨hs, -⟩
    · rw [heq]
      exact h.of_eq rfl rfl rfl rfl
    · exact absurd hs h.starting
  | finishProbe outcome hprobe =>
    have hs := rt.probed_finishProbe k m.cgroup u outcome
    generalize (rt.finishProbe k m.cgroup u outcome).val = rt' at hs
    cases hs with
    | noted =>
      exact ⟨h.active, h.starting, h.restartWait, fun hp => ⟨rfl, (h.process hp).2⟩⟩
    | stopping hp | gone hp => exact nomatch (h.process hp).1.symm.trans hprobe
  | execStopExit =>
    rw [UnitRuntime.execStopExit_val]
    exact h.of_eq rfl rfl rfl rfl
  | daemonStarted _ hd =>
    refine absurd ?_ h.starting
    by_contra hs
    simp [UnitManager.forkedDaemon, UnitManager.forks, hs] at hd
  | mainExit outcome hp =>
    rw [UnitRuntime.mainExit_val, UnitRuntime.settleExit_of_halted]
    · exact .of_inactive rfl fun _ => rfl
    · exact ⟨h.active, h.starting, h.restartWait, fun hp => by cases hp⟩
    · exact (h.process (by simp [hp])).2
  | dueIdle =>
    obtain ⟨_, heq⟩ := rt.dueIdle_eq k
    rw [heq]
    exact h.of_eq rfl rfl rfl rfl
  | startTimeout =>
    obtain ⟨_, _, heq⟩ := rt.startTimeout_eq k m.cgroup u
    rw [heq]
    exact h.of_eq rfl rfl rfl rfl
  | kill =>
    rcases rt.kill_eq k m.cgroup u with ⟨_, _, heq⟩ | ⟨-, hp, heq⟩ <;> rw [heq]
    · exact h.of_eq rfl rfl rfl rfl
    · exact .of_inactive rfl (by simp [hp])
  | healthProbe =>
    obtain ⟨_, _, _, heq, hq⟩ := rt.healthProbe_eq k u
    rw [heq]
    exact h.of_eq rfl rfl rfl (hq.resolve_right h.active)
  | probeTimeout =>
    obtain ⟨_, heq⟩ := rt.probeTimeout_eq k
    rw [heq]
    exact h.of_eq rfl rfl rfl rfl
  | dueRestart =>
    obtain ⟨_, heq, -⟩ := rt.dueRestart_eq k
    rw [heq]
    exact h.of_eq rfl rfl rfl rfl

/-! ## The targets on file -/

namespace UnitManager

/-- Only units that are down for good have a stop on file. -/
def StopsHold (m : UnitManager) : Prop :=
  ∀ u rt, m.get u = some rt → m.targetOf u = some .stopped → Halted rt

theorem jobs_applyNoneTransition (m : UnitManager) (u : UnitName) :
    (m.applyNoneTransition u).jobs = m.jobs := by
  unfold applyNoneTransition
  split
  · split
    · exact (sameRequests_update ..).jobs
    · rfl
  · rfl

theorem jobs_submitRequest (k : Kernel) (m : UnitManager) (u : UnitName) (target : JobTarget)
    (source : RequestSource) :
    (m.submitRequest k u target source).1.jobs = (m.filed k u target source).jobs := by
  change (m.answered k u target source).jobs = _
  unfold answered
  split
  · exact jobs_applyNoneTransition ..
  · rfl

theorem forgetSpentTarget_targetOf (h : (m.forgetSpentTarget u).jobs.targetOf v = some t) :
    m.jobs.targetOf v = some t := by
  unfold forgetSpentTarget at h
  split at h
  · rw [JobQueue.targetOf_forget] at h
    split at h
    · cases h
    · exact h
  · exact h

/-- A request leaves the targets of the other units alone. -/
theorem targetOf_submitRequest_of_ne (hv : v ≠ u) (target : JobTarget) (source : RequestSource) :
    (m.submitRequest k u target source).1.targetOf v = m.targetOf v := by
  unfold targetOf
  rw [jobs_submitRequest]
  refine congrArg _ ((JobQueue.targetOf_submit_of_ne _ ⟨u, target, source, k.now⟩ hv).trans ?_)
  unfold forgetSpentTarget
  split
  · exact (JobQueue.targetOf_forget ..).trans (if_neg hv)
  · rfl

theorem targetOf_request_of_ne (hv : v ≠ u) (target : JobTarget) (source : RequestSource) :
    (m.request k u target source).1.targetOf v = m.targetOf v := by
  unfold request
  split
  · exact targetOf_submitRequest_of_ne hv target source
  · split
    · rfl
    · next m' hm' =>
      rw [targetOf_submitRequest_of_ne hv, targetOf, (sameRequests_instantiate hm').jobs]
      rfl

/-- A start never files a stop. -/
theorem stopped_of_filed (source : RequestSource) {t : MergedTarget}
    (ht : (m.filed k u .started source).jobs.targetOf u = some t) (hs : t.target = .stopped) :
    m.targetOf u = some .stopped := by
  rw [filed_targetOf] at ht
  obtain rfl := Option.some.inj ht
  cases hold : (m.forgetSpentTarget u).jobs.targetOf u with
  | none =>
    rw [hold] at hs
    cases hs
  | some current =>
    rw [hold, JobQueue.winner] at hs
    split at hs
    · cases hs
    · rw [targetOf, forgetSpentTarget_targetOf hold, Option.map_some, hs]

theorem stopped_of_submitRequest (source : RequestSource)
    (h : (m.submitRequest k u .started source).1.targetOf v = some .stopped) :
    m.targetOf v = some .stopped := by
  by_cases hv : v = u
  · subst hv
    rw [targetOf, jobs_submitRequest] at h
    obtain ⟨t, ht, hs⟩ := Option.map_eq_some_iff.mp h
    exact stopped_of_filed source ht hs
  · rwa [targetOf_submitRequest_of_ne hv] at h

theorem stopped_of_requestStart (source : RequestSource)
    (h : (m.requestStart k u source).1.targetOf v = some .stopped) :
    m.targetOf v = some .stopped := by
  rcases requestStart_cases k m u source with
    ⟨rt, -, heq⟩ | ⟨e, -, -, heq⟩ | ⟨config, m', -, -, hm', -, heq⟩ <;> rw [heq] at h
  · exact stopped_of_submitRequest source h
  · exact h
  · have h := stopped_of_submitRequest source h
    rwa [targetOf, (sameRequests_instantiate hm').jobs] at h

/-- What a start is answered with, if the stops on file hold. -/
inductive StartEffect : Option Effect → Prop
  | waits : StartEffect none
  | none : StartEffect (some .none)
  | spawnProcess : StartEffect (some .spawnProcess)
  | cancelBackoffAndStart : StartEffect (some .cancelBackoffAndStart)
  | clearStartLimitAndStart : StartEffect (some .clearStartLimitAndStart)

theorem startEffect_action {target : JobTarget} (h : target = .stopped → Halted rt) :
    StartEffect (JobQueue.action target rt.state) := by
  cases target with
  | started => cases rt.state <;> constructor
  | stopped =>
    have h := h rfl
    cases hs : rt.state with
    | active => exact absurd hs h.active
    | starting => exact absurd hs h.starting
    | restartWait => exact absurd hs h.restartWait
    | inactive | activeExited | deactivating | failed => constructor

theorem startEffect_submitRequest (hm : StopsHold m) (hrt : m.get u = some rt)
    (source : RequestSource) : StartEffect (m.submitRequest k u .started source).2 := by
  have htarget := filed_targetOf k m u .started source
  rw [submitRequest_snd, effectFor, filed_get, hrt, Option.bind_some, JobQueue.reconcile, htarget,
    Option.bind_some]
  exact startEffect_action fun hs => hm u rt hrt (stopped_of_filed source htarget hs)

theorem startEffect_requestStart (hm : StopsHold m) (source : RequestSource) :
    StartEffect (m.requestStart k u source).2 := by
  rcases requestStart_cases k m u source with
    ⟨rt, hrt, heq⟩ | ⟨e, -, -, heq⟩ | ⟨config, m', -, -, hm', hget, heq⟩ <;> rw [heq]
  · exact startEffect_submitRequest hm hrt source
  · exact .waits
  · have htarget := filed_targetOf k m' u .started source
    rw [submitRequest_snd, effectFor, filed_get, hget, Option.bind_some, JobQueue.reconcile,
      htarget, Option.bind_some]
    exact startEffect_action fun _ => .of_inactive rfl fun hp => by cases hp

/-! ## Steps that keep the stops on file right -/

theorem StopsHold.of_targets (hm : StopsHold m)
    (ht : ∀ v, m'.targetOf v = some .stopped → m.targetOf v = some .stopped)
    (hget : ∀ v rt', m'.get v = some rt' → m'.targetOf v = some .stopped →
      m.get v = some rt' ∨ Halted rt') : StopsHold m' := by
  intro v rt' hrt' hs
  rcases hget v rt' hrt' hs with h | h
  · exact hm v rt' h (ht v hs)
  · exact h

theorem halted_new (config : UnitConfig) : Halted (UnitRuntime.new config) :=
  .of_inactive rfl fun hp => by cases hp

theorem stopsHold_requestStart (hm : StopsHold m) (source : RequestSource) :
    StopsHold (m.requestStart k u source).1 := by
  refine hm.of_targets (fun v => stopped_of_requestStart source) fun v rt' hrt' _ => ?_
  rcases get_request k m u .started source v with h | ⟨_, -, h, -⟩ | ⟨config, -, -, -, h⟩
  · exact .inl (h.symm.trans hrt')
  · cases h
  · obtain rfl := Option.some.inj (h.symm.trans hrt')
    exact .inr (halted_new config)

theorem stopsHold_dueQueuedStarts (hm : StopsHold m) : StopsHold (m.dueQueuedStarts k).1 := by
  unfold dueQueuedStarts
  refine Runs.foldl_induction (P := fun _ (s : UnitManager × List UnitName) => StopsHold s.1) hm ?_
  intro _ e _ s _ hs
  dsimp only
  unfold dueQueuedStart
  split
  · exact hs
  · split
    · exact hs
    · exact stopsHold_requestStart
        (m := { s.1 with queuedStarts := s.1.queuedStarts.erase e.1 }) hs e.2

/-- The unit can be stopped for good : it is not being restarted, and what has to be signalled
can be. -/
def Stoppable (k : Kernel) (m : UnitManager) (u : UnitName) : Prop :=
  ∀ rt, m.get u = some rt → ¬Restarting rt ∧
    (¬Halted rt → ∀ pid, rt.pid = some pid → k.Signals pid sigTerm)

theorem halted_settle_stop (cg : Cgroup) (hprobing : Probing rt) (hr : ¬Restarting rt)
    (hsig : ¬Halted rt → ∀ pid, rt.pid = some pid → k.Signals pid sigTerm) :
    Halted ((rt.settle .stopped).stop k cg u).val := by
  rcases rt.settle_eq .stopped with heq | ⟨heq, hs⟩ <;> rw [heq]
  · exact .of_stop cg hprobing hr hsig
  · -- what is down has no probe, and stays down whatever becomes of the signal
    have hprobe (hp : rt.pid.isSome = true) : rt.probePid = none := by
      refine hprobing hp fun hact => ?_
      rw [hact] at hs
      simp [UnitState.isFailed] at hs
    have hhalted : Halted { rt with state := .inactive } := .of_inactive rfl hprobe
    exact .of_stop cg (fun hp _ => hprobe hp) (fun h => by cases h.1) fun hn => absurd hhalted hn

/-- A stop for a conflict. -/
theorem stopsHold_stopConflict {m₁ : UnitManager} (hm : Reachable m) (hw : Stoppable k m u)
    (hs : StopsHold m₁) (hsame : ∀ v, m₁.get v = m.get v ∨ ∃ rt, m₁.get v = some rt ∧ Halted rt) :
    StopsHold (m₁.stopConflict k u).1 ∧
      ∀ v, (m₁.stopConflict k u).1.get v = m.get v ∨
        ∃ rt, (m₁.stopConflict k u).1.get v = some rt ∧ Halted rt := by
  unfold stopConflict
  split
  · next hneeds =>
    obtain ⟨rt, hrt, -⟩ := (Option.any_eq_true _ _).mp hneeds
    have hgood : Probing rt ∧ ¬Restarting rt ∧
        (¬Halted rt → ∀ pid, rt.pid = some pid → k.Signals pid sigTerm) := by
      rcases hsame u with h | ⟨rt', hrt', h⟩
      · exact ⟨hm.probing (h.symm.trans hrt), hw rt (h.symm.trans hrt)⟩
      · obtain rfl := Option.some.inj (hrt.symm.trans hrt')
        refine ⟨fun hp _ => (h.process hp).1, fun hr => ?_, fun hn => absurd h hn⟩
        exact absurd hr.2.1 (by simp [(h.process hr.2.2).2 hr.1])
    have hget (v : UnitName) (hv : v ≠ u) :
        ((m₁.requestStop k u .userStop).1.stopUnit k u).get v = m₁.get v := by
      rw [stopUnit, get_update, if_neg (Ne.symm hv)]
      rcases get_request k m₁ u .stopped .userStop v with h | ⟨_, h, -⟩ | ⟨_, h, -⟩
      · exact h
      · exact absurd h hv
      · exact absurd h hv
    have hgetu : ∃ rt', ((m₁.requestStop k u .userStop).1.stopUnit k u).get u = some rt' ∧
        Halted rt' := by
      rw [stopUnit, get_update, if_pos rfl]
      rcases get_request k m₁ u .stopped .userStop u with h | ⟨rt', -, -, h', h⟩ | ⟨_, -, h', -⟩
      · rw [requestStop, h, hrt]
        exact ⟨_, rfl, .of_stop _ hgood.1 hgood.2.1 hgood.2.2⟩
      · obtain rfl := Option.some.inj (hrt.symm.trans h')
        rw [requestStop, h]
        exact ⟨_, rfl, halted_settle_stop _ hgood.1 hgood.2.1 hgood.2.2⟩
      · cases hrt.symm.trans h'
    constructor
    · intro v rt' hrt' ht
      by_cases hv : v = u
      · subst hv
        obtain ⟨rt'', hrt'', hhalted⟩ := hgetu
        obtain rfl := Option.some.inj (hrt''.symm.trans hrt')
        exact hhalted
      · refine hs v rt' ((hget v hv).symm.trans hrt') ?_
        rw [← ht]
        dsimp only
        rw [stopUnit, targetOf, targetOf, (sameRequests_update ..).jobs]
        exact (targetOf_request_of_ne hv .stopped .userStop).symm
    · intro v
      by_cases hv : v = u
      · subst hv
        exact .inr hgetu
      · dsimp only
        rw [hget v hv]
        exact hsame v
  · exact ⟨hs, hsame⟩

theorem stopsHold_stopConflicts (hm : Reachable m) (hs : StopsHold m)
    (hw : ∀ rt, m.get u = some rt → ∀ other ∈ rt.config.deps.conflicts, Stoppable k m other) :
    StopsHold (m.stopConflicts k u).1 := by
  unfold stopConflicts
  split
  · exact hs
  · next rt hrt =>
    refine (Runs.foldl_induction (P := fun _ (s : UnitManager × List UnitName) => StopsHold s.1 ∧
      ∀ v, s.1.get v = m.get v ∨ ∃ rt, s.1.get v = some rt ∧ Halted rt)
      ⟨hs, fun _ => .inl rfl⟩ ?_).1
    intro done other rest s hl ih
    have hmem : other ∈ rt.config.deps.conflicts := by
      rw [hl]
      simp
    exact stopsHold_stopConflict hm (hw rt hrt other hmem) ih.1 ih.2

/-- A restart of a unit with a stop on file, which is not on its way down. -/
theorem halted_restartUnit (h : Halted rt) (hrt : m.get u = some rt)
    (hd : ¬(rt.state = .deactivating ∧ rt.pid.isSome = true)) :
    ∃ rt', (m.restartUnit k u).1.get u = some rt' ∧ Halted rt' := by
  unfold restartUnit
  rw [hrt]
  dsimp only
  cases hs : rt.state with
  | activeExited | inactive | failed => exact ⟨rt, hrt, h⟩
  | active => exact absurd hs h.active
  | starting => exact absurd hs h.starting
  | restartWait => exact absurd hs h.restartWait
  | deactivating =>
    have hp : rt.pid = none := by simpa [hs] using hd
    have hget : (m.stopUnit k u).get u = some rt := by
      rw [stopUnit, get_update, if_pos rfl, hrt, Option.map_some]
      unfold UnitRuntime.stop
      rw [if_pos hs]
      rfl
    dsimp only
    split
    · refine ⟨{ rt with restartAfterStop := true }, ?_, ?_⟩
      · rw [get_modify, if_pos rfl, hget, Option.map_some]
      · exact ⟨h.active, h.starting, h.restartWait, by simp [hp]⟩
    · exact ⟨rt, hget, h⟩

/-- An operation that files no request and brings no unit with a stop on file back. -/
theorem stopsHold_apply (hs : StopsHold m) (hjobs : (m.apply k op).jobs = m.jobs)
    (hr : ∀ v rt, op = .restartUnit v → m.get v = some rt → m.targetOf v = some .stopped →
      ¬(rt.state = .deactivating ∧ rt.pid.isSome = true))
    (hb : ∀ v, op = .beginSpawnUnit v ∨ op = .reachTarget v → m.targetOf v ≠ some .stopped) :
    StopsHold (m.apply k op) := by
  have htarget (v : UnitName) : (m.apply k op).targetOf v = m.targetOf v := by
    rw [targetOf, hjobs, targetOf]
  refine hs.of_targets (fun v h => (htarget v).symm.trans h) fun v rt' hrt' hfiled => ?_
  have ht : m.targetOf v = some .stopped := (htarget v).symm.trans hfiled
  clear hfiled
  rcases apply_cases k m op with ⟨w, config, -, hget⟩ | rfl | htouch
  · rw [hget v] at hrt'
    split at hrt'
    · obtain rfl := Option.some.inj hrt'
      exact .inr (halted_new config)
    · exact .inl hrt'
  · have hprune : m.pruneRetired.1.get v = some rt' := hrt'
    rw [get_pruneRetired, Option.filter_eq_some_iff] at hprune
    exact .inl hprune.1
  · obtain ⟨rt, hrt, hsteps⟩ := htouch.get_some hrt'
    refine .inr ?_
    have h := hs v rt hrt ht
    by_cases hop : op = .restartUnit v
    · subst hop
      obtain ⟨rt'', hrt'', hhalted⟩ := halted_restartUnit (k := k) h hrt (hr v rt rfl hrt ht)
      obtain rfl := Option.some.inj (hrt''.symm.trans hrt')
      exact hhalted
    · clear hrt'
      induction hsteps with
      | refl => exact h
      | tail _ ht' ih =>
        exact halted_touch hop (fun h => hb v (.inl h) ht) (fun h => hb v (.inr h) ht) ht' ih

end UnitManager

/-! ## Runs of requests, exits and timers -/

/-- A stop that is asked for, with its effect, or any other operation. -/
inductive Deed where
  | stop (unit : UnitName)
  | op (op : Op)

namespace Deed

/-- Carry out a deed. -/
def run (k : Kernel) (m : UnitManager) : Deed → UnitManager
  | .stop unit =>
    let r := m.requestStop k unit .userStop
    (applyEffect k r.1 unit r.2).1
  | .op op => m.apply k op

/-- A stop is asked for as a deed of its own, so that its effect is applied; no shutdown. -/
def Promised : Deed → Prop
  | .stop _ => True
  | .op op => op.Promised ∧ ∀ unit source, op ≠ .requestStop unit source

/-- The deed leaves a stop on file only for units that are down for good : what is stopped is
not being restarted and its signal is not refused, what is restarted is not being stopped,
and nothing comes up with a stop on file. -/
def Sound (k : Kernel) (m : UnitManager) : Deed → Prop
  | .stop unit => m.Stoppable k unit
  | .op (.stopConflicts unit) =>
    ∀ rt, m.get unit = some rt → ∀ other ∈ rt.config.deps.conflicts, m.Stoppable k other
  | .op (.restartUnit unit) => m.targetOf unit = some .stopped →
    ¬(m.isDeactivating unit = true ∧ m.isRunning unit = true)
  | .op (.beginSpawnUnit unit) | .op (.reachTarget unit) => m.targetOf unit ≠ some .stopped
  | .op _ => True

/-- One deed, under the condition `G`. -/
def Step (G : Kernel → UnitManager → Deed → Prop) (m m' : UnitManager) : Prop :=
  ∃ k deed, Promised deed ∧ G k m deed ∧ m' = deed.run k m

theorem reachable_run {deed : Deed} (hm : Reachable m) (hp : deed.Promised) :
    Reachable (deed.run k m) := by
  cases deed with
  | stop unit =>
    have hreq : Reachable (m.requestStop k unit .userStop).1 :=
      .step k (.requestStop unit .userStop) hm (by exact le_rfl)
    unfold run applyEffect
    dsimp only
    split
    all_goals first
      | exact hreq
      | exact .step k (.stopUnit unit) hreq trivial
  | op op => exact .step k op hm hp.1

/-- The effect of a stop leaves a unit that is down for good as it is. -/
theorem halted_stop_of_requested (hget : (m.requestStop k u .userStop).1.get u = some rt)
    (h : Halted rt) (hrt' : (run k m (.stop u)).get u = some rt') : Halted rt' := by
  have hstop : Halted (rt.stop k (m.requestStop k u .userStop).1.cgroup u).val := by
    refine .of_stop _ (fun hp _ => (h.process hp).1) (fun hr => ?_) fun hn => absurd h hn
    exact absurd hr.2.1 (by simp [(h.process hr.2.2).2 hr.1])
  unfold run applyEffect at hrt'
  dsimp only at hrt'
  split at hrt'
  all_goals first
    | rw [UnitManager.stopUnit, UnitManager.get_update, if_pos rfl, hget] at hrt'
      exact Option.some.inj hrt' ▸ hstop
    | exact Option.some.inj (hget.symm.trans hrt') ▸ h

/-- A stop that is asked for, and can be carried out, halts its unit. -/
theorem halted_stop (hm : Reachable m) (hw : m.Stoppable k u)
    (hrt' : (run k m (.stop u)).get u = some rt') : Halted rt' := by
  cases hrt : m.get u with
  | none =>
    rcases UnitManager.get_request k m u .stopped .userStop u with h | ⟨_, -, -, h, -⟩ |
      ⟨config, -, -, -, h⟩
    · -- there is no such unit, so nothing was stopped
      have hnone : (m.requestStop k u .userStop).1.get u = none := h.trans hrt
      unfold run applyEffect at hrt'
      dsimp only at hrt'
      split at hrt'
      all_goals first
        | rw [UnitManager.stopUnit, UnitManager.get_update, if_pos rfl, hnone] at hrt'
          cases hrt'
        | cases hnone.symm.trans hrt'
    · cases hrt.symm.trans h
    · exact halted_stop_of_requested h (UnitManager.halted_new config) hrt'
  | some rt =>
    obtain ⟨hr, hsig⟩ := hw rt hrt
    obtain ⟨heffect, hget⟩ := requestStop_spec (k := k) hm.jobsSorted hrt
    have hprobe (hp : rt.pid.isSome = true) (hs : rt.state ≠ .active) : rt.probePid = none :=
      hm.probing hrt hp hs
    have hstopped (h : ((m.requestStop k u .userStop).1.stopUnit k u).get u = some rt') :
        Halted rt' := by
      rw [UnitManager.stopUnit, UnitManager.get_update, if_pos rfl, hget] at h
      obtain rfl := Option.some.inj h
      exact UnitManager.halted_settle_stop _ hprobe hr hsig
    cases hs : rt.state with
    | inactive | activeExited | failed =>
      have hsettle : rt.settle .stopped = { rt with state := .inactive } := by
        simp [UnitRuntime.settle, hs]
      exact halted_stop_of_requested (hget.trans (congrArg some hsettle))
        (.of_inactive rfl fun hp => hprobe hp (by simp [hs])) hrt'
    | deactivating =>
      have hsettle : rt.settle .stopped = rt := by simp [UnitRuntime.settle, hs]
      refine halted_stop_of_requested (hget.trans (congrArg some hsettle)) ?_ hrt'
      exact ⟨by simp [hs], by simp [hs], by simp [hs], fun hp =>
        ⟨hprobe hp (by simp [hs]), fun hd => Bool.eq_false_iff.mpr fun hf => hr ⟨hd, hf, hp⟩⟩⟩
    | active | starting | restartWait =>
      unfold run at hrt'
      dsimp only at hrt'
      rw [heffect, hs] at hrt'
      exact hstopped hrt'

theorem stop_of_ne (hv : v ≠ u) : (run k m (.stop u)).get v = m.get v ∧
    (run k m (.stop u)).targetOf v = m.targetOf v := by
  have hget : (m.requestStop k u .userStop).1.get v = m.get v := by
    rcases UnitManager.get_request k m u .stopped .userStop v with h | ⟨_, h, -⟩ | ⟨_, h, -⟩
    · exact h
    · exact absurd h hv
    · exact absurd h hv
  have htarget := UnitManager.targetOf_request_of_ne (k := k) (m := m) hv .stopped .userStop
  have hstop : ((m.requestStop k u .userStop).1.stopUnit k u).get v = m.get v ∧
      ((m.requestStop k u .userStop).1.stopUnit k u).targetOf v = m.targetOf v := by
    refine ⟨?_, ?_⟩
    · rw [UnitManager.stopUnit, UnitManager.get_update, if_neg (Ne.symm hv), hget]
    · rw [UnitManager.targetOf, UnitManager.stopUnit, (UnitManager.sameRequests_update ..).jobs]
      exact htarget
  unfold run applyEffect
  dsimp only
  split
  all_goals first
    | exact ⟨hget, htarget⟩
    | exact hstop

theorem stopsHold_run {deed : Deed} (hm : Reachable m) (hp : deed.Promised)
    (hsound : deed.Sound k m) (hs : m.StopsHold) : (deed.run k m).StopsHold := by
  cases deed with
  | stop u =>
    intro v rt' hrt' ht
    by_cases hv : v = u
    · subst hv
      exact halted_stop hm hsound hrt'
    · obtain ⟨hget, htarget⟩ := stop_of_ne (k := k) (m := m) hv
      exact hs v rt' (hget.symm.trans hrt') (htarget.symm.trans ht)
  | op op =>
    by_cases hreq : op.Requests
    · cases op with
      | requestStart v source => exact UnitManager.stopsHold_requestStart hs source
      | requestStop v source => exact absurd rfl (hp.2 v source)
      | dueQueuedStarts => exact UnitManager.stopsHold_dueQueuedStarts hs
      | stopConflicts v => exact UnitManager.stopsHold_stopConflicts hm hs hsound
      | retire v =>
        refine UnitManager.stopsHold_apply hs ?_ (by simp) (by simp)
        change (m.retire k v).jobs = m.jobs
        unfold UnitManager.retire
        dsimp only
        split <;> rfl
      | _ => exact hreq.elim
    · refine UnitManager.stopsHold_apply hs (UnitManager.sameRequests_apply hreq).jobs ?_ ?_
      · rintro v rt rfl hrt ht hd
        refine hsound ht ?_
        simpa [UnitManager.isDeactivating, UnitManager.isRunning, hrt] using hd
      · rintro v (rfl | rfl) <;> exact hsound

/-- A start never turns into a stop, in any run of sound deeds. -/
theorem startEffect_of_sound (hrun : ReflTransGen (Step Sound) {} m) (k : Kernel) (u : UnitName)
    (source : RequestSource) : UnitManager.StartEffect (m.requestStart k u source).2 := by
  have hinv : Reachable m ∧ m.StopsHold := by
    induction hrun with
    | refl => exact ⟨.new, fun u rt hrt => by simp [UnitManager.get] at hrt⟩
    | tail _ hstep ih =>
      obtain ⟨k, deed, hp, hsound, rfl⟩ := hstep
      exact ⟨reachable_run ih.1 hp, stopsHold_run ih.1 hp hsound ih.2⟩
  exact UnitManager.startEffect_requestStart hinv.2 source

/-! ## Concrete runs -/

theorem stoppable_up : up.Stoppable (.granting 1 10) serviceA := by
  intro rt hrt
  have hup : (up.get serviceA).map (fun rt => (rt.state, rt.pid)) = some (.active, some 10) := by
    decide
  rw [hrt, Option.map_some, Option.some.injEq, Prod.mk.injEq] at hup
  refine ⟨fun hr => (nomatch hup.1.symm.trans hr.1), fun _ pid hp => ?_⟩
  obtain rfl := Option.some.inj (hup.2.symm.trans hp)
  exact ⟨by decide, fun e he => (by cases he), fun target e he => (by cases he)⟩

/-- A service that was stopped. -/
def stoppedUp : UnitManager := run (.granting 1 10) up (.stop serviceA)

/-- The start of a service that was stopped and has exited spawns it. -/
theorem startEffect_stopped :
    let m := run (.granting 2 10) stoppedUp (.op (.onChildExit 10 .success))
    m.targetOf serviceA = some .stopped ∧
    (m.requestStart (.granting 3 10) serviceA .userStart).2 = some .spawnProcess ∧
    UnitManager.StartEffect (m.requestStart (.granting 3 10) serviceA .userStart).2 := by
  refine ⟨by decide, by decide, startEffect_of_sound ?_ _ _ _⟩
  have hup : ReflTransGen (Step Sound) {} up :=
    (ReflTransGen.single ⟨.granting 0 10,
      .op (.addWithInFlight (UnitConfig.new serviceA) false), ⟨rfl, by simp⟩, trivial, rfl⟩).tail
      ⟨.granting 0 10, .op (.beginSpawnUnit serviceA), ⟨trivial, by simp⟩,
        show UnitManager.targetOf _ serviceA ≠ _ by decide, rfl⟩
  exact (hup.tail ⟨.granting 1 10, .stop serviceA, trivial, stoppable_up, rfl⟩).tail
    ⟨.granting 2 10, .op (.onChildExit 10 .success), ⟨trivial, by simp⟩, trivial, rfl⟩

/-- The service is restarted while it is being stopped, and then exits. -/
def restartedDown : UnitManager :=
  stoppedUp.apply (.granting 2 10) (.restartUnit serviceA)
    |>.apply (.granting 3 10) (.onChildExit 10 .success)

/-- The service waits for its restart, and a start of it is turned into a stop. -/
theorem not_startEffect_restarted :
    ReflTransGen (Step fun _ _ _ => True) {} restartedDown ∧
    (restartedDown.get serviceA).map (·.state) = some .restartWait ∧
    (restartedDown.requestStart (.granting 4 10) serviceA .userStart).2 =
      some .cancelBackoffAndStop ∧
    ¬UnitManager.StartEffect (restartedDown.requestStart (.granting 4 10) serviceA .userStart).2 := by
  have heffect : (restartedDown.requestStart (.granting 4 10) serviceA .userStart).2 =
      some .cancelBackoffAndStop := by decide
  refine ⟨?_, by decide, heffect, fun h => ?_⟩
  · have hup : ReflTransGen (Step fun _ _ _ => True) {} up :=
      (ReflTransGen.single ⟨.granting 0 10,
        .op (.addWithInFlight (UnitConfig.new serviceA) false), ⟨rfl, by simp⟩, trivial, rfl⟩).tail
        ⟨.granting 0 10, .op (.beginSpawnUnit serviceA), ⟨trivial, by simp⟩, trivial, rfl⟩
    exact ((hup.tail ⟨.granting 1 10, .stop serviceA, trivial, trivial, rfl⟩).tail
      ⟨.granting 2 10, .op (.restartUnit serviceA), ⟨trivial, by simp⟩, trivial, rfl⟩).tail
      ⟨.granting 3 10, .op (.onChildExit 10 .success), ⟨trivial, by simp⟩, trivial, rfl⟩
  · rw [heffect] at h
    cases h

end Deed

end Rinit
