import Rinit.ReloadOrder
import Rinit.Serving

/-!
# The directory and the units

`converged_of_reload` : what a reload makes of each unit. Every unit of the directory exists and
waits for the definition it has there, while a unit that is up or being started keeps what it
runs with; what else exists is an instance of a template of the directory, and a unit that is
gone from it is hidden with its timers disarmed, but for the deadline of the stop that removes
it (`Gone`). A tombstone of an earlier reload is dropped once nothing of it is left, and is not
looked at otherwise. The same directory read again changes nothing.

`timers_otherRemoved` : the deadline of the stop stays armed, and so does the timer of a
tombstone whose stop was refused.
-/

namespace Rinit

open Relation

/-- The unit is an instance of a template of the directory. -/
def BootPlan.hasTemplate (plan : BootPlan) (u : UnitName) : Bool :=
  u.template.any fun template => plan.templates.contains template.canonical

namespace UnitRuntime

variable {rt : UnitRuntime}

/-- Registering a definition makes it the next one. -/
theorem nextConfig_redefine (config : UnitConfig) (inFlight : Bool) (rt : UnitRuntime) :
    (rt.redefine config inFlight).1.nextConfig = config := by
  unfold redefine
  dsimp only
  split
  · next h => exact h
  · split
    · rfl
    · rfl

/-- A unit that is up or being started keeps what it runs with. -/
theorem redefine_of_busy {config : UnitConfig} {inFlight : Bool}
    (h : rt.isUp = true ∨ inFlight = true) :
    (rt.redefine config inFlight).1.config = rt.config ∧
      (rt.redefine config inFlight).1.pid = rt.pid ∧
      (rt.redefine config inFlight).1.state = rt.state ∧
      (rt.redefine config inFlight).1.backoff = rt.backoff := by
  have hup : ({ rt with retired := false } : UnitRuntime).isUp = rt.isUp := rfl
  unfold redefine
  dsimp only
  split
  · exact ⟨rfl, rfl, rfl, rfl⟩
  · rw [if_pos (by rw [hup]; rcases h with h | h <;> simp [h])]
    exact ⟨rfl, rfl, rfl, rfl⟩

/-- A unit has the definition it was registered with, or it is up or being started. -/
theorem redefine_busy (config : UnitConfig) (inFlight : Bool) (rt : UnitRuntime) :
    (rt.redefine config inFlight).1.config = config ∨
      (rt.redefine config inFlight).1.isUp = true ∨ inFlight = true := by
  have hup : ({ rt with retired := false } : UnitRuntime).isUp = rt.isUp := rfl
  unfold redefine
  dsimp only
  split
  · next h => exact .inl h
  · split
    · next h =>
      rw [hup, Bool.or_eq_true] at h
      exact .inr (h.imp id id)
    · exact .inl rfl

/-- No timer of the unit is armed but that of a stop. -/
structure Disarmed (rt : UnitRuntime) : Prop where
  restartAt : rt.restartAt = none
  restartAfterStop : rt.restartAfterStop = false
  startDeadline : rt.startDeadline = none
  healthAt : rt.healthAt = none
  probeDeadline : rt.probeDeadline = none
  probePid : rt.probePid = none
  idleAt : rt.idleAt = none

/-- The kill deadline is that of a stop that began now : it is armed for a unit that is being
stopped, unless the stop has no time. -/
def StopArmed (k : Kernel) (secs : ℕ) (rt : UnitRuntime) : Prop :=
  rt.killAt = if rt.state = .deactivating ∧ secs ≠ 0 then some (k.afterSecs secs) else none

/-- What a removal leaves of `rt` : a tombstone, with the deadline of the stop if one has begun,
and with the one there was if there was nothing to stop or a stop was under way. -/
structure Gone (k : Kernel) (rt rt' : UnitRuntime) : Prop where
  retired : rt'.retired = true
  disarmed : rt'.Disarmed
  stopping : rt.isUp = true → rt.isStopped = true → rt'.StopArmed k rt.config.timeoutStopSec
  kept : rt.isUp = false ∨ rt.isStopped = false → rt'.killAt = rt.killAt

theorem stopArmed_escalate (rt : UnitRuntime) (k : Kernel) (cg : Cgroup) (u : UnitName)
    (pid : Pid) (hk : rt.killAt = none) (hs : rt.state = .deactivating) :
    (rt.escalate k cg u pid).val.StopArmed k rt.config.timeoutStopSec := by
  unfold escalate
  split
  · next h => exact hk.trans (if_neg fun hn => hn.2 h).symm
  · next h => exact (if_pos ⟨hs, h⟩).symm

theorem stopArmed_afterStopSignal (rt : UnitRuntime) (k : Kernel) (cg : Cgroup) (u : UnitName)
    (pid : Pid) (sent : Except Errno Unit) (hk : rt.killAt = none) (hs : rt.state ≠ .deactivating) :
    (rt.afterStopSignal k cg u pid sent).val.StopArmed k rt.config.timeoutStopSec := by
  unfold afterStopSignal
  split
  · exact stopArmed_escalate { rt with state := .deactivating } k cg u pid hk rfl
  · split
    · exact hk.trans (if_neg fun h => by cases h.1).symm
    · exact hk.trans (if_neg fun h => hs h.1).symm

/-- The stop of a process arms its deadline. -/
theorem stopArmed_stop (k : Kernel) (cg : Cgroup) (u : UnitName) {pid : Pid}
    (hp : rt.pid = some pid) (hs : rt.state ≠ .deactivating) :
    (rt.stop k cg u).val.StopArmed k rt.config.timeoutStopSec := by
  have hstop : (rt.stop k cg u).val = (rt.quiet.stopProcess k cg u pid).val := by
    unfold stop
    rw [if_neg hs, Traced.bind_val, quiesce_val, show rt.quiet.pid = some pid from hp]
  rw [hstop]
  unfold stopProcess
  split
  · exact stopArmed_afterStopSignal rt.quiet k cg u pid _ rfl hs
  · rw [Traced.bind_val]
    split
    · next stopPid _ =>
      exact stopArmed_escalate { rt.quiet with
        execStopPid := some stopPid, state := .deactivating } k cg u pid rfl rfl
    · exact stopArmed_afterStopSignal rt.quiet k cg u pid _ rfl hs

/-- The start deadline is that of a process that is starting. -/
def StartClock (rt : UnitRuntime) : Prop :=
  rt.startDeadline.isSome = true → rt.state = .starting ∧ rt.pid.isSome = true

theorem StartClock.of_none {rt : UnitRuntime} (h : rt.startDeadline = none) : rt.StartClock := by
  intro hs
  rw [h] at hs
  cases hs

theorem StartClock.disarmed {rt : UnitRuntime} (h : rt.StartClock)
    (hn : rt.state ≠ .starting ∨ rt.pid = none) : rt.startDeadline = none := by
  by_contra hsome
  obtain ⟨hs, hp⟩ := h (Option.isSome_iff_ne_none.mpr hsome)
  rcases hn with hn | hn
  · exact hn hs
  · rw [hn] at hp
    cases hp

theorem startClock_beginSpawn (k : Kernel) (cg : Cgroup) (u : UnitName) (h : rt.StartClock) :
    (rt.beginSpawn k cg u).val.1.StartClock := by
  obtain ⟨g, pp, pd, es, hc, -, hsame⟩ := clearLeftovers_eq k rt
  unfold beginSpawn
  rw [Traced.bind_val]
  by_cases hp : rt.pid.isSome = true
  · rw [hsame hp, if_pos hp]
    exact h
  · have hnone : rt.startDeadline = none := h.disarmed (.inr (by simpa using hp))
    rw [hc, if_neg hp]
    split
    · exact .of_none hnone
    · rcases spawnProcess_val k cg u { rt with
        group := g, probePid := pp, probeDeadline := pd, execStopPid := es } with
        ⟨e, he⟩ | ⟨pid, oom, pending, -, heq⟩
      · rw [he]
        exact .of_none hnone
      · rw [heq]
        dsimp only
        unfold registerSpawn
        dsimp only
        split
        · exact .of_none hnone
        all_goals exact fun _ => ⟨rfl, rfl⟩

end UnitRuntime

open UnitRuntime in
/-- A start deadline is armed by a spawn, and goes when the unit leaves its start. -/
theorem startClock_touch {k : Kernel} {m : UnitManager} {u : UnitName} {op : Op}
    {rt rt' : UnitRuntime} (hop : op.Promised) (hs : Serviced u rt) (hq : Probing rt)
    (ht : Touch k m u op rt rt') (h : rt.StartClock) : rt'.StartClock := by
  have hsettle : (rt.settle .stopped).StartClock := by
    rcases rt.settle_eq .stopped with heq | ⟨heq, hst⟩ <;> rw [heq]
    · exact h
    · refine .of_none (h.disarmed (.inl fun hstarting => ?_))
      rw [hstarting] at hst
      simp [UnitState.isFailed] at hst
  have hstop : (rt.stop k m.cgroup u).val.StartClock := by
    have hstopped := rt.stopped_stop k m.cgroup u
    generalize (rt.stop k m.cgroup u).val = rt' at hstopped
    cases hstopped with
    | busy => exact h
    | gone | delivered | refused => exact .of_none rfl
  have hfail : (rt.failOwn k m.cgroup u).val.StartClock := by
    rw [failOwn_val]
    split <;> exact .of_none rfl
  cases ht with
  | @redefine config inFlight =>
    obtain ⟨_, _, _, heq, -⟩ := rt.redefine_eq config inFlight
    exact heq ▸ h
  | adopt =>
    rcases rt.adoptPendingConfig_eq with heq | ⟨_, _, -, -, heq⟩ <;> rw [heq] <;> exact h
  | retire | restartFlag | clearStartLimit | compress | noteConnection => exact h
  | settle | conflictSettle => exact hsettle
  | stop | restartStop | conflictStop => exact hstop
  | failStart | failTarget | failExit => exact hfail
  | resetFailed =>
    intro hsome
    obtain ⟨hst, hp⟩ := h hsome
    refine ⟨?_, hp⟩
    change (if rt.state.isFailed then UnitState.inactive else rt.state) = .starting
    rw [hst]
    rfl
  | dragDown _ _ _ _ hp =>
    unfold UnitRuntime.dragDown
    split
    · exact h
    · exact .of_none (h.disarmed (.inr hp))
  | reachTarget =>
    -- only a target is reached, and it has no process
    refine .of_none (h.disarmed (.inr ?_))
    by_contra hp
    have hservice := hs.service (Option.isSome_iff_ne_none.mpr hp)
    rw [show u.ty = .target from hop] at hservice
    cases hservice
  | beginSpawn => exact startClock_beginSpawn k m.cgroup u h
  | capStartDeadline deadline =>
    intro hsome
    refine h ?_
    rwa [capStartDeadline, Option.isSome_map] at hsome
  | onNotify message =>
    rcases rt.onNotify_eq k message with ⟨_, heq⟩ | ⟨_, _, _, _, _, _, heq⟩ <;> rw [heq]
    · exact h
    · exact .of_none rfl
  | finishProbe outcome hprobe =>
    have hprobed := rt.probed_finishProbe k m.cgroup u outcome
    generalize (rt.finishProbe k m.cgroup u outcome).val = rt' at hprobed
    have hnone (hp : rt.pid.isSome = true) : rt.startDeadline = none := by
      refine h.disarmed (.inl fun hst => ?_)
      rw [hq hp (by simp [hst])] at hprobe
      cases hprobe
    cases hprobed with
    | noted => exact h
    | stopping hp => exact .of_none (hnone hp)
    | gone hp => exact .of_none (hnone hp)
  | execStopExit outcome =>
    rw [execStopExit_val]
    exact h
  | daemonStarted => exact .of_none rfl
  | @mainExit pid outcome =>
    have hsettled := rt.settled_mainExit k m.bootInProgress pid outcome
    generalize (rt.mainExit k m.bootInProgress pid outcome).val = r at hsettled
    cases hsettled with
    | state | wait | limit => exact .of_none rfl
  | dueIdle =>
    obtain ⟨_, heq⟩ := rt.dueIdle_eq k
    exact heq ▸ h
  | startTimeout =>
    unfold UnitRuntime.startTimeout
    split
    · exact .of_none rfl
    · split
      · exact .of_none rfl
      · exact h
  | kill =>
    rcases rt.kill_eq k m.cgroup u with ⟨_, _, heq⟩ | ⟨hst, hn, heq⟩ <;> rw [heq]
    · exact h
    · exact .of_none (h.disarmed (.inr hn))
  | healthProbe =>
    obtain ⟨_, _, _, heq, -⟩ := rt.healthProbe_eq k u
    exact heq ▸ h
  | probeTimeout =>
    obtain ⟨_, heq⟩ := rt.probeTimeout_eq k
    exact heq ▸ h
  | dueRestart =>
    obtain ⟨_, heq, -⟩ := rt.dueRestart_eq k
    exact heq ▸ h

/-- In every run only a process that is starting has a start deadline. -/
theorem Reachable.startClock {m : UnitManager} (h : Reachable m) {u : UnitName} {rt : UnitRuntime}
    (hrt : m.get u = some rt) : rt.StartClock :=
  (h.inv (P := fun u rt => Serviced u rt ∧ Probing rt ∧ rt.StartClock)
    (fun u config hname hkind => ⟨⟨⟨hname, hkind, fun c hc => by cases hc⟩, fun hp => by cases hp⟩,
      (fun hp => by cases hp), UnitRuntime.StartClock.of_none rfl⟩)
    (fun _ _ _ _ _ _ hop ht hi => ⟨serviced_touch hop ht hi.1,
      probing_move (move_of_touch ht) hi.2.1, startClock_touch hop hi.1 hi.2.1 ht hi.2.2⟩)
    u rt hrt).2.2

theorem UnitRuntime.gone_removed (k : Kernel) (cg : Cgroup) (u : UnitName) {rt : UnitRuntime}
    (h : rt.StartClock) : rt.Gone k (rt.removed k cg u) := by
  by_cases hstop : rt.isUp = true ∧ rt.isStopped = true
  · obtain ⟨hup, hst⟩ := hstop
    obtain ⟨hs, pid, hp⟩ := exists_pid_of_isStopped hup hst
    have heq : rt.removed k cg u = ((rt.stop k cg u).val.retire k).val := by
      unfold removed
      rw [if_pos hup, stopped_of_isStopped k cg u hst]
    have hclock : (rt.stop k cg u).val.startDeadline = none := by
      have hstopped := rt.stopped_stop k cg u
      generalize (rt.stop k cg u).val = rt' at hstopped
      cases hstopped with
      | busy hbusy => exact absurd hbusy hs
      | gone | delivered | refused => rfl
    rw [heq]
    refine ⟨rfl, ⟨rfl, rfl, hclock, rfl, rfl, rfl, rfl⟩, fun _ _ => stopArmed_stop k cg u hp hs, ?_⟩
    rintro (hn | hn)
    · exact absurd (hup.symm.trans hn) (by simp)
    · exact absurd (hst.symm.trans hn) (by simp)
  · have hclock : rt.startDeadline = none := by
      by_contra hsome
      obtain ⟨hs, hp⟩ := h (Option.isSome_iff_ne_none.mpr hsome)
      exact hstop ⟨by simp [isUp, hp], by simp [isStopped, hs]⟩
    have hsame : (rt.removed k cg u).startDeadline = rt.startDeadline ∧
        (rt.removed k cg u).killAt = rt.killAt := by
      unfold removed
      split
      · next hup =>
        rw [stopped_of_not_isStopped k cg u (by simpa [hup] using hstop)]
        rcases rt.settle_eq .stopped with heq | ⟨heq, -⟩ <;> rw [heq] <;> exact ⟨rfl, rfl⟩
      · exact ⟨rfl, rfl⟩
    refine ⟨rfl, ⟨rfl, rfl, hsame.1.trans hclock, rfl, rfl, rfl, rfl⟩,
      fun hup hst => absurd ⟨hup, hst⟩ hstop, fun _ => hsame.2⟩

namespace StartCoordinator

/-- Dropping flows leaves every unit, and the flows of the others. -/
theorem removeFlows_get (k : Kernel) (l : List UnitName) (s : UnitManager × StartCoordinator)
    (v : UnitName) :
    (l.foldl (fun s unit => s.2.removeFlow k s.1 unit) s).1.get v = s.1.get v ∧
      (l.foldl (fun s unit => s.2.removeFlow k s.1 unit) s).2.flows[v]? =
        if v ∈ l then none else s.2.flows[v]? := by
  induction l generalizing s with
  | nil => exact ⟨rfl, rfl⟩
  | cons u l ih =>
    obtain ⟨calls, hm, hflows⟩ := removeFlow_eq k s.2 s.1 u
    obtain ⟨ih1, ih2⟩ := ih (s.2.removeFlow k s.1 u)
    refine ⟨ih1.trans (by rw [hm]; rfl), ih2.trans ?_⟩
    rw [hflows, Std.ExtTreeMap.getElem?_erase]
    by_cases hv : u = v
    · subst hv
      simp
    · have hv' : ¬v = u := fun h => hv h.symm
      simp [hv, hv', Std.LawfulEqCmp.compare_eq_iff_eq]

/-- After a reload the flows of the units that are gone are dropped. -/
theorem afterReload_get (k : Kernel) (c : StartCoordinator) (m : UnitManager) (v : UnitName) :
    (c.afterReload k m).1.get v = m.get v ∧ (c.afterReload k m).2.1.flows[v]? =
      if m.unitExists v then c.flows[v]? else none := by
  obtain ⟨h1, h2⟩ := removeFlows_get k (c.flows.keys.filter fun unit => !m.unitExists unit) (m, c) v
  refine ⟨h1, h2.trans ?_⟩
  cases hex : m.unitExists v with
  | true => simp [hex]
  | false =>
    by_cases hv : v ∈ c.flows
    · simp [hex, hv]
    · have hnone : c.flows[v]? = none := by simpa using hv
      simp [hnone]

end StartCoordinator

/-! ## What a reload makes of each unit -/

/-- What a reload of the directory `plan` leaves of `s`. -/
structure Converged (k : Kernel) (plan : BootPlan) (s s' : ReloadState) : Prop where
  planned : ∀ u config, plan.configOf u = some config →
    ∃ rt', s'.manager.get u = some rt' ∧ rt'.retired = false ∧ rt'.nextConfig = config
  kept : ∀ u rt, (plan.configOf u).isSome = true → s.manager.get u = some rt →
    rt.isUp = true ∨ s.starts.flows.contains u = true → ∃ rt', s'.manager.get u = some rt' ∧
      rt'.config = rt.config ∧ rt'.pid = rt.pid ∧ rt'.state = rt.state ∧ rt'.backoff = rt.backoff
  instances : ∀ u, s'.manager.unitExists u = true → plan.configOf u = none →
    plan.hasTemplate u = true
  gone : ∀ u rt, s.manager.get u = some rt → rt.retired = false → plan.configOf u = none →
    plan.hasTemplate u = false → ∃ rt', s'.manager.get u = some rt' ∧ rt.Gone k rt'
  tombstones : ∀ u rt, s.manager.get u = some rt → rt.retired = true → plan.configOf u = none →
    s'.manager.get u = if rt.prunable then none else some rt
  unknown : ∀ u, s.manager.get u = none → plan.configOf u = none → s'.manager.get u = none

namespace ReloadState

variable {k : Kernel} {plan : BootPlan} {s s' : ReloadState} {u : UnitName} {rt : UnitRuntime}

theorem isGone_iff {m : UnitManager} : isGone m plan u = true ↔
    m.unitExists u = true ∧ plan.configOf u = none ∧ plan.hasTemplate u = false := by
  simp [isGone, BootPlan.hasTemplate, and_assoc]

theorem unpruned_of_exists (h : s.manager.get u = some rt) (hret : rt.retired = false) :
    unpruned s.manager u = some rt := by
  simp [unpruned, h, Option.filter, not_prunable_of_not_retired hret]

theorem unpruned_of_isUp (h : s.manager.get u = some rt) (hup : rt.isUp = true) :
    unpruned s.manager u = some rt := by
  simp [unpruned, h, Option.filter, UnitRuntime.prunable, hup]

theorem reloaded_planned {config : UnitConfig} (h : plan.configOf u = some config) :
    reloaded k plan s u =
      some (registered config (s.starts.flows.contains u) (unpruned s.manager u)) := by
  unfold reloaded
  rw [h]

theorem nextConfig_registered (config : UnitConfig) (inFlight : Bool) (o : Option UnitRuntime) :
    (registered config inFlight o).nextConfig = config := by
  cases o with
  | none => rfl
  | some rt => exact UnitRuntime.nextConfig_redefine config inFlight rt

/-- A unit without a file that exists after a reload is one the reload has not touched. -/
theorem reloaded_unplanned (hc : plan.configOf u = none) (h : reloaded k plan s u = some rt)
    (hret : rt.retired = false) : s.manager.get u = some rt ∧ plan.hasTemplate u = true := by
  unfold reloaded at h
  rw [hc] at h
  dsimp only at h
  split at h
  · obtain ⟨rt₀, -, rfl⟩ := Option.map_eq_some_iff.mp h
    cases hret
  · next hgone =>
    have hrt : s.manager.get u = some rt := (Option.filter_eq_some_iff.mp h).1
    refine ⟨hrt, ?_⟩
    by_contra ht
    exact hgone (isGone_iff.mpr ⟨UnitManager.unitExists_iff.mpr ⟨rt, hrt, hret⟩, hc,
      by simpa using ht⟩)

theorem Reloaded.converged (h : Reloaded k plan s s') (hm : Reachable s.manager)
    (hlive : ∀ u, s.starts.flows.contains u = true → s.manager.unitExists u = true) :
    Converged k plan s s' where
  planned u config hc := by
    refine ⟨_, (h.get u).trans (reloaded_planned hc), registered_retired .., ?_⟩
    exact nextConfig_registered ..
  kept u rt hc hrt hbusy := by
    obtain ⟨config, hc⟩ := Option.isSome_iff_exists.mp hc
    -- a tombstone is not being started, so the entry is not dropped first
    have hunpruned : unpruned s.manager u = some rt := by
      rcases hbusy with hup | hflow
      · exact unpruned_of_isUp hrt hup
      · obtain ⟨rt', hrt', hret⟩ := UnitManager.unitExists_iff.mp (hlive u hflow)
        obtain rfl := Option.some.inj (hrt.symm.trans hrt')
        exact unpruned_of_exists hrt hret
    refine ⟨_, (h.get u).trans (reloaded_planned hc), ?_⟩
    rw [hunpruned]
    exact UnitRuntime.redefine_of_busy hbusy
  instances u hex hc := by
    obtain ⟨rt', hrt', hret⟩ := UnitManager.unitExists_iff.mp hex
    exact (reloaded_unplanned hc ((h.get u).symm.trans hrt') hret).2
  gone u rt hrt hret hc ht := by
    have hex : s.manager.unitExists u = true := UnitManager.unitExists_iff.mpr ⟨rt, hrt, hret⟩
    refine ⟨rt.removed k s.manager.cgroup u, (h.get u).trans ?_,
      UnitRuntime.gone_removed k s.manager.cgroup u (hm.startClock hrt)⟩
    unfold reloaded
    rw [hc]
    dsimp only
    rw [if_pos (isGone_iff.mpr ⟨hex, hc, ht⟩), unpruned_of_exists hrt hret, Option.map_some]
  tombstones u rt hrt hret hc := by
    have hgone : isGone s.manager plan u ≠ true := fun hg => by
      obtain ⟨rt', hrt', hret'⟩ := UnitManager.unitExists_iff.mp (isGone_iff.mp hg).1
      obtain rfl := Option.some.inj (hrt.symm.trans hrt')
      exact absurd (hret.symm.trans hret') (by simp)
    rw [h.get u]
    unfold reloaded unpruned
    rw [hc]
    dsimp only
    rw [if_neg hgone, hrt]
    cases hp : rt.prunable <;> simp [Option.filter, hp]
  unknown u hrt hc := by
    have hgone : isGone s.manager plan u ≠ true := fun hg => by
      obtain ⟨rt', hrt', -⟩ := UnitManager.unitExists_iff.mp (isGone_iff.mp hg).1
      cases hrt.symm.trans hrt'
    rw [h.get u]
    unfold reloaded unpruned
    rw [hc]
    dsimp only
    rw [if_neg hgone, hrt]
    rfl

/-! ## The same directory again -/

/-- A reload of `plan` would find no change : every unit of it exists, and has its definition
there unless it is up or being started. -/
structure Settled (plan : BootPlan) (s : ReloadState) : Prop where
  planned : ∀ c ∈ plan.configs, ∃ rt, s.manager.get c.name = some rt ∧ rt.retired = false ∧
    (rt.config = c ∨ rt.isUp = true ∨ s.starts.flows.contains c.name = true)
  gone : ∀ u, isGone s.manager plan u = false

/-- The report notes no change. -/
structure Quiet (r : Report) : Prop where
  added : r.added = []
  applied : r.applied = []
  removed : r.removed = []
  stopped : r.stopped = []

theorem Reloaded.settled (hp : plan.Proper) (h : Reloaded k plan s s') : Settled plan s' where
  planned c hc := by
    refine ⟨_, (h.get c.name).trans (reloaded_planned (configOf_eq_some hp hc)),
      registered_retired .., ?_⟩
    rw [h.flows]
    cases unpruned s.manager c.name with
    | none => exact .inl rfl
    | some rt => exact UnitRuntime.redefine_busy c _ rt
  gone u := by
    by_contra hgone
    obtain ⟨hex, hc, ht⟩ := isGone_iff.mp (by simpa using hgone)
    obtain ⟨rt', hrt', hret⟩ := UnitManager.unitExists_iff.mp hex
    rw [(reloaded_unplanned hc ((h.get u).symm.trans hrt') hret).2] at ht
    cases ht

/-- The state the loop gives the next reload. -/
def dropGone (k : Kernel) (s : ReloadState) : ReloadState :=
  { manager := (s.starts.afterReload k s.manager).1
    starts := (s.starts.afterReload k s.manager).2.1
    activation := s.activation }

theorem Settled.dropGone (h : Settled plan s) (k : Kernel) : Settled plan (s.dropGone k) where
  planned c hc := by
    obtain ⟨rt, hrt, hret, hbusy⟩ := h.planned c hc
    obtain ⟨hget, hflows⟩ := s.starts.afterReload_get k s.manager c.name
    rw [if_pos (UnitManager.unitExists_iff.mpr ⟨rt, hrt, hret⟩)] at hflows
    refine ⟨rt, hget.trans hrt, hret, hbusy.imp id (Or.imp id fun hf => ?_)⟩
    rw [Std.ExtTreeMap.contains_eq_isSome_getElem?] at hf ⊢
    exact (congrArg Option.isSome hflows).trans hf
  gone u := (isGone_congr (s.starts.afterReload_get k s.manager u).1).trans (h.gone u)

theorem Settled.pruneRetired (h : Settled plan s) (report : Report) :
    Settled plan { s with manager := s.manager.pruneRetired.1, report := report } where
  planned c hc := by
    obtain ⟨rt, hrt, hret, hbusy⟩ := h.planned c hc
    exact ⟨rt, (UnitManager.get_pruneRetired s.manager c.name).trans (unpruned_of_exists hrt hret),
      hret, hbusy⟩
  gone u := (isGone_pruneRetired s.manager plan u).trans (h.gone u)

theorem removeUnits_of_settled (h : Settled plan s) (k : Kernel) (l : List UnitName) :
    removeUnits k plan l s = (s, .ok ()) := by
  induction l with
  | nil => rfl
  | cons u l ih =>
    have hu : removeUnit k plan s u = (s, .ok ()) := by
      unfold removeUnit
      rw [h.gone u]
      rfl
    rw [removeUnits, hu]
    exact ih

theorem reconcileSocket_report (k : Kernel) (s : ReloadState) (config : UnitConfig) :
    (reconcileSocket k s config).report = s.report := by
  unfold reconcileSocket
  dsimp only
  split
  · rfl
  · rfl
  · split
    · rfl
    · split <;> rfl

theorem addWithInFlight_change {m : UnitManager} {config : UnitConfig} {inFlight : Bool}
    (hrt : m.get config.name = some rt)
    (hbusy : rt.config = config ∨ rt.isUp = true ∨ inFlight = true) :
    (m.addWithInFlight config inFlight).2 = .unchanged ∨
      (m.addWithInFlight config inFlight).2 = .deferred := by
  have hup : ({ rt with retired := false } : UnitRuntime).isUp = rt.isUp := rfl
  unfold UnitManager.addWithInFlight
  rw [hrt]
  dsimp only
  unfold UnitRuntime.redefine
  dsimp only
  split
  · exact .inl rfl
  · next hne =>
    rw [if_pos]
    · exact .inr rfl
    · rw [hup, Bool.or_eq_true]
      exact hbusy.resolve_left hne

/-- Registering a definition again changes nothing that is reported. -/
theorem Settled.registerUnit (hp : plan.Proper) (h : Settled plan s) (hq : Quiet s.report)
    {c : UnitConfig} (hc : c ∈ plan.configs) (k : Kernel) :
    Settled plan (registerUnit k s c) ∧ Quiet (registerUnit k s c).report := by
  obtain ⟨rt, hrt, hret, hbusy⟩ := h.planned c hc
  unfold ReloadState.registerUnit
  dsimp only
  have hwas : (s.manager.get c.name).any (·.retired) = false := by simp [hrt, hret]
  rw [hwas, reconcileSocket_report]
  obtain ⟨fds, hm, hstarts⟩ := reconcileSocket_frame k { s with
    manager := (s.manager.addWithInFlight c (s.starts.flows.contains c.name)).1
    report := noteChange s.report c.name false
      (s.manager.addWithInFlight c (s.starts.flows.contains c.name)).2 } c
  have hget (v : UnitName) := get_addWithInFlight s.manager c (s.starts.flows.contains c.name) v
  constructor
  · constructor
    · intro c' hc'
      rw [hm, hstarts]
      by_cases hname : c.name = c'.name
      · obtain rfl := List.inj_on_of_nodup_map hp.nodup hc hc' hname
        refine ⟨_, (hget c.name).trans (if_pos rfl), registered_retired .., ?_⟩
        rw [hrt]
        exact UnitRuntime.redefine_busy c _ rt
      · obtain ⟨rt', hrt', hret', hbusy'⟩ := h.planned c' hc'
        exact ⟨rt', ((hget c'.name).trans (if_neg hname)).trans hrt', hret', hbusy'⟩
    · intro u
      rw [hm]
      by_cases hname : c.name = u
      · subst hname
        simp [isGone, configOf_eq_some hp hc]
      · exact (isGone_congr ((hget u).trans (if_neg hname))).trans (h.gone u)
  · rcases addWithInFlight_change hrt hbusy with hchange | hchange <;> rw [hchange] <;>
      exact ⟨hq.added, hq.applied, hq.removed, hq.stopped⟩

/-- Applying a plan that is settled reports no change. -/
theorem Settled.applyPlan (hp : plan.Proper) (h : Settled plan s) (k : Kernel) :
    ∃ s' report, applyPlan k plan s = (s', .ok report) ∧ Quiet report := by
  have h0 := h.pruneRetired { pruned := s.manager.pruneRetired.2 }
  have hreg : Settled plan (plan.configs.foldl (ReloadState.registerUnit k) { s with
        manager := s.manager.pruneRetired.1, report := { pruned := s.manager.pruneRetired.2 } }) ∧
      Quiet (plan.configs.foldl (ReloadState.registerUnit k) { s with
        manager := s.manager.pruneRetired.1
        report := { pruned := s.manager.pruneRetired.2 } }).report := by
    refine Runs.foldl_induction (P := fun _ t => Settled plan t ∧ Quiet t.report)
      ⟨h0, ⟨rfl, rfl, rfl, rfl⟩⟩ ?_
    intro done c rest t hl ht
    exact ht.1.registerUnit hp ht.2 (hl ▸ List.mem_append_right _ List.mem_cons_self) k
  have hstart (t : ReloadState) (ht : Quiet t.report) :
      plan.levels.flatten.foldl (startAdded k plan) t = t := by
    refine Runs.foldl_induction (P := fun _ t' => t' = t) rfl ?_
    rintro _ u _ _ - rfl
    simp [startAdded, ht.added]
  refine ⟨_, _, by simp only [ReloadState.applyPlan]; rw [removeUnits_of_settled h0], ?_⟩
  rw [hstart _ hreg.2]
  exact hreg.2

end ReloadState

/-- A reload brings the units to what the directory says, and the same directory again changes
nothing. -/
theorem converged_of_reload {k : Kernel} {s s' : ReloadState} {files : List UnitFile}
    {warnings : List String} {target : String} {report : Report} (hm : Reachable s.manager)
    (hlive : ∀ u, s.starts.flows.contains u = true → s.manager.unitExists u = true)
    (hr : ReloadState.reload k files warnings target s = (s', .ok report)) :
    ∃ plan, BootPlan.planBoot files warnings target = .ok plan ∧ Converged k plan s s' ∧
      ∀ k', ∃ s'' report', ReloadState.reload k' files warnings target (s'.dropGone k) =
        (s'', .ok report') ∧ ReloadState.Quiet report' := by
  rcases ReloadState.reload_cases (k := k) hm files warnings target with
    ⟨e, -, heq⟩ | ⟨plan, s₁, report₁, hplan, heq, hre⟩
  · cases heq.symm.trans hr
  · obtain ⟨rfl, -⟩ := Prod.mk.inj (heq.symm.trans hr)
    have hp := BootPlan.proper_of_planBoot hplan
    refine ⟨plan, hplan, hre.converged hm hlive, fun k' => ?_⟩
    unfold ReloadState.reload
    rw [hplan]
    exact ((hre.settled hp).dropGone k).applyPlan hp k'

/-! ### A concrete reload -/

/-- A service that runs, before a reload of a directory with another one. -/
def otherRunning : ReloadState where
  manager := ({} : UnitManager).apply (.granting 0 10)
      (.addWithInFlight { UnitConfig.new serviceB with timeoutStopSec := 5 } false)
    |>.apply (.granting 0 10) (.beginSpawnUnit serviceB)
  starts := {}
  activation := ∅

theorem reachable_otherRunning : Reachable otherRunning.manager :=
  .step (.granting 0 10) (.beginSpawnUnit serviceB) (.step (.granting 0 10)
    (.addWithInFlight { UnitConfig.new serviceB with timeoutStopSec := 5 } false) .new rfl) trivial

/-- The directory of the reload defines one service, and the one that runs is gone. -/
def otherRemoved : ReloadState × Except String Report :=
  ReloadState.reload (.granting 1 10) oneService [] "a.service" otherRunning

theorem converged_otherRemoved :
    ∃ plan, BootPlan.planBoot oneService [] "a.service" = .ok plan ∧
      Converged (.granting 1 10) plan otherRunning otherRemoved.1 ∧
      otherRemoved.1.manager.unitExists serviceA = true ∧
      otherRemoved.1.manager.unitExists serviceB = false := by
  obtain ⟨report, hok⟩ : ∃ report, otherRemoved.2 = .ok report := by
    have h : otherRemoved.2.toOption.isSome = true := by decide +kernel
    obtain ⟨report, hr⟩ := Option.isSome_iff_exists.mp h
    exact ⟨report, Runs.eq_ok_of_toOption hr⟩
  obtain ⟨plan, hplan, hc, -⟩ := converged_of_reload reachable_otherRunning
    (fun u hu => absurd hu (by simp [otherRunning])) (Prod.ext rfl hok :
      ReloadState.reload (.granting 1 10) oneService [] "a.service" otherRunning =
        (otherRemoved.1, .ok report))
  exact ⟨plan, hplan, hc, by decide +kernel, by decide +kernel⟩

/-- A directory with a service and one that says when it is up. -/
def probedOther : List UnitFile :=
  oneService ++ [{ name := serviceB, path := "/etc/rinit/b.service", contents :=
    "[Service]\nType=notify\nExecStart=/bin/b\nHealthCheck=/bin/h\nHealthIntervalSec=30\n" }]

/-- A kernel that refuses every signal. -/
def refusing : Kernel := { Kernel.granting 6 12 with kill := fun _ _ => .error ePerm }

/-- The second service is gone from the directory while it starts, its stop is refused, and what it
has said by then is read afterwards. -/
def armedTombstone (plan : BootPlan) : Supervisor :=
  (((Supervisor.init (.granting 0 10) plan none).steps
      [(1, 10, .boot), (2, 10, .advance), (3, 10, .boot), (4, 11, .control (.start serviceB)),
        (5, 11, .advance)]).step refusing (.control (.reload oneService [] "a.service"))).step
    (.granting 7 12) (.notify serviceB ⟨true, none⟩)

/-- The loop reads the directory without the second service again. -/
def Supervisor.readsAgain (s : Supervisor) : ReloadState × Except String Report :=
  s.reloadState.reload (.granting 8 12) oneService [] "a.service"

/-- Whether the second service is a tombstone whose next probe is armed. -/
def isArmed (m : UnitManager) : Bool :=
  (m.get serviceB).any fun rt => rt.retired && rt.healthAt = some 30007

/-- The service that is gone is hidden, and the deadline of its stop stays armed; and a tombstone
whose stop was refused has a timer that a reload leaves armed. -/
theorem timers_otherRemoved :
    (Reachable otherRunning.manager ∧ otherRemoved.2.toOption.isSome = true ∧
      (BootPlan.planBoot oneService [] "a.service").toOption.map (fun plan =>
        (plan.configOf serviceB, plan.hasTemplate serviceB)) = some (none, false) ∧
      (otherRemoved.1.manager.get serviceB).map (fun rt => (rt.retired, rt.killAt)) =
        some (true, some 5001)) ∧
    ∃ s, Supervisor.Reached s ∧ isArmed s.manager = true ∧
      s.readsAgain.2.toOption.isSome = true ∧ isArmed s.readsAgain.1.manager = true := by
  refine ⟨⟨reachable_otherRunning, by decide +kernel, by decide +kernel, by decide +kernel⟩, ?_⟩
  have h : ((BootPlan.planBoot probedOther [] "a.service").toOption.map armedTombstone).any
      (fun s => isArmed s.manager && (s.readsAgain.2.toOption.isSome &&
        isArmed s.readsAgain.1.manager)) = true := by
    decide +kernel
  obtain ⟨s, hs, hp⟩ := (Option.any_eq_true _ _).mp h
  obtain ⟨plan, hplan, rfl⟩ := Option.map_eq_some_iff.mp hs
  simp only [Bool.and_eq_true] at hp
  have hreached : Supervisor.Reached (armedTombstone plan) :=
    .step _ _ (.step _ _ ((Supervisor.Reached.init (.granting 0 10) none
      (Runs.eq_ok_of_toOption hplan)).steps _))
  exact ⟨_, hreached, hp⟩

end Rinit
