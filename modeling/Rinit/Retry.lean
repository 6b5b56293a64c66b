import Rinit.Control
import Rinit.Ops

/-!
# A start of a failed unit

A control start of a failed unit should try again. The request clears the breaker and makes
a flow, but nothing takes the unit out of its failure, so the flow ends at its entry, where
a unit that failed before its start completed is given up. `not_retried_of_isFailed` shows
this for every state : the start is answered with an error and does nothing.
-/

namespace Rinit

variable {k : Kernel} {m : UnitManager} {u : UnitName} {rt : UnitRuntime}

/-- A start request for a failed unit asks for the breaker to be cleared : a stop that was
asked for earlier is satisfied by the failure and forgotten. -/
theorem requestStart_of_isFailed (hrt : m.get u = some rt) (hf : rt.state.isFailed = true)
    (source : RequestSource) :
    (m.requestStart k u source).2 = some .clearStartLimitAndStart ∧
      (m.requestStart k u source).1.targetOf u = some .started ∧
      (∀ v, (m.requestStart k u source).1.get v = m.get v) ∧
      (m.requestStart k u source).1.calls = m.calls := by
  obtain ⟨reason, hst⟩ := UnitState.isFailed_iff.mp hf
  have hrequest : m.requestStart k u source = m.submitRequest k u .started source := by
    simp [UnitManager.requestStart, UnitManager.request, hrt]
  have hget (v : UnitName) : (m.filed k u .started source).get v = m.get v :=
    UnitManager.filed_get ..
  have htarget : (m.filed k u .started source).targetOf u = some .started := by
    unfold UnitManager.targetOf
    obtain ⟨t, ht⟩ : ∃ t, (m.filed k u .started source).jobs.targetOf u = some t :=
      ⟨_, UnitManager.filed_targetOf ..⟩
    rw [ht, Option.map_some]
    cases hstop : t.target with
    | started => rfl
    | stopped =>
      have := UnitManager.filed_started_effect hrt ht (by rw [hstop, hst]; rfl)
      rw [hstop] at this
      cases this
  have heffect : (m.filed k u .started source).effectFor u = some .clearStartLimitAndStart := by
    obtain ⟨t, ht, htt⟩ := Option.map_eq_some_iff.mp htarget
    simp [UnitManager.effectFor, hget, hrt, JobQueue.reconcile, ht, htt, hst, JobQueue.action]
  have hanswered : m.answered k u .started source = m.filed k u .started source := by
    unfold UnitManager.answered
    rw [heffect, if_neg (by simp)]
  have hcalls : (m.filed k u .started source).calls = m.calls := by
    unfold UnitManager.filed UnitManager.forgetSpentTarget
    dsimp only
    split <;> rfl
  rw [hrequest]
  refine ⟨heffect, ?_, ?_, ?_⟩
  · exact (congrArg (UnitManager.targetOf · u) hanswered).trans htarget
  · exact fun v => (congrArg (UnitManager.get · v) hanswered).trans (hget v)
  · exact (congrArg UnitManager.calls hanswered).trans hcalls

/-- A flow for a failed unit ends at its entry. -/
theorem advance_of_isFailed {t : StartFlow.Turn} (hs : t.manager.targetOf t.flow.unit ≠ some .stopped)
    (hsp : t.flow.spawned = false) (hf : t.manager.isFailed t.flow.unit = true)
    (hst : t.flow.stage ≠ .spawnWait) : StartFlow.advance k t =
      StartFlow.cancel t (t.flow.unit.canonical ++ " failed before its start completed") := by
  simp [StartFlow.advance, hs, hsp, hf, hst]

/-- Beginning a flow leaves a failed unit failed, and reaches out to nothing. -/
theorem new_of_isFailed (hrt : m.get u = some rt) (hret : rt.retired = false) :
    ∃ m' flow, StartFlow.new k m u = (m', .ok flow) ∧ flow.unit = u ∧ flow.spawned = false ∧
      flow.stage ≠ .spawnWait ∧ (m'.get u).map (·.state) = some rt.state ∧
      m'.targetOf u = m.targetOf u ∧ m'.calls = m.calls := by
  have hadopt : rt.adoptPendingConfig.retired = rt.retired ∧
      rt.adoptPendingConfig.state = rt.state := by
    rcases rt.adoptPendingConfig_eq with heq | ⟨_, _, -, -, heq⟩ <;> rw [heq] <;> exact ⟨rfl, rfl⟩
  have hm : m.adoptPendingConfig u = (m.put u (pure rt.adoptPendingConfig)).invalidateGraph := by
    simp [UnitManager.adoptPendingConfig, hrt]
  have hget : (m.adoptPendingConfig u).get u = some rt.adoptPendingConfig := by
    rw [hm, UnitManager.invalidateGraph_get, UnitManager.get_put, if_pos rfl, Traced.pure_val]
  refine ⟨m.adoptPendingConfig u,
    { unit := u
      stage := if rt.adoptPendingConfig.config.needsSocket.isEmpty then .conflicts none
        else .sockets rt.adoptPendingConfig.config.needsSocket
      deadline := startDeadline k rt.adoptPendingConfig.config.timeoutStartSec },
    ?_, rfl, rfl, ?_, ?_, ?_, ?_⟩
  · simp [StartFlow.new, hget, hadopt.1, hret]
  · dsimp only
    split <;> simp
  · rw [hget, Option.map_some, hadopt.2]
  · rw [hm]
    rfl
  · rw [hm]
    simp [UnitManager.invalidateGraph, UnitManager.put]

namespace ControlStart

/-- The start that the request asks for is made and given up. -/
theorem startUnit_of_isFailed {t : Turn} (hrt : t.manager.get u = some rt)
    (hf : rt.state.isFailed = true) (hret : rt.retired = false)
    (ht : t.manager.targetOf u = some .started) (hflow : t.flows.contains u = false) :
    (startUnit k t u .clearStartLimitAndStart).done = t.done ∧
    (startUnit k t u .clearStartLimitAndStart).job = { t.job with waiting := some u } ∧
    (startUnit k t u .clearStartLimitAndStart).flows.contains u = false ∧
    ((startUnit k t u .clearStartLimitAndStart).manager.get u).map (·.state) = some rt.state ∧
    (startUnit k t u .clearStartLimitAndStart).manager.calls = t.manager.calls := by
  have hclear : (t.manager.clearStartLimit u).get u = some rt.clearStartLimit := by
    rw [UnitManager.clearStartLimit, UnitManager.get_modify, if_pos rfl, hrt, Option.map_some]
  obtain ⟨m', flow, hnew, hunit, hsp, hst, hget, htarget, hcalls⟩ :=
    new_of_isFailed (k := k) hclear (by exact hret)
  have hm : t.manager.clearStartLimit u = t.manager.put u (pure rt.clearStartLimit) := by
    simp [UnitManager.clearStartLimit, UnitManager.modify, UnitManager.update, hrt]
  have hbegin : applyStartEffect k t.manager t.flows u .clearStartLimitAndStart =
      (m', t.flows.insert u flow, .ok ()) := by
    simp [applyStartEffect, beginFlow, hflow, hnew]
  have hadvance : StartFlow.advance k { flow := flow, manager := m', aux := t.aux } =
      StartFlow.cancel { flow := flow, manager := m', aux := t.aux }
        (flow.unit.canonical ++ " failed before its start completed") := by
    refine advance_of_isFailed ?_ hsp ?_ hst
    · dsimp only
      rw [hunit, htarget, hm]
      change t.manager.targetOf u ≠ _
      simp [ht]
    · obtain ⟨rt', hrt', hstate⟩ := Option.map_eq_some_iff.mp hget
      have hfailed : rt'.state.isFailed = true := by rw [hstate]; exact hf
      simp [UnitManager.isFailed, hunit, hrt', hfailed]
  have hstart : startUnit k t u .clearStartLimitAndStart =
      { t with
        manager := m'
        flows := (t.flows.insert u flow).erase u
        job := { t.job with waiting := some u } } := by
    simp [startUnit, hbegin, hadvance, StartFlow.cancel]
  rw [hstart]
  refine ⟨rfl, rfl, by simp, hget, ?_⟩
  rw [hcalls, hm]
  simp [UnitManager.put]

/-- The turn goes on to the next unit of the order. -/
def Turn.next (t : Turn) : Turn := { t with job := { t.job with index := t.job.index + 1 } }

theorem runOrder_cons {rest : List UnitName} {t : Turn} (hw : t.job.waiting = none) :
    runOrder k (u :: rest) t =
      if (requestUnit k t.next u).done.isSome then requestUnit k t.next u
      else runOrder k rest (requestUnit k t.next u) := by
  rw [runOrder, poll, hw]
  rfl

/-- The dependencies that are up are passed over. -/
theorem runOrder_append_of_isSatisfied {deps rest : List UnitName} {t : Turn}
    (hw : t.job.waiting = none) (hd : t.done = none)
    (h : ∀ d ∈ deps, d ≠ t.job.target ∧ (t.manager.get d).any (·.state.isSatisfied) = true) :
    ∃ i, runOrder k (deps ++ rest) t =
      runOrder k rest { t with job := { t.job with index := i } } := by
  induction deps generalizing t with
  | nil => exact ⟨t.job.index, rfl⟩
  | cons d deps ih =>
    obtain ⟨hne, hsat⟩ := h d List.mem_cons_self
    have hup : t.manager.isFailed d = false := by
      obtain ⟨rt, hrt, hst⟩ := (Option.any_eq_true _ _).mp hsat
      rw [UnitManager.isFailed, hrt, Option.any_some]
      unfold UnitState.isSatisfied at hst
      cases hs : rt.state <;> simp_all [UnitState.isFailed]
    have hreq : requestUnit k t.next d = t.next := by
      simp [requestUnit, Turn.next, hne, hup, hsat]
    have hdone : t.next.done = none := hd
    rw [List.cons_append, runOrder_cons hw, hreq, hdone, Option.isSome_none,
      if_neg Bool.false_ne_true]
    exact ih hw hd fun d' hd' => h d' (List.mem_cons_of_mem _ hd')

/-- What a control start of a failed unit comes to : nothing is done, the unit stays failed
and the answer is an error. -/
theorem runOrder_of_isFailed {t : Turn} (hw : t.job.waiting = none) (hd : t.done = none)
    (hrt : t.manager.get t.job.target = some rt) (hf : rt.state.isFailed = true)
    (hret : rt.retired = false) (hflow : t.flows.contains t.job.target = false) :
    (runOrder k [t.job.target] t).done = some (.error, t.job.target.canonical ++ " failed to start") ∧
    (runOrder k [t.job.target] t).flows.contains t.job.target = false ∧
    ((runOrder k [t.job.target] t).manager.get t.job.target).map (·.state) = some rt.state ∧
    (runOrder k [t.job.target] t).manager.calls = t.manager.calls := by
  obtain ⟨heffect, htarget, hget, hcalls⟩ :=
    requestStart_of_isFailed (k := k) hrt hf RequestSource.userStart
  obtain ⟨reason, hst⟩ := UnitState.isFailed_iff.mp hf
  let t' : Turn :=
    { t.next with manager := (t.manager.requestStart k t.job.target .userStart).1 }
  obtain ⟨hdone, hjob, hflows, hstate, hcalls'⟩ := startUnit_of_isFailed (k := k) (t := t')
    ((hget _).trans hrt) hf hret htarget hflow
  have hreq : requestUnit k t.next t.job.target =
      startUnit k t' t.job.target .clearStartLimitAndStart := by
    simp [requestUnit, Turn.next, hrt, hst, UnitState.isSatisfied, hflow, heffect, t']
  rw [runOrder_cons hw, hreq]
  generalize startUnit k t' t.job.target .clearStartLimitAndStart = s at *
  obtain ⟨rt', hrt', hstate'⟩ := Option.map_eq_some_iff.mp hstate
  have htarget' : s.job.target = t.job.target := by rw [hjob]; rfl
  have hwaiting : s.job.waiting = some t.job.target := by rw [hjob]
  have hpoll : poll s =
      ({ s with done := some (.error, t.job.target.canonical ++ " failed to start") }, true) := by
    rw [poll, hwaiting]
    simp [pollWaiting, hflows, hrt', hstate', hst, htarget', failureText]
  rw [hdone, show t'.done = none from hd, Option.isSome_none, if_neg Bool.false_ne_true, runOrder,
    hpoll]
  exact ⟨rfl, hflows, hstate, hcalls'.trans hcalls⟩

/-- What a control start of a failed unit comes to, once the rest of its order is up. -/
theorem advance_of_isFailed {deps : List UnitName} {t : Turn}
    (horder : t.job.order = deps ++ [t.job.target]) (hi : t.job.index = 0)
    (hw : t.job.waiting = none) (hd : t.done = none) (hnow : k.now < t.job.deadline)
    (hdeps : ∀ d ∈ deps, d ≠ t.job.target ∧ (t.manager.get d).any (·.state.isSatisfied) = true)
    (hrt : t.manager.get t.job.target = some rt) (hf : rt.state.isFailed = true)
    (hret : rt.retired = false) (hflow : t.flows.contains t.job.target = false) :
    (advance k t).done = some (.error, t.job.target.canonical ++ " failed to start") ∧
    (advance k t).flows.contains t.job.target = false ∧
    ((advance k t).manager.get t.job.target).map (·.state) = some rt.state ∧
    (advance k t).manager.calls = t.manager.calls := by
  unfold advance
  rw [if_neg (not_le.mpr hnow), hi, List.drop_zero, horder]
  obtain ⟨i, hrun⟩ := @runOrder_append_of_isSatisfied k deps [t.job.target] t hw hd hdeps
  rw [hrun]
  exact runOrder_of_isFailed (t := { t with job := { t.job with index := i } }) hw hd hrt hf hret
    hflow

end ControlStart

/-- The job of a control start works through the start order and ends with its unit. -/
theorem controlStart_of_startOrder {deps : List UnitName} (hex : m.unitExists u = true)
    (horder : (m.startOrder u).2 = .ok deps) :
    ∃ job, controlStart k m u = ((m.startOrder u).1, .start job) ∧ job.target = u ∧
      job.order = deps ++ [u] ∧ job.index = 0 ∧ job.waiting = none := by
  have hstart : m.startOrder u = ((m.startOrder u).1, .ok deps) := Prod.ext rfl horder
  generalize (m.startOrder u).1 = m' at hstart
  simp only [controlStart, hex, if_true, ControlStart.new, hstart]
  exact ⟨_, rfl, rfl, rfl, rfl, rfl⟩

theorem ne_of_mem_startOrder {deps : List UnitName} (horder : (m.startOrder u).2 = .ok deps) :
    ∀ d ∈ deps, d ≠ u := by
  unfold UnitManager.startOrder UnitManager.orderIn at horder
  split at horder
  · cases horder
  · dsimp only at horder
    split at horder
    · cases horder
    · obtain rfl := Except.ok.inj horder
      intro d hd
      simp only [List.mem_filter, Bool.and_eq_true, decide_eq_true_eq] at hd
      exact hd.2.1

/-- A control start of `u` got past its entry : a flow of the unit waits in a stage, or its
process was spawned, and the start is not answered with an error. -/
def Retried (before : UnitManager) (t : ControlStart.Turn) (u : UnitName) : Prop :=
  (t.flows.contains u = true ∨
    ∃ pid, Call.spawn u pid ∈ t.manager.calls.drop before.calls.length) ∧
  ∀ text, t.done ≠ some (.error, text)

/-- A control start of a failed unit is accepted, and then it is answered with an error and
the unit stays as it is, although everything it depends on is up. -/
theorem not_retried_of_isFailed {deps : List UnitName} {flows : Flows}
    (hex : m.unitExists u = true) (hf : m.isFailed u = true) (hflow : flows.contains u = false)
    (horder : (m.startOrder u).2 = .ok deps)
    (hdeps : ∀ d ∈ deps, (m.get d).any (·.state.isSatisfied) = true)
    (k' : Kernel) (reply : ReplySlot) (aux : AuxExits) :
    ∃ m' job, controlStart k m u = (m', .start job) ∧ ∀ t, t = ControlStart.advance k'
        { job := { job with reply := reply }, manager := m', flows := flows, aux := aux } →
      ¬Retried m t u ∧ (t.manager.get u).map (·.state) = (m.get u).map (·.state) ∧
      (k'.now < job.deadline → t.done = some (.error, u.canonical ++ " failed to start")) := by
  obtain ⟨rt, hrt, hfailed⟩ := (Option.any_eq_true _ _).mp hf
  have hret : rt.retired = false := by
    simpa [UnitManager.unitExists, hrt] using hex
  obtain ⟨job, hstart, rfl, hjob, hindex, hwaiting⟩ :=
    controlStart_of_startOrder (k := k) hex horder
  refine ⟨_, job, hstart, ?_⟩
  rintro t rfl
  have hget (v : UnitName) := m.get_startOrder job.target v
  by_cases hnow : k'.now < job.deadline
  · obtain ⟨hdone, hflows, hstate, -⟩ := ControlStart.advance_of_isFailed (k := k')
      (t := { job := { job with reply := reply }, manager := (m.startOrder job.target).1,
              flows := flows, aux := aux })
      hjob hindex hwaiting rfl hnow
      (fun d hd => ⟨ne_of_mem_startOrder horder d hd, by simpa only [hget] using hdeps d hd⟩)
      ((hget _).trans hrt) hfailed hret hflow
    exact ⟨fun h => h.2 _ hdone, hstate.trans (by rw [hrt, Option.map_some]), fun _ => hdone⟩
  · unfold ControlStart.advance
    rw [if_pos (not_lt.mp hnow)]
    exact ⟨fun h => h.2 _ rfl, by rw [hget], fun hlt => absurd hlt hnow⟩

/-! ## A concrete run -/

/-- A service whose start has failed. -/
def failedOnce : UnitManager :=
  ({} : UnitManager).apply (.granting 0 10) (.addWithInFlight (UnitConfig.new serviceA) false)
    |>.apply (.granting 0 10) (.failStart serviceA)

/-- The start that is asked for, once it was advanced. -/
def failedOnceStarted : Option ControlStart.Turn :=
  match controlStart (.granting 1 10) failedOnce serviceA with
  | (m, .start job) =>
    some (ControlStart.advance (.granting 1 10) { job := job, manager := m, flows := ∅, aux := ∅ })
  | (_, .reply _ _) => none

theorem not_retried_failedOnce : failedOnce.isFailed serviceA = true ∧
    ∃ m' job, controlStart (.granting 1 10) failedOnce serviceA = (m', .start job) ∧
      ∀ t, t = ControlStart.advance (.granting 1 10)
          { job := { job with reply := .waiting }, manager := m', flows := ∅, aux := ∅ } →
        ¬Retried failedOnce t serviceA ∧
        (t.manager.get serviceA).map (·.state) = (failedOnce.get serviceA).map (·.state) ∧
        ((Kernel.granting 1 10).now < job.deadline →
          t.done = some (.error, serviceA.canonical ++ " failed to start")) :=
  ⟨by decide, @not_retried_of_isFailed _ _ _ [] ∅ (by decide) (by decide) (by decide) (by decide)
    (by simp) (.granting 1 10) .waiting ∅⟩

/-- The start of the failed service is answered with an error, and spawns nothing. -/
theorem failedOnce_start_error : Reachable failedOnce ∧ failedOnce.unitExists serviceA = true ∧
    failedOnce.isFailed serviceA = true ∧
    failedOnceStarted.map (·.done) = some (some (.error, serviceA.canonical ++ " failed to start")) ∧
    ∀ t, failedOnceStarted = some t → ¬Retried failedOnce t serviceA := by
  have hdone : failedOnceStarted.map (·.done) =
      some (some (.error, serviceA.canonical ++ " failed to start")) := by decide
  refine ⟨.step _ _ (.step _ _ .new rfl) trivial, by decide, by decide, hdone, fun t ht h => ?_⟩
  rw [ht, Option.map_some] at hdone
  exact h.2 _ (Option.some.inj hdone)

end Rinit
