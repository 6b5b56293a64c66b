import Rinit.Control
import Rinit.Life

/-!
# An explicit stop

`controlStop` asks for a stop, and the stop stands until somebody asks for a start : the
unit never waits for a restart and its exit leaves it inactive (`stopStands_controlStop`). The one
state in which it does not is a unit that is already being stopped in order to be restarted.
Both the job queue and `stop` take a stop under way for all there is to do, so the intention
to restart stays.
-/

namespace Rinit

open Relation

/-! ## What leaves the requests alone -/

namespace UnitManager

/-- The requests on file and the starts that wait for a stop are the same. -/
structure SameRequests (m m' : UnitManager) : Prop where
  jobs : m'.jobs = m.jobs
  queuedStarts : m'.queuedStarts = m.queuedStarts

variable {k : Kernel} {m m' m'' : UnitManager}

theorem SameRequests.refl (m : UnitManager) : SameRequests m m := ⟨rfl, rfl⟩

theorem SameRequests.trans (h : SameRequests m m') (h' : SameRequests m' m'') :
    SameRequests m m'' :=
  ⟨h'.jobs.trans h.jobs, h'.queuedStarts.trans h.queuedStarts⟩

theorem sameRequests_put (m : UnitManager) (u : UnitName) (rt : Traced UnitRuntime) :
    SameRequests m (m.put u rt) :=
  ⟨rfl, rfl⟩

theorem sameRequests_update (m : UnitManager) (u : UnitName)
    (f : UnitRuntime → Traced UnitRuntime) : SameRequests m (m.update u f) := by
  unfold update
  split
  · exact sameRequests_put ..
  · exact .refl m

theorem sameRequests_failStart (k : Kernel) (m : UnitManager) (u : UnitName) :
    SameRequests m (m.failStart k u).1 :=
  (sameRequests_update m u _).trans ⟨rfl, rfl⟩

theorem sameRequests_onMainExit (k : Kernel) (m : UnitManager) (u : UnitName) (rt : UnitRuntime)
    (pid : Pid) (outcome : ExitOutcome) : SameRequests m (m.onMainExit k u rt pid outcome).1 := by
  unfold onMainExit
  split
  · exact sameRequests_put ..
  · dsimp only
    split
    · exact (sameRequests_put m u _).trans (sameRequests_failStart k _ u)
    · exact sameRequests_put ..

theorem sameRequests_onChildExit (k : Kernel) (m : UnitManager) (pid : Pid)
    (outcome : ExitOutcome) : SameRequests m (m.onChildExit k pid outcome).1 := by
  unfold onChildExit
  split
  · exact sameRequests_update ..
  · split
    · exact sameRequests_update ..
    · split
      · exact .refl m
      · split
        · exact .refl m
        · exact sameRequests_onMainExit ..

theorem sameRequests_restartUnit (k : Kernel) (m : UnitManager) (u : UnitName) :
    SameRequests m (m.restartUnit k u).1 := by
  have stopped : SameRequests m (m.stopUnit k u) := sameRequests_update ..
  rcases restartUnit_cases k m u with heq | ⟨-, heq | ⟨-, heq⟩⟩
  · rw [heq]
    exact .refl m
  · rw [heq]
    exact stopped
  · rw [heq]
    exact stopped.trans (sameRequests_update ..)

theorem sameRequests_startOrder (m : UnitManager) (u : UnitName) :
    SameRequests m (m.startOrder u).1 := by
  obtain ⟨cache, heq⟩ := m.startOrder_fst u
  rw [heq]
  exact ⟨rfl, rfl⟩

theorem sameRequests_instantiate {u : UnitName} (h : m.instantiate u = .ok m') :
    SameRequests m m' := by
  unfold instantiate at h
  split at h
  · cases h
  · obtain rfl := Except.ok.inj h
    exact ⟨rfl, rfl⟩

end UnitManager

/-- The operations that file or drop a request. -/
def Op.Requests : Op → Prop
  | .requestStart _ _ | .requestStop _ _ | .dueQueuedStarts | .stopConflicts _ | .retire _ => True
  | _ => False

theorem UnitManager.sameRequests_apply {k : Kernel} {m : UnitManager} {op : Op}
    (h : ¬op.Requests) : SameRequests m (m.apply k op) := by
  cases op with
  | requestStart | requestStop | dueQueuedStarts | stopConflicts | retire => exact absurd trivial h
  | addWithInFlight config inFlight =>
    unfold apply addWithInFlight
    dsimp only
    split
    · exact ⟨rfl, rfl⟩
    · split <;> exact ⟨rfl, rfl⟩
  | instantiate u =>
    have happly : m.apply k (.instantiate u) = (m.instantiate u).toOption.getD m := rfl
    rw [happly]
    cases hi : m.instantiate u with
    | error e => exact .refl m
    | ok m' => exact sameRequests_instantiate hi
  | pruneRetired =>
    unfold apply pruneRetired
    dsimp only
    split <;> exact ⟨rfl, rfl⟩
  | adoptPendingConfig u =>
    unfold apply adoptPendingConfig
    dsimp only
    split
    · exact ⟨rfl, rfl⟩
    · exact .refl m
  | startOrder u => exact sameRequests_startOrder m u
  | restartUnit u => exact sameRequests_restartUnit k m u
  | failStart u => exact sameRequests_failStart k m u
  | reachTarget u =>
    unfold apply reachTarget
    dsimp only
    split
    · exact .refl m
    · split
      · exact sameRequests_failStart k m u
      · exact sameRequests_update ..
  | beginSpawnUnit u =>
    unfold apply beginSpawnUnit
    dsimp only
    split
    · exact .refl m
    · exact ⟨rfl, rfl⟩
  | onNotify u message =>
    unfold apply onNotify
    dsimp only
    split
    · exact .refl m
    · exact ⟨rfl, rfl⟩
  | onChildExit pid outcome => exact sameRequests_onChildExit k m pid outcome
  | stopUnit | resetFailed | clearStartLimit | capStartDeadline | noteConnection =>
    exact sameRequests_update ..
  | compressStopTimeouts | dueIdleUnits | dueStartTimeouts | dueKills | dueHealthProbes
  | dueProbeTimeouts | dueRestarts | setTemplates | setListeners | setShutdownOrder | setCgroup
  | setBootInProgress | note => exact ⟨rfl, rfl⟩

/-! ## Whose target it is -/

/-- Stops outrank starts : a target that a stopping source holds is a stop, and only starts
are queued. -/
structure JobsSorted (m : UnitManager) : Prop where
  stops : ∀ u t, m.jobs.targetOf u = some t →
    RequestSource.userStop.rank ≤ t.source.rank → t.target = .stopped
  queued : ∀ (u : UnitName) source, m.queuedStarts[u]? = some source →
    source.rank ≤ RequestSource.userStart.rank

/-- A request from a source that may make it. -/
def Sorted (target : JobTarget) (source : RequestSource) : Prop :=
  match target with
  | .started => source.rank ≤ RequestSource.userStart.rank
  | .stopped => RequestSource.userStop.rank ≤ source.rank

namespace JobsSorted

variable {k : Kernel} {m m' : UnitManager} {u : UnitName}

theorem of_same (h : JobsSorted m) (hs : m.SameRequests m') : JobsSorted m' :=
  ⟨hs.jobs ▸ h.stops, hs.queuedStarts ▸ h.queued⟩

theorem erase_queued (h : JobsSorted m) (u : UnitName) :
    JobsSorted { m with queuedStarts := m.queuedStarts.erase u } := by
  refine ⟨h.stops, fun v source hv => ?_⟩
  rw [Std.ExtTreeMap.getElem?_erase] at hv
  split at hv
  · cases hv
  · exact h.queued v source hv

theorem forgetSpentTarget (h : JobsSorted m) (u : UnitName) :
    JobsSorted (m.forgetSpentTarget u) := by
  unfold UnitManager.forgetSpentTarget
  split
  · refine ⟨fun v t ht => ?_, h.queued⟩
    have ht' : (m.jobs.forget u).targetOf v = some t := ht
    rw [JobQueue.targetOf_forget] at ht'
    split at ht'
    · cases ht'
    · exact h.stops v t ht'
  · exact h

theorem filed (h : JobsSorted m) {target : JobTarget} {source : RequestSource}
    (hs : Sorted target source) : JobsSorted (m.filed k u target source) := by
  have hforget := h.forgetSpentTarget u
  refine ⟨fun v t ht hrank => ?_, hforget.queued⟩
  by_cases hv : v = u
  · subst hv
    rw [UnitManager.filed_targetOf] at ht
    obtain rfl := Option.some.inj ht
    have new : RequestSource.userStop.rank ≤ source.rank → target = .stopped := by
      cases target with
      | started => exact fun hle => absurd (hle.trans hs) (by decide)
      | stopped => exact fun _ => rfl
    cases hold : (m.forgetSpentTarget v).jobs.targetOf v with
    | none =>
      rw [hold] at hrank
      exact new hrank
    | some current =>
      rw [hold, JobQueue.winner] at hrank
      rw [JobQueue.winner]
      split at hrank
      · next hout =>
        rw [if_pos hout]
        exact new hrank
      · next hout =>
        rw [if_neg hout]
        exact hforget.stops v current hold hrank
  · refine hforget.stops v t ?_ hrank
    rw [← ht]
    exact (JobQueue.targetOf_submit_of_ne _ ⟨u, target, source, k.now⟩ hv).symm

theorem insert_queued (h : JobsSorted m) (u : UnitName) {source : RequestSource}
    (hs : source.rank ≤ RequestSource.userStart.rank) :
    JobsSorted { m with queuedStarts := m.queuedStarts.insert u source } := by
  refine ⟨h.stops, fun v source' hv => ?_⟩
  rw [Std.ExtTreeMap.getElem?_insert] at hv
  split at hv
  · obtain rfl := Option.some.inj hv
    exact hs
  · exact h.queued v source' hv

theorem applyNoneTransition (h : JobsSorted m) (u : UnitName) :
    JobsSorted (m.applyNoneTransition u) := by
  unfold UnitManager.applyNoneTransition
  split
  · split
    · exact h.of_same (UnitManager.sameRequests_update ..)
    · exact h
  · exact h

theorem submitRequest (h : JobsSorted m) {target : JobTarget} {source : RequestSource}
    (hs : Sorted target source) : JobsSorted (m.submitRequest k u target source).1 := by
  have hanswered : JobsSorted (m.answered k u target source) := by
    unfold UnitManager.answered
    split
    · exact (h.filed hs).applyNoneTransition u
    · exact h.filed hs
  rw [UnitManager.submitRequest_fst]
  cases target with
  | stopped => exact hanswered.erase_queued u
  | started =>
    dsimp only
    split
    · exact hanswered.insert_queued u hs
    · exact hanswered.of_same ⟨rfl, rfl⟩

theorem request (h : JobsSorted m) {target : JobTarget} {source : RequestSource}
    (hs : Sorted target source) : JobsSorted (m.request k u target source).1 := by
  unfold UnitManager.request
  split
  · exact h.submitRequest hs
  · split
    · exact h
    · next m' hm' => exact (h.of_same (UnitManager.sameRequests_instantiate hm')).submitRequest hs

theorem dueQueuedStarts (h : JobsSorted m) : JobsSorted (m.dueQueuedStarts k).1 := by
  unfold UnitManager.dueQueuedStarts
  refine Runs.foldl_induction (P := fun _ (s : UnitManager × List UnitName) => JobsSorted s.1) h ?_
  intro done e rest s hl hs
  have he : m.queuedStarts[e.1]? = some e.2 := by
    rw [← Std.ExtTreeMap.mem_toList_iff_getElem?_eq_some, hl]
    simp
  dsimp only
  unfold UnitManager.dueQueuedStart
  split
  · exact hs.erase_queued e.1
  · split
    · exact hs
    · exact (hs.erase_queued e.1).request (h.queued e.1 e.2 he)

theorem stopConflicts (h : JobsSorted m) (u : UnitName) : JobsSorted (m.stopConflicts k u).1 := by
  unfold UnitManager.stopConflicts
  split
  · exact h
  · refine Runs.foldl_induction (P := fun _ (s : UnitManager × List UnitName) => JobsSorted s.1)
      h ?_
    intro done other rest s _ hs
    dsimp only
    unfold UnitManager.stopConflict
    split
    · have hstop : Sorted .stopped .userStop := le_rfl
      exact (hs.request hstop).of_same (UnitManager.sameRequests_update ..)
    · exact hs

theorem apply (h : JobsSorted m) {op : Op} (hop : op.Promised) : JobsSorted (m.apply k op) := by
  by_cases hr : op.Requests
  · cases op with
    | requestStart u source => exact h.request hop
    | requestStop u source => exact h.request hop
    | dueQueuedStarts => exact h.dueQueuedStarts
    | stopConflicts u => exact h.stopConflicts u
    | retire u =>
      unfold UnitManager.apply UnitManager.retire
      dsimp only
      split
      · exact (h.erase_queued u).of_same ⟨rfl, rfl⟩
      · exact h.erase_queued u
    | _ => exact hr.elim
  · exact h.of_same (UnitManager.sameRequests_apply hr)

end JobsSorted

theorem Reachable.jobsSorted {m : UnitManager} (h : Reachable m) : JobsSorted m := by
  induction h with
  | new =>
    refine ⟨fun u t ht => ?_, fun u source hu => ?_⟩
    · cases ht
    · have hempty : ((∅ : Std.ExtTreeMap UnitName RequestSource compare))[u]? = none := by simp
      exact nomatch hempty.symm.trans hu
  | step k op _ hop ih => exact ih.apply hop

/-- A stop request holds the target, and a unit is acted on as a stop asks for. -/
theorem filed_stop_target {k : Kernel} {m : UnitManager} (h : JobsSorted m) (u : UnitName)
    {source : RequestSource} (hstop : Sorted .stopped source) :
    (m.filed k u .stopped source).targetOf u = some .stopped := by
  have htarget := UnitManager.filed_targetOf k m u .stopped source
  have hrank : RequestSource.userStop.rank ≤ (JobQueue.winner ⟨.stopped, source, k.now⟩
      ((m.forgetSpentTarget u).jobs.targetOf u)).source.rank := by
    cases (m.forgetSpentTarget u).jobs.targetOf u with
    | none => exact hstop
    | some current =>
      by_cases hout : JobQueue.outranks ⟨.stopped, source, k.now⟩ current = true
      · rw [JobQueue.winner, if_pos hout]
        exact hstop
      · rw [JobQueue.winner, if_neg hout]
        unfold JobQueue.outranks at hout
        rw [Bool.or_eq_true, not_or, decide_eq_true_eq] at hout
        exact hstop.trans (not_lt.mp hout.1)
  unfold UnitManager.targetOf
  rw [htarget, Option.map_some, (h.filed hstop).stops u _ htarget hrank]

theorem requestStop_spec {k : Kernel} {m : UnitManager} {u : UnitName} {rt : UnitRuntime}
    (h : JobsSorted m) (hrt : m.get u = some rt) :
    (m.requestStop k u .userStop).2 = JobQueue.action .stopped rt.state ∧
      (m.requestStop k u .userStop).1.get u = some (rt.settle .stopped) := by
  have htarget : (m.filed k u .stopped .userStop).targetOf u = some .stopped :=
    filed_stop_target h u le_rfl
  have hget : (m.filed k u .stopped .userStop).get u = some rt := by
    rw [UnitManager.filed_get, hrt]
  have heffect : (m.filed k u .stopped .userStop).effectFor u =
      JobQueue.action .stopped rt.state := by
    obtain ⟨t, ht, htt⟩ := Option.map_eq_some_iff.mp htarget
    simp [UnitManager.effectFor, hget, JobQueue.reconcile, ht, htt]
  have hrequest : m.requestStop k u .userStop = m.submitRequest k u .stopped .userStop := by
    simp [UnitManager.requestStop, UnitManager.request, hrt]
  rw [hrequest, UnitManager.submitRequest_snd]
  refine ⟨heffect, ?_⟩
  change (m.answered k u .stopped .userStop).get u = _
  unfold UnitManager.answered
  by_cases hn : JobQueue.action .stopped rt.state = some .none
  · simp [heffect, hn, UnitManager.applyNoneTransition, htarget, hget]
  · rw [heffect, if_neg hn, hget]
    cases hst : rt.state <;> simp [hst, JobQueue.action] at hn <;> simp [UnitRuntime.settle, hst]

/-! ## The stop stands -/

/-- The kernel delivers a signal to the process, or says that it is gone. -/
structure Kernel.Signals (k : Kernel) (pid : Pid) (signal : ℕ) : Prop where
  valid : 1 < pid ∧ pid ≠ k.getpid
  getpgid : ∀ e, k.getpgid pid = .error e → e = eSrch
  kill : ∀ target e, k.kill target signal = .error e → e = eSrch

/-- The unit is being stopped in order to be restarted. -/
def Restarting (rt : UnitRuntime) : Prop :=
  rt.state = .deactivating ∧ rt.restartAfterStop = true ∧ rt.pid.isSome = true

/-- A start or a restart of `u` is carried out. -/
def Starts (u : UnitName) (op : Op) : Prop := op = .beginSpawnUnit u ∨ op = .restartUnit u

/-- A unit that was stopped for good : its process is on its way out or not counted on. -/
structure StoppedForGood (u : UnitName) (rt : UnitRuntime) : Prop extends Serviced u rt where
  waits : rt.state ≠ .restartWait
  process : rt.pid.isSome = true → rt.probePid = none ∧
    (rt.state = .inactive ∨ rt.state = .deactivating ∧ rt.restartAfterStop = false)

theorem stoppedForGood_touch {k : Kernel} {m : UnitManager} {u : UnitName} {op : Op}
    {rt rt' : UnitRuntime} (hop : op.Promised) (hst : ¬Starts u op) (ht : Touch k m u op rt rt')
    (h : StoppedForGood u rt) : StoppedForGood u rt' := by
  have serviced := serviced_touch hop ht h.toServiced
  have gone (hp : rt'.pid = none) (hw : rt'.state ≠ .restartWait) : StoppedForGood u rt' :=
    ⟨serviced, hw, by simp [hp]⟩
  cases move_of_touch ht with
  | quiet hs hp _ hf hq =>
    refine ⟨serviced, hs ▸ h.waits, fun hp' => ?_⟩
    obtain ⟨h1, h2⟩ := h.process (hp ▸ hp')
    refine ⟨?_, ?_⟩
    · rcases hq with hq | hq | hact
      · exact hq.trans h1
      · exact hq
      · rcases h2 with h2 | ⟨h2, -⟩ <;> simp [hact] at h2
    · rw [hs]
      refine h2.imp id (And.imp id fun h2 => ?_)
      rcases hf with hf | hf
      · exact hf.trans h2
      · exact hf
  | settled _ _ hs hp _ _ hq =>
    exact ⟨serviced, by simp [hs], fun hp' => ⟨hq.trans (h.process (hp ▸ hp')).1, .inl hs⟩⟩
  | stopped _ _ hs _ hf hq =>
    rcases hs with ⟨hs, hp⟩ | ⟨hs, -⟩
    · exact gone hp (by simp [hs])
    · exact ⟨serviced, by simp [hs], fun _ => ⟨hq, .inr ⟨hs, hf⟩⟩⟩
  | flagged hop' => exact absurd (.inr hop') hst
  | cleared _ _ hs hp _ _ hq =>
    exact ⟨serviced, by simp [hs], fun hp' => ⟨hq.trans (h.process (hp ▸ hp')).1, .inl hs⟩⟩
  | failed _ _ hs hp =>
    exact gone hp fun hw => by simp [hw, UnitState.isFailed] at hs
  | dragged _ _ _ _ _ hs _ hp =>
    exact gone hp fun hw => by simp [hw, UnitState.isFailed] at hs
  | reached hop' _ hs hp =>
    subst hop'
    refine ⟨serviced, by simp [hs], fun hp' => ?_⟩
    have := h.service (hp ▸ hp')
    simp [show u.ty = .target from hop] at this
  | noProcess hop' | spawned hop' => exact absurd (.inl hop') hst
  | ready hs0 hs hp =>
    refine ⟨serviced, by rcases hs with hs | hs <;> simp [hs], fun hp' => ?_⟩
    rcases (h.process (hp ▸ hp')).2 with h2 | ⟨h2, -⟩ <;> simp [hs0] at h2
  | unhealthy _ hprobe hp => simp [(h.process hp).1] at hprobe
  | daemon _ hs0 hp =>
    rcases (h.process (by simp [hp])).2 with h2 | ⟨h2, -⟩ <;> simp [hs0] at h2
  | exited _ _ hs hp => exact gone hp hs
  | waiting _ hp _ _ _ _ hd =>
    rcases (h.process (by simp [hp])).2 with h2 | ⟨h2, h3⟩
    · exact absurd h2 hd.1
    · simp [hd.2 h2] at h3
  | killed _ _ _ hs hp => exact gone hp (by simp [hs])

theorem Kernel.Signals.killProcessGroup {k : Kernel} {pid : Pid} {signal : ℕ}
    (h : k.Signals pid signal)
    {e : Errno} (he : (k.killProcessGroup pid signal).val = .error e) : e = eSrch := by
  unfold Kernel.killProcessGroup at he
  rw [if_neg (not_le.mpr h.valid.1)] at he
  split at he
  · next e' hg =>
    obtain rfl := Except.error.inj he
    exact h.getpgid e' hg
  · exact h.kill _ e he

theorem Kernel.Signals.signalProcess {k : Kernel} {pid : Pid} {signal : ℕ} (h : k.Signals pid signal)
    {e : Errno} (he : (k.signalProcess pid signal).val = .error e) : e = eSrch := by
  unfold Kernel.signalProcess at he
  rw [if_neg (not_or.mpr ⟨not_le.mpr h.valid.1, h.valid.2⟩)] at he
  exact h.killProcessGroup he

theorem afterStopSignal_state {k : Kernel} {cg : Cgroup} {u : UnitName} {pid : Pid}
    {rt : UnitRuntime} {sent : Except Errno Unit} (h : ∀ e, sent = .error e → e = eSrch) :
    (rt.afterStopSignal k cg u pid sent).val.state = .inactive ∨
      (rt.afterStopSignal k cg u pid sent).val.state = .deactivating := by
  unfold UnitRuntime.afterStopSignal
  split
  · obtain ⟨es, ka, heq⟩ := UnitRuntime.escalate_eq k cg u { rt with state := .deactivating } pid
    rw [heq]
    exact .inr rfl
  · next e =>
    rw [if_pos (h e rfl)]
    exact .inl rfl

/-- A stop whose signal is not refused takes the unit down. -/
theorem stop_state {k : Kernel} {cg : Cgroup} {u : UnitName} {rt : UnitRuntime}
    (h : ∀ pid, rt.pid = some pid → k.Signals pid sigTerm) :
    (rt.stop k cg u).val.state = .inactive ∨ (rt.stop k cg u).val.state = .deactivating := by
  unfold UnitRuntime.stop
  split
  · next hd => exact .inr hd
  · rw [Traced.bind_val, UnitRuntime.quiesce_val]
    split
    · unfold UnitRuntime.stopLeftovers
      split
      · exact .inl rfl
      · rw [Traced.bind_val]
        dsimp only
        split <;> exact .inr rfl
    · next pid hp =>
      have hsig := h pid hp
      unfold UnitRuntime.stopProcess
      split
      · exact afterStopSignal_state fun e => hsig.signalProcess
      · rw [Traced.bind_val]
        split
        · next stopPid _ =>
          obtain ⟨es, ka, heq⟩ := UnitRuntime.escalate_eq k cg u
            { rt.quiet with execStopPid := some stopPid, state := .deactivating } pid
          rw [heq]
          exact .inr rfl
        · exact afterStopSignal_state fun e => hsig.killProcessGroup

theorem stoppedForGood_stop {k : Kernel} {cg : Cgroup} {u : UnitName} {rt : UnitRuntime}
    (h : Serviced u rt) (hd : rt.state ≠ .deactivating)
    (hsig : ∀ pid, rt.pid = some pid → k.Signals pid sigTerm) :
    StoppedForGood u (rt.stop k cg u).val := by
  have hst : (rt.stop k cg u).val.state = .inactive ∨ (rt.stop k cg u).val.state = .deactivating :=
    stop_state hsig
  have hs := rt.stopped_stop k cg u
  generalize (rt.stop k cg u).val = rt' at hs hst
  cases hs with
  | busy hd' => exact absurd hd' hd
  | gone _ hp => exact ⟨⟨h.filed.of_eq rfl rfl, by simp [hp]⟩, by simp, by simp [hp]⟩
  | delivered =>
    exact ⟨⟨h.filed.of_eq rfl rfl, h.service⟩, by simp, fun _ => ⟨rfl, .inr ⟨rfl, rfl⟩⟩⟩
  | refused _ _ =>
    refine ⟨⟨h.filed.of_eq rfl rfl, h.service⟩, ?_, fun _ => ⟨rfl, ?_⟩⟩
    · rcases hst with hst | hst <;> simp [hst]
    · exact hst.imp id fun hst => ⟨hst, rfl⟩

/-- A stop that is asked for stops the unit for good. -/
theorem stoppedForGood_controlStop {k : Kernel} {m : UnitManager} {u : UnitName} {rt : UnitRuntime}
    (hm : Reachable m) (hex : m.unitExists u = true) (hrt : m.get u = some rt)
    (hsig : ∀ pid, rt.pid = some pid → k.Signals pid sigTerm) (hr : ¬Restarting rt) :
    ∀ rt', (controlStop k m u).1.get u = some rt' → StoppedForGood u rt' := by
  have hserv := hm.serviced hrt
  have hprobing : Probing rt := hm.probing hrt
  obtain ⟨heffect, hget⟩ := requestStop_spec (k := k) hm.jobsSorted hrt
  generalize hreq : m.requestStop k u .userStop = r at heffect hget
  obtain ⟨m', effect⟩ := r
  dsimp only at heffect hget
  have down (hst : rt.settle .stopped = { rt with state := .inactive })
      (hact : rt.state ≠ .active) : StoppedForGood u (rt.settle .stopped) := by
    rw [hst]
    exact ⟨⟨hserv.filed.of_eq rfl rfl, hserv.service⟩, by simp,
      fun hp => ⟨hprobing hp hact, .inl rfl⟩⟩
  have stopping (hd : rt.state ≠ .deactivating) (hst : rt.settle .stopped = rt) (rt' : UnitRuntime)
      (hrt' : (m'.stopUnit k u).get u = some rt') : StoppedForGood u rt' := by
    rw [UnitManager.stopUnit, UnitManager.get_update, if_pos rfl, hget, hst] at hrt'
    obtain rfl := Option.some.inj hrt'
    exact stoppedForGood_stop hserv hd hsig
  unfold controlStop
  rw [hex, hrt]
  simp only [Bool.not_true, Bool.false_eq_true, if_false, hreq]
  intro rt' hrt'
  cases hst : rt.state with
  | inactive | activeExited | failed =>
    have hsettle : rt.settle .stopped = { rt with state := .inactive } := by
      simp [UnitRuntime.settle, hst]
    simp only [heffect, hst, JobQueue.action, hget] at hrt'
    exact Option.some.inj hrt' ▸ down hsettle (by simp [hst])
  | starting | active | restartWait =>
    have hsettle : rt.settle .stopped = rt := by simp [UnitRuntime.settle, hst]
    simp only [heffect, hst, JobQueue.action, applyEffect] at hrt'
    exact stopping (by simp [hst]) hsettle rt' hrt'
  | deactivating =>
    have hsettle : rt.settle .stopped = rt := by simp [UnitRuntime.settle, hst]
    simp only [heffect, hst, JobQueue.action, hget, hsettle] at hrt'
    obtain rfl := Option.some.inj hrt'
    refine ⟨hserv, by simp [hst], fun hp => ⟨hprobing hp (by simp [hst]), .inr ⟨hst, ?_⟩⟩⟩
    exact Bool.eq_false_iff.mpr fun hf => hr ⟨hst, hf, hp⟩

/-- The exit of a unit that was stopped for good leaves it inactive. -/
theorem exit_of_stoppedForGood {k : Kernel} {m : UnitManager} {u : UnitName} {pid : Pid}
    {outcome : ExitOutcome} (h : ∀ rt, m.get u = some rt → StoppedForGood u rt)
    (ho : m.ExitsMain pid u) :
    ((m.onChildExit k pid outcome).1.get u).map (·.state) = some .inactive := by
  obtain ⟨rt, hrt, hp⟩ := ho.get
  obtain ⟨-, hst⟩ := (h rt hrt).process (by simp [hp])
  have hdaemon : m.forkedDaemon k u rt outcome = none := by
    unfold UnitManager.forkedDaemon UnitManager.forks
    rcases hst with hst | ⟨hst, -⟩ <;> simp [hst]
  have hexit : (rt.mainExit k m.bootInProgress pid outcome).val =
      ({ rt.reaped outcome with state := .inactive }, .exited .inactive false) := by
    rw [UnitRuntime.mainExit_val]
    rcases hst with hst | ⟨hst, hf⟩
    · exact UnitRuntime.settleExit_of_inactive k (rt.reaped outcome) _ _ hst
    · exact UnitRuntime.settleExit_of_deactivating k (rt.reaped outcome) _ _ hst hf
  simp [UnitManager.onChildExit, ho.probe, ho.execStop, ho.main, hrt, UnitManager.onMainExit,
    hdaemon, hexit, UnitRuntime.Verdict.fails]

/-- Whether a stop of `u` beats whatever was in progress : in every run after it that does
not start or restart the unit, the unit does not wait for a restart and its exit leaves it
inactive. -/
def StopStands (m : UnitManager) (u : UnitName) : Prop :=
  ∀ m', Guarded (fun _ _ op => ¬Starts u op) m m' →
    (∀ rt, m'.get u = some rt → rt.state ≠ .restartWait) ∧
    ∀ k pid outcome, m'.ExitsMain pid u →
      ((m'.onChildExit k pid outcome).1.get u).map (·.state) = some .inactive

/-- An explicit stop stands, unless the unit is being stopped in order to be restarted. -/
theorem stopStands_controlStop {k : Kernel} {m : UnitManager} {u : UnitName} {rt : UnitRuntime}
    (hm : Reachable m) (hex : m.unitExists u = true) (hrt : m.get u = some rt)
    (hsig : ∀ pid, rt.pid = some pid → k.Signals pid sigTerm) (hr : ¬Restarting rt) :
    StopStands (controlStop k m u).1 u := by
  intro m' hrun
  have hgood : ∀ v rt', m'.get v = some rt' → v = u → StoppedForGood u rt' := by
    refine hrun.inv (P := fun v rt' => v = u → StoppedForGood u rt') ?_ ?_ ?_
    · rintro v rt' hrt' rfl
      exact stoppedForGood_controlStop hm hex hrt hsig hr rt' hrt'
    · rintro v config hn hk rfl
      exact ⟨⟨⟨hn, hk, fun c hc => by cases hc⟩, by simp [UnitRuntime.new]⟩,
        by simp [UnitRuntime.new], by simp [UnitRuntime.new]⟩
    · rintro k' m v op rt rt' hop hst ht hp rfl
      exact stoppedForGood_touch hop hst ht (hp rfl)
  exact ⟨fun rt' hrt' => (hgood u rt' hrt' rfl).waits,
    fun k' pid outcome ho => exit_of_stoppedForGood (fun rt' hrt' => hgood u rt' hrt' rfl) ho⟩

/-! ## Concrete runs -/

/-- A service that is up. -/
def up : UnitManager :=
  ({} : UnitManager).apply (.granting 0 10) (.addWithInFlight (UnitConfig.new serviceA) false)
    |>.apply (.granting 0 10) (.beginSpawnUnit serviceA)

theorem reachable_up : Reachable up := .step _ _ (.step _ _ .new rfl) trivial

theorem stopStands_up : (up.get serviceA).any (fun rt => rt.state = .active && rt.pid = some 10) ∧
    StopStands (controlStop (.granting 1 10) up serviceA).1 serviceA := by
  have hup : (up.get serviceA).any (fun rt => rt.state = .active && rt.pid = some 10) = true := by
    decide
  refine ⟨hup, ?_⟩
  obtain ⟨rt, hrt, hst⟩ := (Option.any_eq_true _ _).mp hup
  rw [Bool.and_eq_true, decide_eq_true_eq, decide_eq_true_eq] at hst
  refine stopStands_controlStop reachable_up (by decide) hrt (fun pid hp => ?_)
    fun h => (by cases hst.1.symm.trans h.1)
  obtain rfl := Option.some.inj (hst.2.symm.trans hp)
  exact ⟨by decide, fun e he => (by cases he), fun target e he => (by cases he)⟩

/-- The service is being restarted : its process has been asked to exit. -/
def restarting : UnitManager := up.apply (.granting 1 10) (.restartUnit serviceA)

/-- The service is stopped while it is being restarted. -/
def restartStopped : UnitManager := (controlStop (.granting 2 10) restarting serviceA).1

/-- The stop is answered, and the exit schedules the restart. -/
theorem not_stopStands_restarting : Reachable restarting ∧
    restarting.unitExists serviceA = true ∧
    (controlStop (.granting 2 10) restarting serviceA).2.1 = .ok ∧
    ((restartStopped.onChildExit (.granting 3 10) 10 .success).1.get serviceA).map (·.state) =
      some .restartWait ∧
    ¬StopStands restartStopped serviceA := by
  have hexit : ((restartStopped.onChildExit (.granting 3 10) 10 .success).1.get serviceA).map
      (·.state) = some .restartWait := by decide
  refine ⟨.step _ _ reachable_up trivial, by decide, by decide, hexit, fun h => ?_⟩
  have hinactive := (h _ .refl).2 (.granting 3 10) 10 .success
    ⟨by decide, by decide, by decide⟩
  cases hexit.symm.trans hinactive

end Rinit
