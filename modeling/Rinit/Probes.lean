import Rinit.BatchOrder

/-!
# Whose verdict a probe gives

A unit remembers its probe as one pid, without the process that was probed. `Watch` is what a run
remembers beside the manager : how often the unit was started, and its start and its main process
at the pass that spawned the probe. Every path that ends a process drops the probe with it, but for
a start that fails after its process was made : `failStart` leaves the probe in flight, and the next
start drops it (`clearLeftovers`). `probe_exit_of_run` : the exit of a probe changes its unit only
if the process that was probed is still the main process, or if the unit has no process since a
start of it failed, and there the verdict is noted and nothing else happens (`verdict_of_failed`).
-/

namespace Rinit

open Relation

/-! ## What a run remembers -/

/-- The starts of a unit so far, and of the last health pass that found no probe of it in
flight : the start and the main process at that time, and whether a start failed since. -/
structure Watch where
  starts : ℕ := 0
  probedStart : ℕ := 0
  probedPid : Option Pid := none
  failed : Bool := false
deriving DecidableEq, Repr

/-- What is remembered of `u` after an operation, where `o` is its entry before. -/
def Watch.step (w : Watch) (u : UnitName) (o : Option UnitRuntime) : Op → Watch
  | .beginSpawnUnit v =>
    if v = u ∧ o.bind UnitRuntime.pid = none then { w with starts := w.starts + 1 } else w
  | .dueHealthProbes =>
    if o.bind UnitRuntime.probePid = none then
      { w with probedStart := w.starts, probedPid := o.bind UnitRuntime.pid, failed := false }
    else w
  | .failStart v | .reachTarget v => if v = u then { w with failed := true } else w
  | _ => w

/-- A run of the manager, with what it remembers of every unit. -/
inductive Watched : (UnitName → Watch) → UnitManager → Prop
  | new : Watched (fun _ => {}) {}
  | step {w : UnitName → Watch} {m : UnitManager} (k : Kernel) (op : Op) (h : Watched w m)
    (hop : op.Promised) : Watched (fun u => (w u).step u (m.get u) op) (m.apply k op)

theorem Watched.reachable {w : UnitName → Watch} {m : UnitManager} (h : Watched w m) :
    Reachable m := by
  induction h with
  | new => exact .new
  | step k op _ hop ih => exact .step k op ih hop

/-- A probe in flight is of the process the unit has, in the same start, or a start failed and
the unit has no process. -/
def OwnProbe (w : Watch) (rt : UnitRuntime) : Prop :=
  rt.probePid.isSome = true →
    rt.pid = w.probedPid ∧ (rt.pid.isSome = true → w.starts = w.probedStart) ∨
    rt.pid = none ∧ w.failed = true

theorem OwnProbe.of_none {w : Watch} {rt : UnitRuntime} (h : rt.probePid = none) :
    OwnProbe w rt := fun hq => by
  rw [h] at hq
  cases hq

/-! ## One operation -/

theorem UnitRuntime.healthProbe_of_isSome {k : Kernel} {u : UnitName} {rt : UnitRuntime}
    (h : rt.probePid.isSome = true) : (rt.healthProbe k u).val.1.probePid = rt.probePid := by
  unfold healthProbe
  split
  · rfl
  · rfl

/-- Only the health pass spawns a probe, and only it and a unit that gets ready arm one. -/
theorem probeFields_touch {k : Kernel} {m : UnitManager} {u : UnitName} {op : Op}
    {rt rt' : UnitRuntime} (hne : op ≠ .dueHealthProbes) (ht : Touch k m u op rt rt') :
    rt'.probePid = none ∨
      rt'.probePid = rt.probePid ∧ (rt'.healthAt = rt.healthAt ∨ rt.state = .starting) := by
  cases ht with
  | @redefine config inFlight =>
    obtain ⟨_, _, _, heq, -⟩ := rt.redefine_eq config inFlight
    rw [heq]
    exact .inr ⟨rfl, .inl rfl⟩
  | adopt =>
    refine .inr ?_
    rcases rt.adoptPendingConfig_eq with heq | ⟨_, _, -, -, heq⟩ <;> rw [heq] <;>
      exact ⟨rfl, .inl rfl⟩
  | retire => exact .inl rfl
  | settle | conflictSettle =>
    refine .inr ?_
    rcases rt.settle_eq .stopped with heq | ⟨heq, -⟩ <;> rw [heq] <;> exact ⟨rfl, .inl rfl⟩
  | stop | restartStop | conflictStop =>
    have hs := rt.stopped_stop k m.cgroup u
    generalize (rt.stop k m.cgroup u).val = rt' at hs
    cases hs with
    | busy => exact .inr ⟨rfl, .inl rfl⟩
    | gone | delivered | refused => exact .inl rfl
  | restartFlag | resetFailed | clearStartLimit | compress | capStartDeadline | noteConnection
  | reachTarget => exact .inr ⟨rfl, .inl rfl⟩
  | failStart | failTarget | failExit =>
    refine .inr ?_
    rw [UnitRuntime.failOwn_val]
    split <;> exact ⟨rfl, .inl rfl⟩
  | dragDown =>
    refine .inr ?_
    unfold UnitRuntime.dragDown
    split <;> exact ⟨rfl, .inl rfl⟩
  | beginSpawn =>
    have hs := rt.spawned_beginSpawn k m.cgroup u
    generalize (rt.beginSpawn k m.cgroup u).val.1 = rt' at hs
    cases hs with
    | running => exact .inr ⟨rfl, .inl rfl⟩
    | kept | noProcess => exact .inl rfl
    | spawned _ _ _ _ _ hq => exact .inl hq
  | onNotify message =>
    refine .inr ?_
    rcases rt.onNotify_eq k message with ⟨_, heq⟩ | ⟨hs, _, _, _, _, -, heq⟩ <;> rw [heq]
    · exact ⟨rfl, .inl rfl⟩
    · exact ⟨rfl, .inr hs⟩
  | finishProbe outcome => exact .inl (rt.finishProbe_children k m.cgroup u outcome).1
  | execStopExit => exact .inr (by rw [UnitRuntime.execStopExit_val]; exact ⟨rfl, .inl rfl⟩)
  | daemonStarted _ hd => exact .inr ⟨rfl, .inr (UnitManager.forkedDaemon_eq_some hd).1⟩
  | @mainExit pid outcome =>
    have hs := rt.settled_mainExit k m.bootInProgress pid outcome
    generalize (rt.mainExit k m.bootInProgress pid outcome).val = r at hs
    cases hs with
    | state | wait | limit => exact .inl rfl
  | dueIdle =>
    obtain ⟨_, heq⟩ := rt.dueIdle_eq k
    exact .inr (by rw [heq]; exact ⟨rfl, .inl rfl⟩)
  | startTimeout =>
    obtain ⟨_, _, heq⟩ := rt.startTimeout_eq k m.cgroup u
    exact .inr (by rw [heq]; exact ⟨rfl, .inl rfl⟩)
  | kill =>
    refine .inr ?_
    rcases rt.kill_eq k m.cgroup u with ⟨_, _, heq⟩ | ⟨-, -, heq⟩ <;> rw [heq] <;>
      exact ⟨rfl, .inl rfl⟩
  | healthProbe => exact absurd rfl hne
  | probeTimeout =>
    obtain ⟨_, heq⟩ := rt.probeTimeout_eq k
    exact .inr (by rw [heq]; exact ⟨rfl, .inl rfl⟩)
  | dueRestart =>
    obtain ⟨_, heq, -⟩ := rt.dueRestart_eq k
    exact .inr (by rw [heq]; exact ⟨rfl, .inl rfl⟩)

/-- Outside the health pass a touch drops the probe of a unit, or keeps it with its process, or
adopts a daemon, or fails a start. -/
theorem probe_touch {k : Kernel} {m : UnitManager} {u : UnitName} {op : Op} {rt rt' : UnitRuntime}
    (hne : op ≠ .dueHealthProbes) (ht : Touch k m u op rt rt') :
    rt'.probePid = none ∨
    rt'.probePid = rt.probePid ∧ (rt'.pid = rt.pid ∨
      rt.pid.isSome = true ∧ rt.state = .starting ∨
      rt'.pid = none ∧ (op = .failStart u ∨ op = .reachTarget u)) := by
  cases move_of_touch ht with
  | quiet _ hp =>
    exact (probeFields_touch hne ht).imp id fun hq => ⟨hq.1, .inl hp⟩
  | settled _ _ _ hp _ _ hq | flagged _ _ _ hp _ hq | cleared _ _ _ hp _ _ hq
  | reached _ _ _ hp _ _ hq | ready _ _ hp _ _ hq => exact .inr ⟨hq, .inl hp⟩
  | stopped _ _ _ _ _ hq | noProcess _ _ _ _ _ _ hq | spawned _ _ _ _ _ _ _ hq
  | unhealthy _ _ _ _ _ hq | exited _ _ _ _ _ hq | waiting _ _ _ _ _ hq => exact .inl hq
  | failed hop _ _ hp _ _ hq => exact .inr ⟨hq, .inr (.inr ⟨hp, hop⟩)⟩
  | dragged _ _ _ _ _ _ hn hp _ _ hq => exact .inr ⟨hq, .inl (hp.trans hn.symm)⟩
  | daemon _ hst hpid _ _ _ _ hq => exact .inr ⟨hq, .inr (.inl ⟨by simp [hpid], hst⟩)⟩
  | killed _ _ hn _ hp _ _ hq => exact .inr ⟨hq, .inl (hp.trans hn.symm)⟩

namespace OwnProbe

variable {k : Kernel} {m : UnitManager} {u : UnitName} {op : Op} {rt rt' : UnitRuntime} {w : Watch}

theorem touch (hne : op ≠ .dueHealthProbes)
    (hfail : op = .failStart u ∨ op = .reachTarget u → w.failed = true) (hp : Probing rt)
    (ht : Touch k m u op rt rt') (h : OwnProbe w rt) : OwnProbe w rt' := by
  rcases probe_touch hne ht with hq | ⟨hq, hpid | ⟨hup, hst⟩ | ⟨hpid, hop⟩⟩
  · exact .of_none hq
  · unfold OwnProbe
    rw [hq, hpid]
    exact h
  · exact .of_none (hq.trans (hp hup (by simp [hst])))
  · exact fun _ => .inr ⟨hpid, hfail hop⟩

/-- Outside the health pass what is remembered only moves on where no probe can be in flight, or
where a start fails. -/
theorem step (h : OwnProbe w rt) (hne : op ≠ .dueHealthProbes) :
    OwnProbe (w.step u (some rt) op) rt := by
  intro hq
  cases op with
  | dueHealthProbes => exact absurd rfl hne
  | failStart v | reachTarget v =>
    unfold Watch.step
    dsimp only
    split
    · exact (h hq).imp id fun h => ⟨h.1, rfl⟩
    · exact h hq
  | beginSpawnUnit v =>
    unfold Watch.step
    dsimp only
    split
    · next hnone =>
      have hpid : rt.pid = none := hnone.2
      refine (h hq).imp (fun h => ⟨h.1, fun hup => ?_⟩) id
      rw [hpid] at hup
      cases hup
    · exact h hq
  | _ => exact h hq

end OwnProbe

/-- In every run a probe in flight is of the process its unit has, or its unit has none since a
start failed. -/
theorem Watched.ownProbe {w : UnitName → Watch} {m : UnitManager} (h : Watched w m) :
    ∀ u rt, m.get u = some rt → OwnProbe (w u) rt := by
  induction h with
  | new =>
    intro u rt hrt
    simp [UnitManager.get] at hrt
  | @step w m k op h hop ih =>
    have hprobing : ∀ u rt, m.get u = some rt → Probing rt := fun u rt hrt =>
      h.reachable.probing hrt
    by_cases hne : op = .dueHealthProbes
    · subst hne
      -- A unit without a probe is as the pass remembers it; one with a probe is left alone.
      refine fun u rt hrt => (UnitManager.inv_apply (k := k)
        (P := fun u rt => OwnProbe ((w u).step u (m.get u) .dueHealthProbes) rt ∧
          (rt.probePid = none → rt.pid = ((w u).step u (m.get u) .dueHealthProbes).probedPid ∧
            ((w u).step u (m.get u) .dueHealthProbes).starts =
              ((w u).step u (m.get u) .dueHealthProbes).probedStart))
        (fun u rt hrt => ?_) (fun u config hmk => by cases hmk) ?_ u rt hrt).1
      · rw [hrt]
        unfold Watch.step
        dsimp only [Option.bind_some]
        by_cases hq : rt.probePid = none
        · rw [if_pos hq]
          exact ⟨.of_none hq, fun _ => ⟨rfl, rfl⟩⟩
        · rw [if_neg hq]
          exact ⟨ih u rt hrt, fun hq' => absurd hq' hq⟩
      · intro u rt rt' ht hP
        cases ht with
        | dragDown hop => cases hop
        | healthProbe =>
          obtain ⟨_, _, _, heq, -⟩ := rt.healthProbe_eq k u
          have hpid : (rt.healthProbe k u).val.1.pid = rt.pid := by rw [heq]
          by_cases hq : rt.probePid = none
          · obtain ⟨h1, h2⟩ := hP.2 hq
            exact ⟨fun _ => .inl ⟨hpid.trans h1, fun _ => h2⟩, fun _ => ⟨hpid.trans h1, h2⟩⟩
          · have hsame := UnitRuntime.healthProbe_of_isSome (k := k) (u := u)
              (Option.isSome_iff_ne_none.mpr hq)
            refine ⟨?_, fun hq' => absurd (hsame.symm.trans hq') hq⟩
            unfold OwnProbe
            rw [hsame, hpid]
            exact hP.1
    · refine fun u rt hrt => (UnitManager.inv_apply (k := k)
        (P := fun u rt => OwnProbe ((w u).step u (m.get u) op) rt ∧ Probing rt)
        (fun u rt hrt => ?_) (fun u config hmk => ⟨.of_none rfl, fun hp => by cases hp⟩)
        (fun u rt rt' ht hP => ⟨hP.1.touch hne (fun hf => ?_) hP.2 ht,
          probing_move (move_of_touch ht) hP.2⟩) u rt hrt).1
      · rw [hrt]
        exact ⟨(ih u rt hrt).step hne, hprobing u rt hrt⟩
      · rcases hf with rfl | rfl <;> simp [Watch.step]

/-! ## The exit of a probe -/

/-- Without a process the verdict is noted and the next probe is scheduled. Nothing is signalled. -/
theorem UnitRuntime.finishProbe_of_idle (k : Kernel) (cg : Cgroup) (u : UnitName)
    (outcome : ExitOutcome) {rt : UnitRuntime} (h : rt.pid = none) :
    (rt.finishProbe k cg u outcome).calls = [] ∧
    ∃ healthy healthAt, (rt.finishProbe k cg u outcome).val =
      { rt with
        probePid := none, probeDeadline := none, healthy := healthy, healthAt := healthAt } := by
  unfold finishProbe
  dsimp only
  split
  · exact ⟨rfl, _, _, rfl⟩
  · split
    · next hp =>
      rw [h] at hp
      cases hp
    · exact ⟨rfl, _, _, rfl⟩

/-- In every run, the exit of a probe leaves every other unit as it is, and it changes its own
unit only if the main process of the unit is the one recorded when the probe was spawned, in the
same start, or if a start of the unit failed since and it has no process. In the second case the
verdict and the time of the next probe are noted, no process is signalled, and the state and the
intention to restart stay as they were. A unit with a process is therefore changed by probes of
that process alone. An exit that no unit records changes nothing. -/
theorem probe_exit_of_run {w : UnitName → Watch} {m : UnitManager} (h : Watched w m) (k : Kernel)
    (pid : Pid) (outcome : ExitOutcome) :
    (∀ u, m.probeOwner pid = some u → ∃ rt, m.get u = some rt ∧ rt.probePid = some pid ∧
      (∀ v, v ≠ u → (m.apply k (.onChildExit pid outcome)).get v = m.get v) ∧
      (rt.pid = (w u).probedPid ∧ (rt.pid.isSome = true → (w u).starts = (w u).probedStart) ∨
        rt.pid = none ∧ (w u).failed = true ∧
        (m.apply k (.onChildExit pid outcome)).calls = m.calls ∧
        ∃ healthy healthAt, (m.apply k (.onChildExit pid outcome)).get u = some { rt with
          probePid := none, probeDeadline := none, healthy := healthy, healthAt := healthAt })) ∧
    (m.probeOwner pid = none → m.execStopOwner pid = none → m.mainOwner pid = none →
      m.apply k (.onChildExit pid outcome) = m) := by
  refine ⟨fun u hu => ?_, fun hq hs hp => ?_⟩
  · obtain ⟨rt, hrt, hq⟩ := UnitManager.owner_eq_some hu
    have hq : rt.probePid = some pid := by simpa using hq
    have happly : m.apply k (.onChildExit pid outcome) =
        m.put u (rt.finishProbe k m.cgroup u outcome) := by
      change (m.onChildExit k pid outcome).1 = _
      rw [UnitManager.onChildExit, hu]
      simp only [UnitManager.update, hrt]
    refine ⟨rt, hrt, hq, fun v hv => ?_, ?_⟩
    · rw [happly, UnitManager.get_put, if_neg (Ne.symm hv)]
    · refine (h.ownProbe u rt hrt (by simp [hq])).imp id fun ⟨hnone, hfailed⟩ => ?_
      obtain ⟨hcalls, healthy, healthAt, hval⟩ :=
        UnitRuntime.finishProbe_of_idle k m.cgroup u outcome hnone
      refine ⟨hnone, hfailed, ?_, healthy, healthAt, ?_⟩
      · rw [happly]
        change m.calls ++ (rt.finishProbe k m.cgroup u outcome).calls = m.calls
        rw [hcalls, List.append_nil]
      · rw [happly, UnitManager.get_put, if_pos rfl, hval]
  · change (m.onChildExit k pid outcome).1 = m
    rw [UnitManager.onChildExit, hq, hs, hp]

/-- What the run up to the probe in flight remembers. -/
theorem watched_probed : ∃ w, Watched w probed ∧ (w serviceA).probedPid = some 10 :=
  ⟨_, .step _ _ (.step _ _ (.step _ _ .new rfl) trivial) trivial, by decide +kernel⟩

/-- The verdict of the probe of process 10, while this is the process of the service. -/
theorem probe_exit_probed : ∃ w rt, Watched w probed ∧ probed.get serviceA = some rt ∧
    rt.pid = (w serviceA).probedPid := by
  obtain ⟨w, hw, hpid⟩ := watched_probed
  have howner : probed.probeOwner 11 = some serviceA := by decide +kernel
  obtain ⟨rt, hrt, -, -, hown⟩ :=
    (probe_exit_of_run hw (.granting 2000 12) 11 (.failure 1)).1 serviceA howner
  have hup : rt.pid = some 10 := (get_probed hrt).2.1
  exact ⟨w, rt, hw, hrt, hup.trans hpid.symm⟩

/-- A start that fails while its service is probed : the probe is still in flight, and its exit
marks the failed unit, which has no process any more. -/
theorem not_own_verdict : ∃ w rt rt',
    Watched w (probed.apply (.granting 1500 12) (.failStart serviceA)) ∧
    (probed.apply (.granting 1500 12) (.failStart serviceA)).get serviceA = some rt ∧
    ((probed.apply (.granting 1500 12) (.failStart serviceA)).apply (.granting 2000 12)
      (.onChildExit 11 (.failure 1))).get serviceA = some rt' ∧
    rt.probePid = some 11 ∧ rt.pid ≠ (w serviceA).probedPid ∧ rt'.healthy ≠ rt.healthy := by
  obtain ⟨w, hw, hpid⟩ := watched_probed
  have hbefore : ((probed.apply (.granting 1500 12) (.failStart serviceA)).get serviceA).map
      (fun rt => (rt.pid, rt.probePid, rt.healthy)) = some (none, some 11, none) := by
    decide +kernel
  have hafter : (((probed.apply (.granting 1500 12) (.failStart serviceA)).apply
      (.granting 2000 12) (.onChildExit 11 (.failure 1))).get serviceA).map
        UnitRuntime.healthy = some (some false) := by decide +kernel
  obtain ⟨rt, hrt, hfields⟩ := Option.map_eq_some_iff.mp hbefore
  obtain ⟨rt', hrt', hhealthy⟩ := Option.map_eq_some_iff.mp hafter
  simp only [Prod.mk.injEq] at hfields
  refine ⟨_, rt, rt', .step _ _ hw trivial, hrt, hrt', hfields.2.1, ?_, ?_⟩
  · rw [hfields.1]
    simp [Watch.step, hpid]
  · rw [hhealthy, hfields.2.2]
    simp

end Rinit
