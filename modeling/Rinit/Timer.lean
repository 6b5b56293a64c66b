import Rinit.Life

/-!
# The restart timer

The timer of a unit should be armed only while the unit waits out a backoff. A failure that
is passed on to a dependent marks it failed and leaves its timer armed, so the invariant
holds in the runs whose steps never pass a failure on to a unit with an armed timer
(`SparesTimers`). There an armed timer means a unit in `restartWait` without a process, and
clearing a failure never leads to a start by the timer (`timer_of_run`).
-/

namespace Rinit

/-- No failure of the step reaches another unit whose timer is armed. -/
def SparesTimers (k : Kernel) (m : UnitManager) (op : Op) : Prop :=
  ∀ root, FailsUnit k m op root → ∀ d rt, d ≠ root → Fails m.units root d →
    m.get d = some rt → rt.restartAt = none

/-- The step reaps the main process of `u`. -/
def ExitOf (u : UnitName) (m : UnitManager) (op : Op) : Prop :=
  ∃ pid outcome rt, op = .onChildExit pid outcome ∧ m.get u = some rt ∧ rt.pid = some pid

/-- An armed timer belongs to a service that waits out a backoff. -/
structure Timed (u : UnitName) (rt : UnitRuntime) : Prop extends Serviced u rt where
  timer : rt.restartAt.isSome = true → rt.state = .restartWait ∧ rt.pid = none ∧ u.ty = .service

theorem Timed.timer_eq_none {u : UnitName} {rt : UnitRuntime} (h : Timed u rt)
    (hs : rt.state ≠ .restartWait ∨ rt.pid.isSome = true ∨ u.ty ≠ .service) :
    rt.restartAt = none := by
  by_contra hne
  obtain ⟨h1, h2, h3⟩ := h.timer (Option.isSome_iff_ne_none.mpr hne)
  rcases hs with hs | hs | hs
  · exact hs h1
  · rw [h2] at hs
    cases hs
  · exact hs h3

theorem timed_touch {k : Kernel} {m : UnitManager} {u : UnitName} {op : Op} {rt rt' : UnitRuntime}
    (hop : op.Promised) (hg : SparesTimers k m op) (ht : Touch k m u op rt rt') (h : Timed u rt) :
    Timed u rt' := by
  have serviced := serviced_touch hop ht h.toServiced
  -- Most moves leave an unarmed timer as it is.
  have unarmed (hn : rt.restartAt = none) (htimer : rt'.restartAt = rt.restartAt) : Timed u rt' :=
    ⟨serviced, by simp [htimer, hn]⟩
  cases move_of_touch ht with
  | quiet hs hp hra =>
    refine ⟨serviced, fun harm => ?_⟩
    rcases hra with hra | hra
    · rw [hs, hp]
      exact h.timer (hra ▸ harm)
    · simp [hra] at harm
  | settled _ hst _ _ htimer =>
    refine unarmed (h.timer_eq_none (.inl fun hw => ?_)) htimer
    rw [hw] at hst
    simp [UnitState.isFailed] at hst
  | cleared _ hst _ _ htimer =>
    refine unarmed (h.timer_eq_none (.inl fun hw => ?_)) htimer
    simp [hw, UnitState.isFailed] at hst
  | stopped _ _ _ htimer | failed _ _ _ _ htimer | spawned _ _ _ _ _ htimer =>
    exact ⟨serviced, by simp [htimer]⟩
  | flagged _ hst _ _ htimer | ready hst _ _ htimer | daemon _ hst _ _ _ htimer
  | killed _ hst _ _ _ htimer => exact unarmed (h.timer_eq_none (.inl (by simp [hst]))) htimer
  | dragged hop hne hr hrt _ _ _ _ htimer => exact unarmed (hg _ hop u rt hne hr hrt) htimer
  | reached hop' _ _ _ htimer =>
    subst hop'
    exact unarmed (h.timer_eq_none (.inr (.inr (by simp [show u.ty = .target from hop])))) htimer
  | noProcess _ hsp _ _ htimer =>
    refine unarmed (h.timer_eq_none (.inr (.inr fun hty => ?_))) htimer
    simp [h.spawns_iff.mpr hty] at hsp
  | unhealthy _ _ hpid _ htimer => exact unarmed (h.timer_eq_none (.inr (.inl hpid))) htimer
  | exited _ hpid _ _ htimer =>
    exact unarmed (h.timer_eq_none (.inr (.inl (by simp [hpid])))) htimer
  | waiting _ hpid hs hp => exact ⟨serviced, fun _ => ⟨hs, hp, h.service (by simp [hpid])⟩⟩

theorem timed_of_run {m : UnitManager} (h : Guarded SparesTimers {} m) {u : UnitName}
    {rt : UnitRuntime} (hrt : m.get u = some rt) : Timed u rt := by
  refine h.inv (P := Timed) (fun u rt h => by simp [UnitManager.get] at h) (fun u config hn hk => ?_)
    (fun _ _ _ _ _ _ hop hg ht => timed_touch hop hg ht) u rt hrt
  exact ⟨⟨⟨hn, hk, fun c hc => by cases hc⟩, by simp [UnitRuntime.new]⟩, by simp [UnitRuntime.new]⟩

/-- Only an exit of the unit arms its timer. -/
theorem unarmed_apply {k : Kernel} {m : UnitManager} {u : UnitName} {op : Op} (hx : ¬ExitOf u m op)
    (h : ∀ rt, m.get u = some rt → rt.restartAt = none) :
    ∀ rt, (m.apply k op).get u = some rt → rt.restartAt = none := by
  let P (v : UnitName) (rt : UnitRuntime) : Prop := v = u →
    rt.restartAt = none ∧ ∀ pid outcome, op = .onChildExit pid outcome → rt.pid ≠ some pid
  have hP : ∀ v rt, (m.apply k op).get v = some rt → P v rt := by
    refine UnitManager.inv_apply ?_ ?_ ?_
    · rintro v rt hrt rfl
      exact ⟨h rt hrt, fun pid outcome hop hp => hx ⟨pid, outcome, rt, hop, hrt, hp⟩⟩
    · rintro v config - -
      exact ⟨rfl, by simp [UnitRuntime.new]⟩
    · rintro v rt rt' ht hp rfl
      obtain ⟨htimer, hpid⟩ := hp rfl
      cases move_of_touch ht with
      | quiet _ hp hra =>
        exact ⟨hra.elim (·.trans htimer) id, fun pid o hop => hp ▸ hpid pid o hop⟩
      | settled _ _ _ hp hra | flagged _ _ _ hp hra | cleared _ _ _ hp hra
      | reached _ _ _ hp hra | ready _ _ hp hra =>
        exact ⟨hra.trans htimer, fun pid o hop => hp ▸ hpid pid o hop⟩
      | failed _ _ _ hp hra => exact ⟨hra, by simp [hp]⟩
      | dragged _ _ _ _ _ _ _ hp hra | noProcess _ _ _ hp hra | killed _ _ _ _ hp hra =>
        exact ⟨hra.trans htimer, by simp [hp]⟩
      | stopped hop _ _ hra =>
        refine ⟨hra, fun pid o hop' => ?_⟩
        rcases hop with hop | ⟨hop, -⟩ | ⟨⟨_, hop⟩, -⟩ <;> rw [hop] at hop' <;> cases hop'
      | spawned hop _ _ _ _ hra =>
        refine ⟨hra, fun pid o hop' => ?_⟩
        rw [hop] at hop'
        cases hop'
      | unhealthy _ _ _ hs hra =>
        refine ⟨hra.trans htimer, fun pid o hop => ?_⟩
        rcases hs with ⟨-, hp⟩ | ⟨-, hp⟩
        · exact hp ▸ hpid pid o hop
        · simp [hp]
      | daemon hop _ hp | exited hop hp | waiting hop hp => exact absurd hp (hpid _ _ hop)
  exact fun rt hrt => (hP u rt hrt rfl).1

theorem unarmed_of_run {m m' : UnitManager} {u : UnitName}
    (h : Guarded (fun _ m op => ¬ExitOf u m op) m m')
    (hm : ∀ rt, m.get u = some rt → rt.restartAt = none) :
    ∀ rt, m'.get u = some rt → rt.restartAt = none := by
  induction h with
  | refl => exact hm
  | tail _ hstep ih =>
    obtain ⟨k, op, -, hx, rfl⟩ := hstep
    exact unarmed_apply hx ih

/-- Whether the restart timer only ever runs for a unit that waits out a backoff, and a
cleared failure stays cleared : until the unit itself exits, the timer does not start it. -/
structure TimerSound (m : UnitManager) : Prop where
  timer : ∀ u rt, m.get u = some rt → rt.restartAt.isSome = true →
    rt.state = .restartWait ∧ rt.pid = none
  reset : ∀ u rt, (m.resetFailed u).get u = some rt → rt.state = .inactive →
    ∀ m', Guarded (fun _ m op => ¬ExitOf u m op) (m.resetFailed u) m' →
      ∀ k, u ∉ (m'.dueRestarts k).2

/-- In a run that never passes a failure on to a unit with an armed timer, the timers are
sound in every state. -/
theorem timer_of_run {m : UnitManager} (h : Guarded SparesTimers {} m) : TimerSound m where
  timer u rt hrt harm :=
    have ht := (timed_of_run h hrt).timer harm
    ⟨ht.1, ht.2.1⟩
  reset u rt hrt hst m' hrun k hdue := by
    have hreset : Guarded SparesTimers {} (m.resetFailed u) :=
      h.tail ⟨k, .resetFailed u, trivial, fun root hop => (by cases hop), rfl⟩
    have hunarmed (rt' : UnitRuntime) (hrt' : (m.resetFailed u).get u = some rt') :
        rt'.restartAt = none := by
      obtain rfl := Option.some.inj (hrt.symm.trans hrt')
      exact (timed_of_run hreset hrt).timer_eq_none (.inl (by simp [hst]))
    obtain ⟨rt', hrt', hdue⟩ := (UnitManager.mem_pass m' u).mp hdue
    have hnone := unarmed_of_run hrun hunarmed rt' hrt'
    simp only [Traced.pure_val, UnitRuntime.dueRestart, hnone] at hdue
    split at hdue <;> simp at hdue

/-! ## Concrete runs -/

/-- A service that is restarted whenever it exits, and requires another one. -/
def restarted : UnitConfig :=
  { UnitConfig.new serviceB with restart := .always, deps.requires := [serviceA] }

/-- The service is up. -/
def started : UnitManager :=
  ({} : UnitManager).apply (.granting 0 10) (.addWithInFlight restarted false)
    |>.apply (.granting 0 10) (.beginSpawnUnit serviceB)

/-- The service waits out a backoff after a crash. -/
def waitingOut : UnitManager := started.apply (.granting 1 10) (.onChildExit 10 (.failure 1))

theorem timer_of_run_waitingOut :
    (waitingOut.get serviceB).any (fun rt => rt.restartAt.isSome && rt.state = .restartWait) = true ∧
      TimerSound waitingOut := by
  refine ⟨by decide, timer_of_run ?_⟩
  have h1 : Guarded SparesTimers {} started :=
    (Relation.ReflTransGen.single ⟨.granting 0 10, .addWithInFlight restarted false, rfl,
      fun _ hop => (by cases hop), rfl⟩).tail
      ⟨.granting 0 10, .beginSpawnUnit serviceB, trivial, fun _ hop => (by cases hop), rfl⟩
  refine h1.tail ⟨.granting 1 10, .onChildExit 10 (.failure 1), trivial, ?_, rfl⟩
  -- The exit is restarted, so it fails nothing.
  rintro root (_ | _ | ⟨hrt, ho, -, hf⟩)
  obtain rfl : root = serviceB := Option.some.inj (ho.main.symm.trans (by decide))
  have hfails : (started.get serviceB).any (fun rt => (rt.mainExit (.granting 1 10)
      started.bootInProgress 10 (.failure 1)).val.2.fails) = false := by decide
  rw [hrt, Option.any_some, hf] at hfails
  cases hfails

/-- The required unit fails to start while its dependent waits out a backoff. -/
def requirementFailed : UnitManager := waitingOut.apply (.granting 2 10) (.failStart serviceA)

/-- The dependent is failed with its timer armed, and once its failure is cleared the timer
starts it. -/
theorem not_timerSound_requirementFailed : Reachable requirementFailed ∧
    (requirementFailed.get serviceB).map (·.state) = some (.failed .startFailure) ∧
    ((requirementFailed.resetFailed serviceB).get serviceB).map (·.state) = some .inactive ∧
    serviceB ∈ ((requirementFailed.resetFailed serviceB).dueRestarts (.granting 5000 10)).2 ∧
    ¬TimerSound requirementFailed := by
  have hdue : serviceB ∈
      ((requirementFailed.resetFailed serviceB).dueRestarts (.granting 5000 10)).2 := by decide
  refine ⟨?_, by decide, by decide, hdue, fun h => ?_⟩
  · refine .step _ _ (.step _ _ (.step _ _ (.step _ _ .new rfl) trivial) trivial) trivial
  · have hst : ((requirementFailed.resetFailed serviceB).get serviceB).any
        (fun rt => rt.state = .inactive) = true := by decide
    obtain ⟨rt, hrt, hst⟩ := (Option.any_eq_true _ _).mp hst
    exact h.reset serviceB rt hrt (by simpa using hst) _ .refl _ hdue

end Rinit
