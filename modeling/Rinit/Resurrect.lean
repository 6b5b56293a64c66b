import Rinit.Loop

/-!
# Timers and failed units

A failed unit is to stay failed until somebody asks for it. `failureStands_of_run` : in every
run of the loop whose idle passes do not find the unit's deadline due, it keeps its failure
and no connection starts it. The deadline is armed when the process is made and by every
connection, and the exit of the process does not clear it, so the idle pass stops a unit that
crashed and the next connection starts it again (`not_failureStands_idle`).
-/

namespace Rinit

open Relation

namespace Supervisor

/-! ## Runs of the loop -/

/-- One step of the loop that meets `G`. -/
def Step (G : Kernel → Supervisor → Input → Prop) (s s' : Supervisor) : Prop :=
  ∃ k input, G k s input ∧ s' = s.step k input

/-- A run of the loop all of whose steps meet `G`. -/
def Run (G : Kernel → Supervisor → Input → Prop) : Supervisor → Supervisor → Prop :=
  ReflTransGen (Step G)

/-- The states the loop gets into, whatever is in the unit directory. -/
inductive Reached : Supervisor → Prop
  | init {files : List UnitFile} {warnings : List String} {target : String} {plan : BootPlan}
    (k : Kernel) (cgroup : Cgroup)
    (h : BootPlan.planBoot files warnings target = .ok plan) : Reached (init k plan cgroup)
  | step {s : Supervisor} (k : Kernel) (input : Input) (h : Reached s) : Reached (s.step k input)

variable {k : Kernel} {s s' : Supervisor} {u : UnitName} {rt : UnitRuntime}

theorem sound_init {plan : BootPlan} (hp : plan.Proper) (k : Kernel) (cgroup : Cgroup) :
    (init k plan cgroup).Sound := by
  refine ⟨reachable_prepareUnits hp k cgroup, ?_⟩
  rintro _ ⟨⟩
  exact ⟨hp, fun u hu => by cases hu⟩

theorem Reached.sound (h : Reached s) : s.Sound := by
  induction h with
  | init k cgroup h => exact sound_init (BootPlan.proper_of_planBoot h) k cgroup
  | step k input _ ih => exact (steady_step k ih input).1

/-! ## Connections -/

/-- A connection to a failed unit starts nothing. -/
theorem starts_connection (hf : s.manager.isFailed u = true) (hp : s.manager.isRunning u = false)
    (k : Kernel) : (s.step k (.connection u)).starts = s.starts := by
  have hnote : (s.manager.noteConnection k u).isFailed u = true ∧
      (s.manager.noteConnection k u).isRunning u = false := by
    obtain ⟨rt, hrt, hfailed⟩ := (Option.any_eq_true _ _).mp hf
    have hstate : (rt.noteConnection k).state = rt.state ∧ (rt.noteConnection k).pid = rt.pid :=
      ⟨rfl, rfl⟩
    simp only [UnitManager.isRunning, hrt, Option.any_some] at hp
    simp [UnitManager.isFailed, UnitManager.isRunning, UnitManager.noteConnection, hrt, hstate,
      hfailed, hp]
  show (s.connection k u).starts = s.starts
  unfold connection
  split
  · rfl
  · split
    · rfl
    · unfold tryStartSocket
      simp [hnote]

/-! ## Failures stand -/

/-- The unit is as failed as it was, and a connection does not start it. -/
def FailureStands (s : Supervisor) (u : UnitName) (failure : UnitState) : Prop :=
  (∃ rt, s.manager.get u = some rt ∧ rt.state = failure) ∧
    ∀ k, (s.step k (.connection u)).starts = s.starts

theorem failureStands_of_get (hs : s.Sound) (hrt : s.manager.get u = some rt)
    (hf : rt.state.isFailed = true) : FailureStands s u rt.state := by
  have hidle := hs.reachable.failedIdle hrt hf
  exact ⟨⟨rt, hrt, rfl⟩, starts_connection (by simp [UnitManager.isFailed, hrt, hf])
    (by simp [UnitManager.isRunning, hrt, hidle])⟩

/-- A failed unit nobody asks for stays as it is, unless an idle pass finds its deadline
due. -/
theorem failureStands_of_run (hs : Reached s) (hrt : s.manager.get u = some rt)
    (hf : rt.state.isFailed = true)
    (hrun : Run (fun k s input => ¬s.Asks u input ∧ (input = .idle → ¬IdleDue k s u)) s s') :
    FailureStands s' u rt.state := by
  have hkept : s'.Sound ∧ ∃ rt', s'.manager.get u = some rt' ∧ rt'.state = rt.state := by
    induction hrun with
    | refl => exact ⟨hs.sound, rt, hrt, rfl⟩
    | tail _ hstep ih =>
      obtain ⟨hsound, rt', hrt', hst'⟩ := ih
      obtain ⟨k, input, hspared, rfl⟩ := hstep
      obtain ⟨hsound', hsteady⟩ := steady_step k hsound input
      obtain ⟨rt'', hrt'', hst''⟩ := hsteady.failed hsound.reachable u rt' hspared hrt' (hst' ▸ hf)
      exact ⟨hsound', rt'', hrt'', hst''.trans hst'⟩
  obtain ⟨hsound, rt', hrt', hst'⟩ := hkept
  rw [← hst']
  exact failureStands_of_get hsound hrt' (hst' ▸ hf)

/-! ## A service behind a socket -/

/-- A directory with one service that is started by connections and stopped when idle. -/
def socketService : List UnitFile :=
  [{ name := serviceA
     path := "/etc/rinit/a.service"
     contents := "[Service]\nExecStart=/bin/a\nSocketActivate=/run/a\nIdleTimeoutSec=5\n" }]

/-- Run a list of steps, each with its time and the pid a fork gives. -/
def steps (s : Supervisor) (l : List (ℕ × Pid × Input)) : Supervisor :=
  l.foldl (fun s e => s.step (.granting e.1 e.2.1) e.2.2) s

/-- The boot is over, a connection has started the service and its process has crashed. -/
def crashed (plan : BootPlan) : Supervisor :=
  (init (.granting 0 10) plan none).steps
    [(1, 10, .boot), (2, 10, .connection serviceA), (3, 10, .advance),
      (5, 10, .reap [(10, .failure 1)])]

theorem Reached.steps (h : Reached s) (l : List (ℕ × Pid × Input)) : Reached (s.steps l) := by
  induction l generalizing s with
  | nil => exact h
  | cons e l ih => exact ih (h.step (.granting e.1 e.2.1) e.2.2)

/-- Something holds after some steps from the boot of a directory, once it has been evaluated
on the plan. -/
theorem exists_reached (files : List UnitFile) (target : String) {l : List (ℕ × Pid × Input)}
    {p : Supervisor → Bool} (h : ((BootPlan.planBoot files [] target).toOption.map fun plan =>
      (init (.granting 0 10) plan none).steps l).any p = true) : ∃ s, Reached s ∧ p s = true := by
  obtain ⟨s, hs, hp⟩ := (Option.any_eq_true _ _).mp h
  obtain ⟨plan, hplan, rfl⟩ := Option.map_eq_some_iff.mp hs
  have hok := Runs.eq_ok_of_toOption hplan
  exact ⟨_, (Reached.init (.granting 0 10) none hok).steps l, hp⟩

/-- Something holds of the crashed service, once it has been evaluated on the plan. -/
theorem exists_crashed {p : Supervisor → Bool}
    (h : ((BootPlan.planBoot socketService [] "a.service").toOption.map crashed).any p = true) :
    ∃ s, Reached s ∧ p s = true := by
  unfold crashed at h
  exact exists_reached _ _ h

/-- An idle pass before the deadline and a connection leave the crashed service failed. -/
theorem failureStands_crashed : ∃ s, Reached s ∧
    (s.manager.get serviceA).any (fun rt => rt.state = .failed .startFailure) = true ∧
    FailureStands (s.steps [(7, 11, .idle), (8, 11, .connection serviceA)]) serviceA
      (.failed .startFailure) := by
  obtain ⟨s, hs, hp⟩ := exists_crashed (p := fun s => (s.manager.get serviceA).any fun rt =>
    rt.state = .failed .startFailure && !rt.idleAt.any (· ≤ 7)) (by decide +kernel)
  obtain ⟨rt, hrt, hst⟩ := (Option.any_eq_true _ _).mp hp
  rw [Bool.and_eq_true, decide_eq_true_eq, Bool.not_eq_true'] at hst
  refine ⟨s, hs, by simp [hrt, hst.1], ?_⟩
  rw [← hst.1]
  refine failureStands_of_run hs hrt (by simp [hst.1, UnitState.isFailed])
    (.tail (b := s.steps [(7, 11, .idle)]) (.single ?_) ?_)
  · refine ⟨.granting 7 11, .idle, ⟨id, fun _ hdue => ?_⟩, rfl⟩
    simp only [IdleDue, hrt, Option.any_some] at hdue
    exact Bool.false_ne_true (hst.2.symm.trans hdue)
  · exact ⟨.granting 8 11, .connection serviceA, ⟨id, fun h => by cases h⟩, rfl⟩

/-- The idle pass takes the crashed service out of its failure, and the next connection
starts it. -/
theorem not_failureStands_idle : ∃ s s', Reached s ∧
    (s.manager.get serviceA).any (fun rt => rt.state = .failed .startFailure) = true ∧
    Run (fun _ s input => input = .idle ∧ ¬s.Asks serviceA input) s s' ∧
    (s'.manager.get serviceA).any (fun rt => rt.state = .inactive) = true ∧
    ((s'.steps [(6001, 11, .connection serviceA), (6002, 11, .advance)]).manager.get serviceA).any
      (fun rt => rt.state = .active && rt.pid = some 11) = true ∧
    ¬FailureStands s' serviceA (.failed .startFailure) := by
  obtain ⟨s, hs, hp⟩ := exists_crashed (p := fun s =>
    (s.manager.get serviceA).any (fun rt => rt.state = .failed .startFailure) &&
    ((s.steps [(6000, 11, .idle)]).manager.get serviceA).any (fun rt => rt.state = .inactive) &&
    ((s.steps [(6000, 11, .idle), (6001, 11, .connection serviceA),
      (6002, 11, .advance)]).manager.get serviceA).any
        fun rt => rt.state = .active && rt.pid = some 11) (by decide +kernel)
  rw [Bool.and_eq_true, Bool.and_eq_true] at hp
  refine ⟨s, s.steps [(6000, 11, .idle)], hs, hp.1.1, .single ?_, hp.1.2, hp.2, ?_⟩
  · exact ⟨.granting 6000 11, .idle, ⟨rfl, id⟩, rfl⟩
  · rintro ⟨⟨rt, hrt, hst⟩, -⟩
    have hinactive := hp.1.2
    simp [hrt, hst] at hinactive

end Supervisor

end Rinit
