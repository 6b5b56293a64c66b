import Rinit.Steady

/-!
# What the loop does to failed units

Every step of the supervisor loop is a run of the manager's operations, and for each of them
`Supervisor.steady_step` names the failed units it may change : the unit an operator asks to
start, stop or reset, a tombstone that a reload prunes, and a unit whose idle deadline is due.
-/

namespace Rinit

open Relation

/-! ## Requests -/

section Requests

variable {P : UnitName → Prop} {k : Kernel} {m : UnitManager} {u : UnitName}

theorem ControlStart.steady_new (k : Kernel) (m : UnitManager) (u : UnitName) :
    Steady P m (ControlStart.new k m u).1 := by
  rw [ReloadState.controlStart_new_fst]
  exact .startOrder m u

/-- A start request makes an instance only where there is no unit. -/
theorem steady_controlStart (k : Kernel) (hP : m.unitExists u = false → ¬P u) :
    Steady P m (controlStart k m u).1 := by
  rcases controlStart_cases k m u with ⟨-, heq⟩ | ⟨-, -, heq⟩ | ⟨hnone, -, ⟨-, heq⟩ | ⟨m', hmk, heq⟩⟩
  · rw [heq]
    exact ControlStart.steady_new k m u
  · rw [heq]
    exact .refl m
  · rw [heq]
    exact .refl m
  · have happly : Steady P m (m.apply k (.instantiate u)) := by
      refine .apply k m (.instantiate u) trivial fun v hv => ?_
      rintro rfl
      exact hP hnone hv
    rw [UnitManager.apply, hmk] at happly
    rw [heq]
    exact happly.trans (ControlStart.steady_new k m' u)

theorem steady_applyEffect (k : Kernel) (m : UnitManager) (u : UnitName) (effect : Option Effect) :
    Steady (· ≠ u) m (applyEffect k m u effect).1 := by
  have hstop : Steady (· ≠ u) m (m.stopUnit k u) :=
    .apply k m (.stopUnit u) trivial fun _ hv => hv.symm
  unfold applyEffect
  split
  · exact .refl m
  · exact .refl m
  · exact .refl m
  · exact .refl m
  · exact .refl m
  · exact hstop
  · exact hstop
  · exact .refl m

theorem steady_requestStop (k : Kernel) (m : UnitManager) (u : UnitName) :
    Steady (· ≠ u) m (m.requestStop k u .userStop).1 :=
  .apply k m (.requestStop u .userStop) le_rfl fun _ hv => hv.symm

theorem steady_controlStop (k : Kernel) (m : UnitManager) (u : UnitName) :
    Steady (· ≠ u) m (controlStop k m u).1 := by
  have hreq := steady_requestStop k m u
  unfold controlStop
  split
  · exact .refl m
  · split
    · exact .refl m
    · dsimp only
      generalize m.requestStop k u .userStop = r at hreq
      obtain ⟨m', effect⟩ := r
      have heffect := steady_applyEffect k m' u effect
      split
      · next h => exact congrArg Prod.fst h ▸ hreq
      · next h => exact congrArg Prod.fst h ▸ hreq
      · next h =>
        obtain ⟨rfl, rfl⟩ := Prod.mk.inj h
        generalize applyEffect k _ u _ = r at heffect
        obtain ⟨m'', e | ok⟩ := r <;> exact hreq.trans heffect

/-- A restart of a failed unit is a start of it, which leaves it failed. -/
theorem steady_controlRestart (k : Kernel) (m : UnitManager) (u : UnitName) :
    SteadyAll m (controlRestart k m u).1 := by
  unfold controlRestart
  split
  · exact .refl m
  · next hexists =>
    have hrestart : SteadyAll m (m.restartUnit k u).1 :=
      .apply k m (.restartUnit u) trivial fun _ _ => trivial
    refine .of_ne (u := u) ?_ fun hf => ?_
    · generalize m.restartUnit k u = r at hrestart
      obtain ⟨m', plan⟩ := r
      cases plan with
      | stopping => exact hrestart.of_all
      | start => exact hrestart.of_all.trans (steady_controlStart k fun _ h => h rfl)
      | notApplicable => exact hrestart.of_all
    · obtain ⟨rt, hrt, hfailed⟩ := (Option.any_eq_true _ _).mp hf
      obtain ⟨reason, hst⟩ := UnitState.isFailed_iff.mp hfailed
      have hplan : m.restartUnit k u = (m, .start) := by simp [UnitManager.restartUnit, hrt, hst]
      rw [hplan]
      exact steady_controlStart k fun h => by simp [h] at hexists

end Requests

/-! ## The coordinator -/

namespace StartCoordinator

variable {P : UnitName → Prop}

theorem steady_begin (k : Kernel) (c : StartCoordinator) (m : UnitManager) (u : UnitName) :
    Steady P m (c.begin_ k m u).1 :=
  steady_beginFlow k m c.flows u

theorem steady_startAsync (k : Kernel) (c : StartCoordinator) (m : UnitManager) (u : UnitName) :
    Steady P m (c.startAsync k m u).1 := by
  have hnew : Steady P m (ControlStart.new k m u).1 := ControlStart.steady_new k m u
  unfold startAsync
  generalize ControlStart.new k m u = r at hnew
  obtain ⟨m', e | job⟩ := r <;> exact hnew

theorem steady_removeFlow (k : Kernel) (c : StartCoordinator) (m : UnitManager) (u : UnitName) :
    Steady P m (c.removeFlow k m u).1 := by
  unfold removeFlow
  split
  · exact .refl m
  · dsimp only
    split
    · exact .refl m
    · exact .note m _

theorem steady_advanceFlow (k : Kernel) (s : UnitManager × StartCoordinator) (u : UnitName) :
    SteadyAll s.1 (advanceFlow k s u).1 := by
  unfold advanceFlow
  split
  · exact .refl s.1
  · next flow _ =>
    have hadv := StartFlow.steady_advance k { flow := flow, manager := s.1, aux := s.2.auxExits }
    dsimp only
    split
    · exact hadv.trans (steady_removeFlow k _ _ u)
    · exact hadv

theorem steady_advanceControls (k : Kernel) (l : List ControlStart) (m : UnitManager)
    (flows : Flows) (aux : AuxExits) : SteadyAll m (advanceControls k l m flows aux).1 := by
  induction l generalizing m flows aux with
  | nil => exact .refl m
  | cons job l ih =>
    unfold advanceControls
    split
    · exact ih m flows aux
    · have hadv := ControlStart.steady_advance k
        { job := job, manager := m, flows := flows, aux := aux }
      dsimp only
      split <;> exact hadv.trans (ih _ _ _)

theorem steady_advance (k : Kernel) (c : StartCoordinator) (m : UnitManager) :
    SteadyAll m (c.advance k m).1 :=
  (Steady.foldl Prod.fst (fun s u _ => steady_advanceFlow k s u) (m, c)).trans
    (steady_advanceControls k _ _ _ _)

theorem steady_afterReload (k : Kernel) (c : StartCoordinator) (m : UnitManager) :
    Steady P m (c.afterReload k m).1 :=
  Steady.foldl Prod.fst (fun s u _ => steady_removeFlow k s.2 s.1 u) (m, c)

end StartCoordinator

/-! ## Reloads -/

namespace ReloadState

variable {k : Kernel} {s s' : ReloadState} {plan : BootPlan} {u : UnitName} {rt : UnitRuntime}

theorem redefine_state (rt : UnitRuntime) (config : UnitConfig) (inFlight : Bool) :
    (rt.redefine config inFlight).1.state = rt.state := by
  unfold UnitRuntime.redefine
  dsimp only
  split
  · rfl
  · split <;> rfl

theorem removed_state (hup : rt.isUp = false) (k : Kernel) (cg : Cgroup) (u : UnitName) :
    (rt.removed k cg u).state = rt.state := by
  unfold UnitRuntime.removed
  rw [if_neg (by simp [hup])]
  rfl

/-- A reload keeps a failed unit that is not a tombstone already. -/
theorem Reloaded.failed (h : Reloaded k plan s s') (hm : Reachable s.manager)
    (hrt : s.manager.get u = some rt) (hf : rt.state.isFailed = true) (hret : rt.retired = false) :
    ∃ rt', s'.manager.get u = some rt' ∧ rt'.state = rt.state := by
  have hup : rt.isUp = false := by
    obtain ⟨reason, hst⟩ := UnitState.isFailed_iff.mp hf
    simp [UnitRuntime.isUp, hm.failedIdle hrt hf, hst]
  have hkept : unpruned s.manager u = some rt := by
    simp [unpruned, hrt, not_prunable_of_not_retired hret]
  rw [h.get u, reloaded, hkept]
  split
  · exact ⟨_, rfl, redefine_state rt _ _⟩
  · split
    · exact ⟨_, rfl, removed_state hup k _ u⟩
    · exact ⟨rt, rfl, rfl⟩

theorem steady_reload (k : Kernel) (files : List UnitFile) (warnings : List String)
    (target : String) (s : ReloadState) :
    Steady (fun u => (s.manager.get u).any (·.retired) = false) s.manager
      (reload k files warnings target s).1.manager := by
  refine ⟨fun hm => ?_, fun hm u rt hu hrt hf => ?_⟩
  · obtain ⟨e, -, h⟩ | ⟨plan, s', report, -, h, hr⟩ :=
      reload_cases (k := k) hm files warnings target
    · rw [h]
      exact hm
    · rw [h]
      exact hr.reachable
  · obtain ⟨e, -, h⟩ | ⟨plan, s', report, -, h, hr⟩ :=
      reload_cases (k := k) hm files warnings target
    · rw [h]
      exact ⟨rt, hrt, rfl⟩
    · rw [h]
      rw [hrt] at hu
      exact hr.failed hm hrt hf hu

end ReloadState

/-! ## The boot -/

namespace Boot

variable {k : Kernel} {b : Boot} {s : UnitManager × StartCoordinator}

/-- The boot follows a plan whose definitions have the type their name says, and the targets
of its level are targets. -/
structure Sound (b : Boot) : Prop where
  proper : b.plan.Proper
  targets : ∀ u ∈ b.targets, u.ty = .target

theorem steady_startService (k : Kernel) (s : UnitManager × StartCoordinator) (u : UnitName) :
    SteadyAll s.1 (startService k s u).1.1 := by
  have hreq : SteadyAll s.1 (s.1.requestStart k u .dependency).1 :=
    steady_requestStart k s.1 u (by decide)
  unfold startService
  split
  · exact .refl _
  · next hnf =>
    split
    · exact .refl _
    · generalize s.1.requestStart k u .dependency = r at hreq
      obtain ⟨m, effect | effect⟩ := r
      · exact hreq
      · refine .of_ne (u := u) ?_ fun hf => absurd hf hnf
        have heffect := steady_applyStartEffect k m s.2.flows u effect
        unfold StartCoordinator.beginEffect
        dsimp only
        generalize applyStartEffect k m s.2.flows u effect = r at heffect
        obtain ⟨m', flows, e | ok⟩ := r <;> exact hreq.of_all.trans heffect

theorem steady_startServices (k : Kernel) (l : List UnitName) (s : UnitManager × StartCoordinator) :
    SteadyAll s.1 (startServices k l s).1.1 := by
  induction l generalizing s with
  | nil => exact .refl _
  | cons u l ih => exact (steady_startService k s u).trans (ih _)

theorem steady_settleService (k : Kernel) (plan : BootPlan) (starts : StartCoordinator)
    (m : UnitManager) (u : UnitName) : SteadyAll m (settleService k plan starts m u).1 := by
  unfold settleService
  split
  · exact .refl m
  · split
    · dsimp only
      split
      · exact .failStart k m u
      · exact .refl m
    all_goals
      split <;> first | exact .refl m | exact .failStart k m u

theorem steady_settlePending (k : Kernel) (plan : BootPlan) (starts : StartCoordinator)
    (l : List UnitName) (m : UnitManager) : SteadyAll m (settlePending k plan starts l m).1 := by
  induction l generalizing m with
  | nil => exact .refl m
  | cons u l ih => exact (steady_settleService k plan starts m u).trans (ih _)

theorem steady_settleTargets (k : Kernel) {targets : List UnitName}
    (h : ∀ u ∈ targets, u.ty = .target) (m : UnitManager) :
    SteadyAll m (settleTargets k targets m) :=
  Steady.foldl id (fun m u hu => .apply k m (.reachTarget u) (h u hu) fun _ _ => trivial) m

theorem ty_of_configOf {plan : BootPlan} (hp : plan.Proper) {u : UnitName} {config : UnitConfig}
    (h : plan.configOf u = some config) (ht : config.isTarget = true) : u.ty = .target := by
  obtain ⟨hmem, rfl⟩ := BootPlan.mem_of_configOf h
  rw [← hp.kind config hmem]
  simpa [UnitConfig.isTarget] using ht

theorem steady_beginLevel (k : Kernel) (hb : b.Sound) (level : List UnitName)
    (s : UnitManager × StartCoordinator) :
    (beginLevel k b level s).1.Sound ∧ SteadyAll s.1 (beginLevel k b level s).2.1 := by
  unfold beginLevel
  split
  · exact ⟨hb, .refl _⟩
  · refine ⟨⟨hb.proper, fun u hu => ?_⟩, steady_startServices k _ s⟩
    obtain ⟨config, hconfig, ht⟩ := (Option.any_eq_true _ _).mp (List.mem_filter.mp hu).2
    exact ty_of_configOf hb.proper hconfig ht

theorem steady_walk (k : Kernel) (levels : List (List UnitName)) (hb : b.Sound)
    (s : UnitManager × StartCoordinator) :
    (walk k levels b s).1.Sound ∧ SteadyAll s.1 (walk k levels b s).2.1 := by
  induction levels generalizing b s with
  | nil => exact ⟨⟨hb.proper, hb.targets⟩, .refl _⟩
  | cons level rest ih =>
    have hbegin := steady_beginLevel k hb level s
    unfold walk
    generalize beginLevel k b level s = r at hbegin
    obtain ⟨b', m, starts⟩ := r
    obtain ⟨hb', hm⟩ := hbegin
    have hpending := steady_settlePending k b'.plan starts b'.pending.toList m
    dsimp only
    generalize settlePending k b'.plan starts b'.pending.toList m = q at hpending
    obtain ⟨m', _ | ⟨u, us⟩⟩ := q
    · obtain ⟨hsound, hrest⟩ := ih
        (b := { b' with pending := ∅, level := b'.level + 1, active := false })
        ⟨hb'.proper, hb'.targets⟩ (settleTargets k b'.targets m', starts)
      exact ⟨hsound, hm.trans (hpending.trans ((steady_settleTargets k hb'.targets m').trans hrest))⟩
    · exact ⟨⟨hb'.proper, hb'.targets⟩, hm.trans hpending⟩

theorem steady_advance (k : Kernel) (hb : b.Sound) (s : UnitManager × StartCoordinator) :
    (advance k b s).1.Sound ∧ SteadyAll s.1 (advance k b s).2.1 := by
  unfold advance
  split
  · exact ⟨hb, .refl _⟩
  · exact steady_walk k _ hb s

end Boot

/-! ## The loop -/

/-- Registering the units of a plan is a run of the manager's operations. -/
theorem reachable_prepareUnits {plan : BootPlan} (hp : plan.Proper) (k : Kernel)
    (cgroup : Cgroup) : Reachable (prepareUnits k plan cgroup).1 := by
  have hstart : Reachable { bootInProgress := true, cgroup := cgroup } :=
    .step k (.setCgroup cgroup) (.step k (.setBootInProgress true) .new trivial) trivial
  have hadded : Reachable (plan.configs.foldl (fun m config => (m.add config).1)
      { bootInProgress := true, cgroup := cgroup }) :=
    (Steady.foldl (P := fun _ => True) id (fun m config hc =>
      .apply k m (.addWithInFlight config false) (hp.kind config hc) fun _ _ => trivial) _).reachable
      hstart
  have htemplates := Reachable.step k (.setTemplates plan.templates) hadded trivial
  refine Reachable.step k (.setShutdownOrder plan.levels.flatten) ?_ trivial
  refine (Steady.foldl (P := fun _ => True) Prod.fst (fun s config _ => ?_) (_, ∅)).reachable
    htemplates
  split
  · exact .refl _
  · split
    · exact .failStart k s.1 config.name
    · dsimp only
      split
      · exact .apply k s.1 (.setListeners _) trivial fun _ _ => trivial
      · exact .refl _

namespace Supervisor

variable {k : Kernel} {s : Supervisor} {u : UnitName}

/-- The manager is in a state it can get into, and the boot follows a plan. -/
structure Sound (s : Supervisor) : Prop where
  reachable : Reachable s.manager
  boot : ∀ b ∈ s.boot, b.Sound

/-- The operator asks for the unit itself, or a reload drops its tombstone. -/
def Asks (s : Supervisor) (u : UnitName) : Input → Prop
  | .control (.start v) | .control (.stop v) | .control (.resetFailed v) => v = u
  | .control (.reload _ _ _) => (s.manager.get u).any (·.retired) = true
  | _ => False

/-- The idle deadline of the unit is due. -/
def IdleDue (k : Kernel) (s : Supervisor) (u : UnitName) : Prop :=
  (s.manager.get u).any (fun rt => rt.idleAt.any (· ≤ k.now)) = true

/-- What a step leaves alone : `P` holds of the failed units it does not change. -/
structure Leaves (P : UnitName → Prop) (s s' : Supervisor) : Prop where
  steady : Steady P s.manager s'.manager
  boot : s'.boot = s.boot

variable {P : UnitName → Prop}

theorem Leaves.sound {s' : Supervisor} (h : Leaves P s s') (hs : s.Sound) : s'.Sound :=
  ⟨h.steady.reachable hs.reachable, h.boot ▸ hs.boot⟩

theorem Leaves.trans {s' s'' : Supervisor} (h : Leaves P s s') (h' : Leaves P s' s'') :
    Leaves P s s'' :=
  ⟨h.steady.trans h'.steady, h'.boot.trans h.boot⟩

theorem Leaves.foldl {α : Type*} {f : Supervisor → α → Supervisor} {l : List α}
    (hf : ∀ s, ∀ a ∈ l, Leaves P s (f s a)) (s : Supervisor) : Leaves P s (l.foldl f s) := by
  induction l generalizing s with
  | nil => exact ⟨.refl _, rfl⟩
  | cons a l ih =>
    have hhead := hf s a List.mem_cons_self
    exact hhead.trans (ih (fun s b hb => hf s b (List.mem_cons_of_mem _ hb)) (f s a))

theorem leaves_reapOne (k : Kernel) (s : Supervisor) (exit : Pid × ExitOutcome) :
    Leaves P s (reapOne k s exit) := by
  have hexit : Steady P s.manager (s.manager.onChildExit k exit.1 exit.2).1 :=
    .apply k s.manager (.onChildExit exit.1 exit.2) trivial fun _ _ => trivial
  unfold reapOne
  generalize s.manager.onChildExit k exit.1 exit.2 = r at hexit
  obtain ⟨m, _ | o⟩ := r <;> exact ⟨hexit, rfl⟩

theorem leaves_beginAll (k : Kernel) (s : Supervisor) (l : List UnitName) :
    Leaves P s (beginAll k s l) := by
  unfold beginAll
  refine Leaves.foldl (fun s u _ => ?_) s
  exact ⟨StartCoordinator.steady_begin k s.starts s.manager u, rfl⟩

theorem leaves_stopIdle (k : Kernel) (s : Supervisor) (u : UnitName) :
    Leaves (· ≠ u) s (stopIdle k s u) :=
  ⟨(StartCoordinator.steady_removeFlow k s.starts s.manager u).trans
    ((steady_requestStop k _ u).trans (steady_applyEffect k _ u _)), rfl⟩

theorem leaves_tryStartSocket (k : Kernel) (s : Supervisor) (u : UnitName) :
    Leaves P s (tryStartSocket k s u) := by
  have hnote : Steady P s.manager (s.manager.noteConnection k u) :=
    .apply k s.manager (.noteConnection u) trivial fun _ _ => trivial
  have hstart : Steady P (s.manager.noteConnection k u)
      (s.starts.startAsync k (s.manager.noteConnection k u) u).1 :=
    StartCoordinator.steady_startAsync k s.starts _ u
  unfold tryStartSocket
  dsimp only
  split
  · exact ⟨hnote, rfl⟩
  · split
    · exact ⟨hnote, rfl⟩
    · split
      · exact ⟨hnote, rfl⟩
      · generalize s.starts.startAsync k (s.manager.noteConnection k u) u = r at hstart
        obtain ⟨m, starts, e | ok⟩ := r <;> exact ⟨hnote.trans hstart, rfl⟩

theorem leaves_connection (k : Kernel) (s : Supervisor) (u : UnitName) :
    Leaves P s (connection k s u) := by
  unfold connection
  split
  · exact ⟨.refl _, rfl⟩
  · split
    · exact ⟨.refl _, rfl⟩
    · exact leaves_tryStartSocket k s u

theorem leaves_wakeSockets (k : Kernel) (s : Supervisor) : Leaves P s (wakeSockets k s) := by
  unfold wakeSockets
  split
  · exact ⟨.refl _, rfl⟩
  · have hwake := Leaves.foldl (P := P) (l := s.pendingSocketWakes.toList)
      (fun s u _ => leaves_tryStartSocket k s u) { s with pendingSocketWakes := ∅ }
    exact ⟨hwake.steady, hwake.boot⟩

theorem answer_manager (s : Supervisor) (action : ControlAction) :
    (answer s action).manager = s.manager ∧ (answer s action).boot = s.boot := by
  cases action <;> exact ⟨rfl, rfl⟩

theorem Leaves.answer {t : Supervisor} (h : Leaves P s t) (action : ControlAction) :
    Leaves P s (answer t action) := by
  obtain ⟨hm, hb⟩ := answer_manager t action
  exact ⟨hm ▸ h.steady, hb.trans h.boot⟩

theorem leaves_handle (k : Kernel) (s : Supervisor) (request : Request) :
    Leaves (fun u => ¬s.Asks u (.control request)) s (handle k s request) := by
  cases request with
  | start v =>
    exact Leaves.answer (t := { s with manager := (controlStart k s.manager v).1 })
      ⟨steady_controlStart k fun _ h => h rfl, rfl⟩ _
  | stop v =>
    have hremove := StartCoordinator.steady_removeFlow (P := (· ≠ v)) k s.starts s.manager v
    have hstop : Steady (fun u => ¬v = u) s.manager
        (controlStop k (s.cancelFlow k v).manager v).1 :=
      (hremove.trans (steady_controlStop k _ v)).mono fun u hu h => hu h.symm
    have hleaves : Leaves (fun u => ¬v = u) s { s.cancelFlow k v with
        manager := (controlStop k (s.cancelFlow k v).manager v).1 } := ⟨hstop, rfl⟩
    exact hleaves.answer (.reply _ _)
  | restart v =>
    exact Leaves.answer (t := { s with manager := (controlRestart k s.manager v).1 })
      ⟨(steady_controlRestart k s.manager v).of_all, rfl⟩ _
  | resetFailed v =>
    unfold handle
    dsimp only
    split
    · exact Leaves.answer (t := { s with manager := s.manager.resetFailed v })
        ⟨.apply k s.manager (.resetFailed v) trivial fun u hu => hu, rfl⟩ _
    · exact Leaves.answer ⟨.refl _, rfl⟩ _
  | reload files warnings target =>
    have hreload := ReloadState.steady_reload k files warnings target
      { manager := s.manager, starts := s.starts, activation := s.activation }
    refine ⟨Steady.mono (hreload.trans (StartCoordinator.steady_afterReload k _ _))
      fun u hu => ?_, rfl⟩
    simpa [Asks] using hu

theorem leaves_control (k : Kernel) (s : Supervisor) (request : Request) :
    Leaves (fun u => ¬s.Asks u (.control request)) s (control k s request) := by
  unfold control
  split
  · exact Leaves.answer ⟨.refl _, rfl⟩ _
  · exact leaves_handle k s request

theorem leaves_idle (k : Kernel) (s : Supervisor) :
    Leaves (fun u => ¬IdleDue k s u) s (step k s .idle) := by
  have hpass : Steady (fun u => ¬IdleDue k s u) s.manager (s.manager.dueIdleUnits k).1 :=
    .apply k s.manager .dueIdleUnits trivial fun _ _ => trivial
  have hstops := Leaves.foldl (P := fun u => ¬IdleDue k s u) (l := (s.manager.dueIdleUnits k).2)
    (fun s' v hv => by
      have hleaves := leaves_stopIdle k s' v
      refine ⟨hleaves.steady.mono fun u hu => ?_, hleaves.boot⟩
      rintro rfl
      obtain ⟨rt, hrt, hdue⟩ := (UnitManager.mem_pass s.manager u).mp hv
      refine hu ?_
      simp only [IdleDue, hrt, Option.any_some]
      by_contra hnone
      simp [UnitRuntime.dueIdle, hnone] at hdue)
    { s with manager := (s.manager.dueIdleUnits k).1 }
  exact ⟨hpass.trans hstops.steady, hstops.boot⟩

theorem steady_advanceBoot (k : Kernel) (hs : s.Sound) :
    (advanceBoot k s).Sound ∧ SteadyAll s.manager (advanceBoot k s).manager := by
  unfold advanceBoot
  split
  · exact ⟨hs, .refl _⟩
  · next b hb =>
    have hadv := Boot.steady_advance k (hs.boot b hb) (s.manager, s.starts)
    generalize b.advance k (s.manager, s.starts) = r at hadv
    obtain ⟨b', m, starts⟩ := r
    obtain ⟨hsound, hm⟩ := hadv
    dsimp only
    split
    · have hdone : SteadyAll m { m with bootInProgress := false } :=
        .apply k m (.setBootInProgress false) trivial fun _ _ => trivial
      have hm' : SteadyAll s.manager { m with bootInProgress := false } := hm.trans hdone
      exact ⟨⟨hm'.reachable hs.reachable, fun _ h => nomatch h⟩, hm'⟩
    · refine ⟨⟨hm.reachable hs.reachable, ?_⟩, hm⟩
      rintro _ ⟨⟩
      exact hsound

/-- A step changes a failed unit only if it was asked for it or its idle deadline is due. -/
theorem steady_step (k : Kernel) (hs : s.Sound) (input : Input) :
    (step k s input).Sound ∧ Steady (fun u => ¬s.Asks u input ∧ (input = .idle → ¬IdleDue k s u))
      s.manager (step k s input).manager := by
  have spared {P : UnitName → Prop} {t : Supervisor} (h : Leaves P s t)
      (hP : ∀ u, ¬s.Asks u input ∧ (input = .idle → ¬IdleDue k s u) → P u) :
      t.Sound ∧ Steady (fun u => ¬s.Asks u input ∧ (input = .idle → ¬IdleDue k s u))
        s.manager t.manager :=
    ⟨h.sound hs, h.steady.mono hP⟩
  have passed (op : Op) (hop : op.Promised) (h : ∀ u, Spares u op) :
      SteadyAll s.manager (s.manager.apply k op) :=
    .apply k s.manager op hop fun u _ => h u
  cases input with
  | reap exits => exact spared (.foldl (fun s e _ => leaves_reapOne k s e) s) fun _ => id
  | advance =>
    exact spared (t := step k s .advance)
      ⟨StartCoordinator.steady_advance k s.starts s.manager, rfl⟩ fun _ _ => trivial
  | boot =>
    obtain ⟨hsound, hsteady⟩ := steady_advanceBoot k hs
    exact ⟨hsound, hsteady.of_all⟩
  | wakeSockets => exact spared (leaves_wakeSockets k s) fun _ => id
  | restarts =>
    have hdue : Leaves (fun _ => True) s { s with manager := (s.manager.dueRestarts k).1 } :=
      ⟨passed .dueRestarts trivial fun _ => trivial, rfl⟩
    exact spared (hdue.trans (leaves_beginAll k _ _)) fun _ _ => trivial
  | queuedStarts =>
    have hdue : Leaves (fun _ => True) s { s with manager := (s.manager.dueQueuedStarts k).1 } :=
      ⟨passed .dueQueuedStarts trivial fun _ => trivial, rfl⟩
    exact spared (hdue.trans (leaves_beginAll k _ _)) fun _ _ => trivial
  | startTimeouts =>
    exact spared (t := step k s .startTimeouts)
      ⟨passed .dueStartTimeouts trivial fun _ => trivial, rfl⟩ fun _ _ => trivial
  | kills =>
    exact spared (t := step k s .kills)
      ⟨passed .dueKills trivial fun _ => trivial, rfl⟩ fun _ _ => trivial
  | healthProbes =>
    exact spared (t := step k s .healthProbes)
      ⟨passed .dueHealthProbes trivial fun _ => trivial, rfl⟩ fun _ _ => trivial
  | probeTimeouts =>
    exact spared (t := step k s .probeTimeouts)
      ⟨passed .dueProbeTimeouts trivial fun _ => trivial, rfl⟩ fun _ _ => trivial
  | idle => exact spared (leaves_idle k s) fun u hu => hu.2 rfl
  | notify v message =>
    exact spared (t := step k s (.notify v message))
      ⟨passed (.onNotify v message) trivial fun _ => trivial, rfl⟩ fun _ _ => trivial
  | control request => exact spared (leaves_control k s request) fun u hu => hu.1
  | connection v => exact spared (leaves_connection k s v) fun _ => id

end Supervisor

end Rinit
