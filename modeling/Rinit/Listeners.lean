import Rinit.Soft

/-!
# Clients that go away

A job whose client is gone is dropped at its next turn, with what it has not asked for yet.
`asks_of_hangUps` : a client that goes away once its job has come to the end of the order changes
nothing of what the job asks for, and one that goes away earlier cuts the job off, whatever happens
afterwards. `not_asks_hungUp` is a target that is never asked for because the client left while a
dependency was coming up.

`follow` keeps track of a job : the units it asks for in a step of the loop, and where it stands
afterwards (`follow_spec`).
-/

namespace Rinit

namespace ControlStart

instance decidableNeeded (t : Turn) (u : UnitName) : Decidable (Needed t u) :=
  decidable_of_iff ((u ≠ t.job.target → t.manager.isFailed u = false) ∧
    (t.manager.get u).any (·.state.isSatisfied) = false ∧ t.flows.contains u = false)
    ⟨fun h => ⟨h.1, h.2.1, h.2.2⟩, fun h => ⟨h.failed, h.satisfied, h.flow⟩⟩

/-- The units a turn asks for, of the rest of the order. -/
def asksOf (k : Kernel) : List UnitName → Turn → List UnitName
  | [], _ => []
  | unit :: rest, t =>
    match poll t with
    | (_, true) => []
    | (t, false) =>
      let t' := requestUnit k t.next unit
      (if Needed t.next unit then [unit] else []) ++
        if t'.done.isSome then [] else asksOf k rest t'

/-- The units a turn asks for. -/
def asks (k : Kernel) (t : Turn) : List UnitName :=
  if t.job.deadline ≤ k.now then [] else asksOf k (t.job.order.drop t.job.index) t

/-- The job asks for nothing any more : its client is gone or it is at the end of its order. -/
def Spent (job : ControlStart) : Prop := job.reply = .closed ∨ job.order.length ≤ job.index

theorem asks_eq_nil {k : Kernel} {t : Turn} (h : t.job.order.length ≤ t.job.index) :
    asks k t = [] := by
  unfold asks
  rw [List.drop_eq_nil_of_le h]
  exact ite_self _

/-- A job at the end of its order stays there. -/
theorem spent_turn (w : Moment) {job : ControlStart} (h : job.order.length ≤ job.index) :
    (w.turn job).job.order.length ≤ (w.turn job).job.index := by
  unfold Moment.turn advance
  split
  · exact h
  · rw [show (w.enter job).job.order.drop (w.enter job).job.index = [] from
      List.drop_eq_nil_of_le h]
    have hp := polled_poll (w.enter job)
    unfold runOrder
    generalize poll (w.enter job) = r at hp
    cases hp <;> exact h

end ControlStart

/-! ## Following a job -/

namespace StartCoordinator

/-- What the job at `i` asks for when the control starts are advanced, and where it stands
afterwards. -/
def follow (k : Kernel) : List ControlStart → UnitManager → Flows → AuxExits → ℕ →
    List UnitName × Option ℕ
  | [], _, _, _, _ => ([], none)
  | job :: rest, m, flows, aux, i =>
    let t : ControlStart.Turn := { job := job, manager := m, flows := flows, aux := aux }
    let t' := ControlStart.advance k t
    match i with
    | 0 =>
      if job.reply = .closed then ([], none)
      else (ControlStart.asks k t, if t'.done.isSome then none else some 0)
    | i + 1 =>
      if job.reply = .closed then follow k rest m flows aux i
      else
        let r := follow k rest t'.manager t'.flows t'.aux i
        (r.1, if t'.done.isSome then r.2 else r.2.map (· + 1))

end StartCoordinator

namespace Supervisor

/-- Whether a control start outlives a reload that leads to `m`. -/
def outlives (m : UnitManager) (job : ControlStart) : Bool := m.unitExists job.target

/-- What the job at `i` asks for in a step, and where it stands afterwards. -/
def follow (k : Kernel) (s : Supervisor) (i : ℕ) : Input → List UnitName × Option ℕ
  | .advance =>
    let r := s.starts.flows.keys.foldl (StartCoordinator.advanceFlow k) (s.manager, s.starts)
    StartCoordinator.follow k r.2.controls r.1 r.2.flows r.2.auxExits i
  | .control (.reload files warnings target) =>
    if s.boot.isSome then ([], some i)
    else
      let r := ReloadState.reload k files warnings target
        { manager := s.manager, starts := s.starts, activation := s.activation }
      ([], if s.starts.controls[i]?.any (outlives r.1.manager) then
        some ((s.starts.controls.take i).countP (outlives r.1.manager)) else none)
  | _ => ([], some i)

/-- The client of the job at `i` disconnects, or its reply times out. -/
def hangUp (s : Supervisor) (i : ℕ) : Supervisor :=
  { s with starts := { s.starts with
      controls := s.starts.controls.modify i fun job => { job with reply := .closed } } }

/-- What happens while a job is there. -/
inductive Event where
  | input (k : Kernel) (input : Input)
  | hangUp

def Event.isInput : Event → Bool
  | .input _ _ => true
  | .hangUp => false

/-- The units the job at `i` asks for, in the order it does. -/
def asks : List Event → Supervisor → ℕ → List UnitName
  | [], _, _ => []
  | .input k input :: events, s, i =>
    let r := s.follow k i input
    r.1 ++ r.2.elim [] (asks events (s.step k input))
  | .hangUp :: events, s, i => asks events (s.hangUp i) i

/-- The client of the job at `i` goes away only once the job is at the end of its order. -/
def hangsUpLate : List Event → Supervisor → ℕ → Bool
  | [], _, _ => true
  | .input k input :: events, s, i =>
    (s.follow k i input).2.all (hangsUpLate events (s.step k input))
  | .hangUp :: events, s, i =>
    s.starts.controls[i]?.any (fun job => job.order.length ≤ job.index) &&
      hangsUpLate events (s.hangUp i) i

end Supervisor

/-! ## Where a job stands -/

namespace StartCoordinator

open ControlStart

variable {k : Kernel} {m : UnitManager} {flows : Flows} {aux : AuxExits}

theorem controls_removeFlow (k : Kernel) (c : StartCoordinator) (m : UnitManager) (u : UnitName) :
    (c.removeFlow k m u).2.controls = c.controls := by
  unfold removeFlow
  split
  · rfl
  · dsimp only
    split <;> rfl

theorem controls_advanceFlow (k : Kernel) (s : UnitManager × StartCoordinator) (u : UnitName) :
    (advanceFlow k s u).2.controls = s.2.controls := by
  unfold advanceFlow
  split
  · rfl
  · dsimp only
    split
    · exact controls_removeFlow k _ _ u
    · rfl

theorem controls_advanceFlows (k : Kernel) (l : List UnitName) (s : UnitManager × StartCoordinator) :
    (l.foldl (advanceFlow k) s).2.controls = s.2.controls :=
  Runs.foldl_induction (P := fun _ (t : UnitManager × StartCoordinator) =>
    t.2.controls = s.2.controls) rfl fun _ u _ t _ ht => (controls_advanceFlow k t u).trans ht

theorem controls_removeFlows (k : Kernel) (l : List UnitName) (s : UnitManager × StartCoordinator) :
    (l.foldl (fun s u => s.2.removeFlow k s.1 u) s).2.controls = s.2.controls :=
  Runs.foldl_induction (P := fun _ (t : UnitManager × StartCoordinator) =>
    t.2.controls = s.2.controls) rfl fun _ u _ t _ ht => (controls_removeFlow k t.2 t.1 u).trans ht

theorem follow_spec {controls : List ControlStart} {i : ℕ} {job : ControlStart}
    (h : controls[i]? = some job) :
    (Spent job → (follow k controls m flows aux i).1 = []) ∧
    ∀ j, (follow k controls m flows aux i).2 = some j → ∃ job',
      (advanceControls k controls m flows aux).2.1.controls[j]? = some job' ∧
      SameJob job job' ∧ (Spent job → Spent job') := by
  induction controls generalizing m flows aux i with
  | nil => simp at h
  | cons first rest ih =>
    let w : Moment := ⟨k, m, flows, aux⟩
    unfold follow advanceControls
    cases i with
    | zero =>
      obtain rfl : first = job := by simpa using h
      dsimp only
      split
      · exact ⟨fun _ => rfl, fun j hj => by cases hj⟩
      · next hopen =>
        refine ⟨fun hs => asks_eq_nil (hs.resolve_left hopen), fun j hj => ?_⟩
        split at hj
        · cases hj
        · next hdone =>
          obtain rfl := Option.some.inj hj
          have hnone : (w.turn first).done = none := Option.not_isSome_iff_eq_none.mp hdone
          refine ⟨(w.turn first).job, ?_, sameJob_turn w first, fun hs =>
            .inr (spent_turn w (hs.resolve_left hopen))⟩
          rw [show ControlStart.advance k { job := first, manager := m, flows := flows, aux := aux } =
            w.turn first from rfl, hnone]
          rfl
    | succ i =>
      have hrest : rest[i]? = some job := by simpa using h
      dsimp only
      split
      · exact ih hrest
      · have hih := @ih (w.turn first).manager (w.turn first).flows (w.turn first).aux i hrest
        refine ⟨hih.1, fun j hj => ?_⟩
        rw [show ControlStart.advance k { job := first, manager := m, flows := flows, aux := aux } =
          w.turn first from rfl] at hj ⊢
        cases hdone : (w.turn first).done with
        | some reply =>
          rw [hdone] at hj
          exact hih.2 j hj
        | none =>
          rw [hdone] at hj
          obtain ⟨j', hj', rfl⟩ := Option.map_eq_some_iff.mp hj
          exact hih.2 j' hj'

theorem controls_startAsync (k : Kernel) (c : StartCoordinator) (m : UnitManager) (u : UnitName) :
    c.controls <+: (c.startAsync k m u).2.1.controls := by
  unfold startAsync
  split
  · exact List.prefix_append ..
  · exact List.prefix_rfl

end StartCoordinator

theorem Boot.controls_startServices (k : Kernel) (l : List UnitName)
    (s : UnitManager × StartCoordinator) :
    (startServices k l s).1.2.controls = s.2.controls := by
  induction l generalizing s with
  | nil => rfl
  | cons u l ih =>
    refine (ih _).trans ?_
    unfold startService
    split
    · rfl
    · split
      · rfl
      · split
        · rfl
        · split
          · next heq => exact congrArg (·.2.1.controls) heq.symm
          · next heq => exact congrArg (·.2.1.controls) heq.symm

theorem Boot.controls_walk (k : Kernel) (levels : List (List UnitName)) (b : Boot)
    (s : UnitManager × StartCoordinator) : (walk k levels b s).2.2.controls = s.2.controls := by
  induction levels generalizing b s with
  | nil => rfl
  | cons level levels ih =>
    have hbegin : (beginLevel k b level s).2.2.controls = s.2.controls := by
      unfold beginLevel
      split
      · rfl
      · exact controls_startServices k _ s
    unfold walk
    generalize beginLevel k b level s = r at hbegin
    obtain ⟨b', m, starts⟩ := r
    dsimp only
    split
    · exact (ih _ _).trans hbegin
    · exact hbegin

namespace ReloadState

variable {k : Kernel} {plan : BootPlan}

theorem starts_removeUnit (k : Kernel) (plan : BootPlan) (s : ReloadState) (u : UnitName) :
    (removeUnit k plan s u).1.starts = s.starts := by
  unfold removeUnit
  split
  · rfl
  · split
    · dsimp only
      split <;> rfl
    · rfl

theorem starts_removeUnits (k : Kernel) (plan : BootPlan) (l : List UnitName) (s : ReloadState) :
    (removeUnits k plan l s).1.starts = s.starts := by
  induction l generalizing s with
  | nil => rfl
  | cons u l ih =>
    have hone := starts_removeUnit k plan s u
    unfold removeUnits
    generalize removeUnit k plan s u = r at hone
    obtain ⟨s', e | ok⟩ := r
    · exact hone
    · exact (ih s').trans hone

theorem starts_registerUnit (k : Kernel) (s : ReloadState) (config : UnitConfig) :
    (registerUnit k s config).starts = s.starts := by
  obtain ⟨fds, -, hstarts⟩ := reconcileSocket_frame k
    { s with
      manager := (s.manager.addWithInFlight config (s.starts.flows.contains config.name)).1
      report := noteChange s.report config.name ((s.manager.get config.name).any (·.retired))
        (s.manager.addWithInFlight config (s.starts.flows.contains config.name)).2 } config
  exact hstarts

theorem controls_startAdded (k : Kernel) (plan : BootPlan) (s : ReloadState) (u : UnitName) :
    s.starts.controls <+: (startAdded k plan s u).starts.controls := by
  have hstart := StartCoordinator.controls_startAsync k s.starts s.manager u
  unfold startAdded
  split
  · exact List.prefix_rfl
  · split
    · exact List.prefix_rfl
    · generalize s.starts.startAsync k s.manager u = r at hstart
      obtain ⟨m, starts, e | ok⟩ := r <;> exact hstart

/-- A reload adds jobs; the ones it ends are dropped after it. -/
theorem controls_reload (k : Kernel) (files : List UnitFile) (warnings : List String)
    (target : String) (s : ReloadState) :
    s.starts.controls <+: (reload k files warnings target s).1.starts.controls := by
  unfold reload
  split
  · exact List.prefix_rfl
  · next plan _ =>
    let s₀ : ReloadState :=
      { s with manager := s.manager.pruneRetired.1, report := { pruned := s.manager.pruneRetired.2 } }
    have hremoved := starts_removeUnits k plan s₀.manager.names s₀
    unfold applyPlan
    dsimp only
    split
    · next s₁ e heq =>
      have hstarts : s₁.starts = s.starts := (congrArg (·.1.starts) heq).symm.trans hremoved
      exact hstarts ▸ List.prefix_rfl
    · next s₁ _ heq =>
      have hstarts : s₁.starts = s.starts := (congrArg (·.1.starts) heq).symm.trans hremoved
      have hregistered : (plan.configs.foldl (registerUnit k) s₁).starts = s.starts :=
        Runs.foldl_induction (P := fun _ (t : ReloadState) => t.starts = s.starts) hstarts
          fun _ c _ t _ ht => (starts_registerUnit k t c).trans ht
      exact Runs.foldl_induction (P := fun _ (t : ReloadState) =>
        s.starts.controls <+: t.starts.controls) (hregistered ▸ List.prefix_rfl)
          fun _ u _ t _ ht => ht.trans (controls_startAdded k plan t u)

end ReloadState

namespace Supervisor

variable {k : Kernel} {s : Supervisor}

theorem controls_reapOne (k : Kernel) (s : Supervisor) (exit : Pid × ExitOutcome) :
    (reapOne k s exit).starts.controls = s.starts.controls := by
  unfold reapOne StartCoordinator.takeAux
  split
  · rfl
  · dsimp only
    split
    · rfl
    · split <;> rfl

theorem controls_advanceBoot (k : Kernel) (s : Supervisor) :
    (s.advanceBoot k).starts.controls = s.starts.controls := by
  unfold advanceBoot
  split
  · rfl
  · next boot _ =>
    have hwalk : (boot.advance k (s.manager, s.starts)).2.2.controls = s.starts.controls := by
      unfold Boot.advance
      split
      · rfl
      · exact Boot.controls_walk k _ boot (s.manager, s.starts)
    generalize boot.advance k (s.manager, s.starts) = r at hwalk
    obtain ⟨b, m, starts⟩ := r
    dsimp only
    split <;> exact hwalk

theorem controls_tryStartSocket (k : Kernel) (s : Supervisor) (u : UnitName) :
    s.starts.controls <+: (s.tryStartSocket k u).starts.controls := by
  have hstart := StartCoordinator.controls_startAsync k s.starts (s.manager.noteConnection k u) u
  unfold tryStartSocket
  dsimp only
  split
  · exact List.prefix_rfl
  · split
    · exact List.prefix_rfl
    · split
      · exact List.prefix_rfl
      · generalize s.starts.startAsync k (s.manager.noteConnection k u) u = r at hstart
        obtain ⟨m, starts, e | ok⟩ := r <;> exact hstart

theorem controls_beginAll (k : Kernel) (s : Supervisor) (units : List UnitName) :
    (beginAll k s units).starts.controls = s.starts.controls :=
  Runs.foldl_induction (P := fun _ (t : Supervisor) => t.starts.controls = s.starts.controls) rfl
    fun _ _ _ _ _ ht => ht

theorem controls_answer {t : Supervisor} (h : t.starts.controls = s.starts.controls)
    (action : ControlAction) : s.starts.controls <+: (t.answer action).starts.controls := by
  rw [← h]
  cases action with
  | reply status text => exact List.prefix_rfl
  | start job => exact List.prefix_append ..

theorem controls_stopIdle (k : Kernel) (s : Supervisor) (u : UnitName) :
    (s.stopIdle k u).starts.controls = s.starts.controls :=
  StartCoordinator.controls_removeFlow k s.starts s.manager u

/-- Apart from the turns of the jobs and from reloads, jobs are only added. -/
theorem controls_step (input : Input) (ha : input ≠ .advance)
    (hr : ∀ files warnings target, input = .control (.reload files warnings target) →
      s.boot.isSome = true) : s.starts.controls <+: (s.step k input).starts.controls := by
  cases input with
  | advance => exact absurd rfl ha
  | reap exits =>
    have heq : (s.step k (.reap exits)).starts.controls = s.starts.controls :=
      Runs.foldl_induction (P := fun _ (t : Supervisor) =>
        t.starts.controls = s.starts.controls) rfl fun _ e _ t _ ht =>
          (controls_reapOne k t e).trans ht
    exact heq ▸ List.prefix_rfl
  | boot => exact controls_advanceBoot k s ▸ List.prefix_rfl
  | wakeSockets =>
    change s.starts.controls <+: (s.wakeSockets k).starts.controls
    unfold wakeSockets
    split
    · exact List.prefix_rfl
    · exact Runs.foldl_induction (P := fun _ (t : Supervisor) =>
        s.starts.controls <+: t.starts.controls) List.prefix_rfl fun _ u _ t _ ht =>
          ht.trans (controls_tryStartSocket k t u)
  | restarts =>
    have heq := controls_beginAll k { s with manager := (s.manager.dueRestarts k).1 }
      (s.manager.dueRestarts k).2
    exact heq ▸ List.prefix_rfl
  | queuedStarts =>
    have heq := controls_beginAll k { s with manager := (s.manager.dueQueuedStarts k).1 }
      (s.manager.dueQueuedStarts k).2
    exact heq ▸ List.prefix_rfl
  | startTimeouts | kills | healthProbes | probeTimeouts | notify => exact List.prefix_rfl
  | idle =>
    have heq : (s.step k .idle).starts.controls = s.starts.controls :=
      Runs.foldl_induction (P := fun _ (t : Supervisor) =>
        t.starts.controls = s.starts.controls) rfl fun _ u _ t _ ht =>
          (controls_stopIdle k t u).trans ht
    exact heq ▸ List.prefix_rfl
  | connection u =>
    change s.starts.controls <+: (s.connection k u).starts.controls
    unfold connection
    split
    · exact List.prefix_rfl
    · split
      · exact List.prefix_rfl
      · exact controls_tryStartSocket k s u
  | control request =>
    change s.starts.controls <+: (s.control k request).starts.controls
    unfold control
    split
    · exact controls_answer rfl _
    · next hb =>
      cases request with
      | reload files warnings target => exact absurd (hr files warnings target rfl) hb
      | start u =>
        exact controls_answer (t := { s with manager := (controlStart k s.manager u).1 }) rfl _
      | restart u =>
        exact controls_answer (t := { s with manager := (controlRestart k s.manager u).1 }) rfl _
      | stop u =>
        exact controls_answer (t := { s.cancelFlow k u with
          manager := (controlStop k (s.cancelFlow k u).manager u).1 })
          (StartCoordinator.controls_removeFlow k s.starts s.manager u) _
      | resetFailed u =>
        simp only [handle]
        split
        · exact controls_answer (t := { s with manager := s.manager.resetFailed u }) rfl _
        · exact controls_answer rfl _

theorem getElem?_of_prefix {α : Type*} {l l' : List α} (hl : l <+: l') {i : ℕ} {a : α}
    (h : l[i]? = some a) : l'[i]? = some a := by
  obtain ⟨rest, rfl⟩ := hl
  rw [List.getElem?_append_left (List.getElem?_eq_some_iff.mp h).1, h]

/-- Where an item that is kept stands in what is left of a list. -/
theorem getElem?_filter_countP {α : Type*} {p : α → Bool} {l : List α} {i : ℕ} {a : α}
    (h : l[i]? = some a) (ha : p a = true) : (l.filter p)[(l.take i).countP p]? = some a := by
  obtain ⟨hi, rfl⟩ := List.getElem?_eq_some_iff.mp h
  have hsplit : l = l.take i ++ l[i] :: l.drop (i + 1) := by
    rw [List.getElem_cons_drop, List.take_append_drop]
  have hfilter : l.filter p = (l.take i).filter p ++ l[i] :: (l.drop (i + 1)).filter p := by
    conv_lhs => rw [hsplit, List.filter_append, List.filter_cons_of_pos ha]
  rw [hfilter, List.countP_eq_length_filter, List.getElem?_append_right (Nat.le_refl _),
    Nat.sub_self]
  rfl

theorem follow_other {i : ℕ} {input : Input} (ha : input ≠ .advance)
    (hr : ¬∃ files warnings target, input = .control (.reload files warnings target) ∧
      s.boot = none) : s.follow k i input = ([], some i) := by
  unfold follow
  split
  · exact absurd rfl ha
  · next files warnings target =>
    rw [if_pos]
    rw [Option.isSome_iff_ne_none]
    exact fun hb => hr ⟨files, warnings, target, rfl, hb⟩
  · rfl

open ControlStart in
theorem follow_reload {i : ℕ} {job : ControlStart} (files : List UnitFile) (warnings : List String)
    (target : String) (hb : s.boot = none) (h : s.starts.controls[i]? = some job) :
    (Spent job → (s.follow k i (.control (.reload files warnings target))).1 = []) ∧
    ∀ j, (s.follow k i (.control (.reload files warnings target))).2 = some j → ∃ job',
      (s.step k (.control (.reload files warnings target))).starts.controls[j]? = some job' ∧
      SameJob job job' ∧ (Spent job → Spent job') := by
  let r := ReloadState.reload k files warnings target
    { manager := s.manager, starts := s.starts, activation := s.activation }
  have hstep : (s.step k (.control (.reload files warnings target))).starts.controls =
      r.1.starts.controls.filter (outlives r.1.manager) := by
    change (s.control k (.reload files warnings target)).starts.controls = _
    unfold control
    rw [hb]
    exact congrArg (List.filter _) (StartCoordinator.controls_removeFlows k _ _)
  have hfollow : s.follow k i (.control (.reload files warnings target)) =
      ([], if s.starts.controls[i]?.any (outlives r.1.manager) then
        some ((s.starts.controls.take i).countP (outlives r.1.manager)) else none) := by
    unfold follow
    rw [hb]
    rfl
  rw [hfollow, hstep]
  refine ⟨fun _ => rfl, fun j hj => ⟨job, ?_, .refl job, id⟩⟩
  rw [h] at hj
  dsimp only [Option.any_some] at hj
  split at hj
  · next hkept =>
    obtain rfl := Option.some.inj hj
    obtain ⟨added, hadded⟩ := ReloadState.controls_reload k files warnings target
      { manager := s.manager, starts := s.starts, activation := s.activation }
    have hget := getElem?_filter_countP h hkept
    rw [← hadded, List.filter_append]
    exact getElem?_of_prefix (List.prefix_append _ _) hget
  · cases hj

open ControlStart in
/-- A job that is followed is found where it is said to stand, and one that is spent asks for
nothing and stays so. -/
theorem follow_spec (k : Kernel) {i : ℕ} {job : ControlStart} (input : Input)
    (h : s.starts.controls[i]? = some job) :
    (Spent job → (s.follow k i input).1 = []) ∧
    ∀ j, (s.follow k i input).2 = some j → ∃ job',
      (s.step k input).starts.controls[j]? = some job' ∧ SameJob job job' ∧
      (Spent job → Spent job') := by
  by_cases hadvance : input = .advance
  · subst hadvance
    have hcontrols := StartCoordinator.controls_advanceFlows k s.starts.flows.keys
      (s.manager, s.starts)
    exact StartCoordinator.follow_spec (hcontrols ▸ h)
  · by_cases hreload : ∃ files warnings target,
        input = .control (.reload files warnings target) ∧ s.boot = none
    · obtain ⟨files, warnings, target, rfl, hb⟩ := hreload
      exact follow_reload files warnings target hb h
    · have hsame : s.follow k i input = ([], some i) := follow_other hadvance hreload
      have hprefix : s.starts.controls <+: (s.step k input).starts.controls := by
        refine controls_step input hadvance fun files warnings target heq => ?_
        rw [Option.isSome_iff_ne_none]
        exact fun hb => hreload ⟨files, warnings, target, heq, hb⟩
      rw [hsame]
      refine ⟨fun _ => rfl, fun j hj => ⟨job, ?_, .refl job, id⟩⟩
      obtain rfl := Option.some.inj hj
      exact getElem?_of_prefix hprefix h

/-! ## Runs -/

theorem getElem?_hangUp {i : ℕ} {job : ControlStart} (h : s.starts.controls[i]? = some job) :
    (s.hangUp i).starts.controls[i]? = some { job with reply := .closed } := by
  change (s.starts.controls.modify i _)[i]? = _
  rw [List.getElem?_modify_eq, h]
  rfl

theorem spent_hangUp {i : ℕ} {job : ControlStart} (h : s.starts.controls[i]? = some job) :
    ∃ job', (s.hangUp i).starts.controls[i]? = some job' ∧ job'.Spent :=
  ⟨_, getElem?_hangUp h, .inl rfl⟩

theorem asks_ended {k : Kernel} {input : Input} {i : ℕ} (h : (s.follow k i input).2 = none)
    (events : List Event) : asks (.input k input :: events) s i = (s.follow k i input).1 := by
  rw [asks, h]
  exact List.append_nil _

theorem asks_followed {k : Kernel} {input : Input} {i j : ℕ}
    (h : (s.follow k i input).2 = some j) (events : List Event) :
    asks (.input k input :: events) s i =
      (s.follow k i input).1 ++ asks events (s.step k input) j := by
  rw [asks, h]
  rfl

/-- Whatever happens, a job that is spent asks for nothing. -/
theorem asks_of_spent (events : List Event) {i : ℕ} {job : ControlStart}
    (h : s.starts.controls[i]? = some job) (hs : job.Spent) : asks events s i = [] := by
  induction events generalizing s i job with
  | nil => rfl
  | cons event events ih =>
    cases event with
    | input k input =>
      obtain ⟨hnil, hnext⟩ := follow_spec k input h
      cases hj : (s.follow k i input).2 with
      | none => rw [asks_ended hj, hnil hs]
      | some j =>
        obtain ⟨job', h', -, hs'⟩ := hnext j hj
        rw [asks_followed hj, hnil hs, ih h' (hs' hs)]
        rfl
    | hangUp =>
      obtain ⟨job', h', hs'⟩ := spent_hangUp h
      exact ih h' hs'

/-- Who goes away late changes nothing of what the job asks for, and who goes away cuts the job
off. -/
theorem asks_of_hangUps (events : List Event) (s : Supervisor) (i : ℕ) (job : ControlStart)
    (h : s.starts.controls[i]? = some job) :
    (hangsUpLate events s i = true → asks events s i = asks (events.filter Event.isInput) s i) ∧
    ∀ later, asks (events ++ .hangUp :: later) s i = asks events s i := by
  induction events generalizing s i job with
  | nil =>
    obtain ⟨job', h', hs'⟩ := spent_hangUp h
    exact ⟨fun _ => rfl, fun later => asks_of_spent later h' hs'⟩
  | cons event events ih =>
    cases event with
    | input k input =>
      rw [List.filter_cons_of_pos rfl]
      cases hj : (s.follow k i input).2 with
      | none =>
        refine ⟨fun _ => ?_, fun later => ?_⟩
        · rw [asks_ended hj, asks_ended hj]
        · rw [List.cons_append, asks_ended hj, asks_ended hj]
      | some j =>
        obtain ⟨job', h', -⟩ := (follow_spec k input h).2 j hj
        obtain ⟨hlate, hcut⟩ := ih _ j job' h'
        refine ⟨fun hl => ?_, fun later => ?_⟩
        · rw [hangsUpLate, hj] at hl
          rw [asks_followed hj, asks_followed hj, hlate hl]
        · rw [List.cons_append, asks_followed hj, asks_followed hj, hcut later]
    | hangUp =>
      obtain ⟨job', h', hs'⟩ := spent_hangUp h
      have hnothing (events : List Event) : asks events (s.hangUp i) i = [] :=
        asks_of_spent events h' hs'
      refine ⟨fun hl => ?_, fun later => ?_⟩
      · have hend : job.order.length ≤ job.index := by
          have hany := (Bool.and_eq_true_iff.mp hl).1
          rw [h] at hany
          simpa using hany
        have hnone := asks_of_spent (events.filter Event.isInput) h (.inr hend)
        exact (hnothing events).trans hnone.symm
      · exact (hnothing _).trans (hnothing events).symm

/-! ### Concrete runs -/

/-- A service and the one it requires, which both say themselves when they are up. -/
def notifyingUnits : List UnitFile :=
  [{ name := serviceA
     path := "/etc/rinit/a.service"
     contents := "[Unit]\nRequires=b.service\n[Service]\nType=notify\nExecStart=/bin/a\n" },
    { name := serviceB
      path := "/etc/rinit/b.service"
      contents := "[Service]\nType=notify\nExecStart=/bin/b\n" },
    { name := targetD
      path := "/etc/rinit/d.target"
      contents := "[Unit]\n" }]

/-- The dependency comes up, is reported, and then the service itself is. -/
def comingUp : List Event :=
  [.input (.granting 3 10) .advance, .input (.granting 4 10) (.notify serviceB ⟨true, none⟩),
    .input (.granting 5 11) .advance, .input (.granting 6 11) (.notify serviceA ⟨true, none⟩),
    .input (.granting 7 12) .advance]

/-- The service is asked for by a client that waits, and `p` holds. -/
theorem exists_waiting {p : Supervisor → Bool}
    (h : ((BootPlan.planBoot notifyingUnits [] "d.target").toOption.map fun plan =>
      (init (.granting 0 10) plan none).steps
        [(1, 10, .boot), (2, 10, .control (.start serviceA))]).any (fun s =>
          s.starts.controls[0]?.any (fun job => job.reply = .waiting) && p s) = true) :
    ∃ s job, Reached s ∧ s.starts.controls[0]? = some job ∧ job.reply = .waiting ∧ p s = true := by
  obtain ⟨s, hs, hp⟩ := exists_reached _ _ h
  obtain ⟨hjob, hp⟩ := Bool.and_eq_true_iff.mp hp
  obtain ⟨job, hjob, hreply⟩ := (Option.any_eq_true _ _).mp hjob
  exact ⟨s, job, hs, hjob, of_decide_eq_true hreply, hp⟩

theorem asks_hungUpLate : ∃ s job, Reached s ∧ s.starts.controls[0]? = some job ∧
    job.reply = .waiting ∧ hangsUpLate (comingUp.insertIdx 3 .hangUp) s 0 = true ∧
    asks (comingUp.insertIdx 3 .hangUp) s 0 = [serviceB, serviceA] ∧
    asks (comingUp.insertIdx 3 .hangUp) s 0 =
      asks ((comingUp.insertIdx 3 .hangUp).filter Event.isInput) s 0 := by
  obtain ⟨s, job, hs, hjob, hreply, hp⟩ := exists_waiting
    (p := fun s => hangsUpLate (comingUp.insertIdx 3 .hangUp) s 0 &&
      asks (comingUp.insertIdx 3 .hangUp) s 0 = [serviceB, serviceA]) (by decide +kernel)
  obtain ⟨hlate, hasks⟩ := Bool.and_eq_true_iff.mp hp
  exact ⟨s, job, hs, hjob, hreply, hlate, of_decide_eq_true hasks,
    (asks_of_hangUps _ s 0 job hjob).1 hlate⟩

/-- The client goes away while the dependency comes up, and the service is never asked for. -/
theorem not_asks_hungUp : ∃ s job, Reached s ∧ s.starts.controls[0]? = some job ∧
    job.reply = .waiting ∧ asks (comingUp.insertIdx 1 .hangUp) s 0 = [serviceB] ∧
    asks ((comingUp.insertIdx 1 .hangUp).filter Event.isInput) s 0 = [serviceB, serviceA] := by
  obtain ⟨s, job, hs, hjob, hreply, hp⟩ := exists_waiting
    (p := fun s => asks (comingUp.insertIdx 1 .hangUp) s 0 = [serviceB] &&
      asks ((comingUp.insertIdx 1 .hangUp).filter Event.isInput) s 0 = [serviceB, serviceA])
    (by decide +kernel)
  obtain ⟨hcut, hwhole⟩ := Bool.and_eq_true_iff.mp hp
  exact ⟨s, job, hs, hjob, hreply, of_decide_eq_true hcut, of_decide_eq_true hwhole⟩

end Supervisor

end Rinit
