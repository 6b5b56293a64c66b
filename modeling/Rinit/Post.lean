import Rinit.Flows
import Rinit.Resurrect

/-!
# The commands after a start

An `ExecStartPost=` command is not to hurt the service it follows. The stage that runs the
commands passes over one that fails and kills one that takes too long, but the flow looks at
its own deadline first and fails the whole unit when it has passed. `harmless_iff` : a turn
that comes to that stage, or begins in it, leaves a unit that is up alone exactly when the flow
has time left, or when the unit was asked to stop, which ends the flow before.
`not_harmless_late` is a service that is killed because the command after it still runs.

A turn goes through several stages (`Leads`). It comes to the last one from the spawn, from the
report of the exec or from the wait for readiness, and forks the first command then and there;
`exists_comesToPost` : no turn is done or waits in the last stage in another way.
-/

open Relation

namespace Rinit.StartFlow

/-- What a flow finds at one of its turns. -/
structure Moment where
  k : Kernel
  manager : UnitManager
  aux : AuxExits

/-- The flow at the beginning of a turn. -/
def Moment.enter (w : Moment) (f : StartFlow) : Turn :=
  { flow := f, manager := w.manager, aux := w.aux }

/-- The turn of a flow. -/
def Moment.turn (w : Moment) (f : StartFlow) : Turn := advance w.k (w.enter f)

/-- The flows that come of `f` by turns that wait, whatever happens in between. -/
inductive Driven (f : StartFlow) : StartFlow → Prop
  | start : Driven f f
  | turn {g : StartFlow} (w : Moment) (h : Driven f g) (hw : (w.turn g).done = none) :
    Driven f (w.turn g).flow

/-- A call for an auxiliary command of `u` : it is forked, or it is `running` and killed. -/
def AuxCall (u : UnitName) (running : Option Pid) : Call → Prop
  | .command v _ => v = u
  | .kill target _ _ => ∃ pid, running = some pid ∧ (target = pid ∨ target = -pid)
  | .spawn _ _ => False

/-- The flow waits in its last stage. -/
def AtPost (f : StartFlow) : Prop :=
  ∃ commands next running, f.stage = .post commands next running

/-- How a turn of the last stage may end : the flow goes on, or is done, or was cancelled
because its unit was asked to stop. -/
inductive GoesOn (w : Moment) (f : StartFlow) (t₁ t : Turn) : Prop
  | waits (hd : t.done = none) (hs : t.flow.AtPost)
  | ends (hd : t.done = some (.ok t₁.flow.spawned))
  | stopped (hs : w.manager.targetOf f.unit = some .stopped)
    (hd : t.done = some (.error (f.unit.canonical ++ " start cancelled by a stop")))

/-- From `t₁` on the turn changes no unit and signals nothing but the command the flow waits
for. -/
structure Harmless (w : Moment) (f : StartFlow) (t₁ t : Turn) : Prop where
  units : t.manager.units = t₁.manager.units
  calls : ∃ calls, t.manager.calls = t₁.manager.calls ++ calls ∧
    ∀ c ∈ calls, AuxCall f.unit t₁.flow.runningAuxPid c
  goesOn : GoesOn w f t₁ t

/-! ## The way to the last stage -/

/-- The main process is there, and its readiness has the time that the flow has. -/
def confirmed (t : Turn) : Turn :=
  { t with
    flow := { t.flow with spawned := true }
    manager := t.manager.capStartDeadline t.flow.unit t.flow.deadline }

/-- The stage that follows the spawn. -/
def afterStage (t : Turn) : StartStage :=
  let kind : ServiceKind := ((t.manager.get t.flow.unit).map (·.config.serviceKind)).getD .simple
  if kind = .oneshot ∨ kind = .forking then .waitReady else .post (postCommands t) 0 none

/-- A turn goes on from one stage to the next. -/
inductive Leads (k : Kernel) : StartStage × Turn → StartStage × Turn → Prop
  | sockets {paths : List String} {t : Turn} (h : ∀ path ∈ paths, k.pathExists path = true)
    (hnow : k.now < t.flow.deadline) : Leads k (.sockets paths, t) (.conflicts none, t)
  | stops (t : Turn) : Leads k (.conflicts none, t) (.conflicts (some (firstWaits k t)),
      { t with manager := (t.manager.stopConflicts k t.flow.unit).1 })
  | clear {waits : List ConflictWait} {t : Turn}
    (h : ∀ wait ∈ waits, (pollConflict k t.flow.deadline t.manager wait).val.done = true) :
    Leads k (.conflicts (some waits), t)
      (.pre (((t.manager.get t.flow.unit).map (·.config.execStartPre)).getD []) 0 none,
        noted t ((waits.map (pollConflict k t.flow.deadline t.manager)).flatMap Traced.calls))
  | succeeds {commands : List ExecCommand} {next : ℕ} {run : AuxRun} {t : Turn}
    (h : t.aux[run.pid]? = some .success) : Leads k (.pre commands next (some run), t)
      (.pre commands (next + 1) none, { t with aux := t.aux.erase run.pid })
  | prepared {commands : List ExecCommand} {next : ℕ} {t : Turn} (h : commands[next]? = none) :
    Leads k (.pre commands next none, t) (.spawn, t)
  | spawns {t : Turn} {m : UnitManager}
    (h : beginSpawn k t.manager t.flow.unit = (m, .ok (.spawn false))) :
    Leads k (.spawn, t)
      (afterStage (confirmed { t with manager := m }), confirmed { t with manager := m })
  | passes {t : Turn} {m : UnitManager} {b : UnitRuntime.SpawnBegin}
    (h : beginSpawn k t.manager t.flow.unit = (m, .ok b)) (hb : b = .noProcess ∨ b = .alreadyRunning) :
    Leads k (.spawn, t)
      (.post [] 0 none, { t with manager := m, flow := { t.flow with spawned := false } })
  | reported {t : Turn} (h : k.spawnReport t.flow.unit = .started) :
    Leads k (.spawnWait, t) (afterStage (confirmed t), confirmed t)
  | ready {t : Turn} {rt : UnitRuntime} (h : t.manager.get t.flow.unit = some rt)
    (hs : rt.state.isSatisfied = true) :
    Leads k (.waitReady, t) (.post rt.config.execStartPost 0 none, t)

section Leads

variable {k : Kernel} {t : Turn}

theorem afterSpawn_eq (k : Kernel) (t : Turn) :
    afterSpawn k t = runStage k (afterStage (confirmed t)) (confirmed t) := by
  unfold afterSpawn afterStage
  dsimp only
  split
  · next h => exact (if_pos h).symm ▸ rfl
  · next h => exact (if_neg h).symm ▸ rfl

/-- The turn ends as it does from the stage it goes on to. -/
theorem Leads.runStage_eq {a b : StartStage × Turn} (h : Leads k a b) :
    runStage k a.1 a.2 = runStage k b.1 b.2 := by
  cases h with
  | @sockets paths t h hnow =>
    have hfind : (paths.find? fun path => !k.pathExists path) = none :=
      List.find?_eq_none.mpr fun path hpath => by simp [h path hpath]
    change runSockets k paths t = runConflicts k none t
    unfold runSockets
    rw [hfind]
    exact if_neg (Nat.not_le.mpr hnow)
  | stops t => rfl
  | @clear waits t h =>
    have hany : ((waits.map (pollConflict k t.flow.deadline t.manager)).map Traced.val).any
        (fun wait => !wait.done) = false := by
      simpa [Function.comp_def] using h
    change waitConflicts k waits t = _
    unfold waitConflicts
    exact if_neg (by rw [hany]; exact Bool.false_ne_true)
  | @succeeds commands next run t h =>
    change waitPre k commands next (some run) t = _
    unfold waitPre
    dsimp only
    rw [h]
    rfl
  | @prepared commands next t h =>
    change runPre k commands next t = _
    unfold runPre
    rw [h]
    rfl
  | @spawns t m h =>
    change runSpawn k t = _
    unfold runSpawn
    rw [h]
    exact afterSpawn_eq k _
  | @passes t m b h hb =>
    change runSpawn k t = _
    unfold runSpawn
    rw [h]
    rcases hb with rfl | rfl <;> rfl
  | @reported t h =>
    change waitSpawn k t = _
    unfold waitSpawn
    rw [h]
    exact afterSpawn_eq k t
  | @ready t rt h hs =>
    have hsat : rt.state = .active ∨ rt.state = .activeExited := by
      simpa [UnitState.isSatisfied] using hs
    change waitReady k t = _
    unfold waitReady
    rw [h]
    rcases hsat with hsat | hsat <;> simp only [hsat] <;> rfl

/-- The flow is still that of its unit, and is not done. -/
theorem Leads.same {a b : StartStage × Turn} (h : Leads k a b) :
    b.2.flow.unit = a.2.flow.unit ∧ b.2.done = a.2.done := by
  cases h <;> exact ⟨rfl, rfl⟩

theorem runStage_of_leads {a b : StartStage × Turn} (h : ReflTransGen (Leads k) a b) :
    runStage k a.1 a.2 = runStage k b.1 b.2 ∧
      b.2.flow.unit = a.2.flow.unit ∧ b.2.done = a.2.done := by
  induction h with
  | refl => exact ⟨rfl, rfl, rfl⟩
  | tail _ hstep ih =>
    exact ⟨ih.1.trans hstep.runStage_eq, hstep.same.1.trans ih.2.1, hstep.same.2.trans ih.2.2⟩

end Leads

/-- The turn begins in the last stage, or gets past the checks at its head and comes to it. -/
inductive ComesToPost (w : Moment) (f : StartFlow) : Turn → Prop
  | waits (hs : f.AtPost) : ComesToPost w f (w.enter f)
  | enters (hs : ¬f.AtPost) (hb : ¬Blocked (w.enter f))
    (hnow : w.k.now < f.deadline ∨ f.stage.isSockets = true) {commands : List ExecCommand}
    {t₁ : Turn} (h : ReflTransGen (Leads w.k) (f.stage, waitIn (w.enter f) .done)
      (.post commands 0 none, t₁)) :
    ComesToPost w f (waitIn t₁ (.post commands 0 none))

/-! ## The last stage -/

/-- What the last stage does : it forks commands, and waits for one or is done. -/
structure Passes (running : Option Pid) (t t' : Turn) : Prop where
  units : t'.manager.units = t.manager.units
  calls : ∃ calls, t'.manager.calls = t.manager.calls ++ calls ∧
    ∀ c ∈ calls, AuxCall t.flow.unit running c
  result : t'.done = some (.ok t.flow.spawned) ∨ t'.done = none ∧
    ∃ commands next run, t'.flow = { t.flow with stage := .post commands next (some run) }

theorem Passes.after {running : Option Pid} {t t₁ t' : Turn} (h : Passes running t₁ t')
    (hf : t₁.flow = t.flow) (hu : t₁.manager.units = t.manager.units) {calls : List Call}
    (hc : t₁.manager.calls = t.manager.calls ++ calls)
    (ha : ∀ c ∈ calls, AuxCall t.flow.unit running c) : Passes running t t' := by
  obtain ⟨more, hmore, hall⟩ := h.calls
  refine ⟨h.units.trans hu, ⟨calls ++ more, ?_, fun c hmem => ?_⟩, hf ▸ h.result⟩
  · rw [hmore, hc, List.append_assoc]
  · rcases List.mem_append.mp hmem with hmem | hmem
    · exact ha c hmem
    · exact hf ▸ hall c hmem

theorem spawnAux_fst (k : Kernel) (m : UnitManager) (u : UnitName) (cmd : ExecCommand)
    (running : Option Pid) : (spawnAux k m u cmd).1.units = m.units ∧
      ∃ calls, (spawnAux k m u cmd).1.calls = m.calls ++ calls ∧
        ∀ c ∈ calls, AuxCall u running c := by
  unfold spawnAux
  split
  · exact ⟨rfl, [], by simp, by simp⟩
  · next rt _ =>
    have hcalls : ∀ c ∈ (k.runDetached u rt.config cmd).calls, AuxCall u running c := by
      unfold Kernel.runDetached
      split
      · simp
      · split
        · simp
        · simp [AuxCall]
    dsimp only
    split <;> exact ⟨rfl, _, rfl, hcalls⟩

theorem passes_runPost (k : Kernel) (running : Option Pid) (commands rest : List ExecCommand)
    (next : ℕ) (t : Turn) (hd : t.done = none) :
    Passes running t (runPost k commands rest next t) := by
  induction rest generalizing next t with
  | nil => exact ⟨rfl, ⟨[], by simp [runPost], by simp⟩, .inl rfl⟩
  | cons cmd rest ih =>
    obtain ⟨hu, calls, hc, ha⟩ := spawnAux_fst k t.manager t.flow.unit cmd running
    unfold runPost
    generalize spawnAux k t.manager t.flow.unit cmd = r at hu hc
    obtain ⟨m, e | ⟨pid, secs⟩⟩ := r
    · exact (ih (next + 1) { t with manager := m } hd).after rfl hu hc ha
    · exact ⟨hu, ⟨calls, hc, ha⟩, .inr ⟨hd, commands, next, _, rfl⟩⟩

/-- The signal that ends an auxiliary command reaches nothing else. -/
theorem killProcessGroup_auxCall (k : Kernel) (u : UnitName) (pid : Pid) (signal : ℕ) :
    ∀ c ∈ (k.killProcessGroup pid signal).calls, AuxCall u (some pid) c := by
  unfold Kernel.killProcessGroup
  split
  · simp
  · split
    · simp
    · intro c hc
      obtain rfl := List.mem_singleton.mp hc
      refine ⟨pid, rfl, ?_⟩
      split
      · exact .inr rfl
      · exact .inl rfl

theorem passes_waitPost (k : Kernel) (commands : List ExecCommand) (next : ℕ)
    (running : Option AuxRun) (t : Turn) (hd : t.done = none) :
    Passes (running.map (·.pid)) t (waitPost k commands next running t) := by
  unfold waitPost
  split
  · exact passes_runPost k _ commands _ next t hd
  · next run =>
    split
    · exact (passes_runPost k _ commands _ (next + 1) { t with aux := t.aux.erase run.pid }
        hd).after rfl rfl (List.append_nil _).symm (by simp)
    · split
      · exact (passes_runPost k _ commands _ (next + 1)
          (noted t (k.killProcessGroup run.pid sigKill).calls) hd).after rfl rfl rfl
          (killProcessGroup_auxCall k t.flow.unit run.pid sigKill)
      · exact ⟨rfl, ⟨[], by simp [waitIn], by simp⟩, .inr ⟨hd, commands, next, run, rfl⟩⟩

/-! ## Turns -/

variable {w : Moment} {f g : StartFlow}

theorem runningAuxPid_post {commands : List ExecCommand} {next : ℕ} {running : Option AuxRun}
    (h : f.stage = .post commands next running) : f.runningAuxPid = running.map (·.pid) := by
  unfold runningAuxPid
  rw [h]
  cases running <;> rfl

/-- A unit that is up passes the checks at the head of a turn. -/
theorem checks_of_isSatisfied {m : UnitManager} {u : UnitName}
    (h : (m.get u).any (·.state.isSatisfied) = true) :
    m.isDeactivating u = false ∧ m.isFailed u = false := by
  obtain ⟨rt, hrt, hst⟩ := (Option.any_eq_true _ _).mp h
  have hsat : rt.state = .active ∨ rt.state = .activeExited := by
    simpa [UnitState.isSatisfied] using hst
  rcases hsat with h | h <;>
    simp [UnitManager.isDeactivating, UnitManager.isFailed, hrt, h, UnitState.isFailed]

/-- A turn that gets past the checks at its head does what is ready in the stage of its flow. -/
theorem turn_of_free (hb : ¬Blocked (w.enter f))
    (hnow : w.k.now < f.deadline ∨ f.stage.isSockets = true) :
    w.turn f = runStage w.k f.stage (waitIn (w.enter f) .done) := by
  unfold Blocked at hb
  push Not at hb
  obtain ⟨ht, hdeact, hfail⟩ := hb
  have hlate : ¬((decide (f.deadline ≤ w.k.now) && !f.stage.isSockets) = true) := by
    rcases hnow with h | h
    · simp [Nat.not_le.mpr h]
    · simp [h]
  unfold Moment.turn advance
  dsimp only
  rw [if_neg ht, if_neg (by simpa using hdeact), if_neg (by simpa using hfail)]
  exact if_neg hlate

/-- A turn that begins in the last stage with time left runs it. -/
theorem passes_turn (hs : f.AtPost) (hb : ¬Blocked (w.enter f)) (hnow : w.k.now < f.deadline) :
    Passes f.runningAuxPid (w.enter f) (w.turn f) := by
  obtain ⟨commands, next, running, hstage⟩ := hs
  have hpass := passes_waitPost w.k commands next running (waitIn (w.enter f) .done) rfl
  rw [turn_of_free hb (.inl hnow), hstage, runningAuxPid_post hstage]
  exact ⟨hpass.units, hpass.calls, hpass.result⟩

/-- A turn that comes to the last stage runs it. -/
theorem passes_enters (hb : ¬Blocked (w.enter f))
    (hnow : w.k.now < f.deadline ∨ f.stage.isSockets = true) {commands : List ExecCommand}
    {t₁ : Turn} (h : ReflTransGen (Leads w.k) (f.stage, waitIn (w.enter f) .done)
      (.post commands 0 none, t₁)) : Passes none (waitIn t₁ (.post commands 0 none)) (w.turn f) := by
  obtain ⟨hrun, -, hdone⟩ := runStage_of_leads h
  have hpass := passes_waitPost w.k commands 0 none t₁ hdone
  rw [turn_of_free hb hnow, hrun]
  exact ⟨hpass.units, hpass.calls, hpass.result⟩

/-- Once its time is over, a turn at a unit that is up fails it. -/
theorem turn_late (hs : f.AtPost) (hup : (w.manager.get f.unit).any (·.state.isSatisfied) = true)
    (ht : w.manager.targetOf f.unit ≠ some .stopped) (hnow : f.deadline ≤ w.k.now) :
    (w.turn f).done = some (.error (f.unit.canonical ++ ": start timed out")) := by
  obtain ⟨commands, next, running, hstage⟩ := hs
  obtain ⟨hdeact, hfail⟩ := checks_of_isSatisfied hup
  simp [Moment.turn, Moment.enter, advance, ht, hdeact, hfail, hstage, hnow, StartStage.isSockets,
    fail, timedOut]

/-- A turn that waits leaves the flow the time it had. -/
theorem deadline_turn (hw : (w.turn f).done = none) : (w.turn f).flow.deadline = f.deadline := by
  cases advanced_advance w.k (w.enter f) rfl with
  | cancelled _ reason he =>
    rw [Moment.turn, he] at hw
    cases hw
  | failed _ _ reason _ hd => exact absurd (hw.symm.trans hd) (by simp)
  | waits _ _ _ _ hf =>
    change (advance w.k (w.enter f)).flow.deadline = f.deadline
    rw [hf]
    rfl
  | spawned _ _ _ hf => exact hf.deadline
  | later _ _ hf => exact hf.deadline

theorem Driven.deadline (h : Driven f g) : g.deadline = f.deadline := by
  induction h with
  | start => rfl
  | turn w _ hw ih => exact (deadline_turn hw).trans ih

/-- A turn is late for the last stage only when it begins in it. -/
theorem inTime_of_enters (hs : ¬f.AtPost) (hnow : w.k.now < f.deadline ∨ f.stage.isSockets = true)
    {commands : List ExecCommand} {t₁ : Turn}
    (h : ReflTransGen (Leads w.k) (f.stage, waitIn (w.enter f) .done)
      (.post commands 0 none, t₁)) : w.k.now < f.deadline := by
  rcases hnow with hnow | hsockets
  · exact hnow
  · rcases ReflTransGen.cases_head h with heq | ⟨b, hstep, -⟩
    · exact absurd ⟨commands, 0, none, congrArg Prod.fst heq⟩ hs
    · generalize hstage : f.stage = stage at hstep hsockets
      cases hstep with
      | sockets _ hnow => exact hnow
      | stops | clear | succeeds | prepared | spawns | passes | reported | ready => cases hsockets

/-- A turn that comes to the last stage at a unit that is up hurts nothing from there on,
exactly when the flow has time left or the unit was asked to stop. -/
theorem harmless_iff {t₁ : Turn} (hg : Driven f g) (hc : ComesToPost w g t₁)
    (hup : (t₁.manager.get g.unit).any (·.state.isSatisfied) = true) :
    Harmless w g t₁ (w.turn g) ↔
      w.k.now < f.deadline ∨ w.manager.targetOf g.unit = some .stopped := by
  rw [← hg.deadline]
  have hgoes {running : Option Pid} {t₁ t : Turn} (h : Passes running t₁ t) : GoesOn w g t₁ t := by
    rcases h.result with hd | ⟨hd, commands, next, run, hflow⟩
    · exact .ends hd
    · exact .waits hd ⟨commands, next, some run, by rw [hflow]⟩
  cases hc with
  | waits hs =>
    obtain ⟨hdeact, hfail⟩ := checks_of_isSatisfied hup
    by_cases ht : w.manager.targetOf g.unit = some .stopped
    · refine ⟨fun _ => .inr ht, fun _ => ?_⟩
      have hturn : w.turn g = cancel (w.enter g)
          (g.unit.canonical ++ " start cancelled by a stop") := if_pos ht
      rw [hturn]
      exact ⟨rfl, ⟨[], (List.append_nil _).symm, by simp⟩, .stopped ht rfl⟩
    · by_cases hnow : w.k.now < g.deadline
      · refine ⟨fun _ => .inl hnow, fun _ => ?_⟩
        have hb : ¬Blocked (w.enter g) := by
          rintro (h | ⟨-, h⟩ | ⟨h, -⟩)
          · exact ht h
          · exact absurd (hdeact.symm.trans h) Bool.false_ne_true
          · exact absurd (hfail.symm.trans h) Bool.false_ne_true
        have hpass := passes_turn hs hb hnow
        exact ⟨hpass.units, hpass.calls, hgoes hpass⟩
      · -- the check at the head of the turn fails the unit before the stage is looked at
        refine ⟨fun h => ?_, fun h => absurd h (by simp [hnow, ht])⟩
        have hdone := turn_late hs hup ht (Nat.not_lt.mp hnow)
        cases h.goesOn with
        | waits hd => simp [hdone] at hd
        | ends hd => simp [hdone] at hd
        | stopped hstop => exact .inr hstop
  | @enters hs hb hnow commands t₁ h =>
    refine ⟨fun _ => .inl (inTime_of_enters hs hnow h), fun _ => ?_⟩
    have hpass := passes_enters hb hnow h
    obtain ⟨calls, hcalls, hall⟩ := hpass.calls
    refine ⟨hpass.units, ⟨calls, hcalls, ?_⟩, hgoes hpass⟩
    rwa [show (waitIn t₁ (.post commands 0 none)).flow.unit = g.unit from
      (runStage_of_leads h).2.1] at hall

/-! ## Every way to the last stage -/

/-- The turn is done, or waits in the last stage. -/
def Finishes (t : Turn) : Prop := t.done = none ∧ t.flow.AtPost ∨ ∃ b, t.done = some (.ok b)

/-- A stage leads to the last one. -/
def Through (k : Kernel) (stage : StartStage) (t : Turn) : Prop :=
  ∃ commands t₁, ReflTransGen (Leads k) (stage, t) (.post commands 0 none, t₁)

section Through

variable {k : Kernel} {t : Turn}

theorem Through.head {stage stage' : StartStage} {t' : Turn} (h : Leads k (stage, t) (stage', t'))
    (ht : Through k stage' t') : Through k stage t := by
  obtain ⟨commands, t₁, hpost⟩ := ht
  exact ⟨commands, t₁, .head h hpost⟩

theorem not_finishes_error {reason : String} (h : t.done = some (.error reason)) :
    ¬Finishes t := by
  rintro (⟨hd, -⟩ | ⟨b, hd⟩)
  · exact absurd (hd.symm.trans h) (by simp)
  · exact absurd (hd.symm.trans h) (by simp)

theorem not_finishes_waitIn {stage : StartStage} (hd : t.done = none)
    (hs : ∀ commands next running, stage ≠ .post commands next running) :
    ¬Finishes (waitIn t stage) := by
  rintro (⟨-, commands, next, running, h⟩ | ⟨b, h⟩)
  · exact hs commands next running h
  · exact absurd (hd.symm.trans h) (by simp)

theorem through_waitReady (hd : t.done = none) (h : Finishes (waitReady k t)) :
    Through k .waitReady t := by
  unfold waitReady at h
  split at h
  · exact absurd h (not_finishes_error rfl)
  · next rt hrt =>
    split at h
    · next hs => exact ⟨_, t, .single (.ready hrt (by rw [hs]; rfl))⟩
    · next hs => exact ⟨_, t, .single (.ready hrt (by rw [hs]; rfl))⟩
    · split at h
      · exact absurd h (not_finishes_error rfl)
      · exact absurd h (not_finishes_waitIn hd (by simp))
    all_goals exact absurd h (not_finishes_error rfl)

theorem through_afterSpawn (hd : t.done = none) (h : Finishes (afterSpawn k t)) :
    Through k (afterStage (confirmed t)) (confirmed t) := by
  rw [afterSpawn_eq] at h
  unfold afterStage at h ⊢
  dsimp only at h ⊢
  split at h
  · next hkind =>
    rw [if_pos hkind]
    exact through_waitReady hd h
  · next hkind =>
    rw [if_neg hkind]
    exact ⟨_, _, .refl⟩

theorem through_runSpawn (hd : t.done = none) (h : Finishes (runSpawn k t)) :
    Through k .spawn t := by
  unfold runSpawn at h
  split at h
  · exact absurd h (not_finishes_waitIn hd (by simp))
  · next m hs => exact (through_afterSpawn (t := { t with manager := m }) hd h).head (.spawns hs)
  · next hs => exact ⟨_, _, .single (.passes hs (.inl rfl))⟩
  · next hs => exact ⟨_, _, .single (.passes hs (.inr rfl))⟩
  · exact absurd h (not_finishes_error rfl)

theorem through_runPre {commands : List ExecCommand} {next : ℕ} (hd : t.done = none)
    (h : Finishes (runPre k commands next t)) : Through k (.pre commands next none) t := by
  unfold runPre at h
  split at h
  · next hnone => exact (through_runSpawn hd h).head (.prepared hnone)
  · split at h
    · exact absurd h (not_finishes_waitIn hd (by simp))
    · exact absurd h (not_finishes_error rfl)

theorem through_waitPre {commands : List ExecCommand} {next : ℕ} {running : Option AuxRun}
    (hd : t.done = none) (h : Finishes (waitPre k commands next running t)) :
    Through k (.pre commands next running) t := by
  unfold waitPre at h
  split at h
  · exact through_runPre hd h
  · next run =>
    dsimp only at h
    split at h
    · next hexit =>
      exact (through_runPre (t := { t with aux := t.aux.erase run.pid }) hd h).head
        (.succeeds hexit)
    · exact absurd h (not_finishes_error rfl)
    · split at h
      · exact absurd h (not_finishes_error rfl)
      · exact absurd h (not_finishes_waitIn hd (by simp))

theorem through_waitConflicts {waits : List ConflictWait} (hd : t.done = none)
    (h : Finishes (waitConflicts k waits t)) : Through k (.conflicts (some waits)) t := by
  unfold waitConflicts at h
  dsimp only at h
  split at h
  · exact absurd h (not_finishes_waitIn hd (by simp))
  · next hall =>
    refine (through_runPre (t := noted t _) hd h).head (.clear ?_)
    simpa [Function.comp_def] using hall

theorem through_runConflicts {waits : Option (List ConflictWait)} (hd : t.done = none)
    (h : Finishes (runConflicts k waits t)) : Through k (.conflicts waits) t := by
  unfold runConflicts at h
  split at h
  · exact through_waitConflicts hd h
  · exact (through_waitConflicts (t := { t with
      manager := (t.manager.stopConflicts k t.flow.unit).1 }) hd h).head (.stops t)

theorem through_runSockets {paths : List String} (hd : t.done = none)
    (h : Finishes (runSockets k paths t)) : Through k (.sockets paths) t := by
  unfold runSockets at h
  split at h
  · split at h
    · exact absurd h (not_finishes_waitIn hd (by simp))
    · exact absurd h (not_finishes_error rfl)
  · next hfind =>
    split at h
    · exact absurd h (not_finishes_error rfl)
    · next hnow =>
      refine (through_runConflicts hd h).head (.sockets ?_ (Nat.not_le.mp hnow))
      simpa using List.find?_eq_none.mp hfind

theorem through_waitSpawn (hd : t.done = none) (h : Finishes (waitSpawn k t)) :
    Through k .spawnWait t := by
  unfold waitSpawn at h
  split at h
  · next hreport => exact (through_afterSpawn hd h).head (.reported hreport)
  · exact absurd h (not_finishes_error rfl)
  · exact absurd h (not_finishes_waitIn hd (by simp))
  · exact absurd h (not_finishes_error rfl)

theorem through_runStage {stage : StartStage} (hs : stage ≠ .done)
    (hp : ∀ commands next running, stage ≠ .post commands next running) (hd : t.done = none)
    (h : Finishes (runStage k stage t)) : Through k stage t := by
  cases stage with
  | sockets paths => exact through_runSockets hd h
  | conflicts waits => exact through_runConflicts hd h
  | pre commands next running => exact through_waitPre hd h
  | spawn => exact through_runSpawn hd h
  | spawnWait => exact through_waitSpawn hd h
  | waitReady => exact through_waitReady hd h
  | post commands next running => exact absurd rfl (hp commands next running)
  | done => exact absurd rfl hs

end Through

theorem free_of_finishes (h : Finishes (w.turn f)) :
    ¬Blocked (w.enter f) ∧ (w.k.now < f.deadline ∨ f.stage.isSockets = true) := by
  unfold Moment.turn advance at h
  dsimp only at h
  split at h
  · exact absurd h (not_finishes_error rfl)
  · next ht =>
    split at h
    · exact absurd h (not_finishes_error rfl)
    · next hdeact =>
      split at h
      · exact absurd h (not_finishes_error rfl)
      · next hfail =>
        split at h
        · exact absurd h (not_finishes_error rfl)
        · next hlate =>
          refine ⟨?_, ?_⟩
          · rintro (hb | ⟨hb, hb'⟩ | ⟨hb, hb'⟩)
            · exact ht hb
            · exact hdeact (by rw [hb, hb']; rfl)
            · exact hfail (by rw [hb, Bool.true_and]; exact decide_eq_true hb')
          · by_cases hnow : w.k.now < f.deadline
            · exact .inl hnow
            · refine .inr ?_
              by_contra hsockets
              refine hlate ?_
              rw [Bool.and_eq_true]
              exact ⟨decide_eq_true (Nat.not_lt.mp hnow), by simp [Moment.enter, hsockets]⟩

/-- A turn that is done, or waits in the last stage, has come to it or began in it. -/
theorem exists_comesToPost (hs : f.stage ≠ .done) (h : Finishes (w.turn f)) :
    ∃ t₁, ComesToPost w f t₁ := by
  by_cases hpost : f.AtPost
  · exact ⟨_, .waits hpost⟩
  · obtain ⟨hb, hnow⟩ := free_of_finishes h
    rw [turn_of_free hb hnow] at h
    obtain ⟨commands, t₁, hleads⟩ := through_runStage hs
      (fun commands next running hstage => hpost ⟨commands, next, running, hstage⟩) rfl h
    exact ⟨_, .enters hpost hb hnow hleads⟩

/-! ## A service with a slow command after it -/

/-- A directory with one service that has a second to start, its command included. -/
def slowPost : List UnitFile :=
  [{ name := serviceA
     path := "/etc/rinit/a.service"
     contents := "[Service]\nExecStart=/bin/a\nExecStartPost=/bin/b\nTimeoutStartSec=1\n" }]

/-- The moment at which the loop advances its flows. -/
def Moment.of (k : Kernel) (s : Supervisor) : Moment := ⟨k, s.manager, s.starts.auxExits⟩

/-- Whether the service is up and its flow waits for the command. -/
def runsPost (s : Supervisor) : Bool :=
  (s.manager.get serviceA).any (fun rt => rt.state = .active && rt.pid = some 10) &&
    decide (s.manager.targetOf serviceA ≠ some .stopped) &&
    (s.starts.flows[serviceA]?).any fun f => f.unit = serviceA && f.deadline = 1001 &&
      match f.stage with
      | .post _ _ (some run) => run.pid = 11
      | _ => false

/-- The service after its boot, and whatever has been evaluated on it. -/
theorem exists_runsPost {p : Supervisor → Bool}
    (h : ((BootPlan.planBoot slowPost [] "a.service").toOption.map fun plan =>
      (Supervisor.init (.granting 0 10) plan none).steps [(1, 10, .boot), (2, 10, .advance)]).any
        (fun s => runsPost s && p s) = true) :
    ∃ s f, Supervisor.Reached s ∧ s.starts.flows[serviceA]? = some f ∧ f.AtPost ∧
      f.unit = serviceA ∧ f.deadline = 1001 ∧
      (s.manager.get serviceA).any (fun rt => rt.state = .active && rt.pid = some 10) = true ∧
      s.manager.targetOf serviceA ≠ some .stopped ∧ p s = true := by
  obtain ⟨s, hs, hp⟩ := Supervisor.exists_reached _ _ h
  simp only [runsPost, Bool.and_eq_true, decide_eq_true_eq] at hp
  obtain ⟨⟨⟨hup, htarget⟩, hflow⟩, hps⟩ := hp
  obtain ⟨f, hf, hstage⟩ := (Option.any_eq_true _ _).mp hflow
  simp only [Bool.and_eq_true, decide_eq_true_eq] at hstage
  refine ⟨s, f, hs, hf, ?_, hstage.1.1, hstage.1.2, hup, htarget, hps⟩
  have hpost := hstage.2
  split at hpost
  · next commands next run heq => exact ⟨commands, next, some run, heq⟩
  · cases hpost

theorem isSatisfied_of_active {s : Supervisor} {pid : Pid}
    (h : (s.manager.get serviceA).any (fun rt => rt.state = .active && rt.pid = some pid) = true) :
    (s.manager.get serviceA).any (·.state.isSatisfied) = true := by
  obtain ⟨rt, hrt, hst⟩ := (Option.any_eq_true _ _).mp h
  rw [Bool.and_eq_true, decide_eq_true_eq] at hst
  simp [hrt, hst.1, UnitState.isSatisfied]

/-- The kernel at the second moment, which may refuse to fork the command. -/
def forking (command : Except String Pid) : Kernel :=
  { Kernel.granting 2 10 with spawnDetached := fun _ _ => command }

/-- Whether the next turn of the flow spawns the service and comes to the end of its start, or
waits for the command. -/
def spawnsNext (k : Kernel) (s : Supervisor) : Bool :=
  (s.starts.flows[serviceA]?).any fun f =>
    let t := Moment.turn (.of k s) f
    decide (f.unit = serviceA) && decide (f.deadline = 1001) && decide (f.stage = .conflicts none) &&
      ((t.manager.get serviceA).any fun rt => rt.state = .active && rt.pid = some 10) &&
      match t.done with
      | none => match t.flow.stage with
        | .post _ _ (some run) => run.pid = 11
        | _ => false
      | some (.ok spawned) => spawned
      | some (.error _) => false

/-- The service whose start is on its way, and the turn that spawns it. -/
theorem exists_spawnsNext (k : Kernel)
    (h : ((BootPlan.planBoot slowPost [] "a.service").toOption.map fun plan =>
      (Supervisor.init (.granting 0 10) plan none).steps [(1, 10, .boot)]).any (spawnsNext k) = true) :
    ∃ s f t₁, Supervisor.Reached s ∧ s.starts.flows[serviceA]? = some f ∧ f.deadline = 1001 ∧
      ¬f.AtPost ∧ ComesToPost (.of k s) f t₁ ∧
      (t₁.manager.get f.unit).any (·.state.isSatisfied) = true := by
  obtain ⟨s, hs, hp⟩ := Supervisor.exists_reached _ _ h
  obtain ⟨f, hf, hp⟩ := (Option.any_eq_true _ _).mp hp
  simp only [Bool.and_eq_true, decide_eq_true_eq] at hp
  obtain ⟨⟨⟨⟨hunit, hdl⟩, hstage⟩, hup⟩, hdone⟩ := hp
  have hnot : ¬f.AtPost := by
    rintro ⟨commands, next, running, h⟩
    rw [hstage] at h
    cases h
  have hfinishes : Finishes (Moment.turn (.of k s) f) := by
    split at hdone
    · next hnone =>
      split at hdone
      · next commands next run hpost => exact .inl ⟨hnone, commands, next, some run, hpost⟩
      · cases hdone
    · next b hok => exact .inr ⟨b, hok⟩
    · cases hdone
  obtain ⟨t₁, hc⟩ := exists_comesToPost (by rw [hstage]; simp) hfinishes
  refine ⟨s, f, t₁, hs, hf, hdl, hnot, hc, ?_⟩
  have hunits : (Moment.turn (.of k s) f).manager.units = t₁.manager.units := by
    cases hc with
    | waits hpost => exact absurd hpost hnot
    | enters _ hb hnow hleads => exact (passes_enters hb hnow hleads).units
  obtain ⟨rt, hrt, hst⟩ := (Option.any_eq_true _ _).mp hup
  rw [Bool.and_eq_true, decide_eq_true_eq] at hst
  rw [hunit, UnitManager.get, ← hunits, ← UnitManager.get, hrt]
  simp [hst.1, UnitState.isSatisfied]

/-- The turn that spawns the service leaves it alone from there on, whether it forks the command
after it or cannot, and so does a turn at which the command still runs. -/
theorem harmless_early :
    (∀ command ∈ [Except.ok 11, .error "Resource temporarily unavailable"],
      ∃ s f t₁, Supervisor.Reached s ∧ s.starts.flows[serviceA]? = some f ∧ ¬f.AtPost ∧
        ComesToPost (.of (forking command) s) f t₁ ∧
        Harmless (.of (forking command) s) f t₁ (Moment.turn (.of (forking command) s) f)) ∧
    ∃ s f, Supervisor.Reached s ∧ s.starts.flows[serviceA]? = some f ∧ f.AtPost ∧
      Harmless (.of (.granting 500 10) s) f (Moment.enter (.of (.granting 500 10) s) f)
        (Moment.turn (.of (.granting 500 10) s) f) := by
  refine ⟨fun command hmem => ?_, ?_⟩
  · obtain ⟨s, f, t₁, hs, hf, hdl, hnot, hc, hup⟩ := exists_spawnsNext (forking command) (by
      rcases List.mem_pair.mp hmem with rfl | rfl <;> decide +kernel)
    exact ⟨s, f, t₁, hs, hf, hnot, hc, (harmless_iff .start hc hup).mpr
      (.inl (hdl ▸ (by decide : 2 < 1001)))⟩
  · obtain ⟨s, f, hs, hf, hpost, hunit, hdl, hup, -, -⟩ := exists_runsPost (p := fun _ => true)
      (by decide +kernel)
    have hsat := isSatisfied_of_active hup
    rw [← hunit] at hsat
    exact ⟨s, f, hs, hf, hpost, (harmless_iff (w := .of (.granting 500 10) s) .start
      (.waits hpost) hsat).mpr (.inl (hdl ▸ (by decide : 500 < 1001)))⟩

/-- A service that is up is killed and failed when the command after it is still running as
the time for the start is over. -/
theorem not_harmless_late : ∃ s f, Supervisor.Reached s ∧ s.starts.flows[serviceA]? = some f ∧
    f.AtPost ∧
    (s.manager.get serviceA).any (fun rt => rt.state = .active && rt.pid = some 10) = true ∧
    s.manager.targetOf serviceA ≠ some .stopped ∧
    ((s.steps [(1001, 10, .advance)]).manager.get serviceA).any
      (fun rt => rt.state = .failed .startFailure && rt.pid = none) = true ∧
    (s.steps [(1001, 10, .advance)]).manager.calls.contains (.kill (-10) sigKill true) = true ∧
    ¬Harmless (.of (.granting 1001 10) s) f (Moment.enter (.of (.granting 1001 10) s) f)
      (Moment.turn (.of (.granting 1001 10) s) f) := by
  obtain ⟨s, f, hs, hf, hpost, hunit, hdl, hup, htarget, hp⟩ := exists_runsPost (p := fun s =>
    ((s.steps [(1001, 10, .advance)]).manager.get serviceA).any
      (fun rt => rt.state = .failed .startFailure && rt.pid = none) &&
    (s.steps [(1001, 10, .advance)]).manager.calls.contains (.kill (-10) sigKill true))
    (by decide +kernel)
  rw [Bool.and_eq_true] at hp
  refine ⟨s, f, hs, hf, hpost, hup, htarget, hp.1, hp.2, fun h => ?_⟩
  have hsat := isSatisfied_of_active hup
  rw [← hunit] at hsat htarget
  have hdone := turn_late (w := .of (.granting 1001 10) s) hpost hsat htarget
    (le_of_eq hdl)
  cases h.goesOn with
  | waits hd => simp [hdone] at hd
  | ends hd => simp [hdone] at hd
  | stopped hstop => exact htarget hstop

end Rinit.StartFlow
