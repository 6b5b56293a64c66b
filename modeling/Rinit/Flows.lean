import Rinit.Steady

/-!
# What a turn of a start flow does

`Advanced` says once what `StartFlow.advance` can do to the manager and to the flow : it gives
up at its entry, fails its unit, waits before the spawn, spawns, or goes on after the spawn.
`advanced_advance` reads it off the stages, and everything about runs of flows is shown from
it. `guarded_advance` : a turn is a run of five of the manager's operations.
-/

namespace Rinit

/-- The manager once calls were made. -/
def UnitManager.noted (m : UnitManager) (calls : List Call) : UnitManager :=
  { m with calls := m.calls ++ calls }

@[simp] theorem UnitManager.noted_get (m : UnitManager) (calls : List Call) (u : UnitName) :
    (m.noted calls).get u = m.get u :=
  rfl

@[simp] theorem UnitManager.noted_jobs (m : UnitManager) (calls : List Call) :
    (m.noted calls).jobs = m.jobs :=
  rfl

theorem UnitManager.noted_nil (m : UnitManager) : m.noted [] = m := by simp [noted]

theorem UnitManager.noted_noted (m : UnitManager) (calls more : List Call) :
    (m.noted calls).noted more = m.noted (calls ++ more) := by
  simp [noted, List.append_assoc]

/-- The flow has not come to its spawn. -/
def StartStage.isEarly : StartStage → Bool
  | .sockets _ | .conflicts _ | .pre .. | .spawn => true
  | .spawnWait | .waitReady | .post .. | .done => false

namespace StartFlow

/-- What keeps a turn from doing anything : the unit was asked to stop, is being stopped, or
has failed. -/
def Blocked (t : Turn) : Prop :=
  t.manager.targetOf t.flow.unit = some .stopped ∨
  t.flow.spawned = true ∧ t.manager.isDeactivating t.flow.unit = true ∨
  t.manager.isFailed t.flow.unit = true ∧ t.flow.stage ≠ .spawnWait

/-- The waits for the units that are stopped for a start. -/
def firstWaits (k : Kernel) (t : Turn) : List ConflictWait :=
  let r := t.manager.stopConflicts k t.flow.unit
  r.2.map fun other =>
    let secs := ((r.1.get other).map fun rt => max rt.config.timeoutStopSec 1).getD 1
    { unit := other, deadline := min (k.afterSecs secs) t.flow.deadline }

/-- The turn looks at the conflicts of its unit for the first time : nothing keeps it, and the
sockets it needs are there. -/
structure Looks (k : Kernel) (t : Turn) : Prop where
  free : ¬Blocked t
  inTime : k.now < t.flow.deadline
  stage : t.flow.stage = .conflicts none ∨
    ∃ paths, t.flow.stage = .sockets paths ∧ ∀ path ∈ paths, k.pathExists path = true

/-- The conflicts of a flow have been looked at, which stops them the first time. -/
inductive Cleared (k : Kernel) (t : Turn) : List ConflictWait → UnitManager → Prop
  | again {waits : List ConflictWait} (h : t.flow.stage = .conflicts (some waits)) :
    Cleared k t waits t.manager
  | first (h : Looks k t) :
    Cleared k t (firstWaits k t) (t.manager.stopConflicts k t.flow.unit).1

/-- The flow is past its conflicts. -/
inductive Passed (k : Kernel) (t : Turn) : UnitManager → Prop
  | before (h : (∃ commands next running, t.flow.stage = .pre commands next running) ∨
      t.flow.stage = .spawn) (calls : List Call) : Passed k t (t.manager.noted calls)
  | cleared {waits : List ConflictWait} {m : UnitManager} (h : Cleared k t waits m)
    (hd : ∀ w ∈ waits, (pollConflict k t.flow.deadline m w).val.done = true) (calls : List Call) :
    Passed k t (m.noted calls)

/-- Where a flow waits before its spawn. -/
inductive Waits (k : Kernel) (t : Turn) : UnitManager → StartStage → Prop
  | sockets {paths : List String} (h : t.flow.stage = .sockets paths) :
    Waits k t t.manager (.sockets paths)
  | conflicts {waits : List ConflictWait} {m : UnitManager} (h : Cleared k t waits m)
    (calls : List Call) : Waits k t (m.noted calls)
      (.conflicts (some (waits.map fun w => (pollConflict k t.flow.deadline m w).val)))
  | pre {m : UnitManager} (h : Passed k t m) (commands : List ExecCommand) (next : ℕ)
    (run : AuxRun) : Waits k t m (.pre commands next (some run))

/-- The rest of a turn after the spawn : the readiness deadline is capped, and the flow waits
or is over. -/
structure Follows (m : UnitManager) (f : StartFlow) (t' : Turn) : Prop where
  manager : ∃ calls, t'.manager = m.noted calls ∨
    t'.manager = (m.capStartDeadline f.unit f.deadline).noted calls
  unit : t'.flow.unit = f.unit
  deadline : t'.flow.deadline = f.deadline
  late : t'.done = none → t'.flow.stage.isEarly = false

/-- What a turn that fails its unit had done before. -/
inductive Tried (k : Kernel) (t : Turn) : UnitManager → Prop
  | nothing (calls : List Call) : Tried k t (t.manager.noted calls)
  | passed {m : UnitManager} (h : Passed k t m) : Tried k t m
  | spawn {m : UnitManager} (h : Passed k t m) {e : String}
    (he : (m.beginSpawnUnit k t.flow.unit).2 = .error e) :
    Tried k t (m.beginSpawnUnit k t.flow.unit).1

/-- What a turn does. -/
inductive Advanced (k : Kernel) (t t' : Turn) : Prop
  | cancelled (h : Blocked t) (reason : String) (he : t' = cancel t reason)
  | failed (hb : ¬Blocked t) {m : UnitManager} (hm : Tried k t m) (reason : String)
    (hm' : t'.manager = (m.failStart k t.flow.unit).1) (hd : t'.done = some (.error reason))
    (hu : t'.flow.unit = t.flow.unit)
  | waits (hb : ¬Blocked t) {m : UnitManager} {stage : StartStage} (hm : Waits k t m stage)
    (hm' : t'.manager = m) (hd : t'.done = none) (hf : t'.flow = { t.flow with stage := stage })
  | spawned (hb : ¬Blocked t) {m : UnitManager} (hm : Passed k t m) {b : UnitRuntime.SpawnBegin}
    (hs : (m.beginSpawnUnit k t.flow.unit).2 = .ok b)
    (hf : Follows (m.beginSpawnUnit k t.flow.unit).1 t.flow t')
  | later (hb : ¬Blocked t) (hs : t.flow.stage.isEarly = false) (hf : Follows t.manager t.flow t')

/-! ## After the spawn -/

variable {k : Kernel} {t : Turn}

theorem spawnAux_noted (k : Kernel) (m : UnitManager) (u : UnitName) (cmd : ExecCommand) :
    ∃ calls, (spawnAux k m u cmd).1 = m.noted calls := by
  unfold spawnAux
  split
  · exact ⟨[], m.noted_nil.symm⟩
  · dsimp only
    split <;> exact ⟨_, rfl⟩

theorem follows_runPost (k : Kernel) (commands rest : List ExecCommand) (next : ℕ)
    {m : UnitManager} {f : StartFlow} (hm : ∃ calls, t.manager = m.noted calls ∨
      t.manager = (m.capStartDeadline f.unit f.deadline).noted calls)
    (hu : t.flow.unit = f.unit) (hdl : t.flow.deadline = f.deadline) :
    Follows m f (runPost k commands rest next t) := by
  induction rest generalizing next t with
  | nil => exact ⟨hm, hu, hdl, fun h => by cases h⟩
  | cons cmd rest ih =>
    obtain ⟨calls, hcalls⟩ := spawnAux_noted k t.manager t.flow.unit cmd
    have hm' : ∃ calls, (spawnAux k t.manager t.flow.unit cmd).1 = m.noted calls ∨
        (spawnAux k t.manager t.flow.unit cmd).1 =
          (m.capStartDeadline f.unit f.deadline).noted calls := by
      obtain ⟨before, hb | hb⟩ := hm
      · exact ⟨before ++ calls, .inl (by rw [hcalls, hb, UnitManager.noted_noted])⟩
      · exact ⟨before ++ calls, .inr (by rw [hcalls, hb, UnitManager.noted_noted])⟩
    unfold runPost
    generalize spawnAux k t.manager t.flow.unit cmd = r at hm'
    obtain ⟨m', e | ⟨pid, secs⟩⟩ := r
    · exact @ih { t with manager := m' } (next + 1) hm' hu hdl
    · exact ⟨hm', hu, hdl, fun _ => rfl⟩

theorem follows_waitReady {m : UnitManager} {f : StartFlow}
    (hm : ∃ calls, t.manager = m.noted calls ∨
      t.manager = (m.capStartDeadline f.unit f.deadline).noted calls)
    (hu : t.flow.unit = f.unit) (hdl : t.flow.deadline = f.deadline)
    (hnow : k.now < t.flow.deadline) : Follows m f (waitReady k t) := by
  have hcancel (reason : String) : Follows m f (cancel t reason) :=
    ⟨hm, hu, hdl, fun h => by cases h⟩
  unfold waitReady
  split
  · exact hcancel _
  · split
    · exact follows_runPost k _ _ 0 hm hu hdl
    · exact follows_runPost k _ _ 0 hm hu hdl
    · rw [if_neg (Nat.not_le.mpr hnow)]
      exact ⟨hm, hu, hdl, fun _ => rfl⟩
    all_goals exact hcancel _

theorem follows_afterSpawn (hnow : k.now < t.flow.deadline) :
    Follows t.manager t.flow (afterSpawn k t) := by
  let t' : Turn := { t with
    flow := { t.flow with spawned := true }
    manager := t.manager.capStartDeadline t.flow.unit t.flow.deadline }
  have hm : ∃ calls, t'.manager = t.manager.noted calls ∨
      t'.manager = (t.manager.capStartDeadline t.flow.unit t.flow.deadline).noted calls :=
    ⟨[], .inr (UnitManager.noted_nil _).symm⟩
  unfold afterSpawn
  dsimp only
  split
  · exact follows_waitReady (t := t') hm rfl rfl hnow
  · exact follows_runPost (t := t') k _ _ 0 hm rfl rfl

theorem follows_waitPost (commands : List ExecCommand) (next : ℕ) (running : Option AuxRun) :
    Follows t.manager t.flow (waitPost k commands next running t) := by
  have hm : ∃ calls, t.manager = t.manager.noted calls ∨
      t.manager = (t.manager.capStartDeadline t.flow.unit t.flow.deadline).noted calls :=
    ⟨[], .inl (UnitManager.noted_nil _).symm⟩
  unfold waitPost
  split
  · exact follows_runPost k _ _ next hm rfl rfl
  · next run =>
    split
    · exact follows_runPost (t := { t with aux := t.aux.erase run.pid }) k _ _ (next + 1) hm rfl rfl
    · split
      · exact follows_runPost (t := noted t (k.killProcessGroup run.pid sigKill).calls) k _ _
          (next + 1) ⟨_, .inl rfl⟩ rfl rfl
      · exact ⟨hm, rfl, rfl, fun _ => rfl⟩

/-! ## Before the spawn -/

/-- What a turn does once the conflicts of its flow are out of the way. -/
inductive FromPre (k : Kernel) (t t' : Turn) : Prop
  | failed {m : UnitManager} (hm : (∃ calls, m = t.manager.noted calls) ∨
      ∃ e, (t.manager.beginSpawnUnit k t.flow.unit).2 = .error e ∧
        m = (t.manager.beginSpawnUnit k t.flow.unit).1) (reason : String)
    (hm' : t'.manager = (m.failStart k t.flow.unit).1) (hd : t'.done = some (.error reason))
    (hu : t'.flow.unit = t.flow.unit)
  | waits (calls : List Call) (commands : List ExecCommand) (next : ℕ) (run : AuxRun)
    (hm : t'.manager = t.manager.noted calls) (hd : t'.done = none)
    (hf : t'.flow = { t.flow with stage := .pre commands next (some run) })
  | spawned {b : UnitRuntime.SpawnBegin} (hs : (t.manager.beginSpawnUnit k t.flow.unit).2 = .ok b)
    (hf : Follows (t.manager.beginSpawnUnit k t.flow.unit).1 t.flow t')

/-- A start that arms its notify socket first spawns, or fails before it does. -/
theorem beginSpawn_eq (k : Kernel) (m : UnitManager) (u : UnitName) :
    beginSpawn k m u = m.beginSpawnUnit k u ∨ ∃ e, beginSpawn k m u = (m, .error e) := by
  unfold beginSpawn
  split
  · split
    · exact .inr ⟨_, rfl⟩
    · exact .inl rfl
  · exact .inl rfl

theorem fromPre_runSpawn (hnow : k.now < t.flow.deadline) : FromPre k t (runSpawn k t) := by
  unfold runSpawn
  rcases beginSpawn_eq k t.manager t.flow.unit with heq | ⟨e, heq⟩
  · rw [heq]
    have hs : ∃ b, (t.manager.beginSpawnUnit k t.flow.unit).2 = b := ⟨_, rfl⟩
    generalize hr : t.manager.beginSpawnUnit k t.flow.unit = r at hs
    obtain ⟨m, e | b⟩ := r
    · refine .failed (.inr ⟨e, ?_, rfl⟩) _ ?_ rfl rfl
      · rw [hr]
      · rw [hr]
        rfl
    · have hb : (t.manager.beginSpawnUnit k t.flow.unit).2 = .ok b := by rw [hr]
      have hm : (t.manager.beginSpawnUnit k t.flow.unit).1 = m := by rw [hr]
      refine .spawned hb ?_
      rw [hm]
      cases b with
      | spawn pending =>
        cases pending with
        | true => exact ⟨⟨[], .inl m.noted_nil.symm⟩, rfl, rfl, fun _ => rfl⟩
        | false => exact follows_afterSpawn (t := { t with manager := m }) hnow
      | noProcess | alreadyRunning =>
        exact follows_runPost k [] [] 0 ⟨[], .inl m.noted_nil.symm⟩ rfl rfl
  · rw [heq]
    exact .failed (.inl ⟨[], (UnitManager.noted_nil _).symm⟩) _ rfl rfl rfl

theorem fromPre_runPre (commands : List ExecCommand) (next : ℕ) (hd : t.done = none)
    (hnow : k.now < t.flow.deadline) : FromPre k t (runPre k commands next t) := by
  unfold runPre
  split
  · exact fromPre_runSpawn hnow
  · next cmd _ =>
    obtain ⟨calls, hcalls⟩ := spawnAux_noted k t.manager t.flow.unit cmd
    generalize spawnAux k t.manager t.flow.unit cmd = r at hcalls
    obtain ⟨m, e | ⟨pid, secs⟩⟩ := r
    · exact .failed (.inl ⟨calls, hcalls⟩) e rfl rfl rfl
    · exact .waits calls commands next _ hcalls hd rfl

theorem fromPre_waitPre (commands : List ExecCommand) (next : ℕ) (running : Option AuxRun)
    (hd : t.done = none) (hnow : k.now < t.flow.deadline) :
    FromPre k t (waitPre k commands next running t) := by
  unfold waitPre
  split
  · exact fromPre_runPre commands next hd hnow
  · next run =>
    dsimp only
    split
    · cases fromPre_runPre (t := { t with aux := t.aux.erase run.pid }) commands (next + 1) hd
        hnow with
      | failed hm reason hm' hd hu => exact .failed hm reason hm' hd hu
      | waits calls commands next run hm hd hf => exact .waits calls commands next run hm hd hf
      | spawned hs hf => exact .spawned hs hf
    · exact .failed (.inl ⟨[], (UnitManager.noted_nil _).symm⟩) _ rfl rfl rfl
    · split
      · exact .failed (.inl ⟨_, rfl⟩) _ rfl rfl rfl
      · exact .waits [] commands next run (UnitManager.noted_nil _).symm hd rfl

/-! ## Turns -/

theorem Passed.noted {m : UnitManager} (h : Passed k t m) (calls : List Call) :
    Passed k t (m.noted calls) := by
  cases h with
  | before h more =>
    rw [UnitManager.noted_noted]
    exact .before h (more ++ calls)
  | cleared h hd more =>
    rw [UnitManager.noted_noted]
    exact .cleared h hd (more ++ calls)

/-- A turn from the manager past the conflicts of the flow. -/
theorem FromPre.advanced {t₁ t' : Turn} (h : FromPre k t₁ t') (hb : ¬Blocked t)
    (hp : Passed k t t₁.manager) (hf : { t₁.flow with stage := t.flow.stage } = t.flow) :
    Advanced k t t' := by
  have hunit : t₁.flow.unit = t.flow.unit := by rw [← hf]
  have hflow (stage : StartStage) : { t₁.flow with stage := stage } =
      { t.flow with stage := stage } := by rw [← hf]
  cases h with
  | @failed m hm reason hm' hd hu =>
    rw [hunit] at hm hm' hu
    refine .failed hb (m := m) ?_ reason hm' hd hu
    rcases hm with ⟨calls, rfl⟩ | ⟨e, he, rfl⟩
    · exact .passed (hp.noted calls)
    · exact .spawn hp he
  | waits calls commands next run hm hd hfl =>
    exact .waits hb (.pre (hp.noted calls) commands next run) hm hd (hfl.trans (hflow _))
  | spawned hs hfo =>
    rw [hunit] at hs hfo
    have hdl : t₁.flow.deadline = t.flow.deadline := by rw [← hf]
    exact .spawned hb hp hs ⟨by simpa only [hunit, hdl] using hfo.manager, hfo.unit.trans hunit,
      hfo.deadline.trans hdl, hfo.late⟩

/-- The wait for the conflicts, from the manager in which they were looked at. -/
theorem advanced_waitConflicts {m : UnitManager} {waits : List ConflictWait} (hb : ¬Blocked t)
    (hd : t.done = none) (hnow : k.now < t.flow.deadline) (hc : Cleared k t waits m) :
    Advanced k t (waitConflicts k waits
      { waitIn t .done with manager := m }) := by
  let calls := (waits.map (pollConflict k t.flow.deadline m)).flatMap Traced.calls
  unfold waitConflicts
  dsimp only
  split
  · refine .waits hb (.conflicts hc calls) rfl hd ?_
    simp [waitIn, Function.comp_def]
  · next hall =>
    have hall : ∀ w ∈ waits, (pollConflict k t.flow.deadline m w).val.done = true := by
      simpa [waitIn, Function.comp_def] using hall
    exact FromPre.advanced (fromPre_runPre (t := { waitIn t .done with manager := m.noted calls })
      _ 0 hd hnow) hb (.cleared hc hall calls) rfl

theorem advanced_runConflicts {waits : Option (List ConflictWait)} (hb : ¬Blocked t)
    (hd : t.done = none) (hnow : k.now < t.flow.deadline)
    (hs : t.flow.stage = .conflicts waits ∨ waits = none ∧ ∃ paths,
      t.flow.stage = .sockets paths ∧ ∀ path ∈ paths, k.pathExists path = true) :
    Advanced k t (runConflicts k waits (waitIn t .done)) := by
  unfold runConflicts
  split
  · next waits =>
    exact advanced_waitConflicts hb hd hnow (.again (hs.resolve_right (by simp)))
  · exact advanced_waitConflicts hb hd hnow (.first ⟨hb, hnow, hs.imp id And.right⟩)

theorem advanced_runSockets {paths : List String} (hb : ¬Blocked t) (hd : t.done = none)
    (hs : t.flow.stage = .sockets paths) :
    Advanced k t (runSockets k paths (waitIn t .done)) := by
  have hfail (reason : String) : Advanced k t (fail k (waitIn t .done) reason) := by
    refine .failed hb (.nothing []) reason ?_ rfl rfl
    rw [UnitManager.noted_nil]
    rfl
  unfold runSockets
  split
  · split
    · exact .waits hb (.sockets hs) rfl hd rfl
    · exact hfail _
  · next hfind =>
    have hpaths : ∀ path ∈ paths, k.pathExists path = true := by
      simpa using List.find?_eq_none.mp hfind
    split
    · exact hfail _
    · next hnow =>
      exact advanced_runConflicts hb hd (Nat.not_le.mp hnow) (.inr ⟨rfl, paths, hs, hpaths⟩)

theorem advanced_waitSpawn (hb : ¬Blocked t) (hnow : k.now < t.flow.deadline)
    (hs : t.flow.stage = .spawnWait) : Advanced k t (waitSpawn k (waitIn t .done)) := by
  have hearly : t.flow.stage.isEarly = false := by rw [hs]; rfl
  have hfail (reason : String) : Advanced k t (fail k (waitIn t .done) reason) := by
    refine .failed hb (.nothing []) reason ?_ rfl rfl
    rw [UnitManager.noted_nil]
    rfl
  unfold waitSpawn
  split
  · obtain ⟨hm, hu, hdl, hl⟩ := follows_afterSpawn (t := waitIn t .done) hnow
    exact .later hb hearly ⟨hm, hu, hdl, hl⟩
  · exact hfail _
  · exact .later hb hearly ⟨⟨[], .inl (UnitManager.noted_nil _).symm⟩, rfl, rfl, fun _ => rfl⟩
  · exact hfail _

theorem advanced_runStage (hb : ¬Blocked t) (hd : t.done = none)
    (hnow : k.now < t.flow.deadline ∨ t.flow.stage.isSockets = true) :
    Advanced k t (runStage k t.flow.stage (waitIn t .done)) := by
  have hsame : ∃ calls, (waitIn t .done).manager = t.manager.noted calls ∨ (waitIn t .done).manager =
      (t.manager.capStartDeadline t.flow.unit t.flow.deadline).noted calls :=
    ⟨[], .inl (UnitManager.noted_nil _).symm⟩
  cases hs : t.flow.stage with
  | sockets paths => exact advanced_runSockets hb hd hs
  | conflicts waits =>
    exact advanced_runConflicts hb hd (hnow.resolve_right (by simp [hs, StartStage.isSockets]))
      (.inl hs)
  | pre commands next running =>
    have hnow := hnow.resolve_right (by simp [hs, StartStage.isSockets])
    refine FromPre.advanced (fromPre_waitPre (t := waitIn t .done) commands next running hd hnow) hb
      ?_ rfl
    have hp : Passed k t (t.manager.noted []) := .before (.inl ⟨commands, next, running, hs⟩) []
    rwa [UnitManager.noted_nil] at hp
  | spawn =>
    have hnow := hnow.resolve_right (by simp [hs, StartStage.isSockets])
    refine FromPre.advanced (fromPre_runSpawn (t := waitIn t .done) hnow) hb ?_ rfl
    have hp : Passed k t (t.manager.noted []) := .before (.inr hs) []
    rwa [UnitManager.noted_nil] at hp
  | spawnWait =>
    exact advanced_waitSpawn hb (hnow.resolve_right (by simp [hs, StartStage.isSockets])) hs
  | waitReady =>
    exact .later hb (by rw [hs]; rfl) (follows_waitReady (t := waitIn t .done) hsame rfl rfl
      (hnow.resolve_right (by simp [hs, StartStage.isSockets])))
  | post commands next running =>
    obtain ⟨hm, hu, hdl, hl⟩ := follows_waitPost (k := k) (t := waitIn t .done) commands next running
    exact .later hb (by rw [hs]; rfl) ⟨hm, hu, hdl, hl⟩
  | done =>
    exact .later hb (by rw [hs]; rfl) ⟨hsame, rfl, rfl, fun h => by cases h⟩

theorem advanced_advance (k : Kernel) (t : Turn) (hd : t.done = none) :
    Advanced k t (advance k t) := by
  unfold advance
  dsimp only
  split
  · next h => exact .cancelled (.inl h) _ rfl
  · next h1 =>
    split
    · next h => exact .cancelled (.inr (.inl (by simpa using h))) _ rfl
    · next h2 =>
      split
      · next h => exact .cancelled (.inr (.inr (by simpa using h))) _ rfl
      · next h3 =>
        have hb : ¬Blocked t := by
          rintro (h | h | h)
          · exact h1 h
          · exact h2 (by simpa using h)
          · exact h3 (by simpa using h)
        split
        · refine .failed hb (.nothing []) _ ?_ rfl rfl
          rw [UnitManager.noted_nil]
          rfl
        · next hnow =>
          refine advanced_runStage hb hd ?_
          by_cases hs : t.flow.stage.isSockets = true
          · exact .inr hs
          · exact .inl (by simpa [hs] using hnow)

theorem Advanced.unit {t' : Turn} (h : Advanced k t t') : t'.flow.unit = t.flow.unit := by
  cases h with
  | cancelled _ _ he => rw [he]; rfl
  | failed _ _ _ _ _ hu => exact hu
  | waits _ _ _ _ hf => rw [hf]
  | spawned _ _ _ hf | later _ _ hf => exact hf.unit

/-! ## Turns as runs of the manager -/

/-- The operations a turn of a flow of `u` is made of. -/
def TurnOp (k : Kernel) (u : UnitName) (k' : Kernel) (_ : UnitManager) (op : Op) : Prop :=
  k' = k ∧ (op = .stopConflicts u ∨ op = .beginSpawnUnit u ∨ op = .failStart u ∨
    (∃ deadline, op = .capStartDeadline u deadline) ∨ ∃ calls, op = .note calls)

theorem guarded_noted {k : Kernel} {u : UnitName} (m : UnitManager) (calls : List Call) :
    Guarded (TurnOp k u) m (m.noted calls) :=
  .single ⟨k, .note calls, trivial, ⟨rfl, by simp⟩, rfl⟩

theorem guarded_single {k : Kernel} {u : UnitName} {m : UnitManager} {op : Op}
    (h : op = .stopConflicts u ∨ op = .beginSpawnUnit u ∨ op = .failStart u ∨
      ∃ deadline, op = .capStartDeadline u deadline) : Guarded (TurnOp k u) m (m.apply k op) := by
  refine .single ⟨k, op, ?_, ⟨rfl, ?_⟩, rfl⟩
  · rcases h with rfl | rfl | rfl | ⟨deadline, rfl⟩ <;> trivial
  · rcases h with h | h | h | h <;> simp [h]

theorem Cleared.guarded {m : UnitManager} {waits : List ConflictWait} (h : Cleared k t waits m) :
    Guarded (TurnOp k t.flow.unit) t.manager m := by
  cases h with
  | again => exact .refl
  | first => exact guarded_single (.inl rfl)

theorem Passed.guarded {m : UnitManager} (h : Passed k t m) :
    Guarded (TurnOp k t.flow.unit) t.manager m := by
  cases h with
  | before _ calls => exact guarded_noted _ calls
  | cleared hc _ calls => exact hc.guarded.trans (guarded_noted _ calls)

theorem Waits.guarded {m : UnitManager} {stage : StartStage} (h : Waits k t m stage) :
    Guarded (TurnOp k t.flow.unit) t.manager m := by
  cases h with
  | sockets => exact .refl
  | conflicts hc calls => exact hc.guarded.trans (guarded_noted _ calls)
  | pre hp => exact hp.guarded

theorem Tried.guarded {m : UnitManager} (h : Tried k t m) :
    Guarded (TurnOp k t.flow.unit) t.manager m := by
  cases h with
  | nothing calls => exact guarded_noted _ calls
  | passed hp => exact hp.guarded
  | spawn hp => exact hp.guarded.trans (guarded_single (.inr (.inl rfl)))

theorem Follows.guarded {m : UnitManager} {f : StartFlow} {t' : Turn} (h : Follows m f t') :
    Guarded (TurnOp k f.unit) m t'.manager := by
  obtain ⟨calls, hm | hm⟩ := h.manager <;> rw [hm]
  · exact guarded_noted m calls
  · exact .trans (guarded_single (.inr (.inr (.inr ⟨f.deadline, rfl⟩)))) (guarded_noted _ calls)

theorem FromPre.guarded {t' : Turn} (h : FromPre k t t') :
    Guarded (TurnOp k t.flow.unit) t.manager t'.manager := by
  cases h with
  | failed hm _ hm' =>
    rw [hm']
    refine .trans ?_ (guarded_single (.inr (.inr (.inl rfl))))
    rcases hm with ⟨calls, rfl⟩ | ⟨e, -, rfl⟩
    · exact guarded_noted _ calls
    · exact guarded_single (.inr (.inl rfl))
  | waits calls _ _ _ hm =>
    rw [hm]
    exact guarded_noted _ calls
  | spawned _ hf => exact .trans (guarded_single (.inr (.inl rfl))) hf.guarded

/-- A look at the conflicts stops them, and the rest of the turn follows. -/
theorem guarded_of_looks (h : Looks k t) (hd : t.done = none) :
    Guarded (TurnOp k t.flow.unit) (t.manager.stopConflicts k t.flow.unit).1
      (advance k t).manager := by
  have hadvance : advance k t = waitConflicts k (firstWaits k t)
      { waitIn t .done with manager := (t.manager.stopConflicts k t.flow.unit).1 } := by
    have hnow : ¬t.flow.deadline ≤ k.now := Nat.not_le.mpr h.inTime
    unfold advance
    dsimp only
    rw [if_neg fun ht => h.free (.inl ht), if_neg fun hs => h.free (.inr (.inl (by simpa using hs))),
      if_neg fun hs => h.free (.inr (.inr (by simpa using hs))), if_neg (by simp [hnow])]
    rcases h.stage with hs | ⟨paths, hs, hpaths⟩ <;> rw [hs]
    · rfl
    · have hfind : (paths.find? fun path => !k.pathExists path) = none := by simpa using hpaths
      change runSockets k paths (waitIn t .done) = _
      unfold runSockets
      rw [hfind]
      exact if_neg hnow
  rw [hadvance]
  unfold waitConflicts
  dsimp only
  split
  · exact guarded_noted _ _
  · exact (guarded_noted _ _).trans (FromPre.guarded (t := { waitIn t .done with
      manager := UnitManager.noted _ _ }) (fromPre_runPre _ 0 hd h.inTime))

/-- A turn is a run of operations for its own unit. -/
theorem guarded_advance (k : Kernel) (t : Turn) (hd : t.done = none) :
    Guarded (TurnOp k t.flow.unit) t.manager (advance k t).manager := by
  cases advanced_advance k t hd with
  | cancelled _ reason he =>
    rw [he]
    exact .refl
  | failed _ hm _ hm' =>
    rw [hm']
    exact hm.guarded.trans (guarded_single (.inr (.inr (.inl rfl))))
  | waits _ hm hm' =>
    rw [hm']
    exact hm.guarded
  | spawned _ hm _ hf =>
    exact (hm.guarded.trans (guarded_single (.inr (.inl rfl)))).trans hf.guarded
  | later _ _ hf => exact hf.guarded

end StartFlow

end Rinit
