import Rinit.Reaped

/-!
# Whose process a pid is

A unit records three pids : of its main process, of its health probe and of its stop command.
`OneOwner` : no pid is recorded twice. The kernel gives the manager pids that nobody records
(`Kernel.Fresh`), and every other pid a unit comes to record it has recorded before
(`recorded_apply`), but for one : a daemon that is adopted when the launcher of a forking unit
exits. `oneOwner_of_run` : the records stay apart as long as no adopted daemon is recorded
elsewhere, which `find_daemon` does not ask (`not_oneOwner_adopted`).
-/

namespace Rinit

open Relation

/-- What a process is for. -/
inductive ProcessRole where
  | main
  | healthProbe
  | stopCommand
deriving DecidableEq, Repr

/-- The process a unit records in a role. -/
def UnitRuntime.pidIn (rt : UnitRuntime) : ProcessRole → Option Pid
  | .main => rt.pid
  | .healthProbe => rt.probePid
  | .stopCommand => rt.execStopPid

/-- `u` records `pid` in a role. -/
def UnitManager.Records (m : UnitManager) (pid : Pid) (u : UnitName) (role : ProcessRole) : Prop :=
  ∃ rt, m.get u = some rt ∧ rt.pidIn role = some pid

/-- No pid is recorded by two units or in two roles. -/
def OneOwner (m : UnitManager) : Prop :=
  ∀ pid u v role role', m.Records pid u role → m.Records pid v role' → u = v ∧ role = role'

/-- The kernel makes no process with a pid that is still owned, and no two with one pid. -/
structure Kernel.Fresh (k : Kernel) (m : UnitManager) : Prop where
  spawn : ∀ u pid pending, k.spawn u = .ok (pid, pending) → m.ownsChild pid = false
  command : ∀ u c pid, k.spawnDetached u c = .ok pid → m.ownsChild pid = false
  apart : ∀ u v c c' pid, k.spawnDetached u c = .ok pid → k.spawnDetached v c' = .ok pid → u = v

theorem UnitManager.Records.ownsChild {m : UnitManager} {pid : Pid} {u : UnitName}
    {role : ProcessRole} (h : m.Records pid u role) : m.ownsChild pid = true := by
  obtain ⟨rt, hrt, hp⟩ := h
  refine List.any_eq_true.mpr ⟨(u, rt),
    Std.ExtTreeMap.mem_toList_iff_getElem?_eq_some.mpr hrt, ?_⟩
  cases role with
  | main => simp [show rt.pid = some pid from hp]
  | healthProbe => simp [show rt.probePid = some pid from hp]
  | stopCommand => simp [show rt.execStopPid = some pid from hp]

/-- The kernel gives `u` the process `pid` for a role. -/
inductive Supplied (k : Kernel) (pid : Pid) (u : UnitName) : Op → ProcessRole → Prop
  | spawn (pending : Bool) (h : k.spawn u = .ok (pid, pending)) :
    Supplied k pid u (.beginSpawnUnit u) .main
  | probe (c : ExecCommand) (h : k.spawnDetached u c = .ok pid) :
    Supplied k pid u .dueHealthProbes .healthProbe
  | stopCommand {op : Op} (c : ExecCommand) (h : k.spawnDetached u c = .ok pid)
    (hop : op = .stopUnit u ∨ op = .restartUnit u ∨ ∃ v, op = .stopConflicts v) :
    Supplied k pid u op .stopCommand

namespace UnitRuntime

variable {k : Kernel} {cg : Cgroup} {u : UnitName} {rt : UnitRuntime} {role : ProcessRole}
  {pid : Pid}

theorem pidIn_none (config : UnitConfig) : (UnitRuntime.new config).pidIn role = none := by
  cases role <;> rfl

/-- A runtime that differs only by processes that are gone. -/
theorem pidIn_of_le {rt' : UnitRuntime} (h : rt'.pidIn role = some pid)
    (hp : rt'.pid = rt.pid ∨ rt'.pid = none) (hq : rt'.probePid = rt.probePid ∨ rt'.probePid = none)
    (he : rt'.execStopPid = rt.execStopPid ∨ rt'.execStopPid = none) :
    rt.pidIn role = some pid := by
  have old {o o' : Option Pid} (ho : o' = o ∨ o' = none) (h : o' = some pid) : o = some pid := by
    rcases ho with ho | ho
    · exact ho.symm.trans h
    · cases ho.symm.trans h
  cases role with
  | main => exact old hp h
  | healthProbe => exact old hq h
  | stopCommand => exact old he h

theorem pidIn_escalate {main : Pid} (h : (rt.escalate k cg u main).val.pidIn role = some pid) :
    rt.pidIn role = some pid := by
  unfold escalate at h
  split at h
  · exact pidIn_of_le h (.inl rfl) (.inl rfl) (.inr rfl)
  · exact pidIn_of_le h (.inl rfl) (.inl rfl) (.inl rfl)

theorem runDetached_ok {config : UnitConfig} {command : ExecCommand}
    (h : (k.runDetached u config command).val = .ok pid) : k.spawnDetached u command = .ok pid := by
  unfold Kernel.runDetached at h
  split at h
  · cases h
  · split at h
    · cases h
    · next hs => exact hs.trans h

/-- A stop starts at most a stop command. -/
theorem pidIn_stop (h : (rt.stop k cg u).val.pidIn role = some pid) :
    rt.pidIn role = some pid ∨
      role = .stopCommand ∧ ∃ c, k.spawnDetached u c = .ok pid := by
  have quiet (h : rt.quiet.pidIn role = some pid) : rt.pidIn role = some pid :=
    pidIn_of_le h (.inl rfl) (.inr rfl) (.inl rfl)
  have signal {main : Pid} {sent : Except Errno Unit}
      (h : (rt.quiet.afterStopSignal k cg u main sent).val.pidIn role = some pid) :
      rt.pidIn role = some pid := by
    unfold afterStopSignal at h
    split at h
    · exact quiet (pidIn_of_le (pidIn_escalate h) (.inl rfl) (.inl rfl) (.inl rfl))
    · split at h
      · exact quiet (pidIn_of_le h (.inr rfl) (.inl rfl) (.inl rfl))
      · exact quiet h
  unfold stop at h
  split at h
  · exact .inl h
  · rw [Traced.bind_val, quiesce_val] at h
    split at h
    · unfold stopLeftovers at h
      refine .inl (quiet ?_)
      split at h
      · exact pidIn_of_le h (.inl rfl) (.inl rfl) (.inl rfl)
      · rw [Traced.bind_val] at h
        dsimp only at h
        split at h
        · exact pidIn_of_le h (.inl rfl) (.inl rfl) (.inl rfl)
        · exact pidIn_of_le h (.inl rfl) (.inl rfl) (.inl rfl)
    · unfold stopProcess at h
      split at h
      · exact .inl (signal h)
      · rw [Traced.bind_val] at h
        split at h
        · next command hcommand =>
          have h := pidIn_escalate h
          cases role with
          | stopCommand =>
            obtain rfl := Option.some.inj h
            exact .inr ⟨rfl, _, runDetached_ok hcommand⟩
          | main => exact .inl (quiet h)
          | healthProbe => exact .inl (quiet h)
        · exact .inl (signal h)

theorem pidIn_registerSpawn {main : Pid} {oom : Option ℕ}
    (h : (rt.registerSpawn k main oom).pidIn role = some pid) :
    rt.pidIn role = some pid ∨ role = .main ∧ pid = main := by
  unfold registerSpawn at h
  cases role with
  | main =>
    refine .inr ⟨rfl, ?_⟩
    dsimp only at h
    split at h <;> exact (Option.some.inj h).symm
  | healthProbe =>
    refine .inl ?_
    dsimp only at h
    split at h <;> exact h
  | stopCommand =>
    dsimp only at h
    split at h <;> cases h

/-- A spawn starts at most a main process. -/
theorem pidIn_beginSpawn (h : (rt.beginSpawn k cg u).val.1.pidIn role = some pid) :
    rt.pidIn role = some pid ∨ role = .main ∧ ∃ pending, k.spawn u = .ok (pid, pending) := by
  have cleared (h : (rt.clearLeftovers k).val.pidIn role = some pid) :
      rt.pidIn role = some pid := by
    unfold clearLeftovers at h
    split at h
    · exact h
    · exact pidIn_of_le h (.inl rfl) (.inr rfl) (.inr rfl)
  unfold beginSpawn at h
  rw [Traced.bind_val] at h
  split at h
  · exact .inl (cleared h)
  · split at h
    · exact .inl (cleared (pidIn_of_le h (.inl rfl) (.inl rfl) (.inl rfl)))
    · rcases spawnProcess_val k cg u (rt.clearLeftovers k).val with
        ⟨e, he⟩ | ⟨main, oom, pending, hspawn, heq⟩
      · rw [he] at h
        exact .inl (cleared h)
      · rw [heq] at h
        rcases pidIn_registerSpawn h with h | ⟨hrole, rfl⟩
        · exact .inl (cleared h)
        · exact .inr ⟨hrole, pending, hspawn⟩

/-- A probe pass starts at most a probe. -/
theorem pidIn_healthProbe (h : (rt.healthProbe k u).val.1.pidIn role = some pid) :
    rt.pidIn role = some pid ∨ role = .healthProbe ∧ ∃ c, k.spawnDetached u c = .ok pid := by
  unfold healthProbe at h
  split at h
  · exact .inl (pidIn_of_le h (.inl rfl) (.inl rfl) (.inl rfl))
  · split at h
    · exact .inl h
    · split at h
      · exact .inl h
      · simp only [Traced.bind_val] at h
        split at h
        · next probe hprobe =>
          cases role with
          | healthProbe =>
            obtain rfl := Option.some.inj h
            exact .inr ⟨rfl, _, runDetached_ok hprobe⟩
          | main => exact .inl h
          | stopCommand => exact .inl h
        · exact .inl (pidIn_of_le h (.inl rfl) (.inl rfl) (.inl rfl))

theorem pidIn_failOwn (h : (rt.failOwn k cg u).val.pidIn role = some pid) :
    rt.pidIn role = some pid := by
  rw [failOwn_val] at h
  split at h
  · exact pidIn_of_le h (.inl rfl) (.inl rfl) (.inl rfl)
  · exact pidIn_of_le h (.inr rfl) (.inl rfl) (.inl rfl)

theorem pidIn_dragDown (h : rt.dragDown.pidIn role = some pid) : rt.pidIn role = some pid := by
  unfold dragDown at h
  split at h
  · exact h
  · exact pidIn_of_le h (.inl rfl) (.inl rfl) (.inl rfl)

theorem pidIn_mainExit {boot : Bool} {main : Pid} {outcome : ExitOutcome}
    (h : (rt.mainExit k boot main outcome).val.1.pidIn role = some pid) :
    rt.pidIn role = some pid := by
  have hs := rt.settled_mainExit k boot main outcome
  generalize (rt.mainExit k boot main outcome).val = r at hs h
  cases hs <;> exact pidIn_of_le h (.inr rfl) (.inr rfl) (.inl rfl)

theorem pidIn_finishProbe {outcome : ExitOutcome}
    (h : (rt.finishProbe k cg u outcome).val.pidIn role = some pid) :
    rt.pidIn role = some pid := by
  have hs := rt.probed_finishProbe k cg u outcome
  generalize (rt.finishProbe k cg u outcome).val = rt' at hs h
  cases hs with
  | noted | stopping => exact pidIn_of_le h (.inl rfl) (.inr rfl) (.inl rfl)
  | gone => exact pidIn_of_le h (.inr rfl) (.inr rfl) (.inl rfl)

theorem pidIn_kill (h : (rt.kill k cg u).val.1.pidIn role = some pid) :
    rt.pidIn role = some pid := by
  unfold kill at h
  split at h
  · simp only [Traced.bind_val] at h
    split at h
    · exact pidIn_of_le h (.inl rfl) (.inl rfl) (.inr rfl)
    · rw [Traced.pure_val] at h
      split at h
      · exact pidIn_of_le h (.inl rfl) (.inl rfl) (.inr rfl)
      · exact pidIn_of_le h (.inl rfl) (.inl rfl) (.inr rfl)
  · exact h

end UnitRuntime

/-! ## Steps -/

variable {k : Kernel} {m : UnitManager} {u : UnitName} {op : Op} {rt rt' : UnitRuntime} {pid : Pid}
  {role : ProcessRole}

open UnitRuntime in
/-- A process a touch leaves a unit with was there, or the kernel has made it. -/
theorem pidIn_touch (ht : Touch k m u op rt rt')
    (hexit : ∀ pid outcome, op ≠ .onChildExit pid outcome)
    (h : rt'.pidIn role = some pid) : rt.pidIn role = some pid ∨ Supplied k pid u op role := by
  have stop (hop : op = .stopUnit u ∨ op = .restartUnit u ∨ ∃ v, op = .stopConflicts v)
      (h : (rt.stop k m.cgroup u).val.pidIn role = some pid) :
      rt.pidIn role = some pid ∨ Supplied k pid u op role := by
    rcases pidIn_stop h with h | ⟨rfl, c, hc⟩
    · exact .inl h
    · exact .inr (.stopCommand c hc hop)
  cases ht with
  | @redefine config inFlight =>
    obtain ⟨_, _, _, heq, -⟩ := rt.redefine_eq config inFlight
    rw [heq] at h
    exact .inl (pidIn_of_le h (.inl rfl) (.inl rfl) (.inl rfl))
  | adopt =>
    rcases rt.adoptPendingConfig_eq with heq | ⟨_, _, -, -, heq⟩ <;> rw [heq] at h
    · exact .inl h
    · exact .inl (pidIn_of_le h (.inl rfl) (.inl rfl) (.inl rfl))
  | retire => exact .inl (pidIn_of_le h (.inl rfl) (.inr rfl) (.inl rfl))
  | restartFlag | clearStartLimit | compress | capStartDeadline | noteConnection | resetFailed
  | reachTarget => exact .inl (pidIn_of_le h (.inl rfl) (.inl rfl) (.inl rfl))
  | settle | conflictSettle =>
    rcases rt.settle_eq .stopped with heq | ⟨heq, -⟩ <;> rw [heq] at h
    · exact .inl h
    · exact .inl (pidIn_of_le h (.inl rfl) (.inl rfl) (.inl rfl))
  | stop => exact stop (.inl rfl) h
  | restartStop => exact stop (.inr (.inl rfl)) h
  | conflictStop v => exact stop (.inr (.inr ⟨v, rfl⟩)) h
  | failStart | failTarget => exact .inl (pidIn_failOwn h)
  | dragDown => exact .inl (pidIn_dragDown h)
  | beginSpawn =>
    rcases pidIn_beginSpawn h with h | ⟨rfl, pending, hspawn⟩
    · exact .inl h
    · exact .inr (.spawn pending hspawn)
  | onNotify message =>
    rcases rt.onNotify_eq k message with ⟨_, heq⟩ | ⟨_, _, _, _, _, -, heq⟩ <;> rw [heq] at h <;>
      exact .inl (pidIn_of_le h (.inl rfl) (.inl rfl) (.inl rfl))
  | finishProbe | execStopExit | daemonStarted | mainExit | failExit =>
    exact absurd rfl (hexit _ _)
  | dueIdle =>
    obtain ⟨_, heq⟩ := rt.dueIdle_eq k
    rw [heq] at h
    exact .inl (pidIn_of_le h (.inl rfl) (.inl rfl) (.inl rfl))
  | startTimeout =>
    obtain ⟨_, _, heq⟩ := rt.startTimeout_eq k m.cgroup u
    rw [heq] at h
    exact .inl (pidIn_of_le h (.inl rfl) (.inl rfl) (.inl rfl))
  | kill => exact .inl (pidIn_kill h)
  | healthProbe =>
    rcases pidIn_healthProbe h with h | ⟨rfl, c, hc⟩
    · exact .inl h
    · exact .inr (.probe c hc)
  | probeTimeout =>
    obtain ⟨_, heq⟩ := rt.probeTimeout_eq k
    rw [heq] at h
    exact .inl (pidIn_of_le h (.inl rfl) (.inl rfl) (.inl rfl))
  | dueRestart =>
    obtain ⟨_, heq, -⟩ := rt.dueRestart_eq k
    rw [heq] at h
    exact .inl (pidIn_of_le h (.inl rfl) (.inl rfl) (.inl rfl))

/-- The operation is the exit of the launcher of `u`, which adopts the process `daemon`. -/
def UnitManager.Adopts (k : Kernel) (m : UnitManager) (op : Op) (u : UnitName) (daemon : Pid) :
    Prop :=
  ∃ pid outcome, op = .onChildExit pid outcome ∧ m.ExitsMain pid u ∧
    ∃ rt, m.get u = some rt ∧ m.forkedDaemon k u rt outcome = some daemon

open UnitRuntime in
/-- A process an exit leaves a unit with was there, or the unit has adopted it. -/
theorem pidIn_exitChange {exited : Pid} {outcome : ExitOutcome} (hrt : m.get u = some rt)
    (hc : m.ExitChange k exited outcome u rt rt') (h : rt'.pidIn role = some pid) :
    rt.pidIn role = some pid ∨ role = .main ∧ m.Adopts k (.onChildExit exited outcome) u pid := by
  cases hc with
  | same => exact .inl h
  | probe => exact .inl (pidIn_finishProbe h)
  | stopCommand =>
    rw [execStopExit_val] at h
    exact .inl (pidIn_of_le h (.inl rfl) (.inl rfl) (.inr rfl))
  | daemon hmain _ hd =>
    cases role with
    | main =>
      obtain rfl := Option.some.inj h
      exact .inr ⟨rfl, ⟨exited, outcome, rfl, hmain, rt, hrt, hd⟩⟩
    | healthProbe => exact .inl h
    | stopCommand => exact .inl h
  | settled => exact .inl (pidIn_mainExit h)
  | failed => exact .inl (pidIn_mainExit (pidIn_failOwn h))
  | dragged => exact .inl (pidIn_dragDown h)

/-- A process a step leaves a unit with was there, the kernel has made it, or the unit has
adopted it. -/
theorem recorded_apply (h : (m.apply k op).Records pid u role) :
    m.Records pid u role ∨ Supplied k pid u op role ∨ role = .main ∧ m.Adopts k op u pid := by
  obtain ⟨rt, hrt, hp⟩ := h
  by_cases hexit : ∃ pid outcome, op = .onChildExit pid outcome
  · obtain ⟨exited, outcome, rfl⟩ := hexit
    obtain ⟨rt₀, hrt₀, -⟩ := (UnitManager.touched_onChildExit k m exited outcome).get_some hrt
    obtain ⟨rt', hrt', hc⟩ := UnitManager.exitChange_onChildExit k exited outcome hrt₀
    obtain rfl := Option.some.inj (hrt.symm.trans hrt')
    exact (pidIn_exitChange hrt₀ hc hp).imp (fun hp => ⟨rt₀, hrt₀, hp⟩) .inr
  · refine (@UnitManager.inv_apply k m (fun u rt => ∀ role pid,
      rt.pidIn role = some pid → m.Records pid u role ∨ Supplied k pid u op role) op
      (fun u rt hrt role pid hp => .inl ⟨rt, hrt, hp⟩) (fun u config _ role pid hp => ?_)
      (fun u rt rt' ht h role pid hp => ?_) u rt hrt role pid hp).imp id .inl
    · rw [UnitRuntime.pidIn_none] at hp
      cases hp
    · rcases pidIn_touch ht (fun pid outcome h => hexit ⟨pid, outcome, h⟩) hp with hp | hs
      · exact h role pid hp
      · exact .inr hs

/-! ## Runs -/

/-- A daemon a step adopts is recorded nowhere else. -/
def AdoptsOwn (k : Kernel) (m : UnitManager) (op : Op) : Prop :=
  ∀ u daemon, m.Adopts k op u daemon → ∀ v role, m.Records daemon v role → v = u ∧ role = .main

theorem Supplied.not_records (hs : Supplied k pid u op role) (hk : k.Fresh m) (v : UnitName)
    (role' : ProcessRole) : ¬m.Records pid v role' := by
  intro hr
  have hfree : m.ownsChild pid = false := by
    cases hs with
    | spawn pending h => exact hk.spawn u pid pending h
    | probe c h => exact hk.command u c pid h
    | stopCommand c h => exact hk.command u c pid h
  cases hfree.symm.trans hr.ownsChild

theorem Supplied.unique {v : UnitName} {role' : ProcessRole} (hs : Supplied k pid u op role)
    (hs' : Supplied k pid v op role') (hk : k.Fresh m) : u = v ∧ role = role' := by
  cases hs with
  | spawn =>
    cases hs' with
    | spawn => exact ⟨rfl, rfl⟩
    | stopCommand _ _ hop => rcases hop with hop | hop | ⟨_, hop⟩ <;> cases hop
  | probe c h =>
    cases hs' with
    | probe c' h' => exact ⟨hk.apart u v c c' pid h h', rfl⟩
    | stopCommand _ _ hop => rcases hop with hop | hop | ⟨_, hop⟩ <;> cases hop
  | stopCommand c h hop =>
    cases hs' with
    | spawn => rcases hop with hop | hop | ⟨_, hop⟩ <;> cases hop
    | probe => rcases hop with hop | hop | ⟨_, hop⟩ <;> cases hop
    | stopCommand c' h' => exact ⟨hk.apart u v c c' pid h h', rfl⟩

theorem UnitManager.Adopts.unique {v : UnitName} {daemon daemon' : Pid} (h : m.Adopts k op u daemon)
    (h' : m.Adopts k op v daemon') : u = v := by
  obtain ⟨pid, outcome, rfl, hmain, -⟩ := h
  obtain ⟨pid', outcome', heq, hmain', -⟩ := h'
  obtain ⟨rfl, rfl⟩ := Op.onChildExit.inj heq
  exact Option.some.inj (hmain.main.symm.trans hmain'.main)

theorem UnitManager.Adopts.not_supplied {v : UnitName} {daemon : Pid} (h : m.Adopts k op u daemon) :
    ¬Supplied k pid v op role := by
  obtain ⟨pid, outcome, rfl, -⟩ := h
  intro hs
  cases hs with
  | stopCommand _ _ hop => rcases hop with hop | hop | ⟨_, hop⟩ <;> cases hop

/-- A step that adopts no other's process keeps the records apart. -/
theorem oneOwner_apply (h : OneOwner m) (hk : k.Fresh m) (ha : AdoptsOwn k m op) :
    OneOwner (m.apply k op) := by
  intro pid u v role role' hafter hafter'
  rcases recorded_apply hafter with hu | hu | ⟨rfl, hu⟩
  · rcases recorded_apply hafter' with hv | hv | ⟨rfl, hv⟩
    · exact h pid u v role role' hu hv
    · exact absurd hu (hv.not_records hk u role)
    · exact ha v pid hv u role hu
  · rcases recorded_apply hafter' with hv | hv | ⟨rfl, hv⟩
    · exact absurd hv (hu.not_records hk v role')
    · exact hu.unique hv hk
    · exact absurd hu hv.not_supplied
  · rcases recorded_apply hafter' with hv | hv | ⟨rfl, hv⟩
    · obtain ⟨hvu, hrole⟩ := ha u pid hu v role' hv
      exact ⟨hvu.symm, hrole.symm⟩
    · exact absurd hv hu.not_supplied
    · exact ⟨hu.unique hv, rfl⟩

/-- What an adoption leaves recorded : the daemon for the unit, and every other record. -/
theorem UnitManager.Adopts.records {daemon : Pid} (h : m.Adopts k op u daemon) :
    (m.apply k op).Records daemon u .main ∧ ∀ pid v role, (v = u → role ≠ .main) →
      m.Records pid v role → (m.apply k op).Records pid v role := by
  obtain ⟨exited, outcome, rfl, hmain, rt, hrt, hd⟩ := h
  obtain ⟨rt₁, hrt₁, hp⟩ := hmain.get
  obtain rfl := Option.some.inj (hrt.symm.trans hrt₁)
  have happly : m.apply k (.onChildExit exited outcome) =
      m.put u (pure (rt.markDaemonStarted k daemon)) := by
    change (m.onChildExit k exited outcome).1 = _
    unfold UnitManager.onChildExit
    rw [hmain.probe, hmain.execStop, hmain.main]
    dsimp only
    rw [hrt]
    dsimp only
    unfold UnitManager.onMainExit
    rw [hd]
  rw [happly]
  refine ⟨⟨_, by rw [UnitManager.get_put, if_pos rfl], rfl⟩, fun pid v role hne hrec => ?_⟩
  obtain ⟨rt₂, hrt₂, hpid⟩ := hrec
  by_cases hv : v = u
  · subst hv
    obtain rfl := Option.some.inj (hrt.symm.trans hrt₂)
    refine ⟨_, by rw [UnitManager.get_put, if_pos rfl], ?_⟩
    cases role with
    | main => exact absurd rfl (hne rfl)
    | healthProbe => exact hpid
    | stopCommand => exact hpid
  · exact ⟨rt₂, by rw [UnitManager.get_put, if_neg (Ne.symm hv), hrt₂], hpid⟩

/-- As long as no adopted daemon is recorded elsewhere every process has one owner, and a
further step leaves it so exactly when it adopts no such daemon either. -/
theorem oneOwner_of_run (h : Guarded (fun k m op => k.Fresh m ∧ AdoptsOwn k m op) {} m) :
    OneOwner m ∧ ∀ k op, k.Fresh m → (OneOwner (m.apply k op) ↔ AdoptsOwn k m op) := by
  have hone : OneOwner m := by
    induction h with
    | refl =>
      intro pid u v role role' hu
      obtain ⟨rt, hrt, -⟩ := hu
      simp [UnitManager.get] at hrt
    | tail _ hstep ih =>
      obtain ⟨k, op, -, hguard, rfl⟩ := hstep
      exact oneOwner_apply ih hguard.1 hguard.2
  refine ⟨hone, fun k op hk => ⟨fun hafter u daemon ha v role hrec => ?_, oneOwner_apply hone hk⟩⟩
  obtain ⟨hdaemon, hkept⟩ := ha.records
  by_contra hne
  have hrec' := hkept daemon v role (fun hv hrole => hne ⟨hv, hrole⟩) hrec
  exact hne (hafter daemon v u role .main hrec' hdaemon)

/-! ## A concrete run -/

/-- A kernel on which every pid file names `daemon`, and a fork gives `pid`. -/
def daemonKernel (pid : Pid) (daemon : String) : Kernel :=
  { Kernel.granting 0 pid with
    readUnitFile := fun _ _ => .ok daemon
    spawnDetached := fun _ _ => .error "no command" }

theorem fresh_daemonKernel {daemon : String} (h : m.ownsChild pid = false) :
    (daemonKernel pid daemon).Fresh m where
  spawn := by
    intro u p pending hp
    obtain ⟨rfl, -⟩ := Prod.mk.inj (Except.ok.inj hp)
    exact h
  command := by
    intro u c p hp
    cases hp
  apart := by
    intro u v c c' p hp
    cases hp

/-- A service that forks and leaves its pid in a file. -/
def forkingConfig : UnitConfig :=
  { UnitConfig.new serviceB with serviceKind := .forking, pidFile := some "/run/b.pid" }

/-- Two services run, and the launcher of one has not exited yet. -/
def launching : UnitManager :=
  ({} : UnitManager).apply (daemonKernel 10 "") (.addWithInFlight (UnitConfig.new serviceA) false)
    |>.apply (daemonKernel 10 "") (.addWithInFlight forkingConfig false)
    |>.apply (daemonKernel 10 "") (.beginSpawnUnit serviceA)
    |>.apply (daemonKernel 11 "") (.beginSpawnUnit serviceB)

theorem adoptsOwn_of_ne_exit (h : ∀ pid outcome, op ≠ .onChildExit pid outcome) :
    AdoptsOwn k m op := by
  rintro u daemon ⟨pid, outcome, hop, -⟩
  exact absurd hop (h pid outcome)

theorem guarded_launching :
    Guarded (fun k m op => k.Fresh m ∧ AdoptsOwn k m op) {} launching := by
  have h : Guarded (fun k m op => k.Fresh m ∧ AdoptsOwn k m op) {} {} := .refl
  have h := h.snoc (daemonKernel 10 "") (.addWithInFlight (UnitConfig.new serviceA) false) rfl
    ⟨fresh_daemonKernel (by decide), adoptsOwn_of_ne_exit (by simp)⟩
  have h := h.snoc (daemonKernel 10 "") (.addWithInFlight forkingConfig false) rfl
    ⟨fresh_daemonKernel (by decide), adoptsOwn_of_ne_exit (by simp)⟩
  have h := h.snoc (daemonKernel 10 "") (.beginSpawnUnit serviceA) trivial
    ⟨fresh_daemonKernel (by decide), adoptsOwn_of_ne_exit (by simp)⟩
  exact h.snoc (daemonKernel 11 "") (.beginSpawnUnit serviceB) trivial
    ⟨fresh_daemonKernel (by decide), adoptsOwn_of_ne_exit (by simp)⟩

/-- The launcher exits and leaves a daemon of its own. -/
theorem oneOwner_launched :
    OneOwner (launching.apply (daemonKernel 30 "12") (.onChildExit 11 .success)) ∧
    (launching.apply (daemonKernel 30 "12") (.onChildExit 11 .success)).mainOwner 12 =
      some serviceB := by
  refine ⟨((oneOwner_of_run guarded_launching).2 _ _ (fresh_daemonKernel (by decide))).mpr ?_,
    by decide⟩
  rintro u daemon ⟨pid, outcome, hop, hmain, rt, hrt, hd⟩ v role hr
  obtain ⟨rfl, rfl⟩ := Op.onChildExit.inj hop
  obtain rfl : serviceB = u :=
    Option.some.inj ((show launching.mainOwner 11 = some serviceB by decide).symm.trans hmain.main)
  have hfile : (launching.get serviceB).bind (fun rt =>
      launching.forkedDaemon (daemonKernel 30 "12") serviceB rt .success) = some 12 := by decide
  rw [hrt, Option.bind_some, hd] at hfile
  obtain rfl := Option.some.inj hfile
  exact absurd hr.ownsChild (by decide)

/-- The pid file of one service names the process of another, and both record it. -/
theorem not_oneOwner_adopted :
    Guarded (fun k m _ => k.Fresh m) {}
      (launching.apply (daemonKernel 30 "10") (.onChildExit 11 .success)) ∧
    ¬OneOwner (launching.apply (daemonKernel 30 "10") (.onChildExit 11 .success)) := by
  refine ⟨(guarded_launching.mono fun _ _ _ h => h.1).snoc _ _ trivial
    (fresh_daemonKernel (by decide)),
    fun h => ?_⟩
  have record {u : UnitName} (hu : (((launching.apply (daemonKernel 30 "10")
      (.onChildExit 11 .success)).get u).bind (·.pid)) = some 10) :
      (launching.apply (daemonKernel 30 "10") (.onChildExit 11 .success)).Records 10 u .main :=
    Option.bind_eq_some_iff.mp hu
  exact absurd (h 10 serviceA serviceB .main .main (record (by decide)) (record (by decide))).1
    (by decide)

end Rinit
