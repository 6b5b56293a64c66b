import Rinit.StopCommands
import Rinit.Teardown

/-!
# Waiting for what a shutdown stops

After the stops of a shutdown the loop `stopAndReap` reaps, fires the deadlines of the stops and
waits, and gives up when no deadline is left and none was fired. `killed_of_patient` : it gives up
only on processes that were sent `SIGKILL` before its last wait, as long as every process has
either its deadline or its `SIGKILL` when the loop begins, the first pass finds a deadline to wait
for, no main process exits before its stop command, and the `SIGKILL`s are delivered. A unit with
`TimeoutStopSec=0` that is alone gets no wait at all (`not_killed_atOnce`).
-/

namespace Rinit

/-- The process a call has made. -/
def Call.made : Call → Option Pid
  | .kill _ _ _ => none
  | .spawn _ pid | .command _ pid => some pid

namespace UnitRuntime

/-- Whether the unit still has work to finish. -/
def hasWork (rt : UnitRuntime) : Bool :=
  rt.pid.isSome || rt.execStopPid.isSome || rt.probePid.isSome || rt.state = .deactivating

/-- `pid` is the main process or the stop command of the unit. -/
def Counted (rt : UnitRuntime) (pid : Pid) : Prop := rt.pid = some pid ∨ rt.execStopPid = some pid

end UnitRuntime

namespace UnitManager

/-- How many units still have work to finish. -/
def runningCount (m : UnitManager) : ℕ := (m.units.toList.filter fun e => e.2.hasWork).length

/-- Time until the next deadline of a stop, if there is any. -/
def nextKillIn (k : Kernel) (m : UnitManager) : Option ℕ :=
  ((m.units.toList.filterMap fun e => e.2.killAt).map (· - k.now)).min?

/-- Reap every exited child. -/
def reapInto (k : Kernel) (exits : List (Pid × ExitOutcome)) (m : UnitManager) : UnitManager :=
  exits.foldl (fun m exit => (m.onChildExit k exit.1 exit.2).1) m

/-- The stops of a shutdown. -/
def shutdownStops (k : Kernel) (m : UnitManager) : UnitManager :=
  m.getShutdownOrder.foldl
    (fun m unit =>
      let r := m.requestStop k unit .shutdownStop
      (applyEffect k r.1 unit r.2).1)
    m

end UnitManager

/-- What one pass of the loop meets : the children that have exited, and the kernel while they are
reaped and while deadlines are fired. -/
structure Pass where
  reaping : Kernel
  exits : List (Pid × ExitOutcome)
  killing : Kernel

/-- How the loop ends. -/
inductive DrainEnd where
  | drained
  | gaveUp
deriving DecidableEq, Repr

/-- The manager in the loop, and the calls it had made at the last wait. -/
structure Draining where
  manager : UnitManager
  waited : Option (List Call) := none

/-- One pass, without a budget; `none` where it waits. -/
def Pass.run (p : Pass) (m : UnitManager) : UnitManager × Option DrainEnd :=
  let m := m.reapInto p.reaping p.exits
  if m.runningCount = 0 then (m, some .drained)
  else
    let r := m.dueKills p.killing
    match r.1.nextKillIn p.killing with
    | some _ => (r.1, none)
    | none => if r.2.isEmpty then (r.1, some .gaveUp) else (r.1, none)

/-- The loop over its passes; `none` where it has not come to an end. -/
def stopAndReap : List Pass → Draining → Draining × Option DrainEnd
  | [], d => (d, none)
  | p :: passes, d =>
    match p.run d.manager with
    | (m, some ended) => ({ d with manager := m }, some ended)
    | (m, none) => stopAndReap passes { manager := m, waited := some m.calls }

/-! ## Signals -/

/-- `pid` was sent `SIGKILL`, and is no later process with the same pid. -/
def Killed (calls : List Call) (pid : Pid) : Prop :=
  ∃ before target after, calls = before ++ .kill target sigKill true :: after ∧
    (target = pid ∨ target = -pid) ∧ ∀ c ∈ after, c.made ≠ some pid

/-- Nothing but signals is added to the calls. -/
def Signals (calls calls' : List Call) : Prop :=
  ∃ extra, calls' = calls ++ extra ∧ ∀ c ∈ extra, c.made = none

namespace Signals

variable {calls calls' calls'' : List Call}

theorem refl (calls : List Call) : Signals calls calls := ⟨[], by simp⟩

theorem trans (h : Signals calls calls') (h' : Signals calls' calls'') :
    Signals calls calls'' := by
  obtain ⟨extra, rfl, hextra⟩ := h
  obtain ⟨extra', rfl, hextra'⟩ := h'
  refine ⟨extra ++ extra', by simp, fun c hc => ?_⟩
  exact (List.mem_append.mp hc).elim (hextra c) (hextra' c)

theorem of_append {extra : List Call} (h : ∀ c ∈ extra, c.made = none) :
    Signals calls (calls ++ extra) :=
  ⟨extra, rfl, h⟩

theorem killed (h : Signals calls calls') {pid : Pid} (hk : Killed calls pid) :
    Killed calls' pid := by
  obtain ⟨extra, rfl, hextra⟩ := h
  obtain ⟨before, target, after, rfl, ht, hafter⟩ := hk
  refine ⟨before, target, after ++ extra, by simp, ht, fun c hc => ?_⟩
  rcases List.mem_append.mp hc with hc | hc
  · exact hafter c hc
  · rw [hextra c hc]
    exact nofun

end Signals

namespace Traced

variable {α β : Type}

/-- The computation makes no process. -/
structure OnlySignals (x : Traced α) : Prop where
  made : ∀ c ∈ x.calls, c.made = none

theorem OnlySignals.pure (a : α) : (Pure.pure a : Traced α).OnlySignals := ⟨nofun⟩

theorem OnlySignals.bind {x : Traced α} {f : α → Traced β} (h : x.OnlySignals)
    (hf : (f x.val).OnlySignals) : (x >>= f).OnlySignals := by
  refine ⟨fun c hc => ?_⟩
  rw [bind_calls] at hc
  exact (List.mem_append.mp hc).elim (h.made c) (hf.made c)

end Traced

namespace Kernel

open Traced

variable {k : Kernel} {cg : Cgroup} {u : UnitName} {signal : ℕ}

theorem onlySignals_send (k : Kernel) (target : ℤ) (signal : ℕ) :
    (k.send target signal).OnlySignals := by
  refine ⟨fun c hc => ?_⟩
  rw [show c = _ from List.mem_singleton.mp hc]
  rfl

theorem onlySignals_killProcessGroup (k : Kernel) (pid : Pid) (signal : ℕ) :
    (k.killProcessGroup pid signal).OnlySignals := by
  unfold killProcessGroup
  split
  · exact .pure _
  · split
    · exact .pure _
    · exact onlySignals_send ..

theorem onlySignals_signalProcess (k : Kernel) (pid : Pid) (signal : ℕ) :
    (k.signalProcess pid signal).OnlySignals := by
  unfold signalProcess
  split
  · exact .pure _
  · exact onlySignals_killProcessGroup ..

theorem onlySignals_killAny (k : Kernel) (pid : Option Pid) (signal : ℕ) :
    (k.killAny pid signal).OnlySignals := by
  cases pid with
  | none => exact .pure _
  | some pid => exact (onlySignals_killProcessGroup k pid signal).bind (.pure _)

theorem onlySignals_signalAny (k : Kernel) (pid : Option Pid) (signal : ℕ) :
    (k.signalAny pid signal).OnlySignals := by
  cases pid with
  | none => exact .pure _
  | some pid => exact (onlySignals_signalProcess k pid signal).bind (.pure _)

theorem onlySignals_killAnyGroup (k : Kernel) (pgid : Option Pid) (signal : ℕ) :
    (k.killAnyGroup pgid signal).OnlySignals := by
  cases pgid with
  | none => exact .pure _
  | some pgid =>
    refine OnlySignals.bind ?_ (.pure _)
    unfold killGroup
    split
    · exact .pure _
    · exact onlySignals_send ..

theorem onlySignals_signalMembers (k : Kernel) (cg : Cgroup) (u : UnitName) (signal : ℕ) :
    (k.signalMembers cg u signal).OnlySignals := by
  unfold signalMembers
  induction (k.members cg u).getD [] with
  | nil => exact .pure _
  | cons pid pids ih =>
    rw [List.foldlM_cons]
    refine OnlySignals.bind ?_ ih
    split
    · exact .pure _
    · exact (onlySignals_send ..).bind (.pure _)

/-- A `SIGKILL` that was delivered is on record. -/
theorem killed_of_signalProcess {pid : Pid} {calls : List Call}
    (h : (k.signalProcess pid sigKill).val.isOk = true) :
    Killed (calls ++ (k.signalProcess pid sigKill).calls) pid := by
  unfold signalProcess at h ⊢
  split at h
  · cases h
  · next hpid =>
    rw [if_neg hpid]
    unfold killProcessGroup at h ⊢
    split at h
    · cases h
    · next hone =>
      rw [if_neg hone]
      split at h
      · cases h
      · next group hgroup =>
        have hok : (k.kill (if group = pid then -pid else pid) sigKill).isOk = true := h
        refine ⟨calls, if group = pid then -pid else pid, [], ?_, ?_, nofun⟩
        · simp only [send, hok]
        · split
          · exact .inr rfl
          · exact .inl rfl

end Kernel

namespace UnitRuntime

open Traced Kernel

variable {k : Kernel} {cg : Cgroup} {u : UnitName} {rt : UnitRuntime}

theorem onlySignals_finishProbe (k : Kernel) (cg : Cgroup) (u : UnitName) (outcome : ExitOutcome)
    (rt : UnitRuntime) : (rt.finishProbe k cg u outcome).OnlySignals := by
  unfold finishProbe
  dsimp only
  split
  · exact .pure _
  · split
    · unfold unhealthy
      refine (onlySignals_killProcessGroup ..).bind ?_
      split
      · dsimp only
        split
        · exact (onlySignals_signalMembers ..).bind
            ((onlySignals_killProcessGroup ..).bind (.pure _))
        · exact .pure _
      · split
        · exact .pure _
        · exact .pure _
    · exact .pure _

theorem onlySignals_execStopExit (k : Kernel) (cg : Cgroup) (u : UnitName) (outcome : ExitOutcome)
    (rt : UnitRuntime) : (rt.execStopExit k cg u outcome).OnlySignals := by
  unfold execStopExit
  split
  · exact (onlySignals_signalMembers ..).bind ((onlySignals_signalAny ..).bind (.pure _))
  · exact .pure _

theorem onlySignals_mainExit (k : Kernel) (boot : Bool) (pid : Pid) (outcome : ExitOutcome)
    (rt : UnitRuntime) : (rt.mainExit k boot pid outcome).OnlySignals := by
  refine OnlySignals.bind ?_ (.pure _)
  exact (onlySignals_killAny ..).bind ((onlySignals_killAnyGroup ..).bind (.pure _))

theorem onlySignals_failOwn (k : Kernel) (cg : Cgroup) (u : UnitName) (rt : UnitRuntime) :
    (rt.failOwn k cg u).OnlySignals :=
  (onlySignals_killAnyGroup ..).bind
    ((onlySignals_signalAny ..).bind ((onlySignals_signalMembers ..).bind (.pure _)))

theorem onlySignals_kill (k : Kernel) (cg : Cgroup) (u : UnitName) (rt : UnitRuntime) :
    (rt.kill k cg u).OnlySignals := by
  unfold kill
  split
  · refine (onlySignals_killAny ..).bind ((onlySignals_signalMembers ..).bind ?_)
    split
    · exact (onlySignals_signalProcess ..).bind (.pure _)
    · exact .pure _
  · exact .pure _

end UnitRuntime

namespace UnitManager

variable {k : Kernel} {m : UnitManager} {u v : UnitName} {rt rt' : UnitRuntime}

theorem signals_put {x : Traced UnitRuntime} (h : x.OnlySignals) (m : UnitManager) (u : UnitName) :
    Signals m.calls (m.put u x).calls :=
  .of_append h.made

theorem signals_update {f : UnitRuntime → Traced UnitRuntime} (h : ∀ rt, (f rt).OnlySignals)
    (m : UnitManager) (u : UnitName) : Signals m.calls (m.update u f).calls := by
  unfold update
  split
  · exact signals_put (h _) m u
  · exact .refl _

theorem signals_failStart (k : Kernel) (m : UnitManager) (u : UnitName) :
    Signals m.calls (m.failStart k u).1.calls :=
  signals_update (fun rt => UnitRuntime.onlySignals_failOwn k m.cgroup u rt) m u

theorem signals_onChildExit (k : Kernel) (m : UnitManager) (pid : Pid) (outcome : ExitOutcome) :
    Signals m.calls (m.onChildExit k pid outcome).1.calls := by
  unfold onChildExit
  split
  · exact signals_update (fun rt => UnitRuntime.onlySignals_finishProbe ..) m _
  · split
    · exact signals_update (fun rt => UnitRuntime.onlySignals_execStopExit ..) m _
    · split
      · exact .refl _
      · next u _ =>
        split
        · exact .refl _
        · next rt _ =>
          unfold onMainExit
          split
          · exact signals_put (.pure _) m u
          · let x : Traced UnitRuntime := ⟨(rt.mainExit k m.bootInProgress pid outcome).val.1,
              (rt.mainExit k m.bootInProgress pid outcome).calls⟩
            have hput : Signals m.calls (m.put u x).calls :=
              signals_put (x := x) ⟨(UnitRuntime.onlySignals_mainExit ..).made⟩ m u
            dsimp only
            split
            · exact hput.trans (signals_failStart k (m.put u x) u)
            · exact hput

theorem signals_dueKills (k : Kernel) (m : UnitManager) :
    Signals m.calls (m.dueKills k).1.calls := by
  refine .of_append fun c hc => ?_
  obtain ⟨e, -, hc⟩ := List.mem_flatMap.mp hc
  exact (UnitRuntime.onlySignals_kill k m.cgroup e.1 e.2).made c hc

end UnitManager

/-! ## What is left without a deadline -/

namespace UnitRuntime

variable {k : Kernel} {cg : Cgroup} {u : UnitName} {rt : UnitRuntime} {pid : Pid}

/-- A process that `rt'` has without a deadline, `rt` has without one. -/
def Unarmed (rt rt' : UnitRuntime) : Prop :=
  ∀ pid, rt'.Counted pid → rt'.killAt = none → rt.Counted pid ∧ rt.killAt = none

theorem unarmed_scheduleHealth (k : Kernel) (rt : UnitRuntime) :
    rt.Unarmed (rt.scheduleHealth k) := by
  unfold scheduleHealth
  split <;> exact fun _ hp hk => ⟨hp, hk⟩

theorem killAt_markDaemonStarted (k : Kernel) (daemon : Pid) (rt : UnitRuntime) :
    (rt.markDaemonStarted k daemon).killAt = rt.killAt := by
  unfold markDaemonStarted scheduleHealth
  split <;> rfl

/-- A probe that fails takes no deadline away. -/
theorem unarmed_finishProbe (k : Kernel) (cg : Cgroup) (u : UnitName) (outcome : ExitOutcome)
    (rt : UnitRuntime) : rt.Unarmed (rt.finishProbe k cg u outcome).val := by
  unfold finishProbe
  dsimp only
  split
  · exact unarmed_scheduleHealth k _
  · split
    · unfold unhealthy
      rw [Traced.bind_val]
      split
      · dsimp only
        split
        · exact fun _ hp hk => ⟨hp, hk⟩
        · exact fun _ _ hk => by cases hk
      · split
        · exact fun _ hp hk => ⟨.inr (hp.resolve_left nofun), hk⟩
        · exact unarmed_scheduleHealth k _
    · exact unarmed_scheduleHealth k _

theorem unarmed_dragDown (rt : UnitRuntime) : rt.Unarmed rt.dragDown := by
  unfold dragDown
  split <;> exact fun _ hp hk => ⟨hp, hk⟩

end UnitRuntime

namespace UnitManager

variable {k : Kernel} {m : UnitManager} {u v : UnitName} {rt rt' : UnitRuntime}

theorem mainExit_pid (k : Kernel) (boot : Bool) (pid : Pid) (outcome : ExitOutcome)
    (rt : UnitRuntime) : (rt.mainExit k boot pid outcome).val.1.pid = none := by
  have h := rt.settled_mainExit k boot pid outcome
  generalize (rt.mainExit k boot pid outcome).val = r at h
  cases h <;> rfl

/-- The exit of a main process leaves no stop command behind, and a daemon that is adopted has the
deadline of its unit. -/
def QuietExit (k : Kernel) (m : UnitManager) (exit : Pid × ExitOutcome) : Prop :=
  ∀ u rt, m.ExitsMain exit.1 u → m.get u = some rt →
    if (m.forkedDaemon k u rt exit.2).isSome then rt.killAt.isSome = true
    else rt.execStopPid = none

/-- Every exit that is reaped is quiet when its turn comes. -/
def QuietExits (k : Kernel) : List (Pid × ExitOutcome) → UnitManager → Prop
  | [], _ => True
  | exit :: exits, m =>
    QuietExit k m exit ∧ QuietExits k exits (m.onChildExit k exit.1 exit.2).1

/-- A process without a deadline after a quiet exit had none before. -/
theorem unarmed_exitChange {pid : Pid} {outcome : ExitOutcome}
    (hq : QuietExit k m (pid, outcome)) (hrt : m.get u = some rt)
    (hc : m.ExitChange k pid outcome u rt rt') : rt.Unarmed rt' := by
  intro p hp hk
  have gone {rt₁ : UnitRuntime} (hmain : m.ExitsMain pid u)
      (hd : m.forkedDaemon k u rt outcome = none)
      (hpid : rt₁.pid = none) (hstop : rt₁.execStopPid = rt.execStopPid) (h : rt₁.Counted p) :
      False := by
    have hquiet := hq u rt hmain hrt
    rw [hd] at hquiet
    have hnone : rt.execStopPid = none := hquiet
    rcases h with h | h
    · cases hpid.symm.trans h
    · cases (hstop.trans hnone).symm.trans h
  cases hc with
  | same => exact ⟨hp, hk⟩
  | probe => exact UnitRuntime.unarmed_finishProbe k m.cgroup u outcome rt p hp hk
  | stopCommand =>
    rw [UnitRuntime.execStopExit_val] at hp hk
    exact ⟨.inl (hp.resolve_right nofun), hk⟩
  | @daemon _ _ daemon hd =>
    rename_i hmain _
    have hquiet := hq u rt hmain hrt
    rw [hd] at hquiet
    have hsome : rt.killAt.isSome = true := hquiet
    rw [UnitRuntime.killAt_markDaemonStarted] at hk
    rw [hk] at hsome
    cases hsome
  | settled hmain _ hd =>
    exact (gone hmain hd (mainExit_pid ..) (mainExit_stop ..).1 hp).elim
  | failed hmain _ hd =>
    refine (gone hmain hd ?_ ((failOwn_stop ..).1.trans (mainExit_stop ..).1) hp).elim
    rw [UnitRuntime.failOwn_val]
    split
    · exact mainExit_pid ..
    · rfl
  | dragged => exact UnitRuntime.unarmed_dragDown rt p hp hk

theorem unarmed_onChildExit {exit : Pid × ExitOutcome} {p : Pid} (hq : QuietExit k m exit)
    (hrt' : (m.onChildExit k exit.1 exit.2).1.get u = some rt') (hp : rt'.Counted p)
    (hk : rt'.killAt = none) : ∃ rt, m.get u = some rt ∧ rt.Counted p ∧ rt.killAt = none := by
  obtain ⟨rt, hrt, -⟩ := (touched_onChildExit k m exit.1 exit.2).get_some hrt'
  obtain ⟨rt₁, hrt₁, hc⟩ := exitChange_onChildExit k exit.1 exit.2 hrt
  obtain rfl := Option.some.inj (hrt'.symm.trans hrt₁)
  exact ⟨rt, hrt, unarmed_exitChange hq hrt hc p hp hk⟩

/-- Reaping takes no deadline from a process that is left, and only sends signals. -/
theorem unarmed_reapInto {exits : List (Pid × ExitOutcome)} {p : Pid}
    (hq : QuietExits k exits m) (hrt' : (m.reapInto k exits).get u = some rt')
    (hp : rt'.Counted p) (hk : rt'.killAt = none) :
    ∃ rt, m.get u = some rt ∧ rt.Counted p ∧ rt.killAt = none := by
  induction exits generalizing m with
  | nil => exact ⟨rt', hrt', hp, hk⟩
  | cons exit exits ih =>
    obtain ⟨rt₁, hrt₁, hp₁, hk₁⟩ := ih hq.2 hrt'
    exact unarmed_onChildExit hq.1 hrt₁ hp₁ hk₁

theorem signals_reapInto (k : Kernel) (exits : List (Pid × ExitOutcome)) (m : UnitManager) :
    Signals m.calls (m.reapInto k exits).calls :=
  Runs.foldl_induction (P := fun _ (m' : UnitManager) => Signals m.calls m'.calls) (.refl _)
    fun _ exit _ m' _ h => h.trans (signals_onChildExit k m' exit.1 exit.2)

end UnitManager

/-! ## A pass -/

/-- Every process that is counted has a deadline or was sent `SIGKILL`. -/
def Sent (m : UnitManager) : Prop :=
  ∀ u rt pid, m.get u = some rt → rt.Counted pid →
    rt.killAt.isSome = true ∨ Killed m.calls pid

/-- What the loop relies on in a pass : the exits are quiet, the `SIGKILL`s are delivered, and
unless it has waited before, there is a deadline to wait for or no process without one. -/
structure Pass.Fair (p : Pass) (d : Draining) : Prop where
  exits : UnitManager.QuietExits p.reaping p.exits d.manager
  delivered : ∀ u rt pid, (d.manager.reapInto p.reaping p.exits).get u = some rt →
    rt.pid = some pid → rt.killAt.any (· ≤ p.killing.now) = true →
      (p.killing.signalProcess pid sigKill).val.isOk = true
  first : d.waited = none →
    (∃ u rt, (d.manager.reapInto p.reaping p.exits).get u = some rt ∧ rt.killAt.isSome = true ∧
      (rt.pid.isSome = true ∨ rt.state = .deactivating)) ∨
    ∀ u rt pid, (d.manager.reapInto p.reaping p.exits).get u = some rt → rt.Counted pid →
      rt.killAt.isSome = true

/-- Every pass up to the end of the loop is fair. -/
def Patient : List Pass → Draining → Prop
  | [], _ => True
  | p :: passes, d =>
    p.Fair d ∧ ((p.run d.manager).2 = none →
      Patient passes ⟨(p.run d.manager).1, some (p.run d.manager).1.calls⟩)

namespace Sent

variable {k : Kernel} {m : UnitManager}

theorem reapInto {exits : List (Pid × ExitOutcome)} (h : Sent m)
    (hq : UnitManager.QuietExits k exits m) : Sent (m.reapInto k exits) := by
  intro u rt' pid hrt' hp
  cases hk : rt'.killAt with
  | some at_ => exact .inl rfl
  | none =>
    obtain ⟨rt, hrt, hp, hk⟩ := UnitManager.unarmed_reapInto hq hrt' hp hk
    refine .inr ((UnitManager.signals_reapInto k exits m).killed ?_)
    refine (h u rt pid hrt hp).resolve_left fun hs => ?_
    rw [hk] at hs
    cases hs

end Sent

namespace UnitRuntime

variable {k : Kernel} {cg : Cgroup} {u : UnitName} {rt : UnitRuntime} {pid : Pid}

/-- A deadline that is not due is left alone. -/
theorem kill_of_not_due (h : rt.killAt.any (· ≤ k.now) = false) :
    rt.kill k cg u = pure (rt, false) := by
  unfold kill
  rw [if_neg]
  rw [h]
  exact nofun

/-- A deadline that is due takes the stop command off the unit. -/
theorem kill_of_due (cg : Cgroup) (u : UnitName) (h : rt.killAt.any (· ≤ k.now) = true) :
    (rt.kill k cg u).val.1.pid = rt.pid ∧ (rt.kill k cg u).val.1.execStopPid = none ∧
      (∀ pid, rt.pid = some pid →
        (rt.kill k cg u).val.2 = (k.signalProcess pid sigKill).val.isOk ∧
        ∃ calls, (rt.kill k cg u).calls = calls ++ (k.signalProcess pid sigKill).calls) ∧
      (rt.pid = none → rt.state = .deactivating → (rt.kill k cg u).val.2 = true) := by
  unfold kill
  rw [if_pos h]
  cases hp : rt.pid with
  | none =>
    refine ⟨?_, ?_, nofun, fun _ hs => ?_⟩
    · simp only [Traced.bind_val]
      rw [Traced.pure_val]
      split <;> rfl
    · simp only [Traced.bind_val]
      rw [Traced.pure_val]
      split <;> rfl
    · simp [hs]
  | some pid =>
    refine ⟨?_, ?_, fun pid' hp' => ?_, nofun⟩
    · simp
    · simp
    · obtain rfl := Option.some.inj hp'
      refine ⟨by simp, (k.killAny rt.execStopPid sigKill).calls ++
        (k.signalMembers cg u sigKill).calls, by simp⟩

end UnitRuntime

namespace UnitManager

variable {k : Kernel} {m : UnitManager} {u : UnitName} {rt : UnitRuntime} {pid : Pid}

/-- A deadline that fires leaves the main process, with its `SIGKILL` on record. -/
theorem killed_dueKills (hrt : m.get u = some rt) (hdue : rt.killAt.any (· ≤ k.now) = true)
    (hpid : rt.pid = some pid) (hok : (k.signalProcess pid sigKill).val.isOk = true) :
    Killed (m.dueKills k).1.calls pid := by
  have hmem : (u, rt) ∈ m.units.toList := Std.ExtTreeMap.mem_toList_iff_getElem?_eq_some.mpr hrt
  obtain ⟨front, back, hsplit⟩ := List.append_of_mem hmem
  obtain ⟨calls, hcalls⟩ := ((rt.kill_of_due m.cgroup u hdue).2.2.1 pid hpid).2
  have hwhole : (m.dueKills k).1.calls = m.calls ++ front.flatMap (fun e =>
      (e.2.kill k m.cgroup e.1).calls) ++ calls ++ (k.signalProcess pid sigKill).calls ++
        back.flatMap fun e => (e.2.kill k m.cgroup e.1).calls := by
    change m.calls ++ m.units.toList.flatMap _ = _
    rw [hsplit, List.flatMap_append, List.flatMap_cons, hcalls]
    simp only [List.append_assoc]
  rw [hwhole]
  refine Signals.killed (.of_append fun c hc => ?_) (Kernel.killed_of_signalProcess hok)
  obtain ⟨e, -, hc⟩ := List.mem_flatMap.mp hc
  exact (UnitRuntime.onlySignals_kill k m.cgroup e.1 e.2).made c hc

theorem get_dueKills (hrt : (m.dueKills k).1.get u = some rt) :
    ∃ rt₀, m.get u = some rt₀ ∧ rt = (rt₀.kill k m.cgroup u).val.1 := by
  rw [dueKills, get_pass] at hrt
  obtain ⟨rt₀, hrt₀, heq⟩ := Option.map_eq_some_iff.mp hrt
  exact ⟨rt₀, hrt₀, heq.symm⟩

theorem killAt_of_nextKillIn (h : m.nextKillIn k = none) (hrt : m.get u = some rt) :
    rt.killAt = none := by
  unfold nextKillIn at h
  rw [List.min?_eq_none_iff, List.map_eq_nil_iff, List.filterMap_eq_nil_iff] at h
  exact h (u, rt) (Std.ExtTreeMap.mem_toList_iff_getElem?_eq_some.mpr hrt)

end UnitManager

namespace Sent

variable {k : Kernel} {m : UnitManager}

theorem dueKills (h : Sent m)
    (hd : ∀ u rt pid, m.get u = some rt → rt.pid = some pid →
      rt.killAt.any (· ≤ k.now) = true → (k.signalProcess pid sigKill).val.isOk = true) :
    Sent (m.dueKills k).1 := by
  intro u rt' pid hrt' hp
  obtain ⟨rt, hrt, rfl⟩ := UnitManager.get_dueKills hrt'
  cases hdue : rt.killAt.any (· ≤ k.now) with
  | true =>
    obtain ⟨hpid, hstop, -⟩ := rt.kill_of_due m.cgroup u hdue
    have hmain : rt.pid = some pid := by
      rcases hp with hp | hp
      · exact hpid.symm.trans hp
      · cases hstop.symm.trans hp
    exact .inr (UnitManager.killed_dueKills hrt hdue hmain (hd u rt pid hrt hmain hdue))
  | false =>
    rw [UnitRuntime.kill_of_not_due hdue] at hp ⊢
    exact (h u rt pid hrt hp).imp id (UnitManager.signals_dueKills k m).killed

end Sent

namespace Pass

variable {p : Pass} {m : UnitManager} {d : Draining}

theorem run_waits (h : (p.run m).2 = none) :
    (p.run m).1 = ((m.reapInto p.reaping p.exits).dueKills p.killing).1 := by
  unfold run at h ⊢
  dsimp only at h ⊢
  split at h
  · cases h
  · next hcount =>
    rw [if_neg hcount]
    split
    · rfl
    · split <;> rfl

theorem run_gaveUp (h : (p.run m).2 = some .gaveUp) :
    (p.run m).1 = ((m.reapInto p.reaping p.exits).dueKills p.killing).1 ∧
    ((m.reapInto p.reaping p.exits).dueKills p.killing).1.nextKillIn p.killing = none ∧
    ((m.reapInto p.reaping p.exits).dueKills p.killing).2 = [] := by
  unfold run at h ⊢
  dsimp only at h ⊢
  split at h
  · cases h
  · next hcount =>
    rw [if_neg hcount]
    cases hnext : ((m.reapInto p.reaping p.exits).dueKills p.killing).1.nextKillIn p.killing with
    | some wait =>
      rw [hnext] at h
      cases h
    | none =>
      rw [hnext] at h
      dsimp only at h ⊢
      split at h
      · next hempty =>
        rw [if_pos hempty]
        exact ⟨rfl, rfl, List.isEmpty_iff.mp hempty⟩
      · cases h

/-- A unit that is waited for or fired keeps the loop from giving up. -/
theorem not_gaveUp {u : UnitName} {rt : UnitRuntime} (h : (p.run m).2 = some .gaveUp)
    (hrt : (m.reapInto p.reaping p.exits).get u = some rt) (hk : rt.killAt.isSome = true)
    (hfires : rt.killAt.any (· ≤ p.killing.now) = true →
      (rt.kill p.killing (m.reapInto p.reaping p.exits).cgroup u).val.2 = true) : False := by
  obtain ⟨-, hnext, hkilled⟩ := run_gaveUp h
  cases hdue : rt.killAt.any (· ≤ p.killing.now) with
  | true =>
    have hmem : u ∈ ((m.reapInto p.reaping p.exits).dueKills p.killing).2 :=
      (UnitManager.mem_pass _ u).mpr ⟨rt, hrt, hfires hdue⟩
    rw [hkilled] at hmem
    cases hmem
  | false =>
    have hget : ((m.reapInto p.reaping p.exits).dueKills p.killing).1.get u = some rt := by
      rw [UnitManager.dueKills, UnitManager.get_pass, hrt, Option.map_some,
        UnitRuntime.kill_of_not_due hdue]
      rfl
    rw [UnitManager.killAt_of_nextKillIn hnext hget] at hk
    cases hk

theorem sent_of_waits (hs : Sent d.manager) (hf : p.Fair d)
    (h : (p.run d.manager).2 = none) : Sent (p.run d.manager).1 := by
  rw [run_waits h]
  exact (hs.reapInto hf.exits).dueKills hf.delivered

/-- A fair pass gives up only on processes that were sent `SIGKILL` before the last wait. -/
theorem killed_of_gaveUp (hs : Sent d.manager)
    (hw : d.waited = none ∨ d.waited = some d.manager.calls) (hf : p.Fair d)
    (h : (p.run d.manager).2 = some .gaveUp) {u : UnitName} {rt : UnitRuntime} {pid : Pid}
    (hrt : (p.run d.manager).1.get u = some rt) (hp : rt.Counted pid) :
    ∃ calls, d.waited = some calls ∧ Killed calls pid := by
  obtain ⟨hrun, -, -⟩ := run_gaveUp h
  rw [hrun] at hrt
  obtain ⟨rt₁, hrt₁, rfl⟩ := UnitManager.get_dueKills hrt
  have hunfired : rt₁.killAt.any (· ≤ p.killing.now) = false := by
    by_contra hdue
    rw [Bool.not_eq_false] at hdue
    obtain ⟨hpid, hstop, hsent, -⟩ := rt₁.kill_of_due
      (d.manager.reapInto p.reaping p.exits).cgroup u hdue
    have hmain : rt₁.pid = some pid := by
      rcases hp with hp | hp
      · exact hpid.symm.trans hp
      · cases hstop.symm.trans hp
    refine not_gaveUp h hrt₁ (by cases hk : rt₁.killAt <;> simp [hk] at hdue ⊢) fun _ => ?_
    rw [(hsent pid hmain).1]
    exact hf.delivered u rt₁ pid hrt₁ hmain hdue
  rw [UnitRuntime.kill_of_not_due hunfired] at hp
  have hunarmed : rt₁.killAt = none := by
    by_contra hk
    refine not_gaveUp h hrt₁ (Option.isSome_iff_ne_none.mpr hk) fun hdue => ?_
    rw [hunfired] at hdue
    cases hdue
  obtain ⟨rt₀, hrt₀, hp₀, hk₀⟩ := UnitManager.unarmed_reapInto hf.exits hrt₁ hp hunarmed
  have hkilled : Killed d.manager.calls pid := by
    refine (hs u rt₀ pid hrt₀ hp₀).resolve_left fun hsome => ?_
    rw [hk₀] at hsome
    cases hsome
  rcases hw with hw | hw
  · exfalso
    rcases hf.first hw with ⟨v, rt', hrt', hk', hbusy⟩ | harmed
    · refine not_gaveUp h hrt' hk' fun hdue => ?_
      obtain ⟨-, -, hsent, hgone⟩ := rt'.kill_of_due
        (d.manager.reapInto p.reaping p.exits).cgroup v hdue
      cases hpid : rt'.pid with
      | some main =>
        rw [(hsent main hpid).1]
        exact hf.delivered v rt' main hrt' hpid hdue
      | none =>
        refine hgone hpid (hbusy.resolve_left fun hsome => ?_)
        rw [hpid] at hsome
        cases hsome
    · have hsome := harmed u rt₁ pid hrt₁ hp
      rw [hunarmed] at hsome
      cases hsome
  · exact ⟨d.manager.calls, hw, hkilled⟩

end Pass

/-! ## The loop -/

theorem killed_of_loop {passes : List Pass} {d d' : Draining} (hs : Sent d.manager)
    (hw : d.waited = none ∨ d.waited = some d.manager.calls) (hp : Patient passes d)
    (h : stopAndReap passes d = (d', some .gaveUp)) {u : UnitName} {rt : UnitRuntime} {pid : Pid}
    (hrt : d'.manager.get u = some rt) (hpid : rt.Counted pid) :
    ∃ calls, d'.waited = some calls ∧ Killed calls pid := by
  induction passes generalizing d with
  | nil => cases h
  | cons p passes ih =>
    obtain ⟨hf, hrest⟩ := hp
    unfold stopAndReap at h
    split at h
    · next m' ended hrun =>
      obtain ⟨rfl, hended⟩ := Prod.mk.inj h
      have hgave : (p.run d.manager).2 = some .gaveUp := by rw [hrun, hended]
      exact Pass.killed_of_gaveUp hs hw hf hgave (by rw [hrun]; exact hrt) hpid
    · next m' hrun =>
      have hnone : (p.run d.manager).2 = none := by rw [hrun]
      have hsent := Pass.sent_of_waits hs hf hnone
      have hpatient := hrest hnone
      rw [hrun] at hsent hpatient
      exact ih hsent (.inr rfl) hpatient h

/-- From a state in which every process has its deadline or its `SIGKILL`, a loop whose passes are
fair gives up only on processes that were sent `SIGKILL` before its last wait. -/
theorem killed_of_patient {passes : List Pass} {m : UnitManager} {d : Draining} (hs : Sent m)
    (hp : Patient passes ⟨m, none⟩) (h : stopAndReap passes ⟨m, none⟩ = (d, some .gaveUp)) :
    ∀ u rt pid, d.manager.get u = some rt → rt.Counted pid →
      ∃ calls, d.waited = some calls ∧ Killed calls pid :=
  fun _ _ _ hrt hpid => killed_of_loop hs (.inl rfl) hp h hrt hpid

/-! ### Concrete runs -/

/-- A directory with a service and its stop timeout. -/
def stopping (timeout : String) : List UnitFile :=
  [{ name := serviceA
     path := "/etc/rinit/a.service"
     contents := "[Service]\nExecStart=/bin/a\nTimeoutStopSec=" ++ timeout ++ "\n" }]

/-- The service is started. -/
def upA : List (ℕ × Pid × Input) := [(1, 10, .boot), (2, 10, .advance), (3, 10, .boot)]

/-- A pass that reaps nothing. -/
def passAt (now : ℕ) : Pass := ⟨.granting now 10, [], .granting now 10⟩

/-- Every process has a deadline. -/
def allArmed (m : UnitManager) : Bool :=
  m.units.toList.all fun e => e.2.killAt.isSome || e.2.pid.isNone && e.2.execStopPid.isNone

/-- Every process can be sent `SIGKILL`. -/
def allReached (k : Kernel) (m : UnitManager) : Bool :=
  m.units.toList.all fun e => e.2.pid.all fun pid => (k.signalProcess pid sigKill).val.isOk

theorem armed_of_allArmed {m : UnitManager} (h : allArmed m = true) {u : UnitName}
    {rt : UnitRuntime} {pid : Pid} (hrt : m.get u = some rt) (hp : rt.Counted pid) :
    rt.killAt.isSome = true := by
  have hu := List.all_eq_true.mp h (u, rt)
    (Std.ExtTreeMap.mem_toList_iff_getElem?_eq_some.mpr hrt)
  rw [Bool.or_eq_true, Bool.and_eq_true, Option.isNone_iff_eq_none, Option.isNone_iff_eq_none] at hu
  refine hu.resolve_right fun hnone => ?_
  rcases hp with hp | hp
  · cases hnone.1.symm.trans hp
  · cases hnone.2.symm.trans hp

theorem fair_passAt {now : ℕ} {d : Draining} (hr : allReached (.granting now 10) d.manager = true)
    (hw : d.waited = none → allArmed d.manager = true) : (passAt now).Fair d where
  exits := trivial
  delivered u rt pid hrt hp _ := by
    have hu := List.all_eq_true.mp hr (u, rt)
      (Std.ExtTreeMap.mem_toList_iff_getElem?_eq_some.mpr hrt)
    rw [show (u, rt).2.pid = some pid from hp] at hu
    exact hu
  first hn := .inr fun _ _ _ hrt hp => armed_of_allArmed (hw hn) hrt hp

theorem killed_inTime : ∃ m d,
    stopAndReap [passAt 6, passAt 3000, passAt 3100] ⟨m, none⟩ = (d, some .gaveUp) ∧
    d.manager.runningCount = 1 ∧
    ∀ u rt pid, d.manager.get u = some rt → rt.Counted pid →
      ∃ calls, d.waited = some calls ∧ Killed calls pid := by
  obtain ⟨s, -, hp⟩ := Supervisor.exists_reached (stopping "2") "a.service"
    (l := upA) (p := fun s =>
      let m := s.manager.shutdownStops (.granting 5 10)
      let r₁ := (passAt 6).run m
      let r₂ := (passAt 3000).run r₁.1
      let r := stopAndReap [passAt 6, passAt 3000, passAt 3100] ⟨m, none⟩
      allArmed m && allReached (.granting 6 10) m && allReached (.granting 3000 10) r₁.1 &&
        allReached (.granting 3100 10) r₂.1 && decide (r.2 = some .gaveUp) &&
        decide (r.1.manager.runningCount = 1)) (by decide +kernel)
  dsimp only at hp
  generalize s.manager.shutdownStops (.granting 5 10) = m at hp
  simp only [Bool.and_eq_true, decide_eq_true_eq] at hp
  obtain ⟨⟨⟨⟨⟨harmed, h₁⟩, h₂⟩, h₃⟩, hend⟩, hcount⟩ := hp
  have hpatient : Patient [passAt 6, passAt 3000, passAt 3100] ⟨m, none⟩ := by
    refine ⟨fair_passAt h₁ fun _ => harmed, fun _ => ⟨?_, fun _ => ⟨?_, fun _ => trivial⟩⟩⟩
    · exact fair_passAt h₂ nofun
    · exact fair_passAt h₃ nofun
  generalize hr : stopAndReap [passAt 6, passAt 3000, passAt 3100] ⟨m, none⟩ = r at hend hcount
  obtain ⟨d, ended⟩ := r
  obtain rfl : ended = some .gaveUp := hend
  exact ⟨m, d, hr, hcount, killed_of_patient
    (fun u rt pid hrt hpid => .inl (armed_of_allArmed harmed hrt hpid)) hpatient hr⟩

/-- The service is sent `SIGKILL` at once, and the loop gives it up without a wait. -/
theorem not_killed_atOnce : ∃ s d u rt pid, Supervisor.Reached s ∧
    stopAndReap [passAt 6] ⟨s.manager.shutdownStops (.granting 5 10), none⟩ = (d, some .gaveUp) ∧
    d.manager.runningCount = 1 ∧ d.manager.get u = some rt ∧ rt.Counted pid ∧
    ¬∃ calls, d.waited = some calls ∧ Killed calls pid := by
  obtain ⟨s, hs, hp⟩ := Supervisor.exists_reached (stopping "0") "a.service"
    (l := upA) (p := fun s =>
      let r := stopAndReap [passAt 6] ⟨s.manager.shutdownStops (.granting 5 10), none⟩
      decide (r.2 = some .gaveUp) && decide (r.1.manager.runningCount = 1) && r.1.waited.isNone &&
        (r.1.manager.get serviceA).any fun rt : UnitRuntime => rt.pid = some 10) (by decide +kernel)
  dsimp only at hp
  generalize hr : stopAndReap [passAt 6] ⟨s.manager.shutdownStops (.granting 5 10), none⟩ = r at hp
  obtain ⟨d, ended⟩ := r
  simp only [Bool.and_eq_true, decide_eq_true_eq, Option.isNone_iff_eq_none] at hp
  obtain ⟨⟨⟨rfl, hcount⟩, hwaited⟩, hget⟩ := hp
  obtain ⟨rt, hrt, hpid⟩ := (Option.any_eq_true _ _).mp hget
  refine ⟨s, d, serviceA, rt, 10, hs, hr, hcount, hrt, .inl (of_decide_eq_true hpid), ?_⟩
  rintro ⟨calls, hcalls, -⟩
  cases hwaited.symm.trans hcalls

end Rinit
