import Rinit.Owners
import Rinit.Reload

/-!
# Whom the manager signals

Every system call of an operation is made for one unit. `Acted` says what may be made for it :
a signal is `SIGTERM` or `SIGKILL` and addresses a process the unit records or one just forked
for it, the group such a process leads, the group the unit has recorded, or a process of the
unit's own cgroup; and a process the unit comes to record was forked for it. `sent_apply` : so
it is for every operation and every unit, but for the daemon a forking unit adopts.
-/

namespace Rinit

/-- The process `pid` is forked for `u` among the calls. -/
def Forked (calls : List Call) (u : UnitName) (pid : Pid) : Prop :=
  .spawn u pid ∈ calls ∨ .command u pid ∈ calls

/-- What a signal may address that is sent for `u`, whose processes are the `own` and whose
recorded groups the `led`. -/
inductive Aimed (k : Kernel) (u : UnitName) (own led : Pid → Prop) : ℤ → Prop
  | process {pid : Pid} (h : own pid) (hp : 1 < pid) : Aimed k u own led pid
  | leader {pid : Pid} (h : own pid) (hp : 1 < pid) (hl : k.getpgid pid = .ok pid) :
    Aimed k u own led (-pid)
  | group {pgid : Pid} (h : own pgid ∨ led pgid) (hp : 1 < pgid) : Aimed k u own led (-pgid)
  | member {pid : Pid} {pids : List Pid} (h : k.cgroupProcesses u = some pids) (hm : pid ∈ pids)
    (hp : 1 < pid) : Aimed k u own led pid

theorem Aimed.mono {k : Kernel} {u : UnitName} {own own' led led' : Pid → Prop} {target : ℤ}
    (h : Aimed k u own led target) (ho : ∀ pid, own pid → own' pid)
    (hl : ∀ pid, led pid → own' pid ∨ led' pid) : Aimed k u own' led' target := by
  cases h with
  | process h hp => exact .process (ho _ h) hp
  | leader h hp hlead => exact .leader (ho _ h) hp hlead
  | group h hp =>
    rcases h with h | h
    · exact .group (.inl (ho _ h)) hp
    · exact .group (hl _ h) hp
  | member h hm hp => exact .member h hm hp

/-- A signal never addresses init, every process at once, or the manager's own group. -/
theorem Aimed.target {k : Kernel} {u : UnitName} {own led : Pid → Prop} {target : ℤ}
    (h : Aimed k u own led target) : 1 < target.natAbs := by
  have far {pid : ℤ} (hp : 1 < pid) : 1 < pid.natAbs ∧ 1 < (-pid).natAbs := by omega
  cases h with
  | process _ hp | member _ _ hp => exact (far hp).1
  | leader _ hp _ | group _ hp => exact (far hp).2

/-- Only signals are sent, `SIGTERM` and `SIGKILL`, and each is aimed. -/
def Aims (k : Kernel) (u : UnitName) (own led : Pid → Prop) (calls : List Call) : Prop :=
  ∀ c ∈ calls, ∃ target signal ok, c = .kill target signal ok ∧
    (signal = sigTerm ∨ signal = sigKill) ∧ Aimed k u own led target

namespace Aims

variable {k : Kernel} {u : UnitName} {own led : Pid → Prop} {signal : ℕ}

theorem nil : Aims k u own led [] := nofun

theorem append {calls calls' : List Call} (h : Aims k u own led calls)
    (h' : Aims k u own led calls') : Aims k u own led (calls ++ calls') := by
  intro c hc
  rcases List.mem_append.mp hc with hc | hc
  · exact h c hc
  · exact h' c hc

theorem bind {α β : Type} {x : Traced α} {f : α → Traced β} (h : Aims k u own led x.calls)
    (h' : Aims k u own led (f x.val).calls) : Aims k u own led (x >>= f).calls :=
  h.append h'

theorem send {target : ℤ} (hs : signal = sigTerm ∨ signal = sigKill)
    (h : Aimed k u own led target) : Aims k u own led (k.send target signal).calls := by
  intro c hc
  obtain rfl := List.mem_singleton.mp hc
  exact ⟨target, signal, _, rfl, hs, h⟩

theorem killProcessGroup (hs : signal = sigTerm ∨ signal = sigKill) {pid : Pid} (h : own pid) :
    Aims k u own led (k.killProcessGroup pid signal).calls := by
  unfold Kernel.killProcessGroup
  split
  · exact nil
  · next hp =>
    have hp : 1 < pid := not_le.mp hp
    split
    · exact nil
    · next group hgroup =>
      refine send hs ?_
      split
      · next heq => exact .leader h hp (heq ▸ hgroup)
      · exact .process h hp

theorem signalProcess (hs : signal = sigTerm ∨ signal = sigKill) {pid : Pid} (h : own pid) :
    Aims k u own led (k.signalProcess pid signal).calls := by
  unfold Kernel.signalProcess
  split
  · exact nil
  · exact killProcessGroup hs h

theorem killAny (hs : signal = sigTerm ∨ signal = sigKill) {pid : Option Pid}
    (h : ∀ p, pid = some p → own p) : Aims k u own led (k.killAny pid signal).calls := by
  unfold Kernel.killAny
  split
  · exact bind (killProcessGroup hs (h _ rfl)) nil
  · exact nil

theorem signalAny (hs : signal = sigTerm ∨ signal = sigKill) {pid : Option Pid}
    (h : ∀ p, pid = some p → own p) : Aims k u own led (k.signalAny pid signal).calls := by
  unfold Kernel.signalAny
  split
  · exact bind (signalProcess hs (h _ rfl)) nil
  · exact nil

theorem killAnyGroup (hs : signal = sigTerm ∨ signal = sigKill) {pgid : Option Pid}
    (h : ∀ g, pgid = some g → led g) : Aims k u own led (k.killAnyGroup pgid signal).calls := by
  unfold Kernel.killAnyGroup
  split
  · next g =>
    refine bind ?_ nil
    unfold Kernel.killGroup
    split
    · exact nil
    · next hg => exact send hs (.group (.inr (h g rfl)) (not_le.mp hg))
  · exact nil

theorem signalMembers (hs : signal = sigTerm ∨ signal = sigKill) (cg : Cgroup) :
    Aims k u own led (k.signalMembers cg u signal).calls := by
  -- every pid of the list comes from the unit's own cgroup
  have hmember : ∀ pid ∈ (k.members cg u).getD [],
      ∃ pids, k.cgroupProcesses u = some pids ∧ pid ∈ pids := by
    intro pid hpid
    cases cg with
    | none => cases hpid
    | some _ =>
      change pid ∈ (k.cgroupProcesses u).getD [] at hpid
      cases hc : k.cgroupProcesses u with
      | none => rw [hc] at hpid; cases hpid
      | some pids => exact ⟨pids, rfl, by rwa [hc] at hpid⟩
  unfold Kernel.signalMembers
  generalize (k.members cg u).getD [] = pids at hmember
  induction pids with
  | nil => exact nil
  | cons pid pids ih =>
    rw [List.foldlM_cons]
    refine bind ?_ (ih fun p hp => hmember p (List.mem_cons_of_mem _ hp))
    split
    · exact nil
    · next hp =>
      obtain ⟨pids', hpids, hmem⟩ := hmember pid List.mem_cons_self
      exact bind (send hs (.member hpids hmem (not_le.mp hp))) nil

end Aims

/-! ## One unit -/

namespace UnitRuntime

/-- The unit records the process. -/
def Has (rt : UnitRuntime) (pid : Pid) : Prop := ∃ role, rt.pidIn role = some pid

/-- The unit has recorded the group. -/
def Led (rt : UnitRuntime) (pgid : Pid) : Prop := rt.group = some pgid

/-- What is done for `u` on the way from `rt` to `rt'`. -/
structure Acted (k : Kernel) (u : UnitName) (rt rt' : UnitRuntime) (calls : List Call) : Prop where
  kills : ∀ target signal ok, .kill target signal ok ∈ calls →
    (signal = sigTerm ∨ signal = sigKill) ∧
      Aimed k u (fun pid => rt.Has pid ∨ Forked calls u pid) rt.Led target
  spawns : ∀ v pid, .spawn v pid ∈ calls → v = u ∧ ∃ pending, k.spawn u = .ok (pid, pending)
  commands : ∀ v pid, .command v pid ∈ calls → v = u ∧ ∃ c, k.spawnDetached u c = .ok pid
  records : ∀ pid, rt'.Has pid → rt.Has pid ∨ Forked calls u pid
  groups : ∀ pgid, rt'.Led pgid → rt.Led pgid ∨ rt.Has pgid ∨ Forked calls u pgid

variable {k : Kernel} {cg : Cgroup} {u : UnitName} {rt rt₁ rt' : UnitRuntime}
  {calls calls' : List Call}

theorem Acted.trans (h : Acted k u rt rt₁ calls) (h' : Acted k u rt₁ rt' calls') :
    Acted k u rt rt' (calls ++ calls') := by
  have left {pid : Pid} (hf : Forked calls u pid) : Forked (calls ++ calls') u pid :=
    hf.imp (List.mem_append_left _) (List.mem_append_left _)
  have right {pid : Pid} (hf : Forked calls' u pid) : Forked (calls ++ calls') u pid :=
    hf.imp (List.mem_append_right _) (List.mem_append_right _)
  have own {pid : Pid} (hp : rt₁.Has pid ∨ Forked calls' u pid) :
      rt.Has pid ∨ Forked (calls ++ calls') u pid := by
    rcases hp with hp | hp
    · exact (h.records pid hp).imp id left
    · exact .inr (right hp)
  have led {pgid : Pid} (hg : rt₁.Led pgid) :
      (rt.Has pgid ∨ Forked (calls ++ calls') u pgid) ∨ rt.Led pgid := by
    rcases h.groups pgid hg with hg | hg | hg
    · exact .inr hg
    · exact .inl (.inl hg)
    · exact .inl (.inr (left hg))
  refine ⟨fun target signal ok hc => ?_, fun v pid hc => ?_, fun v pid hc => ?_,
    fun pid hp => own (h'.records pid hp), fun pgid hg => ?_⟩
  · rcases List.mem_append.mp hc with hc | hc
    · obtain ⟨hs, ha⟩ := h.kills target signal ok hc
      exact ⟨hs, ha.mono (fun _ hp => hp.imp id left) fun _ hg => .inr hg⟩
    · obtain ⟨hs, ha⟩ := h'.kills target signal ok hc
      exact ⟨hs, ha.mono (fun _ hp => own hp) fun _ hg => led hg⟩
  · rcases List.mem_append.mp hc with hc | hc
    · exact h.spawns v pid hc
    · exact h'.spawns v pid hc
  · rcases List.mem_append.mp hc with hc | hc
    · exact h.commands v pid hc
    · exact h'.commands v pid hc
  · rcases h'.groups pgid hg with hg | hg | hg
    · rcases led hg with hg | hg
      · exact .inr hg
      · exact .inl hg
    · exact .inr (own (.inl hg))
    · exact .inr (own (.inr hg))

/-- A runtime that differs only by processes and a group that are gone. -/
theorem Acted.of_le (hp : rt'.pid = rt.pid ∨ rt'.pid = none)
    (hq : rt'.probePid = rt.probePid ∨ rt'.probePid = none)
    (he : rt'.execStopPid = rt.execStopPid ∨ rt'.execStopPid = none)
    (hg : rt'.group = rt.group ∨ rt'.group = none) : Acted k u rt rt' [] := by
  refine ⟨nofun, nofun, nofun, ?_, fun pgid hgroup => ?_⟩
  · rintro pid ⟨role, hrole⟩
    exact .inl ⟨role, pidIn_of_le hrole hp hq he⟩
  · rcases hg with hg | hg
    · exact .inl (hg.symm.trans hgroup)
    · cases hg.symm.trans hgroup

theorem Acted.refl (rt : UnitRuntime) : Acted k u rt rt [] :=
  .of_le (.inl rfl) (.inl rfl) (.inl rfl) (.inl rfl)

/-- Signals that are sent before anything changes. -/
theorem Acted.signals (h : Aims k u rt.Has rt.Led calls) : Acted k u rt rt calls := by
  refine ⟨fun target signal ok hc => ?_, fun v pid hc => ?_, fun v pid hc => ?_, fun pid hp => .inl hp,
    fun pgid hg => .inl hg⟩
  · obtain ⟨_, _, _, heq, hs, ha⟩ := h _ hc
    cases heq
    exact ⟨hs, ha.mono (fun _ hp => .inl hp) fun _ hg => .inr hg⟩
  · obtain ⟨_, _, _, heq, -⟩ := h _ hc
    cases heq
  · obtain ⟨_, _, _, heq, -⟩ := h _ hc
    cases heq

/-- Signals, and a change that makes no call. -/
theorem Acted.signalled (h : Aims k u rt.Has rt.Led calls) (h' : Acted k u rt rt' []) :
    Acted k u rt rt' calls := by
  have := (Acted.signals h).trans h'
  rwa [List.append_nil] at this

/-- What is done after a change without a call. -/
theorem Acted.after (h : Acted k u rt₁ rt' calls) (h' : Acted k u rt rt₁ []) :
    Acted k u rt rt' calls :=
  h'.trans h

theorem has_main {pid : Pid} (h : rt.pid = some pid) : rt.Has pid := ⟨.main, h⟩

theorem has_probe {pid : Pid} (h : rt.probePid = some pid) : rt.Has pid := ⟨.healthProbe, h⟩

theorem has_stopCommand {pid : Pid} (h : rt.execStopPid = some pid) : rt.Has pid :=
  ⟨.stopCommand, h⟩

theorem Acted.fork {command : ExecCommand} {pid : Pid} (h : k.spawnDetached u command = .ok pid)
    (hp : rt'.pid = rt.pid) (hg : rt'.group = rt.group)
    (hrec : (rt'.probePid = some pid ∨ rt'.probePid = rt.probePid) ∧
      (rt'.execStopPid = some pid ∨ rt'.execStopPid = rt.execStopPid)) :
    Acted k u rt rt' [.command u pid] := by
  refine ⟨fun _ _ _ hc => ?_, fun _ _ hc => ?_, fun v p hc => ?_, ?_, fun pgid hgroup => ?_⟩
  · cases List.mem_singleton.mp hc
  · cases List.mem_singleton.mp hc
  · cases List.mem_singleton.mp hc
    exact ⟨rfl, command, h⟩
  · have old {o o' : Option Pid} {p : Pid} (ho : o' = some pid ∨ o' = o) (h : o' = some p) :
        o = some p ∨ p = pid := by
      rcases ho with ho | ho
      · exact .inr (Option.some.inj (h.symm.trans ho))
      · exact .inl (ho.symm.trans h)
    have forked {p : Pid} (h : p = pid) : Forked [.command u pid] u p :=
      .inr (h ▸ List.mem_singleton_self _)
    rintro p ⟨role, hrole⟩
    cases role with
    | main => exact .inl (has_main (hp.symm.trans hrole))
    | healthProbe => exact (old hrec.1 hrole).imp has_probe forked
    | stopCommand => exact (old hrec.2 hrole).imp has_stopCommand forked
  · exact .inl (hg.symm.trans hgroup)

theorem runDetached_cases (k : Kernel) (u : UnitName) (config : UnitConfig) (command : ExecCommand) :
    (∃ e, k.runDetached u config command = pure (.error e)) ∨
    ∃ pid, k.spawnDetached u command = .ok pid ∧
      k.runDetached u config command = ⟨.ok pid, [.command u pid]⟩ := by
  unfold Kernel.runDetached
  split
  · exact .inl ⟨_, rfl⟩
  · split
    · exact .inl ⟨_, rfl⟩
    · next hs => exact .inr ⟨_, hs, rfl⟩

theorem acted_escalate {pid : Pid} (h : rt.pid = some pid) :
    Acted k u rt (rt.escalate k cg u pid).val (rt.escalate k cg u pid).calls := by
  unfold escalate
  split
  · refine .signalled ?_ (.of_le (.inl rfl) (.inl rfl) (.inr rfl) (.inl rfl))
    exact .bind (.signalMembers (.inr rfl) cg) (.bind (.killAny (.inr rfl) fun _ => has_stopCommand)
      (.bind (.killProcessGroup (.inr rfl) (has_main h)) .nil))
  · exact .of_le (.inl rfl) (.inl rfl) (.inl rfl) (.inl rfl)

theorem acted_quiesce (k : Kernel) (u : UnitName) (rt : UnitRuntime) :
    Acted k u rt (rt.quiesce k).val (rt.quiesce k).calls :=
  .signalled (.bind (.killAny (.inr rfl) fun _ => has_probe) .nil)
    (.of_le (.inl rfl) (.inr rfl) (.inl rfl) (.inl rfl))

theorem acted_stopLeftovers (k : Kernel) (cg : Cgroup) (u : UnitName) (rt : UnitRuntime) :
    Acted k u rt (rt.stopLeftovers k cg u).val (rt.stopLeftovers k cg u).calls := by
  unfold stopLeftovers
  split
  · exact .of_le (.inl rfl) (.inl rfl) (.inl rfl) (.inr rfl)
  · rw [Traced.bind_val, Traced.bind_calls]
    refine (Acted.signals (.signalMembers (.inl rfl) cg)).trans ?_
    dsimp only
    split
    · exact .signalled (.bind (.signalMembers (.inr rfl) cg) .nil)
        (.of_le (.inl rfl) (.inl rfl) (.inl rfl) (.inl rfl))
    · exact .of_le (.inl rfl) (.inl rfl) (.inl rfl) (.inl rfl)

theorem acted_afterStopSignal {pid : Pid} (h : rt.pid = some pid) (sent : Except Errno Unit) :
    Acted k u rt (rt.afterStopSignal k cg u pid sent).val
      (rt.afterStopSignal k cg u pid sent).calls := by
  unfold afterStopSignal
  split
  · have h : ({ rt with state := .deactivating } : UnitRuntime).pid = some pid := h
    exact (acted_escalate h).after (.of_le (.inl rfl) (.inl rfl) (.inl rfl) (.inl rfl))
  · split
    · exact .of_le (.inr rfl) (.inl rfl) (.inl rfl) (.inl rfl)
    · exact .refl rt

theorem acted_stopProcess {pid : Pid} (h : rt.pid = some pid) :
    Acted k u rt (rt.stopProcess k cg u pid).val (rt.stopProcess k cg u pid).calls := by
  unfold stopProcess
  split
  · exact (Acted.signals (.signalMembers (.inl rfl) cg)).trans
      ((Acted.signals (.signalProcess (.inl rfl) (has_main h))).trans (acted_afterStopSignal h _))
  · rcases runDetached_cases k u rt.config rt.config.execStop with ⟨e, he⟩ | ⟨stopPid, hs, he⟩
    · rw [he]
      exact (Acted.signals (.signalMembers (.inl rfl) cg)).trans
        ((Acted.signals (.killProcessGroup (.inl rfl) (has_main h))).trans
          (acted_afterStopSignal h _))
    · have h : ({ rt with execStopPid := some stopPid, state := .deactivating } :
          UnitRuntime).pid = some pid := h
      have hfork : Acted k u rt { rt with execStopPid := some stopPid, state := .deactivating }
          [.command u stopPid] := .fork hs rfl rfl ⟨.inr rfl, .inl rfl⟩
      rw [he, Traced.bind_val, Traced.bind_calls]
      exact hfork.trans (acted_escalate h)

theorem acted_stop (k : Kernel) (cg : Cgroup) (u : UnitName) (rt : UnitRuntime) :
    Acted k u rt (rt.stop k cg u).val (rt.stop k cg u).calls := by
  unfold stop
  split
  · exact .refl rt
  · rw [Traced.bind_val, Traced.bind_calls]
    refine (acted_quiesce k u rt).trans ?_
    split
    · exact acted_stopLeftovers ..
    · next h => exact acted_stopProcess h

theorem acted_unhealthy {pid : Pid} (h : rt.pid = some pid) :
    Acted k u rt (rt.unhealthy k cg u pid).val (rt.unhealthy k cg u pid).calls := by
  unfold unhealthy
  rw [Traced.bind_val, Traced.bind_calls]
  refine (Acted.signals (.killProcessGroup (.inl rfl) (has_main h))).trans ?_
  split
  · dsimp only
    split
    · exact .signalled (.bind (.signalMembers (.inr rfl) cg)
        (.bind (.killProcessGroup (.inr rfl) (has_main h)) .nil))
          (.of_le (.inl rfl) (.inl rfl) (.inl rfl) (.inl rfl))
    · exact .of_le (.inl rfl) (.inl rfl) (.inl rfl) (.inl rfl)
  · split
    · exact .of_le (.inr rfl) (.inl rfl) (.inl rfl) (.inl rfl)
    · exact .of_le (.inl rfl) (.inl rfl) (.inl rfl) (.inl rfl)

theorem acted_finishProbe (k : Kernel) (cg : Cgroup) (u : UnitName) (outcome : ExitOutcome)
    (rt : UnitRuntime) : Acted k u { rt with probePid := none }
      (rt.finishProbe k cg u outcome).val (rt.finishProbe k cg u outcome).calls := by
  unfold finishProbe
  dsimp only
  generalize hrt : ({ rt with probePid := none, probeDeadline := none, healthy := _ } :
    UnitRuntime) = rt₁
  have hle : Acted k u { rt with probePid := none } rt₁ [] := by
    subst hrt
    exact .of_le (.inl rfl) (.inl rfl) (.inl rfl) (.inl rfl)
  split
  · exact hle.trans (.of_le (.inl rfl) (.inl rfl) (.inl rfl) (.inl rfl))
  · split
    · next h => exact (acted_unhealthy (hrt ▸ h)).after hle
    · exact hle.trans (.of_le (.inl rfl) (.inl rfl) (.inl rfl) (.inl rfl))

theorem acted_startTimeout (k : Kernel) (cg : Cgroup) (u : UnitName) (rt : UnitRuntime) :
    Acted k u rt (rt.startTimeout k cg u).val.1 (rt.startTimeout k cg u).calls := by
  unfold startTimeout
  split
  · exact .of_le (.inl rfl) (.inl rfl) (.inl rfl) (.inl rfl)
  · split
    · have hs : (if rt.config.timeoutStopSec = 0 then sigKill else sigTerm) = sigTerm ∨
          (if rt.config.timeoutStopSec = 0 then sigKill else sigTerm) = sigKill := by
        split
        · exact .inr rfl
        · exact .inl rfl
      exact .signalled (.bind (.signalMembers hs cg) (.bind (.signalAny hs fun _ => has_main) .nil))
        (.of_le (.inl rfl) (.inl rfl) (.inl rfl) (.inl rfl))
    · exact .refl rt

theorem acted_kill (k : Kernel) (cg : Cgroup) (u : UnitName) (rt : UnitRuntime) :
    Acted k u rt (rt.kill k cg u).val.1 (rt.kill k cg u).calls := by
  have gone : Acted k u rt { rt with killAt := none, execStopPid := none } [] :=
    .of_le (.inl rfl) (.inl rfl) (.inr rfl) (.inl rfl)
  unfold kill
  split
  · simp only [Traced.bind_val, Traced.bind_calls]
    refine (Acted.signalled (.killAny (.inr rfl) fun _ => has_stopCommand) gone).trans
      ((Acted.signals (.signalMembers (.inr rfl) cg)).trans ?_)
    split
    · next h =>
      exact .signalled (.bind (.signalProcess (.inr rfl) (has_main h)) .nil) (.refl _)
    · dsimp only [Traced.pure_val, Traced.pure_calls]
      split
      · exact .of_le (.inl rfl) (.inl rfl) (.inl rfl) (.inr rfl)
      · exact .refl _
  · exact .refl rt

theorem acted_failOwn (k : Kernel) (cg : Cgroup) (u : UnitName) (rt : UnitRuntime) :
    Acted k u rt (rt.failOwn k cg u).val (rt.failOwn k cg u).calls := by
  have hgroup : ∀ g, (rt.pid.bind fun _ => rt.group) = some g → rt.Led g := by
    intro g hg
    obtain ⟨_, -, hg⟩ := Option.bind_eq_some_iff.mp hg
    exact hg
  unfold failOwn
  refine .signalled (.bind (.killAnyGroup (.inr rfl) hgroup) (.bind
    (.signalAny (.inr rfl) fun _ => has_main) (.bind (.signalMembers (.inr rfl) _) ?_))) ?_
  · exact .nil
  · dsimp only [Traced.bind_val, Traced.pure_val]
    split
    · exact .of_le (.inl rfl) (.inl rfl) (.inl rfl) (.inl rfl)
    · exact .of_le (.inr rfl) (.inl rfl) (.inl rfl) (.inr rfl)

theorem acted_mainExit (k : Kernel) (u : UnitName) (boot : Bool) (pid : Pid) (outcome : ExitOutcome)
    (rt : UnitRuntime) : Acted k u { rt with pid := none }
      (rt.mainExit k boot pid outcome).val.1 (rt.mainExit k boot pid outcome).calls := by
  have hgroup : ∀ g, (rt.group.filter fun group => k.groupHasOtherMembers group pid) = some g →
      ({ rt with pid := none } : UnitRuntime).Led g :=
    fun g hg => (Option.filter_eq_some_iff.mp hg).1
  refine .signalled (.bind (.bind (.killAny (.inr rfl) fun _ h => ⟨.healthProbe, h⟩)
    (.bind (.killAnyGroup (.inr rfl) hgroup) .nil)) .nil) ?_
  have hs := rt.settled_mainExit k boot pid outcome
  generalize (rt.mainExit k boot pid outcome).val = r at hs
  cases hs <;> exact .of_le (.inl rfl) (.inr rfl) (.inl rfl) (.inr rfl)

theorem acted_clearLeftovers (k : Kernel) (u : UnitName) (rt : UnitRuntime) :
    Acted k u rt (rt.clearLeftovers k).val (rt.clearLeftovers k).calls := by
  have hgroup : ∀ g, rt.group.filter k.groupAlive = some g → rt.Led g :=
    fun g hg => (Option.filter_eq_some_iff.mp hg).1
  have hle : (rt.group.filter fun group => !k.groupAlive group) = rt.group ∨
      (rt.group.filter fun group => !k.groupAlive group) = none := by
    cases rt.group with
    | none => exact .inl rfl
    | some g =>
      rw [Option.filter_some]
      split
      · exact .inl rfl
      · exact .inr rfl
  unfold clearLeftovers
  split
  · exact .refl rt
  · exact .signalled (.bind (.killAnyGroup (.inr rfl) hgroup) (.bind
      (.killAny (.inr rfl) fun _ => has_probe) (.bind (.killAny (.inr rfl) fun _ => has_stopCommand)
        .nil))) (.of_le (.inl rfl) (.inr rfl) (.inr rfl) hle)

theorem acted_registerSpawn {main : Pid} {pending : Bool} (h : k.spawn u = .ok (main, pending))
    (oomKills : Option ℕ) :
    Acted k u rt (rt.registerSpawn k main oomKills) [.spawn u main] := by
  have hforked : Forked [.spawn u main] u main := .inl (List.mem_singleton_self _)
  have hgroup : (rt.registerSpawn k main oomKills).group =
      (k.getpgid main).toOption.filter (· = main) := by
    unfold registerSpawn
    dsimp only
    split <;> rfl
  refine ⟨fun _ _ _ hc => ?_, fun v p hc => ?_, fun _ _ hc => ?_, ?_, fun g hg => ?_⟩
  · cases List.mem_singleton.mp hc
  · cases List.mem_singleton.mp hc
    exact ⟨rfl, pending, h⟩
  · cases List.mem_singleton.mp hc
  · rintro p ⟨role, hrole⟩
    rcases pidIn_registerSpawn hrole with hp | ⟨-, rfl⟩
    · exact .inl ⟨role, hp⟩
    · exact .inr hforked
  · have heq := (Option.filter_eq_some_iff.mp (hgroup.symm.trans hg)).2
    exact .inr (.inr (of_decide_eq_true heq ▸ hforked))

theorem acted_spawnProcess (k : Kernel) (cg : Cgroup) (u : UnitName) (rt : UnitRuntime) :
    Acted k u rt (rt.spawnProcess k cg u).val.1 (rt.spawnProcess k cg u).calls := by
  unfold spawnProcess
  split
  · exact .refl rt
  · dsimp only
    split
    · exact .refl rt
    · split
      · exact .refl rt
      · split
        · exact .refl rt
        · next h => exact acted_registerSpawn h _

theorem acted_beginSpawn (k : Kernel) (cg : Cgroup) (u : UnitName) (rt : UnitRuntime) :
    Acted k u rt (rt.beginSpawn k cg u).val.1 (rt.beginSpawn k cg u).calls := by
  unfold beginSpawn
  rw [Traced.bind_val, Traced.bind_calls]
  refine (acted_clearLeftovers k u rt).trans ?_
  split
  · exact .refl _
  · split
    · exact .of_le (.inl rfl) (.inl rfl) (.inl rfl) (.inl rfl)
    · exact acted_spawnProcess ..

theorem acted_execStopExit (k : Kernel) (cg : Cgroup) (u : UnitName) (outcome : ExitOutcome)
    (rt : UnitRuntime) : Acted k u { rt with execStopPid := none }
      (rt.execStopExit k cg u outcome).val (rt.execStopExit k cg u outcome).calls := by
  unfold execStopExit
  split
  · exact .signalled (.bind (.signalMembers (.inl rfl) cg)
      (.bind (.signalAny (.inl rfl) fun _ h => ⟨.main, h⟩) .nil)) (.refl _)
  · exact .refl _

theorem acted_retire (k : Kernel) (u : UnitName) (rt : UnitRuntime) :
    Acted k u rt (rt.retire k).val (rt.retire k).calls :=
  .signalled (.bind (.killAny (.inr rfl) fun _ => has_probe) .nil)
    (.of_le (.inl rfl) (.inr rfl) (.inl rfl) (.inl rfl))

theorem acted_healthProbe (k : Kernel) (u : UnitName) (rt : UnitRuntime) :
    Acted k u rt (rt.healthProbe k u).val.1 (rt.healthProbe k u).calls := by
  unfold healthProbe
  split
  · exact .of_le (.inl rfl) (.inl rfl) (.inl rfl) (.inl rfl)
  · split
    · exact .refl rt
    · split
      · exact .refl rt
      · rcases runDetached_cases k u rt.config rt.config.healthCheck with ⟨e, he⟩ | ⟨pid, hs, he⟩
        · dsimp only
          rw [he]
          exact .of_le (.inl rfl) (.inl rfl) (.inl rfl) (.inl rfl)
        · dsimp only
          rw [he]
          exact Acted.fork hs rfl rfl ⟨.inl rfl, .inr rfl⟩

theorem acted_probeTimeout (k : Kernel) (u : UnitName) (rt : UnitRuntime) :
    Acted k u rt (rt.probeTimeout k).val.1 (rt.probeTimeout k).calls := by
  unfold probeTimeout
  split
  · dsimp only
    split
    · next h =>
      exact .signalled (.bind (.killProcessGroup (.inr rfl) (has_probe h)) .nil)
        (.of_le (.inl rfl) (.inl rfl) (.inl rfl) (.inl rfl))
    · exact .of_le (.inl rfl) (.inl rfl) (.inl rfl) (.inl rfl)
  · exact .refl rt

/-! ### The unit after an exit -/

/-- The unit without a process that has exited. -/
def without (pid : Pid) (rt : UnitRuntime) : UnitRuntime :=
  { rt with
    pid := rt.pid.filter (· ≠ pid)
    probePid := rt.probePid.filter (· ≠ pid)
    execStopPid := rt.execStopPid.filter (· ≠ pid) }

theorem has_of_without {pid p : Pid} (h : (rt.without pid).Has p) : rt.Has p ∧ p ≠ pid := by
  obtain ⟨role, hrole⟩ := h
  have old {o : Option Pid} (h : o.filter (· ≠ pid) = some p) : o = some p ∧ p ≠ pid := by
    simpa using Option.filter_eq_some_iff.mp h
  cases role with
  | main => exact ⟨⟨.main, (old hrole).1⟩, (old hrole).2⟩
  | healthProbe => exact ⟨⟨.healthProbe, (old hrole).1⟩, (old hrole).2⟩
  | stopCommand => exact ⟨⟨.stopCommand, (old hrole).1⟩, (old hrole).2⟩

/-- Only the roles in which the process was recorded change. -/
theorem acted_without {pid : Pid} (hp : rt.pid ≠ some pid ∧ rt'.pid = rt.pid ∨ rt'.pid = none)
    (hq : rt.probePid ≠ some pid ∧ rt'.probePid = rt.probePid ∨ rt'.probePid = none)
    (he : rt.execStopPid ≠ some pid ∧ rt'.execStopPid = rt.execStopPid ∨ rt'.execStopPid = none)
    (hg : rt'.group = rt.group) : Acted k u (rt.without pid) rt' [] := by
  have kept {o o' : Option Pid} (h : o ≠ some pid ∧ o' = o ∨ o' = none) :
      o' = o.filter (· ≠ pid) ∨ o' = none := by
    refine h.imp (fun h => h.2.trans ?_) id
    cases o with
    | none => rfl
    | some p =>
      have hne : p ≠ pid := fun heq => h.1 (congrArg some heq)
      simp [Option.filter_some, hne]
  exact .of_le (kept hp) (kept hq) (kept he) (.inl hg)

end UnitRuntime

end Rinit
