import Rinit.Ops

/-!
# The life of a unit

`Move` is what a touch does to the life of a unit : to its state, its process, its restart
timer, its probe and its intention to restart. `move_of_touch` reads it off the operations,
and the invariants of a unit's life are shown for the moves : a failed unit has no process
(`Reachable.failedIdle`).
-/

namespace Rinit

open Relation

/-- A move of the life of `u`, with what of the operation it rests on. -/
inductive Move (k : Kernel) (m : UnitManager) (u : UnitName) (op : Op) (rt rt' : UnitRuntime) : Prop
  | quiet (hs : rt'.state = rt.state) (hp : rt'.pid = rt.pid)
    (ht : rt'.restartAt = rt.restartAt ∨ rt'.restartAt = none)
    (hf : rt'.restartAfterStop = rt.restartAfterStop ∨ rt'.restartAfterStop = false)
    (hq : rt'.probePid = rt.probePid ∨ rt'.probePid = none ∨ rt.state = .active)
  | settled (hop : (∃ source, op = .requestStop u source) ∨
      (∃ v, op = .stopConflicts v) ∧ UnitManager.needsStop rt = true)
    (h : rt.state = .inactive ∨ rt.state = .activeExited ∨ rt.state.isFailed = true)
    (hs : rt'.state = .inactive) (hp : rt'.pid = rt.pid) (ht : rt'.restartAt = rt.restartAt)
    (hf : rt'.restartAfterStop = rt.restartAfterStop) (hq : rt'.probePid = rt.probePid)
  | stopped (hop : op = .stopUnit u ∨ op = .restartUnit u ∧ rt.state.isFailed = false ∨
      (∃ v, op = .stopConflicts v) ∧ UnitManager.needsStop rt = true)
    (h : rt.state ≠ .deactivating)
    (hs : rt'.state = .inactive ∧ rt'.pid = none ∨ rt'.state = .deactivating ∧ rt'.pid = rt.pid)
    (ht : rt'.restartAt = none) (hf : rt'.restartAfterStop = false) (hq : rt'.probePid = none)
  | flagged (hop : op = .restartUnit u) (h : rt.state = .deactivating) (hs : rt'.state = rt.state)
    (hp : rt'.pid = rt.pid) (ht : rt'.restartAt = rt.restartAt) (hq : rt'.probePid = rt.probePid)
  | cleared (hop : op = .resetFailed u) (h : rt.state.isFailed = true) (hs : rt'.state = .inactive)
    (hp : rt'.pid = rt.pid) (ht : rt'.restartAt = rt.restartAt)
    (hf : rt'.restartAfterStop = rt.restartAfterStop) (hq : rt'.probePid = rt.probePid)
  | failed (hop : op = .failStart u ∨ op = .reachTarget u) (h : rt.state.isFailed = false)
    (hs : rt'.state.isFailed = true) (hp : rt'.pid = none) (ht : rt'.restartAt = none)
    (hf : rt'.restartAfterStop = rt.restartAfterStop) (hq : rt'.probePid = rt.probePid)
  | dragged {root : UnitName} (hop : FailsUnit k m op root) (hne : u ≠ root)
    (hr : Fails m.units root u) (hrt : m.get u = some rt) (h : rt.state.isFailed = false)
    (hs : rt'.state.isFailed = true) (hn : rt.pid = none) (hp : rt'.pid = none)
    (ht : rt'.restartAt = rt.restartAt)
    (hf : rt'.restartAfterStop = rt.restartAfterStop) (hq : rt'.probePid = rt.probePid)
  | reached (hop : op = .reachTarget u) (h : rt.state.isFailed = false) (hs : rt'.state = .active)
    (hp : rt'.pid = rt.pid) (ht : rt'.restartAt = rt.restartAt)
    (hf : rt'.restartAfterStop = rt.restartAfterStop) (hq : rt'.probePid = rt.probePid)
  | noProcess (hop : op = .beginSpawnUnit u) (h : rt.spawns = false) (hs : rt'.state = .active)
    (hp : rt'.pid = none) (ht : rt'.restartAt = rt.restartAt)
    (hf : rt'.restartAfterStop = rt.restartAfterStop) (hq : rt'.probePid = none)
  | spawned (hop : op = .beginSpawnUnit u) (h : rt.spawns = true) (hn : rt.pid = none)
    (hs : rt'.state = .starting ∨ rt'.state = .active) (hp : rt'.pid.isSome = true)
    (ht : rt'.restartAt = none) (hf : rt'.restartAfterStop = rt.restartAfterStop)
    (hq : rt'.probePid = none)
  | ready (h : rt.state = .starting) (hs : rt'.state = .active ∨ rt'.state = .activeExited)
    (hp : rt'.pid = rt.pid) (ht : rt'.restartAt = rt.restartAt)
    (hf : rt'.restartAfterStop = rt.restartAfterStop) (hq : rt'.probePid = rt.probePid)
    (hop : ∃ message, op = .onNotify u message)
  | unhealthy {pid : Pid} {outcome : ExitOutcome} (hop : op = .onChildExit pid outcome)
    (h : rt.probePid = some pid) (hpid : rt.pid.isSome = true)
    (hs : rt'.state = .deactivating ∧ rt'.pid = rt.pid ∨ rt'.state = .inactive ∧ rt'.pid = none)
    (ht : rt'.restartAt = rt.restartAt) (hq : rt'.probePid = none)
  | daemon {pid : Pid} {outcome : ExitOutcome} (hop : op = .onChildExit pid outcome)
    (h : rt.state = .starting) (hpid : rt.pid = some pid) (hs : rt'.state = .active)
    (hp : rt'.pid.isSome = true) (ht : rt'.restartAt = rt.restartAt)
    (hf : rt'.restartAfterStop = rt.restartAfterStop) (hq : rt'.probePid = rt.probePid)
  | exited {pid : Pid} {outcome : ExitOutcome} (hop : op = .onChildExit pid outcome)
    (hpid : rt.pid = some pid) (hs : rt'.state ≠ .restartWait) (hp : rt'.pid = none)
    (ht : rt'.restartAt = rt.restartAt) (hq : rt'.probePid = none)
  | waiting {pid : Pid} {outcome : ExitOutcome} (hop : op = .onChildExit pid outcome)
    (hpid : rt.pid = some pid) (hs : rt'.state = .restartWait) (hp : rt'.pid = none)
    (ht : rt'.restartAt.isSome = true) (hq : rt'.probePid = none)
    (hd : rt.state ≠ .inactive ∧ (rt.state = .deactivating → rt.restartAfterStop = true))
  | killed (hop : op = .dueKills) (h : rt.state = .deactivating) (hn : rt.pid = none)
    (hs : rt'.state = .inactive) (hp : rt'.pid = none) (ht : rt'.restartAt = rt.restartAt)
    (hf : rt'.restartAfterStop = rt.restartAfterStop) (hq : rt'.probePid = rt.probePid)

namespace Move

variable {k : Kernel} {m : UnitManager} {u : UnitName} {op : Op} {rt : UnitRuntime}

theorem of_quiet_eq {rt' : UnitRuntime} (hs : rt'.state = rt.state) (hp : rt'.pid = rt.pid)
    (ht : rt'.restartAt = rt.restartAt) (hf : rt'.restartAfterStop = rt.restartAfterStop)
    (hq : rt'.probePid = rt.probePid) : Move k m u op rt rt' :=
  .quiet hs hp (.inl ht) (.inl hf) (.inl hq)

theorem of_settle (hop : (∃ source, op = .requestStop u source) ∨
    (∃ v, op = .stopConflicts v) ∧ UnitManager.needsStop rt = true) :
    Move k m u op rt (rt.settle .stopped) := by
  rcases rt.settle_eq .stopped with heq | ⟨heq, h⟩ <;> rw [heq]
  · exact of_quiet_eq rfl rfl rfl rfl rfl
  · exact .settled hop h rfl rfl rfl rfl rfl

theorem of_stop (hop : op = .stopUnit u ∨ op = .restartUnit u ∧ rt.state.isFailed = false ∨
    (∃ v, op = .stopConflicts v) ∧ UnitManager.needsStop rt = true) :
    Move k m u op rt (rt.stop k m.cgroup u).val := by
  have hs := rt.stopped_stop k m.cgroup u
  generalize (rt.stop k m.cgroup u).val = rt' at hs
  cases hs with
  | busy h => exact of_quiet_eq rfl rfl rfl rfl rfl
  | gone h hp group => exact .stopped hop h (.inl ⟨rfl, hp⟩) rfl rfl rfl
  | delivered h => exact .stopped hop h (.inr ⟨rfl, rfl⟩) rfl rfl rfl
  | refused h => exact .quiet rfl rfl (.inr rfl) (.inr rfl) (.inr (.inl rfl))

theorem of_failOwn (hop : op = .failStart u ∨ op = .reachTarget u ∨ rt.state.isFailed = true) :
    Move k m u op rt (rt.failOwn k m.cgroup u).val := by
  rw [UnitRuntime.failOwn_val]
  split
  · exact .quiet rfl rfl (.inr rfl) (.inl rfl) (.inl rfl)
  · next h =>
    refine .failed ?_ (by simpa using h) rfl rfl rfl rfl rfl
    rcases hop with hop | hop | hop
    · exact .inl hop
    · exact .inr hop
    · exact absurd hop h

theorem of_beginSpawn : Move k m u (.beginSpawnUnit u) rt (rt.beginSpawn k m.cgroup u).val.1 := by
  have hs := rt.spawned_beginSpawn k m.cgroup u
  generalize (rt.beginSpawn k m.cgroup u).val.1 = rt' at hs
  cases hs with
  | running => exact of_quiet_eq rfl rfl rfl rfl rfl
  | kept => exact .quiet rfl rfl (.inl rfl) (.inl rfl) (.inr (.inl rfl))
  | noProcess h hsp => exact .noProcess rfl hsp rfl h rfl rfl rfl
  | spawned h hsp hp hst hra hpp hflag => exact .spawned rfl hsp h hst (by simp [hp]) hra hflag hpp

theorem of_finishProbe {pid : Pid} (outcome : ExitOutcome) (h : rt.probePid = some pid) :
    Move k m u (.onChildExit pid outcome) rt (rt.finishProbe k m.cgroup u outcome).val := by
  have hs := rt.probed_finishProbe k m.cgroup u outcome
  generalize (rt.finishProbe k m.cgroup u outcome).val = rt' at hs
  cases hs with
  | noted => exact .quiet rfl rfl (.inl rfl) (.inl rfl) (.inr (.inl rfl))
  | stopping hp => exact .unhealthy rfl h hp (.inl ⟨rfl, rfl⟩) rfl rfl
  | gone hp => exact .unhealthy rfl h hp (.inr ⟨rfl, rfl⟩) rfl rfl

theorem of_mainExit {pid : Pid} (outcome : ExitOutcome) (h : rt.pid = some pid) :
    Move k m u (.onChildExit pid outcome) rt
      (rt.mainExit k m.bootInProgress pid outcome).val.1 := by
  have hd (hw : (rt.mainExit k m.bootInProgress pid outcome).val.1.state = .restartWait) :
      rt.state ≠ .inactive ∧ (rt.state = .deactivating → rt.restartAfterStop = true) := by
    rw [UnitRuntime.mainExit_val] at hw
    refine ⟨fun hin => ?_, fun hdeact => ?_⟩
    · rw [UnitRuntime.settleExit_of_inactive k (rt.reaped outcome) _ _ hin] at hw
      cases hw
    · by_contra hf
      rw [UnitRuntime.settleExit_of_deactivating k (rt.reaped outcome) _ _ hdeact
        (by simpa [UnitRuntime.reaped] using hf)] at hw
      cases hw
  have hs := rt.settled_mainExit k m.bootInProgress pid outcome
  generalize (rt.mainExit k m.bootInProgress pid outcome).val = r at hs hd
  cases hs with
  | state hst => exact .exited rfl h hst rfl rfl rfl
  | wait => exact .waiting rfl h rfl rfl rfl rfl (hd rfl)
  | limit => exact .exited rfl h (by simp) rfl rfl rfl

end Move

/-- What a touch does to the life of a unit. -/
theorem move_of_touch {k : Kernel} {m : UnitManager} {u : UnitName} {op : Op}
    {rt rt' : UnitRuntime} (ht : Touch k m u op rt rt') : Move k m u op rt rt' := by
  cases ht with
  | @redefine config inFlight =>
    obtain ⟨_, _, _, heq, -⟩ := rt.redefine_eq config inFlight
    exact heq ▸ .of_quiet_eq rfl rfl rfl rfl rfl
  | adopt =>
    rcases rt.adoptPendingConfig_eq with heq | ⟨_, _, -, -, heq⟩ <;> rw [heq] <;>
      exact .of_quiet_eq rfl rfl rfl rfl rfl
  | retire => exact .quiet rfl rfl (.inr rfl) (.inr rfl) (.inr (.inl rfl))
  | settle source => exact .of_settle (.inl ⟨source, rfl⟩)
  | conflictSettle v h => exact .of_settle (.inr ⟨⟨v, rfl⟩, h⟩)
  | stop => exact .of_stop (.inl rfl)
  | restartStop h =>
    refine .of_stop (.inr (.inl ⟨rfl, ?_⟩))
    rcases h with h | h | h | h <;> rw [h] <;> rfl
  | conflictStop v h => exact .of_stop (.inr (.inr ⟨⟨v, rfl⟩, h⟩))
  | restartFlag h => exact .flagged rfl h rfl rfl rfl rfl
  | resetFailed =>
    by_cases h : rt.state.isFailed = true
    · exact .cleared rfl h (if_pos h) rfl rfl rfl rfl
    · exact .of_quiet_eq (if_neg h) rfl rfl rfl rfl
  | clearStartLimit | compress | capStartDeadline | noteConnection =>
    exact .of_quiet_eq rfl rfl rfl rfl rfl
  | failStart => exact .of_failOwn (.inl rfl)
  | failTarget => exact .of_failOwn (.inr (.inl rfl))
  | failExit h => exact .of_failOwn (.inr (.inr h))
  | dragDown hop hne hr hrt hp =>
    unfold UnitRuntime.dragDown
    split
    · exact .of_quiet_eq rfl rfl rfl rfl rfl
    · next h => exact .dragged hop hne hr hrt (by simpa using h) rfl hp hp rfl rfl rfl
  | reachTarget h => exact .reached rfl h rfl rfl rfl rfl rfl
  | beginSpawn => exact .of_beginSpawn
  | onNotify message =>
    rcases rt.onNotify_eq k message with ⟨_, heq⟩ | ⟨h, _, _, _, _, hst, heq⟩ <;> rw [heq]
    · exact .of_quiet_eq rfl rfl rfl rfl rfl
    · exact .ready h hst rfl rfl rfl rfl ⟨message, rfl⟩
  | finishProbe outcome h => exact .of_finishProbe outcome h
  | execStopExit outcome =>
    rw [UnitRuntime.execStopExit_val]
    exact .of_quiet_eq rfl rfl rfl rfl rfl
  | @daemonStarted pid daemon outcome _ h hd =>
    refine .daemon rfl ?_ h rfl rfl rfl rfl rfl
    unfold UnitManager.forkedDaemon UnitManager.forks at hd
    split at hd
    · next hf => simp_all
    · cases hd
  | mainExit outcome h => exact .of_mainExit outcome h
  | dueIdle =>
    obtain ⟨_, heq⟩ := rt.dueIdle_eq k
    exact heq ▸ .of_quiet_eq rfl rfl rfl rfl rfl
  | startTimeout =>
    obtain ⟨_, _, heq⟩ := rt.startTimeout_eq k m.cgroup u
    exact heq ▸ .of_quiet_eq rfl rfl rfl rfl rfl
  | kill =>
    rcases rt.kill_eq k m.cgroup u with ⟨_, _, heq⟩ | ⟨h, hn, heq⟩
    · exact heq ▸ .of_quiet_eq rfl rfl rfl rfl rfl
    · exact heq ▸ .killed rfl h hn rfl hn rfl rfl rfl
  | healthProbe =>
    obtain ⟨_, pp, _, heq, hq⟩ := rt.healthProbe_eq k u
    rw [heq]
    exact .quiet rfl rfl (.inl rfl) (.inl rfl) (hq.imp id .inr)
  | probeTimeout =>
    obtain ⟨_, heq⟩ := rt.probeTimeout_eq k
    exact heq ▸ .of_quiet_eq rfl rfl rfl rfl rfl
  | dueRestart =>
    obtain ⟨_, heq, hra⟩ := rt.dueRestart_eq k
    rw [heq]
    exact .quiet rfl rfl hra.symm (.inl rfl) (.inl rfl)

/-! ## Invariants -/

/-- Only a service has a process. -/
structure Serviced (u : UnitName) (rt : UnitRuntime) : Prop where
  filed : Filed u rt
  service : rt.pid.isSome = true → u.ty = .service

theorem Serviced.spawns_iff {u : UnitName} {rt : UnitRuntime} (h : Serviced u rt) :
    rt.spawns = true ↔ u.ty = .service := by
  rw [UnitRuntime.spawns, spawnsProcess, h.filed.kind, decide_eq_true_eq]

theorem serviced_touch {k : Kernel} {m : UnitManager} {u : UnitName} {op : Op}
    {rt rt' : UnitRuntime} (hop : op.Promised) (ht : Touch k m u op rt rt') (h : Serviced u rt) :
    Serviced u rt' := by
  refine ⟨filed_touch hop ht h.filed, fun hs => ?_⟩
  cases move_of_touch ht with
  | quiet _ hp | settled _ _ _ hp | flagged _ _ _ hp | cleared _ _ _ hp | reached _ _ _ hp
  | ready _ _ hp => exact h.service (hp ▸ hs)
  | stopped _ _ hs' => rcases hs' with ⟨-, hp⟩ | ⟨-, hp⟩ <;> simp_all [h.service]
  | unhealthy _ _ hp => exact h.service hp
  | spawned _ hsp => exact h.spawns_iff.mp hsp
  | daemon _ _ hp => exact h.service (by simp [hp])
  | failed _ _ _ hp | dragged _ _ _ _ _ _ _ hp | noProcess _ _ _ hp | exited _ _ _ hp
  | waiting _ _ _ hp | killed _ _ _ _ hp => simp [hp] at hs

theorem Reachable.serviced {m : UnitManager} (h : Reachable m) {u : UnitName} {rt : UnitRuntime}
    (hrt : m.get u = some rt) : Serviced u rt :=
  h.inv (P := Serviced)
    (fun _ _ hn hk => ⟨⟨hn, hk, fun c hc => by cases hc⟩, fun hp => by cases hp⟩)
    (fun _ _ _ _ _ _ hop ht => serviced_touch hop ht) u rt hrt

/-- Only an active unit with a process is probed. -/
def Probing (rt : UnitRuntime) : Prop :=
  rt.pid.isSome = true → rt.state ≠ .active → rt.probePid = none

theorem probing_move {k : Kernel} {m : UnitManager} {u : UnitName} {op : Op}
    {rt rt' : UnitRuntime} (hm : Move k m u op rt rt') (h : Probing rt) : Probing rt' := by
  intro hp' hst
  cases hm with
  | quiet hs hp _ _ hq =>
    have hq0 := h (hp ▸ hp') (hs ▸ hst)
    rcases hq with hq | hq | hact
    · exact hq.trans hq0
    · exact hq
    · exact absurd (hs.trans hact) hst
  | settled _ hs0 _ hp _ _ hq =>
    refine hq.trans (h (hp ▸ hp') fun hact => ?_)
    rw [hact] at hs0
    simp [UnitState.isFailed] at hs0
  | stopped _ _ _ _ _ hq => exact hq
  | flagged _ hd _ hp _ hq => exact hq.trans (h (hp ▸ hp') (by simp [hd]))
  | cleared _ hf _ hp _ _ hq =>
    refine hq.trans (h (hp ▸ hp') fun hact => ?_)
    simp [hact, UnitState.isFailed] at hf
  | reached _ _ hs => exact absurd hs hst
  | spawned _ _ _ _ _ _ _ hq => exact hq
  | ready hs0 _ hp _ _ hq => exact hq.trans (h (hp ▸ hp') (by simp [hs0]))
  | unhealthy _ _ _ _ _ hq => exact hq
  | daemon _ _ _ hs => exact absurd hs hst
  | failed _ _ _ hp | dragged _ _ _ _ _ _ _ hp | noProcess _ _ _ hp | exited _ _ _ hp
  | waiting _ _ _ hp | killed _ _ _ _ hp => simp [hp] at hp'

theorem Reachable.probing {m : UnitManager} (h : Reachable m) {u : UnitName} {rt : UnitRuntime}
    (hrt : m.get u = some rt) : Probing rt :=
  h.inv (P := fun _ rt => Probing rt) (fun _ _ _ _ hp => by cases hp)
    (fun _ _ _ _ _ _ _ ht => probing_move (move_of_touch ht)) u rt hrt

/-- A failed unit has no process. -/
def FailedIdle (rt : UnitRuntime) : Prop := rt.state.isFailed = true → rt.pid = none

theorem failedIdle_move {k : Kernel} {m : UnitManager} {u : UnitName} {op : Op}
    {rt rt' : UnitRuntime} (h : Move k m u op rt rt') (hi : FailedIdle rt) : FailedIdle rt' := by
  intro hf
  cases h with
  | quiet hs hp => exact hp.trans (hi (hs ▸ hf))
  | failed _ _ _ hp | noProcess _ _ _ hp | exited _ _ _ hp | waiting _ _ _ hp
  | dragged _ _ _ _ _ _ _ hp => exact hp
  | settled _ _ hs | cleared _ _ hs | reached _ _ hs | daemon _ _ _ hs | killed _ _ _ hs =>
    rw [hs] at hf
    cases hf
  | stopped _ _ hs =>
    rcases hs with ⟨-, hp⟩ | ⟨hs, -⟩
    · exact hp
    · rw [hs] at hf
      cases hf
  | flagged _ h hs =>
    rw [hs, h] at hf
    cases hf
  | spawned _ _ _ hs | ready _ hs => rcases hs with hs | hs <;> rw [hs] at hf <;> cases hf
  | unhealthy _ _ _ hs => rcases hs with ⟨hs, -⟩ | ⟨hs, -⟩ <;> rw [hs] at hf <;> cases hf

theorem Reachable.failedIdle {m : UnitManager} (h : Reachable m) {u : UnitName} {rt : UnitRuntime}
    (hrt : m.get u = some rt) : FailedIdle rt :=
  h.inv (P := fun _ rt => FailedIdle rt) (fun _ _ _ _ hf => by cases hf)
    (fun _ _ _ _ _ _ _ ht => failedIdle_move (move_of_touch ht)) u rt hrt

end Rinit
