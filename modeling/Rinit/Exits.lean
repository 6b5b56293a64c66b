import Rinit.Life

/-!
# What the exits of a unit's children decide

The exit of a child concerns the unit that tracks it : a probe, a stop command or the main
process. `core` keeps what supervision reads of a unit, and most exits leave it alone. An exit
that does not is the main process's own, or a failed probe that stops the unit or finds the
process gone. The first such exit of a batch decides and the rest of the batch changes nothing
(`core_own_of_decides`).
-/

namespace Rinit

/-- A child the kernel reported. -/
abbrev Exit := Pid × ExitOutcome

/-- What supervision reads of a unit. -/
structure Core where
  config : UnitConfig
  state : UnitState
  backoff : BackoffState
  pid : Option Pid
  restartAt : Option ℕ
  restartAfterStop : Bool
deriving DecidableEq

namespace UnitRuntime

def core (rt : UnitRuntime) : Core :=
  ⟨rt.config, rt.state, rt.backoff, rt.pid, rt.restartAt, rt.restartAfterStop⟩

/-- The state of a unit and its restart timer. -/
def supervision (rt : UnitRuntime) : UnitState × Option ℕ := (rt.state, rt.restartAt)

variable {rt rt' : UnitRuntime}

theorem supervision_of_core (h : rt'.core = rt.core) : rt'.supervision = rt.supervision :=
  congrArg (fun c : Core => (c.state, c.restartAt)) h

theorem pid_of_core (h : rt'.core = rt.core) : rt'.pid = rt.pid := congrArg Core.pid h

theorem state_of_core (h : rt'.core = rt.core) : rt'.state = rt.state := congrArg Core.state h

theorem config_of_core (h : rt'.core = rt.core) : rt'.config = rt.config := congrArg Core.config h

theorem scheduleRestart_congr (h : rt'.core = rt.core) (k : Kernel) (fails : Bool) :
    (rt'.scheduleRestart k fails).1.core = (rt.scheduleRestart k fails).1.core ∧
      (rt'.scheduleRestart k fails).2 = (rt.scheduleRestart k fails).2 := by
  obtain ⟨hc, hs, hb, hp, hr, hf⟩ := Core.mk.inj h
  unfold scheduleRestart
  rw [hb]
  split
  · exact ⟨by simp only [core, hc, hp, hf], rfl⟩
  · exact ⟨by simp only [core, hc, hp, hr, hf], rfl⟩

theorem settleExit_congr (h : rt'.core = rt.core) (k : Kernel) (boot : Bool)
    (outcome : ExitOutcome) :
    (rt'.settleExit k boot outcome).1.core = (rt.settleExit k boot outcome).1.core ∧
      (rt'.settleExit k boot outcome).2 = (rt.settleExit k boot outcome).2 := by
  obtain ⟨hc, hs, hb, hp, hr, hf⟩ := Core.mk.inj h
  unfold settleExit exitEvent policy
  rw [hs, hc, hf]
  split
  · split
    · exact scheduleRestart_congr (by simp only [core, hb, hp, hr]) k false
    · exact ⟨by simp only [core, hb, hp, hr], rfl⟩
  · dsimp only
    split
    · exact ⟨by simp only [core, hb, hp, hr], rfl⟩
    · split
      · exact ⟨by simp only [core, hb, hp, hr], rfl⟩
      · split
        · exact ⟨by simp only [core, hb, hp, hr], rfl⟩
        · split
          · exact ⟨by simp only [core, hb, hp, hr], rfl⟩
          · exact scheduleRestart_congr (by simp only [core, hb, hp, hr]) k true

/-! ## Probes -/

/-- A probe that restarts nothing only notes its verdict. -/
theorem finishProbe_inert (k : Kernel) (cg : Cgroup) (u : UnitName) {outcome : ExitOutcome}
    (h : outcome = .success ∨ rt.config.healthRestartOnFailure = false ∨ rt.pid = none) :
    (rt.finishProbe k cg u outcome).val.core = rt.core := by
  unfold finishProbe
  dsimp only
  split
  · rfl
  · next ho =>
    split
    · next hr hp =>
      rcases h with h | h | h
      · exact absurd h ho
      · simp [h] at hr
      · simp [h] at hp
    · rfl

/-- A failed probe that restarts signals the process : it is stopped, or found gone, or left
as it is. -/
theorem finishProbe_failed (k : Kernel) (cg : Cgroup) (u : UnitName) {outcome : ExitOutcome}
    {pid : Pid} (ho : outcome ≠ .success) (hr : rt.config.healthRestartOnFailure = true)
    (hp : rt.pid = some pid) : (rt.finishProbe k cg u outcome).val.core =
      match (k.killProcessGroup pid sigTerm).val with
      | .ok _ => { rt.core with state := .deactivating, restartAfterStop := true }
      | .error e =>
        if e = eSrch then { rt.core with state := .inactive, pid := none } else rt.core := by
  unfold finishProbe
  dsimp only
  rw [if_neg ho, hr, hp]
  dsimp only
  unfold unhealthy
  rw [Traced.bind_val]
  cases (k.killProcessGroup pid sigTerm).val with
  | ok =>
    dsimp only
    split <;> simp [core, hp]
  | error e =>
    dsimp only
    split <;> simp [core, hp, scheduleHealth]

theorem finishProbe_congr (h : rt'.core = rt.core) (k : Kernel) (cg : Cgroup) (u : UnitName)
    (outcome : ExitOutcome) :
    (rt'.finishProbe k cg u outcome).val.core = (rt.finishProbe k cg u outcome).val.core := by
  have hc := config_of_core h
  have hp := pid_of_core h
  by_cases hinert : outcome = .success ∨ rt.config.healthRestartOnFailure = false ∨ rt.pid = none
  · rw [finishProbe_inert k cg u hinert, finishProbe_inert k cg u (by rw [hc, hp]; exact hinert), h]
  · simp only [not_or, Bool.not_eq_false, Option.ne_none_iff_exists'] at hinert
    obtain ⟨ho, hr, pid, hpid⟩ := hinert
    rw [finishProbe_failed k cg u ho hr hpid,
      finishProbe_failed k cg u ho (by rw [hc, hr]) (hp.trans hpid), h]

theorem finishProbe_children (k : Kernel) (cg : Cgroup) (u : UnitName) (outcome : ExitOutcome)
    (rt : UnitRuntime) : (rt.finishProbe k cg u outcome).val.probePid = none ∧
      (rt.finishProbe k cg u outcome).val.execStopPid = rt.execStopPid ∧
      ((rt.finishProbe k cg u outcome).val.pid = rt.pid ∨
        (rt.finishProbe k cg u outcome).val.pid = none) := by
  have h := probed_finishProbe k cg u rt outcome
  generalize (rt.finishProbe k cg u outcome).val = rt' at h
  cases h with
  | noted => exact ⟨rfl, rfl, .inl rfl⟩
  | stopping => exact ⟨rfl, rfl, .inl rfl⟩
  | gone => exact ⟨rfl, rfl, .inr rfl⟩

end UnitRuntime

/-! ## Main processes -/

namespace Kernel

/-- The process was reaped : no call finds it. -/
structure Gone (k : Kernel) (pid : Pid) : Prop where
  child : 1 < pid
  getpgid : k.getpgid pid = .error eSrch
  kill : ∀ signal, k.kill pid signal = .error eSrch

theorem Gone.killProcessGroup {k : Kernel} {pid : Pid} (h : k.Gone pid) (signal : ℕ) :
    (k.killProcessGroup pid signal).val = .error eSrch := by
  unfold Kernel.killProcessGroup
  rw [if_neg (not_le.mpr h.child), h.getpgid]
  rfl

end Kernel

namespace UnitManager

variable {k : Kernel} {m : UnitManager} {u : UnitName} {rt rt' : UnitRuntime} {e : Exit}

/-- The daemon of a forking unit is a process that runs. -/
theorem not_gone_of_findDaemon {cg : Cgroup} {config : UnitConfig} {pid : Pid}
    (h : findDaemon k cg config u = .ok pid) : ¬k.Gone pid := by
  intro hgone
  unfold findDaemon at h
  obtain ⟨found, -, h⟩ := Runs.bind_eq_ok.mp h
  have hfound : found = pid ∧ (k.kill found 0).isOk = true := by
    by_cases hinit : found ≤ 1
    · simp [hinit, bind, Except.bind, throw, throwThe, MonadExceptOf.throw] at h
    by_cases hself : found = k.getpid
    · simp only [hinit, if_false] at h
      simp [hself, bind, Except.bind, throw, throwThe, MonadExceptOf.throw] at h
    by_cases hok : (k.kill found 0).isOk = true
    · refine ⟨?_, hok⟩
      simp only [hinit, hself, hok, if_false, Bool.not_true, Bool.false_eq_true] at h
      split at h
      · split at h
        · exact Except.ok.inj h
        · cases h
      · obtain ⟨uid, -, h⟩ := Runs.bind_eq_ok.mp h
        split at h
        · split at h
          · exact Except.ok.inj h
          · cases h
        · cases h
    · simp [hinit, hself, hok, bind, Except.bind, throw, throwThe, MonadExceptOf.throw] at h
  obtain ⟨rfl, hok⟩ := hfound
  simp [hgone.kill, Except.isOk, Except.toBool] at hok

/-- What the exit of the main process makes of its unit. -/
def mainExited (k : Kernel) (m : UnitManager) (u : UnitName) (rt : UnitRuntime) (e : Exit) :
    UnitRuntime :=
  match m.forkedDaemon k u rt e.2 with
  | some daemon => rt.markDaemonStarted k daemon
  | none =>
    let r := (rt.mainExit k m.bootInProgress e.1 e.2).val
    if r.2.fails then (r.1.failOwn k m.cgroup u).val else r.1

/-- Whether the exit of the main process fails the unit, and whatever requires it. -/
def exitFails (k : Kernel) (m : UnitManager) (u : UnitName) (rt : UnitRuntime) (e : Exit) : Bool :=
  (m.forkedDaemon k u rt e.2).isNone && (rt.mainExit k m.bootInProgress e.1 e.2).val.2.fails

theorem failOwn_of_failed (k : Kernel) (cg : Cgroup) (u : UnitName)
    (h : rt.state.isFailed = true) : (rt.failOwn k cg u).val =
      { rt with restartAt := none, startDeadline := none, killAt := none } := by
  rw [UnitRuntime.failOwn_val, if_pos h]

theorem forkedDaemon_congr (h : rt'.core = rt.core) (m : UnitManager) (outcome : ExitOutcome) :
    m.forkedDaemon k u rt' outcome = m.forkedDaemon k u rt outcome := by
  unfold forkedDaemon forks
  rw [UnitRuntime.state_of_core h, UnitRuntime.config_of_core h]

theorem mainExit_congr (h : rt'.core = rt.core) (boot : Bool) (e : Exit) :
    (rt'.mainExit k boot e.1 e.2).val.1.core = (rt.mainExit k boot e.1 e.2).val.1.core ∧
      (rt'.mainExit k boot e.1 e.2).val.2 = (rt.mainExit k boot e.1 e.2).val.2 := by
  obtain ⟨hc, hs, hb, hp, hr, hf⟩ := Core.mk.inj h
  rw [UnitRuntime.mainExit_val, UnitRuntime.mainExit_val]
  exact UnitRuntime.settleExit_congr
    (by simp only [UnitRuntime.core, UnitRuntime.reaped, hc, hs, hb, hr, hf]) k boot e.2

theorem exitFails_congr (h : rt'.core = rt.core) (m : UnitManager) (e : Exit) :
    m.exitFails k u rt' e = m.exitFails k u rt e := by
  unfold exitFails
  rw [forkedDaemon_congr h, (mainExit_congr h m.bootInProgress e).2]

theorem mainExited_congr (h : rt'.core = rt.core) (m : UnitManager) (e : Exit) :
    (m.mainExited k u rt' e).core = (m.mainExited k u rt e).core := by
  obtain ⟨hcore, hverdict⟩ := mainExit_congr (k := k) h m.bootInProgress e
  unfold mainExited
  rw [forkedDaemon_congr h]
  split
  · obtain ⟨hc, hs, hb, hp, hr, hf⟩ := Core.mk.inj h
    simp only [UnitRuntime.markDaemonStarted, UnitRuntime.scheduleHealth, UnitRuntime.core, hc, hb,
      hr, hf]
  · dsimp only
    rw [hverdict]
    split
    · next hfails =>
      have hfailed' := (mainExit_of_fails (hverdict ▸ hfails)).1
      rw [failOwn_of_failed k m.cgroup u hfailed',
        failOwn_of_failed k m.cgroup u (mainExit_of_fails hfails).1]
      obtain ⟨hc, hs, hb, hp, hr, hf⟩ := Core.mk.inj hcore
      simp only [UnitRuntime.core, hc, hs, hb, hp, hf]
    · exact hcore

/-- What one exit makes of a unit by itself. -/
def ownExit (k : Kernel) (m : UnitManager) (u : UnitName) (rt : UnitRuntime) (e : Exit) :
    UnitRuntime :=
  if rt.probePid = some e.1 then (rt.finishProbe k m.cgroup u e.2).val
  else if rt.execStopPid = some e.1 then { rt with execStopPid := none }
  else if rt.pid = some e.1 then m.mainExited k u rt e
  else rt

/-- The roles a child can have. -/
inductive OwnExit (k : Kernel) (m : UnitManager) (u : UnitName) (rt : UnitRuntime) (e : Exit) :
    UnitRuntime → Prop
  | probe (h : rt.probePid = some e.1) : OwnExit k m u rt e (rt.finishProbe k m.cgroup u e.2).val
  | stop (hq : rt.probePid ≠ some e.1) (h : rt.execStopPid = some e.1) :
    OwnExit k m u rt e { rt with execStopPid := none }
  | main (hq : rt.probePid ≠ some e.1) (hs : rt.execStopPid ≠ some e.1) (h : rt.pid = some e.1) :
    OwnExit k m u rt e (m.mainExited k u rt e)
  | other (hq : rt.probePid ≠ some e.1) (hs : rt.execStopPid ≠ some e.1)
    (h : rt.pid ≠ some e.1) : OwnExit k m u rt e rt

theorem ownExit_cases (k : Kernel) (m : UnitManager) (u : UnitName) (rt : UnitRuntime) (e : Exit) :
    OwnExit k m u rt e (m.ownExit k u rt e) := by
  unfold ownExit
  split
  · next hq => exact .probe hq
  · next hq =>
    split
    · next hs => exact .stop hq hs
    · next hs =>
      split
      · next hp => exact .main hq hs hp
      · next hp => exact .other hq hs hp

/-- What a list of exits makes of a unit by itself. -/
def own (k : Kernel) (m : UnitManager) (u : UnitName) (rt : UnitRuntime) (l : List Exit) :
    UnitRuntime :=
  l.foldl (m.ownExit k u) rt

/-! ### Which exits decide -/

/-- The main process of a unit is gone with its exit, or the daemon it forked takes over. -/
theorem mainExited_pid (k : Kernel) (m : UnitManager) (u : UnitName) (rt : UnitRuntime) (e : Exit) :
    (m.mainExited k u rt e).pid = none ∨
      ∃ daemon, m.forkedDaemon k u rt e.2 = some daemon ∧ (m.mainExited k u rt e).pid = some daemon ∧
        (m.mainExited k u rt e).probePid = rt.probePid := by
  unfold mainExited
  cases hd : m.forkedDaemon k u rt e.2 with
  | some daemon => exact .inr ⟨daemon, rfl, rfl, rfl⟩
  | none =>
    refine .inl ?_
    have hpid : (rt.mainExit k m.bootInProgress e.1 e.2).val.1.pid = none := by
      have h := rt.settled_mainExit k m.bootInProgress e.1 e.2
      generalize (rt.mainExit k m.bootInProgress e.1 e.2).val = r at h
      cases h <;> rfl
    dsimp only
    split
    · next hf => rw [failOwn_of_failed k m.cgroup u (mainExit_of_fails hf).1, hpid]
    · exact hpid

theorem forkedDaemon_eq_some {outcome : ExitOutcome} {daemon : Pid}
    (h : m.forkedDaemon k u rt outcome = some daemon) :
    rt.state = .starting ∧ ¬k.Gone daemon := by
  unfold forkedDaemon at h
  split at h
  · next hforks =>
    simp only [forks, Bool.and_eq_true, decide_eq_true_eq] at hforks
    refine ⟨hforks.1.1, ?_⟩
    cases hd : findDaemon k m.cgroup rt.config u with
    | error err => simp [hd, Except.toOption] at h
    | ok pid =>
      simp only [hd, Except.toOption, Option.some.injEq] at h
      exact h ▸ not_gone_of_findDaemon hd
  · cases h

/-- The exit of the main process always decides. -/
theorem mainExited_core_ne (he : k.Gone e.1) (hp : rt.pid = some e.1) :
    (m.mainExited k u rt e).core ≠ rt.core := by
  intro h
  have hpid := (UnitRuntime.pid_of_core h).trans hp
  rcases m.mainExited_pid k u rt e with hnone | ⟨daemon, hd, hdaemon, -⟩
  · cases hnone.symm.trans hpid
  · obtain rfl := Option.some.inj (hdaemon.symm.trans hpid)
    exact (forkedDaemon_eq_some hd).2 he

/-- What an exit decides depends on the core of a unit and on the role of the child. -/
theorem ownExit_congr (h : rt'.core = rt.core)
    (hprobe : rt'.probePid = some e.1 ↔ rt.probePid = some e.1)
    (hstop : rt'.execStopPid = some e.1 ↔ rt.execStopPid = some e.1) (m : UnitManager) :
    (m.ownExit k u rt' e).core = (m.ownExit k u rt e).core := by
  by_cases h1 : rt.probePid = some e.1
  · rw [ownExit, ownExit, if_pos h1, if_pos (hprobe.mpr h1)]
    exact UnitRuntime.finishProbe_congr h k m.cgroup u e.2
  · by_cases h2 : rt.execStopPid = some e.1
    · rw [ownExit, ownExit, if_neg h1, if_pos h2, if_neg (h1 ∘ hprobe.mp), if_pos (hstop.mpr h2)]
      exact h
    · rw [ownExit, ownExit, if_neg h1, if_neg h2, if_neg (h1 ∘ hprobe.mp), if_neg (h2 ∘ hstop.mp),
        UnitRuntime.pid_of_core h]
      split
      · exact mainExited_congr h m e
      · exact h

/-- `rt'` is `rt` after some exits that decided nothing, and the exits of `l` are still to
come. -/
structure Waits (rt : UnitRuntime) (l : List Exit) (rt' : UnitRuntime) : Prop where
  core : rt'.core = rt.core
  probe : ∀ e ∈ l, rt'.probePid = some e.1 ↔ rt.probePid = some e.1
  stop : ∀ e ∈ l, rt'.execStopPid = some e.1 ↔ rt.execStopPid = some e.1
  probing : Probing rt'

theorem Waits.ownExit_core {l : List Exit} (h : Waits rt l rt') (he : e ∈ l) :
    (m.ownExit k u rt' e).core = (m.ownExit k u rt e).core :=
  ownExit_congr h.core (h.probe e he) (h.stop e he) m

/-- An exit that decides nothing was a probe's or a stop command's, or is not the unit's. -/
theorem Waits.ownExit {l : List Exit} (h : Waits rt (e :: l) rt') (hn : e.1 ∉ l.map Prod.fst)
    (hg : k.Gone e.1) (hinert : (m.ownExit k u rt e).core = rt.core) :
    Waits rt l (m.ownExit k u rt' e) := by
  have hcore := (h.ownExit_core (k := k) (m := m) (u := u) List.mem_cons_self).trans hinert
  have hne (e' : Exit) (he' : e' ∈ l) : e.1 ≠ e'.1 := fun heq =>
    hn (heq ▸ List.mem_map_of_mem he')
  have hprobe (e' : Exit) (he' : e' ∈ l) := h.probe e' (List.mem_cons_of_mem e he')
  have hstop (e' : Exit) (he' : e' ∈ l) := h.stop e' (List.mem_cons_of_mem e he')
  have hown := m.ownExit_cases k u rt' e
  generalize m.ownExit k u rt' e = rt'' at hcore hown
  cases hown with
  | probe hq =>
    obtain ⟨hq', hs', -⟩ := rt'.finishProbe_children k m.cgroup u e.2
    refine ⟨hcore, fun e' he' => ?_, fun e' he' => ?_, fun _ _ => hq'⟩
    · rw [← hprobe e' he', hq, hq']
      simpa using hne e' he'
    · rw [hs', hstop e' he']
  | stop _ hs =>
    refine ⟨hcore, fun e' he' => hprobe e' he', fun e' he' => ?_, h.probing⟩
    rw [← hstop e' he', hs]
    simpa using hne e' he'
  | main _ _ hp => exact absurd (hcore.trans h.core.symm) (mainExited_core_ne hg hp)
  | other => exact ⟨hcore, hprobe, hstop, h.probing⟩

/-- Exits that decide nothing leave the unit waiting for the rest. -/
theorem Waits.own {l r : List Exit} (h : Waits rt (l ++ r) rt')
    (hn : ((l ++ r).map Prod.fst).Nodup) (hg : ∀ e ∈ l, k.Gone e.1)
    (hinert : ∀ e ∈ l, (m.ownExit k u rt e).core = rt.core) : Waits rt r (m.own k u rt' l) := by
  induction l generalizing rt' with
  | nil => exact h
  | cons e l ih =>
    rw [List.cons_append, List.map_cons, List.nodup_cons] at hn
    have hstep := Waits.ownExit (l := l ++ r) h hn.1 (hg e List.mem_cons_self)
      (hinert e List.mem_cons_self)
    exact ih hstep hn.2 (fun e' he' => hg e' (List.mem_cons_of_mem e he'))
      fun e' he' => hinert e' (List.mem_cons_of_mem e he')

/-! ### After the decision -/

/-- No exit of the batch decides about the unit any more. -/
def Quiet (batch : List Exit) (rt : UnitRuntime) : Prop :=
  ∀ e ∈ batch, rt.pid ≠ some e.1 ∧ (rt.probePid = some e.1 → rt.pid = none)

theorem quiet_of_pid {b : List Exit} (h : rt.pid = none) : Quiet b rt := by
  intro e _
  simp [h]

theorem Quiet.ownExit {batch : List Exit} (h : Quiet batch rt) (he : e ∈ batch) :
    Quiet batch (m.ownExit k u rt e) ∧ (m.ownExit k u rt e).core = rt.core := by
  obtain ⟨hmain, hidle⟩ := h e he
  have hown := m.ownExit_cases k u rt e
  generalize m.ownExit k u rt e = rt'' at hown
  cases hown with
  | probe hq =>
    have hcore : (rt.finishProbe k m.cgroup u e.2).val.core = rt.core :=
      rt.finishProbe_inert k m.cgroup u (.inr (.inr (hidle hq)))
    exact ⟨quiet_of_pid ((UnitRuntime.pid_of_core hcore).trans (hidle hq)), hcore⟩
  | stop => exact ⟨h, rfl⟩
  | main _ _ hp => exact absurd hp hmain
  | other => exact ⟨h, rfl⟩

theorem Quiet.own {batch l : List Exit} (h : Quiet batch rt) (hl : ∀ e ∈ l, e ∈ batch) :
    Quiet batch (m.own k u rt l) ∧ (m.own k u rt l).core = rt.core := by
  induction l generalizing rt with
  | nil => exact ⟨h, rfl⟩
  | cons e l ih =>
    obtain ⟨hquiet, hcore⟩ := h.ownExit (k := k) (m := m) (u := u) (hl e List.mem_cons_self)
    obtain ⟨hrest, hcore'⟩ := ih hquiet fun e' he' => hl e' (List.mem_cons_of_mem e he')
    exact ⟨hrest, hcore'.trans hcore⟩

/-- An exit that decides about a unit is the last one of the batch to do so. -/
theorem quiet_of_decides {batch : List Exit} (hg : ∀ e ∈ batch, k.Gone e.1) (hp : Probing rt)
    (hdecides : (m.ownExit k u rt e).core ≠ rt.core) : Quiet batch (m.ownExit k u rt e) := by
  have hown := m.ownExit_cases k u rt e
  generalize m.ownExit k u rt e = rt'' at hown hdecides
  cases hown with
  | probe hq =>
    by_cases hinert : e.2 = .success ∨ rt.config.healthRestartOnFailure = false ∨ rt.pid = none
    · exact absurd (rt.finishProbe_inert k m.cgroup u hinert) hdecides
    simp only [not_or, Bool.not_eq_false, Option.ne_none_iff_exists'] at hinert
    obtain ⟨ho, hr, pid, hpid⟩ := hinert
    have hcore := rt.finishProbe_failed k m.cgroup u ho hr hpid
    obtain ⟨hq', -, hpid' | hpid'⟩ := rt.finishProbe_children k m.cgroup u e.2
    · intro e' he'
      refine ⟨fun hmain => ?_, fun h => by cases hq'.symm.trans h⟩
      obtain rfl := Option.some.inj ((hpid.symm.trans hpid'.symm).trans hmain)
      rw [(hg e' he').killProcessGroup] at hcore
      have hnone : (rt.finishProbe k m.cgroup u e.2).val.pid = none := congrArg Core.pid hcore
      cases hnone.symm.trans hmain
    · exact quiet_of_pid hpid'
  | stop => exact absurd rfl hdecides
  | main _ _ hpid =>
    rcases m.mainExited_pid k u rt e with hnone | ⟨daemon, hd, hdaemon, hprobe⟩
    · exact quiet_of_pid hnone
    · obtain ⟨hst, hrun⟩ := forkedDaemon_eq_some hd
      have hq : rt.probePid = none := hp (by simp [hpid]) (by simp [hst])
      intro e' he'
      refine ⟨fun h => hrun ?_, fun h => by cases (hprobe.trans hq).symm.trans h⟩
      obtain rfl := Option.some.inj (hdaemon.symm.trans h)
      exact hg e' he'
  | other => exact absurd rfl hdecides

/-- The first exit that decides about a unit says what becomes of it. -/
theorem core_own_of_decides {batch l r : List Exit} (hg : ∀ e ∈ batch, k.Gone e.1)
    (hp : Probing rt) (hl : ∀ e' ∈ l ++ e :: r, e' ∈ batch)
    (hn : ((l ++ e :: r).map Prod.fst).Nodup)
    (hinert : ∀ e' ∈ l, (m.ownExit k u rt e').core = rt.core)
    (hdecides : (m.ownExit k u rt e).core ≠ rt.core) :
    Quiet batch (m.own k u rt (l ++ e :: r)) ∧
      (m.own k u rt (l ++ e :: r)).core = (m.ownExit k u rt e).core := by
  have hwaits : Waits rt (e :: r) (m.own k u rt l) :=
    Waits.own (l := l) (r := e :: r) ⟨rfl, fun _ _ => Iff.rfl, fun _ _ => Iff.rfl, hp⟩ hn
      (fun e' he' => hg e' (hl e' (List.mem_append_left _ he'))) hinert
  have hcore := hwaits.ownExit_core (k := k) (m := m) (u := u) List.mem_cons_self
  have hquiet : Quiet batch (m.ownExit k u (m.own k u rt l) e) :=
    quiet_of_decides hg hwaits.probing (by rw [hcore, hwaits.core]; exact hdecides)
  have hsplit : m.own k u rt (l ++ e :: r) =
      m.own k u (m.ownExit k u (m.own k u rt l) e) r := by
    simp [own, List.foldl_append]
  rw [hsplit]
  obtain ⟨hquiet', hcore'⟩ := hquiet.own (k := k) (m := m) (u := u) (l := r)
    fun e' he' => hl e' (List.mem_append_right _ (List.mem_cons_of_mem e he'))
  exact ⟨hquiet', hcore'.trans hcore⟩

end UnitManager

end Rinit
