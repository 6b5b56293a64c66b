import Rinit.Probes
import Rinit.Readiness

/-!
# How long the supervisor sleeps

Each turn of the main loop runs six passes over the units, one a kind of deadline
(`timerPasses`), and then sleeps until the earliest deadline that is left (`nextDeadlineIn`). A
deadline that a pass ignores and the wait counts would keep the loop awake for nothing, and one
that the wait does not count would be slept through.

A pass ignores a health deadline while a probe runs, so none may be armed then (`ProbeClock`, an
invariant of every run). With it the passes leave every unit at rest (`Rests`) : nothing is due,
and what is not counted is not armed. `timers_settle` : the wait is not zero, and until it is over
the passes do nothing at all.
-/

namespace Rinit

/-! ## The wait -/

/-- The deadlines of a unit that the supervisor waits for. -/
def UnitRuntime.deadlines (rt : UnitRuntime) : List ℕ :=
  rt.restartAt.toList ++ rt.killAt.toList ++ rt.healthAt.toList ++ rt.probeDeadline.toList ++
    rt.idleAt.toList ++ if rt.state = .starting then rt.startDeadline.toList else []

/-- What the kernel answers during each of the six passes. -/
structure TimerKernels where
  restarts : Kernel
  startTimeouts : Kernel
  kills : Kernel
  healthProbes : Kernel
  probeTimeouts : Kernel
  idleUnits : Kernel

/-- One kernel for all six. -/
def TimerKernels.always (k : Kernel) : TimerKernels := ⟨k, k, k, k, k, k⟩

/-- All six passes run at one instant. -/
structure TimerKernels.At (ks : TimerKernels) (now : ℕ) : Prop where
  restarts : ks.restarts.now = now
  startTimeouts : ks.startTimeouts.now = now
  kills : ks.kills.now = now
  healthProbes : ks.healthProbes.now = now
  probeTimeouts : ks.probeTimeouts.now = now
  idleUnits : ks.idleUnits.now = now

namespace UnitManager

/-- Time until the earliest of every per-unit deadline. -/
def nextDeadlineIn (now : ℕ) (m : UnitManager) : Option ℕ :=
  ((m.units.toList.flatMap fun e => e.2.deadlines).map (· - now)).min?

/-- The six passes in the order of the main loop, and what each returns. -/
def timerPasses (ks : TimerKernels) (m : UnitManager) : UnitManager × List (List UnitName) :=
  let restarts := m.dueRestarts ks.restarts
  let startTimeouts := restarts.1.dueStartTimeouts ks.startTimeouts
  let kills := startTimeouts.1.dueKills ks.kills
  let healthProbes := kills.1.dueHealthProbes ks.healthProbes
  let probeTimeouts := healthProbes.1.dueProbeTimeouts ks.probeTimeouts
  let idleUnits := probeTimeouts.1.dueIdleUnits ks.idleUnits
  (idleUnits.1,
    [restarts.2, startTimeouts.2, kills.2, healthProbes.2, probeTimeouts.2, idleUnits.2])

end UnitManager

/-! ## No deadline for a probe that runs -/

/-- A unit that is starting has a process, only an active unit with a process is probed, and
while it is the next probe is not armed. -/
structure ProbeClock (rt : UnitRuntime) : Prop where
  starting : rt.state = .starting → rt.pid.isSome = true
  probing : Probing rt
  clock : rt.probePid.isSome = true → rt.healthAt = none

/-- A probe in flight after a touch was in flight before, and no probe was armed by it; else the
health pass spawned it. -/
theorem clock_touch {k : Kernel} {m : UnitManager} {u : UnitName} {op : Op} {rt rt' : UnitRuntime}
    (hstarting : rt.state = .starting → rt.probePid = none) (ht : Touch k m u op rt rt') :
    rt'.probePid = none ∨ rt'.healthAt = none ∨
      rt'.probePid = rt.probePid ∧ rt'.healthAt = rt.healthAt := by
  by_cases hop : op = .dueHealthProbes
  · subst hop
    cases ht with
    | dragDown hop => cases hop
    | healthProbe =>
      unfold UnitRuntime.healthProbe
      split
      · exact .inr (.inl rfl)
      · split
        · exact .inr (.inr ⟨rfl, rfl⟩)
        · next hq =>
          split
          · exact .inr (.inr ⟨rfl, rfl⟩)
          · simp only [Traced.bind_val]
            split
            · exact .inr (.inl rfl)
            · exact .inl (show rt.probePid = none by simpa using hq)
  · rcases probeFields_touch hop ht with hn | ⟨hq, hclock | hs⟩
    · exact .inl hn
    · exact .inr (.inr ⟨hq, hclock⟩)
    · exact .inl (hq.trans (hstarting hs))

theorem probeClock_touch {k : Kernel} {m : UnitManager} {u : UnitName} {op : Op}
    {rt rt' : UnitRuntime} (ht : Touch k m u op rt rt') (h : ProbeClock rt) : ProbeClock rt' where
  probing := probing_move (move_of_touch ht) h.probing
  starting hs := by
    by_cases hop : op = .beginSpawnUnit u
    · subst hop
      cases ht with
      | dragDown hop => cases hop
      | beginSpawn =>
        have hspawned := rt.spawned_beginSpawn k m.cgroup u
        generalize (rt.beginSpawn k m.cgroup u).val.1 = rt' at hspawned hs
        cases hspawned with
        | running => exact h.starting hs
        | kept hn =>
          have hup := h.starting hs
          rw [hn] at hup
          cases hup
        | noProcess => cases hs
        | spawned _ _ hp => rw [hp]; rfl
    · obtain ⟨hs₀, hp⟩ := starting_of_touch ht hop hs
      exact hp ▸ h.starting hs₀
  clock hq := by
    have hstarting : rt.state = .starting → rt.probePid = none := fun hs =>
      h.probing (h.starting hs) (by simp [hs])
    rcases clock_touch hstarting ht with hn | hn | ⟨hprobe, hclock⟩
    · rw [hn] at hq
      cases hq
    · exact hn
    · exact hclock.trans (h.clock (hprobe ▸ hq))

/-- In every run no health deadline is armed while a probe is outstanding. -/
theorem Reachable.probeClock {m : UnitManager} (h : Reachable m) {u : UnitName} {rt : UnitRuntime}
    (hrt : m.get u = some rt) : ProbeClock rt :=
  h.inv (P := fun _ rt => ProbeClock rt)
    (fun _ _ _ _ => ⟨(by cases ·), (by cases ·), (by cases ·)⟩)
    (fun _ _ _ _ _ _ _ ht => probeClock_touch ht) u rt hrt

/-! ## A unit at rest -/

/-- A timer that is not armed, or only goes off after `now`. -/
def Later (now : ℕ) (timer : Option ℕ) : Prop := ∀ due, timer = some due → now < due

theorem later_none (now : ℕ) : Later now none := fun _ h => by cases h

theorem later_of_not_any {now : ℕ} {timer : Option ℕ} (h : ¬timer.any (· ≤ now) = true) :
    Later now timer := by
  rintro due rfl
  simpa using h

/-- Every deadline that the wait counts is later than `now`, and one that it does not count or that
a pass ignores is not armed. -/
structure UnitRuntime.Rests (now : ℕ) (rt : UnitRuntime) : Prop where
  deadlines : ∀ due ∈ rt.deadlines, now < due
  retired : rt.retired = true → rt.restartAt = none
  starting : rt.state ≠ .starting → rt.startDeadline = none
  active : rt.state ≠ .active → rt.healthAt = none

namespace UnitRuntime

variable {k : Kernel} {cg : Cgroup} {u : UnitName} {rt : UnitRuntime} {now : ℕ}

theorem mem_deadlines {due : ℕ} : due ∈ rt.deadlines ↔
    rt.restartAt = some due ∨ rt.killAt = some due ∨ rt.healthAt = some due ∨
      rt.probeDeadline = some due ∨ rt.idleAt = some due ∨
      rt.state = .starting ∧ rt.startDeadline = some due := by
  unfold deadlines
  split_ifs with hs <;> simp [hs]

/-! ### What a pass leaves -/

theorem dueRestart_later : ∃ ra, (rt.dueRestart k).1 = { rt with restartAt := ra } ∧
    Later k.now ra ∧ (rt.retired = true → ra = none) := by
  unfold dueRestart
  split_ifs with hr hdue
  · exact ⟨none, rfl, later_none _, fun _ => rfl⟩
  · exact ⟨none, rfl, later_none _, fun _ => rfl⟩
  · exact ⟨rt.restartAt, rfl, later_of_not_any hdue, fun h => absurd h hr⟩

theorem startTimeout_later : ∃ sd ka,
    (rt.startTimeout k cg u).val.1 = { rt with startDeadline := sd, killAt := ka } ∧
      Later k.now sd ∧ (rt.state ≠ .starting → sd = none) := by
  unfold startTimeout
  split
  · exact ⟨none, rt.killAt, rfl, later_none _, fun _ => rfl⟩
  · next hs =>
    split
    · exact ⟨none, _, rfl, later_none _, fun _ => rfl⟩
    · next hdue =>
      exact ⟨rt.startDeadline, rt.killAt, rfl, later_of_not_any hdue, fun h => absurd h hs⟩

/-- The pass that kills may end a stop, and nothing else changes its state. -/
theorem kill_later : ∃ ka es g st,
    (rt.kill k cg u).val.1 = { rt with killAt := ka, execStopPid := es, group := g, state := st } ∧
      Later k.now ka ∧ (st = rt.state ∨ rt.state = .deactivating ∧ st = .inactive) := by
  unfold kill
  split_ifs with hdue
  · simp only [Traced.bind_val]
    split
    · exact ⟨none, none, rt.group, rt.state, rfl, later_none _, .inl rfl⟩
    · rw [Traced.pure_val]
      split_ifs with hd
      · exact ⟨none, none, none, .inactive, rfl, later_none _, .inr ⟨hd, rfl⟩⟩
      · exact ⟨none, none, rt.group, rt.state, rfl, later_none _, .inl rfl⟩
  · exact ⟨rt.killAt, rt.execStopPid, rt.group, rt.state, rfl, later_of_not_any hdue, .inl rfl⟩

theorem scheduleHealth_later (k : Kernel) (rt : UnitRuntime) :
    Later k.now (rt.scheduleHealth k).healthAt := by
  unfold scheduleHealth
  dsimp only
  split_ifs with h
  · exact later_none _
  · rintro due hdue
    obtain rfl := Option.some.inj hdue
    have hpos : rt.config.healthIntervalSec ≠ 0 := fun h0 => h (by simp [h0])
    have hmax : 0 < Kernel.maxTimeout := by decide
    unfold Kernel.afterSecs Kernel.after
    omega

theorem healthProbe_later (h : ProbeClock rt) : ∃ ha pp pd,
    (rt.healthProbe k u).val.1 = { rt with healthAt := ha, probePid := pp, probeDeadline := pd } ∧
      Later k.now ha ∧ (rt.state ≠ .active → ha = none) := by
  unfold healthProbe
  split_ifs with hs hq hdue
  · exact ⟨none, _, _, rfl, later_none _, fun _ => rfl⟩
  · -- the pass leaves the unit alone, so its clock must be off
    exact ⟨rt.healthAt, _, _, rfl, h.clock hq ▸ later_none _, fun ha => absurd ha hs⟩
  · exact ⟨rt.healthAt, _, _, rfl, later_of_not_any (by simpa using hdue),
      fun ha => absurd ha hs⟩
  · simp only [Traced.bind_val]
    split
    · exact ⟨none, _, _, rfl, later_none _, fun _ => rfl⟩
    · exact ⟨_, _, _, rfl, scheduleHealth_later k _, fun ha => absurd ha hs⟩

theorem probeTimeout_later : ∃ pd, (rt.probeTimeout k).val.1 = { rt with probeDeadline := pd } ∧
    Later k.now pd := by
  unfold probeTimeout
  split_ifs with hdue
  · dsimp only
    split <;> exact ⟨none, rfl, later_none _⟩
  · exact ⟨rt.probeDeadline, rfl, later_of_not_any hdue⟩

theorem dueIdle_later : ∃ ia, (rt.dueIdle k).1 = { rt with idleAt := ia } ∧ Later k.now ia := by
  unfold dueIdle
  split_ifs with hdue
  · exact ⟨none, rfl, later_none _⟩
  · exact ⟨rt.idleAt, rfl, later_of_not_any hdue⟩

/-! ### A pass over a unit at rest -/

theorem Rests.not_due (h : rt.Rests now) {timer : Option ℕ}
    (hmem : ∀ due, timer = some due → due ∈ rt.deadlines) : timer.any (· ≤ now) = false := by
  cases timer with
  | none => rfl
  | some due => simpa using h.deadlines due (hmem due rfl)

theorem Rests.dueRestart (h : rt.Rests k.now) : rt.dueRestart k = (rt, false) := by
  unfold UnitRuntime.dueRestart
  split_ifs with hr hdue
  · exact congrArg (·, false) (by rw [← h.retired hr])
  · rw [h.not_due fun due hd => mem_deadlines.mpr (.inl hd)] at hdue
    cases hdue
  · rfl

theorem Rests.startTimeout (h : rt.Rests k.now) : rt.startTimeout k cg u = pure (rt, false) := by
  unfold UnitRuntime.startTimeout
  split
  · next hs => rw [← h.starting hs]
  · next hs =>
    rw [h.not_due fun due hd => mem_deadlines.mpr (by simp [hd, not_ne_iff.mp hs])]
    rfl

theorem Rests.kill (h : rt.Rests k.now) : rt.kill k cg u = pure (rt, false) := by
  unfold UnitRuntime.kill
  rw [h.not_due fun due hd => mem_deadlines.mpr (by simp [hd])]
  rfl

theorem Rests.healthProbe (h : rt.Rests k.now) : rt.healthProbe k u = pure (rt, false) := by
  have hlater : rt.healthAt.any (· ≤ k.now) = false :=
    h.not_due fun due hd => mem_deadlines.mpr (by simp [hd])
  unfold UnitRuntime.healthProbe
  rw [hlater]
  split
  · next hs => rw [← h.active hs]
  · split <;> rfl

theorem Rests.probeTimeout (h : rt.Rests k.now) : rt.probeTimeout k = pure (rt, false) := by
  unfold UnitRuntime.probeTimeout
  rw [h.not_due fun due hd => mem_deadlines.mpr (by simp [hd])]
  rfl

theorem Rests.dueIdle (h : rt.Rests k.now) : rt.dueIdle k = (rt, false) := by
  unfold UnitRuntime.dueIdle
  rw [h.not_due fun due hd => mem_deadlines.mpr (by simp [hd])]
  rfl

end UnitRuntime

/-! ## The whole manager -/

namespace UnitManager

variable {m : UnitManager} {u : UnitName} {rt : UnitRuntime}

/-- A pass that leaves every unit as it is and makes no call leaves the manager as it is. -/
theorem pass_of_pure {f : UnitName → UnitRuntime → Traced (UnitRuntime × Bool)}
    (h : ∀ u rt, m.get u = some rt → f u rt = pure (rt, false)) : m.pass f = (m, []) := by
  have hmem : ∀ e ∈ m.units.toList, f e.1 e.2 = pure (e.2, false) := fun e he =>
    h e.1 e.2 (Std.ExtTreeMap.mem_toList_iff_getElem?_eq_some.mp he)
  have hunits : (m.units.map fun name rt => (f name rt).val.1) = m.units := by
    refine Std.ExtTreeMap.ext_getElem? fun {u} => ?_
    rw [Std.ExtTreeMap.getElem?_map]
    cases hrt : m.units[u]? with
    | none => rfl
    | some rt => rw [Option.map_some, h u rt hrt, Traced.pure_val]
  have hcalls : (m.units.toList.flatMap fun e => (f e.1 e.2).calls) = [] :=
    List.flatMap_eq_nil_iff.mpr fun e he => by rw [hmem e he, Traced.pure_calls]
  have hnone : (m.units.toList.filter fun e => (f e.1 e.2).val.2) = [] :=
    List.filter_eq_nil_iff.mpr fun e he => by simp [hmem e he]
  rw [pass, hunits, hcalls, hnone, List.append_nil]
  rfl

/-- Over units at rest the six passes do nothing. -/
theorem timerPasses_of_rests {ks : TimerKernels} {now : ℕ} (hks : ks.At now)
    (h : ∀ u rt, m.get u = some rt → rt.Rests now) :
    m.timerPasses ks = (m, [[], [], [], [], [], []]) := by
  have hrestarts : m.dueRestarts ks.restarts = (m, []) := pass_of_pure fun u rt hrt => by
    have hrests := h u rt hrt
    rw [← hks.restarts] at hrests
    rw [hrests.dueRestart]
  have hstarts : m.dueStartTimeouts ks.startTimeouts = (m, []) := pass_of_pure fun u rt hrt => by
    have hrests := h u rt hrt
    rw [← hks.startTimeouts] at hrests
    exact hrests.startTimeout
  have hkills : m.dueKills ks.kills = (m, []) := pass_of_pure fun u rt hrt => by
    have hrests := h u rt hrt
    rw [← hks.kills] at hrests
    exact hrests.kill
  have hprobes : m.dueHealthProbes ks.healthProbes = (m, []) := pass_of_pure fun u rt hrt => by
    have hrests := h u rt hrt
    rw [← hks.healthProbes] at hrests
    exact hrests.healthProbe
  have htimeouts : m.dueProbeTimeouts ks.probeTimeouts = (m, []) :=
    pass_of_pure fun u rt hrt => by
      have hrests := h u rt hrt
      rw [← hks.probeTimeouts] at hrests
      exact hrests.probeTimeout
  have hidle : m.dueIdleUnits ks.idleUnits = (m, []) := pass_of_pure fun u rt hrt => by
    have hrests := h u rt hrt
    rw [← hks.idleUnits] at hrests
    rw [hrests.dueIdle]
  simp only [timerPasses, hrestarts, hstarts, hkills, hprobes, htimeouts, hidle]

/-- A unit after a pass, from the one before. -/
theorem get_of_pass {f : UnitName → UnitRuntime → Traced (UnitRuntime × Bool)}
    (h : (m.pass f).1.get u = some rt) : ∃ rt₀, m.get u = some rt₀ ∧ (f u rt₀).val.1 = rt := by
  rw [get_pass] at h
  exact Option.map_eq_some_iff.mp h

/-- The six passes at one instant leave every unit at rest. -/
theorem rests_timerPasses (h : Reachable m) {ks : TimerKernels} {now : ℕ} (hks : ks.At now)
    (hrt : (m.timerPasses ks).1.get u = some rt) : rt.Rests now := by
  -- back through the passes, to the health pass whose unit needs the invariant of the run
  obtain ⟨rt₅, hrt₅, hidle⟩ := get_of_pass hrt
  obtain ⟨rt₄, hrt₄, htimeout⟩ := get_of_pass hrt₅
  obtain ⟨rt₃, hrt₃, hprobe⟩ := get_of_pass hrt₄
  have hreach : Reachable (((m.dueRestarts ks.restarts).1.dueStartTimeouts
      ks.startTimeouts).1.dueKills ks.kills).1 :=
    .step ks.kills .dueKills (.step ks.startTimeouts .dueStartTimeouts
      (.step ks.restarts .dueRestarts h trivial) trivial) trivial
  have hclock := hreach.probeClock hrt₃
  obtain ⟨rt₂, hrt₂, hkill⟩ := get_of_pass hrt₃
  obtain ⟨rt₁, hrt₁, hstart⟩ := get_of_pass hrt₂
  obtain ⟨rt₀, -, hrestart⟩ := get_of_pass hrt₁
  obtain ⟨ra, heq₁, hra, hretired⟩ := rt₀.dueRestart_later (k := ks.restarts)
  obtain rfl := heq₁.symm.trans hrestart
  obtain ⟨sd, _, heq₂, hsd, hstarting⟩ := UnitRuntime.startTimeout_later (k := ks.startTimeouts)
  obtain rfl := heq₂.symm.trans hstart
  obtain ⟨ka, _, _, st, heq₃, hka, hst⟩ := UnitRuntime.kill_later (k := ks.kills)
  obtain rfl := heq₃.symm.trans hkill
  obtain ⟨ha, _, _, heq₄, hha, hactive⟩ :=
    UnitRuntime.healthProbe_later (k := ks.healthProbes) hclock
  obtain rfl := heq₄.symm.trans hprobe
  obtain ⟨pd, heq₅, hpd⟩ := UnitRuntime.probeTimeout_later (k := ks.probeTimeouts)
  obtain rfl := heq₅.symm.trans htimeout
  obtain ⟨ia, heq₆, hia⟩ := UnitRuntime.dueIdle_later (k := ks.idleUnits)
  obtain rfl := heq₆.symm.trans hidle
  rw [hks.restarts] at hra
  rw [hks.startTimeouts] at hsd
  rw [hks.kills] at hka
  rw [hks.healthProbes] at hha
  rw [hks.probeTimeouts] at hpd
  rw [hks.idleUnits] at hia
  refine ⟨fun due hdue => ?_, hretired, fun hs => ?_, hactive⟩
  · rcases UnitRuntime.mem_deadlines.mp hdue with hd | hd | hd | hd | hd | ⟨-, hd⟩
    · exact hra due hd
    · exact hka due hd
    · exact hha due hd
    · exact hpd due hd
    · exact hia due hd
    · exact hsd due hd
  · rcases hst with rfl | ⟨hd, -⟩
    · exact hstarting hs
    · exact hstarting (by simp [show rt₀.state = .deactivating from hd])

/-- Units at rest stay at rest until the wait is over. -/
theorem rests_of_lt_wait {now later : ℕ}
    (h : ∀ wait, m.nextDeadlineIn now = some wait → later < now + wait)
    (hrests : ∀ u rt, m.get u = some rt → rt.Rests now) :
    ∀ u rt, m.get u = some rt → rt.Rests later := by
  intro u rt hrt
  refine ⟨fun due hdue => ?_, (hrests u rt hrt).retired, (hrests u rt hrt).starting,
    (hrests u rt hrt).active⟩
  have hmem : due - now ∈ (m.units.toList.flatMap fun e => e.2.deadlines).map (· - now) :=
    List.mem_map_of_mem (List.mem_flatMap.mpr
      ⟨(u, rt), Std.ExtTreeMap.mem_toList_iff_getElem?_eq_some.mpr hrt, hdue⟩)
  obtain ⟨wait, hwait⟩ : ∃ wait, m.nextDeadlineIn now = some wait := by
    unfold nextDeadlineIn
    generalize (m.units.toList.flatMap fun e => e.2.deadlines).map (· - now) = waits at hmem
    cases waits with
    | nil => exact absurd hmem List.not_mem_nil
    | cons => exact ⟨_, rfl⟩
  have hle : wait ≤ due - now := (List.min?_eq_some_iff.mp hwait).2 _ hmem
  have hlater := h wait hwait
  have hnow := (hrests u rt hrt).deadlines due hdue
  omega

/-- In every state of a run, after the six timer passes at one instant the wait is not zero, and
the same passes at any instant before it is over return nothing, signal nothing, spawn nothing,
and leave the manager as it is. -/
theorem timers_settle (h : Reachable m) {ks ks' : TimerKernels} {now later : ℕ} (hks : ks.At now)
    (hks' : ks'.At later) :
    (∀ wait, (m.timerPasses ks).1.nextDeadlineIn now = some wait → 0 < wait) ∧
    ((∀ wait, (m.timerPasses ks).1.nextDeadlineIn now = some wait → later < now + wait) →
      (m.timerPasses ks).1.timerPasses ks' =
        ((m.timerPasses ks).1, [[], [], [], [], [], []])) := by
  have hrests : ∀ u rt, (m.timerPasses ks).1.get u = some rt → rt.Rests now := fun u rt hrt =>
    rests_timerPasses h hks hrt
  refine ⟨fun wait hwait => ?_, fun hlater => timerPasses_of_rests hks'
    (rests_of_lt_wait hlater hrests)⟩
  obtain ⟨due, hmem, rfl⟩ := List.mem_map.mp (List.min?_eq_some_iff.mp hwait).1
  obtain ⟨⟨u, rt⟩, hentry, hdue⟩ := List.mem_flatMap.mp hmem
  have hnow := (hrests u rt (Std.ExtTreeMap.mem_toList_iff_getElem?_eq_some.mp hentry)).deadlines
    due hdue
  omega

/-- A service whose probe is in flight : the loop sleeps until the probe has run for too long. -/
theorem timers_settle_probed :
    (probed.timerPasses (.always (.granting 1500 12))).1.nextDeadlineIn 1500 = some 9500 ∧
      (probed.timerPasses (.always (.granting 1500 12))).1.timerPasses
          (.always (.granting 10999 12)) =
        ((probed.timerPasses (.always (.granting 1500 12))).1, [[], [], [], [], [], []]) := by
  have hwait : (probed.timerPasses (.always (.granting 1500 12))).1.nextDeadlineIn 1500 =
      some 9500 := by decide +kernel
  refine ⟨hwait, (timers_settle reachable_probed ⟨rfl, rfl, rfl, rfl, rfl, rfl⟩
    ⟨rfl, rfl, rfl, rfl, rfl, rfl⟩).2 fun wait h => ?_⟩
  obtain rfl := Option.some.inj (hwait.symm.trans h)
  decide

end UnitManager

end Rinit
