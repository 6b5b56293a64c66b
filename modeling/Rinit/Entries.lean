import Rinit.Booting
import Rinit.Reaped

/-!
# The entries of the log

`Goes` is what one entry of the log of a boot does to one unit, and `Orderly` what it does to all
of them : it keeps the frame, a failure lasts, and it is felt by what requires the unit. Each kind
of entry is orderly, a turn of a start among them. From it, `UnitsHold` holds over a growing log :
a unit that was never spawned has no process, a service that is up has been ready, and a failure
has reached all it has to.
-/

namespace Rinit

open Relation

namespace Boot

variable {plan : BootPlan} {k : Kernel} {m : UnitManager} {u : UnitName} {op : Op}
  {rt : UnitRuntime}

/-! ## What one entry does -/

/-- What one entry of the log does to one unit. -/
inductive Goes (e : Logged) (u : UnitName) (rt rt' : UnitRuntime) : Prop
  | quiet (hs : rt'.state = rt.state) (hp : rt'.pid = rt.pid)
    (ht : rt'.restartAt = rt.restartAt ∨ rt'.restartAt = none)
  | failed (hs : rt'.state.isFailed = true) (hp : rt'.pid = none)
    (ht : rt'.restartAt = rt.restartAt ∨ rt'.restartAt = none)
  | reached (hu : u.ty = .target) (hs : rt'.state = .active) (hp : rt'.pid = rt.pid)
    (ht : rt'.restartAt = rt.restartAt)
  | spawned (h : e.Spawns u) (hs : rt'.state = .starting ∨ rt.config.serviceKind = .simple)
  | readied (h : e.Readies rt.config.serviceKind u)
    (hp : rt.pid.isSome = true ∨ rt.state = .starting)
  | lowered (hp : rt.pid.isSome = true ∨ rt.state = .deactivating)
    (hs : rt'.state = .inactive ∨ rt.state.isLate = true)

theorem goes_failStart {e : Logged} {root : UnitName} (k : Kernel) (hm : FailedIdle rt)
    (hrt : m.get u = some rt) : ∃ rt', (m.failStart k root).1.get u = some rt' ∧
      Goes e u rt rt' := by
  rcases UnitManager.get_failStart k root hrt with ⟨-, h⟩ | ⟨-, h | ⟨-, hp, h⟩⟩
  · refine ⟨_, h, ?_⟩
    rw [UnitRuntime.failOwn_val]
    split
    · next hf => exact .failed hf (hm hf) (.inr rfl)
    · exact .failed rfl rfl (.inr rfl)
  · exact ⟨rt, h, .quiet rfl rfl (.inl rfl)⟩
  · refine ⟨_, h, .failed (UnitManager.dragDown_isFailed rt) (by rw [UnitManager.dragDown_pid, hp])
      (.inl ?_)⟩
    unfold UnitRuntime.dragDown
    split <;> rfl

theorem goes_exit (h : Frame plan m) (k : Kernel) (pid : Pid) (outcome : ExitOutcome)
    (hrt : m.get u = some rt) : ∃ rt', (m.onChildExit k pid outcome).1.get u = some rt' ∧
      Goes ⟨k, m, .exit pid outcome, (m.onChildExit k pid outcome).1⟩ u rt rt' := by
  obtain ⟨rt', hrt', hchange⟩ := UnitManager.exitChange_onChildExit k pid outcome hrt
  refine ⟨rt', hrt', ?_⟩
  cases hchange with
  | same => exact .quiet rfl rfl (.inl rfl)
  | probe hprobe hq =>
    have hup (hp : rt.pid.isSome = true) : rt.state = .active := by
      by_contra hs
      cases (h.reachable.probing hrt hp hs).symm.trans hq
    have hp := rt.probed_finishProbe k m.cgroup u outcome
    generalize (rt.finishProbe k m.cgroup u outcome).val = rt' at hp
    cases hp with
    | noted => exact .quiet rfl rfl (.inl rfl)
    | stopping hp => exact .lowered (.inl hp) (.inr (by rw [hup hp]; rfl))
    | gone hp => exact .lowered (.inl hp) (.inl rfl)
  | stopCommand =>
    rw [UnitRuntime.execStopExit_val]
    exact .quiet rfl rfl (.inl rfl)
  | daemon hmain hp hd =>
    have hforks : UnitManager.forks rt outcome = true := by
      by_contra hf
      simp [UnitManager.forkedDaemon, hf] at hd
    simp only [UnitManager.forks, Bool.and_eq_true, decide_eq_true_eq] at hforks
    obtain ⟨⟨-, hkind⟩, rfl⟩ := hforks
    refine .readied ?_ (.inl (by rw [hp]; rfl))
    rw [hkind]
    exact ⟨pid, rfl, hmain, by simp [hrt, hd]⟩
  | settled hmain hp =>
    have hl := (rt.reaped outcome).landed_settleExit k outcome
    have hsome : rt.pid.isSome = true := by rw [hp]; rfl
    rw [UnitRuntime.mainExit_val, h.boot]
    cases hl with
    | down hs => exact .lowered (.inl hsome) (.inl hs)
    | failed hs hp ht => exact .failed hs hp (.inl ht)
    | completed hs hstart hkind ho =>
      refine .readied ?_ (.inl hsome)
      rw [show rt.config.serviceKind = .oneshot from hkind]
      have hstart : rt.state = .starting := hstart
      exact ⟨pid, by rw [ho], hmain, by simpa [hrt] using hstart⟩
    | waiting hs hlate => exact .lowered (.inl hsome) (.inr hlate)
  | failed _ _ _ hf =>
    obtain ⟨hs, hp⟩ := UnitManager.mainExit_of_fails hf
    rw [UnitRuntime.failOwn_val, if_pos hs]
    exact .failed hs hp (.inr rfl)
  | dragged _ _ hp =>
    refine .failed (UnitManager.dragDown_isFailed rt) (by rw [UnitManager.dragDown_pid, hp])
      (.inl ?_)
    unfold UnitRuntime.dragDown
    split <;> rfl

/-- A failure changes no definition. -/
theorem config_failStart (k : Kernel) (m : UnitManager) (root u : UnitName) :
    ((m.failStart k root).1.get u).map UnitRuntime.config =
      (m.get u).map UnitRuntime.config := by
  cases hrt : m.get u with
  | none =>
    cases h : (m.failStart k root).1.get u with
    | none => rfl
    | some rt' =>
      obtain ⟨rt, hrt', -⟩ := (UnitManager.touched_failStart k m root).get_some h
      cases hrt.symm.trans hrt'
  | some rt =>
    rcases UnitManager.get_failStart k root hrt with ⟨rfl, h⟩ | ⟨-, h | ⟨-, -, h⟩⟩ <;> rw [h]
    · exact congrArg some (UnitManager.failOwn_config ..)
    · exact congrArg some (UnitManager.dragDown_config rt)

theorem isFailed_failStart (k : Kernel) (hu : (m.get u).isSome = true) :
    (m.failStart k u).1.isFailed u = true := by
  obtain ⟨rt, hrt⟩ := Option.isSome_iff_exists.mp hu
  rcases UnitManager.get_failStart k u hrt with ⟨-, h⟩ | ⟨hne, -⟩
  · exact (Option.any_eq_true ..).mpr ⟨_, h, UnitManager.failOwn_isFailed ..⟩
  · exact absurd rfl hne

/-- What fails with a unit fails what requires it in turn. -/
theorem propagated_of_failStart {root r : UnitName} (k : Kernel)
    (hroot : (m.get root).isSome = true) (h : r = root ∨ m.isFailed r = false)
    (h' : (m.failStart k root).1.isFailed r = true) :
    UnitManager.Propagated (m.failStart k root).1 r := by
  have hpropagated := UnitManager.propagated_failStart k m root
  by_cases hr : r = root
  · rwa [hr]
  · have hnot := h.resolve_left hr
    obtain ⟨rt', hrt', hf'⟩ := (Option.any_eq_true ..).mp h'
    obtain ⟨rt, hrt, -⟩ := (UnitManager.touched_failStart k m root).get_some hrt'
    have hfails : Fails m.units root r := by
      rcases UnitManager.get_failStart k root hrt with ⟨heq, -⟩ | ⟨-, heq | ⟨hfails, -⟩⟩
      · exact absurd heq hr
      · obtain rfl := Option.some.inj (heq.symm.trans hrt')
        simp [UnitManager.isFailed, hrt, hf'] at hnot
      · exact hfails
    have hafter : Fails (m.failStart k root).1.units root r := by
      refine hfails.mono (config_failStart k m root) fun x rtx hx hp => ?_
      rcases UnitManager.get_failStart k root hx with ⟨-, h⟩ | ⟨-, h | ⟨-, -, h⟩⟩
      · refine ⟨_, h, ?_⟩
        rw [UnitRuntime.failOwn_val]
        split
        · exact hp
        · rfl
      · exact ⟨rtx, h, hp⟩
      · exact ⟨_, h, by rw [UnitManager.dragDown_pid, hp]⟩
    exact fun _ d hd => hpropagated (isFailed_failStart k hroot) d (hafter.trans hd)

/-- The exit of a main process that fails its unit fails what requires it. -/
theorem onChildExit_of_fails {root : UnitName} {pid : Pid} {outcome : ExitOutcome}
    (hmain : m.ExitsMain pid root) (hrt : m.get root = some rt)
    (hd : m.forkedDaemon k root rt outcome = none)
    (hf : (rt.mainExit k m.bootInProgress pid outcome).val.2.fails = true) :
    (m.onChildExit k pid outcome).1 = ((m.put root
      ⟨(rt.mainExit k m.bootInProgress pid outcome).val.1,
        (rt.mainExit k m.bootInProgress pid outcome).calls⟩).failStart k root).1 := by
  unfold UnitManager.onChildExit UnitManager.onMainExit
  rw [hmain.probe, hmain.execStop, hmain.main]
  dsimp only
  rw [hrt]
  dsimp only
  rw [hd]
  dsimp only
  rw [if_pos hf]

/-- A failure that an exit leads to is felt, unless the breaker trips in silence. -/
theorem propagated_exit (h : Frame plan m) (k : Kernel) (pid : Pid) (outcome : ExitOutcome)
    {m' : UnitManager} (hm' : m' = (m.onChildExit k pid outcome).1)
    (hcalm : (⟨k, m, .exit pid outcome, m'⟩ : Logged).Calm) {r : UnitName}
    (hr : (⟨k, m, .exit pid outcome, m'⟩ : Logged).FailsUnit r) : m'.Propagated r := by
  obtain ⟨hnot, hfailed⟩ := hr
  obtain ⟨rt', hrt', hf'⟩ := (Option.any_eq_true ..).mp hfailed
  have htouched := UnitManager.touched_onChildExit k m pid outcome
  rw [← hm'] at htouched
  obtain ⟨rt, hrt, -⟩ := htouched.get_some hrt'
  have hnot : ¬rt.state.isFailed = true := by simpa [UnitManager.isFailed, hrt] using hnot
  obtain ⟨rt'', hrt'', hchange⟩ := UnitManager.exitChange_onChildExit k pid outcome hrt
  rw [← hm'] at hrt''
  obtain rfl := Option.some.inj (hrt''.symm.trans hrt')
  have hput (root : UnitName) {rt₀ : UnitRuntime} (hmain : m.ExitsMain pid root)
      (hroot : m.get root = some rt₀) (hd : m.forkedDaemon k root rt₀ outcome = none)
      (hf : (rt₀.mainExit k m.bootInProgress pid outcome).val.2.fails = true) :
      m'.Propagated r := by
    rw [hm', onChildExit_of_fails hmain hroot hd hf] at hfailed ⊢
    refine propagated_of_failStart k (by simp) ?_ hfailed
    by_cases hr : r = root
    · exact .inl hr
    · refine .inr ?_
      rw [UnitManager.isFailed, UnitManager.get_put, if_neg (Ne.symm hr), hrt]
      simpa using hnot
  cases hchange with
  | same => exact absurd hf' hnot
  | probe =>
    exact absurd ((UnitManager.finishProbe_isFailed (h.reachable.failedIdle hrt) m.cgroup
      outcome).1.mp hf') hnot
  | stopCommand =>
    rw [UnitRuntime.execStopExit_val] at hf'
    exact absurd hf' hnot
  | daemon => cases hf'
  | settled hmain _ _ hfails =>
    have htrips := (rt.mainExit_silent k m.bootInProgress pid outcome).mp ⟨hf', hfails⟩
    have hcalm := hcalm pid outcome r rfl hmain
    simp [hrt, htrips] at hcalm
  | failed hmain _ hd hfails => exact hput r hmain hrt hd hfails
  | @dragged root hmain _ _ rt₀ hroot hfails hd _ => exact hput root hmain hroot hd hfails

/-- What every entry of the log does to the units. -/
structure Orderly (plan : BootPlan) (e : Logged) : Prop where
  frame : Frame plan e.after
  steady : SteadyAll e.before e.after
  goes : ∀ u rt, e.before.get u = some rt → ∃ rt', e.after.get u = some rt' ∧ Goes e u rt rt'
  propagated : ∀ r, e.FailsUnit r → e.after.Propagated r

/-- An exit is taken for one unit, and its failure drags down what requires it. -/
theorem orderly_exit (h : Frame plan m) (k : Kernel) (pid : Pid) (outcome : ExitOutcome)
    (hcalm : (⟨k, m, .exit pid outcome, (m.onChildExit k pid outcome).1⟩ : Logged).Calm) :
    Orderly plan ⟨k, m, .exit pid outcome, (m.onChildExit k pid outcome).1⟩ where
  frame := h.apply k (.onChildExit pid outcome) trivial
  steady := .apply k m (.onChildExit pid outcome) trivial fun _ _ => trivial
  goes _ _ hrt := goes_exit h k pid outcome hrt
  propagated _ hr := propagated_exit h k pid outcome rfl hcalm hr

/-- What a step that spawns, readies and fails nothing does to a unit. -/
inductive Idles (rt rt' : UnitRuntime) : Prop
  | quiet (hs : rt'.state = rt.state) (hp : rt'.pid = rt.pid)
    (ht : rt'.restartAt = rt.restartAt ∨ rt'.restartAt = none)
  | ended (h : rt.state = .deactivating) (hs : rt'.state = .inactive)

theorem Idles.refl (rt : UnitRuntime) : Idles rt rt := .quiet rfl rfl (.inl rfl)

theorem orderly_of_idles {e : Logged} (hbefore : Frame plan e.before)
    (hframe : Frame plan e.after) (hsteady : SteadyAll e.before e.after)
    (h : ∀ u rt, e.before.get u = some rt → ∃ rt', e.after.get u = some rt' ∧ Idles rt rt') :
    Orderly plan e where
  frame := hframe
  steady := hsteady
  goes u rt hrt := by
    obtain ⟨rt', hrt', hidles⟩ := h u rt hrt
    refine ⟨rt', hrt', ?_⟩
    cases hidles with
    | quiet hs hp ht => exact .quiet hs hp ht
    | ended hd hs => exact .lowered (.inr hd) (.inl hs)
  propagated r hr := by
    obtain ⟨hnot, hfailed⟩ := hr
    obtain ⟨rt', hrt', hf'⟩ := (Option.any_eq_true ..).mp hfailed
    obtain ⟨rt, hrt⟩ := hbefore.exists_get hframe hrt'
    obtain ⟨rt'', hrt'', hidles⟩ := h r rt hrt
    obtain rfl := Option.some.inj (hrt''.symm.trans hrt')
    have hnot : ¬rt.state.isFailed = true := by simpa [UnitManager.isFailed, hrt] using hnot
    cases hidles with
    | quiet hs => exact absurd (hs ▸ hf') hnot
    | ended _ hs =>
      rw [hs] at hf'
      cases hf'

/-- A timer passes over every unit. -/
theorem orderly_pass {f : UnitName → UnitRuntime → Traced (UnitRuntime × Bool)}
    (h : Frame plan m) (k : Kernel) (op : Op) (hop : op.Boots) (hs : ∀ u, Spares u op)
    (heq : m.apply k op = (m.pass f).1) (hf : ∀ u rt, Idles rt (f u rt).val.1) :
    Orderly plan ⟨k, m, .pass, (m.pass f).1⟩ := by
  refine orderly_of_idles h (heq ▸ h.apply k op hop)
    (heq ▸ .apply k m op hop.promised fun u _ => hs u) fun u rt hrt => ?_
  exact ⟨_, by rw [UnitManager.get_pass, hrt, Option.map_some], hf u rt⟩

theorem orderly_dueStartTimeouts (h : Frame plan m) (k : Kernel) :
    Orderly plan ⟨k, m, .pass, (m.dueStartTimeouts k).1⟩ := by
  refine orderly_pass h k .dueStartTimeouts trivial (fun _ => trivial) rfl fun u rt => ?_
  obtain ⟨_, _, heq⟩ := rt.startTimeout_eq k m.cgroup u
  rw [heq]
  exact .quiet rfl rfl (.inl rfl)

theorem orderly_dueKills (h : Frame plan m) (k : Kernel) :
    Orderly plan ⟨k, m, .pass, (m.dueKills k).1⟩ := by
  refine orderly_pass h k .dueKills trivial (fun _ => trivial) rfl fun u rt => ?_
  rcases rt.kill_eq k m.cgroup u with ⟨_, _, heq⟩ | ⟨hd, -, heq⟩ <;> rw [heq]
  · exact .quiet rfl rfl (.inl rfl)
  · exact .ended hd rfl

theorem orderly_dueHealthProbes (h : Frame plan m) (k : Kernel) :
    Orderly plan ⟨k, m, .pass, (m.dueHealthProbes k).1⟩ := by
  refine orderly_pass h k .dueHealthProbes trivial (fun _ => trivial) rfl fun u rt => ?_
  obtain ⟨_, _, _, heq, -⟩ := rt.healthProbe_eq k u
  rw [heq]
  exact .quiet rfl rfl (.inl rfl)

theorem orderly_dueProbeTimeouts (h : Frame plan m) (k : Kernel) :
    Orderly plan ⟨k, m, .pass, (m.dueProbeTimeouts k).1⟩ := by
  refine orderly_pass h k .dueProbeTimeouts trivial (fun _ => trivial) rfl fun u rt => ?_
  obtain ⟨_, heq⟩ := rt.probeTimeout_eq k
  rw [heq]
  exact .quiet rfl rfl (.inl rfl)

theorem orderly_dueIdleUnits (h : Frame plan m) (k : Kernel) :
    Orderly plan ⟨k, m, .pass, (m.dueIdleUnits k).1⟩ := by
  refine orderly_pass h k .dueIdleUnits trivial (fun _ => trivial) rfl fun u rt => ?_
  obtain ⟨_, heq⟩ := rt.dueIdle_eq k
  rw [Traced.pure_val, heq]
  exact .quiet rfl rfl (.inl rfl)

theorem idles_dueRestart (k : Kernel) (rt : UnitRuntime) : Idles rt (rt.dueRestart k).1 := by
  obtain ⟨_, heq, ht⟩ := rt.dueRestart_eq k
  rw [heq]
  exact .quiet rfl rfl ht.symm

/-- A message makes a notify unit that is starting ready, or is noted. -/
theorem orderly_notify (h : Frame plan m) (k : Kernel) (v : UnitName)
    (message : UnitRuntime.NotifyMessage)
    (haddressed : (⟨k, m, .notify v message, (m.onNotify k v message).1⟩ : Logged).Addressed) :
    Orderly plan ⟨k, m, .notify v message, (m.onNotify k v message).1⟩ := by
  have hframe : Frame plan (m.onNotify k v message).1 :=
    h.apply k (.onNotify v message) trivial
  have hother {u : UnitName} {rt : UnitRuntime} (hrt : m.get u = some rt) (hv : v ≠ u) :
      (m.onNotify k v message).1.get u = some rt := by
    rw [UnitManager.get_onNotify, if_neg hv, hrt]
  have hown {rt : UnitRuntime} (hrt : m.get v = some rt) :
      (m.onNotify k v message).1.get v = some (rt.onNotify k message).1 := by
    rw [UnitManager.get_onNotify, if_pos rfl, hrt, Option.map_some]
  refine ⟨hframe, .apply k m (.onNotify v message) trivial fun _ _ => trivial,
    fun u rt hrt => ?_, fun r hr => ?_⟩
  · by_cases hv : v = u
    · subst hv
      refine ⟨_, hown hrt, ?_⟩
      by_cases hready : message.ready = true
      · rcases rt.onNotify_eq k message with ⟨_, heq⟩ | ⟨hs, _, _, _, _, -, heq⟩
        · rw [heq]
          exact .quiet rfl rfl (.inl rfl)
        · refine .readied ?_ (.inr hs)
          rw [haddressed v message rt rfl hrt]
          exact ⟨message, rfl, hready, by simpa [hrt] using hs⟩
      · have hstate : (rt.onNotify k message).1.state = rt.state := by
          simp [UnitRuntime.onNotify, hready]
        rcases rt.onNotify_eq k message with ⟨_, heq⟩ | ⟨-, _, _, _, _, -, heq⟩
        all_goals
          rw [heq] at hstate ⊢
          exact .quiet hstate rfl (.inl rfl)
    · exact ⟨rt, hother hrt hv, .quiet rfl rfl (.inl rfl)⟩
  · obtain ⟨hnot, hfailed⟩ := hr
    obtain ⟨rt', hrt', hf'⟩ := (Option.any_eq_true ..).mp hfailed
    obtain ⟨rt, hrt⟩ := h.exists_get hframe hrt'
    have hup : ¬rt.state.isFailed = true := by simpa [UnitManager.isFailed, hrt] using hnot
    refine absurd hf' ?_
    by_cases hv : v = r
    · subst hv
      obtain rfl := Option.some.inj ((hown hrt).symm.trans hrt')
      rcases rt.onNotify_eq k message with ⟨_, heq⟩ | ⟨-, _, _, _, _, hs, heq⟩ <;> rw [heq]
      · exact hup
      · rcases hs with rfl | rfl <;> simp [UnitState.isFailed]
    · obtain rfl := Option.some.inj ((hother hrt hv).symm.trans hrt')
      exact hup

/-- A unit of a level is done with : it is left alone, or its failure is recorded. -/
theorem orderly_failStart (h : Frame plan m) (k : Kernel) (i : Incident) (v : UnitName)
    (hv : (m.get v).isSome = true) : Orderly plan ⟨k, m, i, (m.failStart k v).1⟩ where
  frame := h.apply k (.failStart v) trivial
  steady := .failStart k m v
  goes _ _ hrt := goes_failStart k (h.reachable.failedIdle hrt) hrt
  propagated _ hr := propagated_of_failStart k hv (.inr hr.1) hr.2

theorem orderly_settle (h : Frame plan m) (k : Kernel) (starts : StartCoordinator) (v : UnitName)
    (hv : (m.get v).isSome = true) :
    Orderly plan ⟨k, m, .settle v, (settleService k plan starts m v).1⟩ := by
  have hsame : Orderly plan ⟨k, m, .settle v, m⟩ :=
    orderly_of_idles h h (.refl m) fun u rt hrt => ⟨rt, hrt, .refl rt⟩
  have hfail := orderly_failStart h k (.settle v) v hv
  unfold settleService
  split
  · exact hsame
  · split
    · dsimp only
      split
      · exact hfail
      · exact hsame
    all_goals
      split
      all_goals first
        | exact hsame
        | exact hfail

/-- A target is reached, unless it has failed or something it requires has. -/
theorem orderly_reachTarget (h : Frame plan m) (k : Kernel) (hu : u.ty = .target)
    (hv : (m.get u).isSome = true) :
    Orderly plan ⟨k, m, .settle u, (m.reachTarget k u).1⟩ := by
  obtain ⟨rt, hrt⟩ := Option.isSome_iff_exists.mp hv
  have hframe : Frame plan (m.reachTarget k u).1 := h.apply k (.reachTarget u) hu
  have hsteady : SteadyAll m (m.reachTarget k u).1 :=
    .apply k m (.reachTarget u) hu fun _ _ => trivial
  have hfail := orderly_failStart h k (.settle u) u hv
  unfold UnitManager.reachTarget at hframe hsteady ⊢
  rw [hrt] at hframe hsteady ⊢
  dsimp only at hframe hsteady ⊢
  split
  · exact hfail
  · next hnot =>
    rw [if_neg hnot] at hframe hsteady
    have hget (v : UnitName) := m.get_modify u v fun rt => { rt with state := .active }
    refine ⟨hframe, hsteady, fun v rtv hrtv => ?_, fun r hr => ?_⟩
    · have hrtv : m.get v = some rtv := hrtv
      by_cases hv : u = v
      · subst hv
        exact ⟨{ rtv with state := .active },
          (hget u).trans (by rw [if_pos rfl, hrtv, Option.map_some]), .reached hu rfl rfl rfl⟩
      · exact ⟨rtv, (hget v).trans (by rw [if_neg hv, hrtv]), .quiet rfl rfl (.inl rfl)⟩
    · obtain ⟨hup, hfailed⟩ := hr
      obtain ⟨rt', hrt', hf'⟩ := (Option.any_eq_true ..).mp hfailed
      have hrt' := (hget r).symm.trans hrt'
      split at hrt'
      · next hv =>
        rw [hrt, Option.map_some] at hrt'
        obtain rfl := Option.some.inj hrt'
        cases hf'
      · exact absurd (hup.symm.trans ((Option.any_eq_true ..).mpr ⟨rt', hrt', hf'⟩)) (by simp)

/-! ## Turns -/

/-- The part of a unit that a failed spawn leaves alone. -/
structure SameLife (rt rt' : UnitRuntime) : Prop where
  state : rt'.state = rt.state
  pid : rt'.pid = rt.pid
  restartAt : rt'.restartAt = rt.restartAt
  config : rt'.config = rt.config

theorem Goes.of_sameLife {e : Logged} {rt₁ rt' : UnitRuntime} (h : Goes e u rt₁ rt')
    (hs : SameLife rt rt₁) : Goes e u rt rt' := by
  cases h with
  | quiet h hp ht =>
    exact .quiet (h.trans hs.state) (hp.trans hs.pid) (ht.imp (·.trans hs.restartAt) id)
  | failed h hp ht => exact .failed h hp (ht.imp (·.trans hs.restartAt) id)
  | reached hu h hp ht => exact .reached hu h (hp.trans hs.pid) (ht.trans hs.restartAt)
  | spawned h hk => exact .spawned h (hs.config ▸ hk)
  | readied h hp => exact .readied (hs.config ▸ h) (hs.pid ▸ hs.state ▸ hp)
  | lowered hp h => exact .lowered (hs.pid ▸ hs.state ▸ hp) (hs.state ▸ h)

theorem get_beginSpawnUnit (k : Kernel) (m : UnitManager) (u v : UnitName) :
    (m.beginSpawnUnit k u).1.get v =
      if u = v then (m.get u).map fun rt => (rt.beginSpawn k m.cgroup u).val.1 else m.get v := by
  unfold UnitManager.beginSpawnUnit
  split
  · next hrt =>
    split
    · next huv => rw [← huv, hrt, Option.map_none]
    · rfl
  · next rt hrt => rw [UnitManager.get_put, hrt, Option.map_some]

theorem beginSpawnUnit_snd (k : Kernel) (hrt : m.get u = some rt) :
    (m.beginSpawnUnit k u).2 = (rt.beginSpawn k m.cgroup u).val.2 := by
  unfold UnitManager.beginSpawnUnit
  rw [hrt]

/-- A spawn that fails leaves its unit as it is, but for what an earlier process left behind. -/
theorem sameLife_beginSpawnUnit (k : Kernel) {e : String}
    (he : (m.beginSpawnUnit k u).2 = .error e)
    (hs : ∀ rt, m.get u = some rt → rt.spawns = true) {v : UnitName} {rtv : UnitRuntime}
    (hrt : m.get v = some rtv) :
    ∃ rt', (m.beginSpawnUnit k u).1.get v = some rt' ∧ SameLife rtv rt' := by
  rw [get_beginSpawnUnit]
  by_cases huv : u = v
  · subst huv
    rw [beginSpawnUnit_snd k hrt] at he
    rw [if_pos rfl, hrt, Option.map_some]
    rcases rtv.beginSpawn_cases k m.cgroup u (hs rtv hrt) with
      ⟨-, h⟩ | ⟨-, ⟨-, _, _, _, h⟩ | ⟨⟨_, hok⟩, -⟩⟩
    · exact ⟨_, rfl, by rw [h]; exact ⟨rfl, rfl, rfl, rfl⟩⟩
    · exact ⟨_, rfl, by rw [h]; exact ⟨rfl, rfl, rfl, rfl⟩⟩
    · cases he.symm.trans hok
  · rw [if_neg huv]
    exact ⟨rtv, hrt, rfl, rfl, rfl, rfl⟩

/-- A spawn that does not fail leaves its unit with a process. -/
theorem pid_beginSpawnUnit (k : Kernel) {b : UnitRuntime.SpawnBegin}
    (hok : (m.beginSpawnUnit k u).2 = .ok b) (hrt : m.get u = some rt) (hs : rt.spawns = true) :
    ∃ rt', (m.beginSpawnUnit k u).1.get u = some rt' ∧ rt'.pid.isSome = true := by
  rw [beginSpawnUnit_snd k hrt] at hok
  rw [get_beginSpawnUnit, if_pos rfl, hrt, Option.map_some]
  rcases rt.beginSpawn_cases k m.cgroup u hs with ⟨hp, h⟩ | ⟨-, ⟨⟨_, he⟩, -⟩ | ⟨-, h⟩⟩
  · exact ⟨_, rfl, by rw [h, hp]⟩
  · cases he.symm.trans hok
  · exact ⟨_, rfl, h.pid⟩

/-- The rest of a turn after the spawn caps a deadline. -/
theorem sameLife_follows {t' : StartFlow.Turn} {f : StartFlow} (h : StartFlow.Follows m f t')
    {v : UnitName} (hrt : m.get v = some rt) :
    ∃ rt', t'.manager.get v = some rt' ∧ SameLife rt rt' := by
  obtain ⟨calls, hm | hm⟩ := h.manager
  · exact ⟨rt, by rw [hm, UnitManager.noted_get, hrt], rfl, rfl, rfl, rfl⟩
  · have hget := m.get_modify f.unit v (·.capStartDeadline f.deadline)
    rw [hm, UnitManager.noted_get]
    by_cases hv : f.unit = v
    · subst hv
      exact ⟨rt.capStartDeadline f.deadline,
        hget.trans (by rw [if_pos rfl, hrt, Option.map_some]), rfl, rfl, rfl, rfl⟩
    · exact ⟨rt, hget.trans (by rw [if_neg hv, hrt]), rfl, rfl, rfl, rfl⟩

theorem Frame.noted (h : Frame plan m) (calls : List Call) : Frame plan (m.noted calls) :=
  h.apply (.granting 0 0) (.note calls) trivial

theorem Frame.follows {t' : StartFlow.Turn} {f : StartFlow} (h : Frame plan m)
    (hf : StartFlow.Follows m f t') : Frame plan t'.manager := by
  obtain ⟨calls, hm | hm⟩ := hf.manager <;> rw [hm]
  · exact h.noted calls
  · exact (h.apply (.granting 0 0) (.capStartDeadline f.unit f.deadline) trivial).noted calls

theorem SameLife.idles {rt' : UnitRuntime} (h : SameLife rt rt') : Idles rt rt' :=
  .quiet h.state h.pid (.inl h.restartAt)

theorem Frame.unopposed {t : StartFlow.Turn} (h : Frame plan t.manager) :
    StartFlow.Unopposed t :=
  fun rt hrt => (h.plain rt.config (h.mem hrt).1).1

/-- A turn of a start spawns its service, or fails it with what requires it, or waits. -/
theorem orderly_advance {t : StartFlow.Turn} (h : Frame plan t.manager) (k : Kernel)
    (hd : t.done = none) (hs : t.flow.unit.ty = .service)
    (hv : (t.manager.get t.flow.unit).isSome = true) :
    Orderly plan ⟨k, t.manager, .turn t.flow.unit, (StartFlow.advance k t).manager⟩ := by
  have hsteady := StartFlow.steady_advance k t
  have hspawns {m : UnitManager} (hm : Frame plan m) (rt : UnitRuntime)
      (hrt : m.get t.flow.unit = some rt) : rt.spawns = true :=
    (hm.reachable.serviced hrt).spawns_iff.mpr hs
  cases StartFlow.turned_advance k hd h.unopposed with
  | cancelled _ hm =>
    rw [hm] at hsteady ⊢
    exact orderly_of_idles h h hsteady fun u rt hrt => ⟨rt, hrt, .refl rt⟩
  | waits calls hm =>
    rw [hm] at hsteady ⊢
    exact orderly_of_idles h (h.noted calls) hsteady fun u rt hrt => ⟨rt, hrt, .refl rt⟩
  | later _ hf =>
    exact orderly_of_idles h (h.follows hf) hsteady fun u rt hrt =>
      (sameLife_follows hf hrt).imp fun _ => And.imp_right SameLife.idles
  | @failed calls m hm hm' =>
    have hnoted := h.noted calls
    have hframe : Frame plan m := by
      rcases hm with rfl | ⟨-, rfl⟩
      · exact hnoted
      · exact hnoted.apply k (.beginSpawnUnit t.flow.unit) trivial
    have hsame {v : UnitName} {rt : UnitRuntime} (hrt : t.manager.get v = some rt) :
        ∃ rt', m.get v = some rt' ∧ SameLife rt rt' := by
      rcases hm with rfl | ⟨⟨e, he⟩, rfl⟩
      · exact ⟨rt, hrt, rfl, rfl, rfl, rfl⟩
      · exact sameLife_beginSpawnUnit k he (hspawns hnoted) hrt
    rw [hm'] at hsteady ⊢
    refine ⟨hframe.apply k (.failStart t.flow.unit) trivial, hsteady, fun u rt hrt => ?_,
      fun r hr => propagated_of_failStart k ?_ (.inr ?_) hr.2⟩
    · obtain ⟨rt₁, hrt₁, hsame⟩ := hsame hrt
      obtain ⟨rt', hrt', hgoes⟩ := goes_failStart (e := ⟨k, t.manager, .turn t.flow.unit,
        (m.failStart k t.flow.unit).1⟩) k (hframe.reachable.failedIdle hrt₁) hrt₁
      exact ⟨rt', hrt', hgoes.of_sameLife hsame⟩
    · obtain ⟨rt, hrt⟩ := Option.isSome_iff_exists.mp hv
      obtain ⟨rt₁, hrt₁, -⟩ := hsame hrt
      rw [hrt₁]
      rfl
    · by_contra hf
      obtain ⟨rt₁, hrt₁, hf⟩ := (Option.any_eq_true ..).mp (Bool.not_eq_false _ ▸ hf)
      obtain ⟨rt, hrt⟩ := h.exists_get hframe hrt₁
      obtain ⟨rt₂, hrt₂, hsame⟩ := hsame hrt
      obtain rfl := Option.some.inj (hrt₁.symm.trans hrt₂)
      have hup : t.manager.isFailed r = false := hr.1
      rw [hsame.state] at hf
      simp [UnitManager.isFailed, hrt, hf] at hup
  | spawned calls hok hf =>
    have hnoted := h.noted calls
    have hframe : Frame plan ((t.manager.noted calls).beginSpawnUnit k t.flow.unit).1 :=
      hnoted.apply k (.beginSpawnUnit t.flow.unit) trivial
    have hcases {v : UnitName} {rt : UnitRuntime} (hrt : t.manager.get v = some rt) :
        ∃ rt', (StartFlow.advance k t).manager.get v = some rt' ∧ (SameLife rt rt' ∨
          v = t.flow.unit ∧ rt.pid = none ∧ rt'.pid.isSome = true ∧
            rt'.state = if rt.config.serviceKind = .simple then .active else .starting) := by
      have hget := get_beginSpawnUnit k (t.manager.noted calls) t.flow.unit v
      by_cases hv : t.flow.unit = v
      · subst hv
        have hbegun : ((t.manager.noted calls).beginSpawnUnit k t.flow.unit).1.get t.flow.unit =
            some (rt.beginSpawn k t.manager.cgroup t.flow.unit).val.1 := by
          rw [hget, if_pos rfl, UnitManager.noted_get, hrt]
          rfl
        obtain ⟨rt', hrt', hsame⟩ := sameLife_follows hf hbegun
        refine ⟨rt', hrt', ?_⟩
        rcases rt.beginSpawn_cases k t.manager.cgroup t.flow.unit (hspawns h rt hrt) with
          ⟨-, heq⟩ | ⟨hp, ⟨⟨e, he⟩, -⟩ | ⟨-, hlaunched⟩⟩
        · rw [heq] at hsame
          exact .inl hsame
        · rw [beginSpawnUnit_snd k (m := t.manager.noted calls) hrt] at hok
          cases hok.symm.trans he
        · exact .inr ⟨rfl, hp, hsame.pid ▸ hlaunched.pid, hsame.state.trans hlaunched.state⟩
      · obtain ⟨rt', hrt', hsame⟩ :=
          sameLife_follows hf (hget.trans (by rw [if_neg hv, UnitManager.noted_get, hrt]))
        exact ⟨rt', hrt', .inl hsame⟩
    refine ⟨hframe.follows hf, hsteady, fun u rt hrt => ?_, fun r hr => ?_⟩
    · obtain ⟨rt', hrt', hsame | ⟨rfl, hp, hp', hstate⟩⟩ := hcases hrt
      · exact ⟨rt', hrt', .quiet hsame.state hsame.pid (.inl hsame.restartAt)⟩
      · refine ⟨rt', hrt', .spawned ⟨rfl, ?_, ?_⟩ ?_⟩
        · exact (Option.any_eq_true ..).mpr ⟨rt, hrt, by rw [hp]; rfl⟩
        · exact (Option.any_eq_true ..).mpr ⟨rt', hrt', hp'⟩
        · split at hstate
          · next hk => exact .inr hk
          · exact .inl hstate
    · obtain ⟨hup, hfailed⟩ := hr
      obtain ⟨rt', hrt', hf'⟩ := (Option.any_eq_true ..).mp hfailed
      obtain ⟨rt, hrt⟩ := h.exists_get (hframe.follows hf) hrt'
      obtain ⟨rt'', hrt'', hsame | ⟨-, -, -, hstate⟩⟩ := hcases hrt
      · obtain rfl := Option.some.inj (hrt''.symm.trans hrt')
        rw [hsame.state] at hf'
        exact absurd (hup.symm.trans ((Option.any_eq_true ..).mpr ⟨rt, hrt, hf'⟩)) (by simp)
      · obtain rfl := Option.some.inj (hrt''.symm.trans hrt')
        rw [hstate] at hf'
        split at hf' <;> cases hf'

/-- The calls that are made after an entry change no unit. -/
theorem Orderly.noted {k : Kernel} {m' : UnitManager} {i : Incident}
    (h : Orderly plan ⟨k, m, i, m'⟩) (calls : List Call) :
    Orderly plan ⟨k, m, i, m'.noted calls⟩ where
  frame := h.frame.noted calls
  steady := h.steady.trans (.note m' calls)
  goes u rt hrt := by
    obtain ⟨rt', hrt', hgoes⟩ := h.goes u rt hrt
    refine ⟨rt', hrt', ?_⟩
    cases hgoes with
    | quiet hs hp ht => exact .quiet hs hp ht
    | failed hs hp ht => exact .failed hs hp ht
    | reached hu hs hp ht => exact .reached hu hs hp ht
    | spawned h hs => exact .spawned h hs
    | readied h hp =>
      refine .readied ?_ hp
      cases hk : rt.config.serviceKind <;> rw [hk] at h <;> exact h
    | lowered hp hs => exact .lowered hp hs
  propagated r hr := h.propagated r hr

/-! ## What holds of the units -/

variable {log : List Logged} {e : Logged}

theorem spawned_append : Spawned (log ++ [e]) u ↔ Spawned log u ∨ e.Spawns u := by
  simp [Spawned, or_and_right, exists_or]

theorem Ready.append (h : Ready plan log u) (e : Logged) : Ready plan (log ++ [e]) u := by
  obtain ⟨c, hc, e', he', hr⟩ := h
  exact ⟨c, hc, e', List.mem_append_left _ he', hr⟩

/-- A unit that was never spawned has no process, and none is due; a service that is up, or was
when it began to go down, has been ready. -/
structure Tame (plan : BootPlan) (log : List Logged) (u : UnitName) (rt : UnitRuntime) : Prop where
  fresh : ¬Spawned log u → rt.pid = none ∧ rt.restartAt = none ∧ (rt.state = .inactive ∨
    rt.state.isFailed = true ∨ u.ty = .target ∧ rt.state = .active)
  ready : u.ty = .service → rt.state.isLate = true → Ready plan log u

/-- What holds of the units, given what has happened. -/
structure UnitsHold (plan : BootPlan) (log : List Logged) (m : UnitManager) : Prop where
  frame : Frame plan m
  service : ∀ u, Spawned log u → u.ty = .service
  tame : ∀ u rt, m.get u = some rt → Tame plan log u rt
  closed : ∀ u r, ¬Spawned log u → RequiresUnit plan.configs u r → m.isFailed r = true →
    m.isFailed u = true
  kept : ∀ e ∈ log, ∀ r, e.FailsUnit r → ∀ d, Fails e.after.units r d → m.isFailed d = true

theorem isFailed_of_steady {m' : UnitManager} (h : SteadyAll m m') (hm : Reachable m)
    (hf : m.isFailed u = true) : m'.isFailed u = true := by
  obtain ⟨rt, hrt, hf⟩ := (Option.any_eq_true ..).mp hf
  obtain ⟨rt', hrt', hs⟩ := h.failed hm u rt trivial hrt hf
  exact (Option.any_eq_true ..).mpr ⟨rt', hrt', by rw [hs, hf]⟩

theorem isLate_of_isFailed {s : UnitState} (h : s.isFailed = true) : s.isLate = false := by
  cases s <;> first | rfl | cases h

theorem Tame.down (h : Tame plan log u rt) (hn : ¬Spawned log u) :
    ¬(rt.pid.isSome = true ∨ rt.state = .starting ∨ rt.state = .deactivating) := by
  obtain ⟨hp, -, hs⟩ := h.fresh hn
  rcases hs with hs | hs | ⟨-, hs⟩
  · simp [hp, hs]
  · rintro (hup | hup | hup)
    · simp [hp] at hup
    · simp [hup, UnitState.isFailed] at hs
    · simp [hup, UnitState.isFailed] at hs
  · simp [hp, hs]

/-- A unit stays tame. -/
theorem Tame.goes {rt' : UnitRuntime} (h : Tame plan log u rt) (hg : Goes e u rt rt')
    (hc : plan.configOf u = some rt.config) : Tame plan (log ++ [e]) u rt' where
  fresh hn := by
    obtain ⟨hn, hne⟩ := not_or.mp (spawned_append.not.mp hn)
    obtain ⟨hp, ht, hs⟩ := h.fresh hn
    cases hg with
    | quiet hs' hp' ht' =>
      exact ⟨hp'.trans hp, ht'.elim (·.trans ht) id, hs' ▸ hs⟩
    | failed hs' hp' ht' => exact ⟨hp', ht'.elim (·.trans ht) id, .inr (.inl hs')⟩
    | reached hu hs' hp' ht' => exact ⟨hp'.trans hp, ht'.trans ht, .inr (.inr ⟨hu, hs'⟩)⟩
    | spawned he => exact absurd he hne
    | readied _ hup => exact absurd (hup.imp id .inl) (h.down hn)
    | lowered hup => exact absurd (hup.imp id .inr) (h.down hn)
  ready hu hl := by
    have hnew (hr : e.Readies rt.config.serviceKind u) : Ready plan (log ++ [e]) u :=
      ⟨rt.config, hc, e, by simp, hr⟩
    cases hg with
    | quiet hs => exact (h.ready hu (hs ▸ hl)).append e
    | failed hs => cases (isLate_of_isFailed hs).symm.trans hl
    | reached ht => cases hu.symm.trans ht
    | spawned he hs =>
      rcases hs with hs | hk
      · rw [hs] at hl
        cases hl
      · refine hnew ?_
        rw [hk]
        exact he
    | readied hr => exact hnew hr
    | lowered _ hs =>
      rcases hs with hs | hs
      · rw [hs] at hl
        cases hl
      · exact (h.ready hu hs).append e

theorem UnitsHold.append (h : UnitsHold plan log e.before) (he : Orderly plan e)
    (hs : ∀ u, e.Spawns u → u.ty = .service) : UnitsHold plan (log ++ [e]) e.after := by
  have hfailed {u : UnitName} (hf : e.before.isFailed u = true) : e.after.isFailed u = true :=
    isFailed_of_steady he.steady h.frame.reachable hf
  have htame (u : UnitName) (rt' : UnitRuntime) (hrt' : e.after.get u = some rt') :
      Tame plan (log ++ [e]) u rt' := by
    obtain ⟨rt, hrt⟩ := h.frame.exists_get he.frame hrt'
    obtain ⟨rt'', hrt'', hgoes⟩ := he.goes u rt hrt
    obtain rfl := Option.some.inj (hrt''.symm.trans hrt')
    exact (h.tame u rt hrt).goes hgoes (h.frame.configOf hrt)
  refine ⟨he.frame, fun u hu => ?_, htame, fun u r hn hr hf => ?_, fun e' he' r hr d hd => ?_⟩
  · exact (spawned_append.mp hu).elim (h.service u) (hs u)
  · by_cases hold : e.before.isFailed r = true
    · exact hfailed (h.closed u r (fun hs => hn (spawned_append.mpr (.inl hs))) hr hold)
    · -- the failure of `r` is new, and `u` has no process that would spare it
      obtain ⟨c, hc, rfl, hdep⟩ := hr
      have hconfig := he.frame.config c.name
      rw [ReloadState.configOf_eq_some he.frame.proper hc] at hconfig
      obtain ⟨rt, hrt, rfl⟩ := Option.map_eq_some_iff.mp hconfig
      have hdrags : Drags e.after.units r rt.config.name :=
        ⟨UnitManager.mem_requiresDependents.mpr ⟨_, rt, hrt, hdep, rfl⟩, rt, hrt,
          ((htame _ rt hrt).fresh hn).1⟩
      exact he.propagated r ⟨by simpa using hold, hf⟩ hf _ (.single hdrags)
  · rcases List.mem_append.mp he' with he' | he'
    · exact hfailed (h.kept e' he' r hr d hd)
    · obtain rfl := List.mem_singleton.mp he'
      exact he.propagated r hr hr.2 d hd

/-- A unit the boot is done with stays one : it fails, or it has been ready for good. -/
theorem Settled.append (h : UnitsHold plan log e.before) (he : Orderly plan e)
    (hs : ∀ u, e.Spawns u → u.ty = .service) (hu : Settled plan log e.before u) :
    Settled plan (log ++ [e]) e.after u := by
  have hafter := h.append he hs
  rcases hu with hf | hup
  · exact .inl (isFailed_of_steady he.steady h.frame.reachable hf)
  · unfold Up at hup
    unfold Settled Up
    cases hty : u.ty with
    | service =>
      rw [hty] at hup
      exact .inr (Ready.append hup e)
    | target =>
      simp only [hty] at hup ⊢
      obtain ⟨rt, hrt, hactive⟩ := (Option.any_eq_true ..).mp hup
      have hactive : rt.state = .active := by simpa using hactive
      obtain ⟨rt', hrt', hgoes⟩ := he.goes u rt hrt
      have hn : ¬Spawned log u := fun hn => by cases hty.symm.trans (h.service u hn)
      have hstays (hs : rt'.state = .active) :
          e.after.isFailed u = true ∨ (e.after.get u).any (·.state = .active) = true :=
        .inr ((Option.any_eq_true ..).mpr ⟨rt', hrt', by simpa using hs⟩)
      cases hgoes with
      | quiet hs => exact hstays (hs.trans hactive)
      | failed hs => exact .inl ((Option.any_eq_true ..).mpr ⟨rt', hrt', hs⟩)
      | reached _ hs => exact hstays hs
      | spawned he => cases hty.symm.trans (hs u he)
      | readied _ hup => exact absurd (hup.imp id .inl) ((h.tame u rt hrt).down hn)
      | lowered hup => exact absurd (hup.imp id .inr) ((h.tame u rt hrt).down hn)

end Boot

end Rinit
