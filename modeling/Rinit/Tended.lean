import Rinit.Directory

/-!
# The loop and its directory

`Tended` follows the loop together with the directory it was given last. Along every such run
the templates and the schedule are those of the directory (`Tended.directory`) and only units
that exist are being started (`Reached.live`).

An instance has no file of its own, and a reload does not look at it. `current_of_tended` says
when the instances follow their templates : as long as no reload changes what an instance is
defined by. The first reload that does leaves the stopped instances with the definition they had
(`not_current_templateChanged`).
-/

namespace Rinit

open Relation

namespace Supervisor

/-- The loop gets into `s` with the directory `plan`, and `G` holds of every reload. -/
inductive Tended (G : Supervisor → BootPlan → BootPlan → Prop) : Supervisor → BootPlan → Prop
  | init {files : List UnitFile} {warnings : List String} {target : String} {plan : BootPlan}
    (k : Kernel) (cgroup : Cgroup) (h : BootPlan.planBoot files warnings target = .ok plan) :
    Tended G (init k plan cgroup) plan
  | step {s : Supervisor} {plan : BootPlan} (k : Kernel) (input : Input) (h : Tended G s plan)
    (hi : ∀ files warnings target, input ≠ .control (.reload files warnings target)) :
    Tended G (s.step k input) plan
  | refused {s : Supervisor} {plan : BootPlan} (k : Kernel) (files : List UnitFile)
    (warnings : List String) (target : String) (h : Tended G s plan)
    (hr : s.boot.isSome = true ∨ ∃ e, BootPlan.planBoot files warnings target = .error e) :
    Tended G (s.step k (.control (.reload files warnings target))) plan
  | reload {s : Supervisor} {plan plan' : BootPlan} (k : Kernel) {files : List UnitFile}
    {warnings : List String} {target : String} (h : Tended G s plan) (hb : s.boot = none)
    (hp : BootPlan.planBoot files warnings target = .ok plan') (hg : G s plan plan') :
    Tended G (s.step k (.control (.reload files warnings target))) plan'

variable {G : Supervisor → BootPlan → BootPlan → Prop} {k : Kernel} {s : Supervisor}
  {plan plan' : BootPlan} {files : List UnitFile} {warnings : List String} {target : String}

theorem Tended.reached (h : Tended G s plan) : Reached s := by
  induction h with
  | init k cgroup h => exact .init k cgroup h
  | step k input _ _ ih => exact .step k input ih
  | refused k files warnings target _ _ ih => exact .step k _ ih
  | reload k _ _ _ _ ih => exact .step k _ ih

/-- Every state the loop gets into has a directory. -/
theorem Reached.tended (h : Reached s) : ∃ plan, Tended (fun _ _ _ => True) s plan := by
  induction h with
  | init k cgroup h => exact ⟨_, .init k cgroup h⟩
  | @step s k input _ ih =>
    obtain ⟨plan, ih⟩ := ih
    by_cases hi : ∃ files warnings target, input = .control (.reload files warnings target)
    · obtain ⟨files, warnings, target, rfl⟩ := hi
      cases hb : s.boot with
      | some b => exact ⟨plan, .refused k _ _ _ ih (.inl (by rw [hb]; rfl))⟩
      | none =>
        cases hp : BootPlan.planBoot files warnings target with
        | error e => exact ⟨plan, .refused k _ _ _ ih (.inr ⟨e, hp⟩)⟩
        | ok plan' => exact ⟨plan', .reload k ih hb hp trivial⟩
    · exact ⟨plan, .step k input ih fun files warnings target h => hi ⟨files, warnings, target, h⟩⟩

/-! ## Reloads in the loop -/

theorem world_reload (k : Kernel) (s : Supervisor) (files : List UnitFile) (warnings : List String)
    (target : String) : (handle k s (.reload files warnings target)).world =
      ((ReloadState.reload k files warnings target s.reloadState).1.dropGone k).world :=
  rfl

/-- A reload that is turned away drops at most flows. -/
theorem serve_refused (k : Kernel)
    (hr : s.boot.isSome = true ∨ ∃ e, BootPlan.planBoot files warnings target = .error e) :
    World.Serve s.world (s.step k (.control (.reload files warnings target))).world := by
  change World.Serve s.world (control k s (.reload files warnings target)).world
  unfold control
  split
  · rw [world_answer]
  · next hb =>
    obtain ⟨e, he⟩ := hr.resolve_left hb
    rw [world_reload, ReloadState.reload, he]
    exact StartCoordinator.run_afterReload k s.starts s.manager

/-- A reload that is accepted leaves what the reload itself leaves, without the flows of the
units that are gone. -/
structure Accepted (k : Kernel) (plan : BootPlan) (s : Supervisor) (r : ReloadState)
    (s' : Supervisor) : Prop where
  reloaded : ReloadState.Reloaded k plan s.reloadState r
  stays : r.manager.templates = plan.templates ∧ r.manager.shutdownOrder = plan.levels.flatten
  world : s'.world = (r.dropGone k).world

/-- A reload with a directory that is valid goes through. -/
theorem reload_eq_ok (hs : s.Sound) (hp : BootPlan.planBoot files warnings target = .ok plan)
    (k : Kernel) : ∃ r report,
      ReloadState.reload k files warnings target s.reloadState = (r, .ok report) := by
  obtain ⟨r, report, happly, -⟩ := ReloadState.reloaded_applyPlan (k := k) (s := s.reloadState)
    (BootPlan.proper_of_planBoot hp) hs.reachable
  refine ⟨r, report, ?_⟩
  unfold ReloadState.reload
  rw [hp]
  exact happly

theorem accepted_of_reload {r : ReloadState} {report : Report} (hs : s.Sound) (hb : s.boot = none)
    (hp : BootPlan.planBoot files warnings target = .ok plan)
    (hr : ReloadState.reload k files warnings target s.reloadState = (r, .ok report)) :
    Accepted k plan s r (s.step k (.control (.reload files warnings target))) := by
  have happly : ReloadState.applyPlan k plan s.reloadState = (r, .ok report) := by
    unfold ReloadState.reload at hr
    rwa [hp] at hr
  refine ⟨?_, ?_, ?_⟩
  · obtain ⟨r', report', happly', hre⟩ := ReloadState.reloaded_applyPlan (k := k)
      (s := s.reloadState) (BootPlan.proper_of_planBoot hp) hs.reachable
    obtain ⟨rfl, -⟩ := Prod.mk.inj (happly'.symm.trans happly)
    exact hre
  · unfold ReloadState.applyPlan at happly
    dsimp only at happly
    split at happly
    · cases happly
    · obtain ⟨rfl, -⟩ := Prod.mk.inj happly
      exact ⟨rfl, rfl⟩
  · change (control k s (.reload files warnings target)).world = _
    unfold control
    rw [hb]
    change (handle k s (.reload files warnings target)).world = _
    rw [world_reload, hr]

theorem accepted_reload (hs : s.Sound) (hb : s.boot = none)
    (hp : BootPlan.planBoot files warnings target = .ok plan) (k : Kernel) :
    ∃ r, Accepted k plan s r (s.step k (.control (.reload files warnings target))) := by
  obtain ⟨r, report, hr⟩ := reload_eq_ok hs hp k
  exact ⟨r, accepted_of_reload hs hb hp hr⟩

namespace Accepted

variable {r : ReloadState} {s' : Supervisor} {u : UnitName} {rt : UnitRuntime}

theorem get (h : Accepted k plan s r s') (u : UnitName) :
    s'.manager.get u = ReloadState.reloaded k plan s.reloadState u := by
  have hworld := congrArg World.manager h.world
  change s'.manager = (r.starts.afterReload k r.manager).1 at hworld
  rw [hworld, (r.starts.afterReload_get k r.manager u).1, h.reloaded.get u]

theorem flows (h : Accepted k plan s r s') (u : UnitName) : s'.starts.flows[u]? =
    if s'.manager.unitExists u then s.starts.flows[u]? else none := by
  have hworld := congrArg World.flows h.world
  have hget : s'.manager.get u = r.manager.get u := (h.get u).trans (h.reloaded.get u).symm
  change s'.starts.flows = (r.starts.afterReload k r.manager).2.1.flows at hworld
  rw [hworld, (r.starts.afterReload_get k r.manager u).2, h.reloaded.flows,
    show s'.manager.unitExists u = r.manager.unitExists u by simp [UnitManager.unitExists, hget]]
  rfl

theorem directory (h : Accepted k plan s r s') : s'.manager.templates = plan.templates ∧
    s'.manager.shutdownOrder = plan.levels.flatten := by
  have hworld := congrArg World.manager h.world
  have hstays : r.manager.Stays (r.starts.afterReload k r.manager).1 := by
    unfold StartCoordinator.afterReload
    refine Runs.foldl_induction (P := fun _ (t : UnitManager × StartCoordinator) =>
      r.manager.Stays t.1) (.refl r.manager) fun _ u _ t _ ht => ?_
    obtain ⟨calls, hm, -⟩ := StartCoordinator.removeFlow_eq k t.2 t.1 u
    rw [hm]
    exact ⟨ht.templates, ht.shutdownOrder⟩
  change s'.manager = (r.starts.afterReload k r.manager).1 at hworld
  rw [hworld, hstays.templates, hstays.shutdownOrder]
  exact h.stays

/-- A unit without a file that exists is one the reload has not touched. -/
theorem get_unplanned (h : Accepted k plan s r s') (hc : plan.configOf u = none)
    (hrt : s'.manager.get u = some rt) (hret : rt.retired = false) :
    s.manager.get u = some rt ∧ plan.hasTemplate u = true :=
  ReloadState.reloaded_unplanned hc ((h.get u).symm.trans hrt) hret

/-- An instance that exists goes on to exist as it is. -/
theorem get_instance (h : Accepted k plan s r s') (hc : plan.configOf u = none)
    (ht : plan.hasTemplate u = true) (hrt : s.manager.get u = some rt) (hret : rt.retired = false) :
    s'.manager.get u = some rt := by
  have hgone : ReloadState.isGone s.reloadState.manager plan u ≠ true := fun hg => by
    rw [(ReloadState.isGone_iff.mp hg).2.2] at ht
    cases ht
  rw [h.get u, ReloadState.reloaded, hc]
  dsimp only
  rw [if_neg hgone]
  exact ReloadState.unpruned_of_exists hrt hret

theorem live (h : Accepted k plan s r s') : s'.world.Live := by
  intro u f hf
  have hflows := h.flows u
  change s'.starts.flows[u]? = some f at hf
  rw [hf] at hflows
  split at hflows
  · next hex => exact hex
  · cases hflows

theorem keyed (h : Accepted k plan s r s') (hk : s.world.Keyed) : s'.world.Keyed := by
  intro u f hf
  have hflows := h.flows u
  change s'.starts.flows[u]? = some f at hf
  rw [hf] at hflows
  split at hflows
  · exact hk u f hflows.symm
  · cases hflows

end Accepted

/-! ## Along a run -/

theorem get_foldl_add {configs : List UnitConfig} (hn : (configs.map (·.name)).Nodup)
    {m : UnitManager} (hm : ∀ c ∈ configs, m.get c.name = none) (v : UnitName) :
    (configs.foldl (fun m config => (m.add config).1) m).get v =
      ((configs.find? fun c => c.name = v).map UnitRuntime.new).or (m.get v) := by
  induction configs generalizing m with
  | nil => rfl
  | cons c configs ih =>
    obtain ⟨hnew, hn⟩ := List.nodup_cons.mp (List.map_cons ▸ hn)
    have hadd (v : UnitName) : (m.add c).1.get v = if c.name = v then some (UnitRuntime.new c) else
        m.get v :=
      UnitManager.get_addWithInFlight_new (hm c List.mem_cons_self) v
    have hrest : ∀ c' ∈ configs, (m.add c).1.get c'.name = none := by
      intro c' hc'
      rw [hadd, if_neg, hm c' (List.mem_cons_of_mem _ hc')]
      exact fun h => hnew (h ▸ List.mem_map_of_mem hc')
    rw [List.foldl_cons, ih hn hrest, hadd]
    by_cases hv : c.name = v
    · have hnone : configs.find? (fun c => c.name = v) = none := by
        rw [List.find?_eq_none]
        intro c' hc' hcv
        exact hnew (hv ▸ (decide_eq_true_eq.mp hcv) ▸ List.mem_map_of_mem hc')
      rw [hnone, if_pos hv, List.find?_cons_of_pos (by simpa using hv)]
      rfl
    · rw [if_neg hv, List.find?_cons_of_neg (by simpa using hv)]

/-- What holds of the units as they are registered, and is kept by a failed start, by the sockets
and by the schedule, holds of the units of a boot. -/
theorem prepareUnits_induction {P : UnitManager → Prop} (hp : plan.Proper) (k : Kernel)
    (cgroup : Cgroup)
    (hregistered : ∀ m : UnitManager, m.templates = plan.templates →
      (∀ v, m.get v = (plan.configOf v).map UnitRuntime.new) → P m)
    (hop : ∀ m op, (∃ u, op = .failStart u) ∨ (∃ fds, op = .setListeners fds) → P m →
      P (m.apply k op))
    (hschedule : ∀ m order, P m → P { m with shutdownOrder := order }) :
    P (prepareUnits k plan cgroup).1 := by
  let m₀ : UnitManager := { bootInProgress := true, cgroup := cgroup }
  let m₁ : UnitManager := plan.configs.foldl (fun m config => (m.add config).1) m₀
  have hget (v : UnitName) : m₁.get v = (plan.configOf v).map UnitRuntime.new := by
    have hempty (v : UnitName) : m₀.get v = none := by simp [m₀, UnitManager.get]
    rw [get_foldl_add hp.nodup fun c _ => hempty c.name, hempty, Option.or_none]
    rfl
  unfold prepareUnits
  dsimp only
  refine hschedule _ _ ?_
  refine Runs.foldl_induction (P := fun _ (s : UnitManager × Activated) => P s.1)
    (hregistered { m₁ with templates := plan.templates } rfl hget) fun _ config _ s _ h => ?_
  split
  · exact h
  · split
    · exact hop s.1 (.failStart config.name) (.inl ⟨_, rfl⟩) h
    · dsimp only
      split
      · exact hop s.1 (.setListeners _) (.inr ⟨_, rfl⟩) h
      · exact h

/-- The units are registered as the directory of the boot defines them. -/
theorem defined_prepareUnits (hp : plan.Proper) (k : Kernel) (cgroup : Cgroup) :
    UnitManager.Defined plan (prepareUnits k plan cgroup).1 := by
  refine prepareUnits_induction hp k cgroup (fun m ht hget => ?_) (fun m op hop h => ?_)
    fun m order h => h.of_schedule
  · refine ⟨ht, fun u hu => ?_, fun u rt hrt _ => ?_⟩
    · obtain ⟨c, hc⟩ := Option.isSome_iff_exists.mp hu
      exact UnitManager.unitExists_iff.mpr ⟨_, (hget u).trans (by rw [hc]; rfl), rfl⟩
    · obtain ⟨c, hc, rfl⟩ := Option.map_eq_some_iff.mp ((hget u).symm.trans hrt)
      rw [BootPlan.define, hc]
      rfl
  · obtain ⟨u, rfl⟩ | ⟨fds, rfl⟩ := hop
    · exact h.apply (.failStart u) trivial
    · exact h.apply (.setListeners fds) trivial

theorem Tended.world (h : Tended G s plan) : s.world.Keyed ∧ s.world.Live := by
  induction h with
  | @init _ _ _ plan k cgroup h =>
    have hnone (u : UnitName) (f : StartFlow) :
        (Supervisor.init k plan cgroup).world.flows[u]? ≠ some f := by
      rw [show (Supervisor.init k plan cgroup).world.flows = ∅ from rfl]
      simp
    exact ⟨fun u f hf => absurd hf (hnone u f), fun u f hf => absurd hf (hnone u f)⟩
  | step k input h hi ih =>
    have hserved := (serve_step k h.reached.sound hi).served ih.1
    exact ⟨hserved.keyed ih.1, hserved.live ih.2⟩
  | refused k files warnings target h hr ih =>
    have hserved := (serve_refused k hr).served ih.1
    exact ⟨hserved.keyed ih.1, hserved.live ih.2⟩
  | reload k h hb hp hg ih =>
    obtain ⟨r, hr⟩ := accepted_reload h.reached.sound hb hp k
    exact ⟨hr.keyed ih.1, hr.live⟩

/-- Only units that exist are being started. -/
theorem Reached.live (h : Reached s) : s.world.Live := by
  obtain ⟨plan, ht⟩ := h.tended
  exact ht.world.2

/-- The templates and the schedule are those of the directory. -/
theorem Tended.directory (h : Tended G s plan) : s.manager.templates = plan.templates ∧
    s.manager.shutdownOrder = plan.levels.flatten := by
  induction h with
  | init k cgroup h =>
    exact ⟨(defined_prepareUnits (BootPlan.proper_of_planBoot h) k cgroup).templates, rfl⟩
  | step k input h hi ih =>
    have hstays := UnitManager.stays_guarded
      ((serve_step k h.reached.sound hi).served h.world.1).manager
    exact ⟨hstays.templates.trans ih.1, hstays.shutdownOrder.trans ih.2⟩
  | refused k files warnings target h hr ih =>
    have hstays := UnitManager.stays_guarded ((serve_refused k hr).served h.world.1).manager
    exact ⟨hstays.templates.trans ih.1, hstays.shutdownOrder.trans ih.2⟩
  | reload k h hb hp hg ih =>
    obtain ⟨r, hr⟩ := accepted_reload h.reached.sound hb hp k
    exact hr.directory

/-! ## Instances -/

/-- A reload from `plan` to `plan'` changes nothing that a unit which exists without a file of
its own is defined by. -/
def KeepsInstances (s : Supervisor) (plan plan' : BootPlan) : Prop :=
  ∀ u, s.manager.unitExists u = true → plan'.configOf u = none → plan'.hasTemplate u = true →
    plan'.define u = plan.define u

/-- The unit exists, has no process and is not being started. -/
structure Stopped (s : Supervisor) (u : UnitName) (rt : UnitRuntime) : Prop where
  get : s.manager.get u = some rt
  retired : rt.retired = false
  pid : rt.pid = none
  flow : s.starts.flows.contains u = false

/-- The next start of a stopped instance uses what its template says. -/
def Current (plan : BootPlan) (s : Supervisor) : Prop :=
  ∀ u rt, s.Stopped u rt → plan.configOf u = none → ∃ template text expanded,
    u.template = some template ∧ plan.templates[template.canonical]? = some text ∧
    substitute text u = some expanded ∧ parse u expanded = .ok rt.nextConfig

/-- The reload changes nothing that a stopped instance is defined by. -/
def KeepsStopped (s : Supervisor) (plan plan' : BootPlan) : Prop :=
  ∀ u rt, s.Stopped u rt → plan'.configOf u = none → plan'.hasTemplate u = true →
    plan'.define u = plan.define u

theorem define_eq_ok_iff {u : UnitName} {config : UnitConfig} (hc : plan.configOf u = none) :
    plan.define u = .ok config ↔ ∃ template text expanded, u.template = some template ∧
      plan.templates[template.canonical]? = some text ∧ substitute text u = some expanded ∧
      parse u expanded = .ok config := by
  rw [BootPlan.define, hc]
  dsimp only
  unfold UnitManager.expand
  constructor
  · intro h
    repeat' split at h
    all_goals first
      | cases h; done
      | obtain rfl := Except.ok.inj h
        exact ⟨_, _, _, ‹_›, ‹_›, ‹_›, ‹_›⟩
  · rintro ⟨template, text, expanded, ht, htext, hs, hparse⟩
    rw [ht]
    dsimp only
    rw [htext]
    dsimp only
    rw [hs]
    dsimp only
    rw [hparse]

/-- The directory defines the next start of every unit, as long as no reload changes what an
instance is defined by. -/
theorem Tended.defined (h : Tended KeepsInstances s plan) :
    UnitManager.Defined plan s.manager := by
  induction h with
  | init k cgroup h => exact defined_prepareUnits (BootPlan.proper_of_planBoot h) k cgroup
  | step k input h hi ih =>
    exact ih.guarded ((serve_step k h.reached.sound hi).served h.world.1).manager
  | refused k files warnings target h hr ih =>
    exact ih.guarded ((serve_refused k hr).served h.world.1).manager
  | @reload s plan plan' k _ _ _ h hb hp hg ih =>
    obtain ⟨r, hr⟩ := accepted_reload h.reached.sound hb hp k
    refine ⟨hr.directory.1, fun u hu => ?_, fun u rt hrt hret => ?_⟩
    · obtain ⟨c, hc⟩ := Option.isSome_iff_exists.mp hu
      exact UnitManager.unitExists_iff.mpr ⟨_, (hr.get u).trans (ReloadState.reloaded_planned hc),
        ReloadState.registered_retired ..⟩
    · cases hc : plan'.configOf u with
      | some c =>
        have hget := (hr.get u).symm.trans hrt
        rw [ReloadState.reloaded_planned hc] at hget
        obtain rfl := Option.some.inj hget
        rw [ReloadState.nextConfig_registered, BootPlan.define, hc]
      | none =>
        obtain ⟨hold, ht⟩ := hr.get_unplanned hc hrt hret
        rw [hg u (UnitManager.unitExists_iff.mpr ⟨rt, hold, hret⟩) hc ht]
        exact ih.next u rt hold hret

/-- A stopped instance is one before and after a reload. -/
theorem stopped_reload {r : ReloadState} {s' : Supervisor} {u : UnitName} {rt : UnitRuntime}
    (h : Accepted k plan s r s') (hc : plan.configOf u = none) :
    s'.Stopped u rt ↔ s.Stopped u rt ∧ plan.hasTemplate u = true := by
  have hflows (hex : s'.manager.unitExists u = true) :
      s'.starts.flows.contains u = s.starts.flows.contains u := by
    rw [Std.ExtTreeMap.contains_eq_isSome_getElem?, Std.ExtTreeMap.contains_eq_isSome_getElem?,
      h.flows u, if_pos hex]
  constructor
  · intro hs
    obtain ⟨hget, ht⟩ := h.get_unplanned hc hs.get hs.retired
    have hex := UnitManager.unitExists_iff.mpr ⟨rt, hs.get, hs.retired⟩
    exact ⟨⟨hget, hs.retired, hs.pid, (hflows hex).symm.trans hs.flow⟩, ht⟩
  · rintro ⟨hs, ht⟩
    have hget := h.get_instance hc ht hs.get hs.retired
    have hex := UnitManager.unitExists_iff.mpr ⟨rt, hget, hs.retired⟩
    exact ⟨hget, hs.retired, hs.pid, (hflows hex).trans hs.flow⟩

/-- As long as no reload changes what an instance is defined by, the stopped instances follow
their templates; a further reload leaves it so exactly when it changes nothing that a stopped
instance is defined by. -/
theorem current_of_tended (h : Tended KeepsInstances s plan) : Current plan s ∧
    ∀ k files warnings target plan', s.boot = none →
      BootPlan.planBoot files warnings target = .ok plan' →
      (Current plan' (s.step k (.control (.reload files warnings target))) ↔
        KeepsStopped s plan plan') := by
  have hd := h.defined
  refine ⟨fun u rt hs hc => (define_eq_ok_iff hc).mp (hd.next u rt hs.get hs.retired),
    fun k files warnings target plan' hb hp => ?_⟩
  obtain ⟨r, hr⟩ := accepted_reload h.reached.sound hb hp k
  constructor
  · intro hcur u rt hs hc ht
    rw [hd.next u rt hs.get hs.retired]
    exact (define_eq_ok_iff hc).mpr (hcur u rt ((stopped_reload hr hc).mpr ⟨hs, ht⟩) hc)
  · intro hkeeps u rt hs hc
    obtain ⟨hs, ht⟩ := (stopped_reload hr hc).mp hs
    rw [← define_eq_ok_iff hc, hkeeps u rt hs hc ht]
    exact hd.next u rt hs.get hs.retired

/-! ### Concrete runs -/

/-- Steps that are no reloads keep the directory. -/
theorem Tended.steps {l : List (ℕ × Pid × Input)} (h : Tended G s plan)
    (hl : ∀ e ∈ l, ∀ files warnings target, e.2.2 ≠ .control (.reload files warnings target)) :
    Tended G (s.steps l) plan := by
  induction l generalizing s with
  | nil => exact h
  | cons e l ih =>
    exact ih (.step (.granting e.1 e.2.1) e.2.2 h (hl e List.mem_cons_self))
      fun e' he' => hl e' (List.mem_cons_of_mem _ he')

theorem exists_plan {files : List UnitFile} {target : String} {p : BootPlan → Bool}
    (h : (BootPlan.planBoot files [] target).toOption.any p = true) :
    ∃ plan, BootPlan.planBoot files [] target = .ok plan ∧ p plan = true := by
  obtain ⟨plan, hplan, hp⟩ := (Option.any_eq_true _ _).mp h
  exact ⟨plan, Runs.eq_ok_of_toOption hplan, hp⟩

/-- A run whose state satisfies `p`, with its directory. -/
theorem exists_tended (files : List UnitFile) (target : String) {l : List (ℕ × Pid × Input)}
    {p : BootPlan → Supervisor → Bool}
    (h : (BootPlan.planBoot files [] target).toOption.any (fun plan =>
      p plan ((Supervisor.init (.granting 0 10) plan none).steps l)) = true)
    (hl : ∀ e ∈ l, ∀ files warnings target, e.2.2 ≠ .control (.reload files warnings target)) :
    ∃ s plan, BootPlan.planBoot files [] target = .ok plan ∧ Tended G s plan ∧ p plan s = true := by
  obtain ⟨plan, hplan, hp⟩ := exists_plan h
  exact ⟨_, plan, hplan, (Tended.init (.granting 0 10) none hplan).steps hl, hp⟩

/-- A directory with a template. -/
def workers (contents : String) : List UnitFile :=
  [{ name := targetD
     path := "/etc/rinit/d.target"
     contents := "[Unit]\n" },
    { name := templateT
      path := "/etc/rinit/t@.service"
      contents := contents }]

def workersOld : List UnitFile := workers "[Service]\nExecStart=/bin/old %i\n"

def workersNew : List UnitFile := workers "[Service]\nExecStart=/bin/new %i\n"

/-- An instance is started and stopped. -/
def instanceRun : List (ℕ × Pid × Input) :=
  [(1, 10, .boot), (2, 10, .control (.start instanceT)), (3, 10, .advance), (4, 10, .advance),
    (5, 10, .control (.stop instanceT)), (6, 10, .reap [(10, .success)])]

theorem instanceRun_serves : ∀ e ∈ instanceRun, ∀ files warnings target,
    e.2.2 ≠ Input.control (.reload files warnings target) := by
  simp [instanceRun]

/-- The instance is stopped and would be started with the command. -/
def stoppedWith (s : Supervisor) (argv : List String) : Bool :=
  (s.manager.get instanceT).any (fun rt => !rt.retired && rt.pid.isNone &&
    rt.nextConfig.execStart = ⟨argv⟩) && !s.starts.flows.contains instanceT

/-- A service comes in, and the template is written anew to the same effect. -/
def workersKept : List UnitFile :=
  { name := serviceC
    path := "/etc/rinit/c.service"
    contents := "[Service]\nExecStart=/bin/c\n" } ::
  workers "# the same\n[Service]\nExecStart=/bin/old %i\n"

/-- The units that exist are gone through. -/
def keepsUnits (s : Supervisor) (plan plan' : BootPlan) : Bool :=
  s.manager.units.keys.all fun u => !s.manager.unitExists u || (plan'.configOf u).isSome ||
    !plan'.hasTemplate u || ((plan'.define u).toOption.isSome &&
      (plan'.define u).toOption = (plan.define u).toOption)

theorem keepsInstances_of_keepsUnits (h : keepsUnits s plan plan' = true) :
    KeepsInstances s plan plan' := by
  intro u hex hc ht
  have hmem : u ∈ s.manager.units.keys := by
    obtain ⟨rt, hrt, -⟩ := UnitManager.unitExists_iff.mp hex
    exact Std.ExtTreeMap.mem_keys.mpr (Std.ExtTreeMap.mem_iff_isSome_getElem?.mpr
      (by rw [show s.manager.units[u]? = some rt from hrt]; rfl))
  have hu := List.all_eq_true.mp h u hmem
  simp only [hex, hc, ht, Bool.not_true, Option.isSome_none, Bool.false_or, Bool.and_eq_true,
    decide_eq_true_eq] at hu
  obtain ⟨config, hconfig⟩ := Option.isSome_iff_exists.mp hu.1
  rw [Runs.eq_ok_of_toOption hconfig, Runs.eq_ok_of_toOption (hu.2.symm.trans hconfig)]

/-- The command that a directory has for the instance. -/
def commandOf (plan : BootPlan) : Option (List String) :=
  if (plan.configOf instanceT).isNone && plan.hasTemplate instanceT then
    (plan.define instanceT).toOption.map (·.execStart.argv)
  else none

theorem commandOf_eq_some {argv : List String} (h : commandOf plan = some argv) :
    plan.configOf instanceT = none ∧ plan.hasTemplate instanceT = true ∧
      (plan.define instanceT).toOption.map (·.execStart.argv) = some argv := by
  unfold commandOf at h
  split at h
  · next hd =>
    rw [Bool.and_eq_true, Option.isNone_iff_eq_none] at hd
    exact ⟨hd.1, hd.2, h⟩
  · cases h

/-- The directory has the new command for the instance. -/
def newCommand (plan : BootPlan) : Bool := commandOf plan = some ["/bin/new", "1"]

theorem newCommand_workersNew :
    (BootPlan.planBoot workersNew [] "d.target").toOption.any newCommand = true := by
  decide +kernel

theorem stopped_of_stoppedWith {argv : List String} (h : stoppedWith s argv = true) :
    ∃ rt, s.Stopped instanceT rt ∧ rt.nextConfig.execStart = ⟨argv⟩ := by
  rw [stoppedWith, Bool.and_eq_true] at h
  obtain ⟨rt, hrt, hst⟩ := (Option.any_eq_true _ _).mp h.1
  simp only [Bool.and_eq_true, Bool.not_eq_true', Option.isNone_iff_eq_none,
    decide_eq_true_eq] at hst
  exact ⟨rt, ⟨hrt, hst.1.1, hst.1.2, by simpa using h.2⟩, hst.2⟩

/-- The reload that keeps the template. -/
def keptReload (s : Supervisor) : Supervisor :=
  s.step (.granting 7 10) (.control (.reload workersKept [] "d.target"))

/-- The stopped instance follows its template after a reload that keeps what it is defined by, and
again after the same reload; after one that changes its command it does not. -/
theorem current_keptRun : ∃ s plan plan', Tended KeepsInstances s plan ∧ Current plan s ∧
    stoppedWith s ["/bin/old", "1"] = true ∧ commandOf plan = some ["/bin/old", "1"] ∧
    BootPlan.planBoot workersNew [] "d.target" = .ok plan' ∧
    Current plan (s.step (.granting 8 10) (.control (.reload workersKept [] "d.target"))) ∧
    ¬Current plan' (s.step (.granting 8 10) (.control (.reload workersNew [] "d.target"))) := by
  obtain ⟨s, plan₀, -, ht, hp⟩ := exists_tended (G := KeepsInstances) workersOld "d.target"
    (l := instanceRun) (p := fun plan₀ s => s.boot.isNone &&
      (BootPlan.planBoot workersKept [] "d.target").toOption.any fun plan =>
        commandOf plan = some ["/bin/old", "1"] && keepsUnits s plan₀ plan &&
        ((keptReload s).boot.isNone && stoppedWith (keptReload s) ["/bin/old", "1"]))
    (by decide +kernel) instanceRun_serves
  obtain ⟨plan', hnew, hcommand'⟩ := exists_plan newCommand_workersNew
  rw [Bool.and_eq_true, Option.isNone_iff_eq_none] at hp
  obtain ⟨hb, hp⟩ := hp
  obtain ⟨plan, hkept, hp⟩ := exists_plan hp
  simp only [Bool.and_eq_true, decide_eq_true_eq, Option.isNone_iff_eq_none] at hp
  have hcommand' := decide_eq_true_eq.mp hcommand'
  obtain ⟨⟨hcommand, hkeeps⟩, hb', hstopped⟩ := hp
  have ht : Tended KeepsInstances (keptReload s) plan :=
    .reload _ ht hb hkept (keepsInstances_of_keepsUnits hkeeps)
  obtain ⟨hcurrent, hnext⟩ := current_of_tended ht
  refine ⟨_, plan, plan', ht, hcurrent, hstopped, hcommand, hnew,
    (hnext _ _ _ _ plan hb' hkept).mpr fun _ _ _ _ _ => rfl, fun hcur => ?_⟩
  obtain ⟨rt, hst, -⟩ := stopped_of_stoppedWith hstopped
  obtain ⟨hconfig, htemplate, -⟩ := commandOf_eq_some hcommand'
  have hsame := (hnext _ _ _ _ plan' hb' hnew).mp hcur instanceT rt hst hconfig htemplate
  have hold := (commandOf_eq_some hcommand).2.2
  have hnew := (commandOf_eq_some hcommand').2.2
  rw [hsame, hold] at hnew
  exact absurd hnew (by decide)

/-- The template is changed, and the stopped instance would be started with the old command. -/
theorem not_current_templateChanged : ∃ s plan, Reached s ∧ s.boot = none ∧
    BootPlan.planBoot workersNew [] "d.target" = .ok plan ∧
    ¬Current plan (s.step (.granting 7 10) (.control (.reload workersNew [] "d.target"))) := by
  obtain ⟨s, _, -, ht, hp⟩ := exists_tended (G := fun _ _ _ => True) workersOld
    "d.target" (l := instanceRun) (p := fun _ s => s.boot.isNone &&
      stoppedWith (s.step (.granting 7 10) (.control (.reload workersNew [] "d.target")))
        ["/bin/old", "1"]) (by decide +kernel) instanceRun_serves
  rw [Bool.and_eq_true, Option.isNone_iff_eq_none] at hp
  obtain ⟨hb, hstopped⟩ := hp
  obtain ⟨plan, hnew, hcommand⟩ := exists_plan newCommand_workersNew
  obtain ⟨hconfig, -, hcommand⟩ := commandOf_eq_some (decide_eq_true_eq.mp hcommand)
  obtain ⟨rt, hst, hexec⟩ := stopped_of_stoppedWith hstopped
  refine ⟨s, plan, ht.reached, hb, hnew, fun hcur => ?_⟩
  rw [(define_eq_ok_iff hconfig).mpr (hcur instanceT rt hst hconfig)] at hcommand
  have hargv : rt.nextConfig.execStart.argv = ["/bin/new", "1"] := Option.some.inj hcommand
  rw [hexec] at hargv
  exact absurd hargv (by decide)

end Supervisor

end Rinit
