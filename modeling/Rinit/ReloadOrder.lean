import Rinit.Resurrect

/-!
# Start orders after a reload

A reload checks the new directory as a whole, but a unit that is up or being started keeps
the definition it has, and so do the instances of a template. `inForce` is the mixture the
graph is then built from. If its references resolve and it has no cycle, every unit can be
started after the reload (`startOrder_of_reload`); nobody checks that they do.
-/

namespace Rinit

open Relation

namespace ReloadState

variable {k : Kernel} {plan : BootPlan} {s s' : ReloadState}

/-- The definition a planned unit has after a reload : the one it had, while it is up or being
started. -/
def plannedConfig (s : ReloadState) (config : UnitConfig) : UnitConfig :=
  match unpruned s.manager config.name with
  | some rt =>
    if rt.isUp || s.starts.flows.contains config.name then rt.config else config
  | none => config

/-- Whether a unit that is not planned stays : it exists, and its template is still there. -/
def staysUnplanned (plan : BootPlan) (u : UnitName) (rt : UnitRuntime) : Bool :=
  (plan.configOf u).isNone && !rt.retired &&
    u.template.any fun template => plan.templates.contains template.canonical

/-- The definitions in force after a reload. -/
def inForce (s : ReloadState) (plan : BootPlan) : List UnitConfig :=
  plan.configs.map (plannedConfig s) ++
    (s.manager.units.toList.filter fun e => staysUnplanned plan e.1 e.2).map (·.2.config)

theorem registered_config (s : ReloadState) (c : UnitConfig) :
    (registered c (s.starts.flows.contains c.name) (unpruned s.manager c.name)).config =
      plannedConfig s c := by
  unfold plannedConfig
  cases unpruned s.manager c.name with
  | none => rfl
  | some rt =>
    unfold registered UnitRuntime.redefine
    have hup : ({ rt with retired := false } : UnitRuntime).isUp = rt.isUp := rfl
    simp only [hup]
    by_cases hc : rt.config = c
    · simp [hc]
    · rw [if_neg hc]
      split <;> rfl

theorem registered_retired (c : UnitConfig) (inFlight : Bool) (o : Option UnitRuntime) :
    (registered c inFlight o).retired = false := by
  cases o with
  | none => rfl
  | some rt =>
    obtain ⟨_, _, _, heq, -⟩ := rt.redefine_eq c inFlight
    exact congrArg UnitRuntime.retired heq

theorem configOf_eq_some (hp : plan.Proper) {c : UnitConfig} (hc : c ∈ plan.configs) :
    plan.configOf c.name = some c := by
  cases h : plan.configOf c.name with
  | none =>
    have := List.find?_eq_none.mp h c hc
    simp at this
  | some c' =>
    obtain ⟨hmem, hname⟩ := BootPlan.mem_of_configOf h
    rw [List.inj_on_of_nodup_map hp.nodup hmem hc hname]

theorem mem_configs {m : UnitManager} {c : UnitConfig} :
    c ∈ m.configs ↔ ∃ u rt, m.get u = some rt ∧ rt.retired = false ∧ rt.config = c := by
  simp only [UnitManager.configs, List.mem_map, List.mem_filter, Prod.exists,
    Std.ExtTreeMap.mem_toList_iff_getElem?_eq_some, Bool.not_eq_true', and_assoc]
  rfl

/-- The graph after a reload is built from the mixture. -/
theorem mem_configs_iff (hp : plan.Proper) (h : Reloaded k plan s s') {c : UnitConfig} :
    c ∈ s'.manager.configs ↔ c ∈ s.inForce plan := by
  rw [mem_configs, inForce, List.mem_append]
  constructor
  · rintro ⟨u, rt, hrt, hret, rfl⟩
    rw [h.get] at hrt
    unfold reloaded at hrt
    cases hc : plan.configOf u with
    | some c =>
      rw [hc] at hrt
      obtain rfl := Option.some.inj hrt
      obtain ⟨hmem, rfl⟩ := BootPlan.mem_of_configOf hc
      exact .inl (List.mem_map.mpr ⟨c, hmem, (registered_config s c).symm⟩)
    | none =>
      rw [hc] at hrt
      dsimp only at hrt
      split at hrt
      · obtain ⟨rt', -, rfl⟩ := Option.map_eq_some_iff.mp hrt
        cases hret
      · next hg =>
        have hrt' := (Option.filter_eq_some_iff.mp hrt).1
        refine .inr (List.mem_map.mpr ⟨(u, rt), List.mem_filter.mpr
          ⟨Std.ExtTreeMap.mem_toList_iff_getElem?_eq_some.mpr hrt', ?_⟩, rfl⟩)
        simp only [isGone, UnitManager.unitExists, hrt', Option.any_some, hret, hc,
          Option.isNone_none, Bool.not_false, Bool.true_and, Bool.not_eq_true] at hg
        simpa [staysUnplanned, hc, hret] using hg
  · rintro (hc | hc)
    · obtain ⟨c, hmem, rfl⟩ := List.mem_map.mp hc
      refine ⟨c.name, _, ?_, registered_retired c _ _, registered_config s c⟩
      rw [h.get, reloaded, configOf_eq_some hp hmem]
    · obtain ⟨⟨u, rt⟩, he, rfl⟩ := List.mem_map.mp hc
      obtain ⟨he, hstay⟩ := List.mem_filter.mp he
      have hrt : s.manager.get u = some rt := Std.ExtTreeMap.mem_toList_iff_getElem?_eq_some.mp he
      simp only [staysUnplanned, Bool.and_eq_true, Option.isNone_iff_eq_none,
        Bool.not_eq_true'] at hstay
      refine ⟨u, rt, ?_, hstay.1.2, rfl⟩
      have hgone : isGone s.manager plan u = false := by simp [isGone, hstay.2]
      rw [h.get, reloaded, hstay.1.1]
      simp [hgone, unpruned, hrt, Option.filter, not_prunable_of_not_retired hstay.1.2]

end ReloadState

theorem RefsResolve.congr {l l' : List UnitConfig} (h : ∀ c, c ∈ l ↔ c ∈ l') (hr : RefsResolve l) :
    RefsResolve l' := by
  intro c hc u hu
  obtain ⟨c', hc', hn⟩ := List.mem_map.mp (hr c ((h c).mpr hc) u hu)
  exact List.mem_map.mpr ⟨c', (h c').mp hc', hn⟩

theorem WaitsFor.congr {l l' : List UnitConfig} (h : ∀ c, c ∈ l ↔ c ∈ l') {a b : UnitName}
    (hw : WaitsFor l a b) : WaitsFor l' a b := by
  have hnames : b ∈ l.map (·.name) → b ∈ l'.map (·.name) := by
    intro hb
    obtain ⟨c, hc, hn⟩ := List.mem_map.mp hb
    exact List.mem_map.mpr ⟨c, (h c).mp hc, hn⟩
  rcases hw with ⟨c, hc, hn, hdep⟩ | ⟨c, hc, hn, hdep⟩
  · exact .inl ⟨c, (h c).mp hc, hn, hdep.imp id (Or.imp (And.imp id hnames) id)⟩
  · exact .inr ⟨c, (h c).mp hc, hn, hdep⟩

/-- The units in force have names of their own. -/
theorem Reachable.nodup_configs {m : UnitManager} (h : Reachable m) :
    (m.configs.map (·.name)).Nodup := by
  have hnames : m.configs.map (·.name) =
      (m.units.toList.filter fun e => !e.2.retired).map Prod.fst := by
    rw [UnitManager.configs, List.map_map]
    refine List.map_congr_left fun e he => ?_
    have he' := Std.ExtTreeMap.mem_toList_iff_getElem?_eq_some.mp (List.mem_filter.mp he).1
    exact (h.filed he').name
  rw [hnames]
  refine List.Nodup.sublist (List.filter_sublist.map Prod.fst) ?_
  rw [Std.ExtTreeMap.map_fst_toList_eq_keys]
  exact Std.ExtTreeMap.nodup_keys

/-- If the mixture of old and new definitions resolves and has no cycle, every unit has a
start order after the reload. -/
theorem startOrder_of_reload {k : Kernel} {s : ReloadState} {files : List UnitFile}
    {warnings : List String} {target : String} {plan : BootPlan} (hm : Reachable s.manager)
    (hplan : BootPlan.planBoot files warnings target = .ok plan)
    (hr : RefsResolve (s.inForce plan))
    (hac : ∀ u, ¬TransGen (WaitsFor (s.inForce plan)) u u) :
    ∃ s' report, s.reload k files warnings target = (s', .ok report) ∧
      ∀ u, s'.manager.unitExists u = true → ∃ order, (s'.manager.startOrder u).2 = .ok order := by
  rcases ReloadState.reload_cases (k := k) hm files warnings target with
    ⟨e, he, -⟩ | ⟨plan', s', report, hplan', heq, hs'⟩
  · cases hplan.symm.trans he
  obtain rfl := Except.ok.inj (hplan.symm.trans hplan')
  refine ⟨s', report, heq, fun u _ => ?_⟩
  have hmem (c : UnitConfig) : c ∈ s.inForce plan ↔ c ∈ s'.manager.configs :=
    (ReloadState.mem_configs_iff (BootPlan.proper_of_planBoot hplan) hs').symm
  have hwaits : WaitsFor s'.manager.configs ≤ WaitsFor (s.inForce plan) :=
    fun _ _ => WaitsFor.congr fun c => (hmem c).symm
  have hacyclic (u : UnitName) : ¬TransGen (WaitsFor s'.manager.configs) u u :=
    fun h => hac u (TransGen.mono hwaits u u h)
  obtain ⟨graph, hbuild⟩ :=
    DependencyGraph.build_eq_ok hs'.reachable.nodup_configs (hr.congr hmem) hacyclic
  rcases hs'.reachable.cacheBuilt.graph_cases with ⟨e, hg⟩ | ⟨m', graph', hg, horder⟩
  · exfalso
    by_cases hcur : ∃ graph, s'.manager.Current graph
    · obtain ⟨graph', hcur⟩ := hcur
      rw [UnitManager.graph_of_current hcur] at hg
      cases hg
    · rw [UnitManager.graph_of_not_current (not_exists.mp hcur), UnitManager.graph.rebuild,
        hbuild] at hg
      cases congrArg Prod.snd hg
  · rw [UnitManager.startOrder_eq, hg]
    exact horder u

/-! ## Concrete reloads -/

/-- A directory with a service and one it requires, a service whose start takes a command before
it, and a template. -/
def services (startA afterC : String) : List UnitFile :=
  [{ name := serviceA, path := "/etc/rinit/a.service",
     contents := "[Unit]\nRequires=b.service\n[Service]\nExecStart=" ++ startA ++ "\n" },
    { name := serviceB, path := "/etc/rinit/b.service",
      contents := "[Service]\nExecStart=/b\n" },
    { name := serviceC, path := "/etc/rinit/c.service",
      contents := "[Unit]\nAfter=" ++ afterC ++ "\n[Service]\nExecStartPre=/p\nExecStart=/c\n" },
    { name := templateT, path := "/etc/rinit/t@.service",
      contents := "[Service]\nExecStart=/t\n" }]

/-- The boot has started the first two services, and an instance and the third service were asked
for; the definition of the first has changed while it runs. -/
def mixedRun : List (ℕ × Pid × Input) :=
  [(1, 10, .boot), (2, 10, .advance), (3, 10, .boot), (4, 20, .advance), (5, 20, .boot),
    (6, 30, .control (.start instanceT)), (7, 30, .advance),
    (8, 40, .control (.start serviceC)), (9, 40, .advance),
    (10, 50, .control (.reload (services "/x" "b.service") [] "a.service"))]

/-- What the loop gives a reload. -/
def Supervisor.reloadState (s : Supervisor) : ReloadState :=
  { manager := s.manager, starts := s.starts, activation := s.activation }

/-- The first service runs and has a definition that waits, the start of the third is on its way,
and an instance runs. -/
def Supervisor.isMixed (s : Supervisor) : Bool :=
  (s.manager.get serviceA).any (fun rt => rt.isUp && rt.pendingConfig.isSome) &&
    s.starts.flows.contains serviceC && (s.manager.get instanceT).any UnitRuntime.isUp

/-- A reload that changes the service that runs and the one that is being started. -/
theorem startOrder_of_reload_mixed : ∃ s, Supervisor.Reached s ∧ s.isMixed = true ∧
    ∃ s' report, s.reloadState.reload (.granting 11 60) (services "/y" "a.service") []
        "a.service" = (s', .ok report) ∧
      ∀ u, s'.manager.unitExists u = true → ∃ order, (s'.manager.startOrder u).2 = .ok order := by
  obtain ⟨s, hs, hp⟩ := Supervisor.exists_reached (services "/a" "b.service")
    "a.service" (l := mixedRun) (p := fun s => s.isMixed &&
      (BootPlan.planBoot (services "/y" "a.service") [] "a.service").toOption.any fun plan =>
        (DependencyGraph.build (s.reloadState.inForce plan)).toOption.isSome)
    (by decide +kernel)
  rw [Bool.and_eq_true] at hp
  obtain ⟨hmixed, hforce⟩ := hp
  obtain ⟨plan, hplan, hbuild⟩ := (Option.any_eq_true _ _).mp hforce
  obtain ⟨graph, hgraph⟩ := Option.isSome_iff_exists.mp hbuild
  have hgraph := Runs.eq_ok_of_toOption hgraph
  exact ⟨s, hs, hmixed, startOrder_of_reload hs.sound.reachable (Runs.eq_ok_of_toOption hplan)
    (DependencyGraph.refsResolve_of_build hgraph) (DependencyGraph.acyclic_of_build hgraph)⟩

/-- A directory with one service. -/
def oneService : List UnitFile :=
  [{ name := serviceA, path := "/etc/rinit/a.service", contents := "[Service]\nExecStart=/bin/a\n" }]

/-- A running service that requires another one. -/
def requiringUp : UnitManager := registered.apply (.granting 1 10) (.beginSpawnUnit serviceA)

/-- The new directory drops the required service and the requirement. -/
def requirementDropped : ReloadState × Except String Report :=
  ReloadState.reload (.granting 2 10) oneService [] "a.service"
    { manager := requiringUp, starts := {}, activation := ∅ }

/-- The directory is accepted, and then the running service can not be started any more. -/
theorem startOrder_requirementDropped : Reachable requiringUp ∧
    (BootPlan.planBoot oneService [] "a.service").toOption.isSome = true ∧
    requirementDropped.2.toOption.isSome = true ∧
    requirementDropped.1.manager.unitExists serviceA = true ∧
    (requirementDropped.1.manager.startOrder serviceA).2 =
      .error "a.service: Requires=b.service but no such unit file exists" := by
  refine ⟨?_, by decide, by decide +kernel, by decide +kernel, by decide +kernel⟩
  exact .step _ _ (.step _ _ (.step _ _ .new rfl) rfl) trivial

end Rinit
