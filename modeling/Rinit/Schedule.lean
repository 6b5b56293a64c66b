import Rinit.Graph
import Rinit.Runs

/-!
# The schedule of a unit directory

`WaitsFor` is the ordering relation the unit files declare, stated on names. A graph that
`build` accepts has every configured unit once and exactly these edges
(`mem_dependenciesOf_iff`), so its topological order and its levels follow the relation.
`build` accepts a directory whose names are distinct, whose hard references resolve and
whose ordering relation has no cycle (`build_eq_ok`). It goes by the names alone, so the
order in which the files are read makes no difference (`build_eq_of_perm`).
-/

namespace Rinit

/-- `a` starts after `b` : `a` names `b` in `Requires=` or `After=`, or in a `Wants=` that
resolves, or `b` names `a` in `Before=`. -/
def WaitsFor (configs : List UnitConfig) (a b : UnitName) : Prop :=
  (∃ c ∈ configs, c.name = a ∧ (b ∈ c.deps.requires ∨
    (b ∈ c.deps.wants ∧ b ∈ configs.map (·.name)) ∨ b ∈ c.deps.after)) ∨
  ∃ c ∈ configs, c.name = b ∧ a ∈ c.deps.before

/-- Every `Requires=`, `After=` and `Before=` names a configured unit. -/
def RefsResolve (configs : List UnitConfig) : Prop :=
  ∀ c ∈ configs, ∀ u, u ∈ c.deps.requires ∨ u ∈ c.deps.after ∨ u ∈ c.deps.before →
    u ∈ configs.map (·.name)

namespace DependencyGraph

/-! ## Indices and edges -/

theorem indexOf_eq_some {units : List UnitName} (hn : units.Nodup) {u : UnitName} {i : ℕ} :
    indexOf units u = some i ↔ units[i]? = some u := by
  rw [indexOf, List.idxOf?_eq_some_iff, List.getElem?_eq_some_iff]
  refine exists_congr fun hi => ⟨fun h => h.1, fun h => ⟨h, fun j hj hju => ?_⟩⟩
  exact hj.ne ((hn.getElem_inj_iff).mp (hju.trans h.symm))

theorem indexOf_eq_none {units : List UnitName} {u : UnitName} :
    indexOf units u = none ↔ u ∉ units :=
  List.idxOf?_eq_none_iff

theorem mem_pushUnique {α : Type*} [DecidableEq α] {l : List α} {a b : α} :
    b ∈ pushUnique l a ↔ b ∈ l ∨ b = a := by
  unfold pushUnique
  split <;> rename_i h <;> simp_all [List.contains_eq_mem]

theorem nodup_pushUnique {α : Type*} [DecidableEq α] {l : List α} {a : α} (h : l.Nodup) :
    (pushUnique l a).Nodup := by
  unfold pushUnique
  split
  · exact h
  · rename_i hc
    rw [List.nodup_append_comm]
    exact List.nodup_cons.mpr ⟨by simpa using hc, h⟩

theorem mem_getD_modify {deps : List (List ℕ)} {i j k l : ℕ} (hk : k < deps.length) :
    j ∈ (deps.modify k (pushUnique · l)).getD i [] ↔ j ∈ deps.getD i [] ∨ i = k ∧ j = l := by
  by_cases hi : k = i
  · subst hi
    simp [hk, mem_pushUnique]
  · have hi' : i ≠ k := fun e => hi e.symm
    simp [hi, hi']

theorem wellFormed_modify {n k l : ℕ} {deps : List (List ℕ)} (h : Toposort.WellFormed n deps)
    (hl : l < n) : Toposort.WellFormed n (deps.modify k (pushUnique · l)) := by
  have hmem : ∀ ds ∈ deps.modify k (pushUnique · l), ds ∈ deps ∨ ∃ ds' ∈ deps,
      ds = pushUnique ds' l := by
    intro ds hds
    obtain ⟨i, hi⟩ := List.mem_iff_getElem?.mp hds
    rw [List.getElem?_modify] at hi
    obtain ⟨ds', hds', rfl⟩ := Option.map_eq_some_iff.mp hi
    have hmem' := List.mem_of_getElem? hds'
    split
    · exact Or.inr ⟨ds', hmem', rfl⟩
    · exact Or.inl hmem'
  refine ⟨by simp [h.length], ?_, ?_⟩
  · intro ds hds
    rcases hmem ds hds with hd | ⟨ds', hd, rfl⟩
    · exact h.nodup ds hd
    · exact nodup_pushUnique (h.nodup ds' hd)
  · intro ds hds d hdd
    rcases hmem ds hds with hd | ⟨ds', hd, rfl⟩
    · exact h.lt ds hd d hdd
    · rcases mem_pushUnique.mp hdd with hdd | rfl
      · exact h.lt ds' hd d hdd
      · exact hl

/-- The edges one unit declares, on indices : `i` waits for `j`. -/
def Declares (units : List UnitName) (c : UnitConfig) (i j : ℕ) : Prop :=
  (units[j]? = some c.name ∧ ∃ u ∈ c.deps.before, units[i]? = some u) ∨
  (units[i]? = some c.name ∧ ∃ e ∈ references c, units[j]? = some e.1)

/-- A graph under construction : well formed, over `units`, with the edges `E`. -/
structure Partial (units : List UnitName) (E : ℕ → ℕ → Prop) (graph : DependencyGraph) :
    Prop where
  units_eq : graph.units = units
  wf : Toposort.WellFormed units.length graph.dependencies
  mem : ∀ i j, j ∈ graph.dependencies.getD i [] ↔ E i j

theorem Partial.congr {units : List UnitName} {E E' : ℕ → ℕ → Prop} {graph : DependencyGraph}
    (h : Partial units E graph) (hE : ∀ i j, E i j ↔ E' i j) : Partial units E' graph :=
  ⟨h.units_eq, h.wf, fun i j => (h.mem i j).trans (hE i j)⟩

theorem Partial.insert {units : List UnitName} {E : ℕ → ℕ → Prop} {graph graph' : DependencyGraph}
    (h : Partial units E graph) {k l : ℕ} (hk : k < units.length) (hl : l < units.length)
    (hu : graph'.units = graph.units)
    (hd : graph'.dependencies = graph.dependencies.modify k (pushUnique · l)) :
    Partial units (fun i j => E i j ∨ i = k ∧ j = l) graph' := by
  have hk' : k < graph.dependencies.length := by
    rw [h.wf.length]
    exact hk
  refine ⟨hu.trans h.units_eq, hd ▸ wellFormed_modify h.wf hl, fun i j => ?_⟩
  rw [hd, mem_getD_modify hk', h.mem]

section AddUnit

variable {units : List UnitName} {E : ℕ → ℕ → Prop} {graph : DependencyGraph} {cfg : UnitConfig}
  {me : ℕ}

theorem lt_of_getElem?_eq_some {u : UnitName} {i : ℕ} (h : units[i]? = some u) :
    i < units.length :=
  (List.getElem?_eq_some_iff.mp h).1

/-- `Before=` references resolve one by one, or the first missing one is the error. -/
theorem addBefore_cases (hn : units.Nodup) (h : Partial units E graph)
    (hme : units[me]? = some cfg.name) (u : UnitName) :
    (∃ graph', addBefore cfg me graph u = .ok graph' ∧
      Partial units (fun i j => E i j ∨ units[i]? = some u ∧ j = me) graph') ∨
    u ∉ units ∧ addBefore cfg me graph u = .error (.missingDependency cfg.name u "Before") := by
  have hx : indexOf graph.units u = indexOf units u := by rw [h.units_eq]
  unfold addBefore
  rw [hx]
  cases hi : indexOf units u with
  | none => exact Or.inr ⟨indexOf_eq_none.mp hi, rfl⟩
  | some other =>
    have ho := (indexOf_eq_some hn).mp hi
    refine Or.inl ⟨_, rfl, ?_⟩
    refine Partial.congr (h.insert (lt_of_getElem?_eq_some ho) (lt_of_getElem?_eq_some hme) rfl
      rfl) fun i j => ?_
    have hoi : units[i]? = some u ↔ i = other := by
      rw [← indexOf_eq_some hn, hi]
      exact ⟨fun e => (Option.some.inj e).symm, fun e => congrArg some e.symm⟩
    rw [hoi]

/-- The other references : a missing one is an error unless it is a `Wants=`. -/
theorem addEdge_cases (hn : units.Nodup) (h : Partial units E graph)
    (hme : units[me]? = some cfg.name) (e : UnitName × Edge) :
    (∃ graph', addEdge cfg me graph e = .ok graph' ∧ (e.1 ∈ units ∨ e.2 = .wants) ∧
      Partial units (fun i j => E i j ∨ i = me ∧ units[j]? = some e.1) graph') ∨
    e.1 ∉ units ∧ e.2 ≠ .wants ∧ addEdge cfg me graph e =
      .error (.missingDependency cfg.name e.1 e.2.directive) := by
  obtain ⟨u, edge⟩ := e
  have hx : indexOf graph.units u = indexOf units u := by rw [h.units_eq]
  unfold addEdge
  rw [hx]
  cases hi : indexOf units u with
  | none =>
    have hu := indexOf_eq_none.mp hi
    have hnone : ∀ j, units[j]? ≠ some u := fun j hj => hu (List.mem_of_getElem? hj)
    cases edge with
    | requires => exact Or.inr ⟨hu, by simp, rfl⟩
    | after => exact Or.inr ⟨hu, by simp, rfl⟩
    | wants =>
      refine Or.inl ⟨_, rfl, Or.inr rfl, h.units_eq, h.wf, fun i j => ?_⟩
      simpa [hnone] using h.mem i j
  | some other =>
    have ho := (indexOf_eq_some hn).mp hi
    refine Or.inl ⟨_, rfl, Or.inl (List.mem_of_getElem? ho), ?_⟩
    refine Partial.congr (h.insert (lt_of_getElem?_eq_some hme) (lt_of_getElem?_eq_some ho) rfl
      rfl) fun i j => ?_
    have hoj : units[j]? = some u ↔ j = other := by
      rw [← indexOf_eq_some hn, hi]
      exact ⟨fun e => (Option.some.inj e).symm, fun e => congrArg some e.symm⟩
    rw [hoj]

/-- `Conflicts=` adds no edge. -/
theorem Partial.addConflicts (h : Partial units E graph) (l : List UnitName) :
    Partial units E (l.foldl (addConflict cfg) graph) := by
  refine Runs.foldl_induction (P := fun _ graph => Partial units E graph) h ?_
  rintro done u rest graph - h
  unfold addConflict
  split
  · exact h
  · exact ⟨h.units_eq, h.wf, h.mem⟩

theorem foldlM_addBefore (hn : units.Nodup) (h : Partial units E graph)
    (hme : units[me]? = some cfg.name) {l : List UnitName} {graph' : DependencyGraph}
    (hf : l.foldlM (addBefore cfg me) graph = .ok graph') :
    (∀ u ∈ l, u ∈ units) ∧
      Partial units (fun i j => E i j ∨ j = me ∧ ∃ u ∈ l, units[i]? = some u) graph' := by
  refine Runs.foldlM_induction (P := fun l graph' => (∀ u ∈ l, u ∈ units) ∧
    Partial units (fun i j => E i j ∨ j = me ∧ ∃ u ∈ l, units[i]? = some u) graph') hf ?_ ?_
  · exact ⟨by simp, h.congr fun i j => by simp⟩
  · rintro done u rest s s' - ⟨hd, hp⟩ hs
    rcases addBefore_cases hn hp hme u with ⟨graph', hok, hp'⟩ | ⟨_, he⟩
    · rw [hok] at hs
      cases hs
      have hu : u ∈ units := by
        by_contra hu
        have := indexOf_eq_none.mpr (hp.units_eq ▸ hu)
        simp [addBefore, this] at hok
      refine ⟨by simpa [or_imp, forall_and] using ⟨hd, hu⟩, hp'.congr fun i j => ?_⟩
      simp only [List.mem_append, List.mem_singleton, or_and_right, exists_or, exists_eq_left]
      rw [or_assoc, and_comm (b := j = me), ← and_or_left]
    · rw [he] at hs
      cases hs

theorem foldlM_addEdge (hn : units.Nodup) (h : Partial units E graph)
    (hme : units[me]? = some cfg.name) {l : List (UnitName × Edge)} {graph' : DependencyGraph}
    (hf : l.foldlM (addEdge cfg me) graph = .ok graph') :
    (∀ e ∈ l, e.1 ∈ units ∨ e.2 = .wants) ∧
      Partial units (fun i j => E i j ∨ i = me ∧ ∃ e ∈ l, units[j]? = some e.1) graph' := by
  refine Runs.foldlM_induction (P := fun l graph' => (∀ e ∈ l, e.1 ∈ units ∨ e.2 = .wants) ∧
    Partial units (fun i j => E i j ∨ i = me ∧ ∃ e ∈ l, units[j]? = some e.1) graph') hf ?_ ?_
  · exact ⟨by simp, h.congr fun i j => by simp⟩
  · rintro done e rest s s' - ⟨hd, hp⟩ hs
    rcases addEdge_cases hn hp hme e with ⟨graph', hok, hr, hp'⟩ | ⟨_, _, he⟩
    · rw [hok] at hs
      cases hs
      refine ⟨fun x hx => ?_, hp'.congr fun i j => ?_⟩
      · rcases List.mem_append.mp hx with hx | hx
        · exact hd x hx
        · exact List.mem_singleton.mp hx ▸ hr
      · simp only [List.mem_append, List.mem_singleton, or_and_right, exists_or, exists_eq_left]
        rw [or_assoc, ← and_or_left]
    · rw [he] at hs
      cases hs

/-- The hard references of a unit name units. -/
def Resolves (units : List UnitName) (cfg : UnitConfig) : Prop :=
  (∀ u ∈ cfg.deps.before, u ∈ units) ∧ ∀ e ∈ references cfg, e.1 ∈ units ∨ e.2 = .wants

/-- A known unit is added in three steps, at its own index. -/
theorem addUnit_eq_ok (hn : units.Nodup) (hu : graph.units = units) (hc : cfg.name ∈ units)
    {graph' : DependencyGraph} (hf : addUnit graph cfg = .ok graph') :
    ∃ me g1, (∀ i, units[i]? = some cfg.name ↔ i = me) ∧
      cfg.deps.before.foldlM (addBefore cfg me) graph = .ok g1 ∧
      (references cfg).foldlM (addEdge cfg me)
        (cfg.deps.conflicts.foldl (addConflict cfg) g1) = .ok graph' := by
  unfold addUnit at hf
  rw [hu] at hf
  cases hi : indexOf units cfg.name with
  | none => exact absurd hc (indexOf_eq_none.mp hi)
  | some me =>
    simp only [hi] at hf
    obtain ⟨g1, hb, hf⟩ := Runs.bind_eq_ok.mp hf
    refine ⟨me, g1, fun i => ?_, hb, hf⟩
    rw [← indexOf_eq_some hn, hi]
    exact ⟨fun e => (Option.some.inj e).symm, fun e => congrArg some e.symm⟩

/-- A unit that is added has its hard references resolved and adds the edges it declares. -/
theorem addUnit_spec (hn : units.Nodup) (h : Partial units E graph) (hc : cfg.name ∈ units)
    {graph' : DependencyGraph} (hf : addUnit graph cfg = .ok graph') :
    Resolves units cfg ∧ Partial units (fun i j => E i j ∨ Declares units cfg i j) graph' := by
  obtain ⟨me, g1, hmi, hb, hf⟩ := addUnit_eq_ok hn h.units_eq hc hf
  have hme := (hmi me).mpr rfl
  obtain ⟨hr1, h1⟩ := foldlM_addBefore hn h hme hb
  obtain ⟨hr2, h3⟩ := foldlM_addEdge hn (h1.addConflicts _) hme hf
  refine ⟨⟨hr1, hr2⟩, h3.congr fun i j => ?_⟩
  simp only [Declares, hmi, or_assoc]

/-- A unit whose hard references resolve is added. -/
theorem addUnit_ok (hn : units.Nodup) (h : Partial units E graph) (hr : Resolves units cfg) :
    ∃ graph', addUnit graph cfg = .ok graph' := by
  unfold addUnit
  cases hi : indexOf graph.units cfg.name with
  | none => exact ⟨graph, rfl⟩
  | some me =>
    have hme : units[me]? = some cfg.name := (indexOf_eq_some hn).mp (h.units_eq ▸ hi)
    obtain ⟨g1, hb, E1, h1⟩ := Runs.foldlM_ok (f := addBefore cfg me) (l := cfg.deps.before)
      (s := graph) (P := fun _ g => ∃ E, Partial units E g) ⟨E, h⟩ (by
        rintro done u rest s hl ⟨E', h'⟩
        rcases addBefore_cases hn h' hme u with ⟨g', hok, hp⟩ | ⟨hu, _⟩
        · exact ⟨g', hok, _, hp⟩
        · exact absurd (hr.1 u (by simp [hl])) hu)
    obtain ⟨g2, he, _⟩ := Runs.foldlM_ok (f := addEdge cfg me) (l := references cfg)
      (s := cfg.deps.conflicts.foldl (addConflict cfg) g1)
      (P := fun _ g => ∃ E, Partial units E g) ⟨E1, h1.addConflicts _⟩ (by
        rintro done e rest s hl ⟨E', h'⟩
        rcases addEdge_cases hn h' hme e with ⟨g', hok, _, hp⟩ | ⟨hu, hw, _⟩
        · exact ⟨g', hok, _, hp⟩
        · rcases hr.2 e (by simp [hl]) with hin | hw'
          · exact absurd hin hu
          · exact absurd hw' hw)
    exact ⟨g2, by simp only [hb]; exact he⟩

end AddUnit

/-! ## What `build` accepts -/

theorem collectUnit_eq_ok {units units' : List UnitName} {cfg : UnitConfig} :
    collectUnit units cfg = .ok units' ↔
      units.getLast? ≠ some cfg.name ∧ units' = units ++ [cfg.name] := by
  unfold collectUnit
  split <;> simp_all [eq_comm]

/-- Over sorted configs the names are collected when they are distinct. -/
theorem foldlM_collectUnit {cs : List UnitConfig}
    (hs : cs.Pairwise fun a b => a.name ≤ b.name) {units : List UnitName}
    (h : cs.foldlM collectUnit [] = .ok units) :
    units = cs.map (·.name) ∧ units.Pairwise (· < ·) := by
  refine Runs.foldlM_induction
    (P := fun done units => units = done.map (·.name) ∧ units.Pairwise (· < ·)) h (by simp) ?_
  rintro done c rest s s' hl ⟨rfl, hp⟩ hc
  obtain ⟨hlast, rfl⟩ := collectUnit_eq_ok.mp hc
  refine ⟨by simp, List.pairwise_append.mpr ⟨hp, by simp, ?_⟩⟩
  intro a ha b hb
  rw [List.mem_singleton.mp hb]
  rcases List.eq_nil_or_concat done with rfl | ⟨front, d, rfl⟩
  · simp at ha
  · -- the last name is below `c.name`, and every other name below the last
    have hdc : d.name ≤ c.name := by
      rw [hl, List.pairwise_append] at hs
      exact hs.2.2 d (by simp) c (by simp)
    have hlt : d.name < c.name := lt_of_le_of_ne hdc (by simpa using hlast)
    simp only [List.concat_eq_append, List.map_append, List.map_cons, List.map_nil,
      List.pairwise_append, List.mem_append, List.mem_singleton] at hp ha
    rcases ha with ha | rfl
    · exact (hp.2.2 a ha d.name rfl).trans hlt
    · exact hlt

theorem foldlM_collectUnit_ok {cs : List UnitConfig} (hn : (cs.map (·.name)).Nodup) :
    cs.foldlM collectUnit [] = .ok (cs.map (·.name)) := by
  obtain ⟨units, h, rfl⟩ := Runs.foldlM_ok (f := collectUnit) (l := cs) (s := [])
    (P := fun done units => units = done.map (·.name)) rfl (by
      rintro done c rest s hl rfl
      refine ⟨_, collectUnit_eq_ok.mpr ⟨fun hlast => ?_, rfl⟩, by simp⟩
      have hmem : c.name ∈ done.map (·.name) := List.mem_of_getLast? hlast
      rw [hl, List.map_append, List.map_cons] at hn
      exact (List.disjoint_of_nodup_append hn) hmem (by simp))
  exact h

/-- The configs in name order. -/
def sorted (configs : List UnitConfig) : List UnitConfig :=
  configs.insertionSort fun a b => a.name ≤ b.name

theorem pairwise_sorted (configs : List UnitConfig) :
    (sorted configs).Pairwise fun a b => a.name ≤ b.name :=
  have : Std.Total fun a b : UnitConfig => a.name ≤ b.name := ⟨fun _ _ => le_total _ _⟩
  have : IsTrans UnitConfig fun a b => a.name ≤ b.name := ⟨fun _ _ _ => le_trans⟩
  List.pairwise_insertionSort _ _

theorem perm_sorted (configs : List UnitConfig) : (sorted configs).Perm configs :=
  List.perm_insertionSort _ _

/-- The graph the units are added to. -/
def bare (units : List UnitName) : DependencyGraph where
  units := units
  dependencies := List.replicate units.length []
  activations := List.replicate units.length []
  warnings := []

theorem partial_bare (units : List UnitName) : Partial units (fun _ _ => False) (bare units) := by
  refine ⟨rfl, ⟨by simp [bare], ?_, ?_⟩, fun i j => ?_⟩
  · intro ds hds
    rw [List.eq_of_mem_replicate hds]
    exact List.nodup_nil
  · intro ds hds
    rw [List.eq_of_mem_replicate hds]
    simp
  · simp only [bare, List.getD_eq_getElem?_getD, List.getElem?_replicate, iff_false]
    split <;> simp

/-- The graph of the configs, before it is checked for cycles. -/
def assemble (configs : List UnitConfig) : Except DependencyError DependencyGraph := do
  let units ← (sorted configs).foldlM collectUnit []
  (sorted configs).foldlM addUnit (bare (units.insertionSort (· ≤ ·)))

theorem build_eq_assemble (configs : List UnitConfig) : build configs =
    assemble configs >>= fun graph => graph.topologicalOrder >>= fun _ => pure graph := by
  simp only [build, assemble, bind_assoc]
  rfl

theorem build_eq_ok_iff {configs : List UnitConfig} {graph : DependencyGraph} :
    build configs = .ok graph ↔
      assemble configs = .ok graph ∧ ∃ order, graph.topologicalOrder = .ok order := by
  rw [build_eq_assemble, Runs.bind_eq_ok]
  constructor
  · rintro ⟨g, hg, h⟩
    obtain ⟨order, ho, h⟩ := Runs.bind_eq_ok.mp h
    cases h
    exact ⟨hg, order, ho⟩
  · rintro ⟨hg, order, ho⟩
    exact ⟨graph, hg, Runs.bind_eq_ok.mpr ⟨order, ho, rfl⟩⟩

/-- What an assembled graph is : the names in order, with the declared edges. -/
structure Assembled (configs : List UnitConfig) (graph : DependencyGraph) : Prop where
  units : graph.units = (sorted configs).map (·.name)
  sorted : graph.units.Pairwise (· < ·)
  wf : Toposort.WellFormed graph.units.length graph.dependencies
  resolves : ∀ c ∈ configs, Resolves graph.units c
  mem : ∀ i j, j ∈ graph.dependencies.getD i [] ↔ ∃ c ∈ configs, Declares graph.units c i j

theorem assembled_of_assemble {configs : List UnitConfig} {graph : DependencyGraph}
    (h : assemble configs = .ok graph) : Assembled configs graph := by
  obtain ⟨units, hu, hg⟩ := Runs.bind_eq_ok.mp h
  obtain ⟨rfl, hlt⟩ := foldlM_collectUnit (pairwise_sorted configs) hu
  have hle : ((sorted configs).map (·.name)).Pairwise (· ≤ ·) := hlt.imp le_of_lt
  rw [hle.insertionSort_eq] at hg
  set units := (sorted configs).map (·.name) with hunits
  have hn : units.Nodup := hlt.imp ne_of_lt
  have hall := Runs.foldlM_induction (P := fun done graph => (∀ c ∈ done, Resolves units c) ∧
      Partial units (fun i j => ∃ c ∈ done, Declares units c i j) graph) hg
    ⟨by simp, (partial_bare units).congr fun i j => by simp⟩ (by
      rintro done c rest s s' hl ⟨hr, hp⟩ hs
      have hc : c.name ∈ units := by
        rw [hunits, hl]
        simp
      obtain ⟨hrc, hp'⟩ := addUnit_spec hn hp hc hs
      refine ⟨by simpa [or_imp, forall_and] using ⟨hr, hrc⟩, hp'.congr fun i j => ?_⟩
      simp only [List.mem_append, List.mem_singleton, or_and_right, exists_or, exists_eq_left])
  obtain ⟨hres, hp⟩ := hall
  have hmem : ∀ c, c ∈ sorted configs ↔ c ∈ configs := fun c => (perm_sorted configs).mem_iff
  simp only [hmem] at hres hp
  have hgu : graph.units = units := hp.units_eq
  exact ⟨hgu, hgu ▸ hlt, hgu ▸ hp.wf, hgu ▸ hres, hgu ▸ hp.mem⟩

section Assembled

variable {configs : List UnitConfig} {graph : DependencyGraph}

theorem Assembled.nodup (h : Assembled configs graph) : graph.units.Nodup :=
  h.sorted.imp ne_of_lt

theorem Assembled.perm_names (h : Assembled configs graph) :
    graph.units.Perm (configs.map (·.name)) :=
  h.units ▸ (perm_sorted configs).map _

theorem Assembled.mem_dependenciesOf (h : Assembled configs graph) {a b : UnitName} :
    b ∈ graph.dependenciesOf a ↔ ∃ i j, graph.units[i]? = some a ∧ graph.units[j]? = some b ∧
      j ∈ graph.dependencies.getD i [] := by
  have hidx : ∀ i, graph.units.idxOf? a = some i ↔ graph.units[i]? = some a :=
    fun i => indexOf_eq_some h.nodup
  unfold dependenciesOf
  cases hi : graph.units.idxOf? a with
  | none =>
    have hnone : ∀ i, graph.units[i]? ≠ some a := fun i hia => by
      simpa [hi] using (hidx i).mpr hia
    simp [hnone]
  | some i =>
    have hia := (hidx i).mp hi
    have huniq : ∀ k, graph.units[k]? = some a → k = i := fun k hk => by
      simpa [hi, eq_comm] using (hidx k).mpr hk
    simp only [List.mem_filterMap]
    constructor
    · rintro ⟨j, hj, hjb⟩
      exact ⟨i, j, hia, hjb, hj⟩
    · rintro ⟨k, j, hk, hjb, hj⟩
      exact ⟨j, huniq k hk ▸ hj, hjb⟩

theorem mem_references {c : UnitConfig} {u : UnitName} {e : Edge} :
    (u, e) ∈ references c ↔ u ∈ c.deps.requires ∧ e = .requires ∨
      u ∈ c.deps.wants ∧ e = .wants ∨ u ∈ c.deps.after ∧ e = .after := by
  simp only [references, List.mem_append, List.mem_map, Prod.mk.injEq, or_assoc]
  simp [and_comm, eq_comm]

/-- The edges of an accepted graph are the declared ones. -/
theorem Assembled.mem_dependenciesOf_iff (h : Assembled configs graph) {a b : UnitName} :
    b ∈ graph.dependenciesOf a ↔ WaitsFor configs a b := by
  have hnames : ∀ u, u ∈ graph.units ↔ u ∈ configs.map (·.name) :=
    fun u => h.perm_names.mem_iff
  rw [h.mem_dependenciesOf]
  constructor
  · rintro ⟨i, j, hi, hj, hij⟩
    obtain ⟨c, hc, hdecl⟩ := (h.mem i j).mp hij
    rcases hdecl with ⟨hcj, u, hu, hiu⟩ | ⟨hci, ⟨u, e⟩, he, hju⟩
    · have hbc : c.name = b := Option.some.inj (hcj.symm.trans hj)
      have hau : u = a := Option.some.inj (hiu.symm.trans hi)
      exact Or.inr ⟨c, hc, hbc, hau ▸ hu⟩
    · have hac : c.name = a := Option.some.inj (hci.symm.trans hi)
      have hbu : u = b := Option.some.inj (hju.symm.trans hj)
      subst hbu
      refine Or.inl ⟨c, hc, hac, ?_⟩
      rcases mem_references.mp he with ⟨hr, _⟩ | ⟨hw, _⟩ | ⟨ha, _⟩
      · exact Or.inl hr
      · exact Or.inr (Or.inl ⟨hw, (hnames u).mp (List.mem_of_getElem? hj)⟩)
      · exact Or.inr (Or.inr ha)
  · rintro (⟨c, hc, rfl, hb⟩ | ⟨c, hc, rfl, ha⟩)
    · have hcu : c.name ∈ graph.units := (hnames _).mpr (List.mem_map_of_mem hc)
      have hbe : ∃ e, (b, e) ∈ references c ∧ b ∈ graph.units := by
        rcases hb with hb | ⟨hb, hbn⟩ | hb
        · have he := mem_references.mpr (Or.inl ⟨hb, rfl⟩)
          exact ⟨_, he, ((h.resolves c hc).2 _ he).resolve_right (by simp)⟩
        · exact ⟨_, mem_references.mpr (Or.inr (Or.inl ⟨hb, rfl⟩)), (hnames b).mpr hbn⟩
        · have he := mem_references.mpr (Or.inr (Or.inr ⟨hb, rfl⟩))
          exact ⟨_, he, ((h.resolves c hc).2 _ he).resolve_right (by simp)⟩
      obtain ⟨e, he, hbu⟩ := hbe
      obtain ⟨i, hi⟩ := List.mem_iff_getElem?.mp hcu
      obtain ⟨j, hj⟩ := List.mem_iff_getElem?.mp hbu
      exact ⟨i, j, hi, hj, (h.mem i j).mpr ⟨c, hc, Or.inr ⟨hi, (b, e), he, hj⟩⟩⟩
    · have hcu : c.name ∈ graph.units := (hnames _).mpr (List.mem_map_of_mem hc)
      obtain ⟨i, hi⟩ := List.mem_iff_getElem?.mp ((h.resolves c hc).1 a ha)
      obtain ⟨j, hj⟩ := List.mem_iff_getElem?.mp hcu
      exact ⟨i, j, hi, hj, (h.mem i j).mpr ⟨c, hc, Or.inl ⟨hj, a, ha, hi⟩⟩⟩

/-- The topological order of an accepted graph is a ready order of its units. -/
theorem Assembled.topologicalOrder (h : Assembled configs graph) {order : List UnitName}
    (ho : graph.topologicalOrder = .ok order) :
    order.Perm (configs.map (·.name)) ∧ Toposort.ReadyOrder graph.dependenciesOf [] order := by
  have hk : Toposort.kahn graph.units graph.dependencies = some order := by
    unfold DependencyGraph.topologicalOrder at ho
    cases hk : Toposort.kahn graph.units graph.dependencies with
    | none => simp [hk] at ho
    | some o => simpa [hk] using ho
  obtain ⟨idx, hperm, hready, rfl⟩ := Toposort.readyOrder_of_kahn h.wf hk
  have hall := Toposort.filterMap_getElem?_range graph.units
  refine ⟨((hall ▸ hperm.filterMap _).trans h.perm_names), ?_⟩
  have hinj : ∀ a b e, graph.units[a]? = some e → graph.units[b]? = some e → a = b :=
    fun a b e ha hb =>
      (List.getElem?_inj (lt_of_getElem?_eq_some ha) h.nodup).mp (ha.trans hb.symm)
  refine @Toposort.ReadyOrder.filterMap _ _ _ _ _ hinj ?_ [] _ hready
  intro i a hia e he
  obtain ⟨k, j, hk, hj, hd⟩ := h.mem_dependenciesOf.mp he
  exact ⟨j, hinj k i a hk hia ▸ hd, hj⟩

/-- The levels of an accepted graph give every unit the height of its name. -/
theorem Assembled.levels (h : Assembled configs graph) {order : List UnitName}
    (ho : graph.topologicalOrder = .ok order) :
    ∃ levels, graph.levels = .ok levels ∧ levels.flatten.Perm (configs.map (·.name)) ∧
      ∀ i a, a ∈ levels.getD i [] → Toposort.IsHeight (WaitsFor configs) a i := by
  obtain ⟨hperm, hready⟩ := h.topologicalOrder ho
  obtain ⟨hp, hh⟩ := Toposort.levels_spec hready
  refine ⟨_, by simp only [DependencyGraph.levels, ho]; rfl, hp.trans hperm, fun i a hia => ?_⟩
  have e : (fun x y => y ∈ graph.dependenciesOf x) = WaitsFor configs := by
    funext x y
    exact propext h.mem_dependenciesOf_iff
  exact e ▸ hh i a hia

theorem Assembled.mem_names (h : Assembled configs graph) {a b : UnitName}
    (hab : WaitsFor configs a b) :
    a ∈ configs.map (·.name) ∧ b ∈ configs.map (·.name) := by
  obtain ⟨i, j, hi, hj, _⟩ := h.mem_dependenciesOf.mp (h.mem_dependenciesOf_iff.mpr hab)
  exact ⟨h.perm_names.mem_iff.mp (List.mem_of_getElem? hi),
    h.perm_names.mem_iff.mp (List.mem_of_getElem? hj)⟩

end Assembled

/-- A schedule of the configured units : both lists hold every unit once, whatever a unit
waits for comes earlier, and the level of a unit is the length of the longest chain of
ordering dependencies below it. -/
structure Schedules (configs : List UnitConfig) (order : List UnitName)
    (levels : List (List UnitName)) : Prop where
  order_perm : order.Perm (configs.map (·.name))
  order_nodup : order.Nodup
  levels_perm : levels.flatten.Perm (configs.map (·.name))
  levels_nodup : levels.flatten.Nodup
  order_lt : ∀ a b, WaitsFor configs a b →
    ∃ i j : ℕ, order[i]? = some a ∧ order[j]? = some b ∧ j < i
  level_lt : ∀ a b, WaitsFor configs a b →
    ∃ i j : ℕ, a ∈ levels.getD i [] ∧ b ∈ levels.getD j [] ∧ j < i
  level_height : ∀ i a, a ∈ levels.getD i [] → Toposort.IsHeight (WaitsFor configs) a i
  level_zero : ∀ i a, a ∈ levels.getD i [] → (i = 0 ↔ ∀ b, ¬WaitsFor configs a b)

theorem mem_getD_of_mem_flatten {α : Type*} {levels : List (List α)} {a : α}
    (h : a ∈ levels.flatten) : ∃ i, a ∈ levels.getD i [] := by
  obtain ⟨l, hl, ha⟩ := List.mem_flatten.mp h
  obtain ⟨i, hi⟩ := List.mem_iff_getElem?.mp hl
  exact ⟨i, by simpa [hi] using ha⟩

/-- Whatever directory is accepted, its order and its levels are a schedule of it. -/
theorem schedules_of_build {configs : List UnitConfig} {graph : DependencyGraph}
    (h : build configs = .ok graph) :
    ∃ order levels, graph.topologicalOrder = .ok order ∧ graph.levels = .ok levels ∧
      Schedules configs order levels := by
  obtain ⟨hasm, order, ho⟩ := build_eq_ok_iff.mp h
  have hacc := assembled_of_assemble hasm
  obtain ⟨hperm, hready⟩ := hacc.topologicalOrder ho
  obtain ⟨levels, hl, hlperm, hheight⟩ := hacc.levels ho
  have hnames : (configs.map (·.name)).Nodup := hacc.perm_names.nodup_iff.mp hacc.nodup
  have hnodup : order.Nodup := hperm.nodup_iff.mpr hnames
  refine ⟨order, levels, ho, hl, hperm, hnodup, hlperm, hlperm.nodup_iff.mpr hnames, ?_, ?_,
    hheight, fun i a hia => (hheight i a hia).eq_zero_iff⟩
  · intro a b hab
    obtain ⟨ha, hb⟩ := hacc.mem_names hab
    obtain ⟨i, hi⟩ := List.mem_iff_getElem?.mp (hperm.mem_iff.mpr ha)
    obtain ⟨j, hj⟩ := List.mem_iff_getElem?.mp (hperm.mem_iff.mpr hb)
    have hlt := @Toposort.ReadyOrder.lt_of_mem _ _ [] _ hready i j a b hi (Nat.zero_le i)
      (hacc.mem_dependenciesOf_iff.mpr hab) hj hnodup
    exact ⟨i, j, hi, hj, hlt⟩
  · intro a b hab
    obtain ⟨ha, hb⟩ := hacc.mem_names hab
    obtain ⟨i, hi⟩ := mem_getD_of_mem_flatten (hlperm.mem_iff.mpr ha)
    obtain ⟨j, hj⟩ := mem_getD_of_mem_flatten (hlperm.mem_iff.mpr hb)
    exact ⟨i, j, hi, hj, (hheight i a hi).lt (hheight j b hj) hab⟩

theorem schedules_of_build_pair :
    ∃ graph, build [{ UnitConfig.new serviceB with deps.requires := [serviceA] },
        UnitConfig.new serviceA] = .ok graph ∧
      ∃ order levels, graph.topologicalOrder = .ok order ∧ graph.levels = .ok levels ∧
        Schedules [{ UnitConfig.new serviceB with deps.requires := [serviceA] },
          UnitConfig.new serviceA] order levels :=
  ⟨{ units := [serviceA, serviceB], dependencies := [[], [0]], activations := [[], [0]],
     warnings := [] }, by decide, schedules_of_build (by decide)⟩

/-! ## Directories that are accepted -/

theorem resolves_of_refsResolve {configs : List UnitConfig} (hr : RefsResolve configs)
    {c : UnitConfig} (hc : c ∈ configs) {units : List UnitName}
    (hu : ∀ u, u ∈ units ↔ u ∈ configs.map (·.name)) : Resolves units c := by
  refine ⟨fun u hb => (hu u).mpr (hr c hc u (Or.inr (Or.inr hb))), ?_⟩
  rintro ⟨u, e⟩ he
  rcases mem_references.mp he with ⟨h, _⟩ | ⟨_, rfl⟩ | ⟨h, _⟩
  · exact Or.inl ((hu u).mpr (hr c hc u (Or.inl h)))
  · exact Or.inr rfl
  · exact Or.inl ((hu u).mpr (hr c hc u (Or.inr (Or.inl h))))

theorem assemble_ok {configs : List UnitConfig} (hn : (configs.map (·.name)).Nodup)
    (hr : RefsResolve configs) : ∃ graph, assemble configs = .ok graph := by
  have hperm := (perm_sorted configs).map (·.name)
  have hns : ((sorted configs).map (·.name)).Nodup := hperm.nodup_iff.mpr hn
  have hle : ((sorted configs).map (·.name)).Pairwise (· ≤ ·) :=
    List.pairwise_map.mpr (pairwise_sorted configs)
  obtain ⟨graph, hg, _⟩ := Runs.foldlM_ok (f := addUnit) (l := sorted configs)
    (s := bare ((sorted configs).map (·.name)))
    (P := fun _ graph => ∃ E, Partial ((sorted configs).map (·.name)) E graph)
    ⟨_, partial_bare _⟩ (by
      rintro done c rest s hl ⟨E, hp⟩
      have hc : c ∈ sorted configs := by simp [hl]
      have hres : Resolves ((sorted configs).map (·.name)) c :=
        resolves_of_refsResolve hr ((perm_sorted configs).mem_iff.mp hc) fun u => hperm.mem_iff
      obtain ⟨graph', hok⟩ := addUnit_ok hns hp hres
      exact ⟨graph', hok, _, (addUnit_spec hns hp (List.mem_map_of_mem hc) hok).2⟩)
  refine ⟨graph, Runs.bind_eq_ok.mpr ⟨_, foldlM_collectUnit_ok hns, ?_⟩⟩
  rw [hle.insertionSort_eq]
  exact hg

/-- A chain of edges on indices is a chain of declared dependencies on names. -/
theorem Assembled.transGen {configs : List UnitConfig} {graph : DependencyGraph}
    (h : Assembled configs graph) {i j : ℕ}
    (hij : Relation.TransGen (fun i j => j ∈ graph.dependencies.getD i []) i j) :
    ∃ a b, graph.units[i]? = some a ∧ graph.units[j]? = some b ∧
      Relation.TransGen (WaitsFor configs) a b := by
  have hstep : ∀ i j, j ∈ graph.dependencies.getD i [] → ∃ a b, graph.units[i]? = some a ∧
      graph.units[j]? = some b ∧ WaitsFor configs a b := by
    intro i j hd
    have hab : ∃ a b, graph.units[i]? = some a ∧ graph.units[j]? = some b := by
      obtain ⟨c, hc, ⟨hj, u, hu, hi⟩ | ⟨hi, e, he, hj⟩⟩ := (h.mem i j).mp hd
      · exact ⟨_, _, hi, hj⟩
      · exact ⟨_, _, hi, hj⟩
    obtain ⟨a, b, ha, hb⟩ := hab
    exact ⟨a, b, ha, hb,
      h.mem_dependenciesOf_iff.mp (h.mem_dependenciesOf.mpr ⟨i, j, ha, hb, hd⟩)⟩
  induction hij with
  | single hd =>
    obtain ⟨a, b, ha, hb, hab⟩ := hstep _ _ hd
    exact ⟨a, b, ha, hb, .single hab⟩
  | tail _ hd ih =>
    obtain ⟨a, b, ha, hb, hab⟩ := ih
    obtain ⟨b', c, hb', hc, hbc⟩ := hstep _ _ hd
    cases hb.symm.trans hb'
    exact ⟨a, c, ha, hc, hab.tail hbc⟩

/-- Distinct names, hard references that resolve and no cycle are enough. -/
theorem build_eq_ok {configs : List UnitConfig} (hn : (configs.map (·.name)).Nodup)
    (hr : RefsResolve configs) (hac : ∀ u, ¬Relation.TransGen (WaitsFor configs) u u) :
    ∃ graph, build configs = .ok graph := by
  obtain ⟨graph, hg⟩ := assemble_ok hn hr
  have hasm := assembled_of_assemble hg
  have hsome := Toposort.kahn_isSome hasm.wf fun i hi => by
    obtain ⟨a, b, ha, hb, hab⟩ := hasm.transGen hi
    cases ha.symm.trans hb
    exact hac a hab
  obtain ⟨order, ho⟩ := Option.isSome_iff_exists.mp hsome
  exact ⟨graph, build_eq_ok_iff.mpr ⟨hg, order, by simp [topologicalOrder, ho]⟩⟩

/-- The references of an accepted directory resolve. -/
theorem refsResolve_of_build {configs : List UnitConfig} {graph : DependencyGraph}
    (h : build configs = .ok graph) : RefsResolve configs := by
  have hasm := assembled_of_assemble (build_eq_ok_iff.mp h).1
  intro c hc u hu
  rw [← hasm.perm_names.mem_iff]
  rcases hu with hu | hu | hu
  · exact ((hasm.resolves c hc).2 _ (mem_references.mpr (.inl ⟨hu, rfl⟩))).resolve_right (by simp)
  · exact ((hasm.resolves c hc).2 _
      (mem_references.mpr (.inr (.inr ⟨hu, rfl⟩)))).resolve_right (by simp)
  · exact (hasm.resolves c hc).1 u hu

/-- An accepted directory has an order of its units, and a cycle does not fit in there. -/
theorem acyclic_of_build {configs : List UnitConfig} {graph : DependencyGraph}
    (h : build configs = .ok graph) (u : UnitName) :
    ¬Relation.TransGen (WaitsFor configs) u u := by
  obtain ⟨hg, order, ho⟩ := build_eq_ok_iff.mp h
  have hasm := assembled_of_assemble hg
  obtain ⟨hperm, hready⟩ := hasm.topologicalOrder ho
  intro hu
  refine hready.not_transGen (fun a b hb => ?_) u
    (Relation.TransGen.mono (fun _ _ => hasm.mem_dependenciesOf_iff.mpr) u u hu)
  exact hperm.mem_iff.mpr (hasm.mem_names (hasm.mem_dependenciesOf_iff.mp hb)).1

/-! ## The order of the files -/

theorem map_name_sorted_eq {configs configs' : List UnitConfig} (h : configs.Perm configs') :
    (sorted configs).map (·.name) = (sorted configs').map (·.name) :=
  ((((perm_sorted configs).trans h).trans (perm_sorted configs').symm).map _).eq_of_pairwise
    (fun _ _ _ _ => le_antisymm) (List.pairwise_map.mpr (pairwise_sorted configs))
    (List.pairwise_map.mpr (pairwise_sorted configs'))

/-- Distinct names leave only one order. -/
theorem sorted_eq {configs configs' : List UnitConfig} (h : configs.Perm configs')
    (hn : (configs.map (·.name)).Nodup) : sorted configs = sorted configs' := by
  refine (((perm_sorted configs).trans h).trans (perm_sorted configs').symm).eq_of_pairwise ?_
    (pairwise_sorted configs) (pairwise_sorted configs')
  intro a b ha hb hab hba
  exact List.inj_on_of_nodup_map hn ((perm_sorted configs).mem_iff.mp ha)
    (h.mem_iff.mpr ((perm_sorted configs').mem_iff.mp hb)) (le_antisymm hab hba)

/-- Collecting the names looks at nothing else of the units. -/
theorem foldlM_collectUnit_eq (cs : List UnitConfig) (units : List UnitName) :
    cs.foldlM collectUnit units = (cs.map (·.name)).foldlM (fun units name =>
      if units.getLast? = some name then .error (.duplicateUnit name)
      else .ok (units ++ [name])) units := by
  rw [List.foldlM_map]
  rfl

/-- The result, an error or a graph, does not depend on the order of the files. -/
theorem build_eq_of_perm {configs configs' : List UnitConfig} (h : configs.Perm configs') :
    build configs = build configs' := by
  have hcollect : (sorted configs).foldlM collectUnit [] =
      (sorted configs').foldlM collectUnit [] := by
    rw [foldlM_collectUnit_eq, foldlM_collectUnit_eq, map_name_sorted_eq h]
  suffices hasm : assemble configs = assemble configs' by
    rw [build_eq_assemble, build_eq_assemble, hasm]
  unfold assemble
  rw [← hcollect]
  cases hc : (sorted configs).foldlM collectUnit [] with
  | error e => rfl
  | ok units =>
    -- the names are distinct, so it is the same list that is added
    obtain ⟨rfl, hlt⟩ := foldlM_collectUnit (pairwise_sorted configs) hc
    have hn : (configs.map (·.name)).Nodup :=
      ((perm_sorted configs).map _).nodup_iff.mp (hlt.imp ne_of_lt)
    rw [sorted_eq h hn]

theorem build_eq_of_swap :
    build [{ UnitConfig.new serviceB with deps.requires := [serviceA] },
        UnitConfig.new serviceA] =
      build [UnitConfig.new serviceA,
        { UnitConfig.new serviceB with deps.requires := [serviceA] }] :=
  build_eq_of_perm (.swap _ _ [])

end DependencyGraph

end Rinit
