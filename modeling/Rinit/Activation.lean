import Mathlib.Algebra.Order.BigOperators.Group.Finset
import Rinit.Plan
import Rinit.Schedule

/-!
# What a unit pulls in

`Activates` is the activation relation the unit files declare : `Requires=`, and `Wants=`
where it resolves. `build` keeps it in a second adjacency next to the ordering one, which
holds these edges and no others (`activation_of_assemble`). `closureOf` walks it with a stack
and a set of the indices that were expanded (`Walk`), and so lists what can be reached from
the unit, in name order (`closureOf_of_build`).

`planBoot` cuts the levels of the whole directory down to the closure of the boot target.
None of the closure is lost, and what was on a higher level still is (`closure_schedule`).
-/

namespace Rinit

/-- Starting `a` starts `b` : `a` names `b` in `Requires=`, or in a `Wants=` that resolves. -/
def Activates (configs : List UnitConfig) (a b : UnitName) : Prop :=
  ∃ c ∈ configs, c.name = a ∧
    (b ∈ c.deps.requires ∨ b ∈ c.deps.wants ∧ b ∈ configs.map (·.name))

namespace DependencyGraph

/-! ## The activation edges -/

/-- The graph with its activations as the edges. -/
def activation (graph : DependencyGraph) : DependencyGraph :=
  { graph with dependencies := graph.activations }

/-- The activations one unit declares, on indices : `i` starts `j`. -/
def Starts (units : List UnitName) (c : UnitConfig) (i j : ℕ) : Prop :=
  units[i]? = some c.name ∧ ∃ e ∈ references c, e.2 ≠ .after ∧ units[j]? = some e.1

section AddUnit

variable {units : List UnitName} {A : ℕ → ℕ → Prop} {graph graph' : DependencyGraph}
  {cfg : UnitConfig} {me : ℕ}

/-- An edge that is not an activation leaves the activations alone. -/
theorem Partial.of_activations_eq (h : Partial units A graph.activation)
    (hu : graph'.units = graph.units) (ha : graph'.activations = graph.activations) :
    Partial units A graph'.activation := by
  have e : graph'.activation.dependencies = graph.activation.dependencies := ha
  exact ⟨hu.trans h.units_eq, e ▸ h.wf, fun i j => e ▸ h.mem i j⟩

theorem Partial.addBefore (h : Partial units A graph.activation) {u : UnitName}
    (hf : addBefore cfg me graph u = .ok graph') : Partial units A graph'.activation := by
  unfold DependencyGraph.addBefore at hf
  cases hi : indexOf graph.units u with
  | none => simp [hi] at hf
  | some other =>
    obtain rfl := Except.ok.inj (by simpa only [hi] using hf)
    exact h.of_activations_eq rfl rfl

theorem Partial.addConflict (h : Partial units A graph.activation) (u : UnitName) :
    Partial units A (addConflict cfg graph u).activation := by
  unfold DependencyGraph.addConflict
  split
  · exact h
  · exact h.of_activations_eq rfl rfl

theorem Partial.addEdge (hn : units.Nodup) (h : Partial units A graph.activation)
    (hme : units[me]? = some cfg.name) {e : UnitName × Edge}
    (hf : addEdge cfg me graph e = .ok graph') :
    Partial units (fun i j => A i j ∨ i = me ∧ e.2 ≠ .after ∧ units[j]? = some e.1)
      graph'.activation := by
  have hu : graph.units = units := h.units_eq
  unfold DependencyGraph.addEdge at hf
  cases hi : indexOf graph.units e.1 with
  | none =>
    have hnone : ∀ j, units[j]? ≠ some e.1 := fun j hj =>
      indexOf_eq_none.mp hi (hu ▸ List.mem_of_getElem? hj)
    have hsame : graph'.units = graph.units ∧ graph'.activations = graph.activations := by
      cases he : e.2 with
      | requires => simp [hi, he] at hf
      | after => simp [hi, he] at hf
      | wants =>
        obtain rfl := Except.ok.inj (by simpa only [hi, he] using hf)
        exact ⟨rfl, rfl⟩
    exact (h.of_activations_eq hsame.1 hsame.2).congr fun i j => by simp [hnone]
  | some other =>
    have ho : units[other]? = some e.1 := (indexOf_eq_some hn).mp (hu ▸ hi)
    have hoj : ∀ j, units[j]? = some e.1 ↔ j = other := by
      intro j
      rw [← indexOf_eq_some hn, ← hu, hi]
      exact ⟨fun e => (Option.some.inj e).symm, fun e => congrArg some e.symm⟩
    have hsame : graph'.units = graph.units ∧ graph'.activations =
        if e.2 = .requires ∨ e.2 = .wants then graph.activations.modify me (pushUnique · other)
        else graph.activations := by
      obtain rfl := Except.ok.inj (by simpa only [hi] using hf)
      exact ⟨rfl, rfl⟩
    by_cases he : e.2 = .requires ∨ e.2 = .wants
    · have hne : e.2 ≠ .after := by rcases he with he | he <;> simp [he]
      have hu' : graph'.activation.units = graph.activation.units := hsame.1
      have hd : graph'.activation.dependencies =
          graph.activation.dependencies.modify me (pushUnique · other) :=
        hsame.2.trans (if_pos he)
      refine (h.insert (lt_of_getElem?_eq_some hme) (lt_of_getElem?_eq_some ho) hu' hd).congr
        fun i j => ?_
      rw [hoj, and_iff_right hne]
    · have haf : e.2 = .after := by
        cases h2 : e.2 <;> simp_all
      rw [if_neg he] at hsame
      exact (h.of_activations_eq hsame.1 hsame.2).congr fun i j => by simp [haf]

/-- A unit that is added adds the activations it declares. -/
theorem Partial.addUnit (hn : units.Nodup) (h : Partial units A graph.activation)
    (hc : cfg.name ∈ units) (hf : addUnit graph cfg = .ok graph') :
    Partial units (fun i j => A i j ∨ Starts units cfg i j) graph'.activation := by
  have hu : graph.units = units := h.units_eq
  obtain ⟨me, g1, hmi, hb, hf⟩ := addUnit_eq_ok hn hu hc hf
  have h1 : Partial units A g1.activation :=
    Runs.foldlM_induction (P := fun _ (g : DependencyGraph) => Partial units A g.activation) hb h
      fun _ _ _ _ _ _ h hs => h.addBefore hs
  have h2 : Partial units A (cfg.deps.conflicts.foldl (DependencyGraph.addConflict cfg)
      g1).activation :=
    Runs.foldl_induction (P := fun _ (g : DependencyGraph) => Partial units A g.activation) h1
      fun _ u _ _ _ h => h.addConflict u
  have h3 := Runs.foldlM_induction (P := fun l g => Partial units (fun i j => A i j ∨ i = me ∧
      ∃ e ∈ l, e.2 ≠ .after ∧ units[j]? = some e.1) g.activation) hf
    (h2.congr fun i j => by simp) fun done e rest s s' _ h hs => by
      refine (h.addEdge hn ((hmi me).mpr rfl) hs).congr fun i j => ?_
      simp only [List.mem_append, List.mem_singleton, or_and_right, exists_or, exists_eq_left]
      rw [or_assoc, ← and_or_left]
  exact h3.congr fun i j => by simp only [Starts, hmi]

end AddUnit

/-- The activations of an assembled graph are the declared ones. -/
theorem activation_of_assemble {configs : List UnitConfig} {graph : DependencyGraph}
    (h : assemble configs = .ok graph) : Partial graph.units
      (fun i j => ∃ c ∈ configs, Starts graph.units c i j) graph.activation := by
  have hasm := assembled_of_assemble h
  obtain ⟨units, hu, hg⟩ := Runs.bind_eq_ok.mp h
  obtain ⟨rfl, hlt⟩ := foldlM_collectUnit (pairwise_sorted configs) hu
  have hle : ((sorted configs).map (·.name)).Pairwise (· ≤ ·) := hlt.imp le_of_lt
  rw [hle.insertionSort_eq, ← hasm.units] at hg
  have hall := Runs.foldlM_induction (P := fun done g => Partial graph.units
      (fun i j => ∃ c ∈ done, Starts graph.units c i j) g.activation) hg
    ((partial_bare graph.units).congr fun i j => by simp) (by
      intro done c rest s s' hl h hs
      have hc : c.name ∈ graph.units := by
        rw [hasm.units, hl]
        simp
      refine (h.addUnit hasm.nodup hc hs).congr fun i j => ?_
      simp only [List.mem_append, List.mem_singleton, or_and_right, exists_or, exists_eq_left])
  exact hall.congr fun i j => by simp only [(perm_sorted configs).mem_iff]

/-- An activation on indices is one on names. -/
theorem Assembled.activates_iff {configs : List UnitConfig} {graph : DependencyGraph}
    (hasm : Assembled configs graph)
    (h : Partial graph.units (fun i j => ∃ c ∈ configs, Starts graph.units c i j)
      graph.activation) {i : ℕ} {a b : UnitName} (hi : graph.units[i]? = some a) :
    Activates configs a b ↔ ∃ j, graph.units[j]? = some b ∧ j ∈ graph.activations.getD i [] := by
  have hmem : ∀ j, j ∈ graph.activations.getD i [] ↔ ∃ c ∈ configs, Starts graph.units c i j :=
    h.mem i
  constructor
  · rintro ⟨c, hc, rfl, hb⟩
    obtain ⟨e, he, hne, hbu⟩ : ∃ e, (b, e) ∈ references c ∧ e ≠ .after ∧ b ∈ graph.units := by
      rcases hb with hb | ⟨hb, hbn⟩
      · have he := mem_references.mpr (Or.inl ⟨hb, rfl⟩)
        exact ⟨_, he, by simp, ((hasm.resolves c hc).2 _ he).resolve_right (by simp)⟩
      · exact ⟨_, mem_references.mpr (Or.inr (Or.inl ⟨hb, rfl⟩)), by simp,
          hasm.perm_names.mem_iff.mpr hbn⟩
    obtain ⟨j, hj⟩ := List.mem_iff_getElem?.mp hbu
    exact ⟨j, hj, (hmem j).mpr ⟨c, hc, hi, (b, e), he, hne, hj⟩⟩
  · rintro ⟨j, hj, hij⟩
    obtain ⟨c, hc, hci, ⟨u, e⟩, he, hne, hju⟩ := (hmem j).mp hij
    obtain rfl : c.name = a := Option.some.inj (hci.symm.trans hi)
    obtain rfl : u = b := Option.some.inj (hju.symm.trans hj)
    refine ⟨c, hc, rfl, ?_⟩
    rcases mem_references.mp he with ⟨hr, _⟩ | ⟨hw, _⟩ | ⟨_, rfl⟩
    · exact Or.inl hr
    · exact Or.inr ⟨hw, hasm.perm_names.mem_iff.mp (List.mem_of_getElem? hj)⟩
    · exact absurd rfl hne

/-! ## The walk -/

/-- A walk from `start` under way : what it has seen and what is on the stack can be reached,
and what an index that was seen activates is seen or on the stack. -/
structure Walk (n : ℕ) (acts : ℕ → List ℕ) (start : ℕ) (stack : List ℕ)
    (seen : Std.ExtTreeSet ℕ compare) : Prop where
  reached : ∀ i, i ∈ stack ∨ i ∈ seen → Relation.ReflTransGen (fun i j => j ∈ acts i) start i
  lt : ∀ i ∈ stack, i < n
  start : start ∈ stack ∨ start ∈ seen
  closed : ∀ i ∈ seen, ∀ j ∈ acts i, j ∈ stack ∨ j ∈ seen

section Walk

variable {n : ℕ} {acts : ℕ → List ℕ} {start index : ℕ} {stack : List ℕ}
  {seen : Std.ExtTreeSet ℕ compare}

theorem mem_insert_index {i : ℕ} : i ∈ seen.insert index ↔ i = index ∨ i ∈ seen := by
  rw [Std.ExtTreeSet.mem_insert, Std.compare_eq_iff_eq, eq_comm]

/-- An index that was seen is dropped. -/
theorem Walk.skip (h : Walk n acts start (index :: stack) seen) (hs : index ∈ seen) :
    Walk n acts start stack seen := by
  have hdrop : ∀ i, i ∈ index :: stack ∨ i ∈ seen → i ∈ stack ∨ i ∈ seen := by
    rintro i (hi | hi)
    · rcases List.mem_cons.mp hi with rfl | hi
      · exact Or.inr hs
      · exact Or.inl hi
    · exact Or.inr hi
  exact ⟨fun i hi => h.reached i (hi.imp_left (List.mem_cons_of_mem _)),
    fun i hi => h.lt i (List.mem_cons_of_mem _ hi), hdrop _ h.start,
    fun i hi j hj => hdrop j (h.closed i hi j hj)⟩

/-- An index that is new is seen, and what it activates is pushed. -/
theorem Walk.expand (h : Walk n acts start (index :: stack) seen)
    (hlt : ∀ i, ∀ j ∈ acts i, j < n) :
    Walk n acts start ((acts index).reverse ++ stack) (seen.insert index) := by
  have hidx := h.reached index (Or.inl (by simp))
  have hkeep : ∀ i, i ∈ index :: stack ∨ i ∈ seen →
      i ∈ (acts index).reverse ++ stack ∨ i ∈ seen.insert index := by
    rintro i (hi | hi)
    · rcases List.mem_cons.mp hi with rfl | hi
      · exact Or.inr (mem_insert_index.mpr (Or.inl rfl))
      · exact Or.inl (List.mem_append_right _ hi)
    · exact Or.inr (mem_insert_index.mpr (Or.inr hi))
  refine ⟨fun i hi => ?_, fun i hi => ?_, hkeep _ h.start, fun i hi j hj => ?_⟩
  · rcases hi with hi | hi
    · rcases List.mem_append.mp hi with hi | hi
      · exact hidx.tail (List.mem_reverse.mp hi)
      · exact h.reached i (Or.inl (List.mem_cons_of_mem _ hi))
    · rcases mem_insert_index.mp hi with rfl | hi
      · exact hidx
      · exact h.reached i (Or.inr hi)
  · rcases List.mem_append.mp hi with hi | hi
    · exact hlt index i (List.mem_reverse.mp hi)
    · exact h.lt i (List.mem_cons_of_mem _ hi)
  · rcases mem_insert_index.mp hi with rfl | hi
    · exact Or.inl (List.mem_append_left _ (List.mem_reverse.mpr hj))
    · exact hkeep j (h.closed i hi j hj)

/-- When the stack is empty everything was seen. -/
theorem Walk.mem_iff (h : Walk n acts start [] seen) {i : ℕ} :
    i ∈ seen ↔ Relation.ReflTransGen (fun i j => j ∈ acts i) start i := by
  refine ⟨fun hi => h.reached i (Or.inr hi), fun hi => ?_⟩
  induction hi with
  | refl => simpa using h.start
  | tail _ hj ih => simpa using h.closed _ ih _ hj

/-- What a walk has left to do at most : the stack, and the activations of the indices it
has not seen. -/
def walkWeight (n : ℕ) (acts : ℕ → List ℕ) (stack : List ℕ)
    (seen : Std.ExtTreeSet ℕ compare) : ℕ :=
  stack.length + ∑ i ∈ (Finset.range n).filter (· ∉ seen), (acts i).length

theorem walkWeight_expand (hi : index < n) (hs : index ∉ seen) :
    walkWeight n acts ((acts index).reverse ++ stack) (seen.insert index) <
      walkWeight n acts (index :: stack) seen := by
  have herase : (Finset.range n).filter (· ∉ seen.insert index) =
      ((Finset.range n).filter (· ∉ seen)).erase index := by
    ext i
    simp only [Finset.mem_filter, Finset.mem_erase, mem_insert_index]
    tauto
  have hmem : index ∈ (Finset.range n).filter (· ∉ seen) :=
    Finset.mem_filter.mpr ⟨Finset.mem_range.mpr hi, hs⟩
  have hsum := Finset.sum_erase_add _ (fun i => (acts i).length) hmem
  simp only [walkWeight, herase, List.length_append, List.length_reverse, List.length_cons]
  omega

/-- With enough fuel the walk sees exactly what can be reached. -/
theorem mem_closureRun {graph : DependencyGraph}
    (hlt : ∀ i, ∀ j ∈ graph.activations.getD i [], j < n) :
    ∀ {fuel : ℕ} {stack : List ℕ} {seen : Std.ExtTreeSet ℕ compare} {i : ℕ},
      Walk n (fun i => graph.activations.getD i []) start stack seen →
      walkWeight n (fun i => graph.activations.getD i []) stack seen < fuel →
      (i ∈ graph.closureRun fuel stack seen ↔
        Relation.ReflTransGen (fun i j => j ∈ graph.activations.getD i []) start i)
  | 0, _, _, _, _, hw => absurd hw (by omega)
  | fuel + 1, [], seen, i, h, _ => h.mem_iff
  | fuel + 1, index :: stack, seen, i, h, hw => by
    by_cases hs : index ∈ seen
    · have hw' : walkWeight n (fun i => graph.activations.getD i []) stack seen < fuel := by
        simp only [walkWeight, List.length_cons] at hw ⊢
        omega
      rw [closureRun, if_pos (Std.ExtTreeSet.mem_iff_contains.mp hs)]
      exact mem_closureRun hlt (h.skip hs) hw'
    · have hw' := lt_of_lt_of_le (walkWeight_expand (h.lt index (by simp)) hs)
        (Nat.le_of_lt_succ hw)
      rw [closureRun, if_neg fun hc => hs (Std.ExtTreeSet.mem_iff_contains.mpr hc)]
      exact mem_closureRun hlt (h.expand hlt) hw'

end Walk

section Closure

variable {configs : List UnitConfig} {graph : DependencyGraph}

theorem mem_closureRun_of_assemble (h : assemble configs = .ok graph) {start i : ℕ}
    (hs : start < graph.units.length) :
    i ∈ graph.closureRun graph.closureFuel [start] ∅ ↔
      Relation.ReflTransGen (fun i j => j ∈ graph.activations.getD i []) start i := by
  have hp := activation_of_assemble h
  have hlen : graph.activations.length = graph.units.length := hp.wf.length
  refine mem_closureRun (n := graph.units.length) (fun i j => hp.wf.lt_of_mem_getD) ?_ ?_
  · refine ⟨fun i hi => ?_, by simpa using hs, by simp, by simp⟩
    obtain rfl : i = start := by simpa using hi
    exact .refl
  · have hle : (∑ i ∈ (Finset.range graph.units.length).filter
          (· ∉ (∅ : Std.ExtTreeSet ℕ compare)), (graph.activations.getD i []).length) ≤
        (graph.activations.map List.length).sum := by
      rw [← Toposort.sum_range_getD, hlen]
      exact Finset.sum_le_sum_of_subset (Finset.filter_subset _ _)
    simp only [walkWeight, closureFuel, List.length_singleton]
    omega

/-- Reaching an index is reaching its unit. -/
theorem reflTransGen_activates (h : assemble configs = .ok graph) {i : ℕ} {a b : UnitName}
    (hi : graph.units[i]? = some a) : Relation.ReflTransGen (Activates configs) a b ↔
      ∃ j, graph.units[j]? = some b ∧
        Relation.ReflTransGen (fun i j => j ∈ graph.activations.getD i []) i j := by
  have hasm := assembled_of_assemble h
  have hp := activation_of_assemble h
  constructor
  · intro hab
    induction hab with
    | refl => exact ⟨i, hi, .refl⟩
    | tail _ hbc ih =>
      obtain ⟨j, hj, hij⟩ := ih
      obtain ⟨k, hk, hjk⟩ := (hasm.activates_iff hp hj).mp hbc
      exact ⟨k, hk, hij.tail hjk⟩
  · rintro ⟨j, hj, hij⟩
    induction hij generalizing b with
    | refl =>
      obtain rfl := Option.some.inj (hi.symm.trans hj)
      exact .refl
    | @tail k l _ hkl ih =>
      obtain ⟨c, hc, hck, -⟩ := (hp.mem k l).mp hkl
      exact (ih hck).tail ((hasm.activates_iff hp hck).mpr ⟨l, hj, hkl⟩)

/-- The closure of a unit lists, in name order, what it reaches by activations. -/
theorem closureOf_of_build (h : build configs = .ok graph) {t : UnitName}
    (ht : t ∈ graph.units) : (graph.closureOf t).Pairwise (· < ·) ∧
      ∀ u, u ∈ graph.closureOf t ↔ Relation.ReflTransGen (Activates configs) t u := by
  obtain ⟨hasm, -⟩ := build_eq_ok_iff.mp h
  have hacc := assembled_of_assemble hasm
  cases hs : indexOf graph.units t with
  | none => exact absurd ht (indexOf_eq_none.mp hs)
  | some start =>
    have hst := (indexOf_eq_some hacc.nodup).mp hs
    have e : graph.closureOf t = (graph.closureRun graph.closureFuel [start]
        ∅).toList.filterMap (graph.units[·]?) := by simp only [closureOf, hs]
    rw [e]
    constructor
    · rw [List.pairwise_filterMap]
      refine Std.ExtTreeSet.ordered_toList.imp fun {i j} hij a ha b hb => ?_
      obtain ⟨hi, rfl⟩ := List.getElem?_eq_some_iff.mp ha
      obtain ⟨hj, rfl⟩ := List.getElem?_eq_some_iff.mp hb
      exact List.pairwise_iff_getElem.mp hacc.sorted i j hi hj
        (Nat.compare_eq_lt.mp hij)
    · intro u
      rw [reflTransGen_activates hasm hst, List.mem_filterMap]
      refine exists_congr fun j => ?_
      rw [Std.ExtTreeSet.mem_toList,
        mem_closureRun_of_assemble hasm (lt_of_getElem?_eq_some hst), and_comm]

theorem mem_units_of_mem_closureOf {t u : UnitName} (h : u ∈ graph.closureOf t) :
    u ∈ graph.units := by
  unfold closureOf at h
  cases hs : indexOf graph.units t with
  | none => simp [hs] at h
  | some start =>
    simp only [hs] at h
    obtain ⟨j, -, hj⟩ := List.mem_filterMap.mp h
    exact List.mem_of_getElem? hj

end Closure

end DependencyGraph

/-! ## The boot plan -/

namespace BootPlan

variable {files : List UnitFile} {warnings : List String} {target : String} {plan : BootPlan}

/-- A plan is made for a target that is in the directory. -/
theorem defaultTarget_mem (h : planBoot files warnings target = .ok plan)
    {graph : DependencyGraph} (hg : DependencyGraph.build plan.configs = .ok graph) :
    plan.defaultTarget ∈ graph.units := by
  unfold planBoot at h
  split at h
  · cases h
  · unfold resolve at h
    split at h
    · cases h
    · split at h
      · cases h
      · split at h
        · cases h
        · next graph' hbuild =>
          split at h
          · next hmem =>
            split at h
            · cases h
            · obtain rfl := Except.ok.inj h
              obtain rfl := Except.ok.inj (hbuild.symm.trans hg)
              simpa using hmem
          · cases h

/-- Cutting the levels down keeps which of two wanted units is on the higher one. -/
theorem lt_wantedLevels {wanted : List UnitName} {a b : UnitName} (ha : a ∈ wanted)
    (hb : b ∈ wanted) : ∀ {levels : List (List UnitName)} {i j : ℕ}, a ∈ levels.getD i [] →
      b ∈ levels.getD j [] → j < i → ∃ i' j', a ∈ (wantedLevels levels wanted).getD i' [] ∧
        b ∈ (wantedLevels levels wanted).getD j' [] ∧ j' < i'
  | [], i, j, hai, _, _ => by simp at hai
  | level :: levels, i + 1, 0, hai, hbj, _ => by
    rw [List.getD_cons_succ] at hai
    have hbl : b ∈ level.filter wanted.contains :=
      List.mem_filter.mpr ⟨by simpa using hbj, by simpa using hb⟩
    have e : wantedLevels (level :: levels) wanted =
        level.filter wanted.contains :: wantedLevels levels wanted := by
      simp only [wantedLevels, List.map_cons]
      rw [List.filter_cons_of_pos]
      simpa using ⟨b, by simpa using hbj, hb⟩
    have haf : a ∈ (wantedLevels levels wanted).flatten := by
      rw [flatten_wantedLevels]
      refine List.mem_filter.mpr ⟨?_, by simpa using ha⟩
      rw [List.getD_eq_getElem?_getD] at hai
      cases hl : levels[i]? with
      | none => simp [hl] at hai
      | some l => exact List.mem_flatten.mpr ⟨l, List.mem_of_getElem? hl, by simpa [hl] using hai⟩
    obtain ⟨k, hk⟩ := DependencyGraph.mem_getD_of_mem_flatten haf
    exact ⟨k + 1, 0, by simpa [e] using hk, by simpa [e] using hbl, by omega⟩
  | level :: levels, i + 1, j + 1, hai, hbj, hij => by
    rw [List.getD_cons_succ] at hai hbj
    obtain ⟨i', j', hi', hj', hlt⟩ := lt_wantedLevels ha hb hai hbj (Nat.lt_of_succ_lt_succ hij)
    cases he : (level.filter wanted.contains).isEmpty with
    | true =>
      have e : wantedLevels (level :: levels) wanted = wantedLevels levels wanted := by
        simp only [wantedLevels, List.map_cons]
        rw [List.filter_cons_of_neg (by simp [he])]
      exact ⟨i', j', e ▸ hi', e ▸ hj', hlt⟩
    | false =>
      have e : wantedLevels (level :: levels) wanted =
          level.filter wanted.contains :: wantedLevels levels wanted := by
        simp only [wantedLevels, List.map_cons]
        rw [List.filter_cons_of_pos (by simp [he])]
      exact ⟨i' + 1, j' + 1, by simpa [e] using hi', by simpa [e] using hj', by omega⟩

/-- Levels that schedule a set of units : each unit is on one level, no level is empty, and
what a unit waits for among them is on a lower one. -/
structure SchedulesUnits (configs : List UnitConfig) (units : List UnitName)
    (levels : List (List UnitName)) : Prop where
  perm : levels.flatten.Perm units
  nonempty : [] ∉ levels
  lt : ∀ a ∈ units, ∀ b ∈ units, WaitsFor configs a b →
    ∃ i j, a ∈ levels.getD i [] ∧ b ∈ levels.getD j [] ∧ j < i

theorem schedulesUnits_of_planBoot (h : planBoot files warnings target = .ok plan) :
    ∃ graph, DependencyGraph.build plan.configs = .ok graph ∧ plan.defaultTarget ∈ graph.units ∧
      SchedulesUnits plan.configs (graph.closureOf plan.defaultTarget) plan.levels := by
  obtain ⟨_, _, graph, levels, -, -, hbuild, hlevels, heq⟩ := planBoot_eq_ok h
  obtain ⟨order, levels', -, hlevels', hs⟩ := DependencyGraph.schedules_of_build hbuild
  obtain rfl := Except.ok.inj (hlevels.symm.trans hlevels')
  have ht := defaultTarget_mem h hbuild
  have hacc := DependencyGraph.assembled_of_assemble (DependencyGraph.build_eq_ok_iff.mp hbuild).1
  obtain ⟨hsorted, -⟩ := DependencyGraph.closureOf_of_build hbuild ht
  refine ⟨graph, hbuild, ht, ?_, ?_, fun a ha b hb hab => ?_⟩
  · rw [heq, flatten_wantedLevels]
    refine (List.perm_ext_iff_of_nodup (hs.levels_nodup.filter _) (hsorted.imp ne_of_lt)).mpr
      fun u => ?_
    rw [List.mem_filter, List.contains_iff_mem]
    refine and_iff_right_of_imp fun hu => ?_
    rw [hs.levels_perm.mem_iff, ← hacc.perm_names.mem_iff]
    exact DependencyGraph.mem_units_of_mem_closureOf hu
  · rw [heq, wantedLevels]
    simp
  · obtain ⟨i, j, hi, hj, hij⟩ := hs.level_lt a b hab
    rw [heq]
    exact lt_wantedLevels ha hb hi hj hij

/-- The closure of a unit of an accepted directory is what it reaches by activations, in name
order, and the levels of a boot plan schedule the closure of its target. -/
theorem closure_schedule :
    (∀ {configs : List UnitConfig} {graph : DependencyGraph} {t : UnitName},
      DependencyGraph.build configs = .ok graph → t ∈ graph.units →
        (graph.closureOf t).Pairwise (· < ·) ∧
        ∀ u, u ∈ graph.closureOf t ↔ Relation.ReflTransGen (Activates configs) t u) ∧
    ∀ {files : List UnitFile} {warnings : List String} {target : String} {plan : BootPlan},
      planBoot files warnings target = .ok plan → ∃ graph,
        DependencyGraph.build plan.configs = .ok graph ∧ plan.defaultTarget ∈ graph.units ∧
        SchedulesUnits plan.configs (graph.closureOf plan.defaultTarget) plan.levels :=
  ⟨fun hg ht => DependencyGraph.closureOf_of_build hg ht, schedulesUnits_of_planBoot⟩

/-- A target that requires one service and wants another, which is ordered before the first. -/
def pullingUnits : List UnitFile :=
  [{ name := serviceA
     path := "/etc/rinit/a.service"
     contents := "[Unit]\nAfter=b.service\n[Service]\nExecStart=/bin/a\n" },
    { name := serviceB
      path := "/etc/rinit/b.service"
      contents := "[Service]\nExecStart=/bin/b\n" },
    { name := targetD
      path := "/etc/rinit/d.target"
      contents := "[Unit]\nRequires=a.service\nWants=b.service\n" }]

theorem closure_schedule_pulling : ∃ plan, planBoot pullingUnits [] "d.target" = .ok plan ∧
    plan.levels = [[serviceB], [serviceA], [targetD]] ∧ ∃ graph,
      DependencyGraph.build plan.configs = .ok graph ∧ plan.defaultTarget ∈ graph.units ∧
      SchedulesUnits plan.configs (graph.closureOf plan.defaultTarget) plan.levels ∧
      ∀ u, u ∈ graph.closureOf plan.defaultTarget ↔
        Relation.ReflTransGen (Activates plan.configs) plan.defaultTarget u := by
  have h : (planBoot pullingUnits [] "d.target").toOption.map (·.levels) =
      some [[serviceB], [serviceA], [targetD]] := by decide +kernel
  obtain ⟨plan, hp, hl⟩ := Option.map_eq_some_iff.mp h
  have hok := Runs.eq_ok_of_toOption hp
  obtain ⟨graph, hg, ht, hs⟩ := closure_schedule.2 hok
  exact ⟨plan, hok, hl, graph, hg, ht, hs, (closure_schedule.1 hg ht).2⟩

end BootPlan

end Rinit
