import Rinit.Tended

/-!
# The order of a shutdown

A shutdown walks the recorded schedule backwards and appends what was started outside it, in
name order. `dependentsFirst_iff` : without conflicts the dependents come first exactly when every
started unit stands behind what it depends on in the schedule, or alone in it, or outside it with
the smaller name. The schedule of a directory does so for what the directory orders
(`BootPlan.levels_of_planBoot`); an instance stands outside it and is stopped after the units of the
schedule it requires (`not_dependentsFirst_instance`).
-/

namespace Rinit

open Relation

namespace UnitManager

/-- The units the queue still wants running, in name order. -/
def startedUnits (m : UnitManager) : List UnitName :=
  (m.jobs.targets.filter fun e => e.2.target = .started).map Prod.fst

/-- Where the first unit stands behind `index` that the unit at `index` conflicts with. -/
def laterConflict (m : UnitManager) (order : List UnitName) (index : ℕ) : Option ℕ :=
  (order[index]?.bind m.get).bind fun rt => rt.config.deps.conflicts.findSome? fun other =>
    (order.idxOf? other).filter fun otherIndex => index < otherIndex

/-- Move the superseded unit before the one that supersedes it; whether there was one. -/
def moveConflict (m : UnitManager) (s : List UnitName × Bool) (index : ℕ) :
    List UnitName × Bool :=
  match m.laterConflict s.1 index with
  | none => s
  | some otherIndex =>
    match s.1[otherIndex]? with
    | none => s
    | some superseded => ((s.1.eraseIdx otherIndex).insertIdx index superseded, true)

/-- Passes over the sequence until one changes nothing, `n` at most. -/
def conflictPasses (m : UnitManager) : ℕ → List UnitName → List UnitName
  | 0, order => order
  | n + 1, order =>
    let r := (List.range order.length).foldl m.moveConflict (order, false)
    if r.2 then m.conflictPasses n r.1 else r.1

/-- Adjust a shutdown sequence so that `Conflicts=` pairs are stopped in order. -/
def applyConflictOrder (m : UnitManager) (order : List UnitName) : List UnitName :=
  m.conflictPasses order.length order

/-- The schedule backwards, as far as it is still wanted, and then what else was started. -/
def stopSequence (m : UnitManager) : List UnitName :=
  let out := (m.shutdownOrder.reverse.filter m.startedUnits.contains).foldl pushUnique []
  m.startedUnits.foldl pushUnique out

/-- The units to stop at a shutdown; `shutdownOrder` is the schedule that was recorded. -/
def getShutdownOrder (m : UnitManager) : List UnitName := m.applyConflictOrder m.stopSequence

end UnitManager

/-- No started unit has `Conflicts=`. -/
def NoConflicts (m : UnitManager) : Prop :=
  ∀ u ∈ m.startedUnits, ∀ rt, m.get u = some rt → rt.config.deps.conflicts = []

instance (m : UnitManager) : Decidable (NoConflicts m) :=
  decidable_of_iff (m.startedUnits.all fun u =>
    (m.get u).all fun rt => rt.config.deps.conflicts = []) (by
      simp [NoConflicts, Option.all_eq_true])

/-- `a` is stopped before `b` by a walk over the schedule backwards and then over the other names :
`b` is not in the schedule or is started before `a`, and where `a` is not in it either, `a` has
the smaller name. -/
def StartedAfter (schedule : List UnitName) (a b : UnitName) : Prop :=
  if a ∈ schedule then b ∈ schedule → [b, a].Sublist schedule else b ∉ schedule ∧ a < b

/-- Of two units that are stopped, one that depends on the other among the units in force, at
once or through others, is stopped first. -/
def DependentsFirst (m : UnitManager) : Prop :=
  ∀ a b, a ∈ m.getShutdownOrder → b ∈ m.getShutdownOrder → TransGen (WaitsFor m.configs) a b →
    [a, b].Sublist m.getShutdownOrder

variable {m : UnitManager}

/-! ## The sequence -/

theorem conflictPasses_eq {order : List UnitName}
    (h : ∀ u ∈ order, ∀ rt, m.get u = some rt → rt.config.deps.conflicts = []) (n : ℕ) :
    m.conflictPasses n order = order := by
  have hnone (index : ℕ) : m.laterConflict order index = none := by
    unfold UnitManager.laterConflict
    cases hu : order[index]? with
    | none => rfl
    | some u =>
      cases hrt : m.get u with
      | none => simp [hrt]
      | some rt => simp [hrt, h u (List.mem_of_getElem? hu) rt hrt]
  have hpass (l : List ℕ) : l.foldl m.moveConflict (order, false) = (order, false) := by
    refine List.foldl_fixed' (fun index => ?_) l
    rw [UnitManager.moveConflict, hnone]
  cases n with
  | zero => rfl
  | succ n =>
    rw [UnitManager.conflictPasses, hpass]
    rfl

/-- What a list adds to another when each item is pushed once. -/
theorem foldl_pushUnique_eq {α : Type*} [DecidableEq α] (l init : List α) :
    ∃ added, l.foldl pushUnique init = init ++ added ∧ added.Sublist l ∧ added.Nodup ∧
      ∀ a, a ∈ added ↔ a ∈ l ∧ a ∉ init := by
  induction l generalizing init with
  | nil => exact ⟨[], by simp⟩
  | cons b l ih =>
    obtain ⟨added, heq, hsub, hnodup, hmem⟩ := ih (pushUnique init b)
    rw [List.foldl_cons, heq]
    by_cases hb : b ∈ init
    · rw [pushUnique, if_pos (by simpa using hb)] at hmem ⊢
      refine ⟨added, rfl, hsub.cons b, hnodup, fun a => ?_⟩
      rw [hmem, List.mem_cons]
      exact ⟨fun h => ⟨.inr h.1, h.2⟩, fun h => ⟨h.1.resolve_left fun hab => h.2 (hab ▸ hb), h.2⟩⟩
    · rw [pushUnique, if_neg (by simpa using hb)] at hmem ⊢
      have hnew : b ∉ added := fun h => ((hmem b).mp h).2 (by simp)
      refine ⟨b :: added, by simp, hsub.cons_cons b, List.nodup_cons.mpr ⟨hnew, hnodup⟩, fun a => ?_⟩
      rw [List.mem_cons, hmem, List.mem_cons, List.mem_append, List.mem_singleton]
      constructor
      · rintro (rfl | h)
        · exact ⟨.inl rfl, hb⟩
        · exact ⟨.inr h.1, fun ha => h.2 (.inl ha)⟩
      · rintro ⟨rfl | ha, hinit⟩
        · exact .inl rfl
        · by_cases hab : a = b
          · exact .inl hab
          · exact .inr ⟨ha, fun h => h.elim hinit hab⟩

theorem sublist_pair_append {α : Type*} {l₁ l₂ : List α} {a b : α} : [a, b].Sublist (l₁ ++ l₂) ↔
    [a, b].Sublist l₁ ∨ (a ∈ l₁ ∧ b ∈ l₂) ∨ [a, b].Sublist l₂ := by
  rw [List.sublist_append_iff]
  constructor
  · rintro ⟨k₁, k₂, hk, h₁, h₂⟩
    rcases k₁ with _ | ⟨x, _ | ⟨y, k₁⟩⟩
    · obtain rfl : k₂ = [a, b] := by simpa using hk.symm
      exact .inr (.inr h₂)
    · obtain ⟨rfl, rfl⟩ : a = x ∧ k₂ = [b] := by simpa [eq_comm] using hk
      exact .inr (.inl ⟨List.singleton_sublist.mp h₁, List.singleton_sublist.mp h₂⟩)
    · obtain ⟨rfl, rfl, rfl, rfl⟩ : a = x ∧ b = y ∧ k₁ = [] ∧ k₂ = [] := by
        simpa [eq_comm] using hk
      exact .inl h₁
  · rintro (h | ⟨ha, hb⟩ | h)
    · exact ⟨[a, b], [], rfl, h, List.nil_sublist _⟩
    · exact ⟨[a], [b], rfl, List.singleton_sublist.mpr ha, List.singleton_sublist.mpr hb⟩
    · exact ⟨[], [a, b], rfl, List.nil_sublist _, h⟩

theorem sublist_pair_filter {α : Type*} {p : α → Bool} {l : List α} {a b : α} (ha : p a = true)
    (hb : p b = true) : [a, b].Sublist (l.filter p) ↔ [a, b].Sublist l := by
  refine ⟨fun h => h.trans List.filter_sublist, fun h => ?_⟩
  have hf := h.filter p
  rwa [List.filter_cons_of_pos ha, List.filter_cons_of_pos hb] at hf

theorem pairwise_startedUnits (m : UnitManager) : m.startedUnits.Pairwise (· ≤ ·) := by
  have hsorted : m.jobs.targets.Pairwise fun a b => a.1 ≤ b.1 :=
    List.pairwise_insertionSort (fun a b : UnitName × MergedTarget => a.1 ≤ b.1) m.jobs.merged
  exact List.pairwise_map.mpr (hsorted.filter _)

/-- Over a schedule without repetitions : its started units backwards, and then the other started
units by name. -/
theorem stopSequence_eq (hn : m.shutdownOrder.Nodup) : ∃ rest,
    m.stopSequence = m.shutdownOrder.reverse.filter m.startedUnits.contains ++ rest ∧
    rest.Pairwise (· < ·) ∧ ∀ a, a ∈ rest ↔ a ∈ m.startedUnits ∧ a ∉ m.shutdownOrder := by
  let scheduled := m.shutdownOrder.reverse.filter m.startedUnits.contains
  have hscheduled : scheduled.foldl pushUnique [] = scheduled := by
    obtain ⟨added, heq, hsub, hnodup, hmem⟩ := foldl_pushUnique_eq scheduled []
    have hperm : added.Perm scheduled :=
      (List.perm_ext_iff_of_nodup hnodup ((List.nodup_reverse.mpr hn).filter _)).mpr
        fun a => by rw [hmem, and_iff_left (List.not_mem_nil)]
    rw [heq, List.nil_append, hsub.eq_of_length hperm.length_eq]
  obtain ⟨rest, heq, hsub, hnodup, hmem⟩ := foldl_pushUnique_eq m.startedUnits scheduled
  refine ⟨rest, ?_, ?_, fun a => ?_⟩
  · unfold UnitManager.stopSequence
    dsimp only
    rw [hscheduled, heq]
  · have hle := (pairwise_startedUnits m).sublist hsub
    exact (hle.and hnodup).imp fun h => lt_of_le_of_ne h.1 h.2
  · rw [hmem]
    refine and_congr_right fun ha => not_congr ?_
    simp [scheduled, List.mem_filter, ha]

theorem mem_stopSequence (hn : m.shutdownOrder.Nodup) {a : UnitName} :
    a ∈ m.stopSequence ↔ a ∈ m.startedUnits := by
  obtain ⟨rest, heq, -, hmem⟩ := stopSequence_eq hn
  rw [heq, List.mem_append, hmem, List.mem_filter, List.mem_reverse, List.contains_iff_mem]
  tauto

theorem getShutdownOrder_eq (hn : m.shutdownOrder.Nodup) (hc : NoConflicts m) :
    m.getShutdownOrder = m.stopSequence :=
  conflictPasses_eq (fun u hu => hc u ((mem_stopSequence hn).mp hu)) _

theorem sublist_pair_sorted {α : Type*} [Preorder α] {l : List α} (h : l.Pairwise (· < ·))
    {a b : α} (ha : a ∈ l) (hb : b ∈ l) : [a, b].Sublist l ↔ a < b := by
  refine ⟨fun hs => (List.pairwise_pair.mp (h.sublist hs)), fun hab => ?_⟩
  obtain ⟨l₁, l₂, rfl⟩ := List.append_of_mem ha
  rcases List.mem_append.mp hb with hb | hb
  · have hba := (List.pairwise_append.mp h).2.2 b hb a List.mem_cons_self
    exact absurd hab hba.asymm
  · rcases List.mem_cons.mp hb with rfl | hb
    · exact absurd hab (lt_irrefl b)
    · exact sublist_pair_append.mpr (.inr (.inr ((List.singleton_sublist.mpr hb).cons_cons a)))

/-- Of two started units, which one comes first. -/
theorem sublist_stopSequence (hn : m.shutdownOrder.Nodup) {a b : UnitName}
    (ha : a ∈ m.startedUnits) (hb : b ∈ m.startedUnits) :
    [a, b].Sublist m.stopSequence ↔ StartedAfter m.shutdownOrder a b := by
  obtain ⟨rest, heq, hsorted, hrest⟩ := stopSequence_eq hn
  let scheduled := m.shutdownOrder.reverse.filter m.startedUnits.contains
  have hmem {u : UnitName} (hu : u ∈ m.startedUnits) : u ∈ scheduled ↔ u ∈ m.shutdownOrder := by
    simp [scheduled, List.mem_filter, hu]
  have hpair : [a, b].Sublist scheduled ↔ [b, a].Sublist m.shutdownOrder := by
    rw [sublist_pair_filter (by simpa using ha) (by simpa using hb), ← List.reverse_sublist]
    simp
  have hnotRest : [a, b].Sublist rest → a ∉ m.shutdownOrder ∧ b ∉ m.shutdownOrder := fun h =>
    ⟨((hrest a).mp (h.subset (by simp))).2, ((hrest b).mp (h.subset (by simp))).2⟩
  rw [heq, sublist_pair_append, StartedAfter]
  change [a, b].Sublist scheduled ∨ (a ∈ scheduled ∧ b ∈ rest) ∨ [a, b].Sublist rest ↔ _
  rw [hmem ha, hrest b, hpair]
  split
  · next hin =>
    by_cases hbin : b ∈ m.shutdownOrder
    · simp only [hin, hbin, not_true_eq_false, and_false, false_or, true_implies]
      exact or_iff_left fun h => (hnotRest h).1 hin
    · exact iff_of_true (.inr (.inl ⟨hin, hb, hbin⟩)) fun h => absurd h hbin
  · next hin =>
    have hfirst : ¬[b, a].Sublist m.shutdownOrder := fun h => hin (h.subset (by simp))
    simp only [hfirst, hin, false_and, false_or]
    by_cases hbin : b ∈ m.shutdownOrder
    · exact iff_of_false (fun h => (hnotRest h).2 hbin) fun h => h.1 hbin
    · rw [sublist_pair_sorted hsorted ((hrest a).mpr ⟨ha, hin⟩) ((hrest b).mpr ⟨hb, hbin⟩)]
      exact (and_iff_right hbin).symm

/-! ## The schedule -/

theorem sublist_pair_flatten {α : Type*} {levels : List (List α)} {a b : α} {i j : ℕ}
    (ha : a ∈ levels.getD i []) (hb : b ∈ levels.getD j []) (hij : i < j) :
    [a, b].Sublist levels.flatten := by
  induction levels generalizing i j with
  | nil => simp at ha
  | cons level levels ih =>
    rw [List.flatten_cons, sublist_pair_append]
    cases j with
    | zero => exact absurd hij (Nat.not_lt_zero i)
    | succ j =>
      cases i with
      | zero =>
        have hb' : b ∈ levels.flatten := by
          rw [List.getD_cons_succ, List.getD_eq_getElem?_getD] at hb
          cases hj : levels[j]? with
          | none => simp [hj] at hb
          | some l =>
            rw [hj] at hb
            exact List.mem_flatten.mpr ⟨l, List.mem_of_getElem? hj, hb⟩
        exact .inr (.inl ⟨ha, hb'⟩)
      | succ i => exact .inr (.inr (ih ha hb (Nat.lt_of_succ_lt_succ hij)))

/-- What waits for another is on a higher level, also through others. -/
theorem DependencyGraph.Schedules.level_transGen {configs : List UnitConfig}
    {order : List UnitName} {levels : List (List UnitName)}
    (h : Schedules configs order levels) {a b : UnitName} (hab : TransGen (WaitsFor configs) a b) :
    ∃ i j : ℕ, a ∈ levels.getD i [] ∧ b ∈ levels.getD j [] ∧ j < i := by
  induction hab with
  | single hab => exact h.level_lt _ _ hab
  | tail _ hbc ih =>
    obtain ⟨i, j, ha, hb, hij⟩ := ih
    obtain ⟨j', l, hb', hc, hjl⟩ := h.level_lt _ _ hbc
    have hj : j = j' := (h.level_height j _ hb).unique (h.level_height j' _ hb')
    exact ⟨i, l, ha, hc, by omega⟩

/-- The schedule of a directory has every unit once, behind what the directory says it depends
on. -/
theorem BootPlan.levels_of_planBoot {files : List UnitFile} {warnings : List String}
    {target : String} {plan : BootPlan} (h : planBoot files warnings target = .ok plan) :
    plan.levels.flatten.Nodup ∧ ∀ a b, a ∈ plan.levels.flatten →
      TransGen (WaitsFor plan.configs) a b → StartedAfter plan.levels.flatten a b := by
  obtain ⟨_, _, graph, levels, -, -, hbuild, hlevels, heq⟩ := planBoot_eq_ok h
  obtain ⟨order, levels', -, hlevels', hs⟩ := DependencyGraph.schedules_of_build hbuild
  obtain rfl := Except.ok.inj (hlevels.symm.trans hlevels')
  rw [heq, BootPlan.flatten_wantedLevels]
  refine ⟨hs.levels_nodup.filter _, fun a b ha hab => ?_⟩
  rw [StartedAfter, if_pos ha]
  intro hb
  obtain ⟨i, j, hia, hjb, hij⟩ := hs.level_transGen hab
  exact (sublist_pair_filter (List.mem_filter.mp hb).2 (List.mem_filter.mp ha).2).mpr
    (sublist_pair_flatten hjb hia hij)

namespace Supervisor

variable {s : Supervisor} {plan : BootPlan} {G : Supervisor → BootPlan → BootPlan → Prop}

/-- Whatever the loop has been given, its schedule is the one of a directory that was accepted. -/
theorem Tended.planBoot (h : Tended G s plan) : ∃ files warnings target,
    BootPlan.planBoot files warnings target = .ok plan := by
  induction h with
  | init _ _ h => exact ⟨_, _, _, h⟩
  | step _ _ _ _ ih => exact ih
  | refused _ _ _ _ _ _ ih => exact ih
  | reload _ _ _ hp _ _ => exact ⟨_, _, _, hp⟩

/-- Without conflicts, the dependents are stopped first exactly when every started unit that
depends on another is started after it in the recorded schedule, or is alone in it, or is outside
it, as the other is, with the smaller name. The schedule is that of the last directory that was
accepted, and is right for what this directory orders. -/
theorem dependentsFirst_iff (h : Reached s) (hc : NoConflicts s.manager) :
    (DependentsFirst s.manager ↔ ∀ a ∈ s.manager.startedUnits, ∀ b ∈ s.manager.startedUnits,
      TransGen (WaitsFor s.manager.configs) a b → StartedAfter s.manager.shutdownOrder a b) ∧
    ∃ plan, Tended (fun _ _ _ => True) s plan ∧ ∀ a b, a ∈ s.manager.shutdownOrder →
      TransGen (WaitsFor plan.configs) a b → StartedAfter s.manager.shutdownOrder a b := by
  obtain ⟨plan, ht⟩ := h.tended
  obtain ⟨files, warnings, target, hplan⟩ := ht.planBoot
  obtain ⟨hn, hafter⟩ := BootPlan.levels_of_planBoot hplan
  rw [← ht.directory.2] at hn hafter
  refine ⟨?_, plan, ht, hafter⟩
  unfold DependentsFirst
  rw [getShutdownOrder_eq hn hc]
  constructor
  · intro hfirst a ha b hb hab
    exact (sublist_stopSequence hn ha hb).mp
      (hfirst a b ((mem_stopSequence hn).mpr ha) ((mem_stopSequence hn).mpr hb) hab)
  · intro hafter a b ha hb hab
    rw [mem_stopSequence hn] at ha hb
    exact (sublist_stopSequence hn ha hb).mpr (hafter a ha b hb hab)

/-! ### Concrete runs -/

/-- A service that requires another, and a template whose instances require it too. -/
def requiringUnits : List UnitFile :=
  [{ name := serviceA
     path := "/etc/rinit/a.service"
     contents := "[Unit]\nRequires=b.service\n[Service]\nExecStart=/bin/a\n" },
    { name := serviceB
      path := "/etc/rinit/b.service"
      contents := "[Service]\nExecStart=/bin/b\n" },
    { name := templateT
      path := "/etc/rinit/t@.service"
      contents := "[Unit]\nRequires=b.service\n[Service]\nExecStart=/bin/t\n" }]

def requiringBoot : List (ℕ × Pid × Input) :=
  [(1, 10, .boot), (2, 10, .advance), (3, 11, .boot), (4, 11, .advance), (5, 12, .boot)]

/-- The units in force with what they depend on. -/
def inForce (s : Supervisor) : List (UnitName × Dependencies) :=
  s.manager.configs.map fun c => (c.name, c.deps)

/-- What depends on what, read off the units in force. -/
theorem waitsFor_inForce {a b : UnitName} : WaitsFor s.manager.configs a b ↔
    (∃ e ∈ s.inForce, e.1 = a ∧ (b ∈ e.2.requires ∨
      (b ∈ e.2.wants ∧ b ∈ s.inForce.map Prod.fst) ∨ b ∈ e.2.after)) ∨
    ∃ e ∈ s.inForce, e.1 = b ∧ a ∈ e.2.before := by
  simp [WaitsFor, inForce, Function.comp_def]

theorem dependentsFirst_requiringBoot : ∃ s, Reached s ∧ NoConflicts s.manager ∧
    s.manager.getShutdownOrder = [serviceA, serviceB] ∧ DependentsFirst s.manager := by
  obtain ⟨s, hs, hp⟩ := exists_reached requiringUnits "a.service"
    (l := requiringBoot) (p := fun s => decide (NoConflicts s.manager) &&
      s.manager.getShutdownOrder = [serviceA, serviceB] &&
      s.manager.shutdownOrder = [serviceB, serviceA] &&
      s.inForce = [(serviceA, { requires := [serviceB] }), (serviceB, {})])
    (by decide +kernel)
  simp only [Bool.and_eq_true, decide_eq_true_eq] at hp
  obtain ⟨⟨⟨hc, horder⟩, hschedule⟩, hforce⟩ := hp
  have hwaits {a b : UnitName} (h : WaitsFor s.manager.configs a b) :
      a = serviceA ∧ b = serviceB := by
    rw [waitsFor_inForce, hforce] at h
    simpa [eq_comm] using h
  have htrans {a b : UnitName} (h : TransGen (WaitsFor s.manager.configs) a b) :
      a = serviceA ∧ b = serviceB := by
    induction h with
    | single h => exact hwaits h
    | tail _ h ih => exact ⟨ih.1, (hwaits h).2⟩
  refine ⟨s, hs, hc, horder, (dependentsFirst_iff hs hc).1.mpr fun a _ b _ hab => ?_⟩
  obtain ⟨rfl, rfl⟩ := htrans hab
  rw [hschedule, StartedAfter, if_pos (by simp)]
  exact fun _ => .refl _

/-- An instance is stopped after the service it requires. -/
theorem not_dependentsFirst_instance : ∃ s, Reached s ∧ NoConflicts s.manager ∧
    ¬DependentsFirst s.manager := by
  obtain ⟨s, hs, hp⟩ := exists_reached requiringUnits "a.service"
    (l := requiringBoot ++
      [(6, 12, .control (.start instanceT)), (7, 12, .advance), (8, 12, .advance)])
    (p := fun s => decide (NoConflicts s.manager) &&
      s.manager.getShutdownOrder = [serviceA, serviceB, instanceT] &&
      s.inForce = [(serviceA, { requires := [serviceB] }), (serviceB, {}),
        (instanceT, { requires := [serviceB] })])
    (by decide +kernel)
  simp only [Bool.and_eq_true, decide_eq_true_eq] at hp
  obtain ⟨⟨hc, horder⟩, hforce⟩ := hp
  refine ⟨s, hs, hc, fun hfirst => ?_⟩
  have hwaits : WaitsFor s.manager.configs instanceT serviceB := by
    rw [waitsFor_inForce, hforce]
    simp
  have hsub := hfirst instanceT serviceB (by rw [horder]; simp) (by rw [horder]; simp)
    (.single hwaits)
  rw [horder] at hsub
  revert hsub
  decide

end Supervisor

end Rinit
