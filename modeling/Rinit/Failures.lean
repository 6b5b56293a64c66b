import Mathlib.Data.Finset.Card
import Mathlib.Logic.Relation
import Rinit.Manager

/-!
# What a failure takes with it

A unit that fails fails whatever hard requires it, as far as that has no process. `Drags`
is one step of this relation, and `cascade` marks exactly the units `Fails` reaches from
the failed one (`get_cascade`) : each enters the queue once, so the steps it is given are
enough.
-/

namespace Rinit

open Relation

/-- `a` failing fails `d` : `d` requires `a` and has no process. -/
def Drags (units : Units) (a d : UnitName) : Prop :=
  d ∈ UnitManager.requiresDependents units a ∧ ∃ rt, units[d]? = some rt ∧ rt.pid = none

/-- The units a failure of `root` fails. -/
def Fails (units : Units) (root d : UnitName) : Prop := TransGen (Drags units) root d

theorem Fails.exists_rt {units : Units} {root d : UnitName} (h : Fails units root d) :
    ∃ rt, units[d]? = some rt ∧ rt.pid = none := by
  cases h with
  | single h => exact h.2
  | tail _ h => exact h.2

namespace UnitManager

theorem mem_requiresDependents {units : Units} {a d : UnitName} :
    d ∈ requiresDependents units a ↔ ∃ (x : UnitName) (rt : UnitRuntime),
      units[x]? = some rt ∧ a ∈ rt.config.deps.requires ∧ rt.config.name = d := by
  simp [requiresDependents, Std.ExtTreeMap.mem_toList_iff_getElem?_eq_some, and_assoc]

/-- The dependents are read off the definitions alone. -/
theorem mem_requiresDependents_congr {units units' : Units}
    (h : ∀ x : UnitName, (units'[x]?).map UnitRuntime.config = (units[x]?).map UnitRuntime.config)
    {a d : UnitName} : d ∈ requiresDependents units' a ↔ d ∈ requiresDependents units a := by
  have key (s : Units) : d ∈ requiresDependents s a ↔ ∃ (x : UnitName) (c : UnitConfig),
      (s[x]?).map UnitRuntime.config = some c ∧ a ∈ c.deps.requires ∧ c.name = d := by
    rw [mem_requiresDependents]
    simp
  rw [key, key]
  simp only [h]

end UnitManager

/-- What a failure fails does not depend on the process of the failing unit itself. -/
theorem Fails.of_agree {units units' : Units} {root d : UnitName}
    (hother : ∀ x : UnitName, x ≠ root → units'[x]? = units[x]?)
    (hconfig : (units'[root]?).map UnitRuntime.config = (units[root]?).map UnitRuntime.config)
    (h : Fails units' root d) (hd : d ≠ root) : Fails units root d := by
  have hmap (x : UnitName) :
      (units'[x]?).map UnitRuntime.config = (units[x]?).map UnitRuntime.config := by
    by_cases hx : x = root
    · rw [hx, hconfig]
    · rw [hother x hx]
  have step {a b : UnitName} (hb : b ≠ root) (hab : Drags units' a b) : Drags units a b :=
    ⟨(UnitManager.mem_requiresDependents_congr hmap).mp hab.1, by
      obtain ⟨rt, hrt, hp⟩ := hab.2
      exact ⟨rt, (hother b hb).symm.trans hrt, hp⟩⟩
  induction h with
  | single h => exact .single (step hd h)
  | @tail b c _ hbc ih =>
    by_cases hb : b = root
    · subst hb
      exact .single (step hd hbc)
    · exact .tail (ih hb) (step hd hbc)

/-- A unit that failed because of another one. -/
def UnitRuntime.dragDown (rt : UnitRuntime) : UnitRuntime :=
  if rt.state.isFailed then rt else { rt with state := .failed .startFailure }

namespace UnitManager

/-! ## The walk -/

/-- A unit of the walk without a process. -/
def Cascade.Idle (c : Cascade) (d : UnitName) : Prop := ∃ rt, c.units[d]? = some rt ∧ rt.pid = none

theorem Cascade.visit_of_not_idle {c : Cascade} {d : UnitName} (h : ¬c.Idle d) : c.visit d = c := by
  unfold Cascade.visit
  split
  · rfl
  · next rt hrt =>
    split
    · rfl
    · next hp => exact absurd ⟨rt, hrt, by simpa using hp⟩ h

theorem Cascade.mark_units {c : Cascade} {d : UnitName} {rt : UnitRuntime}
    (h : c.units[d]? = some rt) (x : UnitName) : (c.mark d rt).units[x]? =
      if d = x then some rt.dragDown else c.units[x]? := by
  unfold Cascade.mark UnitRuntime.dragDown
  by_cases hf : rt.state.isFailed = true
  · simp only [hf, if_true]
    split
    · next hx => rw [← hx, h]
    · rfl
  · simp [hf, Std.ExtTreeMap.getElem?_insert]

theorem Cascade.mark_walk (c : Cascade) (d : UnitName) (rt : UnitRuntime) :
    (c.mark d rt).visited = c.visited ∧ (c.mark d rt).queue = c.queue := by
  unfold Cascade.mark
  split <;> exact ⟨rfl, rfl⟩

theorem Cascade.enqueue_units (c : Cascade) (d : UnitName) : (c.enqueue d).units = c.units := by
  unfold Cascade.enqueue
  split <;> rfl

theorem Cascade.mem_enqueue_visited {c : Cascade} {d x : UnitName} :
    x ∈ (c.enqueue d).visited ↔ x = d ∨ x ∈ c.visited := by
  unfold Cascade.enqueue
  split
  · next h =>
    refine ⟨.inr, ?_⟩
    rintro (rfl | hx)
    · exact h
    · exact hx
  · rw [Std.ExtTreeSet.mem_insert, Std.compare_eq_iff_eq, eq_comm]

theorem Cascade.enqueue_queue (c : Cascade) (d : UnitName) :
    (c.enqueue d).queue = if d ∈ c.visited then c.queue else d :: c.queue := by
  unfold Cascade.enqueue
  simp only [Std.ExtTreeSet.mem_iff_contains]
  split <;> rfl

/-- Where the walk from `root` is : the units it visited are marked, and only what a failure
of `root` fails was visited. -/
structure CascadeAt (units : Units) (root : UnitName) (c : Cascade) : Prop where
  get : ∀ x : UnitName, c.units[x]? =
    if x ∈ c.visited then (units[x]?).map UnitRuntime.dragDown else units[x]?
  sound : ∀ x ∈ c.visited, x = root ∨ Fails units root x
  queue : ∀ x ∈ c.queue, x ∈ c.visited

/-- What the walk has done with `a` : everything `a` drags was visited. -/
def Explored (units : Units) (c : Cascade) (a : UnitName) : Prop :=
  ∀ d, Drags units a d → d ∈ c.visited

/-- The steps the walk needs : one for each unit in the queue or still to enter it. -/
def Cascade.left (units : Units) (c : Cascade) : ℕ :=
  (units.keys.toFinset.filter (· ∉ c.visited)).card + c.queue.length

theorem dragDown_pid (rt : UnitRuntime) : rt.dragDown.pid = rt.pid := by
  unfold UnitRuntime.dragDown
  split <;> rfl

theorem dragDown_config (rt : UnitRuntime) : rt.dragDown.config = rt.config := by
  unfold UnitRuntime.dragDown
  split <;> rfl

theorem dragDown_isFailed (rt : UnitRuntime) : rt.dragDown.state.isFailed = true := by
  unfold UnitRuntime.dragDown
  split
  · assumption
  · rfl

theorem dragDown_of_isFailed {rt : UnitRuntime} (h : rt.state.isFailed = true) :
    rt.dragDown = rt :=
  if_pos h

variable {units : Units} {root : UnitName} {c : Cascade}

theorem CascadeAt.idle_iff (h : CascadeAt units root c) (d : UnitName) :
    c.Idle d ↔ ∃ rt, units[d]? = some rt ∧ rt.pid = none := by
  unfold Cascade.Idle
  rw [h.get d]
  split
  · cases units[d]? <;> simp [dragDown_pid]
  · rfl

theorem CascadeAt.mem_requiresDependents (h : CascadeAt units root c) {a d : UnitName} :
    d ∈ requiresDependents c.units a ↔ d ∈ requiresDependents units a := by
  refine mem_requiresDependents_congr fun x => ?_
  rw [h.get x]
  split
  · cases units[x]? <;> simp [dragDown_config]
  · rfl

/-- A unit that enters the walk takes one step less off what is left. -/
theorem Cascade.left_enqueue_le {d : UnitName} (hd : d ∈ units) : (c.enqueue d).left units ≤
    c.left units := by
  unfold Cascade.left
  rw [Cascade.enqueue_queue]
  by_cases hv : d ∈ c.visited
  · rw [if_pos hv]
    gcongr with x
    rw [Cascade.mem_enqueue_visited]
    exact .inr
  · rw [if_neg hv, List.length_cons, Nat.add_comm _ 1, ← Nat.add_assoc]
    gcongr
    refine Nat.succ_le_of_lt (Finset.card_lt_card ⟨?_, fun hsub => ?_⟩)
    · gcongr with x
      rw [Cascade.mem_enqueue_visited]
      exact .inr
    · have hmem := @hsub d (by simp [hd, hv])
      rw [Finset.mem_filter, Cascade.mem_enqueue_visited] at hmem
      exact hmem.2 (.inl rfl)

/-- The walk went on from `c` to `c'` : what it newly visited is in the queue. -/
structure Extends (units : Units) (c c' : Cascade) : Prop where
  visited : ∀ x ∈ c.visited, x ∈ c'.visited
  queue : ∀ x ∈ c.queue, x ∈ c'.queue
  fresh : ∀ x ∈ c'.visited, x ∈ c.visited ∨ x ∈ c'.queue
  left : c'.left units ≤ c.left units

theorem Extends.refl (c : Cascade) : Extends units c c :=
  ⟨fun _ hx => hx, fun _ hx => hx, fun _ hx => .inl hx, le_rfl⟩

theorem Extends.trans {c' c'' : Cascade} (h : Extends units c c') (h' : Extends units c' c'') :
    Extends units c c'' where
  visited x hx := h'.visited x (h.visited x hx)
  queue x hx := h'.queue x (h.queue x hx)
  fresh x hx := by
    rcases h'.fresh x hx with hx | hx
    · rcases h.fresh x hx with hx | hx
      · exact .inl hx
      · exact .inr (h'.queue x hx)
    · exact .inr hx
  left := h'.left.trans h.left

/-- The walk at one dependent without a process. -/
theorem CascadeAt.visit_idle (h : CascadeAt units root c) {a d : UnitName} (ha : a ∈ c.visited)
    (hd : Drags units a d) : CascadeAt units root (c.visit d) ∧ Extends units c (c.visit d) ∧
      d ∈ (c.visit d).visited := by
  obtain ⟨rt, hrt, hp⟩ := (h.idle_iff d).mpr hd.2
  have hvisit : c.visit d = (c.mark d rt).enqueue d := by
    unfold Cascade.visit
    simp only [hrt]
    rw [if_neg (by simp [hp])]
  obtain ⟨hmv, hmq⟩ := Cascade.mark_walk c d rt
  have hvis (x : UnitName) : x ∈ (c.visit d).visited ↔ x = d ∨ x ∈ c.visited := by
    rw [hvisit, Cascade.mem_enqueue_visited, hmv]
  have hqueue : (c.visit d).queue = if d ∈ c.visited then c.queue else d :: c.queue := by
    rw [hvisit, Cascade.enqueue_queue, hmv, hmq]
  have hroot : Fails units root d := by
    rcases h.sound a ha with rfl | hra
    · exact .single hd
    · exact .tail hra hd
  refine ⟨⟨fun x => ?_, fun x hx => ?_, fun x hx => ?_⟩,
    ⟨fun x hx => (hvis x).mpr (.inr hx), fun x hx => ?_, fun x hx => ?_, ?_⟩,
    (hvis d).mpr (.inl rfl)⟩
  · rw [hvisit, Cascade.enqueue_units, Cascade.mark_units hrt, ← hvisit]
    simp only [hvis]
    by_cases hx : d = x
    · subst hx
      have hd' := h.get d
      rw [hrt] at hd'
      rw [if_pos rfl, if_pos (.inl rfl)]
      split at hd'
      · obtain ⟨rt0, h0, rfl⟩ := Option.map_eq_some_iff.mp hd'.symm
        rw [h0, Option.map_some, dragDown_of_isFailed (dragDown_isFailed rt0)]
      · rw [← hd', Option.map_some]
    · rw [if_neg hx, h.get x]
      simp [Ne.symm hx]
  · rcases (hvis x).mp hx with rfl | hx
    · exact .inr hroot
    · exact h.sound x hx
  · rw [hvis]
    rw [hqueue] at hx
    split at hx
    · exact .inr (h.queue x hx)
    · rcases List.mem_cons.mp hx with rfl | hx
      · exact .inl rfl
      · exact .inr (h.queue x hx)
  · rw [hqueue]
    split
    · exact hx
    · exact List.mem_cons_of_mem d hx
  · rw [hqueue]
    rcases (hvis x).mp hx with rfl | hx
    · split
      · exact .inl ‹_›
      · exact .inr (by simp)
    · exact .inl hx
  · obtain ⟨rt0, h0, -⟩ := hd.2
    have hmem : d ∈ units := Std.ExtTreeMap.mem_iff_isSome_getElem?.mpr (by simp [h0])
    calc (c.visit d).left units = ((c.mark d rt).enqueue d).left units := by rw [hvisit]
      _ ≤ (c.mark d rt).left units := Cascade.left_enqueue_le hmem
      _ = c.left units := by unfold Cascade.left; rw [hmv, hmq]

/-- The walk at the dependents of a visited unit. -/
theorem CascadeAt.foldl_visit {a : UnitName} (l : List UnitName)
    (hl : ∀ d ∈ l, d ∈ requiresDependents units a) : ∀ {c : Cascade}, CascadeAt units root c →
      a ∈ c.visited → CascadeAt units root (l.foldl Cascade.visit c) ∧
        Extends units c (l.foldl Cascade.visit c) ∧
        ∀ d ∈ l, Drags units a d → d ∈ (l.foldl Cascade.visit c).visited := by
  induction l with
  | nil => exact fun h _ => ⟨h, .refl _, by simp⟩
  | cons d l ih =>
    intro c h ha
    have hstep : CascadeAt units root (c.visit d) ∧ Extends units c (c.visit d) ∧
        (Drags units a d → d ∈ (c.visit d).visited) := by
      by_cases hd : Drags units a d
      · obtain ⟨h1, h2, h3⟩ := h.visit_idle ha hd
        exact ⟨h1, h2, fun _ => h3⟩
      · have hi : ¬c.Idle d := fun hi => hd ⟨hl d (by simp), (h.idle_iff d).mp hi⟩
        rw [Cascade.visit_of_not_idle hi]
        exact ⟨h, .refl c, fun hd' => absurd hd' hd⟩
    obtain ⟨h1, h2, h3⟩ := hstep
    obtain ⟨h4, h5, h6⟩ := ih (fun x hx => hl x (List.mem_cons_of_mem d hx)) h1 (h2.visited a ha)
    refine ⟨h4, h2.trans h5, fun x hx hdr => ?_⟩
    rcases List.mem_cons.mp hx with rfl | hx
    · exact h5.visited x (h3 hdr)
    · exact h6 x hx hdr

/-- With a step for each unit that is left, the walk ends and has seen all of what it
reaches. -/
theorem CascadeAt.run (fuel : ℕ) : ∀ {c : Cascade}, CascadeAt units root c →
    (∀ a ∈ c.visited, a ∈ c.queue ∨ Explored units c a) → c.left units ≤ fuel →
      CascadeAt units root (Cascade.run fuel c) ∧
        (∀ x ∈ c.visited, x ∈ (Cascade.run fuel c).visited) ∧
        ∀ a ∈ (Cascade.run fuel c).visited, Explored units (Cascade.run fuel c) a := by
  induction fuel with
  | zero =>
    intro c h hex hf
    have hq : c.queue = [] := by
      rw [← List.length_eq_zero_iff]
      unfold Cascade.left at hf
      omega
    exact ⟨h, fun x hx => hx, fun a ha => (hex a ha).resolve_left (by simp [hq])⟩
  | succ fuel ih =>
    intro c h hex hf
    unfold Cascade.run
    split
    · next hq => exact ⟨h, fun x hx => hx, fun a ha => (hex a ha).resolve_left (by simp [hq])⟩
    · next current queue hq =>
      have hcur : current ∈ c.visited := h.queue current (by simp [hq])
      have h0 : CascadeAt units root { c with queue := queue } :=
        ⟨h.get, h.sound, fun x hx => h.queue x (by simp [hq, hx])⟩
      obtain ⟨h1, h2, h3⟩ := h0.foldl_visit (requiresDependents c.units current)
        (fun d hd => h.mem_requiresDependents.mp hd) hcur
      have hex' (a : UnitName) (ha : a ∈ ((requiresDependents c.units current).foldl Cascade.visit
          { c with queue := queue }).visited) : a ∈ ((requiresDependents c.units current).foldl
            Cascade.visit { c with queue := queue }).queue ∨ Explored units
              ((requiresDependents c.units current).foldl Cascade.visit
                { c with queue := queue }) a := by
        rcases h2.fresh a ha with ha' | ha'
        · by_cases hac : a = current
          · subst hac
            exact .inr fun d hd => h3 d (h.mem_requiresDependents.mpr hd.1) hd
          · rcases hex a ha' with hq' | hex'
            · rw [hq] at hq'
              exact .inl (h2.queue a ((List.mem_cons.mp hq').resolve_left hac))
            · exact .inr fun d hd => h2.visited d (hex' d hd)
        · exact .inl ha'
      have hfuel : Cascade.left units { c with queue := queue } ≤ fuel := by
        unfold Cascade.left at hf
        rw [hq, List.length_cons] at hf
        exact Nat.le_of_succ_le_succ hf
      obtain ⟨h4, h5, h6⟩ := ih h1 hex' (h2.left.trans hfuel)
      exact ⟨h4, fun x hx => h5 x (h2.visited x hx), h6⟩

theorem mem_singleton_iff {a x : UnitName} :
    x ∈ ({a} : Std.ExtTreeSet UnitName compare) ↔ x = a := by
  change x ∈ (∅ : Std.ExtTreeSet UnitName compare).insert a ↔ x = a
  rw [Std.ExtTreeSet.mem_insert, Std.compare_eq_iff_eq, eq_comm]
  simp

/-- Where the walk from a failed unit begins. -/
def Cascade.start (units : Units) (root : UnitName) : Cascade :=
  { units := units, visited := {root}, queue := [root], failed := [] }

theorem cascade_eq (m : UnitManager) (root : UnitName) : m.cascade root =
    ({ m with units := (Cascade.run (m.units.size + 1) (Cascade.start m.units root)).units },
      (Cascade.run (m.units.size + 1) (Cascade.start m.units root)).failed) :=
  rfl

theorem map_dragDown_of_isFailed (h : ∀ rt, units[root]? = some rt → rt.state.isFailed = true) :
    (units[root]?).map UnitRuntime.dragDown = units[root]? := by
  cases hr : units[root]? with
  | none => rfl
  | some rt => rw [Option.map_some, dragDown_of_isFailed (h rt hr)]

theorem cascadeAt_start (h : ∀ rt, units[root]? = some rt → rt.state.isFailed = true) :
    CascadeAt units root (Cascade.start units root) := by
  refine ⟨fun x => ?_, fun x hx => .inl (mem_singleton_iff.mp hx),
    fun x hx => mem_singleton_iff.mpr (List.mem_singleton.mp hx)⟩
  change units[x]? = _
  split
  · next hx =>
    obtain rfl := mem_singleton_iff.mp hx
    exact (map_dragDown_of_isFailed h).symm
  · rfl

/-- The walk is given enough steps. -/
theorem left_start_le : (Cascade.start units root).left units ≤ units.size + 1 := by
  refine Nat.add_le_add ((Finset.card_filter_le _ _).trans ?_) le_rfl
  exact (List.toFinset_card_le _).trans_eq Std.ExtTreeMap.length_keys

/-- The walk visits its root and exactly what a failure of the root fails. -/
theorem mem_visited_run (h : ∀ rt, units[root]? = some rt → rt.state.isFailed = true)
    (x : UnitName) : x ∈ (Cascade.run (units.size + 1) (Cascade.start units root)).visited ↔
      x = root ∨ Fails units root x := by
  obtain ⟨h1, h2, h3⟩ := (cascadeAt_start h).run (units.size + 1)
    (fun a ha => .inl (List.mem_singleton.mpr (mem_singleton_iff.mp ha))) left_start_le
  have hroot := h2 root (mem_singleton_iff.mpr rfl)
  refine ⟨h1.sound x, ?_⟩
  rintro (rfl | hx)
  · exact hroot
  · induction hx with
    | single hd => exact h3 root hroot _ hd
    | tail _ hd ih => exact h3 _ ih _ hd

open Classical in
/-- A failure marks exactly the units it fails. -/
theorem get_cascade (m : UnitManager) (root x : UnitName)
    (hroot : ∀ rt, m.get root = some rt → rt.state.isFailed = true) :
    (m.cascade root).1.get x =
      if Fails m.units root x then (m.get x).map UnitRuntime.dragDown else m.get x := by
  obtain ⟨hat, -⟩ := (cascadeAt_start hroot).run (m.units.size + 1)
    (fun a ha => .inl (List.mem_singleton.mpr (mem_singleton_iff.mp ha))) left_start_le
  rw [cascade_eq]
  change (Cascade.run (m.units.size + 1) _).units[x]? = _
  rw [hat.get x]
  by_cases hx : Fails m.units root x
  · rw [if_pos hx, if_pos ((mem_visited_run hroot x).mpr (.inr hx))]
    rfl
  · rw [if_neg hx]
    split
    · next hv =>
      obtain rfl := ((mem_visited_run hroot x).mp hv).resolve_right hx
      exact map_dragDown_of_isFailed hroot
    · rfl

end UnitManager

end Rinit
