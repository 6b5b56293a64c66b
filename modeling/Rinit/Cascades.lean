import Rinit.Ops

/-!
# The list of a failure

`failStart` returns the units that failed with the one that failed to start. The walk over the
reverse edges of `Requires=` skips a unit with a process, marks and lists a unit that has not
failed, and goes on from a unit it sees for the first time, failed or not. `Listed` is the
invariant of the list : the visited units that had not failed, each once. The walk ends with
nothing in its queue (`Cascade.run_queue`), cyclic or not, and the list is exact
(`failStart_exact`).
-/

namespace Rinit.UnitManager

variable {units : Units} {root : UnitName} {c : Cascade}

/-- The units that have not failed. -/
def Unfailed (units : Units) (d : UnitName) : Prop :=
  ∃ rt, units[d]? = some rt ∧ rt.state.isFailed = false

/-- The list of the walk : the visited units that had not failed. -/
structure Listed (units : Units) (c : Cascade) : Prop where
  nodup : c.failed.Nodup
  mem : ∀ d, d ∈ c.failed ↔ d ∈ c.visited ∧ Unfailed units d

theorem Cascade.enqueue_failed (c : Cascade) (d : UnitName) : (c.enqueue d).failed = c.failed := by
  unfold Cascade.enqueue
  split <;> rfl

theorem Cascade.visit_eq {d : UnitName} {rt : UnitRuntime} (hrt : c.units[d]? = some rt)
    (hp : rt.pid = none) : c.visit d = (c.mark d rt).enqueue d := by
  unfold Cascade.visit
  simp [hrt, hp]

/-- A dependent without a process is listed if it had not failed. One the walk has seen is
failed by then, and is not listed again. -/
theorem Listed.visit_idle (h : CascadeAt units root c) (hl : Listed units c) {d : UnitName}
    (hd : c.Idle d) : Listed units (c.visit d) := by
  obtain ⟨rt, hrt, hp⟩ := hd
  have hget := h.get d
  rw [hrt] at hget
  have hvisited (x : UnitName) : x ∈ (c.visit d).visited ↔ x = d ∨ x ∈ c.visited := by
    rw [Cascade.visit_eq hrt hp, Cascade.mem_enqueue_visited, (Cascade.mark_walk c d rt).1]
  have hfailed : (c.visit d).failed =
      if rt.state.isFailed then c.failed else c.failed ++ [d] := by
    rw [Cascade.visit_eq hrt hp, Cascade.enqueue_failed]
    unfold Cascade.mark
    split <;> rfl
  by_cases hv : d ∈ c.visited
  · rw [if_pos hv] at hget
    obtain ⟨rt0, -, rfl⟩ := Option.map_eq_some_iff.mp hget.symm
    rw [if_pos (dragDown_isFailed rt0)] at hfailed
    refine ⟨hfailed ▸ hl.nodup, fun x => ?_⟩
    rw [hfailed, hl.mem, hvisited]
    refine and_congr_left fun _ => ⟨.inr, ?_⟩
    rintro (rfl | hx)
    · exact hv
    · exact hx
  · rw [if_neg hv] at hget
    have hiff : Unfailed units d ↔ rt.state.isFailed = false := by simp [Unfailed, ← hget]
    cases hf : rt.state.isFailed with
    | true =>
      rw [hf, if_pos rfl] at hfailed
      refine ⟨hfailed ▸ hl.nodup, fun x => ?_⟩
      rw [hfailed, hl.mem, hvisited]
      refine ⟨fun hx => ⟨.inr hx.1, hx.2⟩, ?_⟩
      rintro ⟨rfl | hx, hu⟩
      · rw [hiff, hf] at hu
        cases hu
      · exact ⟨hx, hu⟩
    | false =>
      rw [hf, if_neg (by simp)] at hfailed
      have hnew : d ∉ c.failed := fun hd => hv ((hl.mem d).mp hd).1
      refine ⟨?_, fun x => ?_⟩
      · rw [hfailed, List.nodup_append]
        exact ⟨hl.nodup, List.nodup_singleton d, fun a ha b hb => by
          obtain rfl := List.mem_singleton.mp hb
          exact fun hab => hnew (hab ▸ ha)⟩
      · rw [hfailed, List.mem_append, List.mem_singleton, hl.mem, hvisited]
        constructor
        · rintro (hx | rfl)
          · exact ⟨.inr hx.1, hx.2⟩
          · exact ⟨.inl rfl, hiff.mpr hf⟩
        · rintro ⟨rfl | hx, hu⟩
          · exact .inr rfl
          · exact .inl ⟨hx, hu⟩

theorem Listed.foldl_visit {a : UnitName} (l : List UnitName)
    (hd : ∀ d ∈ l, d ∈ requiresDependents units a) : ∀ {c : Cascade}, CascadeAt units root c →
      Listed units c → a ∈ c.visited → Listed units (l.foldl Cascade.visit c) := by
  induction l with
  | nil => exact fun _ hl _ => hl
  | cons d l ih =>
    intro c h hl ha
    obtain ⟨h1, h2, -⟩ := h.foldl_visit [d] (fun x hx => hd x (by simp_all)) ha
    refine ih (fun x hx => hd x (List.mem_cons_of_mem d hx)) h1 ?_ (h2.visited a ha)
    by_cases hi : c.Idle d
    · exact hl.visit_idle h hi
    · exact (Cascade.visit_of_not_idle hi).symm ▸ hl

/-- One round of the walk : a unit leaves the queue and its dependents are visited. -/
theorem CascadeAt.round (h : CascadeAt units root c) (hl : Listed units c) {current : UnitName}
    {queue : List UnitName} (hq : c.queue = current :: queue) {c' : Cascade}
    (hc' : c' = (requiresDependents c.units current).foldl Cascade.visit
      { c with queue := queue }) :
    CascadeAt units root c' ∧ Listed units c' ∧ c'.left units < c.left units := by
  have hcur : current ∈ c.visited := h.queue current (by simp [hq])
  have h0 : CascadeAt units root { c with queue := queue } :=
    ⟨h.get, h.sound, fun x hx => h.queue x (by simp [hq, hx])⟩
  have hdeps := fun d hd => (h.mem_requiresDependents (a := current) (d := d)).mp hd
  obtain ⟨h1, h2, -⟩ := h0.foldl_visit (requiresDependents c.units current) hdeps hcur
  have hlist := Listed.foldl_visit (requiresDependents c.units current) hdeps h0
    ⟨hl.nodup, hl.mem⟩ hcur
  have hless : Cascade.left units { c with queue := queue } < c.left units := by
    unfold Cascade.left
    rw [hq, List.length_cons]
    exact Nat.lt_succ_self _
  subst hc'
  exact ⟨h1, hlist, h2.left.trans_lt hless⟩

/-- With a step for each unit that is left the walk empties its queue, and its list is
exact. -/
theorem Listed.run (fuel : ℕ) : ∀ {c : Cascade}, CascadeAt units root c → Listed units c →
    c.left units ≤ fuel →
      Listed units (Cascade.run fuel c) ∧ (Cascade.run fuel c).queue = [] := by
  induction fuel with
  | zero =>
    intro c _ hl hf
    have hq : c.queue = [] := by
      rw [← List.length_eq_zero_iff]
      unfold Cascade.left at hf
      omega
    exact ⟨hl, hq⟩
  | succ fuel ih =>
    intro c h hl hf
    unfold Cascade.run
    split
    · next hq => exact ⟨hl, hq⟩
    · next current queue hq =>
      obtain ⟨h1, h2, h3⟩ := h.round hl hq rfl
      exact ih h1 h2 (by omega)

/-- A walk with an empty queue stays as it is, however many steps are left. -/
theorem Cascade.run_of_queue (c : Cascade) (hq : c.queue = []) (fuel : ℕ) :
    Cascade.run fuel c = c := by
  cases fuel with
  | zero => rfl
  | succ fuel =>
    unfold Cascade.run
    rw [hq]

theorem Cascade.run_add (n fuel : ℕ) : ∀ c : Cascade,
    Cascade.run (n + fuel) c = Cascade.run fuel (Cascade.run n c) := by
  induction n with
  | zero =>
    intro c
    rw [Nat.zero_add]
    rfl
  | succ n ih =>
    intro c
    cases hq : c.queue with
    | nil => rw [Cascade.run_of_queue c hq, Cascade.run_of_queue c hq, Cascade.run_of_queue c hq]
    | cons current queue =>
      rw [Nat.succ_add]
      simp only [Cascade.run, hq]
      exact ih _

theorem listed_start (h : ∀ rt, units[root]? = some rt → rt.state.isFailed = true) :
    Listed units (Cascade.start units root) where
  nodup := List.nodup_nil
  mem d := by
    refine iff_of_false (List.not_mem_nil) fun hd => ?_
    obtain rfl := mem_singleton_iff.mp hd.1
    obtain ⟨rt, hrt, hf⟩ := hd.2
    rw [h rt hrt] at hf
    cases hf

/-- The list of a cascade : the units its root fails that had not failed, each once. -/
theorem cascade_failed (m : UnitManager) (root : UnitName)
    (hroot : ∀ rt, m.get root = some rt → rt.state.isFailed = true) :
    (m.cascade root).2.Nodup ∧
    ∀ d, d ∈ (m.cascade root).2 ↔ Fails m.units root d ∧ Unfailed m.units d := by
  obtain ⟨hlist, -⟩ := (listed_start hroot).run (m.units.size + 1) (cascadeAt_start hroot)
    left_start_le
  refine ⟨hlist.nodup, fun d => (hlist.mem d).trans (and_congr_left fun hd => ?_)⟩
  rw [mem_visited_run hroot]
  refine or_iff_right ?_
  rintro rfl
  obtain ⟨rt, hrt, hf⟩ := hd
  rw [hroot rt hrt] at hf
  cases hf

/-- What a failure fails, before and after the failed unit itself was marked. -/
theorem fails_update_failOwn (k : Kernel) (m : UnitManager) {u d : UnitName} (hd : d ≠ u) :
    Fails (m.update u (·.failOwn k m.cgroup u)).units u d ↔ Fails m.units u d := by
  have hother (x : UnitName) (hx : x ≠ u) :
      (m.update u (·.failOwn k m.cgroup u)).units[x]? = m.units[x]? := by
    have h := get_update m u x (·.failOwn k m.cgroup u)
    rwa [if_neg (Ne.symm hx)] at h
  have hconfig : ((m.update u (·.failOwn k m.cgroup u)).units[u]?).map UnitRuntime.config =
      (m.units[u]?).map UnitRuntime.config := by
    have h := get_update m u u (·.failOwn k m.cgroup u)
    rw [if_pos rfl] at h
    refine (congrArg (Option.map UnitRuntime.config) h).trans ?_
    unfold get
    cases m.units[u]? with
    | none => rfl
    | some rt =>
      simp only [Option.map_some, UnitRuntime.failOwn_val]
      split <;> rfl
  exact ⟨fun h => h.of_agree hother hconfig hd,
    fun h => h.of_agree (fun x hx => (hother x hx).symm) hconfig.symm hd⟩

/-- Failing a start is exact, for any state of the manager. The walk ends. Afterwards the
unit is failed, and the units returned are, without repetition, those other than it that had
no process, had not failed and reach it over `Requires=` through units without a process.
These, and no other units, are the ones newly failed with `startFailure`. Every other
unit keeps its whole entry, and of these units only the state is written. -/
theorem failStart_exact (k : Kernel) (m : UnitManager) (u : UnitName) (rt : UnitRuntime)
    (hu : m.get u = some rt) :
    let m' := m.update u (·.failOwn k m.cgroup u)
    let r := m.failStart k u
    (∀ fuel, m'.units.size + 1 ≤ fuel →
      (Cascade.run fuel (Cascade.start m'.units u)).queue = [] ∧
      (Cascade.run fuel (Cascade.start m'.units u)).failed = r.2 ∧
      (Cascade.run fuel (Cascade.start m'.units u)).units = r.1.units) ∧
    r.1.isFailed u = true ∧
    r.2.Nodup ∧
    (∀ d, d ∈ r.2 ↔ d ≠ u ∧ Fails m.units u d ∧ Unfailed m.units d) ∧
    (∀ d, d ∈ r.2 ↔ d ≠ u ∧ Unfailed m.units d ∧
      ∃ rt', r.1.get d = some rt' ∧ rt'.state = .failed .startFailure) ∧
    (∀ d, d ≠ u → r.1.get d =
      if d ∈ r.2 then (m.get d).map fun rt => { rt with state := .failed .startFailure }
      else m.get d) := by
  intro m' r
  have hown : m'.get u = some (rt.failOwn k m.cgroup u).val := by
    rw [get_update, if_pos rfl, hu, Option.map_some]
  have hroot : ∀ rt, m'.get u = some rt → rt.state.isFailed = true := by
    intro rt' h
    obtain rfl : (rt.failOwn k m.cgroup u).val = rt' := Option.some.inj (hown.symm.trans h)
    exact failOwn_isFailed k m.cgroup u rt
  have hother (d : UnitName) (hd : d ≠ u) : m'.get d = m.get d := by
    rw [get_update, if_neg (Ne.symm hd)]
  obtain ⟨hnodup, hlist⟩ := cascade_failed m' u hroot
  have hmem (d : UnitName) : d ∈ r.2 ↔ d ≠ u ∧ Fails m.units u d ∧ Unfailed m.units d := by
    refine (hlist d).trans ⟨fun ⟨hf, hun⟩ => ?_, fun ⟨hd, hf, hun⟩ => ?_⟩
    · have hd : d ≠ u := by
        rintro rfl
        obtain ⟨rt', hrt', hstate⟩ := hun
        rw [hroot rt' hrt'] at hstate
        cases hstate
      refine ⟨hd, (fails_update_failOwn k m hd).mp hf, ?_⟩
      rwa [Unfailed, ← show m.get d = m.units[d]? from rfl, ← hother d hd]
    · refine ⟨(fails_update_failOwn k m hd).mpr hf, ?_⟩
      rwa [Unfailed, ← show m'.get d = m'.units[d]? from rfl, hother d hd]
  have hget (d : UnitName) (hd : d ≠ u) : r.1.get d =
      if d ∈ r.2 then (m.get d).map fun rt => { rt with state := .failed .startFailure }
      else m.get d := by
    have h := get_cascade m' u d hroot
    rw [fails_update_failOwn k m hd, hother d hd] at h
    refine h.trans ?_
    by_cases hf : Fails m.units u d
    · obtain ⟨rt', hrt', -⟩ := hf.exists_rt
      have hrt' : m.get d = some rt' := hrt'
      rw [if_pos hf, hrt', Option.map_some, Option.map_some]
      cases hstate : rt'.state.isFailed with
      | true =>
        rw [dragDown_of_isFailed hstate, if_neg]
        intro hd'
        obtain ⟨-, -, rt'', hrt'', hun⟩ := (hmem d).mp hd'
        obtain rfl : rt' = rt'' := Option.some.inj (hrt'.symm.trans hrt'')
        rw [hstate] at hun
        cases hun
      | false =>
        rw [if_pos ((hmem d).mpr ⟨hd, hf, rt', hrt', hstate⟩)]
        simp [UnitRuntime.dragDown, hstate]
    · rw [if_neg hf, if_neg fun hd' => hf ((hmem d).mp hd').2.1]
  refine ⟨fun fuel hfuel => ?_, ?_, hnodup, hmem, fun d => ⟨fun hd => ?_, ?_⟩, hget⟩
  · obtain ⟨n, rfl⟩ := Nat.exists_eq_add_of_le hfuel
    obtain ⟨-, hq⟩ := (listed_start hroot).run (m'.units.size + 1) (cascadeAt_start hroot)
      left_start_le
    rw [Cascade.run_add, Cascade.run_of_queue _ hq]
    exact ⟨hq, rfl, rfl⟩
  · have h := get_cascade m' u u hroot
    have hsame : (m'.get u).map UnitRuntime.dragDown = m'.get u := map_dragDown_of_isFailed hroot
    rw [hsame, ite_self, hown] at h
    unfold isFailed
    rw [show r.1.get u = _ from h]
    exact failOwn_isFailed k m.cgroup u rt
  · obtain ⟨hne, -, rt', hrt', hun⟩ := (hmem d).mp hd
    refine ⟨hne, ⟨rt', hrt', hun⟩, { rt' with state := .failed .startFailure }, ?_, rfl⟩
    have hrt' : m.get d = some rt' := hrt'
    rw [hget d hne, if_pos hd, hrt', Option.map_some]
  · rintro ⟨hne, ⟨rt0, hrt0, hun⟩, rt', hrt', hstate⟩
    by_contra hd
    have hrt0 : m.get d = some rt0 := hrt0
    rw [hget d hne, if_neg hd, hrt0] at hrt'
    obtain rfl := Option.some.inj hrt'
    rw [hstate] at hun
    cases hun

/-- A target requires a service that requires another one. -/
def chained : UnitManager :=
  ({} : UnitManager)
    |>.apply (.granting 0 10) (.addWithInFlight (UnitConfig.new serviceA) false)
    |>.apply (.granting 0 10) (.addWithInFlight
      { UnitConfig.new serviceB with deps := { requires := [serviceA] } } false)
    |>.apply (.granting 0 10) (.addWithInFlight
      { UnitConfig.new targetD with deps := { requires := [serviceB] } } false)

/-- When the service at the bottom fails, the target fails with it. -/
theorem failStart_chained :
    (chained.failStart (.granting 0 10) serviceA).1.isFailed serviceA = true ∧
    (chained.failStart (.granting 0 10) serviceA).2 = [serviceB, targetD] ∧
    ∃ rt, (chained.failStart (.granting 0 10) serviceA).1.get targetD = some rt ∧
      rt.state = .failed .startFailure := by
  have hknown : (chained.get serviceA).isSome = true := by decide +kernel
  obtain ⟨rt, hrt⟩ := Option.isSome_iff_exists.mp hknown
  obtain ⟨-, hfailed, -, -, hstates, -⟩ := failStart_exact (.granting 0 10) chained serviceA rt hrt
  have hlist : (chained.failStart (.granting 0 10) serviceA).2 = [serviceB, targetD] := by
    decide +kernel
  exact ⟨hfailed, hlist, ((hstates targetD).mp (hlist ▸ by simp)).2.2⟩

end Rinit.UnitManager
