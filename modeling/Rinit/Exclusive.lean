import Rinit.Acts
import Rinit.Targets

/-!
# Conflicting units

A start looks at its conflicts once : it stops the units its definition names that have a
process or are on their way, and waits until their processes are gone. A start that has not
come to its spawn leaves its unit inactive, so the look passes it over, and a unit that does
not name the other does not look at it at all. `exclusive_of_apart` : in every run of acts in
which each look finds the other unit out of play or stops it, the two units never both have a
process, and the start of the other unit that has not come to its spawn is cancelled.
-/

namespace Rinit

open Relation

/-! ## Operations -/

section Operations

variable {k : Kernel} {m m' : UnitManager} {op : Op} {u v : UnitName} {rt : UnitRuntime}

/-- Only a spawn gives a unit a process. -/
theorem UnitManager.running_of_apply (hop : op ≠ .beginSpawnUnit u)
    (h : (m.apply k op).isRunning u = true) : m.isRunning u = true := by
  obtain ⟨rt', hrt', hp'⟩ := (Option.any_eq_true _ _).mp h
  let P (v : UnitName) (rt : UnitRuntime) : Prop := v = u → rt.pid.isSome = true →
    m.isRunning u = true
  refine inv_apply (P := P) ?_ ?_ ?_ u rt' hrt' rfl hp'
  · rintro v rt hrt rfl hp
    simp [isRunning, hrt, hp]
  · intro v config _ _ hp
    cases hp
  · rintro v rt rt' ht hP rfl hp
    refine hP rfl ?_
    cases move_of_touch ht with
    | quiet _ h | settled _ _ _ h | flagged _ _ _ h | cleared _ _ _ h | reached _ _ _ h
    | ready _ _ h => exact h ▸ hp
    | stopped _ _ hs | unhealthy _ _ _ hs =>
      rcases hs with ⟨-, h⟩ | ⟨-, h⟩
      · simp_all
      · simp_all
    | spawned h => exact absurd h hop
    | daemon _ _ h => simp [h]
    | failed _ _ _ h | dragged _ _ _ _ _ _ _ h | noProcess _ _ _ h | exited _ _ _ h
    | waiting _ _ _ h | killed _ _ _ _ h => simp [h] at hp

theorem UnitManager.stopped_requestStop (hm : JobsSorted m) {source : RequestSource}
    (hs : RequestSource.userStop.rank ≤ source.rank) (ht : m.targetOf u = some .stopped) :
    (m.requestStop k v source).1.targetOf u = some .stopped := by
  by_cases huv : u = v
  · subst huv
    unfold requestStop request
    split
    · rw [targetOf, jobs_submitRequest]
      exact filed_stop_target hm u hs
    · split
      · exact ht
      · next m' hm' =>
        rw [targetOf, jobs_submitRequest]
        exact filed_stop_target (hm.of_same (sameRequests_instantiate hm')) u hs
  · exact (targetOf_request_of_ne huv .stopped source).trans ht

theorem UnitManager.jobsSorted_stopConflict (hm : JobsSorted m) :
    JobsSorted (m.stopConflict k v).1 := by
  unfold stopConflict
  split
  · have hstop : Sorted .stopped .userStop := le_rfl
    exact (hm.request hstop).of_same (sameRequests_update ..)
  · exact hm

theorem UnitManager.stopped_stopConflict (hm : JobsSorted m) (ht : m.targetOf u = some .stopped) :
    (m.stopConflict k v).1.targetOf u = some .stopped := by
  unfold stopConflict
  split
  · rw [targetOf, stopUnit, (sameRequests_update ..).jobs]
    exact stopped_requestStop hm le_rfl ht
  · exact ht

theorem UnitManager.stopped_stopConflicts (hm : JobsSorted m)
    (ht : m.targetOf u = some .stopped) : (m.stopConflicts k v).1.targetOf u = some .stopped := by
  unfold stopConflicts
  split
  · exact ht
  · refine (Runs.foldl_induction (P := fun _ (s : UnitManager × List UnitName) =>
      JobsSorted s.1 ∧ s.1.targetOf u = some .stopped) ⟨hm, ht⟩ ?_).2
    intro _ other _ s _ ih
    exact ⟨jobsSorted_stopConflict ih.1, stopped_stopConflict ih.1 ih.2⟩

/-- A unit that is named and needs it is stopped, and its stop is on file. -/
theorem UnitManager.stopConflict_of_needsStop (hm : JobsSorted m)
    (hn : (m.get v).any needsStop = true) : (m.stopConflict k v).2 = true ∧
      (m.stopConflict k v).1.targetOf v = some .stopped := by
  obtain ⟨rt, hrt, -⟩ := (Option.any_eq_true _ _).mp hn
  have htarget : (m.requestStop k v .userStop).1.targetOf v = some .stopped := by
    rw [requestStop, request, hrt, targetOf, jobs_submitRequest]
    exact filed_stop_target hm v le_rfl
  unfold stopConflict
  rw [if_pos hn]
  refine ⟨rfl, ?_⟩
  rw [targetOf, stopUnit, (sameRequests_update ..).jobs]
  exact htarget

theorem UnitManager.get_stopConflict_of_ne (hv : v ≠ u) :
    (m.stopConflict k u).1.get v = m.get v := by
  unfold stopConflict
  split
  · rw [stopUnit, get_update, if_neg (Ne.symm hv)]
    rcases get_request k m u .stopped .userStop v with h | ⟨_, h, -⟩ | ⟨_, h, -⟩
    · exact h
    · exact absurd h hv
    · exact absurd h hv
  · rfl

/-- A start stops what it names, as far as that needs to be stopped. -/
theorem UnitManager.stopConflicts_of_needsStop (hm : JobsSorted m) (hrt : m.get u = some rt)
    (hv : v ∈ rt.config.deps.conflicts) (hn : (m.get v).any needsStop = true) :
    v ∈ (m.stopConflicts k u).2 ∧ (m.stopConflicts k u).1.targetOf v = some .stopped := by
  unfold stopConflicts
  rw [hrt]
  refine (Runs.foldl_induction (P := fun done (s : UnitManager × List UnitName) =>
    JobsSorted s.1 ∧ (v ∉ done → s.1.get v = m.get v) ∧
      (v ∈ done → v ∈ s.2 ∧ s.1.targetOf v = some .stopped))
    ⟨hm, fun _ => rfl, fun h => (by cases h)⟩ ?_).2.2 hv
  intro done other _ s _ ih
  obtain ⟨hs, hget, hdone⟩ := ih
  refine ⟨jobsSorted_stopConflict hs, fun hmem => ?_, fun hmem => ?_⟩
  · simp only [List.mem_append, List.mem_singleton, not_or] at hmem
    exact (get_stopConflict_of_ne hmem.2).trans (hget hmem.1)
  · by_cases hd : v ∈ done
    · refine ⟨?_, stopped_stopConflict hs (hdone hd).2⟩
      dsimp only
      split
      · exact List.mem_append_left _ (hdone hd).1
      · exact (hdone hd).1
    · obtain rfl : v = other := by simpa [hd] using hmem
      obtain ⟨hstopped, htarget⟩ :=
        stopConflict_of_needsStop (k := k) hs (by rw [hget hd]; exact hn)
      refine ⟨?_, htarget⟩
      dsimp only
      rw [hstopped]
      simp

theorem UnitManager.targetOf_dueQueuedStarts (hu : u ∉ m.queuedStarts) :
    (m.dueQueuedStarts k).1.targetOf u = m.targetOf u := by
  unfold dueQueuedStarts
  refine Runs.foldl_induction (P := fun _ (s : UnitManager × List UnitName) =>
    s.1.targetOf u = m.targetOf u) rfl ?_
  rintro done ⟨v, source⟩ rest s hl ih
  have hv : u ≠ v := by
    rintro rfl
    have hmem : (u, source) ∈ m.queuedStarts.toList := by rw [hl]; simp
    rw [Std.ExtTreeMap.mem_toList_iff_getElem?_eq_some] at hmem
    refine hu ?_
    rw [Std.ExtTreeMap.mem_iff_isSome_getElem?, hmem]
    rfl
  refine Eq.trans ?_ ih
  dsimp only
  unfold dueQueuedStart
  split
  · rfl
  · split
    · rfl
    · exact targetOf_request_of_ne hv .started source

/-- A stop stays on file until a start of the unit is asked for. -/
theorem UnitManager.stopped_apply (hm : Reachable m) (hop : op.Promised)
    (hstart : ∀ source, op ≠ .requestStart u source)
    (hqueued : op = .dueQueuedStarts → u ∉ m.queuedStarts)
    (ht : m.targetOf u = some .stopped) : (m.apply k op).targetOf u = some .stopped := by
  by_cases hr : op.Requests
  · cases op with
    | requestStart v source =>
      refine (targetOf_request_of_ne ?_ .started source).trans ht
      rintro rfl
      exact hstart source rfl
    | requestStop v source => exact stopped_requestStop hm.jobsSorted hop ht
    | dueQueuedStarts => exact (targetOf_dueQueuedStarts (hqueued rfl)).trans ht
    | stopConflicts v => exact stopped_stopConflicts hm.jobsSorted ht
    | retire v =>
      change (m.retire k v).targetOf u = _
      unfold retire
      dsimp only
      split <;> exact ht
    | _ => exact hr.elim
  · rw [targetOf, (sameRequests_apply hr).jobs]
    exact ht

theorem UnitManager.running_of_guarded {G : Kernel → UnitManager → Op → Prop}
    (h : Guarded G m m') (hG : ∀ k m op, G k m op → op ≠ .beginSpawnUnit u)
    (hr : m'.isRunning u = true) : m.isRunning u = true := by
  induction h with
  | refl => exact hr
  | tail _ hstep ih =>
    obtain ⟨k, op, -, hg, rfl⟩ := hstep
    exact ih (running_of_apply (hG k _ op hg) hr)

theorem UnitManager.stopped_of_guarded {G : Kernel → UnitManager → Op → Prop} (hm : Reachable m)
    (h : Guarded G m m')
    (hG : ∀ k m op, G k m op → (∀ source, op ≠ .requestStart u source) ∧ op ≠ .dueQueuedStarts)
    (ht : m.targetOf u = some .stopped) : m'.targetOf u = some .stopped := by
  induction h with
  | refl => exact ht
  | tail hrun hstep ih =>
    obtain ⟨k, op, hp, hg, rfl⟩ := hstep
    obtain ⟨hstart, hqueued⟩ := hG k _ op hg
    exact stopped_apply (Guarded.reachable hrun hm) hp hstart (fun h => absurd h hqueued) ih

/-- A turn gives no other unit a process. -/
theorem UnitManager.running_of_turn (hv : v ≠ u) (h : Guarded (StartFlow.TurnOp k u) m m')
    (hr : m'.isRunning v = true) : m.isRunning v = true := by
  refine running_of_guarded h ?_ hr
  rintro _ _ op ⟨-, rfl | rfl | rfl | ⟨_, rfl⟩ | ⟨_, rfl⟩⟩ <;> simp [Ne.symm hv]

/-- A turn leaves the stops on file. -/
theorem UnitManager.stopped_of_turn (hm : Reachable m) (h : Guarded (StartFlow.TurnOp k u) m m')
    (ht : m.targetOf v = some .stopped) : m'.targetOf v = some .stopped := by
  refine stopped_of_guarded hm h ?_ ht
  rintro _ _ op ⟨-, rfl | rfl | rfl | ⟨_, rfl⟩ | ⟨_, rfl⟩⟩ <;> simp

end Operations

/-! ## Two starts -/

/-- The flow has looked at its conflicts, and has not come to its spawn. -/
def StartStage.hasLooked : StartStage → Bool
  | .conflicts (some _) | .pre .. | .spawn => true
  | .sockets _ | .conflicts none | .spawnWait | .waitReady | .post .. | .done => false

theorem StartStage.isEarly_of_hasLooked {stage : StartStage} (h : stage.hasLooked = true) :
    stage.isEarly = true := by
  unfold StartStage.hasLooked at h
  split at h
  all_goals first
    | rfl
    | cases h

namespace World

variable {k : Kernel} {w w' : World} {a b u v x y : UnitName} {aux : AuxExits}

/-- A start of the unit that has not come to its spawn is in flight. -/
def Unspawned (w : World) (u : UnitName) : Prop :=
  ∃ f, w.flows[u]? = some f ∧ f.stage.isEarly = true

/-- The start of the unit has looked at its conflicts, and has not come to its spawn. -/
def Looked (w : World) (u : UnitName) : Prop :=
  ∃ f, w.flows[u]? = some f ∧ f.stage.hasLooked = true

/-- The start of `x` waits for the process of `y` to go. -/
def Awaits (w : World) (x y : UnitName) : Prop :=
  ∃ f waits wait, w.flows[x]? = some f ∧ f.stage = .conflicts (some waits) ∧
    wait ∈ waits ∧ wait.unit = y ∧ wait.done = false

/-- The next turn of `x` looks at its conflicts for the first time. -/
def Looks (k : Kernel) (w : World) (x : UnitName) (aux : AuxExits) : Prop :=
  ∃ f, w.flows[x]? = some f ∧
    StartFlow.Looks k { flow := f, manager := w.manager, aux := aux }

/-- The next turn of `x` gives up on the process of `y`, which was killed and has outlived its
deadline. -/
def GivesUp (k : Kernel) (w : World) (x y : UnitName) : Prop :=
  w.manager.isRunning y = true ∧ ∃ f waits wait, w.flows[x]? = some f ∧
    f.stage = .conflicts (some waits) ∧ wait ∈ waits ∧ wait.unit = y ∧ wait.done = false ∧
    wait.escalated = true ∧ wait.deadline ≤ k.now

/-- A start of the unit is in flight, and a stop of it is on file. -/
def Doomed (w : World) (u : UnitName) : Prop :=
  w.Unspawned u ∧ w.manager.targetOf u = some .stopped

/-- The definition of `x` names `y`, and a stop of `y` would reach it. -/
def Reaches (w : World) (x y : UnitName) : Prop :=
  (w.manager.get x).any (fun rt => rt.config.deps.conflicts.contains y) = true ∧
    (w.manager.get y).any UnitManager.needsStop = true

end World

/-- What keeps two units apart : a look at the conflicts of one stops the other if it has a
process or an unspawned start, a process that is waited for goes in time, and no start of
either is asked for while its start in flight is to be cancelled. -/
def Act.Apart (a b : UnitName) (k : Kernel) (w : World) : Act → Prop
  | .turn x aux => ∀ y, (x = a ∧ y = b ∨ x = b ∧ y = a) → ¬w.GivesUp k x y ∧
    (w.Looks k x aux → w.manager.isRunning y = true ∨ w.Unspawned y → w.Reaches x y)
  | .op (.requestStart x _) => x = a ∨ x = b → ¬w.Doomed x
  | .op .dueQueuedStarts => ∀ x, (x = a ∨ x = b) → x ∈ w.manager.queuedStarts → ¬w.Doomed x
  | _ => True

namespace World

variable {k : Kernel} {w w' : World} {a b u v x y : UnitName} {aux : AuxExits}

/-- The start of `x` that has looked goes before a start of `y`, and waits for its process. -/
structure Precedes (w : World) (x y : UnitName) : Prop where
  looked : w.Looked x → w.manager.targetOf x ≠ some .stopped → w.Looked y →
    w.manager.targetOf y = some .stopped
  awaits : w.Looked x → w.manager.targetOf x ≠ some .stopped → w.manager.isRunning y = true →
    w.Awaits x y

/-- At most one of the two has a process, and a start that is past its look keeps the other
from having one. -/
structure Exclusive (a b : UnitName) (w : World) : Prop where
  reachable : Reachable w.manager
  keyed : w.Keyed
  left : w.Precedes a b
  right : w.Precedes b a
  apart : ¬(w.manager.isRunning a = true ∧ w.manager.isRunning b = true)

theorem Exclusive.symm (h : Exclusive a b w) : Exclusive b a w :=
  ⟨h.reachable, h.keyed, h.right, h.left, fun hr => h.apart hr.symm⟩

theorem Precedes.of_kept (h : w.Precedes x y)
    (hflow : ∀ u f, u = x ∨ u = y → w'.flows[u]? = some f → f.stage.hasLooked = true →
      w.flows[u]? = some f)
    (hrun : w'.manager.isRunning y = true → w.manager.isRunning y = true)
    (hstop : ∀ u, u = x ∨ u = y → w'.Looked u → w.manager.targetOf u = some .stopped →
      w'.manager.targetOf u = some .stopped) : w'.Precedes x y := by
  have back (u : UnitName) (hu : u = x ∨ u = y) (hl : w'.Looked u) : w.Looked u := by
    obtain ⟨f, hf, hs⟩ := hl
    exact ⟨f, hflow u f hu hf hs, hs⟩
  refine ⟨fun hx ht hy => ?_, fun hx ht hr => ?_⟩
  · exact hstop y (.inr rfl) hy (h.looked (back x (.inl rfl) hx)
      (fun h' => ht (hstop x (.inl rfl) hx h')) (back y (.inr rfl) hy))
  · obtain ⟨f, waits, wait, hf, hs, hwait⟩ := h.awaits (back x (.inl rfl) hx)
      (fun h' => ht (hstop x (.inl rfl) hx h')) (hrun hr)
    obtain ⟨f', hf', hs'⟩ := hx
    obtain rfl := Option.some.inj (hf.symm.trans (hflow x f' (.inl rfl) hf' hs'))
    exact ⟨f, waits, wait, hf', hs, hwait⟩

/-- Nothing new has looked, nothing new has a process, and the stops on file stay. -/
theorem Exclusive.of_kept (h : Exclusive a b w) (hm : Reachable w'.manager) (hk : w'.Keyed)
    (hflow : ∀ u f, u = a ∨ u = b → w'.flows[u]? = some f → f.stage.hasLooked = true →
      w.flows[u]? = some f)
    (hrun : ∀ u, u = a ∨ u = b → w'.manager.isRunning u = true → w.manager.isRunning u = true)
    (hstop : ∀ u, u = a ∨ u = b → w'.Looked u → w.manager.targetOf u = some .stopped →
      w'.manager.targetOf u = some .stopped) : Exclusive a b w' := by
  refine ⟨hm, hk, h.left.of_kept hflow (hrun b (.inr rfl)) hstop, ?_, fun hr => ?_⟩
  · exact h.right.of_kept (fun u f hu => hflow u f hu.symm) (hrun a (.inl rfl))
      fun u hu => hstop u hu.symm
  · exact h.apart ⟨hrun a (.inl rfl) hr.1, hrun b (.inr rfl) hr.2⟩

/-! ## A turn of one of them -/

/-- What a start that is past its look knows of the other unit : its start is to be cancelled,
and its process is waited for. -/
structure Sighted (w : World) (y : UnitName) (m : UnitManager) (waits : List ConflictWait) :
    Prop where
  stopped : w.Looked y → m.targetOf y = some .stopped
  awaits : m.isRunning y = true → ∃ wait ∈ waits, wait.unit = y ∧ wait.done = false

/-- A wait for a process that is there goes on, unless it is given up. -/
theorem pollConflict_done (deadline : ℕ) {m : UnitManager} {wait : ConflictWait}
    (hr : m.isRunning wait.unit = true) (hd : wait.done = false)
    (hg : ¬(wait.escalated = true ∧ wait.deadline ≤ k.now)) :
    (StartFlow.pollConflict k deadline m wait).val.unit = wait.unit ∧
      (StartFlow.pollConflict k deadline m wait).val.done = false := by
  obtain ⟨rt, hrt, hp⟩ := (Option.any_eq_true _ _).mp hr
  obtain ⟨pid, hpid⟩ := Option.isSome_iff_exists.mp hp
  unfold StartFlow.pollConflict
  rw [if_neg (by simp [hd]), hrt]
  simp only [Option.bind_some, hpid]
  split
  · exact ⟨rfl, hd⟩
  · next hnow =>
    split
    · exact ⟨rfl, hd⟩
    · next hesc => exact absurd ⟨by simpa using hesc, not_lt.mp hnow⟩ hg

section Turn

variable {f : StartFlow} {m : UnitManager} {waits : List ConflictWait}

theorem Exclusive.sighted (h : Exclusive x y w) (hf : w.flows[x]? = some f)
    (hlook : w.Looks k x aux → w.manager.isRunning y = true ∨ w.Unspawned y → w.Reaches x y)
    (hgives : ¬w.GivesUp k x y)
    (hb : ¬StartFlow.Blocked { flow := f, manager := w.manager, aux := aux })
    (hc : StartFlow.Cleared k { flow := f, manager := w.manager, aux := aux } waits m) :
    Sighted w y m waits ∧ ∀ wait ∈ waits, wait.unit = y → wait.done = false →
      m.isRunning y = true → ¬(wait.escalated = true ∧ wait.deadline ≤ k.now) := by
  have hunit : f.unit = x := h.keyed x f hf
  cases hc with
  | again hs =>
    have hlooked : w.Looked x := ⟨f, hf, by rw [show f.stage = _ from hs]; rfl⟩
    have htarget : w.manager.targetOf x ≠ some .stopped := fun ht => hb (.inl (hunit ▸ ht))
    refine ⟨⟨h.left.looked hlooked htarget, fun hr => ?_⟩, fun wait hw hu hd hr hg => ?_⟩
    · obtain ⟨f', waits', wait, hf', hs', hmem, hwait⟩ := h.left.awaits hlooked htarget hr
      obtain rfl := Option.some.inj (hf.symm.trans hf')
      cases hs.symm.trans hs'
      exact ⟨wait, hmem, hwait⟩
    · exact hgives ⟨hr, f, waits, wait, hf, hs, hw, hu, hd, hg⟩
  | first hl =>
    have hlook := hlook ⟨f, hf, hl⟩
    have hstops (hplay : w.manager.isRunning y = true ∨ w.Unspawned y) :
        y ∈ (w.manager.stopConflicts k x).2 ∧
          (w.manager.stopConflicts k x).1.targetOf y = some .stopped := by
      obtain ⟨hnames, hneeds⟩ := hlook hplay
      obtain ⟨rt, hrt, hmem⟩ := (Option.any_eq_true _ _).mp hnames
      exact UnitManager.stopConflicts_of_needsStop h.reachable.jobsSorted hrt (by simpa using hmem)
        hneeds
    have hrunning (hr : (w.manager.stopConflicts k x).1.isRunning y = true) :
        w.manager.isRunning y = true :=
      UnitManager.running_of_apply (by simp : Op.stopConflicts x ≠ .beginSpawnUnit y) hr
    refine ⟨⟨fun hy => ?_, fun hr => ?_⟩, fun wait hw _ _ _ hg => ?_⟩
    · obtain ⟨f', hf', hs'⟩ := hy
      dsimp only
      rw [hunit]
      exact (hstops (.inr ⟨f', hf', StartStage.isEarly_of_hasLooked hs'⟩)).2
    · dsimp only at hr
      rw [hunit] at hr
      unfold StartFlow.firstWaits
      dsimp only
      rw [hunit]
      refine ⟨_, List.mem_map.mpr ⟨y, (hstops (.inl (hrunning hr))).1, rfl⟩, rfl, rfl⟩
    · obtain ⟨other, -, rfl⟩ := List.mem_map.mp hw
      exact nomatch hg.1

/-- A start that has come past its conflicts has left the other unit without a process. -/
theorem Exclusive.passed (h : Exclusive x y w) (hf : w.flows[x]? = some f)
    (hlook : w.Looks k x aux → w.manager.isRunning y = true ∨ w.Unspawned y → w.Reaches x y)
    (hgives : ¬w.GivesUp k x y)
    (hb : ¬StartFlow.Blocked { flow := f, manager := w.manager, aux := aux })
    (hp : StartFlow.Passed k { flow := f, manager := w.manager, aux := aux } m) :
    (w.Looked y → m.targetOf y = some .stopped) ∧ m.isRunning y = false := by
  have hunit : f.unit = x := h.keyed x f hf
  cases hp with
  | before hs calls =>
    have hlooked : w.Looked x := by
      refine ⟨f, hf, ?_⟩
      rcases hs with ⟨_, _, _, hs⟩ | hs <;> rw [show f.stage = _ from hs] <;> rfl
    have htarget : w.manager.targetOf x ≠ some .stopped := fun ht => hb (.inl (hunit ▸ ht))
    refine ⟨h.left.looked hlooked htarget, Bool.eq_false_iff.mpr fun hr => ?_⟩
    obtain ⟨f', waits, wait, hf', hs', -⟩ := h.left.awaits hlooked htarget hr
    obtain rfl := Option.some.inj (hf.symm.trans hf')
    rcases hs with ⟨_, _, _, hs⟩ | hs <;> exact nomatch hs.symm.trans hs'
  | @cleared waits m hc hd calls =>
    obtain ⟨hsighted, hlasts⟩ := h.sighted hf hlook hgives hb hc
    refine ⟨hsighted.stopped, Bool.eq_false_iff.mpr fun hr => ?_⟩
    have hr : m.isRunning y = true := hr
    obtain ⟨wait, hmem, rfl, hdone⟩ := hsighted.awaits hr
    have hpoll := (pollConflict_done f.deadline hr hdone (hlasts wait hmem rfl hdone hr)).2
    exact nomatch hpoll.symm.trans (hd wait hmem)

/-- A start that is on its way keeps the other unit from having one. -/
theorem Precedes.of_stopped (hs : w.Looked x → w.manager.targetOf x = some .stopped) :
    w.Precedes x y :=
  ⟨fun hx ht _ => absurd (hs hx) ht, fun hx ht _ => absurd (hs hx) ht⟩

theorem flows_turn_self (hf : w.flows[x]? = some f) (aux : AuxExits) :
    (w.turn k x aux).flows[x]? =
      if (StartFlow.advance k { flow := f, manager := w.manager, aux := aux }).done.isSome then none
      else some (StartFlow.advance k { flow := f, manager := w.manager, aux := aux }).flow := by
  rw [turn_eq hf]
  dsimp only
  split
  · simp
  · simp

theorem running_of_cleared {t : StartFlow.Turn} (h : StartFlow.Cleared k t waits m)
    (hr : m.isRunning u = true) : t.manager.isRunning u = true := by
  cases h with
  | again => exact hr
  | first =>
    exact UnitManager.running_of_apply
      (by simp : Op.stopConflicts t.flow.unit ≠ .beginSpawnUnit u) hr

theorem looked_turn_of_ne (hxy : y ≠ x) (hy : (w.turn k x aux).Looked y) : w.Looked y := by
  obtain ⟨f, hf, hs⟩ := hy
  exact ⟨f, flows_turn_of_ne aux hxy ▸ hf, hs⟩

/-- A start that ended or came past its early stages is not looking any more. -/
theorem not_looked_turn (hf : w.flows[x]? = some f) (aux : AuxExits)
    (hl : (StartFlow.advance k { flow := f, manager := w.manager, aux := aux }).done = none →
      (StartFlow.advance k { flow := f, manager := w.manager, aux := aux }).flow.stage.isEarly =
        false) : ¬(w.turn k x aux).Looked x := by
  rintro ⟨f', hf', hs'⟩
  rw [flows_turn_self hf aux] at hf'
  split at hf'
  · cases hf'
  · next hdone =>
    obtain rfl := Option.some.inj hf'
    have hearly := StartStage.isEarly_of_hasLooked hs'
    rw [hl (by simpa using hdone)] at hearly
    cases hearly

/-- A turn that leaves no start of `x` past its look, and gives `x` no process. -/
theorem Exclusive.turn_idle (h : Exclusive x y w) (hxy : y ≠ x) (hx : ¬(w.turn k x aux).Looked x)
    (hr : (w.turn k x aux).manager.isRunning x = true → w.manager.isRunning x = true) :
    Exclusive x y (w.turn k x aux) := by
  have hrun := guarded_turn (k := k) h.keyed x aux
  refine h.of_kept (hrun.reachable h.reachable) (h.keyed.turn x aux) (fun u f hu hf hs => ?_)
    (fun u hu => ?_) fun u _ _ => UnitManager.stopped_of_turn h.reachable hrun
  · rcases hu with rfl | rfl
    · exact absurd ⟨f, hf, hs⟩ hx
    · exact flows_turn_of_ne aux hxy ▸ hf
  · rcases hu with rfl | rfl
    · exact hr
    · exact UnitManager.running_of_turn hxy hrun

theorem Exclusive.turn (h : Exclusive x y w) (hxy : y ≠ x)
    (hlook : w.Looks k x aux → w.manager.isRunning y = true ∨ w.Unspawned y → w.Reaches x y)
    (hgives : ¬w.GivesUp k x y) : Exclusive x y (w.turn k x aux) := by
  cases hf : w.flows[x]? with
  | none => simpa [World.turn, hf] using h
  | some f =>
    have hunit : f.unit = x := h.keyed x f hf
    have hrun := guarded_turn (k := k) h.keyed x aux
    have hm := hrun.reachable h.reachable
    have hk := h.keyed.turn (k := k) x aux
    have hadv := StartFlow.advanced_advance k { flow := f, manager := w.manager, aux := aux } rfl
    have hxflow := flows_turn_self (k := k) hf aux
    have late := not_looked_turn (k := k) hf aux
    have hman : (w.turn k x aux).manager =
        (StartFlow.advance k { flow := f, manager := w.manager, aux := aux }).manager := by
      rw [turn_eq hf]
    generalize StartFlow.advance k { flow := f, manager := w.manager, aux := aux } =
      t' at hadv hxflow late hman
    cases hadv with
    | cancelled hb reason he =>
      rw [he] at hman late
      exact h.turn_idle hxy (late fun hd => by cases hd) fun hr => by rwa [hman] at hr
    | failed hb hm₁ reason hm' hd hu =>
      refine h.turn_idle hxy (late fun hd' => by rw [hd] at hd'; cases hd') fun hr => ?_
      obtain ⟨rt, hrt, hp⟩ := (Option.any_eq_true _ _).mp hr
      have hidle := hm.failedIdle hrt
      rw [hman, hm', hunit] at hrt
      rw [hidle (UnitManager.isFailed_of_failStart hrt)] at hp
      cases hp
    | waits hb hw hm' hd hf' =>
      cases hw with
      | sockets hs =>
        refine h.turn_idle hxy ?_ fun hr => by rwa [hman, hm'] at hr
        rintro ⟨f'', hf'', hs''⟩
        rw [hxflow, hd, hf'] at hf''
        obtain rfl := Option.some.inj hf''
        cases hs''
      | @conflicts waits m hc calls =>
        obtain ⟨hsighted, hlasts⟩ := h.sighted hf hlook hgives hb hc
        have hstopped (hy : (w.turn k x aux).Looked y) :
            (w.turn k x aux).manager.targetOf y = some .stopped := by
          rw [hman, hm']
          exact hsighted.stopped (looked_turn_of_ne hxy hy)
        refine ⟨hm, hk, ⟨fun _ _ hy => hstopped hy, fun _ _ hr => ?_⟩, .of_stopped hstopped, ?_⟩
        · rw [hman, hm'] at hr
          obtain ⟨wait, hmem, rfl, hdone⟩ := hsighted.awaits hr
          obtain ⟨hpu, hpd⟩ := pollConflict_done f.deadline hr hdone (hlasts wait hmem rfl hdone hr)
          refine ⟨t'.flow, _, _, by rw [hxflow, hd]; rfl, by rw [hf'],
            List.mem_map.mpr ⟨wait, hmem, rfl⟩, hpu, hpd⟩
        · rintro ⟨hx, hy⟩
          rw [hman, hm'] at hx
          exact h.apart ⟨running_of_cleared hc hx, UnitManager.running_of_turn hxy hrun hy⟩
      | pre hp =>
        obtain ⟨hstopped, hnone⟩ := h.passed hf hlook hgives hb hp
        have hstopped (hy : (w.turn k x aux).Looked y) :
            (w.turn k x aux).manager.targetOf y = some .stopped := by
          rw [hman, hm']
          exact hstopped (looked_turn_of_ne hxy hy)
        have hgone : ¬(w.turn k x aux).manager.isRunning y = true := by
          rw [hman, hm', hnone]
          simp
        exact ⟨hm, hk, ⟨fun _ _ hy => hstopped hy, fun _ _ hr => absurd hr hgone⟩,
          .of_stopped hstopped, fun hr => hgone hr.2⟩
    | @spawned hb m hp b hs hfo =>
      obtain ⟨hstopped, hnone⟩ := h.passed hf hlook hgives hb hp
      have hrest : Guarded (StartFlow.TurnOp k f.unit) m t'.manager :=
        (StartFlow.guarded_single (.inr (.inl rfl))).trans hfo.guarded
      have hgone : ¬(w.turn k x aux).manager.isRunning y = true := by
        intro hr
        rw [hman] at hr
        have hr := UnitManager.running_of_turn (hunit ▸ hxy) hrest hr
        rw [hnone] at hr
        cases hr
      have hx := late hfo.late
      refine ⟨hm, hk, ⟨fun h => absurd h hx, fun h => absurd h hx⟩, .of_stopped fun hy => ?_,
        fun hr => hgone hr.2⟩
      rw [hman]
      exact UnitManager.stopped_of_turn (hp.guarded.reachable h.reachable) hrest
        (hstopped (looked_turn_of_ne hxy hy))
    | later hb hs hfo =>
      refine h.turn_idle hxy (late hfo.late) fun hr => ?_
      rw [hman] at hr
      obtain ⟨calls, heq | heq⟩ := hfo.manager <;> rw [heq] at hr
      · exact hr
      · exact UnitManager.running_of_apply (k := k)
          (by simp : Op.capStartDeadline f.unit f.deadline ≠ .beginSpawnUnit x) hr

end Turn

/-! ## Runs -/

theorem Exclusive.begin_ (h : Exclusive a b w) (k : Kernel) (u : UnitName) :
    Exclusive a b (w.begin_ k u) := by
  have hb := begun_begin k w u
  have hman : ∀ v, (w.begin_ k u).manager.isRunning v = true → w.manager.isRunning v = true := by
    intro v hr
    rcases hb.manager with heq | heq <;> rw [heq] at hr
    · exact hr
    · exact UnitManager.running_of_apply (by simp) hr
  have hstop : ∀ v, w.manager.targetOf v = some .stopped →
      (w.begin_ k u).manager.targetOf v = some .stopped := by
    intro v ht
    rcases hb.manager with heq | heq <;> rw [heq]
    · exact ht
    · exact UnitManager.stopped_apply h.reachable trivial (by simp) (by simp) ht
  have hm : Reachable (w.begin_ k u).manager := by
    rcases hb.manager with heq | heq <;> rw [heq]
    · exact h.reachable
    · exact .step k _ h.reachable trivial
  refine h.of_kept hm (hb.keyed h.keyed) (fun v f _ hf hs => ?_) (fun v _ => hman v)
    fun v _ _ => hstop v
  rcases hb.made v f hf with hf | ⟨-, -, hstage⟩
  · exact hf
  · rcases hstage with ⟨paths, hstage⟩ | hstage <;> rw [hstage] at hs <;> cases hs

theorem Exclusive.foldl_begin (h : Exclusive a b w) (k : Kernel) (l : List UnitName) :
    Exclusive a b (l.foldl (World.begin_ k) w) := by
  induction l generalizing w with
  | nil => exact h
  | cons u l ih => exact ih (h.begin_ k u)

/-- A run of operations that spawn nothing and ask for no start. -/
theorem Exclusive.of_guarded {G : Kernel → UnitManager → Op → Prop} {m : UnitManager}
    {flows : Flows} (h : Exclusive a b w) (hrun : Guarded G w.manager m)
    (hG : ∀ k m op, G k m op → (∀ u, op ≠ .beginSpawnUnit u) ∧
      (∀ u source, op ≠ .requestStart u source) ∧ op ≠ .dueQueuedStarts)
    (hk : World.Keyed ⟨m, flows⟩)
    (hf : ∀ (u : UnitName) f, flows[u]? = some f → w.flows[u]? = some f) :
    Exclusive a b ⟨m, flows⟩ :=
  h.of_kept (hrun.reachable h.reachable) hk (fun u f _ hflow _ => hf u f hflow)
    (fun u _ => UnitManager.running_of_guarded hrun fun k m op hg => (hG k m op hg).1 u)
    fun u _ _ => UnitManager.stopped_of_guarded h.reachable hrun
      fun k m op hg => ⟨(hG k m op hg).2.1 u, (hG k m op hg).2.2⟩

theorem flows_of_erase {flows : Flows} {f : StartFlow} (h : (flows.erase u)[v]? = some f) :
    flows[v]? = some f := by
  rw [Std.ExtTreeMap.getElem?_erase] at h
  split at h
  · cases h
  · exact h

theorem Exclusive.op {o : Op} (h : Exclusive a b w) (hp : o.Promised) (ha : o.Alone)
    (hc : Act.Apart a b k w (.op o)) : Exclusive a b { w with manager := w.manager.apply k o } := by
  refine h.of_kept (.step k o h.reachable hp) h.keyed (fun _ _ _ hf _ => hf)
    (fun u _ => UnitManager.running_of_apply ?_) fun u hu hl ht => ?_
  · rintro rfl
    exact ha
  · have hdoomed : w.Doomed u := by
      obtain ⟨f, hf, hs⟩ := hl
      exact ⟨⟨f, hf, StartStage.isEarly_of_hasLooked hs⟩, ht⟩
    refine UnitManager.stopped_apply h.reachable hp ?_ ?_ ht
    · rintro source rfl
      exact hc hu hdoomed
    · rintro rfl hmem
      exact hc u hu hmem hdoomed

theorem Exclusive.run {act : Act} (h : Exclusive a b w) (hab : a ≠ b) (hf : act.Fits w)
    (hc : act.Apart a b k w) : Exclusive a b (act.run k w) := by
  cases act with
  | op o => exact h.op hf.1 hf.2 hc
  | begin_ u => exact h.begin_ k u
  | turn u aux =>
    by_cases ha : u = a
    · subst ha
      obtain ⟨hgives, hlook⟩ := hc b (.inl ⟨rfl, rfl⟩)
      exact h.turn (Ne.symm hab) hlook hgives
    · by_cases hb : u = b
      · subst hb
        obtain ⟨hgives, hlook⟩ := hc a (.inr ⟨rfl, rfl⟩)
        exact (h.symm.turn hab hlook hgives).symm
      · have hrun := guarded_turn (k := k) h.keyed u aux
        have hne (v : UnitName) (hv : v = a ∨ v = b) : v ≠ u := by
          rintro rfl
          exact hv.elim ha hb
        exact h.of_kept (hrun.reachable h.reachable) (h.keyed.turn u aux)
          (fun v f hv hflow _ => flows_turn_of_ne aux (hne v hv) ▸ hflow)
          (fun v hv => UnitManager.running_of_turn (hne v hv) hrun)
          fun v _ _ => UnitManager.stopped_of_turn h.reachable hrun
  | restarts =>
    refine Exclusive.foldl_begin ?_ k _
    refine h.of_guarded (G := fun _ _ op => op = .dueRestarts)
      (.single ⟨k, .dueRestarts, trivial, rfl, rfl⟩) ?_ h.keyed fun _ _ hf => hf
    rintro _ _ op rfl
    simp
  | stop u =>
    refine h.of_guarded (guarded_stopped k w.manager u) ?_ (h.keyed.erase _ u)
      fun _ _ => flows_of_erase
    rintro _ _ op (rfl | rfl) <;> simp
  | remove u =>
    refine h.of_guarded (guarded_removed k w.manager u) ?_ h.keyed fun _ _ hf => hf
    rintro _ _ op (rfl | rfl | ⟨_, rfl⟩ | rfl) <;> simp
  | drop u =>
    refine h.of_guarded (G := fun _ _ _ => False) .refl (fun _ _ _ h => h.elim) (h.keyed.erase _ u)
      fun _ _ => flows_of_erase

/-- The start of the unit is cancelled : a stop of it is on file, and its next turn drops it. -/
def Cancelled (w : World) (u : UnitName) : Prop :=
  w.manager.targetOf u = some .stopped ∧ ∀ k aux, (w.turn k u aux).flows[u]? = none

theorem cancelled_of_stopped (hk : w.Keyed) (ht : w.manager.targetOf u = some .stopped) :
    w.Cancelled u := by
  refine ⟨ht, fun k aux => ?_⟩
  cases hf : w.flows[u]? with
  | none => simp [turn, hf]
  | some f =>
    rw [flows_turn_self hf, if_pos]
    unfold StartFlow.advance
    dsimp only
    rw [if_pos (by rw [hk u f hf]; exact ht)]
    rfl

theorem cancelled_turn (hm : Reachable w.manager) (hk : w.Keyed) (hl : w.Looks k x aux)
    (hr : w.Reaches x y) : (w.turn k x aux).Cancelled y := by
  refine cancelled_of_stopped (hk.turn x aux) ?_
  obtain ⟨f, hf, hlooks⟩ := hl
  obtain ⟨rt, hrt, hmem⟩ := (Option.any_eq_true _ _).mp hr.1
  have hstopped := (UnitManager.stopConflicts_of_needsStop (k := k) hm.jobsSorted hrt
    (by simpa using hmem) hr.2).2
  have hrun := StartFlow.guarded_of_looks hlooks rfl
  have hunit : f.unit = x := hk x f hf
  dsimp only at hrun
  rw [hunit] at hrun
  rw [turn_eq hf]
  exact UnitManager.stopped_of_turn (.step k (.stopConflicts x) hm trivial) hrun hstopped

/-- At most one of the two units has a process, and a start of the other that has not come to
its spawn is cancelled when one looks at its conflicts. -/
structure KeptApart (a b : UnitName) (w : World) : Prop where
  running : ¬(w.manager.isRunning a = true ∧ w.manager.isRunning b = true)
  cancelled : ∀ x y, (x = a ∧ y = b ∨ x = b ∧ y = a) → ∀ k aux,
    (Act.turn x aux).Apart a b k w → w.Looks k x aux → w.Unspawned y →
      (w.turn k x aux).Cancelled y

/-- Two units exclude each other, in any run of acts that keep them apart. -/
theorem exclusive_of_apart (hab : a ≠ b) (hrun : ReflTransGen (Act.Step (Act.Apart a b)) {} w) :
    KeptApart a b w := by
  have h : Exclusive a b w := by
    induction hrun with
    | refl =>
      have hnone (u : UnitName) : ¬({} : World).Looked u := by
        rintro ⟨f, hf, -⟩
        simp at hf
      refine ⟨.new, fun u f hf => by simp at hf, .of_stopped fun h => absurd h (hnone a),
        .of_stopped fun h => absurd h (hnone b), fun hr => ?_⟩
      simp [UnitManager.isRunning, UnitManager.get] at hr
    | tail _ hstep ih =>
      obtain ⟨k, act, hfits, hapart, rfl⟩ := hstep
      exact ih.run hab hfits hapart
  refine ⟨h.apart, fun x y hxy k aux hapart hl hu => ?_⟩
  exact cancelled_turn h.reachable h.keyed hl ((hapart y hxy).2 hl (.inr hu))

/-! ## Concrete runs -/

/-- A turn of `x` while `y` has neither a process nor a start keeps the two apart. -/
theorem apart_of_idle (hab : a ≠ b) (hxy : x = a ∧ y = b ∨ x = b ∧ y = a)
    (hr : w.manager.isRunning y = false) (hf : w.flows.contains y = false) :
    Act.Apart a b k w (.turn x aux) := by
  intro y' hxy'
  have hy : y' = y := by
    rcases hxy with ⟨rfl, rfl⟩ | ⟨rfl, rfl⟩ <;> rcases hxy' with ⟨h, rfl⟩ | ⟨h, rfl⟩
    · rfl
    · exact absurd h hab
    · exact absurd h.symm hab
    · rfl
  subst hy
  refine ⟨fun hg => absurd hg.1 (by simp [hr]), fun _ hplay => ?_⟩
  rcases hplay with h | ⟨f, h, -⟩
  · simp [hr] at h
  · rw [Std.ExtTreeMap.contains_eq_isSome_getElem?, h] at hf
    cases hf

/-- Two services, the second of which names the first; the first is to be started. -/
def twoServices : World :=
  Act.run (.granting 0 10) (Act.run (.granting 0 10) (Act.run (.granting 0 10) {}
    (.op (.addWithInFlight (UnitConfig.new serviceA) false)))
    (.op (.addWithInFlight { UnitConfig.new serviceB with deps.conflicts := [serviceA] } false)))
    (.begin_ serviceA)

/-- The first is up, and the second is to be started. -/
def firstUp : World :=
  Act.run (.granting 2 10) (Act.run (.granting 1 10) twoServices (.turn serviceA ∅))
    (.begin_ serviceB)

/-- The second has stopped the first, whose process has exited. -/
def firstDown : World :=
  Act.run (.granting 4 11) (Act.run (.granting 3 11) firstUp (.turn serviceB ∅))
    (.op (.onChildExit 10 .success))

/-- The second is up. -/
def secondUp : World := Act.run (.granting 5 11) firstDown (.turn serviceB ∅)

/-- The second service takes the place of the first. -/
theorem exclusive_secondUp : firstUp.manager.isRunning serviceA = true ∧
    secondUp.manager.isRunning serviceB = true ∧ KeptApart serviceA serviceB secondUp := by
  refine ⟨by decide +kernel, by decide +kernel, exclusive_of_apart (by decide) ?_⟩
  have htwo : ReflTransGen (Act.Step (Act.Apart serviceA serviceB)) {} twoServices :=
    ((ReflTransGen.single ⟨.granting 0 10, .op (.addWithInFlight (UnitConfig.new serviceA) false),
      ⟨rfl, trivial⟩, trivial, rfl⟩).tail ⟨.granting 0 10, .op (.addWithInFlight
        { UnitConfig.new serviceB with deps.conflicts := [serviceA] } false), ⟨rfl, trivial⟩,
        trivial, rfl⟩).tail ⟨.granting 0 10, .begin_ serviceA, trivial, trivial, rfl⟩
  have hfirst : Act.Apart serviceA serviceB (.granting 1 10) twoServices (.turn serviceA ∅) :=
    apart_of_idle (by decide) (.inl ⟨rfl, rfl⟩) (by decide +kernel) (by decide +kernel)
  have hsecond : Act.Apart serviceA serviceB (.granting 3 11) firstUp (.turn serviceB ∅) := by
    rintro y (⟨h, -⟩ | ⟨-, rfl⟩)
    · exact absurd h (by decide)
    · have hstage : (firstUp.flows[serviceB]?).map (·.stage) = some (.conflicts none) := by
        decide +kernel
      have hreaches : (firstUp.manager.get serviceB).any
            (fun rt => rt.config.deps.conflicts.contains serviceA) = true ∧
          (firstUp.manager.get serviceA).any UnitManager.needsStop = true := by
        decide +kernel
      refine ⟨?_, fun _ _ => hreaches⟩
      rintro ⟨-, f, waits, wait, hf, hs, -⟩
      rw [hf, Option.map_some, hs] at hstage
      cases hstage
  have hthird : Act.Apart serviceA serviceB (.granting 5 11) firstDown (.turn serviceB ∅) :=
    apart_of_idle (by decide) (.inr ⟨rfl, rfl⟩) (by decide +kernel) (by decide +kernel)
  exact ((((htwo.tail ⟨.granting 1 10, .turn serviceA ∅, trivial, hfirst, rfl⟩).tail
    ⟨.granting 2 10, .begin_ serviceB, trivial, trivial, rfl⟩).tail
    ⟨.granting 3 11, .turn serviceB ∅, trivial, hsecond, rfl⟩).tail
    ⟨.granting 4 11, .op (.onChildExit 10 .success), ⟨trivial, trivial⟩, trivial, rfl⟩).tail
    ⟨.granting 5 11, .turn serviceB ∅, trivial, hthird, rfl⟩

/-- A directory with two services that name each other, the first of which has a command to run
before its start. -/
def rivals : List UnitFile :=
  [{ name := serviceA
     path := "/etc/rinit/a.service"
     contents :=
      "[Unit]\nConflicts=b.service\n[Service]\nExecStartPre=/bin/p\nExecStart=/bin/a\n" },
    { name := serviceB
      path := "/etc/rinit/b.service"
      contents := "[Unit]\nConflicts=a.service\n[Service]\nExecStart=/bin/b\n" },
    { name := ⟨"c.target", .target, by decide⟩
      path := "/etc/rinit/c.target"
      contents := "[Unit]\nDescription=c\n" }]

/-- The second service is started while the first runs its command, and then the first is
spawned : both are up, and nothing was ever stopped. -/
theorem not_keptApart_rivals : ∃ s, Supervisor.Reached s ∧
    (s.manager.get serviceA).any (fun rt => rt.config.deps.conflicts.contains serviceB) = true ∧
    (s.manager.get serviceB).any (fun rt => rt.config.deps.conflicts.contains serviceA) = true ∧
    s.manager.calls = [.command serviceA 21, .spawn serviceB 12, .spawn serviceA 13] ∧
    s.manager.isRunning serviceA = true ∧ s.manager.isRunning serviceB = true ∧
    ¬KeptApart serviceA serviceB s.world := by
  have h : ((BootPlan.planBoot rivals [] "c.target").toOption.map fun plan =>
      (Supervisor.init (.granting 0 10) plan none).steps
        [(1, 10, .boot), (2, 20, .control (.start serviceA)), (3, 20, .advance),
          (4, 12, .control (.start serviceB)), (5, 12, .advance), (6, 13, .reap [(21, .success)]),
          (7, 13, .advance)]).any
      (fun s =>
        (s.manager.get serviceA).any (fun rt => rt.config.deps.conflicts.contains serviceB) &&
        (s.manager.get serviceB).any (fun rt => rt.config.deps.conflicts.contains serviceA) &&
        s.manager.calls = [.command serviceA 21, .spawn serviceB 12, .spawn serviceA 13] &&
        s.manager.isRunning serviceA && s.manager.isRunning serviceB) = true := by
    decide +kernel
  obtain ⟨s, hs, hp⟩ := Supervisor.exists_reached _ _ h
  rw [Bool.and_eq_true, Bool.and_eq_true, Bool.and_eq_true, Bool.and_eq_true,
    decide_eq_true_eq] at hp
  obtain ⟨⟨⟨⟨hab, hba⟩, hcalls⟩, ha⟩, hb⟩ := hp
  exact ⟨s, hs, hab, hba, hcalls, ha, hb, fun h => h.running ⟨ha, hb⟩⟩

end World

end Rinit
