import Rinit.Exits

/-!
# A batch of exits

One wait reaps several children, and their exits are fed in one after another. Each exit does
to its unit what it does by itself, and an exit that fails the unit marks whatever requires
it and has no process (`get_onChildExit`). So a batch leaves every unit as its own exits leave
it, or marked (`shows_reapAll`); which units are marked is where the order of the batch shows.
-/

namespace Rinit

open Relation

/-- The pid belongs to a child of the unit. -/
def UnitRuntime.Tracks (rt : UnitRuntime) (pid : Pid) : Prop :=
  rt.pid = some pid ∨ rt.probePid = some pid ∨ rt.execStopPid = some pid

/-- The pid is the pid of one child : it has one unit and the main process has its own. -/
structure OneChild (m : UnitManager) (pid : Pid) : Prop where
  unit : ∀ u v rt rt', m.get u = some rt → m.get v = some rt' → rt.Tracks pid → rt'.Tracks pid →
    u = v
  main : ∀ u rt, m.get u = some rt → rt.pid = some pid →
    rt.probePid ≠ some pid ∧ rt.execStopPid ≠ some pid

namespace UnitManager

variable {k : Kernel} {m : UnitManager} {u v : UnitName} {rt rt' : UnitRuntime} {e : Exit}

/-! ## One exit -/

/-- Every unit after what an exit makes of it by itself. -/
def exited (k : Kernel) (m : UnitManager) (e : Exit) : UnitManager :=
  { m with units := m.units.map fun u rt => m.ownExit k u rt e }

theorem get_exited (k : Kernel) (m : UnitManager) (e : Exit) (v : UnitName) :
    (m.exited k e).get v = (m.get v).map fun rt => m.ownExit k v rt e := by
  simp [exited, get, Std.ExtTreeMap.getElem?_map]

theorem ownExit_of_not_tracks (h : ¬rt.Tracks e.1) : m.ownExit k u rt e = rt := by
  simp only [UnitRuntime.Tracks, not_or] at h
  rw [ownExit, if_neg h.2.1, if_neg h.2.2, if_neg h.1]

theorem get_exited_of_not_tracks (h : ∀ u rt, m.get u = some rt → ¬rt.Tracks e.1) (v : UnitName) :
    (m.exited k e).get v = m.get v := by
  rw [get_exited]
  cases hv : m.get v with
  | none => rfl
  | some rt => exact congrArg some (ownExit_of_not_tracks (h v rt hv))

/-- An exit concerns one unit. -/
theorem get_exited_of_tracks (h : OneChild m e.1) (hrt : m.get u = some rt) (ht : rt.Tracks e.1)
    (v : UnitName) :
    (m.exited k e).get v = if u = v then some (m.ownExit k u rt e) else m.get v := by
  rw [get_exited]
  split
  · next huv =>
    subst huv
    rw [hrt, Option.map_some]
  · next huv =>
    cases hv : m.get v with
    | none => rfl
    | some rt' =>
      refine congrArg some (ownExit_of_not_tracks fun ht' => huv ?_)
      exact h.unit u v rt rt' hrt hv ht ht'

/-- The exit fails the unit `r`, whose main process it was. -/
def FailsNow (k : Kernel) (m : UnitManager) (e : Exit) (r : UnitName) : Prop :=
  ∃ rt, m.get r = some rt ∧ rt.pid = some e.1 ∧ m.exitFails k r rt e = true

open Classical in
theorem get_onMainExit (h : OneChild m e.1) (hrt : m.get u = some rt) (hp : rt.pid = some e.1)
    (v : UnitName) : (m.onMainExit k u rt e.1 e.2).1.get v =
      if ∃ r, FailsNow k m e r ∧ Fails (m.exited k e).units r v then
        ((m.exited k e).get v).map UnitRuntime.dragDown
      else (m.exited k e).get v := by
  obtain ⟨hq, hs⟩ := h.main u rt hrt hp
  have hexited (v : UnitName) : (m.exited k e).get v =
      if u = v then some (m.mainExited k u rt e) else m.get v := by
    rw [get_exited_of_tracks h hrt (.inl hp), ownExit, if_neg hq, if_neg hs, if_pos hp]
  have hfails (r : UnitName) : FailsNow k m e r ↔ r = u ∧ m.exitFails k u rt e = true := by
    constructor
    · rintro ⟨rt', hrt', hp', hf⟩
      obtain rfl := h.unit r u rt' rt hrt' hrt (.inl hp') (.inl hp)
      obtain rfl := Option.some.inj (hrt.symm.trans hrt')
      exact ⟨rfl, hf⟩
    · rintro ⟨rfl, hf⟩
      exact ⟨rt, hrt, hp, hf⟩
  have kept (hn : m.exitFails k u rt e = false) (x : Traced UnitRuntime)
      (hx : x.val = m.mainExited k u rt e) : (m.put u x).get v =
        if ∃ r, FailsNow k m e r ∧ Fails (m.exited k e).units r v then
          ((m.exited k e).get v).map UnitRuntime.dragDown
        else (m.exited k e).get v := by
    rw [if_neg (by simp [hfails, hn]), hexited, get_put, hx]
  unfold onMainExit
  cases hd : m.forkedDaemon k u rt e.2 with
  | some daemon => exact kept (by simp [exitFails, hd]) _ (by simp [mainExited, hd])
  | none =>
    dsimp only
    split
    · next hf =>
      let m' := (m.put u ⟨(rt.mainExit k m.bootInProgress e.1 e.2).val.1,
        (rt.mainExit k m.bootInProgress e.1 e.2).calls⟩).update u (·.failOwn k m.cgroup u)
      have hget (v : UnitName) : m'.get v = (m.exited k e).get v := by
        rw [hexited, get_update, get_put, get_put, if_pos rfl]
        split
        · simp [mainExited, hd, hf]
        · rfl
      have hunits : m'.units = (m.exited k e).units := Std.ExtTreeMap.ext_getElem? hget
      have hroot (rt' : UnitRuntime) (hrt' : m'.get u = some rt') : rt'.state.isFailed = true := by
        rw [hget, hexited, if_pos rfl] at hrt'
        obtain rfl := Option.some.inj hrt'
        simp [mainExited, hd, hf, failOwn_isFailed]
      have hcascade := get_cascade m' u v hroot
      rw [hunits, hget] at hcascade
      refine hcascade.trans (if_congr ?_ rfl rfl)
      simp [hfails, exitFails, hd, hf]
    · next hf =>
      exact kept (by simp [exitFails, hd, Bool.not_eq_true _ ▸ hf]) _ (by simp [mainExited, hd, hf])

open Classical in
/-- What one exit does to every unit. -/
theorem get_onChildExit (h : OneChild m e.1) (v : UnitName) :
    (m.onChildExit k e.1 e.2).1.get v =
      if ∃ r, FailsNow k m e r ∧ Fails (m.exited k e).units r v then
        ((m.exited k e).get v).map UnitRuntime.dragDown
      else (m.exited k e).get v := by
  unfold onChildExit
  split
  · next u hu =>
    obtain ⟨rt, hrt, hq⟩ := owner_eq_some hu
    have hq : rt.probePid = some e.1 := by simpa using hq
    rw [if_neg, get_exited_of_tracks h hrt (.inr (.inl hq)), get_update, hrt, ownExit, if_pos hq]
    · rfl
    · rintro ⟨r, ⟨rt', hrt', hp, -⟩, -⟩
      obtain rfl := h.unit u r rt rt' hrt hrt' (.inr (.inl hq)) (.inl hp)
      obtain rfl := Option.some.inj (hrt.symm.trans hrt')
      exact (h.main u rt hrt hp).1 hq
  · next hprobe =>
    split
    · next u hu =>
      obtain ⟨rt, hrt, hs⟩ := owner_eq_some hu
      have hs : rt.execStopPid = some e.1 := by simpa using hs
      have hq : rt.probePid ≠ some e.1 := by simpa using owner_eq_none hprobe hrt
      rw [if_neg, get_exited_of_tracks h hrt (.inr (.inr hs)), get_update, hrt, ownExit, if_neg hq,
        if_pos hs, Option.map_some, UnitRuntime.execStopExit_val]
      rintro ⟨r, ⟨rt', hrt', hp, -⟩, -⟩
      obtain rfl := h.unit u r rt rt' hrt hrt' (.inr (.inr hs)) (.inl hp)
      obtain rfl := Option.some.inj (hrt.symm.trans hrt')
      exact (h.main u rt hrt hp).2 hs
    · next hstop =>
      split
      · next hmain =>
        rw [if_neg, get_exited_of_not_tracks]
        · intro u rt hrt ht
          have hq := owner_eq_none hprobe hrt
          have hs := owner_eq_none hstop hrt
          have hp := owner_eq_none hmain hrt
          rcases ht with ht | ht | ht
          · simp [ht] at hp
          · simp [ht] at hq
          · simp [ht] at hs
        · rintro ⟨r, ⟨rt', hrt', hp, -⟩, -⟩
          have := owner_eq_none hmain hrt'
          simp [hp] at this
      · next u hu =>
        obtain ⟨rt, hrt, hp⟩ := owner_eq_some hu
        have hp : rt.pid = some e.1 := by simpa using hp
        rw [hrt]
        exact get_onMainExit h hrt hp v

theorem keeps_onChildExit (k : Kernel) (m : UnitManager) (pid : Pid) (outcome : ExitOutcome) :
    Keeps m (m.onChildExit k pid outcome).1 := by
  have fails (m' : UnitManager) (u : UnitName) : Keeps m' (m'.failStart k u).1 := by
    have h := keeps_update m' u (·.failOwn k m'.cgroup u)
    exact ⟨h.cgroup, h.templates, h.bootInProgress, h.graphCache, h.graphRevision⟩
  have puts (u : UnitName) (x : Traced UnitRuntime) : Keeps m (m.put u x) := ⟨rfl, rfl, rfl, rfl, rfl⟩
  unfold onChildExit
  split
  · exact keeps_update m _ _
  · split
    · exact keeps_update m _ _
    · split
      · exact .refl m
      · split
        · exact .refl m
        · unfold onMainExit
          split
          · exact puts _ _
          · dsimp only
            split
            · exact (puts _ _).trans (fails _ _)
            · exact puts _ _

/-! ## The whole batch -/

/-- Feed the exits in, one after another. -/
def reapAll (k : Kernel) (m : UnitManager) (l : List Exit) : UnitManager :=
  l.foldl (fun m e => (m.onChildExit k e.1 e.2).1) m

/-- Every unit after what the exits make of it by itself. -/
def owned (k : Kernel) (m : UnitManager) (l : List Exit) : UnitManager :=
  { m with units := m.units.map fun u rt => m.own k u rt l }

theorem get_owned (k : Kernel) (m : UnitManager) (l : List Exit) (v : UnitName) :
    (m.owned k l).get v = (m.get v).map fun rt => m.own k v rt l := by
  simp [owned, get, Std.ExtTreeMap.getElem?_map]

theorem own_append (k : Kernel) (m : UnitManager) (u : UnitName) (rt : UnitRuntime) (l : List Exit)
    (e : Exit) : m.own k u rt (l ++ [e]) = m.ownExit k u (m.own k u rt l) e := by
  simp [own, List.foldl_append]

/-- The unit is marked by a failure in the batch : when an exit failed a unit, it required
that unit through units without a process. -/
def Marked (k : Kernel) (m : UnitManager) (l : List Exit) (v : UnitName) : Prop :=
  ∃ done e rest r, l = done ++ e :: rest ∧ FailsNow k (m.owned k done) e r ∧
    Fails (m.owned k (done ++ [e])).units r v

theorem marked_append {l : List Exit} : Marked k m (l ++ [e]) v ↔ Marked k m l v ∨
    ∃ r, FailsNow k (m.owned k l) e r ∧ Fails (m.owned k (l ++ [e])).units r v := by
  constructor
  · rintro ⟨done, e', rest, r, hl, hr, hv⟩
    rcases List.eq_nil_or_concat rest with rfl | ⟨rest', y, rfl⟩
    · obtain ⟨rfl, h2⟩ := List.append_inj' hl rfl
      obtain rfl := List.singleton_inj.mp h2
      exact .inr ⟨r, hr, hv⟩
    · have hl' : l ++ [e] = (done ++ e' :: rest') ++ [y] := by simpa using hl
      exact .inl ⟨done, e', rest', r, (List.append_inj' hl' rfl).1, hr, hv⟩
  · rintro (⟨done, e', rest, r, rfl, hr, hv⟩ | ⟨r, hr, hv⟩)
    · exact ⟨done, e', rest ++ [e], r, by simp, hr, hv⟩
    · exact ⟨l, e, [], r, rfl, hr, hv⟩

/-- A unit without a process does not get one from an exit. -/
theorem own_pid_none (h : rt.pid = none) (l : List Exit) : (m.own k u rt l).pid = none := by
  have hcore := ((quiet_of_pid (b := l) h).own (k := k) (m := m) (u := u) fun _ he => he).2
  exact (UnitRuntime.pid_of_core hcore).trans h

theorem Marked.pid {l : List Exit} (h : Marked k m l v) :
    ∃ rt, m.get v = some rt ∧ (m.own k v rt l).pid = none := by
  obtain ⟨done, e, rest, r, rfl, -, hv⟩ := h
  obtain ⟨rt', hrt', hp⟩ := hv.exists_rt
  rw [← get, get_owned] at hrt'
  obtain ⟨rt, hrt, rfl⟩ := Option.map_eq_some_iff.mp hrt'
  refine ⟨rt, hrt, ?_⟩
  have hsplit : m.own k v rt (done ++ e :: rest) = m.own k v (m.own k v rt (done ++ [e])) rest := by
    simp [own, List.foldl_append]
  rw [hsplit]
  exact own_pid_none hp rest

/-- An exit does the same to a marked unit as to one that is not. -/
theorem ownExit_dragDown (h : rt.pid = none) (e : Exit) :
    m.ownExit k u rt.dragDown e = (m.ownExit k u rt e).dragDown := by
  unfold UnitRuntime.dragDown
  have hstate : (m.ownExit k u rt e).state = rt.state :=
    UnitRuntime.state_of_core ((quiet_of_pid (b := [e]) h).ownExit (by simp)).2
  rw [hstate]
  split
  · rfl
  · unfold ownExit
    dsimp only
    split
    · unfold UnitRuntime.finishProbe
      dsimp only
      rw [h]
      split
      · rfl
      · split
        · next hp => cases hp
        · rfl
    · split
      · rfl
      · simp [h]

theorem mainExited_children (k : Kernel) (m : UnitManager) (u : UnitName) (rt : UnitRuntime)
    (e : Exit) : ((m.mainExited k u rt e).probePid = none ∨
      (m.mainExited k u rt e).probePid = rt.probePid) ∧
      (m.mainExited k u rt e).execStopPid = rt.execStopPid := by
  unfold mainExited
  split
  · exact ⟨.inr rfl, rfl⟩
  · have h := rt.settled_mainExit k m.bootInProgress e.1 e.2
    dsimp only
    split
    · next hf =>
      rw [failOwn_of_failed k m.cgroup u (mainExit_of_fails hf).1]
      generalize (rt.mainExit k m.bootInProgress e.1 e.2).val = r at h
      cases h <;> exact ⟨.inl rfl, rfl⟩
    · generalize (rt.mainExit k m.bootInProgress e.1 e.2).val = r at h
      cases h <;> exact ⟨.inl rfl, rfl⟩

/-- An exit gives no unit a child that was reaped. -/
theorem ownExit_children {pid : Pid} (hg : k.Gone pid) (m : UnitManager) (u : UnitName)
    (rt : UnitRuntime) (e : Exit) :
    ((m.ownExit k u rt e).pid = some pid → rt.pid = some pid) ∧
    ((m.ownExit k u rt e).probePid = some pid → rt.probePid = some pid) ∧
    ((m.ownExit k u rt e).execStopPid = some pid → rt.execStopPid = some pid) := by
  have hown := m.ownExit_cases k u rt e
  generalize m.ownExit k u rt e = rt' at hown
  cases hown with
  | probe =>
    obtain ⟨hq, hs, hp⟩ := rt.finishProbe_children k m.cgroup u e.2
    refine ⟨fun h => ?_, fun h => (by cases hq.symm.trans h), fun h => hs ▸ h⟩
    rcases hp with hp | hp
    · exact hp ▸ h
    · cases hp.symm.trans h
  | stop => exact ⟨id, id, fun h => (by cases h)⟩
  | main =>
    obtain ⟨hq, hs⟩ := m.mainExited_children k u rt e
    refine ⟨fun h => ?_, fun h => ?_, fun h => hs ▸ h⟩
    · rcases m.mainExited_pid k u rt e with hp | ⟨daemon, hd, hp, -⟩
      · cases hp.symm.trans h
      · obtain rfl := Option.some.inj (hp.symm.trans h)
        exact absurd hg (forkedDaemon_eq_some hd).2
    · rcases hq with hq | hq
      · cases hq.symm.trans h
      · exact hq ▸ h
  | other => exact ⟨id, id, id⟩

theorem own_children {pid : Pid} (hg : k.Gone pid) (m : UnitManager) (u : UnitName)
    (rt : UnitRuntime) (l : List Exit) :
    ((m.own k u rt l).pid = some pid → rt.pid = some pid) ∧
    ((m.own k u rt l).probePid = some pid → rt.probePid = some pid) ∧
    ((m.own k u rt l).execStopPid = some pid → rt.execStopPid = some pid) := by
  induction l generalizing rt with
  | nil => exact ⟨id, id, id⟩
  | cons e l ih =>
    obtain ⟨h1, h2, h3⟩ := ih (m.ownExit k u rt e)
    obtain ⟨h1', h2', h3'⟩ := m.ownExit_children hg u rt e
    exact ⟨h1' ∘ h1, h2' ∘ h2, h3' ∘ h3⟩

theorem mainExited_config (k : Kernel) (m : UnitManager) (u : UnitName) (rt : UnitRuntime)
    (e : Exit) : (m.mainExited k u rt e).config = rt.config := by
  unfold mainExited
  split
  · rfl
  · dsimp only
    split
    · rw [failOwn_config, mainExit_config]
    · exact mainExit_config _ _ _ _

theorem ownExit_config (k : Kernel) (m : UnitManager) (u : UnitName) (rt : UnitRuntime) (e : Exit) :
    (m.ownExit k u rt e).config = rt.config := by
  have hown := m.ownExit_cases k u rt e
  generalize m.ownExit k u rt e = rt' at hown
  cases hown with
  | probe =>
    have h := UnitRuntime.probed_finishProbe k m.cgroup u rt e.2
    generalize (rt.finishProbe k m.cgroup u e.2).val = rt' at h
    cases h <;> rfl
  | stop | other => rfl
  | main => exact mainExited_config k m u rt e

theorem own_config (k : Kernel) (m : UnitManager) (u : UnitName) (rt : UnitRuntime) (l : List Exit) :
    (m.own k u rt l).config = rt.config := by
  induction l generalizing rt with
  | nil => rfl
  | cons e l ih => exact (ih (m.ownExit k u rt e)).trans (ownExit_config k m u rt e)

end UnitManager

/-- More units without a process are dragged further. -/
theorem Fails.mono {units units' : Units} {r d : UnitName} (h : Fails units r d)
    (hconfig : ∀ x : UnitName,
      (units'[x]?).map UnitRuntime.config = (units[x]?).map UnitRuntime.config)
    (hpid : ∀ (x : UnitName) (rt : UnitRuntime), units[x]? = some rt → rt.pid = none →
      ∃ rt', units'[x]? = some rt' ∧ rt'.pid = none) : Fails units' r d := by
  refine TransGen.mono (fun a d hd => ?_) r d h
  obtain ⟨hdep, rt, hrt, hp⟩ := hd
  exact ⟨(UnitManager.mem_requiresDependents_congr hconfig).mpr hdep, hpid d rt hrt hp⟩

/-- The children one wait reaped : each pid once, none of them there any more, each of them
one child of one unit at most. -/
structure Reaped (k : Kernel) (m : UnitManager) (batch : List Exit) : Prop where
  nodup : (batch.map Prod.fst).Nodup
  gone : ∀ e ∈ batch, k.Gone e.1
  one : ∀ e ∈ batch, OneChild m e.1

namespace UnitManager

variable {k : Kernel} {m : UnitManager} {u v : UnitName} {rt rt' : UnitRuntime} {e : Exit}
  {batch l : List Exit}

/-- What an exit makes of a unit reads nothing of the manager that a batch changes. -/
theorem Keeps.ownExit {m' : UnitManager} (h : Keeps m m') (u : UnitName) (rt : UnitRuntime)
    (e : Exit) : m'.ownExit k u rt e = m.ownExit k u rt e ∧
      m'.exitFails k u rt e = m.exitFails k u rt e := by
  have hd : m'.forkedDaemon k u rt e.2 = m.forkedDaemon k u rt e.2 := by
    unfold forkedDaemon
    rw [h.cgroup]
  have hmain : m'.mainExited k u rt e = m.mainExited k u rt e := by
    unfold mainExited
    rw [hd, h.cgroup, h.bootInProgress]
  constructor
  · unfold UnitManager.ownExit
    rw [hmain, h.cgroup]
  · unfold exitFails
    rw [hd, h.bootInProgress]

open Classical in
/-- Every unit of `m'` is as the exits of `l` left it, or marked, and what is marked has no
process. -/
structure Shows (k : Kernel) (m : UnitManager) (l : List Exit) (mark : UnitName → Prop)
    (m' : UnitManager) : Prop where
  keeps : Keeps m m'
  get : ∀ x, m'.get x =
    (m.get x).map fun rt => if mark x then (m.own k x rt l).dragDown else m.own k x rt l
  pid : ∀ x rt, mark x → m.get x = some rt → (m.own k x rt l).pid = none

namespace Shows

variable {m' : UnitManager} {mark : UnitName → Prop}

/-- A mark changes neither the children nor the definition. -/
theorem exists_own (h : Shows k m l mark m') (hrt' : m'.get u = some rt') :
    ∃ rt, m.get u = some rt ∧ (rt' = m.own k u rt l ∨
      (m.own k u rt l).pid = none ∧ rt' = (m.own k u rt l).dragDown) := by
  rw [h.get] at hrt'
  obtain ⟨rt, hrt, rfl⟩ := Option.map_eq_some_iff.mp hrt'
  refine ⟨rt, hrt, ?_⟩
  split
  · next hmark => exact .inr ⟨h.pid u rt hmark hrt, rfl⟩
  · exact .inl rfl

theorem children (h : Shows k m l mark m') {pid : Pid} (hg : k.Gone pid)
    (hrt' : m'.get u = some rt') :
    ∃ rt, m.get u = some rt ∧ (rt'.pid = some pid → rt.pid = some pid) ∧
      (rt'.probePid = some pid → rt.probePid = some pid) ∧
      (rt'.execStopPid = some pid → rt.execStopPid = some pid) := by
  obtain ⟨rt, hrt, rfl | ⟨-, rfl⟩⟩ := h.exists_own hrt'
  · exact ⟨rt, hrt, m.own_children hg u rt l⟩
  · have hsame : (m.own k u rt l).dragDown.pid = (m.own k u rt l).pid ∧
        (m.own k u rt l).dragDown.probePid = (m.own k u rt l).probePid ∧
        (m.own k u rt l).dragDown.execStopPid = (m.own k u rt l).execStopPid := by
      unfold UnitRuntime.dragDown
      split <;> exact ⟨rfl, rfl, rfl⟩
    rw [hsame.1, hsame.2.1, hsame.2.2]
    exact ⟨rt, hrt, m.own_children hg u rt l⟩

theorem oneChild (h : Shows k m l mark m') {pid : Pid} (hg : k.Gone pid) (hone : OneChild m pid) :
    OneChild m' pid := by
  have tracks (u : UnitName) (rt' : UnitRuntime) (hrt' : m'.get u = some rt') (ht : rt'.Tracks pid) :
      ∃ rt, m.get u = some rt ∧ rt.Tracks pid := by
    obtain ⟨rt, hrt, h1, h2, h3⟩ := h.children hg hrt'
    exact ⟨rt, hrt, ht.imp h1 (Or.imp h2 h3)⟩
  refine ⟨fun u v rt rt' hu hv htu htv => ?_, fun u rt' hrt' hp => ?_⟩
  · obtain ⟨rt₁, h₁, ht₁⟩ := tracks u rt hu htu
    obtain ⟨rt₂, h₂, ht₂⟩ := tracks v rt' hv htv
    exact hone.unit u v rt₁ rt₂ h₁ h₂ ht₁ ht₂
  · obtain ⟨rt, hrt, h1, h2, h3⟩ := h.children hg hrt'
    obtain ⟨hq, hs⟩ := hone.main u rt hrt (h1 hp)
    exact ⟨fun h => hq (h2 h), fun h => hs (h3 h)⟩

theorem failsNow_iff (h : Shows k m l mark m') (r : UnitName) :
    FailsNow k m' e r ↔ FailsNow k (m.owned k l) e r := by
  constructor
  · rintro ⟨rt', hrt', hp, hf⟩
    obtain ⟨rt, hrt, rfl | ⟨hnone, rfl⟩⟩ := h.exists_own hrt'
    · refine ⟨m.own k r rt l, by rw [get_owned, hrt]; rfl, hp, ?_⟩
      exact ((h.keeps.ownExit r _ e).2).symm.trans hf
    · rw [dragDown_pid, hnone] at hp
      cases hp
  · rintro ⟨rt', hrt', hp, hf⟩
    rw [get_owned] at hrt'
    obtain ⟨rt, hrt, rfl⟩ := Option.map_eq_some_iff.mp hrt'
    have hmark : ¬mark r := fun hmark => by
      rw [h.pid r rt hmark hrt] at hp
      cases hp
    refine ⟨m.own k r rt l, by rw [h.get, hrt, Option.map_some, if_neg hmark], hp, ?_⟩
    exact ((h.keeps.ownExit r _ e).2).trans hf

open Classical in
theorem get_exited (h : Shows k m l mark m') (e : Exit) (x : UnitName) : (m'.exited k e).get x =
    (m.get x).map fun rt =>
      if mark x then (m.own k x rt (l ++ [e])).dragDown else m.own k x rt (l ++ [e]) := by
  rw [UnitManager.get_exited, h.get, Option.map_map]
  cases hx : m.get x with
  | none => rfl
  | some rt =>
    refine congrArg some ?_
    dsimp only [Function.comp]
    rw [(h.keeps.ownExit x _ e).1]
    split
    · next hmark => rw [ownExit_dragDown (h.pid x rt hmark hx), own_append]
    · rw [own_append]

theorem fails_iff (h : Shows k m l mark m') (e : Exit) (r d : UnitName) :
    Fails (m'.exited k e).units r d ↔ Fails (m.owned k (l ++ [e])).units r d := by
  have hexited := h.get_exited e
  have hconfig (x : UnitName) : ((m'.exited k e).units[x]?).map UnitRuntime.config =
      ((m.owned k (l ++ [e])).units[x]?).map UnitRuntime.config := by
    rw [← UnitManager.get, ← UnitManager.get, hexited, get_owned]
    cases m.get x with
    | none => rfl
    | some rt =>
      refine congrArg some ?_
      dsimp only
      split
      · exact dragDown_config _
      · rfl
  constructor
  · refine fun hd => hd.mono (fun x => (hconfig x).symm) fun x rt' hrt' hp => ?_
    rw [← UnitManager.get, hexited] at hrt'
    obtain ⟨rt, hrt, rfl⟩ := Option.map_eq_some_iff.mp hrt'
    refine ⟨m.own k x rt (l ++ [e]), by rw [← UnitManager.get, get_owned, hrt]; rfl, ?_⟩
    split at hp
    · rwa [dragDown_pid] at hp
    · exact hp
  · refine fun hd => hd.mono hconfig fun x rt' hrt' hp => ?_
    rw [← UnitManager.get, get_owned] at hrt'
    obtain ⟨rt, hrt, rfl⟩ := Option.map_eq_some_iff.mp hrt'
    refine ⟨_, by rw [← UnitManager.get, hexited, hrt]; rfl, ?_⟩
    split
    · rwa [dragDown_pid]
    · exact hp

end Shows

/-- What one more exit does to a batch. -/
theorem Shows.step {m' : UnitManager} (h : Shows k m l (Marked k m l) m') (hg : k.Gone e.1)
    (hone : OneChild m e.1) :
    Shows k m (l ++ [e]) (Marked k m (l ++ [e])) (m'.onChildExit k e.1 e.2).1 := by
  refine ⟨h.keeps.trans (keeps_onChildExit k m' e.1 e.2), fun x => ?_, fun x rt hmark hrt => ?_⟩
  · rw [get_onChildExit (h.oneChild hg hone), h.get_exited]
    have hmarked : Marked k m (l ++ [e]) x ↔ Marked k m l x ∨
        ∃ r, FailsNow k m' e r ∧ Fails (m'.exited k e).units r x := by
      rw [marked_append]
      simp only [h.failsNow_iff, h.fails_iff]
    by_cases hnew : ∃ r, FailsNow k m' e r ∧ Fails (m'.exited k e).units r x
    · rw [if_pos hnew, Option.map_map]
      refine congrFun (congrArg Option.map (funext fun rt => ?_)) (m.get x)
      rw [if_pos (hmarked.mpr (.inr hnew)), Function.comp]
      split
      · exact dragDown_of_isFailed (dragDown_isFailed _)
      · rfl
    · rw [if_neg hnew]
      refine congrFun (congrArg Option.map (funext fun rt => ?_)) (m.get x)
      by_cases hold : Marked k m l x
      · rw [if_pos hold, if_pos (hmarked.mpr (.inl hold))]
      · rw [if_neg hold, if_neg fun hm => (hmarked.mp hm).elim hold hnew]
  · obtain ⟨rt', hrt', hp⟩ := hmark.pid
    obtain rfl := Option.some.inj (hrt.symm.trans hrt')
    exact hp

/-- A batch leaves a unit as its own exits do, or marked. -/
theorem shows_reapAll (hb : Reaped k m batch) (hl : ∀ e ∈ l, e ∈ batch) :
    Shows k m l (Marked k m l) (m.reapAll k l) := by
  induction l using List.reverseRecOn with
  | nil =>
    have hnot (x : UnitName) : ¬Marked k m [] x := by
      rintro ⟨done, e, rest, r, h, -⟩
      simp at h
    exact ⟨.refl m, fun x => by simp [hnot, reapAll, own], fun x _ h => absurd h (hnot x)⟩
  | append_singleton l e ih =>
    have ih := ih fun e' he' => hl e' (List.mem_append_left _ he')
    have he : e ∈ batch := hl e (by simp)
    have hstep : m.reapAll k (l ++ [e]) = ((m.reapAll k l).onChildExit k e.1 e.2).1 := by
      simp [reapAll, List.foldl_append]
    rw [hstep]
    exact ih.step (hb.gone e he) (hb.one e he)

end UnitManager

end Rinit
