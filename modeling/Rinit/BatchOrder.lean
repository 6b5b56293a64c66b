import Rinit.Batch

/-!
# The order of a batch

The kernel lists the children of one wait in no particular order, so what becomes of a unit
should not depend on it. `orderIndependent_iff` says exactly when it does not. Two things can
go wrong. A failed probe that is to restart its unit finds the process gone and clears it, so
the exit that comes after it is nobody's (`not_orderIndependent_probe`). And a failure drags
down the units without a process, so it matters whether the exit of a unit that requires the
failing one came before.
-/

namespace Rinit

open Relation

namespace UnitManager

variable {k : Kernel} {m : UnitManager} {u v : UnitName} {rt rt' : UnitRuntime} {e : Exit}
  {batch l : List Exit}

/-! ## What is dictated -/

/-- What the exits of a batch make of a unit by itself, the main process first. -/
def decided (k : Kernel) (m : UnitManager) (batch : List Exit) (u : UnitName) (rt : UnitRuntime) :
    UnitRuntime :=
  match batch.find? fun e => rt.pid = some e.1 with
  | some e => m.mainExited k u rt e
  | none =>
    match batch.find? fun e => rt.probePid = some e.1 with
    | some e => (rt.finishProbe k m.cgroup u e.2).val
    | none => rt

/-- Every unit as the batch decides about it by itself. -/
def decidedAll (k : Kernel) (m : UnitManager) (batch : List Exit) : UnitManager :=
  { m with units := m.units.map fun u rt => m.decided k batch u rt }

theorem get_decidedAll (k : Kernel) (m : UnitManager) (batch : List Exit) (v : UnitName) :
    (m.decidedAll k batch).get v = (m.get v).map fun rt => m.decided k batch v rt := by
  simp [decidedAll, get, Std.ExtTreeMap.getElem?_map]

/-- A unit whose process exits in the batch and whose failed probe is to restart it had exited
with success, and its policy does not restart it for that. -/
def ProbesAgree (m : UnitManager) (batch : List Exit) : Prop :=
  ∀ u rt e e', m.get u = some rt → e ∈ batch → e' ∈ batch → rt.pid = some e.1 →
    rt.probePid = some e'.1 → e'.2 ≠ .success → rt.config.healthRestartOnFailure = true →
    e.2 = .success ∧ rt.policy.wantsRestart e.2 = false

/-- An exit of the batch fails the unit. -/
def FailsIn (k : Kernel) (m : UnitManager) (batch : List Exit) (r : UnitName) : Prop :=
  ∃ e ∈ batch, FailsNow k m e r

/-- Whatever the failures of the batch drag down once every exit is in, they drag down before
any exit is, or it has failed on its own. -/
def DragsAgree (k : Kernel) (m : UnitManager) (batch : List Exit) : Prop :=
  ∀ r u rt, FailsIn k m batch r → Fails (m.decidedAll k batch).units r u → m.get u = some rt →
    (∃ r', FailsIn k m batch r' ∧ Fails m.units r' u) ∨
      (m.decided k batch u rt).state.isFailed = true

/-- Every order of the batch leaves each unit in the same state, with the same restart timer,
and a unit whose process exited as its policy and its state before the batch dictate. -/
def OrderIndependent (k : Kernel) (m : UnitManager) (batch : List Exit) : Prop :=
  ∀ l, l.Perm batch → ∀ u rt, m.get u = some rt →
    ((m.reapAll k l).get u).map UnitRuntime.supervision =
      ((m.reapAll k batch).get u).map UnitRuntime.supervision ∧
    ∀ e ∈ batch, rt.pid = some e.1 →
      ((m.reapAll k l).get u).map UnitRuntime.supervision =
        some (m.mainExited k u rt e).supervision

/-! ## Which exits decide -/

/-- An exit that decides about a unit is the exit of its main process, or a failed probe that is
to restart it. -/
theorem decides_cases (h : (m.ownExit k u rt e).core ≠ rt.core) :
    (rt.pid = some e.1 ∧ m.ownExit k u rt e = m.mainExited k u rt e) ∨
    (rt.probePid = some e.1 ∧ e.2 ≠ .success ∧ rt.config.healthRestartOnFailure = true ∧
      rt.pid.isSome = true ∧ m.ownExit k u rt e = (rt.finishProbe k m.cgroup u e.2).val) := by
  have hown := m.ownExit_cases k u rt e
  generalize m.ownExit k u rt e = rt' at hown h
  cases hown with
  | probe hq =>
    by_cases hinert : e.2 = .success ∨ rt.config.healthRestartOnFailure = false ∨ rt.pid = none
    · exact absurd (rt.finishProbe_inert k m.cgroup u hinert) h
    · simp only [not_or, Bool.not_eq_false, ← ne_eq, Option.ne_none_iff_isSome] at hinert
      exact .inr ⟨hq, hinert.1, hinert.2.1, hinert.2.2, rfl⟩
  | stop | other => exact absurd rfl h
  | main _ _ hp => exact .inl ⟨hp, rfl⟩

/-- The exits of a list decide nothing about a unit, or the first that does decides. -/
theorem core_own_cases (hg : ∀ e ∈ batch, k.Gone e.1) (hp : Probing rt)
    (hl : ∀ e ∈ l, e ∈ batch) (hn : (l.map Prod.fst).Nodup) :
    ((∀ e ∈ l, (m.ownExit k u rt e).core = rt.core) ∧ (m.own k u rt l).core = rt.core) ∨
    ∃ e ∈ l, (m.ownExit k u rt e).core ≠ rt.core ∧
      (m.own k u rt l).core = (m.ownExit k u rt e).core ∧ Quiet batch (m.own k u rt l) := by
  cases hfind : l.find? fun e => decide ((m.ownExit k u rt e).core ≠ rt.core) with
  | none =>
    have hinert : ∀ e ∈ l, (m.ownExit k u rt e).core = rt.core := by
      simpa using List.find?_eq_none.mp hfind
    have hwaits : Waits rt [] (m.own k u rt l) :=
      Waits.own (l := l) (r := []) ⟨rfl, fun _ _ => Iff.rfl, fun _ _ => Iff.rfl, hp⟩
        (by simpa using hn) (fun e he => hg e (hl e he)) hinert
    exact .inl ⟨hinert, hwaits.core⟩
  | some e =>
    obtain ⟨hdecides, done, rest, rfl, hinert⟩ := List.find?_eq_some_iff_append.mp hfind
    obtain ⟨hquiet, hcore⟩ := core_own_of_decides hg hp hl hn (by simpa using hinert)
      (by simpa using hdecides)
    exact .inr ⟨e, by simp, by simpa using hdecides, hcore, hquiet⟩

/-! ## A probe and the process it probed -/

theorem forkedDaemon_of_active (h : rt.state = .active) (outcome : ExitOutcome) :
    m.forkedDaemon k u rt outcome = none := by
  simp [forkedDaemon, forks, h]

/-- A process that exits with success and is not restarted leaves its unit inactive. -/
theorem mainExited_of_clean (hs : rt.state = .active) (ho : e.2 = .success)
    (hw : rt.policy.wantsRestart e.2 = false) :
    (m.mainExited k u rt e).supervision = (.inactive, rt.restartAt) ∧
      (m.mainExited k u rt e).pid = none ∧ m.exitFails k u rt e = false := by
  have hsettle : (rt.mainExit k m.bootInProgress e.1 e.2).val =
      ({ rt.reaped e.2 with state := .inactive }, .exited .inactive false) := by
    have hw' : rt.config.restart.wantsRestart .success = false := by
      rw [← ho]
      exact hw
    rw [UnitRuntime.mainExit_val]
    simp [UnitRuntime.settleExit, UnitRuntime.reaped, hs, UnitRuntime.exitEvent, transition,
      transitionTable, UnitRuntime.policy, hw', ho, UnitState.isFailed]
  have hd := forkedDaemon_of_active (k := k) (m := m) (u := u) hs e.2
  simp [mainExited, exitFails, hd, hsettle, UnitRuntime.Verdict.fails, UnitRuntime.supervision,
    UnitRuntime.reaped]

/-- A process that exits in another way, or is restarted, does not. -/
theorem mainExited_of_unclean (hs : rt.state = .active)
    (h : ¬(e.2 = .success ∧ rt.policy.wantsRestart e.2 = false)) :
    (m.mainExited k u rt e).state ≠ .inactive := by
  have hsettle : ((rt.mainExit k m.bootInProgress e.1 e.2).val.1).state ≠ .inactive := by
    rw [UnitRuntime.mainExit_val]
    by_cases hw : rt.policy.wantsRestart e.2 = true
    · have hrestart : (rt.reaped e.2).settleExit k m.bootInProgress e.2 =
          ({ rt.reaped e.2 with state := .restartWait }).scheduleRestart k true := by
        have hw' : rt.config.restart.wantsRestart e.2 = true := hw
        simp [UnitRuntime.settleExit, UnitRuntime.reaped, hs, UnitRuntime.exitEvent, transition,
          transitionTable, UnitRuntime.policy, hw']
      rw [hrestart]
      rcases UnitRuntime.scheduleRestart_eq k { rt.reaped e.2 with state := .restartWait } true with
        ⟨b, a, d, hr⟩ | ⟨b, f, hr⟩ <;> rw [hr] <;> simp
    · have ho : e.2 ≠ .success := fun ho => h ⟨ho, by simpa using hw⟩
      have hw' : rt.config.restart.wantsRestart e.2 = false := by
        simpa [UnitRuntime.policy] using hw
      simp [UnitRuntime.settleExit, UnitRuntime.reaped, hs, UnitRuntime.exitEvent, transition,
        transitionTable, UnitRuntime.policy, hw', ho]
  unfold mainExited
  rw [forkedDaemon_of_active hs]
  dsimp only
  split
  · next hf =>
    rw [failOwn_of_failed k m.cgroup u (mainExit_of_fails hf).1]
    exact hsettle
  · exact hsettle

section Batches

variable (hm : Reachable m) (hb : Reaped k m batch)

include hm in
theorem active_of_probe (hrt : m.get u = some rt) (hp : rt.pid.isSome = true) {pid : Pid}
    (hq : rt.probePid = some pid) : rt.state = .active := by
  by_contra hs
  cases (hm.probing hrt hp hs).symm.trans hq

include hb in
theorem ownExit_of_main (hrt : m.get u = some rt) (he : e ∈ batch) (hp : rt.pid = some e.1) :
    m.ownExit k u rt e = m.mainExited k u rt e := by
  obtain ⟨hq, hs⟩ := (hb.one e he).main u rt hrt hp
  rw [ownExit, if_neg hq, if_neg hs, if_pos hp]

include hb in
theorem exit_unique {e' : Exit} (he : e ∈ batch) (he' : e' ∈ batch) (h : e'.1 = e.1) : e' = e :=
  List.inj_on_of_nodup_map hb.nodup he' he h

include hb in
theorem decided_of_main (he : e ∈ batch) (hp : rt.pid = some e.1) :
    m.decided k batch u rt = m.mainExited k u rt e := by
  have hfind : (batch.find? fun e => rt.pid = some e.1) = some e := by
    cases hf : batch.find? fun e => rt.pid = some e.1 with
    | none =>
      have hnone := List.find?_eq_none.mp hf e he
      simp [hp] at hnone
    | some e' =>
      have hp' : rt.pid = some e'.1 := by simpa using List.find?_some hf
      rw [exit_unique hb he (List.mem_of_find?_eq_some hf)
        (Option.some.inj (hp'.symm.trans hp))]
  rw [decided, hfind]

/-- Without the exit of the main process, the probe decides. -/
theorem decided_of_no_main (hno : ∀ e ∈ batch, rt.pid ≠ some e.1) :
    (∃ e ∈ batch, rt.probePid = some e.1 ∧
      m.decided k batch u rt = (rt.finishProbe k m.cgroup u e.2).val) ∨
    (∀ e ∈ batch, rt.probePid ≠ some e.1) ∧ m.decided k batch u rt = rt := by
  have hfind : (batch.find? fun e => rt.pid = some e.1) = none := by
    rw [List.find?_eq_none]
    simpa using hno
  unfold decided
  rw [hfind]
  cases hf : batch.find? fun e => rt.probePid = some e.1 with
  | none => exact .inr ⟨by simpa using List.find?_eq_none.mp hf, rfl⟩
  | some e =>
    exact .inl ⟨e, List.mem_of_find?_eq_some hf, by simpa using List.find?_some hf, rfl⟩

/-- A process that is gone is cleared by the failed probe. -/
theorem finishProbe_of_gone (hg : k.Gone e.1) (hp : rt.pid = some e.1) {outcome : ExitOutcome}
    (ho : outcome ≠ .success) (hr : rt.config.healthRestartOnFailure = true) :
    (rt.finishProbe k m.cgroup u outcome).val.supervision = (.inactive, rt.restartAt) ∧
      (rt.finishProbe k m.cgroup u outcome).val.pid = none := by
  have hcore := rt.finishProbe_failed k m.cgroup u ho hr hp
  rw [hg.killProcessGroup] at hcore
  exact ⟨congrArg (fun c : Core => (c.state, c.restartAt)) hcore, congrArg Core.pid hcore⟩

include hm hb in
/-- In any order, its own exits leave a unit as it is decided. -/
theorem view_own (hA : ProbesAgree m batch) (hl : l.Perm batch) (hrt : m.get u = some rt) :
    (m.own k u rt l).supervision = (m.decided k batch u rt).supervision ∧
      ((m.own k u rt l).pid = none ↔ (m.decided k batch u rt).pid = none) := by
  have hmem (e : Exit) (he : e ∈ l) : e ∈ batch := hl.subset he
  have view {rt rt' : UnitRuntime} (h : rt'.core = rt.core) :
      rt'.supervision = rt.supervision ∧ (rt'.pid = none ↔ rt.pid = none) :=
    ⟨UnitRuntime.supervision_of_core h, by rw [UnitRuntime.pid_of_core h]⟩
  have hcases := core_own_cases (m := m) (u := u) hb.gone (hm.probing hrt) hmem
    ((hl.map Prod.fst).nodup_iff.mpr hb.nodup)
  by_cases hmain : ∃ e ∈ batch, rt.pid = some e.1
  · obtain ⟨e, he, hp⟩ := hmain
    rw [decided_of_main hb he hp]
    rcases hcases with ⟨hinert, -⟩ | ⟨e', he', hdecides, hcore, -⟩
    · refine absurd (hinert e (hl.symm.subset he)) ?_
      rw [ownExit_of_main hb hrt he hp]
      exact mainExited_core_ne (hb.gone e he) hp
    · rcases decides_cases hdecides with ⟨hp', hown⟩ | ⟨hq, ho, hr, hsome, hown⟩
      · obtain rfl := exit_unique hb he (hmem e' he') (Option.some.inj (hp'.symm.trans hp))
        exact view (hown ▸ hcore)
      · obtain ⟨hclean, hw⟩ := hA u rt e e' hrt he (hmem e' he') hp hq ho hr
        obtain ⟨hsup, hpid, -⟩ := mainExited_of_clean (k := k) (m := m) (u := u)
          (active_of_probe hm hrt hsome hq) hclean hw
        obtain ⟨hsup', hpid'⟩ := finishProbe_of_gone (m := m) (u := u) (hb.gone e he) hp ho hr
        obtain ⟨h1, h2⟩ := view (hown ▸ hcore)
        exact ⟨h1.trans (hsup'.trans hsup.symm), h2.trans (by rw [hpid, hpid'])⟩
  · simp only [not_exists, not_and] at hmain
    rcases hcases with ⟨hinert, hcore⟩ | ⟨e, he, hdecides, hcore, -⟩
    · refine view (hcore.trans ?_)
      rcases decided_of_no_main (k := k) (m := m) (u := u) hmain with ⟨e, he, hq, hd⟩ | ⟨-, hd⟩
      · have hown := hinert e (hl.symm.subset he)
        rw [ownExit, if_pos hq] at hown
        rw [hd, hown]
      · rw [hd]
    · refine view (hcore.trans ?_)
      rcases decides_cases hdecides with ⟨hp, -⟩ | ⟨hq, -, -, -, hown⟩
      · exact absurd hp (hmain e (hmem e he))
      · rcases decided_of_no_main (k := k) (m := m) (u := u) hmain with ⟨e', he', hq', hd⟩ | ⟨hno, -⟩
        · obtain rfl := exit_unique hb he' (hmem e he) (Option.some.inj (hq.symm.trans hq'))
          rw [hown, hd]
        · exact absurd hq (hno e (hmem e he))

/-! ## Which units are marked -/

include hm hb in
/-- An exit that fails a unit in the middle of a batch fails it before the batch. -/
theorem failsNow_of_owned {done : List Exit} (hl : ∀ e' ∈ done, e' ∈ batch)
    (hn : (done.map Prod.fst).Nodup) (he : e ∈ batch) (h : FailsNow k (m.owned k done) e u) :
    FailsNow k m e u := by
  obtain ⟨rt', hrt', hp, hf⟩ := h
  rw [get_owned] at hrt'
  obtain ⟨rt, hrt, rfl⟩ := Option.map_eq_some_iff.mp hrt'
  rcases core_own_cases (m := m) (u := u) hb.gone (hm.probing hrt) hl hn with
    ⟨-, hcore⟩ | ⟨e', he', -, -, hquiet⟩
  · refine ⟨rt, hrt, (UnitRuntime.pid_of_core hcore).symm.trans hp, ?_⟩
    exact (exitFails_congr hcore m e).symm.trans hf
  · exact absurd hp (hquiet e he).1

include hm hb in
/-- An exit that fails a unit before the batch fails it in the middle of the batch. -/
theorem failsNow_owned (hA : ProbesAgree m batch) {done : List Exit}
    (hl : ∀ e' ∈ done, e' ∈ batch) (hn : (done.map Prod.fst).Nodup) (he : e ∈ batch)
    (hnot : e ∉ done) (h : FailsNow k m e u) : FailsNow k (m.owned k done) e u := by
  obtain ⟨rt, hrt, hp, hf⟩ := h
  rcases core_own_cases (m := m) (u := u) hb.gone (hm.probing hrt) hl hn with
    ⟨-, hcore⟩ | ⟨e', he', hdecides, -, -⟩
  · refine ⟨m.own k u rt done, by rw [get_owned, hrt]; rfl, ?_, ?_⟩
    · exact (UnitRuntime.pid_of_core hcore).trans hp
    · exact (exitFails_congr hcore m e).trans hf
  · exfalso
    rcases decides_cases hdecides with ⟨hp', -⟩ | ⟨hq, ho, hr, hsome, -⟩
    · obtain rfl := exit_unique hb he (hl e' he') (Option.some.inj (hp'.symm.trans hp))
      exact hnot he'
    · obtain ⟨hclean, hw⟩ := hA u rt e e' hrt he (hl e' he') hp hq ho hr
      obtain ⟨-, -, hnf⟩ := mainExited_of_clean (k := k) (m := m) (u := u)
        (active_of_probe hm hrt hsome hq) hclean hw
      cases hnf.symm.trans hf

/-- What its own exits leave of every unit has the definitions of before. -/
theorem owned_config (k : Kernel) (m : UnitManager) (l : List Exit) (x : UnitName) :
    ((m.owned k l).units[x]?).map UnitRuntime.config = (m.units[x]?).map UnitRuntime.config := by
  rw [← get, ← get, get_owned]
  cases m.get x with
  | none => rfl
  | some rt => exact congrArg some (own_config k m x rt l)

/-- A failure in the middle of a batch reaches what it reaches before the batch. -/
theorem fails_owned {r : UnitName} (h : Fails m.units r v) (l : List Exit) :
    Fails (m.owned k l).units r v := by
  refine h.mono (owned_config k m l) fun x rt hrt hp => ?_
  exact ⟨m.own k x rt l, by rw [← get, get_owned, get, hrt]; rfl, own_pid_none hp l⟩

theorem decided_config (k : Kernel) (m : UnitManager) (batch : List Exit) (u : UnitName)
    (rt : UnitRuntime) : (m.decided k batch u rt).config = rt.config := by
  unfold decided
  split
  · exact mainExited_config ..
  · split
    · next e _ =>
      have h := UnitRuntime.probed_finishProbe k m.cgroup u rt e.2
      generalize (rt.finishProbe k m.cgroup u e.2).val = rt' at h
      cases h <;> rfl
    · rfl

include hm hb in
/-- A failure in the middle of a batch reaches no more than once every exit is in. -/
theorem fails_decidedAll (hA : ProbesAgree m batch) {d rest : List Exit} {r : UnitName}
    (hl : (d ++ rest).Perm batch) (h : Fails (m.owned k d).units r v) :
    Fails (m.decidedAll k batch).units r v := by
  refine h.mono (fun x => ?_) fun x rt' hrt' hp => ?_
  · rw [owned_config, ← get, ← get, get_decidedAll]
    cases m.get x with
    | none => rfl
    | some rt => exact congrArg some (decided_config k m batch x rt)
  · rw [← get, get_owned] at hrt'
    obtain ⟨rt, hrt, rfl⟩ := Option.map_eq_some_iff.mp hrt'
    refine ⟨m.decided k batch x rt, by rw [← get, get_decidedAll, hrt]; rfl, ?_⟩
    refine (view_own hm hb hA hl hrt).2.mp ?_
    have hsplit : m.own k x rt (d ++ rest) = m.own k x (m.own k x rt d) rest := by
      simp [own, List.foldl_append]
    rw [hsplit]
    exact own_pid_none hp rest

include hb in
theorem split_perm {d r : List Exit} (hl : (d ++ e :: r).Perm batch) :
    (∀ e' ∈ d, e' ∈ batch) ∧ (d.map Prod.fst).Nodup ∧ e ∈ batch ∧ e ∉ d := by
  have hn := (hl.map Prod.fst).nodup_iff.mpr hb.nodup
  rw [List.map_append, List.map_cons, List.nodup_append] at hn
  refine ⟨fun e' he' => hl.subset (List.mem_append_left _ he'), hn.1,
    hl.subset (by simp), fun he => ?_⟩
  exact hn.2.2 e.1 (List.mem_map_of_mem he) e.1 List.mem_cons_self rfl

include hm hb in
/-- What is dragged down before the batch is marked in every order. -/
theorem marked_of_fails (hA : ProbesAgree m batch) (hl : l.Perm batch) {r : UnitName}
    (hr : FailsIn k m batch r) (h : Fails m.units r v) : Marked k m l v := by
  obtain ⟨e, he, hnow⟩ := hr
  obtain ⟨done, rest, rfl⟩ := List.append_of_mem (hl.symm.subset he)
  obtain ⟨hdone, hn, -, hnot⟩ := split_perm hb hl
  exact ⟨done, e, rest, r, rfl, failsNow_owned hm hb hA hdone hn he hnot hnow,
    fails_owned h (done ++ [e])⟩

include hm hb in
/-- What is marked in some order is dragged down once every exit is in. -/
theorem fails_of_marked (hA : ProbesAgree m batch) (hl : l.Perm batch) (h : Marked k m l v) :
    ∃ r, FailsIn k m batch r ∧ Fails (m.decidedAll k batch).units r v := by
  obtain ⟨done, e, rest, r, rfl, hnow, hv⟩ := h
  obtain ⟨hdone, hn, he, -⟩ := split_perm hb hl
  exact ⟨r, ⟨e, he, failsNow_of_owned hm hb hdone hn he hnow⟩,
    fails_decidedAll hm hb hA (d := done ++ [e]) (by simpa using hl) hv⟩

/-- A mark changes the state of a unit that has not failed. -/
theorem supervision_dragDown (h : rt'.supervision = rt.supervision) :
    rt'.dragDown.supervision = rt.dragDown.supervision := by
  obtain ⟨hs, hr⟩ := Prod.mk.inj h
  unfold UnitRuntime.dragDown
  rw [hs]
  split
  · exact h
  · exact Prod.ext rfl hr

open Classical in
include hm hb in
/-- If the order does not matter, a batch leaves a unit as it is decided, or dragged down by a
failure that reached it before the batch. -/
theorem supervision_reapAll (hA : ProbesAgree m batch) (hB : DragsAgree k m batch)
    (hl : l.Perm batch) (hrt : m.get u = some rt) :
    ((m.reapAll k l).get u).map UnitRuntime.supervision =
      some (if ∃ r, FailsIn k m batch r ∧ Fails m.units r u then
        (m.decided k batch u rt).dragDown.supervision
      else (m.decided k batch u rt).supervision) := by
  have hshows := shows_reapAll hb fun e (he : e ∈ l) => hl.subset he
  obtain ⟨hsup, -⟩ := view_own hm hb hA hl hrt
  rw [hshows.get, hrt, Option.map_some, Option.map_some]
  refine congrArg some ?_
  by_cases hmarked : Marked k m l u
  · rw [if_pos hmarked]
    split
    · exact supervision_dragDown hsup
    · next hnone =>
      obtain ⟨r, hr, hfails⟩ := fails_of_marked hm hb hA hl hmarked
      have hfailed := (hB r u rt hr hfails hrt).resolve_left hnone
      have hstate : (m.own k u rt l).state = (m.decided k batch u rt).state := (Prod.mk.inj hsup).1
      rw [dragDown_of_isFailed (hstate ▸ hfailed)]
      exact hsup
  · rw [if_neg hmarked, if_neg]
    · exact hsup
    · rintro ⟨r, hr, hfails⟩
      exact hmarked (marked_of_fails hm hb hA hl hr hfails)

include hm hb in
theorem orderIndependent_of_agree (hA : ProbesAgree m batch) (hB : DragsAgree k m batch) :
    OrderIndependent k m batch := by
  classical
  intro l hl u rt hrt
  have h := supervision_reapAll hm hb hA hB hl hrt
  refine ⟨h.trans (supervision_reapAll hm hb hA hB (.refl batch) hrt).symm, fun e he hp => ?_⟩
  rw [h, if_neg, decided_of_main hb he hp]
  rintro ⟨r, -, hfails⟩
  obtain ⟨rt', hrt', hnone⟩ := hfails.exists_rt
  obtain rfl := Option.some.inj (hrt.symm.trans hrt')
  cases hnone.symm.trans hp

/-! ## Orders that differ -/

include hb in
theorem failsNow_unit (he : e ∈ batch) (hrt : m.get u = some rt) (ht : rt.Tracks e.1) {r : UnitName}
    (h : FailsNow k m e r) : r = u ∧ rt.pid = some e.1 := by
  obtain ⟨rt', hrt', hp, -⟩ := h
  obtain rfl := (hb.one e he).unit r u rt' rt hrt' hrt (.inl hp) ht
  obtain rfl := Option.some.inj (hrt.symm.trans hrt')
  exact ⟨rfl, hp⟩

include hm hb in
/-- With the failed probe of a unit right before the exit of its process, at the end of the
batch, the unit ends inactive. -/
theorem reapAll_probe_first {e' : Exit} {rest : List Exit} (hl : (rest ++ [e', e]).Perm batch)
    (hrt : m.get u = some rt) (hp : rt.pid = some e.1) (hq : rt.probePid = some e'.1)
    (ho : e'.2 ≠ .success) (hr : rt.config.healthRestartOnFailure = true) :
    ((m.reapAll k (rest ++ [e', e])).get u).map UnitRuntime.supervision =
      some (.inactive, rt.restartAt) := by
  have he : e ∈ batch := hl.subset (by simp)
  have he' : e' ∈ batch := hl.subset (by simp)
  have hn := (hl.map Prod.fst).nodup_iff.mpr hb.nodup
  obtain ⟨hrest, hnrest, -, hnot'⟩ := split_perm (d := rest) (r := [e]) hb hl
  obtain ⟨hdone, hndone, -, hnot⟩ := split_perm (d := rest ++ [e']) (r := []) hb
    (by simpa using hl)
  have hown : (m.ownExit k u rt e') = (rt.finishProbe k m.cgroup u e'.2).val := by
    rw [ownExit, if_pos hq]
  obtain ⟨hsup, hpid⟩ := finishProbe_of_gone (m := m) (u := u) (hb.gone e he) hp ho hr
  have hdecides : (m.ownExit k u rt e').core ≠ rt.core := fun h => by
    have hsame := UnitRuntime.pid_of_core h
    rw [hown, hpid, hp] at hsame
    cases hsame
  have hinert : ∀ x ∈ rest, (m.ownExit k u rt x).core = rt.core := by
    intro x hx
    by_contra hx'
    rcases decides_cases hx' with ⟨hpx, -⟩ | ⟨hqx, -⟩
    · obtain rfl := exit_unique hb he (hrest x hx) (Option.some.inj (hpx.symm.trans hp))
      exact hnot (List.mem_append_left _ hx)
    · obtain rfl := exit_unique hb he' (hrest x hx) (Option.some.inj (hqx.symm.trans hq))
      exact hnot' hx
  have hcore (r : List Exit) (hr : (rest ++ e' :: r) <+: (rest ++ [e', e])) :
      (m.own k u rt (rest ++ e' :: r)).core = (m.ownExit k u rt e').core :=
    (core_own_of_decides hb.gone (hm.probing hrt) (fun x hx => hl.subset (hr.subset hx))
      (hn.sublist (hr.sublist.map Prod.fst)) hinert hdecides).2
  have hwaits : (m.own k u rt rest).pid = some e.1 := by
    rcases core_own_cases (m := m) (u := u) hb.gone (hm.probing hrt) hrest hnrest with
      ⟨-, h⟩ | ⟨x, hx, hd, -⟩
    · exact (UnitRuntime.pid_of_core h).trans hp
    · exact absurd (hinert x hx) hd
  have hunmarked : ¬Marked k m (rest ++ [e', e]) u := by
    have hsplit : rest ++ [e', e] = (rest ++ [e']) ++ [e] := by simp
    rw [hsplit, marked_append, marked_append]
    rintro ((hmarked | ⟨r, hnow, -⟩) | ⟨r, hnow, -⟩)
    · obtain ⟨rt', hrt', hnone⟩ := hmarked.pid
      obtain rfl := Option.some.inj (hrt.symm.trans hrt')
      cases hnone.symm.trans hwaits
    · have hmain := failsNow_of_owned hm hb hrest hnrest he' hnow
      obtain ⟨rfl, hp'⟩ := failsNow_unit hb he' hrt (.inr (.inl hq)) hmain
      exact ((hb.one e' he').main r rt hrt hp').1 hq
    · have hmain := failsNow_of_owned hm hb hdone hndone he hnow
      obtain ⟨rfl, -⟩ := failsNow_unit hb he hrt (.inl hp) hmain
      obtain ⟨rt', hrt', hp', -⟩ := hnow
      rw [get_owned, hrt] at hrt'
      obtain rfl := Option.some.inj hrt'
      have hsame := UnitRuntime.pid_of_core (hcore [] (by simp))
      rw [hown, hpid] at hsame
      cases hsame.symm.trans hp'
  have hshows := shows_reapAll hb fun x (hx : x ∈ rest ++ [e', e]) => hl.subset hx
  rw [hshows.get, hrt, Option.map_some, Option.map_some, if_neg hunmarked]
  refine congrArg some ?_
  rw [UnitRuntime.supervision_of_core (hcore [e] (List.prefix_refl _)), hown]
  exact hsup

include hm hb in
theorem probesAgree_of_orderIndependent (h : OrderIndependent k m batch) : ProbesAgree m batch := by
  intro u rt e e' hrt he he' hp hq ho hr
  by_contra hunclean
  have hne : e ≠ e' := by
    rintro rfl
    exact ((hb.one e he).main u rt hrt hp).1 hq
  have hl : ((batch.erase e').erase e ++ [e', e]).Perm batch := by
    have h1 := List.perm_cons_erase he'
    have h2 := List.perm_cons_erase ((List.mem_erase_of_ne hne).mpr he)
    refine List.perm_append_comm.trans ?_
    exact ((List.Perm.cons e' h2).symm).trans h1.symm
  have hfirst := reapAll_probe_first hm hb hl hrt hp hq ho hr
  have hdictated := (h _ hl u rt hrt).2 e he hp
  have hstate := (Prod.mk.inj (Option.some.inj (hdictated.symm.trans hfirst))).1
  exact mainExited_of_unclean (active_of_probe hm hrt (by simp [hp]) hq) hunclean hstate

theorem own_of_not_tracks (h : ∀ e ∈ l, ¬rt.Tracks e.1) : m.own k u rt l = rt := by
  induction l with
  | nil => rfl
  | cons e l ih =>
    have hstep : m.ownExit k u rt e = rt := ownExit_of_not_tracks (h e List.mem_cons_self)
    exact (congrArg (m.own k u · l) hstep).trans
      (ih fun e' he' => h e' (List.mem_cons_of_mem e he'))

theorem mainExited_of_exitFails (h : m.exitFails k u rt e = true) :
    (m.mainExited k u rt e).state.isFailed = true := by
  simp only [exitFails, Bool.and_eq_true, Option.isNone_iff_eq_none] at h
  simp [mainExited, h.1, h.2, failOwn_isFailed]

include hb in
theorem decided_of_failsIn (hrt : m.get u = some rt) (h : FailsIn k m batch u) :
    (m.decided k batch u rt).state.isFailed = true := by
  obtain ⟨e, he, rt', hrt', hp, hf⟩ := h
  obtain rfl := Option.some.inj (hrt.symm.trans hrt')
  rw [decided_of_main hb he hp]
  exact mainExited_of_exitFails hf

include hb in
/-- The exits that fail a unit are no other unit's. -/
theorem own_failing {d f : List Exit} (hf : ∀ e ∈ f, e ∈ batch ∧ ∃ r, FailsNow k m e r)
    (hrt : m.get u = some rt) (hnot : ¬FailsIn k m batch u) :
    m.own k u rt (d ++ f) = m.own k u rt d := by
  have hsplit : m.own k u rt (d ++ f) = m.own k u (m.own k u rt d) f := by
    simp [own, List.foldl_append]
  rw [hsplit]
  refine own_of_not_tracks fun e he ht => hnot ?_
  obtain ⟨hb', r, hnow⟩ := hf e he
  obtain ⟨h1, h2, h3⟩ := m.own_children (hb.gone e hb') u rt d
  obtain ⟨rfl, -⟩ := failsNow_unit hb hb' hrt (ht.imp h1 (Or.imp h2 h3)) hnow
  exact ⟨e, hb', hnow⟩

/-- What the exits of `l` leave drags `u` down with `a`, if it leaves it without a process. -/
theorem drags_owned {units : Units} {a : UnitName} (h : Drags units a u)
    (hconfig : ∀ x : UnitName,
      (units[x]?).map UnitRuntime.config = (m.units[x]?).map UnitRuntime.config)
    (hrt : m.get u = some rt) (hp : (m.own k u rt l).pid = none) :
    Drags (m.owned k l).units a u := by
  refine ⟨?_, m.own k u rt l, by rw [← get, get_owned, hrt]; rfl, hp⟩
  rw [mem_requiresDependents_congr (owned_config k m l), ← mem_requiresDependents_congr hconfig]
  exact h.1

include hm hb in
/-- With the exits that fail a unit at the front, nothing is marked but what is dragged down
before the batch. -/
theorem not_marked_failing_first {f r : List Exit}
    (hf : ∀ e, e ∈ f ↔ e ∈ batch ∧ ∃ u, FailsNow k m e u) (hl : (f ++ r).Perm batch)
    (hnot : ¬∃ r', FailsIn k m batch r' ∧ Fails m.units r' u) (hfail : ¬FailsIn k m batch u) :
    ¬Marked k m (f ++ r) u := by
  rintro ⟨done, e, rest, root, hsplit, hnow, hreach⟩
  obtain ⟨hdone, hn, he, -⟩ := split_perm hb (hsplit ▸ hl)
  have hroot := failsNow_of_owned hm hb hdone hn he hnow
  have hmem : ∀ e' ∈ done ++ [e], e' ∈ f := by
    rcases List.append_eq_append_iff.mp hsplit with ⟨bs, rfl, hr⟩ | ⟨as, hfs, has⟩
    · exfalso
      have hdup : e ∈ f ∧ e ∈ r := ⟨(hf e).mpr ⟨he, root, hroot⟩, by rw [hr]; simp⟩
      have hnodup := (hl.map Prod.fst).nodup_iff.mpr hb.nodup
      rw [List.map_append, List.nodup_append] at hnodup
      exact hnodup.2.2 e.1 (List.mem_map_of_mem hdup.1) e.1 (List.mem_map_of_mem hdup.2) rfl
    · intro e' he'
      rcases List.mem_append.mp he' with he' | he'
      · rw [hfs]
        exact List.mem_append_left _ he'
      · rw [List.mem_singleton.mp he']
        exact (hf e).mpr ⟨he, root, hroot⟩
  -- Along the chain every unit fails in the batch or is dragged down before it.
  have hstep (a d : UnitName) (ha : FailsIn k m batch a ∨ ∃ r', FailsIn k m batch r' ∧
      Fails m.units r' a) (hd : Drags (m.owned k (done ++ [e])).units a d) :
      FailsIn k m batch d ∨ ∃ r', FailsIn k m batch r' ∧ Fails m.units r' d := by
    by_cases hfd : FailsIn k m batch d
    · exact .inl hfd
    · obtain ⟨hdep, rt', hrt', hp⟩ := hd
      rw [← get, get_owned] at hrt'
      obtain ⟨rt, hrt, rfl⟩ := Option.map_eq_some_iff.mp hrt'
      have hown : m.own k d rt (done ++ [e]) = rt :=
        own_failing (d := []) hb (fun e' he' => (hf e').mp (hmem e' he')) hrt hfd
      rw [hown] at hp
      have hdrags : Drags m.units a d :=
        ⟨(mem_requiresDependents_congr (owned_config k m _)).mp hdep, rt, hrt, hp⟩
      refine .inr ?_
      rcases ha with ha | ⟨r', hr', hreach'⟩
      · exact ⟨a, ha, .single hdrags⟩
      · exact ⟨r', hr', hreach'.tail hdrags⟩
  have hchain (d : UnitName) (hd : Fails (m.owned k (done ++ [e])).units root d) :
      FailsIn k m batch d ∨ ∃ r', FailsIn k m batch r' ∧ Fails m.units r' d := by
    induction hd with
    | single hd => exact hstep root _ (.inl ⟨e, he, hroot⟩) hd
    | tail _ hd ih => exact hstep _ _ ih hd
  exact (hchain u hreach).elim hfail hnot

include hm hb in
/-- With the exits that fail a unit at the end, everything is marked that is dragged down once
every exit is in. -/
theorem marked_failing_last (hA : ProbesAgree m batch) {f r : List Exit}
    (hf : ∀ e, e ∈ f ↔ e ∈ batch ∧ ∃ u, FailsNow k m e u) (hl : (r ++ f).Perm batch)
    {root : UnitName} (hroot : FailsIn k m batch root)
    (hreach : Fails (m.decidedAll k batch).units root u) :
    Marked k m (r ++ f) u ∨ FailsIn k m batch u := by
  have hconfig (x : UnitName) : ((m.decidedAll k batch).units[x]?).map UnitRuntime.config =
      (m.units[x]?).map UnitRuntime.config := by
    rw [← get, ← get, get_decidedAll]
    cases m.get x with
    | none => rfl
    | some rt => exact congrArg some (decided_config k m batch x rt)
  have hnodup := (hl.map Prod.fst).nodup_iff.mpr hb.nodup
  have hstep (a d : UnitName) (ha : Marked k m (r ++ f) a ∨ FailsIn k m batch a)
      (hd : Drags (m.decidedAll k batch).units a d) :
      Marked k m (r ++ f) d ∨ FailsIn k m batch d := by
    by_cases hfd : FailsIn k m batch d
    · exact .inr hfd
    · refine .inl ?_
      obtain ⟨rt', hrt', hp⟩ := hd.2
      rw [← get, get_decidedAll] at hrt'
      obtain ⟨rt, hrt, rfl⟩ := Option.map_eq_some_iff.mp hrt'
      -- The exits at the end are not `d`'s, so it has no process by then.
      have hdrags (g : List Exit) (hg : ∀ e ∈ g, e ∈ f) : Drags (m.owned k (r ++ g)).units a d := by
        refine drags_owned hd hconfig hrt ?_
        have hall := (view_own hm hb hA hl hrt).2.mpr hp
        rw [own_failing hb (fun e he => (hf e).mp he) hrt hfd] at hall
        rw [own_failing hb (fun e he => (hf e).mp (hg e he)) hrt hfd]
        exact hall
      rcases ha with ⟨done, e, rest, r', hsplit, hnow, hfails⟩ | ⟨e, he, hnow⟩
      · obtain ⟨hdone, hn, he, -⟩ := split_perm hb (hsplit ▸ hl)
        have hmain := failsNow_of_owned hm hb hdone hn he hnow
        have hef : e ∈ f := (hf e).mpr ⟨he, r', hmain⟩
        obtain ⟨bs, rfl, hbs⟩ : ∃ bs, done = r ++ bs ∧ f = bs ++ e :: rest := by
          rcases List.append_eq_append_iff.mp hsplit with ⟨bs, h1, h2⟩ | ⟨as, h1, h2⟩
          · exact ⟨bs, h1, h2⟩
          · cases as with
            | nil => exact ⟨[], by simpa using h1.symm, by simpa using h2.symm⟩
            | cons x as =>
              obtain ⟨rfl, -⟩ := List.cons.inj h2
              rw [List.map_append, List.nodup_append] at hnodup
              refine absurd rfl (hnodup.2.2 e.1 (List.mem_map_of_mem ?_) e.1
                (List.mem_map_of_mem hef))
              rw [h1]
              simp
        have hext := hdrags (bs ++ [e]) (by rw [hbs]; simp; tauto)
        rw [← List.append_assoc] at hext
        exact ⟨r ++ bs, e, rest, r', hsplit, hnow, hfails.tail hext⟩
      · obtain ⟨g, h, hg⟩ := List.append_of_mem ((hf e).mpr ⟨he, a, hnow⟩)
        have hsplit : r ++ f = (r ++ g) ++ e :: h := by rw [hg, List.append_assoc]
        obtain ⟨hdone, hn, -, hnot⟩ := split_perm hb (hsplit ▸ hl)
        have hext := hdrags (g ++ [e]) (by rw [hg]; simp; tauto)
        rw [← List.append_assoc] at hext
        exact ⟨r ++ g, e, h, a, hsplit, failsNow_owned hm hb hA hdone hn he hnot hnow,
          .single hext⟩
  induction hreach with
  | single hd => exact hstep root _ (.inr hroot) hd
  | tail _ hd ih => exact hstep _ _ ih hd

include hm hb in
theorem dragsAgree_of_orderIndependent (hA : ProbesAgree m batch)
    (h : OrderIndependent k m batch) : DragsAgree k m batch := by
  classical
  intro root u rt hroot hreach hrt
  by_contra hcon
  rw [not_or] at hcon
  have hfail : ¬FailsIn k m batch u := fun hf => hcon.2 (decided_of_failsIn hb hrt hf)
  let p : Exit → Bool := fun e => decide (∃ u, FailsNow k m e u)
  have hf (e : Exit) : e ∈ batch.filter p ↔ e ∈ batch ∧ ∃ u, FailsNow k m e u := by
    simp [p, List.mem_filter]
  have hfirst : (batch.filter p ++ batch.filter (!p ·)).Perm batch := List.filter_append_perm p batch
  have hlast : (batch.filter (!p ·) ++ batch.filter p).Perm batch :=
    List.perm_append_comm.trans hfirst
  have hclean := not_marked_failing_first hm hb hf hfirst hcon.1 hfail
  have hmarked := (marked_failing_last hm hb hA hf hlast hroot hreach).resolve_right hfail
  have h1 := (shows_reapAll hb fun e he => hfirst.subset he).get u
  have h2 := (shows_reapAll hb fun e he => hlast.subset he).get u
  have hsame := (h _ hfirst u rt hrt).1.trans (h _ hlast u rt hrt).1.symm
  rw [h1, h2, hrt, Option.map_some, Option.map_some, Option.map_some, Option.map_some,
    if_neg hclean, if_pos hmarked, (view_own hm hb hA hfirst hrt).1] at hsame
  have hstate := (Prod.mk.inj (Option.some.inj hsame)).1
  refine hcon.2 ?_
  rw [hstate]
  exact dragDown_isFailed _

include hm hb in
/-- The order of a batch does not matter exactly if no failed probe hides the exit of its
process and no failure drags down a unit for an exit of the same batch. -/
theorem orderIndependent_iff :
    OrderIndependent k m batch ↔ ProbesAgree m batch ∧ DragsAgree k m batch := by
  constructor
  · intro h
    have hA := probesAgree_of_orderIndependent hm hb h
    exact ⟨hA, dragsAgree_of_orderIndependent hm hb hA h⟩
  · rintro ⟨hA, hB⟩
    exact orderIndependent_of_agree hm hb hA hB

end Batches

end UnitManager

/-! ## A probe and its process in one batch -/

/-- A kernel that has reaped every process. -/
def Kernel.reaping (now : ℕ) : Kernel :=
  { Kernel.granting now 10 with
    getpgid := fun _ => .error eSrch
    kill := fun _ _ => .error eSrch }

/-- A service that is probed, and restarted whether it crashes or its probe fails. -/
def probedConfig : UnitConfig :=
  { UnitConfig.new serviceA with
    restart := .always
    healthCheck := ⟨["/bin/check"]⟩
    healthIntervalSec := 1
    healthRestartOnFailure := true }

/-- The service is up as process 10, and process 11 probes it. -/
def probed : UnitManager :=
  ({} : UnitManager).apply (.granting 0 10) (.addWithInFlight probedConfig false)
    |>.apply (.granting 0 10) (.beginSpawnUnit serviceA)
    |>.apply (.granting 1000 10) .dueHealthProbes

theorem reachable_probed : Reachable probed :=
  .step _ _ (.step _ _ (.step _ _ .new rfl) trivial) trivial

theorem get_probed {u : UnitName} {rt : UnitRuntime} (h : probed.get u = some rt) :
    u = serviceA ∧ rt.pid = some 10 ∧ rt.probePid = some 11 ∧ rt.execStopPid = none ∧
      rt.config.deps.requires = [] := by
  have hall : (probed.units.toList.all fun e => e.1 = serviceA && e.2.pid = some 10 &&
      e.2.probePid = some 11 && e.2.execStopPid = none && e.2.config.deps.requires = []) = true := by
    decide +kernel
  have hmem := List.all_eq_true.mp hall (u, rt)
    (Std.ExtTreeMap.mem_toList_iff_getElem?_eq_some.mpr h)
  simpa [and_assoc] using hmem

theorem reaped_probed {outcome outcome' : ExitOutcome} :
    Reaped (.reaping 2000) probed [(10, outcome), (11, outcome')] where
  nodup := by simp
  gone e he := by
    have hpid : 1 < e.1 := by
      rcases List.mem_pair.mp he with rfl | rfl <;> simp
    exact ⟨hpid, rfl, fun _ => rfl⟩
  one e _ := by
    refine ⟨fun u v rt rt' hu hv _ _ => (get_probed hu).1.trans (get_probed hv).1.symm,
      fun u rt hu hp => ?_⟩
    obtain ⟨-, h10, h11, hnone, -⟩ := get_probed hu
    obtain heq := Option.some.inj (h10.symm.trans hp)
    rw [h11, hnone, ← heq]
    decide

/-- A crash and a probe that succeeded, in either order. -/
theorem orderIndependent_probed :
    (probed.get serviceA).any (fun rt => rt.pid = some 10 && rt.probePid = some 11) = true ∧
    UnitManager.OrderIndependent (.reaping 2000) probed [(10, .failure 1), (11, .success)] := by
  refine ⟨by decide +kernel, (UnitManager.orderIndependent_iff reachable_probed
    reaped_probed).mpr ⟨?_, ?_⟩⟩
  · intro u rt e e' hrt _ he' _ hq ho
    obtain ⟨-, -, h11, -, -⟩ := get_probed hrt
    rcases List.mem_pair.mp he' with rfl | rfl
    · cases h11.symm.trans hq
    · exact absurd rfl ho
  · intro r u rt _ hfails
    exfalso
    obtain ⟨d, hd, -⟩ := TransGen.head'_iff.mp hfails
    obtain ⟨x, rt', hrt', hreq, -⟩ := UnitManager.mem_requiresDependents.mp hd.1
    rw [← UnitManager.get, UnitManager.get_decidedAll] at hrt'
    obtain ⟨rt, hrt, rfl⟩ := Option.map_eq_some_iff.mp hrt'
    rw [UnitManager.decided_config, (get_probed hrt).2.2.2.2] at hreq
    cases hreq

/-- The process and its failed probe in one batch : the crash is followed by a restart, or the
unit is left inactive. -/
theorem not_orderIndependent_probe : Reachable probed ∧
    Reaped (.reaping 2000) probed [(10, .failure 1), (11, .failure 1)] ∧
    ((probed.reapAll (.reaping 2000) [(10, .failure 1), (11, .failure 1)]).get serviceA).any
      (fun rt => rt.state = .restartWait && rt.restartAt.isSome) = true ∧
    ((probed.reapAll (.reaping 2000) [(11, .failure 1), (10, .failure 1)]).get serviceA).any
      (fun rt => rt.state = .inactive && rt.restartAt.isNone) = true ∧
    ¬UnitManager.OrderIndependent (.reaping 2000) probed [(10, .failure 1), (11, .failure 1)] := by
  have hrestart : ((probed.reapAll (.reaping 2000) [(10, .failure 1), (11, .failure 1)]).get
      serviceA).any (fun rt => rt.state = .restartWait && rt.restartAt.isSome) = true := by
    decide +kernel
  have hlost : ((probed.reapAll (.reaping 2000) [(11, .failure 1), (10, .failure 1)]).get
      serviceA).any (fun rt => rt.state = .inactive && rt.restartAt.isNone) = true := by
    decide +kernel
  refine ⟨reachable_probed, reaped_probed, hrestart, hlost, fun h => ?_⟩
  obtain ⟨rt, hrt, -⟩ := (Option.any_eq_true _ _).mp
    (show (probed.get serviceA).any (fun _ => true) = true by decide +kernel)
  have hsame := (h [(11, .failure 1), (10, .failure 1)] (List.Perm.swap _ _ []) serviceA rt hrt).1
  obtain ⟨rt₁, hrt₁, hst₁⟩ := (Option.any_eq_true _ _).mp hrestart
  obtain ⟨rt₂, hrt₂, hst₂⟩ := (Option.any_eq_true _ _).mp hlost
  rw [hrt₁, hrt₂] at hsame
  have hstate := (Prod.mk.inj (Option.some.inj hsame)).1
  simp only [Bool.and_eq_true, decide_eq_true_eq] at hst₁ hst₂
  rw [hst₁.1, hst₂.1] at hstate
  cases hstate

end Rinit
