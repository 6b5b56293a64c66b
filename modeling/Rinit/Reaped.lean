import Rinit.Life

/-!
# What a failure and an exit do to each unit

The touches say what an operation may do to a unit. Where it matters which unit an exit is
taken for, `ExitChange` says it exactly : the unit whose probe, stop command or main process
has exited is changed by that, the units a failure drags down are changed by the failure, and
no other unit is changed.
-/

namespace Rinit.UnitManager

open Relation

variable {k : Kernel} {m : UnitManager} {u v root : UnitName} {rt : UnitRuntime}

/-- A start that failed changes its own unit and drags down what requires it. -/
theorem get_failStart (k : Kernel) (root : UnitName) (h : m.get v = some rt) :
    v = root ∧ (m.failStart k root).1.get v = some (rt.failOwn k m.cgroup v).val ∨
    v ≠ root ∧ ((m.failStart k root).1.get v = some rt ∨ Fails m.units root v ∧ rt.pid = none ∧
      (m.failStart k root).1.get v = some rt.dragDown) := by
  have hget := get_cascade (m.update root (·.failOwn k m.cgroup root)) root v
    fun _ => isFailed_of_failOwn
  have hupdate := get_update m root v (·.failOwn k m.cgroup root)
  rw [failStart, hget]
  by_cases hv : v = root
  · subst hv
    rw [if_pos rfl, h, Option.map_some] at hupdate
    refine .inl ⟨rfl, ?_⟩
    split
    · rw [hupdate, Option.map_some, dragDown_of_isFailed (failOwn_isFailed ..)]
    · exact hupdate
  · rw [if_neg (Ne.symm hv), h] at hupdate
    refine .inr ⟨hv, ?_⟩
    split
    · next hfails =>
      have hagree : Fails m.units root v := by
        refine hfails.of_agree (fun y hy => ?_) ?_ hv
        · rw [← get, get_update, if_neg (Ne.symm hy)]
          rfl
        · rw [← get, get_update, if_pos rfl]
          change Option.map _ (Option.map _ (m.get root)) = Option.map _ (m.get root)
          cases m.get root with
          | none => rfl
          | some rt => exact congrArg some (failOwn_config ..)
      obtain ⟨rt', hrt', hp⟩ := hagree.exists_rt
      obtain rfl := Option.some.inj (h.symm.trans hrt')
      exact .inr ⟨hagree, hp, by rw [hupdate, Option.map_some]⟩
    · exact .inl hupdate

/-- What the exit of `pid` does to `v`. -/
inductive ExitChange (k : Kernel) (m : UnitManager) (pid : Pid) (outcome : ExitOutcome)
    (v : UnitName) (rt : UnitRuntime) : UnitRuntime → Prop
  | same : ExitChange k m pid outcome v rt rt
  | probe (h : m.probeOwner pid = some v) (hp : rt.probePid = some pid) :
    ExitChange k m pid outcome v rt (rt.finishProbe k m.cgroup v outcome).val
  | stopCommand (h : m.execStopOwner pid = some v) (hp : rt.execStopPid = some pid) :
    ExitChange k m pid outcome v rt (rt.execStopExit k m.cgroup v outcome).val
  | daemon (h : m.ExitsMain pid v) (hp : rt.pid = some pid) {daemon : Pid}
    (hd : m.forkedDaemon k v rt outcome = some daemon) :
    ExitChange k m pid outcome v rt (rt.markDaemonStarted k daemon)
  | settled (h : m.ExitsMain pid v) (hp : rt.pid = some pid)
    (hd : m.forkedDaemon k v rt outcome = none)
    (hf : (rt.mainExit k m.bootInProgress pid outcome).val.2.fails = false) :
    ExitChange k m pid outcome v rt (rt.mainExit k m.bootInProgress pid outcome).val.1
  | failed (h : m.ExitsMain pid v) (hp : rt.pid = some pid)
    (hd : m.forkedDaemon k v rt outcome = none)
    (hf : (rt.mainExit k m.bootInProgress pid outcome).val.2.fails = true) :
    ExitChange k m pid outcome v rt
      ((rt.mainExit k m.bootInProgress pid outcome).val.1.failOwn k m.cgroup v).val
  | dragged {root : UnitName} (h : m.ExitsMain pid root) (hne : v ≠ root) (hp : rt.pid = none)
    {rt₀ : UnitRuntime} (hroot : m.get root = some rt₀)
    (hf : (rt₀.mainExit k m.bootInProgress pid outcome).val.2.fails = true)
    (hd : m.forkedDaemon k root rt₀ outcome = none)
    (hfails : Fails m.units root v) : ExitChange k m pid outcome v rt rt.dragDown

theorem exitChange_onMainExit {pid : Pid} {rt₀ : UnitRuntime} (hroot : m.get root = some rt₀)
    (hp : rt₀.pid = some pid) (ho : m.ExitsMain pid root) (outcome : ExitOutcome)
    (h : m.get v = some rt) : ∃ rt', (m.onMainExit k root rt₀ pid outcome).1.get v = some rt' ∧
      ExitChange k m pid outcome v rt rt' := by
  -- the entry that replaces the one of the root, and the others as they were
  have put (x : Traced UnitRuntime) (hx : v = root → ExitChange k m pid outcome v rt x.val) :
      ∃ rt', (m.put root x).get v = some rt' ∧ ExitChange k m pid outcome v rt rt' := by
    rw [get_put]
    by_cases hv : v = root
    · exact ⟨x.val, by rw [if_pos hv.symm], hx hv⟩
    · exact ⟨rt, by rw [if_neg (Ne.symm hv), h], .same⟩
  have own (hv : v = root) : rt₀ = rt := by
    subst hv
    exact Option.some.inj (hroot.symm.trans h)
  unfold onMainExit
  split
  · next daemon hd =>
    refine put _ fun hv => ?_
    obtain rfl := own hv
    subst hv
    exact .daemon ho hp hd
  · next hd =>
    dsimp only
    split
    · next hf =>
      let x : Traced UnitRuntime := ⟨(rt₀.mainExit k m.bootInProgress pid outcome).val.1,
        (rt₀.mainExit k m.bootInProgress pid outcome).calls⟩
      have hget := get_put m root v x
      by_cases hv : v = root
      · obtain rfl := own hv
        subst hv
        rw [if_pos rfl] at hget
        rcases get_failStart (m := m.put v x) k v hget with ⟨-, hfail⟩ | ⟨hne, -⟩
        · exact ⟨_, hfail, .failed ho hp hd hf⟩
        · exact absurd rfl hne
      · rw [if_neg (Ne.symm hv), h] at hget
        rcases get_failStart (m := m.put root x) k root hget with ⟨hv', -⟩ | ⟨-, hsame | ⟨hfails,
          hidle, hdrag⟩⟩
        · exact absurd hv' hv
        · exact ⟨rt, hsame, .same⟩
        · refine ⟨_, hdrag, .dragged ho hv hidle hroot hf hd ?_⟩
          refine hfails.of_agree (fun y hy => ?_) ?_ hv
          · rw [← get, get_put, if_neg (Ne.symm hy)]
            rfl
          · rw [← get, get_put, if_pos rfl]
            change some _ = Option.map _ (m.get root)
            rw [hroot]
            exact congrArg some (mainExit_config ..)
    · next hf =>
      refine put _ fun hv => ?_
      obtain rfl := own hv
      subst hv
      exact .settled ho hp hd (by simpa using hf)

/-- An exit changes the unit it is taken for and the units its failure drags down. -/
theorem exitChange_onChildExit (k : Kernel) (pid : Pid) (outcome : ExitOutcome)
    (h : m.get v = some rt) : ∃ rt', (m.onChildExit k pid outcome).1.get v = some rt' ∧
      ExitChange k m pid outcome v rt rt' := by
  have update {w : UnitName} {f : UnitRuntime → Traced UnitRuntime}
      (hf : w = v → ExitChange k m pid outcome v rt (f rt).val) :
      ∃ rt', (m.update w f).get v = some rt' ∧ ExitChange k m pid outcome v rt rt' := by
    rw [get_update]
    by_cases hv : w = v
    · subst hv
      exact ⟨_, by rw [if_pos rfl, h, Option.map_some], hf rfl⟩
    · exact ⟨rt, by rw [if_neg hv, h], .same⟩
  unfold onChildExit
  split
  · next w hw =>
    refine update fun hv => ?_
    subst hv
    obtain ⟨rt', hrt', hp⟩ := owner_eq_some hw
    obtain rfl := Option.some.inj (h.symm.trans hrt')
    exact .probe hw (by simpa using hp)
  · next hprobe =>
    split
    · next w hw =>
      refine update fun hv => ?_
      subst hv
      obtain ⟨rt', hrt', hp⟩ := owner_eq_some hw
      obtain rfl := Option.some.inj (h.symm.trans hrt')
      exact .stopCommand hw (by simpa using hp)
    · next hexec =>
      split
      · exact ⟨rt, h, .same⟩
      · next w hw =>
        split
        · exact ⟨rt, h, .same⟩
        · next rt₀ hrt₀ =>
          obtain ⟨rt', hrt', hp⟩ := ExitsMain.get ⟨hprobe, hexec, hw⟩
          obtain rfl := Option.some.inj (hrt₀.symm.trans hrt')
          exact exitChange_onMainExit hrt₀ hp ⟨hprobe, hexec, hw⟩ outcome h

end Rinit.UnitManager
