import Rinit.Stops

/-!
# Accepted restarts

`restartUnit` stops a unit with the intention to start it again, and answers that it is
stopping. `restartKept_iff` : the restart is carried out, whatever happens that does not name
the unit, exactly when the unit had a process. The exit of the process schedules the restart
or trips the breaker. A unit without a process is stopped for what is left in its cgroup, and
the deadline of such a stop leaves it inactive (`not_restartKept_leftovers`). Every stop
without a process has such a deadline (`Reachable.bounded`).
-/

namespace Rinit

open Relation

variable {k : Kernel} {m m' : UnitManager} {u : UnitName} {op : Op} {rt rt' : UnitRuntime}

/-! ## Stops without a process -/

namespace UnitRuntime

theorem stop_of_deactivating (cg : Cgroup) (h : rt.state = .deactivating) :
    (rt.stop k cg u).val = rt := by
  unfold stop
  rw [if_pos h]
  rfl

/-- A stop that finds no process to signal sets a deadline. -/
theorem stop_killAt (cg : Cgroup) (hs : rt.state ≠ .deactivating)
    (hd : (rt.stop k cg u).val.state = .deactivating) (hp : (rt.stop k cg u).val.pid = none) :
    (rt.stop k cg u).val.killAt.isSome = true := by
  cases hpid : rt.pid with
  | none =>
    have hstop : rt.stop k cg u = rt.quiesce k >>= fun rt => rt.stopLeftovers k cg u := by
      unfold stop
      rw [if_neg hs]
      change (⟨_, _⟩ : Traced UnitRuntime) = ⟨_, _⟩
      simp only [quiesce_val, show rt.quiet.pid = none from hpid]
    rw [hstop, Traced.bind_val] at hd ⊢
    unfold stopLeftovers at hd ⊢
    split at hd
    · cases hd
    · next hmembers =>
      rw [if_neg hmembers, Traced.bind_val]
      dsimp only
      split <;> rfl
  | some pid =>
    -- a delivered stop keeps the process, and no other leaves a stop under way
    have hstop := rt.stopped_stop k cg u
    generalize (rt.stop k cg u).val = r at hstop hd hp
    cases hstop with
    | busy h => exact absurd h hs
    | gone => cases hd
    | delivered => exact nomatch hpid.symm.trans hp
    | refused => exact absurd hd hs

theorem startTimeout_of_ne (cg : Cgroup) (h : rt.state ≠ .starting) :
    (rt.startTimeout k cg u).val.1 = { rt with startDeadline := none } := by
  unfold startTimeout
  rw [if_pos h]
  rfl

/-- The deadline of a stop without a process ends it. -/
theorem kill_of_gone (cg : Cgroup) (hd : rt.state = .deactivating) (hp : rt.pid = none) :
    (rt.kill k cg u).val.1 =
      if rt.killAt.any (· ≤ k.now) then
        { rt with killAt := none, execStopPid := none, group := none, state := .inactive }
      else rt := by
  unfold kill
  by_cases ht : rt.killAt.any (· ≤ k.now) = true
  · rw [if_pos ht, if_pos ht]
    simp [hd, hp]
  · rw [if_neg ht, if_neg ht]
    rfl

end UnitRuntime

/-- A stop without a process has a deadline. -/
def Bounded (rt : UnitRuntime) : Prop :=
  rt.state = .deactivating → rt.pid = none → rt.killAt.isSome = true

theorem bounded_of_ne (h : rt.state ≠ .deactivating) : Bounded rt := fun hd => absurd hd h

theorem bounded_stop (cg : Cgroup) (h : Bounded rt) : Bounded (rt.stop k cg u).val := by
  by_cases hs : rt.state = .deactivating
  · rwa [rt.stop_of_deactivating cg hs]
  · exact rt.stop_killAt cg hs

theorem bounded_touch (ht : Touch k m u op rt rt') (h : Bounded rt) : Bounded rt' := by
  cases ht with
  | @redefine config inFlight =>
    obtain ⟨_, _, _, heq, -⟩ := rt.redefine_eq config inFlight
    exact heq ▸ h
  | adopt =>
    rcases rt.adoptPendingConfig_eq with heq | ⟨_, _, -, -, heq⟩ <;> rw [heq] <;> exact h
  | retire | restartFlag | clearStartLimit | compress | capStartDeadline | noteConnection =>
    exact h
  | settle | conflictSettle =>
    rcases rt.settle_eq .stopped with heq | ⟨heq, -⟩ <;> rw [heq]
    · exact h
    · exact bounded_of_ne (by simp)
  | stop | restartStop | conflictStop => exact bounded_stop m.cgroup h
  | resetFailed =>
    intro hd hp
    by_cases hf : rt.state.isFailed = true
    · simp [UnitRuntime.resetFailed, hf] at hd
    · exact h (by simpa [UnitRuntime.resetFailed, hf] using hd) hp
  | failStart | failTarget | failExit =>
    refine bounded_of_ne fun hd => ?_
    have hf := UnitManager.failOwn_isFailed k m.cgroup u rt
    rw [hd] at hf
    cases hf
  | dragDown =>
    unfold UnitRuntime.dragDown
    split
    · exact h
    · exact bounded_of_ne (by simp)
  | reachTarget => exact bounded_of_ne (by simp)
  | beginSpawn =>
    have hs := rt.spawned_beginSpawn k m.cgroup u
    generalize (rt.beginSpawn k m.cgroup u).val.1 = rt' at hs
    cases hs with
    | running | kept => exact h
    | noProcess => exact bounded_of_ne (by simp)
    | spawned _ _ _ hst => exact bounded_of_ne (by rcases hst with hst | hst <;> simp [hst])
  | onNotify message =>
    rcases rt.onNotify_eq k message with ⟨_, heq⟩ | ⟨-, _, _, _, _, hst, heq⟩ <;> rw [heq]
    · exact h
    · exact bounded_of_ne (by rcases hst with rfl | rfl <;> simp)
  | finishProbe outcome =>
    have hs := rt.probed_finishProbe k m.cgroup u outcome
    generalize (rt.finishProbe k m.cgroup u outcome).val = rt' at hs
    cases hs with
    | noted => exact h
    | stopping hp =>
      intro _ hn
      rw [show rt.pid = none from hn] at hp
      cases hp
    | gone => exact bounded_of_ne (by simp)
  | execStopExit outcome => rwa [UnitRuntime.execStopExit_val]
  | daemonStarted =>
    exact bounded_of_ne (by simp [UnitRuntime.markDaemonStarted, UnitRuntime.scheduleHealth])
  | @mainExit pid outcome =>
    have hs := rt.settled_mainExit k m.bootInProgress pid outcome
    generalize (rt.mainExit k m.bootInProgress pid outcome).val = r at hs
    cases hs with
    | state _ hd => exact bounded_of_ne hd
    | wait | limit => exact bounded_of_ne (by simp)
  | dueIdle =>
    obtain ⟨_, heq⟩ := rt.dueIdle_eq k
    exact heq ▸ h
  | startTimeout =>
    by_cases hs : rt.state = .starting
    · obtain ⟨_, _, heq⟩ := rt.startTimeout_eq k m.cgroup u
      exact heq ▸ bounded_of_ne (by simp [hs])
    · rw [rt.startTimeout_of_ne m.cgroup hs]
      exact h
  | kill =>
    by_cases hd : rt.state = .deactivating ∧ rt.pid = none
    · rw [rt.kill_of_gone m.cgroup hd.1 hd.2]
      split
      · exact bounded_of_ne (by simp)
      · exact h
    · rcases rt.kill_eq k m.cgroup u with ⟨_, _, heq⟩ | ⟨hs, hp, -⟩
      · exact heq ▸ fun hs hp => absurd ⟨hs, hp⟩ hd
      · exact absurd ⟨hs, hp⟩ hd
  | healthProbe =>
    obtain ⟨_, _, _, heq, -⟩ := rt.healthProbe_eq k u
    exact heq ▸ h
  | probeTimeout =>
    obtain ⟨_, heq⟩ := rt.probeTimeout_eq k
    exact heq ▸ h
  | dueRestart =>
    obtain ⟨_, heq, -⟩ := rt.dueRestart_eq k
    exact heq ▸ h

theorem Reachable.bounded (h : Reachable m) (hrt : m.get u = some rt) : Bounded rt :=
  h.inv (P := fun _ rt => Bounded rt) (fun _ _ _ _ hd => by cases hd)
    (fun _ _ _ _ _ _ _ ht => bounded_touch ht) u rt hrt

/-! ## What a restart leaves behind -/

/-- A request that names `u`. -/
def Op.Names (u : UnitName) : Op → Prop
  | .requestStart v _ | .requestStop v _ | .stopUnit v | .restartUnit v | .resetFailed v
  | .retire v | .instantiate v => v = u
  | _ => False

/-- A restart that is stopping leaves the unit on its way down, and meant to come back. -/
theorem restartUnit_stopping (h : m.restartUnit k u = (m', .stopping)) :
    ∃ rt rt', m.get u = some rt ∧ m'.get u = some rt' ∧ rt'.state = .deactivating ∧
      rt'.restartAfterStop = true ∧ rt'.pid = rt.pid := by
  unfold UnitManager.restartUnit at h
  split at h
  · cases h
  · next rt hrt =>
    have hstopped (h : (if (m.stopUnit k u).isDeactivating u then
        ((m.stopUnit k u).modify u fun rt => { rt with restartAfterStop := true },
          RestartPlan.stopping)
        else (m.stopUnit k u, .start)) = (m', .stopping)) :
        ∃ rt rt', m.get u = some rt ∧ m'.get u = some rt' ∧ rt'.state = .deactivating ∧
          rt'.restartAfterStop = true ∧ rt'.pid = rt.pid := by
      have hget : (m.stopUnit k u).get u = some (rt.stop k m.cgroup u).val := by
        rw [UnitManager.stopUnit, UnitManager.get_update, if_pos rfl, hrt, Option.map_some]
      split at h
      · next hd =>
        rw [UnitManager.isDeactivating, hget, Option.any_some, decide_eq_true_eq] at hd
        obtain rfl := (Prod.ext_iff.mp h).1
        refine ⟨rt, { (rt.stop k m.cgroup u).val with restartAfterStop := true }, hrt, ?_, hd,
          rfl, ?_⟩
        · rw [UnitManager.get_modify, if_pos rfl, hget, Option.map_some]
        · have hs := rt.stopped_stop k m.cgroup u
          generalize (rt.stop k m.cgroup u).val = r at hs hd
          cases hs with
          | busy | delivered => rfl
          | gone => cases hd
          | refused hne => exact absurd hd hne
      · cases h
    split at h
    · cases h
    · cases h
    · cases h
    all_goals exact hstopped h

/-- Whatever does not name a unit that is being restarted and is no exit leaves the restart
standing, or takes the unit off its way down. -/
theorem restarting_touch (hn : ¬op.Names u) (hexit : ∀ pid outcome, op ≠ .onChildExit pid outcome)
    (ht : Touch k m u op rt rt') (h : Restarting rt) :
    Restarting rt' ∨ rt'.state ≠ .deactivating ∧ ∀ v, op ≠ .stopConflicts v := by
  obtain ⟨hd, hf, hp⟩ := h
  have hgone (hp' : rt.pid = none) : False := by simp [hp'] at hp
  cases ht with
  | retire | settle | stop | restartStop | restartFlag | resetFailed => exact absurd rfl hn
  | finishProbe | execStopExit | daemonStarted | mainExit | failExit => exact absurd rfl (hexit _ _)
  | @redefine config inFlight =>
    obtain ⟨_, _, _, heq, -⟩ := rt.redefine_eq config inFlight
    exact .inl (heq ▸ ⟨hd, hf, hp⟩)
  | adopt =>
    rcases rt.adoptPendingConfig_eq with heq | ⟨_, _, -, -, heq⟩ <;> rw [heq] <;>
      exact .inl ⟨hd, hf, hp⟩
  | conflictSettle =>
    refine .inl ?_
    rcases rt.settle_eq .stopped with heq | ⟨-, hs⟩
    · rw [heq]
      exact ⟨hd, hf, hp⟩
    · rw [hd] at hs
      simp [UnitState.isFailed] at hs
  | conflictStop =>
    rw [rt.stop_of_deactivating m.cgroup hd]
    exact .inl ⟨hd, hf, hp⟩
  | clearStartLimit | compress | capStartDeadline | noteConnection => exact .inl ⟨hd, hf, hp⟩
  | failStart | failTarget =>
    refine .inr ⟨fun hd' => ?_, by simp⟩
    have hfailed := UnitManager.failOwn_isFailed k m.cgroup u rt
    rw [hd'] at hfailed
    cases hfailed
  | dragDown _ _ _ _ hp' => exact (hgone hp').elim
  | reachTarget => exact .inr (by simp)
  | beginSpawn =>
    have hs := rt.spawned_beginSpawn k m.cgroup u
    generalize (rt.beginSpawn k m.cgroup u).val.1 = rt' at hs
    cases hs with
    | running => exact .inl ⟨hd, hf, hp⟩
    | kept hp' | noProcess hp' | spawned hp' => exact (hgone hp').elim
  | onNotify message =>
    rcases rt.onNotify_eq k message with ⟨_, heq⟩ | ⟨hs, -⟩
    · exact .inl (heq ▸ ⟨hd, hf, hp⟩)
    · cases hd.symm.trans hs
  | dueIdle =>
    obtain ⟨_, heq⟩ := rt.dueIdle_eq k
    exact .inl (heq ▸ ⟨hd, hf, hp⟩)
  | startTimeout =>
    obtain ⟨_, _, heq⟩ := rt.startTimeout_eq k m.cgroup u
    exact .inl (heq ▸ ⟨hd, hf, hp⟩)
  | kill =>
    rcases rt.kill_eq k m.cgroup u with ⟨_, _, heq⟩ | ⟨-, hp', -⟩
    · exact .inl (heq ▸ ⟨hd, hf, hp⟩)
    · exact (hgone hp').elim
  | healthProbe =>
    obtain ⟨_, _, _, heq, -⟩ := rt.healthProbe_eq k u
    exact .inl (heq ▸ ⟨hd, hf, hp⟩)
  | probeTimeout =>
    obtain ⟨_, heq⟩ := rt.probeTimeout_eq k
    exact .inl (heq ▸ ⟨hd, hf, hp⟩)
  | dueRestart =>
    obtain ⟨_, heq, -⟩ := rt.dueRestart_eq k
    exact .inl (heq ▸ ⟨hd, hf, hp⟩)

/-- Nothing else puts a unit on its way down. -/
theorem notDeactivating_touch (hn : ¬op.Names u)
    (hexit : ∀ pid outcome, op ≠ .onChildExit pid outcome) (hc : ∀ v, op ≠ .stopConflicts v)
    (ht : Touch k m u op rt rt') (h : rt.state ≠ .deactivating) : rt'.state ≠ .deactivating := by
  cases move_of_touch ht with
  | quiet hs => rwa [hs]
  | settled _ _ hs | cleared _ _ hs | reached _ _ hs | noProcess _ _ hs | killed _ _ _ hs => simp [hs]
  | spawned _ _ _ hs | ready _ hs => rcases hs with hs | hs <;> simp [hs]
  | failed _ _ hs | dragged _ _ _ _ _ hs =>
    intro hd
    rw [hd] at hs
    cases hs
  | stopped hop =>
    rcases hop with rfl | ⟨rfl, -⟩ | ⟨⟨v, rfl⟩, -⟩
    · exact absurd rfl hn
    · exact absurd rfl hn
    · exact absurd rfl (hc v)
  | flagged hop =>
    subst hop
    exact absurd rfl hn
  | unhealthy hop | daemon hop | exited hop | waiting hop => exact absurd hop (hexit _ _)

/-- The restart is scheduled, or the breaker forbids it. -/
structure Landed (rt : UnitRuntime) : Prop where
  pid : rt.pid = none
  probePid : rt.probePid = none
  flag : rt.restartAfterStop = false
  state : rt.state = .restartWait ∧ rt.restartAt.isSome = true ∨ rt.state = .failed .startLimitHit

theorem landed_mainExit (boot : Bool) (pid : Pid) (outcome : ExitOutcome) (h : Restarting rt) :
    Landed (rt.mainExit k boot pid outcome).val.1 := by
  have hsettle : (rt.mainExit k boot pid outcome).val =
      UnitRuntime.scheduleRestart k false { rt.reaped outcome with restartAfterStop := false } := by
    rw [UnitRuntime.mainExit_val]
    unfold UnitRuntime.settleExit
    rw [if_pos (show (rt.reaped outcome).state = .deactivating from h.1),
      if_pos (show (rt.reaped outcome).restartAfterStop = true from h.2.1)]
  rw [hsettle]
  rcases UnitRuntime.scheduleRestart_eq k
    { rt.reaped outcome with restartAfterStop := false } false with
    ⟨_, _, _, h⟩ | ⟨_, _, h⟩ <;> rw [h]
  · exact ⟨rfl, rfl, rfl, .inl ⟨rfl, rfl⟩⟩
  · exact ⟨rfl, rfl, rfl, .inr rfl⟩

/-- An exit leaves the restart standing or carries it out. -/
theorem landed_touch {pid : Pid} {outcome : ExitOutcome} {rt₀ : UnitRuntime}
    (hrt : m.get u = some rt₀) (hp₀ : rt₀.pid.isSome = true)
    (ht : Touch k m u (.onChildExit pid outcome) rt rt')
    (h : Restarting rt ∧ rt.probePid = none ∨ Landed rt) :
    Restarting rt' ∧ rt'.probePid = none ∨ Landed rt' := by
  cases ht with
  | dragDown _ _ _ hrt' hp' =>
    obtain rfl := Option.some.inj (hrt.symm.trans hrt')
    simp [hp'] at hp₀
  | finishProbe _ hprobe =>
    rcases h with ⟨-, hnone⟩ | h
    · exact nomatch hnone.symm.trans hprobe
    · exact nomatch h.probePid.symm.trans hprobe
  | execStopExit =>
    rw [UnitRuntime.execStopExit_val]
    exact h.imp id fun h => ⟨h.pid, h.probePid, h.flag, h.state⟩
  | daemonStarted hp' hd =>
    rcases h with ⟨⟨hs, -⟩, -⟩ | h
    · simp [UnitManager.forkedDaemon, UnitManager.forks, hs] at hd
    · exact nomatch h.pid.symm.trans hp'
  | mainExit _ hp' =>
    rcases h with ⟨h, -⟩ | h
    · exact .inr (landed_mainExit _ _ _ h)
    · exact nomatch h.pid.symm.trans hp'
  | failExit hf =>
    rcases h with ⟨⟨hs, -⟩, -⟩ | h
    · rw [hs] at hf
      cases hf
    · rw [UnitRuntime.failOwn_val, if_pos hf]
      refine .inr ⟨h.pid, h.probePid, h.flag, h.state.imp (fun ⟨hs, _⟩ => ?_) id⟩
      rw [hs] at hf
      cases hf

/-! ## Runs after a restart -/

/-- Nothing names `u`, and `u` is still on its way down afterwards. -/
def LeavesBe (u : UnitName) (k : Kernel) (m : UnitManager) (op : Op) : Prop :=
  ¬op.Names u ∧ (m.apply k op).isDeactivating u = true

/-- The restart of `u` is carried out : in every run that does not name `u`, the exit or the
deadline that ends the stop leaves `u` waiting for its restart, or failed at the breaker. -/
def RestartKept (m : UnitManager) (u : UnitName) : Prop :=
  ∀ m₁ k op, Guarded (LeavesBe u) m m₁ →
    (op = .dueKills ∨ ∃ pid outcome, op = .onChildExit pid outcome) →
    (m₁.apply k op).isDeactivating u = false →
    ∃ rt, (m₁.apply k op).get u = some rt ∧ rt.restartAfterStop = false ∧
      (rt.state = .restartWait ∧ rt.restartAt.isSome = true ∨ rt.state = .failed .startLimitHit)

/-- Whatever does not name the unit touches it, if it is up. -/
theorem touches_of_not_names (hn : ¬op.Names u) (hrt : m.get u = some rt)
    (hp : rt.pid.isSome = true) :
    ∃ rt', (m.apply k op).get u = some rt' ∧ ReflTransGen (Touch k m u op) rt rt' := by
  rcases UnitManager.apply_cases k m op with ⟨v, config, hmk, hget⟩ | rfl | ht
  · have hne : v ≠ u := by
      rintro rfl
      cases hmk with
      | add _ _ h | requestStart _ _ h | requestStop _ _ h => exact nomatch hrt.symm.trans h
      | instantiate => exact hn rfl
    exact ⟨rt, by rw [hget, if_neg hne, hrt], .refl⟩
  · refine ⟨rt, ?_, .refl⟩
    change m.pruneRetired.1.get u = _
    rw [UnitManager.get_pruneRetired, hrt, Option.filter_some, if_pos]
    simp [UnitRuntime.prunable, UnitRuntime.isUp, hp]
  · exact ht.get_of_some hrt

theorem restarting_apply (hm : Reachable m) (hrt : m.get u = some rt) (hr : Restarting rt)
    (hs : LeavesBe u k m op) : ∃ rt', (m.apply k op).get u = some rt' ∧ Restarting rt' := by
  obtain ⟨hn, hd⟩ := hs
  obtain ⟨rt', hrt', hsteps⟩ := touches_of_not_names (k := k) hn hrt hr.2.2
  rw [UnitManager.isDeactivating, hrt', Option.any_some, decide_eq_true_eq] at hd
  refine ⟨rt', hrt', ?_⟩
  by_cases hexit : ∃ pid outcome, op = .onChildExit pid outcome
  · obtain ⟨pid, outcome, rfl⟩ := hexit
    have hland : Restarting rt' ∧ rt'.probePid = none ∨ Landed rt' := by
      clear hrt' hd
      induction hsteps with
      | refl => exact .inl ⟨hr, hm.probing hrt hr.2.2 (by simp [hr.1])⟩
      | tail _ ht ih => exact landed_touch hrt hr.2.2 ht ih
    rcases hland with ⟨h, -⟩ | h
    · exact h
    · rcases h.state with ⟨hs, -⟩ | hs
      · cases hd.symm.trans hs
      · cases hd.symm.trans hs
  · have hexit : ∀ pid outcome, op ≠ .onChildExit pid outcome :=
      fun pid outcome h => hexit ⟨pid, outcome, h⟩
    have hkept : Restarting rt' ∨ rt'.state ≠ .deactivating ∧ ∀ v, op ≠ .stopConflicts v := by
      clear hrt' hd
      induction hsteps with
      | refl => exact .inl hr
      | tail _ ht ih =>
        rcases ih with ih | ⟨ih, hc⟩
        · exact restarting_touch hn hexit ht ih
        · exact .inr ⟨notDeactivating_touch hn hexit hc ht ih, hc⟩
    exact hkept.resolve_right fun h => h.1 hd

/-- An accepted restart is carried out, exactly when the unit has a process. -/
theorem restartKept_iff (hm : Reachable m) (hr : m.restartUnit k u = (m', .stopping)) :
    RestartKept m' u ↔ m.isRunning u = true := by
  have hm' : Reachable m' := by
    have h := Reachable.step k (.restartUnit u) hm trivial
    rwa [UnitManager.apply, hr] at h
  obtain ⟨rt, rt', hrt, hrt', hd, hf, hp⟩ := restartUnit_stopping hr
  rw [UnitManager.isRunning, hrt, Option.any_some]
  constructor
  · intro h
    by_contra hnone
    have hgone : rt'.pid = none := by rw [hp]; simpa using hnone
    obtain ⟨deadline, hdeadline⟩ := Option.isSome_iff_exists.mp (hm'.bounded hrt' hd hgone)
    have hkill : (m'.apply (.granting deadline 10) .dueKills).get u =
        some { rt' with killAt := none, execStopPid := none, group := none, state := .inactive } := by
      rw [UnitManager.apply, UnitManager.dueKills, UnitManager.get_pass, hrt', Option.map_some,
        rt'.kill_of_gone m'.cgroup hd hgone, if_pos]
      simp [hdeadline, Kernel.granting]
    obtain ⟨rt₁, hrt₁, -, hstate⟩ := h m' (.granting deadline 10) .dueKills .refl (.inl rfl)
      (by rw [UnitManager.isDeactivating, hkill]; rfl)
    obtain rfl := Option.some.inj (hkill.symm.trans hrt₁)
    rcases hstate with ⟨hs, -⟩ | hs <;> cases hs
  · intro hpid m₁ k₁ op hrun hop hleft
    have hstands : ∃ rt₁, m₁.get u = some rt₁ ∧ Restarting rt₁ := by
      clear hleft
      induction hrun with
      | refl => exact ⟨rt', hrt', hd, hf, by rw [hp]; exact hpid⟩
      | tail hrun hstep ih =>
        obtain ⟨k₂, op₂, -, hs, rfl⟩ := hstep
        obtain ⟨rt₁, hrt₁, hr₁⟩ := ih
        exact restarting_apply (Guarded.reachable hrun hm') hrt₁ hr₁ hs
    obtain ⟨rt₁, hrt₁, hr₁⟩ := hstands
    have hm₁ := Guarded.reachable hrun hm'
    rcases hop with rfl | ⟨pid, outcome, rfl⟩
    · -- a deadline only signals a unit that has a process
      exfalso
      have hkill : (m₁.apply k₁ .dueKills).get u = some (rt₁.kill k₁ m₁.cgroup u).val.1 := by
        rw [UnitManager.apply, UnitManager.dueKills, UnitManager.get_pass, hrt₁, Option.map_some]
      rw [UnitManager.isDeactivating, hkill, Option.any_some, decide_eq_false_iff_not] at hleft
      rcases rt₁.kill_eq k₁ m₁.cgroup u with ⟨_, _, heq⟩ | ⟨-, hp', -⟩
      · exact hleft (heq ▸ hr₁.1)
      · exact absurd hr₁.2.2 (by simp [hp'])
    · obtain ⟨rt₂, hrt₂, hsteps⟩ := touches_of_not_names (k := k₁)
        (by simp [Op.Names] : ¬(Op.onChildExit pid outcome).Names u) hrt₁ hr₁.2.2
      have hland : Restarting rt₂ ∧ rt₂.probePid = none ∨ Landed rt₂ := by
        clear hrt₂ hleft
        induction hsteps with
        | refl => exact .inl ⟨hr₁, hm₁.probing hrt₁ hr₁.2.2 (by simp [hr₁.1])⟩
        | tail _ ht ih => exact landed_touch hrt₁ hr₁.2.2 ht ih
      rw [UnitManager.isDeactivating, hrt₂, Option.any_some, decide_eq_false_iff_not] at hleft
      have h := hland.resolve_left fun h => hleft h.1.1
      exact ⟨rt₂, hrt₂, h.flag, h.state⟩

/-! ## Concrete runs -/

/-- The restart of a service that is up is carried out. -/
theorem restartKept_up : up.isRunning serviceA = true ∧
    (up.restartUnit (.granting 1 10) serviceA).2 = .stopping ∧
    RestartKept (up.restartUnit (.granting 1 10) serviceA).1 serviceA :=
  ⟨by decide, by decide,
    (restartKept_iff reachable_up (Prod.ext rfl (by decide))).mpr (by decide)⟩

/-- A service that is restarted whenever it exits, and has a cgroup. -/
def waitingUp : UnitManager :=
  ({} : UnitManager).apply (.granting 0 10) (.setCgroup (some "/sys/fs/cgroup"))
    |>.apply (.granting 0 10)
      (.addWithInFlight { UnitConfig.new serviceA with restart := .always } false)
    |>.apply (.granting 0 10) (.beginSpawnUnit serviceA)

/-- Its process exited, and it waits for its restart. -/
def waitingDown : UnitManager := waitingUp.apply (.granting 1 10) (.onChildExit 10 (.failure 1))

theorem reachable_waitingDown : Reachable waitingDown :=
  .step _ _ (.step _ _ (.step _ _ (.step _ _ .new trivial) rfl) trivial) trivial

/-- A process of the service is left in its cgroup. -/
def leftover (now : ℕ) : Kernel :=
  { Kernel.granting now 10 with cgroupProcesses := fun _ => some [20] }

/-- The service is restarted while a process is left in its cgroup. -/
def leftoverRestarted : UnitManager := (waitingDown.restartUnit (leftover 2) serviceA).1

/-- The restart is accepted, and the deadline of the stop leaves the service inactive. -/
theorem not_restartKept_leftovers : Reachable waitingDown ∧
    (waitingDown.restartUnit (leftover 2) serviceA).2 = .stopping ∧
    ((leftoverRestarted.dueKills (leftover 1000000)).1.get serviceA).map
      (fun rt => (rt.state, rt.restartAt, rt.restartAfterStop)) = some (.inactive, none, true) ∧
    ¬RestartKept leftoverRestarted serviceA := by
  have hkill : ((leftoverRestarted.apply (leftover 1000000) .dueKills).get serviceA).map
      (fun rt => (rt.state, rt.restartAt, rt.restartAfterStop)) = some (.inactive, none, true) := by
    decide
  refine ⟨reachable_waitingDown, by decide, hkill, fun h => ?_⟩
  obtain ⟨rt, hrt, hflag, -⟩ := h leftoverRestarted (leftover 1000000) .dueKills .refl (.inl rfl)
    (by decide)
  rw [hrt, Option.map_some, Option.some.injEq, Prod.mk.injEq, Prod.mk.injEq] at hkill
  exact nomatch hflag.symm.trans hkill.2.2

end Rinit
