import Rinit.Acts
import Rinit.ReloadOrder

/-!
# Units that wait for a restart

A unit in `restartWait` is carried by its timer, and once the timer has fired by its start
flow. A flow gives up at its first turn when a stop of the unit is still on file, a unit whose
start is still busy after the spawn gets no new flow, and the timer of a tombstone is dropped :
each leaves the unit in `restartWait` for good. `unstranded_of_calm` : in every run of acts
without these, each unit in `restartWait` has an armed timer or a start in flight.
-/

namespace Rinit

open Relation

/-- The unit is in `restartWait`, and no timer is armed. -/
structure Bare (rt : UnitRuntime) : Prop where
  state : rt.state = .restartWait
  timer : rt.restartAt = none

/-! ## Operations -/

/-- A unit that waits for its restart has no process. -/
def WaitsIdle (rt : UnitRuntime) : Prop := rt.state = .restartWait → rt.pid = none

theorem waitsIdle_move {k : Kernel} {m : UnitManager} {u : UnitName} {op : Op}
    {rt rt' : UnitRuntime} (h : Move k m u op rt rt') (hi : WaitsIdle rt) : WaitsIdle rt' := by
  intro hw
  cases h with
  | quiet hs hp => exact hp.trans (hi (hs ▸ hw))
  | failed _ _ _ hp | noProcess _ _ _ hp | exited _ _ _ hp | waiting _ _ _ hp
  | dragged _ _ _ _ _ _ _ hp => exact hp
  | settled _ _ hs | cleared _ _ hs | reached _ _ hs | daemon _ _ _ hs | killed _ _ _ hs =>
    rw [hs] at hw
    cases hw
  | stopped _ _ hs =>
    rcases hs with ⟨-, hp⟩ | ⟨hs, -⟩
    · exact hp
    · rw [hs] at hw
      cases hw
  | flagged _ h hs =>
    rw [hs, h] at hw
    cases hw
  | spawned _ _ _ hs | ready _ hs => rcases hs with hs | hs <;> rw [hs] at hw <;> cases hw
  | unhealthy _ _ _ hs => rcases hs with ⟨hs, -⟩ | ⟨hs, -⟩ <;> rw [hs] at hw <;> cases hw

theorem Reachable.waitsIdle {m : UnitManager} (h : Reachable m) {u : UnitName} {rt : UnitRuntime}
    (hrt : m.get u = some rt) : WaitsIdle rt :=
  h.inv (P := fun _ rt => WaitsIdle rt) (fun _ _ _ _ hw => by cases hw)
    (fun _ _ _ _ _ _ _ ht => waitsIdle_move (move_of_touch ht)) u rt hrt

/-- The operations that leave the timers of waiting units alone. -/
def KeepsTimers : Op → Prop
  | .dueRestarts | .retire _ => False
  | _ => True

theorem bare_of_stop {k : Kernel} {cg : Cgroup} {u : UnitName} {rt : UnitRuntime}
    (hi : WaitsIdle rt) : ¬Bare (rt.stop k cg u).val := by
  intro hb
  have hs := rt.stopped_stop k cg u
  generalize (rt.stop k cg u).val = rt' at hs hb
  cases hs with
  | busy h => exact nomatch h.symm.trans hb.state
  | gone | delivered => exact nomatch hb.state
  | refused _ hp => simp [hi hb.state] at hp

/-- A unit is left waiting without a timer only when it was before. -/
theorem bare_of_touch {k : Kernel} {m : UnitManager} {u : UnitName} {op : Op}
    {rt rt' : UnitRuntime} (ht : Touch k m u op rt rt') (hk : KeepsTimers op) (hi : WaitsIdle rt)
    (hb : Bare rt') : Bare rt ∧ (rt.retired = false → rt'.retired = false) := by
  have same (hs : rt'.state = rt.state) (ht : rt'.restartAt = rt.restartAt)
      (hr : rt'.retired = rt.retired) : Bare rt ∧ (rt.retired = false → rt'.retired = false) :=
    ⟨⟨hs ▸ hb.state, ht ▸ hb.timer⟩, fun h => hr.trans h⟩
  have down (hf : rt'.state.isFailed = true) :
      Bare rt ∧ (rt.retired = false → rt'.retired = false) := by
    simp [hb.state, UnitState.isFailed] at hf
  cases ht with
  | redefine inFlight =>
    obtain ⟨_, _, _, heq, -⟩ := rt.redefine_eq _ inFlight
    rw [heq] at hb ⊢
    exact ⟨⟨hb.state, hb.timer⟩, fun _ => rfl⟩
  | retire => exact hk.elim
  | adopt =>
    rcases rt.adoptPendingConfig_eq with heq | ⟨_, _, -, -, heq⟩
    · exact same (by rw [heq]) (by rw [heq]) (by rw [heq])
    · exact same (by rw [heq]) (by rw [heq]) (by rw [heq])
  | settle | conflictSettle =>
    rcases rt.settle_eq .stopped with heq | ⟨heq, -⟩
    · exact same (by rw [heq]) (by rw [heq]) (by rw [heq])
    · rw [heq] at hb
      cases hb.state
  | stop | restartStop | conflictStop => exact absurd hb (bare_of_stop hi)
  | restartFlag | clearStartLimit | compress | capStartDeadline | noteConnection =>
    exact same rfl rfl rfl
  | resetFailed =>
    by_cases hf : rt.state.isFailed = true
    · have hs : rt.resetFailed.state = .inactive := if_pos hf
      cases hs.symm.trans hb.state
    · exact same (if_neg hf) rfl rfl
  | failStart | failTarget | failExit => exact down (UnitManager.failOwn_isFailed k m.cgroup u rt)
  | dragDown =>
    refine down ?_
    unfold UnitRuntime.dragDown
    split
    · next hf => exact hf
    · rfl
  | reachTarget | daemonStarted => cases hb.state
  | beginSpawn =>
    have hs := rt.spawned_beginSpawn k m.cgroup u
    generalize (rt.beginSpawn k m.cgroup u).val.1 = rt' at hs hb same
    cases hs with
    | running | kept => exact same rfl rfl rfl
    | noProcess => cases hb.state
    | spawned _ _ _ hst => rcases hst with hst | hst <;> cases hst.symm.trans hb.state
  | onNotify message =>
    rcases rt.onNotify_eq k message with ⟨_, heq⟩ | ⟨-, _, _, _, _, hst, heq⟩
    · exact same (by rw [heq]) (by rw [heq]) (by rw [heq])
    · rw [heq] at hb
      rcases hst with hst | hst <;> cases hst.symm.trans hb.state
  | finishProbe outcome =>
    have hs := rt.probed_finishProbe k m.cgroup u outcome
    generalize (rt.finishProbe k m.cgroup u outcome).val = rt' at hs hb same
    cases hs with
    | noted => exact same rfl rfl rfl
    | stopping | gone => cases hb.state
  | execStopExit =>
    rw [UnitRuntime.execStopExit_val] at hb ⊢
    exact ⟨⟨hb.state, hb.timer⟩, id⟩
  | @mainExit pid outcome =>
    have hs := rt.settled_mainExit k m.bootInProgress pid outcome
    generalize (rt.mainExit k m.bootInProgress pid outcome).val = r at hs hb
    cases hs with
    | state h => exact absurd hb.state h
    | wait => cases hb.timer
    | limit => cases hb.state
  | dueIdle =>
    obtain ⟨_, heq⟩ := rt.dueIdle_eq k
    exact same (by rw [heq]) (by rw [heq]) (by rw [heq])
  | startTimeout =>
    obtain ⟨_, _, heq⟩ := rt.startTimeout_eq k m.cgroup u
    exact same (by rw [heq]) (by rw [heq]) (by rw [heq])
  | kill =>
    rcases rt.kill_eq k m.cgroup u with ⟨_, _, heq⟩ | ⟨-, -, heq⟩
    · exact same (by rw [heq]) (by rw [heq]) (by rw [heq])
    · rw [heq] at hb
      cases hb.state
  | healthProbe =>
    obtain ⟨_, _, _, heq, -⟩ := rt.healthProbe_eq k u
    exact same (by rw [heq]) (by rw [heq]) (by rw [heq])
  | probeTimeout =>
    obtain ⟨_, heq⟩ := rt.probeTimeout_eq k
    exact same (by rw [heq]) (by rw [heq]) (by rw [heq])
  | dueRestart => exact hk.elim

/-- What waits without a timer in `m'` did in `m`, and became no tombstone. -/
def Came (m m' : UnitManager) : Prop :=
  ∀ u rt', m'.get u = some rt' → Bare rt' →
    ∃ rt, m.get u = some rt ∧ Bare rt ∧ (rt.retired = false → rt'.retired = false)

namespace Came

variable {k : Kernel} {m m' m'' : UnitManager} {u : UnitName}

theorem refl (m : UnitManager) : Came m m := fun _ rt hrt hb => ⟨rt, hrt, hb, id⟩

theorem trans (h : Came m m') (h' : Came m' m'') : Came m m'' := by
  intro u rt'' hrt'' hb''
  obtain ⟨rt', hrt', hb', hr'⟩ := h' u rt'' hrt'' hb''
  obtain ⟨rt, hrt, hb, hr⟩ := h u rt' hrt' hb'
  exact ⟨rt, hrt, hb, fun h => hr' (hr h)⟩

theorem apply (hm : Reachable m) {op : Op} (hk : KeepsTimers op) : Came m (m.apply k op) := by
  let P (u : UnitName) (rt : UnitRuntime) : Prop := WaitsIdle rt ∧
    (Bare rt → ∃ rt₀, m.get u = some rt₀ ∧ Bare rt₀ ∧ (rt₀.retired = false → rt.retired = false))
  have hP : ∀ u rt, (m.apply k op).get u = some rt → P u rt := by
    refine UnitManager.inv_apply ?_ ?_ ?_
    · exact fun u rt hrt => ⟨hm.waitsIdle hrt, fun hb => ⟨rt, hrt, hb, id⟩⟩
    · exact fun u config _ => ⟨fun hw => (nomatch hw), fun hb => (nomatch hb.state)⟩
    · rintro u rt rt' ht ⟨hi, hcame⟩
      refine ⟨waitsIdle_move (move_of_touch ht) hi, fun hb' => ?_⟩
      obtain ⟨hb, hr⟩ := bare_of_touch ht hk hi hb'
      obtain ⟨rt₀, hrt₀, hb₀, hr₀⟩ := hcame hb
      exact ⟨rt₀, hrt₀, hb₀, fun h => hr (hr₀ h)⟩
  exact fun u rt' hrt' hb' => (hP u rt' hrt').2 hb'

theorem of_guarded {G : Kernel → UnitManager → Op → Prop} (hm : Reachable m)
    (h : Guarded G m m') (hG : ∀ k m op, G k m op → KeepsTimers op) : Came m m' := by
  induction h with
  | refl => exact refl m
  | tail hrun hstep ih =>
    obtain ⟨k, op, -, hg, rfl⟩ := hstep
    exact ih.trans (apply (Guarded.reachable hrun hm) (hG k _ op hg))

theorem of_turn (hm : Reachable m) (h : Guarded (StartFlow.TurnOp k u) m m') : Came m m' := by
  refine of_guarded hm h ?_
  rintro k' m op ⟨-, rfl | rfl | rfl | ⟨deadline, rfl⟩ | ⟨calls, rfl⟩⟩ <;> trivial

end Came

/-- A spawn that succeeds ends the wait. -/
theorem not_bare_beginSpawnUnit {k : Kernel} {m : UnitManager} {u : UnitName}
    {b : UnitRuntime.SpawnBegin} {rt : UnitRuntime} (hm : Reachable m)
    (hok : (m.beginSpawnUnit k u).2 = .ok b) (hrt : (m.beginSpawnUnit k u).1.get u = some rt) :
    ¬Bare rt := by
  unfold UnitManager.beginSpawnUnit at hok hrt
  cases hget : m.get u with
  | none =>
    rw [hget] at hrt
    cases hget.symm.trans hrt
  | some rt₀ =>
    rw [hget] at hok hrt
    dsimp only at hok hrt
    rw [UnitManager.get_put, if_pos rfl, Option.some.injEq] at hrt
    dsimp only at hrt
    intro hb
    have hst := rt₀.beginSpawn_ok k m.cgroup u hok
    rw [hrt] at hst
    rcases hst with hp | hst | hst
    · obtain ⟨hb₀, -⟩ := bare_of_touch (.beginSpawn rt₀ : Touch k m u _ _ _) trivial
        (hm.waitsIdle hget) (hrt ▸ hb)
      simp [hm.waitsIdle hget hb₀.state] at hp
    · exact nomatch hst.symm.trans hb.state
    · exact nomatch hst.symm.trans hb.state

/-! ## Stops and removals -/

section Stops

variable {k : Kernel} {m : UnitManager} {u : UnitName} {rt : UnitRuntime}

theorem came_stopped (hm : Reachable m) : Came m (World.stopped k m u) := by
  refine .of_guarded hm (World.guarded_stopped k m u) ?_
  rintro _ _ op (rfl | rfl) <;> trivial

/-- A unit that is stopped does not wait for a restart. -/
theorem not_bare_stopped (hm : Reachable m) (hrt : (World.stopped k m u).get u = some rt) :
    ¬Bare rt := by
  intro hb
  obtain ⟨rt₀, hrt₀, hb₀, -⟩ := came_stopped hm u rt hrt hb
  obtain ⟨m', heffect, hdone⟩ := stopDone_of_request (k := k) hm hrt₀
  have hget := hdone.get u
  rw [World.stopped, heffect, hget, if_pos rfl, Option.some.injEq] at hrt
  have hstopped : rt₀.stopped k m.cgroup u = (rt₀.stop k m.cgroup u).val := by
    simp [UnitRuntime.stopped, hb₀.state, JobQueue.action]
  rw [hstopped] at hrt
  exact bare_of_stop (hm.waitsIdle hrt₀) (hrt ▸ hb)

theorem UnitManager.get_retire (k : Kernel) (m : UnitManager) (u v : UnitName) :
    (m.retire k u).get v =
      if u = v then (m.get u).map fun rt => (rt.retire k).val else m.get v := by
  have hget : UnitManager.get { m with queuedStarts := m.queuedStarts.erase u } u = m.get u := rfl
  cases hrt : m.get u with
  | none =>
    have hretire : m.retire k u = { m with queuedStarts := m.queuedStarts.erase u } := by
      unfold retire
      dsimp only
      rw [hget, hrt]
    rw [hretire]
    split
    · next huv => exact huv ▸ hrt
    · rfl
  | some rt =>
    have hretire : m.retire k u = (UnitManager.put { m with
        queuedStarts := m.queuedStarts.erase u } u (rt.retire k)).invalidateGraph := by
      unfold retire
      dsimp only
      rw [hget, hrt]
    rw [hretire]
    exact get_put ..

theorem stopped_state_ne (hm : Reachable m) (hrt : m.get u = some rt)
    (hw : rt.state ≠ .restartWait) : ∃ rt', (World.stopped k m u).get u = some rt' ∧
      rt'.state ≠ .restartWait := by
  obtain ⟨m', heffect, hdone⟩ := stopDone_of_request (k := k) hm hrt
  refine ⟨rt.stopped k m.cgroup u, ?_, ?_⟩
  · rw [World.stopped, heffect, hdone.get u, if_pos rfl]
  · have hstop : (rt.stop k m.cgroup u).val.state ≠ .restartWait := by
      have hs := rt.stopped_stop k m.cgroup u
      generalize (rt.stop k m.cgroup u).val = rt' at hs
      cases hs with
      | busy | refused => exact hw
      | gone | delivered => simp
    have hsettle : (rt.settle .stopped).state ≠ .restartWait := by
      rcases rt.settle_eq .stopped with heq | ⟨heq, -⟩ <;> rw [heq]
      · exact hw
      · simp
    unfold UnitRuntime.stopped
    split
    · exact hstop
    · exact hstop
    · exact hsettle

/-- A removal of a unit that does not wait leaves nothing waiting. -/
theorem came_removed (hm : Reachable m)
    (hw : ∀ rt, m.get u = some rt → rt.state ≠ .restartWait) : Came m (World.removed k m u) := by
  let m₁ : UnitManager := if m.isUp u then World.stopped k m u else m
  have hcame : Came m m₁ := by
    change Came m (if m.isUp u then World.stopped k m u else m)
    split
    · exact came_stopped hm
    · exact .refl m
  have hstate (rt : UnitRuntime) (hrt : m₁.get u = some rt) : rt.state ≠ .restartWait := by
    change UnitManager.get (if m.isUp u then World.stopped k m u else m) u = some rt at hrt
    split at hrt
    · next hup =>
      obtain ⟨rt₀, hrt₀, -⟩ := (Option.any_eq_true _ _).mp hup
      obtain ⟨rt', hrt', hw'⟩ := stopped_state_ne (k := k) hm hrt₀ (hw rt₀ hrt₀)
      exact Option.some.inj (hrt'.symm.trans hrt) ▸ hw'
    · exact hw rt hrt
  have hget (v : UnitName) : (World.removed k m u).get v =
      if u = v then (m₁.get u).map fun rt => (rt.retire k).val else m₁.get v :=
    UnitManager.get_retire k { m₁ with listenFds := m₁.listenFds.erase u } u v
  intro v rt hrt hb
  rw [hget] at hrt
  split at hrt
  · obtain ⟨rt₁, hrt₁, rfl⟩ := Option.map_eq_some_iff.mp hrt
    exact absurd hb.state (hstate rt₁ hrt₁)
  · exact hcame v rt hrt hb

end Stops

/-! ## Starts -/

/-- A unit that waits without a timer is no tombstone, and has a start that has not come to its
spawn. -/
structure World.Carried (w : World) : Prop where
  reachable : Reachable w.manager
  keyed : w.Keyed
  flow : ∀ u rt, w.manager.get u = some rt → Bare rt →
    rt.retired = false ∧ ∃ f, w.flows[u]? = some f ∧ f.stage.isEarly = true

namespace World

variable {k : Kernel} {w w' : World} {u v : UnitName} {rt : UnitRuntime}

/-- The flows that waiting units have stay, and nothing else comes to wait. -/
theorem Carried.of_came (h : w.Carried) (hm : Reachable w'.manager) (hk : w'.Keyed)
    (hc : Came w.manager w'.manager)
    (hf : ∀ u f rt', w'.manager.get u = some rt' → Bare rt' → w.flows[u]? = some f →
      f.stage.isEarly = true → ∃ f', w'.flows[u]? = some f' ∧ f'.stage.isEarly = true) :
    w'.Carried := by
  refine ⟨hm, hk, fun u rt' hrt' hb' => ?_⟩
  obtain ⟨rt, hrt, hb, hr⟩ := hc u rt' hrt' hb'
  obtain ⟨hret, f, hflow, hearly⟩ := h.flow u rt hrt hb
  exact ⟨hr hret, hf u f rt' hrt' hb' hflow hearly⟩

theorem isEarly_of_fresh {stage : StartStage}
    (h : (∃ paths, stage = .sockets paths) ∨ stage = .conflicts none) : stage.isEarly = true := by
  rcases h with ⟨paths, rfl⟩ | rfl <;> rfl

theorem Begun.reachable (h : Begun k w u w') (hm : Reachable w.manager) : Reachable w'.manager := by
  rcases h.manager with heq | heq <;> rw [heq]
  · exact hm
  · exact .step k _ hm trivial

theorem Begun.came (h : Begun k w u w') (hm : Reachable w.manager) :
    Came w.manager w'.manager := by
  rcases h.manager with heq | heq <;> rw [heq]
  · exact .refl _
  · exact .apply hm trivial

theorem Carried.begin_ (h : w.Carried) (k : Kernel) (u : UnitName) : (w.begin_ k u).Carried := by
  have hb := begun_begin k w u
  exact h.of_came (hb.reachable h.reachable) (hb.keyed h.keyed) (hb.came h.reachable)
    fun v f _ _ _ hf he => ⟨f, hb.kept v f hf, he⟩

/-- The units that a pass found due, and that have not been begun yet. -/
structure Due (l : List UnitName) (w : World) : Prop where
  reachable : Reachable w.manager
  keyed : w.Keyed
  flow : ∀ u rt, w.manager.get u = some rt → Bare rt → rt.retired = false ∧
    ((∃ f, w.flows[u]? = some f ∧ f.stage.isEarly = true) ∨ u ∈ l ∧ w.flows[u]? = none)

theorem Due.begin_ {l : List UnitName} (h : Due (u :: l) w) : Due l (w.begin_ k u) := by
  have hb := begun_begin k w u
  refine ⟨hb.reachable h.reachable, hb.keyed h.keyed, fun v rt' hrt' hb' => ?_⟩
  obtain ⟨rt, hrt, hbare, hr⟩ := hb.came h.reachable v rt' hrt' hb'
  obtain ⟨hret, hflow⟩ := h.flow v rt hrt hbare
  refine ⟨hr hret, ?_⟩
  rcases hflow with ⟨f, hf, he⟩ | ⟨hmem, hnone⟩
  · exact .inl ⟨f, hb.kept v f hf, he⟩
  · cases hflow : (w.begin_ k u).flows[v]? with
    | some f =>
      refine .inl ⟨f, rfl, ?_⟩
      rcases hb.made v f hflow with hf | ⟨-, -, hs⟩
      · cases hnone.symm.trans hf
      · exact isEarly_of_fresh hs
    | none =>
      refine .inr ⟨(List.mem_cons.mp hmem).resolve_left ?_, rfl⟩
      rintro rfl
      have hsome := hb.begun rt hrt hret
      rw [hflow] at hsome
      cases hsome

theorem Due.carried {l : List UnitName} (h : Due l w) : (l.foldl (World.begin_ k) w).Carried := by
  induction l generalizing w with
  | nil =>
    refine ⟨h.reachable, h.keyed, fun u rt hrt hb => ?_⟩
    obtain ⟨hret, hflow⟩ := h.flow u rt hrt hb
    exact ⟨hret, hflow.resolve_right fun hmem => (by simpa using hmem.1)⟩
  | cons u l ih => exact ih h.begin_

/-- What a pass over the timers leaves is due, when no tombstone waits and no start of a due
unit is past its spawn. -/
theorem Carried.due (h : w.Carried) (hc : ∀ u rt, w.manager.get u = some rt →
      rt.state = .restartWait → (rt.retired = true → rt.restartAt = none) ∧
        (rt.restartAt.any (· ≤ k.now) = true →
          ∀ f, w.flows[u]? = some f → f.stage.isEarly = true)) :
    Due (w.manager.dueRestarts k).2 { w with manager := (w.manager.dueRestarts k).1 } := by
  refine ⟨.step k .dueRestarts h.reachable trivial, h.keyed, fun u rt' hrt' hb' => ?_⟩
  have hget : (w.manager.dueRestarts k).1.get u = (w.manager.get u).map fun rt =>
      (rt.dueRestart k).1 := UnitManager.get_pass ..
  rw [hget, Option.map_eq_some_iff] at hrt'
  obtain ⟨rt, hrt, rfl⟩ := hrt'
  obtain ⟨ra, heq, -⟩ := rt.dueRestart_eq k
  have hstate : rt.state = .restartWait := by
    have hs := hb'.state
    rwa [heq] at hs
  have hretired : (rt.dueRestart k).1.retired = rt.retired := by rw [heq]
  obtain ⟨htomb, hlate⟩ := hc u rt hrt hstate
  by_cases htimer : rt.restartAt = none
  · obtain ⟨hret, hflow⟩ := h.flow u rt hrt ⟨hstate, htimer⟩
    exact ⟨hretired.trans hret, .inl hflow⟩
  · have hret : rt.retired = false := by
      by_contra hne
      exact htimer (htomb (by simpa using hne))
    have hdue : rt.restartAt.any (· ≤ k.now) = true := by
      by_contra hne
      have hkept : (rt.dueRestart k).1 = rt := by simp [UnitRuntime.dueRestart, hret, hne]
      exact htimer (hkept ▸ hb'.timer)
    have hmem : u ∈ (w.manager.dueRestarts k).2 := by
      refine (UnitManager.mem_pass w.manager u).mpr ⟨rt, hrt, ?_⟩
      simp [UnitRuntime.dueRestart, hret, hdue]
    refine ⟨hretired.trans hret, ?_⟩
    cases hflow : w.flows[u]? with
    | some f => exact .inl ⟨f, rfl, hlate hdue f hflow⟩
    | none => exact .inr ⟨hmem, rfl⟩

/-- A turn carries the wait of its unit on, unless a stop of the unit is on file. -/
theorem Carried.turn (h : w.Carried) (hc : ∀ rt, w.manager.get u = some rt → Bare rt →
    w.manager.targetOf u ≠ some .stopped) (aux : AuxExits) : (w.turn k u aux).Carried := by
  have hrun := guarded_turn (k := k) h.keyed u aux
  refine h.of_came (hrun.reachable h.reachable) (h.keyed.turn u aux) (.of_turn h.reachable hrun) ?_
  intro v f rt' hrt' hb' hf hearly
  by_cases hv : v = u
  · subst hv
    obtain ⟨rt, hrt, hb, -⟩ := Came.of_turn h.reachable hrun v rt' hrt' hb'
    have hunit : f.unit = v := h.keyed v f hf
    have hadv := StartFlow.advanced_advance k { flow := f, manager := w.manager, aux := aux } rfl
    rw [turn_eq hf] at hrt' ⊢
    dsimp only at hrt' ⊢
    cases hadv with
    | cancelled hblocked =>
      exfalso
      rcases hblocked with ht | ⟨-, hd⟩ | ⟨hf', -⟩
      · exact hc rt hrt hb (hunit ▸ ht)
      · rw [hunit] at hd
        simp [UnitManager.isDeactivating, hrt, hb.state] at hd
      · rw [hunit] at hf'
        simp [UnitManager.isFailed, hrt, hb.state, UnitState.isFailed] at hf'
    | failed _ hm _ hm' =>
      rw [hm', hunit] at hrt'
      have hfailed := UnitManager.isFailed_of_failStart hrt'
      simp [hb'.state, UnitState.isFailed] at hfailed
    | waits _ hm hm' hd hf' =>
      rw [hd, hf']
      refine ⟨_, Std.ExtTreeMap.getElem?_insert_self, ?_⟩
      cases hm <;> rfl
    | spawned _ hm hs hfollows =>
      exfalso
      have hm := hm.guarded.reachable h.reachable
      rw [hunit] at hs hfollows
      have hspawned := Reachable.step k (.beginSpawnUnit v) hm trivial
      obtain ⟨rt₁, hrt₁, hb₁, -⟩ :=
        Came.of_turn (k := k) (u := f.unit) hspawned hfollows.guarded v rt' hrt' hb'
      exact not_bare_beginSpawnUnit hm hs hrt₁ hb₁
    | later _ hs =>
      rw [hearly] at hs
      cases hs
  · exact ⟨f, (flows_turn_of_ne aux hv).trans hf, hearly⟩

end World

/-! ## Runs -/

/-- What leaves no waiting unit behind : a turn does not find a stop of a unit that waits
without a timer on file; the timers that are cleared are not a tombstone's, and the start that
a due unit may have has not come to its spawn; a unit that is removed does not wait. -/
def Act.Calm (k : Kernel) (w : World) : Act → Prop
  | .turn u _ => ∀ rt, w.manager.get u = some rt → Bare rt →
    w.manager.targetOf u ≠ some .stopped
  | .restarts => ∀ u rt, w.manager.get u = some rt → rt.state = .restartWait →
    (rt.retired = true → rt.restartAt = none) ∧
      (rt.restartAt.any (· ≤ k.now) = true →
        ∀ f, w.flows[u]? = some f → f.stage.isEarly = true)
  | .remove u => ∀ rt, w.manager.get u = some rt → rt.state ≠ .restartWait
  | _ => True

namespace World

variable {k : Kernel} {w w' : World} {u v : UnitName} {rt : UnitRuntime}

theorem Carried.stop (h : w.Carried) (u : UnitName) :
    (⟨stopped k w.manager u, w.flows.erase u⟩ : World).Carried := by
  refine h.of_came ((guarded_stopped k w.manager u).reachable h.reachable) (h.keyed.erase _ u)
    (came_stopped h.reachable) fun v f rt' hrt' hb' hf he => ?_
  by_cases hv : v = u
  · exact absurd hb' (not_bare_stopped h.reachable (hv ▸ hrt'))
  · exact ⟨f, by simpa [Std.ExtTreeMap.getElem?_erase, Ne.symm hv] using hf, he⟩

theorem Carried.drop (h : w.Carried) (hu : w.manager.unitExists u = false) :
    ({ w with flows := w.flows.erase u } : World).Carried := by
  refine ⟨h.reachable, h.keyed.erase _ u, fun v rt hrt hb => ?_⟩
  obtain ⟨hret, f, hf, he⟩ := h.flow v rt hrt hb
  have hv : v ≠ u := by
    rintro rfl
    simp [UnitManager.unitExists, show w.manager.get v = some rt from hrt, hret] at hu
  exact ⟨hret, f, by simpa [Std.ExtTreeMap.getElem?_erase, Ne.symm hv] using hf, he⟩

theorem Carried.run (h : w.Carried) {act : Act} (hf : act.Fits w) (hc : act.Calm k w) :
    (act.run k w).Carried := by
  cases act with
  | op o =>
    have hk : KeepsTimers o := by
      cases o <;> first | exact hf.2.elim | trivial
    exact h.of_came (.step k o h.reachable hf.1) h.keyed (.apply h.reachable hk)
      fun v f _ _ _ hf he => ⟨f, hf, he⟩
  | begin_ u => exact h.begin_ k u
  | turn u aux => exact h.turn hc aux
  | restarts => exact (h.due hc).carried
  | stop u => exact h.stop u
  | remove u =>
    exact h.of_came ((guarded_removed k w.manager u).reachable h.reachable) h.keyed
      (came_removed h.reachable hc)
      fun v f _ _ _ hf he => ⟨f, hf, he⟩
  | drop u => exact h.drop hf

/-- Every unit that waits for a restart has an armed timer or a start in flight. -/
def Unstranded (w : World) : Prop :=
  ∀ u rt, w.manager.get u = some rt → rt.state = .restartWait →
    rt.restartAt.isSome = true ∨ w.flows.contains u = true

/-- No unit is stranded, in any run of calm acts. -/
theorem unstranded_of_calm (hrun : ReflTransGen (Act.Step Act.Calm) {} w) : w.Unstranded := by
  have hcarried : w.Carried := by
    induction hrun with
    | refl =>
      exact ⟨.new, fun u f hf => by simp at hf, fun u rt hrt => by simp [UnitManager.get] at hrt⟩
    | tail _ hstep ih =>
      obtain ⟨k, act, hfits, hcalm, rfl⟩ := hstep
      exact ih.run hfits hcalm
  intro u rt hrt hw
  cases htimer : rt.restartAt with
  | some at_ => exact .inl rfl
  | none =>
    obtain ⟨-, f, hf, -⟩ := hcarried.flow u rt hrt ⟨hw, htimer⟩
    refine .inr ?_
    rw [Std.ExtTreeMap.contains_eq_isSome_getElem?, hf]
    rfl

/-! ## Concrete runs -/

/-- A service that is restarted whenever it exits is about to be started. -/
def starting : World :=
  Act.run (.granting 1 10) (Act.run (.granting 0 10) {}
    (.op (.addWithInFlight { UnitConfig.new serviceA with restart := .always } false)))
    (.begin_ serviceA)

/-- It was started, and its process crashed. -/
def crashedOnce : World :=
  Act.run (.granting 3 10) (Act.run (.granting 2 10) starting (.turn serviceA ∅))
    (.op (.onChildExit 10 (.failure 1)))

/-- Its timer has fired. -/
def restarting : World := Act.run (.granting 100000 10) crashedOnce .restarts

/-- The service waits for its restart without a timer, and its start is in flight. -/
theorem unstranded_restarting : (restarting.manager.get serviceA).any
      (fun rt => rt.state = .restartWait && rt.restartAt.isNone) = true ∧
    restarting.Unstranded := by
  refine ⟨by decide +kernel, unstranded_of_calm ?_⟩
  have hstarting : ReflTransGen (Act.Step Act.Calm) {} starting :=
    (ReflTransGen.single ⟨.granting 0 10, .op (.addWithInFlight
      { UnitConfig.new serviceA with restart := .always } false), ⟨rfl, trivial⟩, trivial,
      rfl⟩).tail ⟨.granting 1 10, .begin_ serviceA, trivial, trivial, rfl⟩
  have hturn : Act.Calm (.granting 2 10) starting (.turn serviceA ∅) := by
    intro rt hrt hb
    have hstate : (starting.manager.get serviceA).map (·.state) = some .inactive := by
      decide +kernel
    rw [hrt, Option.map_some, hb.state] at hstate
    cases hstate
  have hdue : Act.Calm (.granting 100000 10) crashedOnce .restarts := by
    intro u rt hrt _
    have hall : (crashedOnce.manager.units.toList.all fun e => !e.2.retired) = true ∧
        crashedOnce.flows.isEmpty = true := by
      decide +kernel
    have hret := List.all_eq_true.mp hall.1 (u, rt)
      (Std.ExtTreeMap.mem_toList_iff_getElem?_eq_some.mpr hrt)
    refine ⟨fun h => by simp [h] at hret, fun _ f hf => ?_⟩
    have hmem : u ∈ crashedOnce.flows := by
      rw [Std.ExtTreeMap.mem_iff_isSome_getElem?, hf]
      rfl
    rw [Std.ExtTreeMap.isEmpty_iff] at hall
    rw [hall.2] at hmem
    simp at hmem
  exact ((hstarting.tail ⟨.granting 2 10, .turn serviceA ∅, trivial, hturn, rfl⟩).tail
    ⟨.granting 3 10, .op (.onChildExit 10 (.failure 1)), ⟨trivial, trivial⟩, trivial, rfl⟩).tail
    ⟨.granting 100000 10, .restarts, trivial, hdue, rfl⟩

/-- The service is stopped, restarted while it is being stopped, and exits; then its timer fires
and its start gives up. -/
theorem not_unstranded_restarted : ∃ s, Supervisor.Reached s ∧ s.boot.isNone = true ∧
    (s.manager.get serviceA).map (fun rt => (rt.state, rt.restartAt)) =
      some (.restartWait, none) ∧
    s.starts.flows.contains serviceA = false ∧ ¬s.world.Unstranded := by
  have h : ((BootPlan.planBoot oneService [] "a.service").toOption.map fun plan =>
      (Supervisor.init (.granting 0 10) plan none).steps
        [(1, 10, .boot), (2, 10, .advance), (3, 10, .boot), (4, 10, .control (.stop serviceA)),
          (5, 10, .control (.restart serviceA)), (6, 10, .reap [(10, .success)]),
          (100000, 11, .restarts), (100001, 11, .advance)]).any
      (fun s => s.boot.isNone && !s.starts.flows.contains serviceA &&
        ((s.manager.get serviceA).map fun rt => (rt.state, rt.restartAt)) =
          some (.restartWait, none)) = true := by
    decide +kernel
  obtain ⟨s, hs, hp⟩ := Supervisor.exists_reached _ _ h
  rw [Bool.and_eq_true, Bool.and_eq_true, Bool.not_eq_true', decide_eq_true_eq] at hp
  obtain ⟨⟨hboot, hflow⟩, hwait⟩ := hp
  refine ⟨s, hs, hboot, hwait, hflow, fun h => ?_⟩
  obtain ⟨rt, hrt, hstate⟩ := Option.map_eq_some_iff.mp hwait
  obtain ⟨hstate, htimer⟩ := Prod.mk.inj hstate
  rcases h serviceA rt hrt hstate with h | h
  · rw [htimer] at h
    cases h
  · rw [show s.world.flows.contains serviceA = false from hflow] at h
    cases h

end World

end Rinit
