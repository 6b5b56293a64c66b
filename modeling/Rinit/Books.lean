import Rinit.Life

/-!
# The state of a unit and its process

`Booked` is what the state of a unit says about its process and its type. It is read off the
moves of a unit's life, with two facts the moves leave out : where the exit of a process can
leave a unit (`settleExit_state`), and that a definition is only replaced where there is no
process (`redefine_config`). `booked_of_story` : it holds along every run, and a unit that has
run to completion is a `oneshot` unless a reload has given it another type since.
-/

namespace Rinit

open Relation

namespace UnitRuntime

variable (k : Kernel) (rt : UnitRuntime)

/-- The exit of its process leaves a unit neither starting nor active, and completed only if it
is a `oneshot`. -/
theorem settleExit_state (boot : Bool) (outcome : ExitOutcome) :
    (rt.settleExit k boot outcome).1.state ≠ .starting ∧
      (rt.settleExit k boot outcome).1.state ≠ .active ∧
      ((rt.settleExit k boot outcome).1.state = .activeExited →
        rt.config.serviceKind = .oneshot) := by
  have hschedule (fails : Bool) (rt : UnitRuntime) :
      (rt.scheduleRestart k fails).1.state = .restartWait ∨
        (rt.scheduleRestart k fails).1.state = .failed .startLimitHit := by
    rcases rt.scheduleRestart_eq k fails with ⟨_, _, _, heq⟩ | ⟨_, _, heq⟩
    · exact .inl (by rw [heq])
    · exact .inr (by rw [heq])
  unfold settleExit
  split
  · split
    · rcases hschedule false { rt with restartAfterStop := false } with h | h <;> simp [h]
    · simp
  · dsimp only
    split
    · simp
    · next t ht =>
      have htarget : t.target ≠ .starting ∧ t.target ≠ .active ∧
          (t.target = .activeExited → rt.config.serviceKind = .oneshot) := by
        rcases rt.transition_exitEvent ht with ⟨-, h⟩ | ⟨-, h⟩
        · rw [h]
          split
          · next ho => exact ⟨by simp, by simp, fun _ => ho.1⟩
          · simp
        · rw [h]
          split_ifs <;> simp
      split
      · exact htarget
      · split
        · exact htarget
        · split
          · exact htarget
          · rcases hschedule true { rt with state := t.target } with h | h <;> simp [h]

/-- Registering a definition leaves a unit that is up with the one it has. -/
theorem redefine_config (config : UnitConfig) (inFlight : Bool) (h : rt.isUp = true) :
    (rt.redefine config inFlight).1.config = rt.config := by
  have hup : ({ rt with retired := false } : UnitRuntime).isUp = true := h
  unfold redefine
  dsimp only
  split
  · rfl
  · rw [if_pos (by rw [hup, Bool.true_or])]

theorem adoptPendingConfig_config (h : rt.isUp = true) :
    rt.adoptPendingConfig.config = rt.config := by
  unfold adoptPendingConfig
  rw [if_pos h]

/-- A message makes a notify unit active, or changes no more than its status. -/
theorem onNotify_of_notify (message : NotifyMessage) (h : rt.config.serviceKind = .notify) :
    (rt.onNotify k message).1.pid = rt.pid ∧ (rt.onNotify k message).1.config = rt.config ∧
      ((rt.onNotify k message).1.state = rt.state ∨
        rt.state = .starting ∧ (rt.onNotify k message).1.state = .active) := by
  unfold onNotify
  dsimp only
  split
  · exact ⟨rfl, rfl, .inl rfl⟩
  · next hs =>
    have hs : rt.state = .starting := by
      by_contra hne
      simp [hne] at hs
    split
    · next t ht =>
      refine ⟨rfl, rfl, .inr ⟨hs, ?_⟩⟩
      simp only [hs, h, transition, transitionTable] at ht
      rw [← Except.ok.inj ht]
      rfl
    · exact ⟨rfl, rfl, .inl rfl⟩

/-- A spawn makes no `oneshot` active. -/
theorem beginSpawn_state (cg : Cgroup) (u : UnitName) (hs : rt.spawns = true) (hp : rt.pid = none) :
    (rt.beginSpawn k cg u).val.1.config = rt.config ∧
      ((rt.beginSpawn k cg u).val.1.state = .active →
        rt.state = .active ∨ rt.config.serviceKind ≠ .oneshot) := by
  obtain ⟨g, pp, pd, es, hc, -⟩ := clearLeftovers_eq k rt
  unfold beginSpawn
  rw [Traced.bind_val, hc, if_neg (by simp [hp]), if_neg (by simpa [spawns] using hs)]
  rcases spawnProcess_val k cg u { rt with
    group := g, probePid := pp, probeDeadline := pd, execStopPid := es } with
    ⟨e, he⟩ | ⟨pid, oom, pending, -, heq⟩
  · rw [he]
    exact ⟨rfl, .inl⟩
  · rw [heq]
    dsimp only
    unfold registerSpawn
    dsimp only
    split
    · next hk => exact ⟨rfl, fun _ => .inr (by simp [hk])⟩
    all_goals exact ⟨rfl, fun h => by cases h⟩

end UnitRuntime

/-! ## State, process and type -/

/-- What the state of a unit says about its process, and about its type while it is active. -/
structure Booked (u : UnitName) (rt : UnitRuntime) : Prop where
  up : u.ty = .service → rt.state = .starting ∨ rt.state = .active → rt.pid.isSome = true
  down : rt.state = .inactive ∨ rt.state = .restartWait ∨ rt.state = .activeExited ∨
    rt.state.isFailed = true → rt.pid = none
  lasting : u.ty = .service → rt.state = .active → rt.config.serviceKind ≠ .oneshot

variable {k : Kernel} {m : UnitManager} {u : UnitName} {op : Op} {rt rt' : UnitRuntime}

/-- The type of an active unit stays what it is, and only a spawn, a message or a daemon makes
a service active. -/
theorem lasting_touch (ht : Touch k m u op rt rt') (hop : op.Promised)
    (hn : ∀ message, op ≠ .onNotify u message) (hs : Serviced u rt) (h : Booked u rt)
    (hu : u.ty = .service) (ha : rt'.state = .active) : rt'.config.serviceKind ≠ .oneshot := by
  have kept (hst : rt'.state = rt.state) (hc : rt'.config.serviceKind = rt.config.serviceKind) :
      rt'.config.serviceKind ≠ .oneshot := hc ▸ h.lasting hu (hst ▸ ha)
  have isUp (hst : rt'.state = rt.state) : rt.isUp = true := by
    simp [UnitRuntime.isUp, h.up hu (.inr (hst ▸ ha))]
  cases ht with
  | @redefine config inFlight =>
    obtain ⟨_, _, _, heq, -⟩ := rt.redefine_eq config inFlight
    have hst : (rt.redefine config inFlight).1.state = rt.state := by rw [heq]
    exact kept hst (by rw [rt.redefine_config config inFlight (isUp hst)])
  | adopt =>
    have hst : rt.adoptPendingConfig.state = rt.state := by
      rcases rt.adoptPendingConfig_eq with heq | ⟨_, _, -, -, heq⟩ <;> rw [heq]
    exact kept hst (by rw [rt.adoptPendingConfig_config (isUp hst)])
  | compress | retire | restartFlag | clearStartLimit | capStartDeadline | noteConnection =>
    exact kept rfl rfl
  | settle | conflictSettle =>
    rcases rt.settle_eq .stopped with heq | ⟨heq, -⟩
    · exact kept (by rw [heq]) (by rw [heq])
    · rw [heq] at ha
      cases ha
  | stop | restartStop | conflictStop =>
    have hs := rt.stopped_stop k m.cgroup u
    generalize (rt.stop k m.cgroup u).val = rt' at hs ha kept
    cases hs with
    | busy | refused => exact kept rfl rfl
    | gone | delivered => cases ha
  | resetFailed =>
    by_cases hf : rt.state.isFailed = true
    · have hst : rt.resetFailed.state = .inactive := if_pos hf
      cases hst.symm.trans ha
    · exact kept (if_neg hf) rfl
  | failStart | failTarget | failExit =>
    have hf := UnitManager.failOwn_isFailed k m.cgroup u rt
    rw [ha] at hf
    cases hf
  | dragDown =>
    have hf := UnitManager.dragDown_isFailed rt
    rw [ha] at hf
    cases hf
  | reachTarget => cases hu.symm.trans hop
  | beginSpawn =>
    by_cases hp : rt.pid = none
    · obtain ⟨hc, hact⟩ := rt.beginSpawn_state k m.cgroup u (hs.spawns_iff.mpr hu) hp
      rw [hc]
      rcases hact ha with hact | hk
      · exact h.lasting hu hact
      · exact hk
    · have hs := rt.spawned_beginSpawn k m.cgroup u
      generalize (rt.beginSpawn k m.cgroup u).val.1 = rt' at hs ha kept
      cases hs with
      | running => exact kept rfl rfl
      | kept h | noProcess h | spawned h => exact absurd h hp
  | onNotify message => exact absurd rfl (hn message)
  | finishProbe outcome =>
    have hs := rt.probed_finishProbe k m.cgroup u outcome
    generalize (rt.finishProbe k m.cgroup u outcome).val = rt' at hs ha kept
    cases hs with
    | noted => exact kept rfl rfl
    | stopping | gone => cases ha
  | execStopExit outcome =>
    rw [UnitRuntime.execStopExit_val] at ha kept ⊢
    exact kept rfl rfl
  | daemonStarted _ hd =>
    unfold UnitManager.forkedDaemon UnitManager.forks at hd
    split at hd
    · next hf =>
      simp only [Bool.and_eq_true, decide_eq_true_eq] at hf
      change rt.config.serviceKind ≠ .oneshot
      simp [hf.1.2]
    · cases hd
  | @mainExit pid outcome _ hp =>
    exact absurd ha ((rt.reaped outcome).settleExit_state k m.bootInProgress outcome).2.1
  | dueIdle =>
    obtain ⟨_, heq⟩ := rt.dueIdle_eq k
    exact kept (by rw [heq]) (by rw [heq])
  | startTimeout =>
    obtain ⟨_, _, heq⟩ := rt.startTimeout_eq k m.cgroup u
    exact kept (by rw [heq]) (by rw [heq])
  | kill =>
    rcases rt.kill_eq k m.cgroup u with ⟨_, _, heq⟩ | ⟨-, -, heq⟩
    · exact kept (by rw [heq]) (by rw [heq])
    · rw [heq] at ha
      cases ha
  | healthProbe =>
    obtain ⟨_, _, _, heq, -⟩ := rt.healthProbe_eq k u
    exact kept (by rw [heq]) (by rw [heq])
  | probeTimeout =>
    obtain ⟨_, heq⟩ := rt.probeTimeout_eq k
    exact kept (by rw [heq]) (by rw [heq])
  | dueRestart =>
    obtain ⟨_, heq, -⟩ := rt.dueRestart_eq k
    exact kept (by rw [heq]) (by rw [heq])

/-- The exit of its main process leaves a unit without one, and not up; only a `oneshot` is
completed by it. -/
theorem state_of_exit (ht : Touch k m u op rt rt') {pid : Pid} {outcome : ExitOutcome}
    (hop : op = .onChildExit pid outcome) (hp : rt.pid = some pid) (hp' : rt'.pid = none) :
    rt'.state ≠ .starting ∧ rt'.state ≠ .active ∧
      (rt'.state = .activeExited → rt.config.serviceKind = .oneshot) := by
  have notFailed {state : UnitState} (hf : state.isFailed = true) : state ≠ .starting ∧
      state ≠ .active ∧ (state = .activeExited → rt.config.serviceKind = .oneshot) := by
    refine ⟨?_, ?_, ?_⟩ <;> rintro rfl <;> cases hf
  subst hop
  cases ht with
  | finishProbe =>
    have hs := rt.probed_finishProbe k m.cgroup u outcome
    generalize (rt.finishProbe k m.cgroup u outcome).val = rt' at hs hp' ⊢
    cases hs with
    | noted => cases hp.symm.trans hp'
    | stopping => cases hp.symm.trans hp'
    | gone => simp
  | execStopExit =>
    rw [UnitRuntime.execStopExit_val] at hp'
    cases hp.symm.trans hp'
  | daemonStarted => cases hp'
  | mainExit => exact (rt.reaped outcome).settleExit_state k m.bootInProgress outcome
  | failExit => exact notFailed (UnitManager.failOwn_isFailed k m.cgroup u rt)
  | dragDown => exact notFailed (UnitManager.dragDown_isFailed rt)

/-- A touch that is no message keeps the books. -/
theorem booked_touch (ht : Touch k m u op rt rt') (hop : op.Promised)
    (hn : ∀ message, op ≠ .onNotify u message) (hs : Serviced u rt) (h : Booked u rt) :
    Booked u rt' := by
  have same (hst : rt'.state = rt.state) (hp : rt'.pid = rt.pid) :
      (u.ty = .service → rt'.state = .starting ∨ rt'.state = .active → rt'.pid.isSome = true) ∧
      (rt'.state = .inactive ∨ rt'.state = .restartWait ∨ rt'.state = .activeExited ∨
        rt'.state.isFailed = true → rt'.pid = none) := by
    rw [hst, hp]
    exact ⟨h.up, h.down⟩
  have gone (hp : rt'.pid = none) (hst : rt'.state ≠ .starting ∧ rt'.state ≠ .active) :
      (u.ty = .service → rt'.state = .starting ∨ rt'.state = .active → rt'.pid.isSome = true) ∧
      (rt'.state = .inactive ∨ rt'.state = .restartWait ∨ rt'.state = .activeExited ∨
        rt'.state.isFailed = true → rt'.pid = none) :=
    ⟨fun _ hup => absurd hup (by simp [hst.1, hst.2]), fun _ => hp⟩
  have hbooks :
      (u.ty = .service → rt'.state = .starting ∨ rt'.state = .active → rt'.pid.isSome = true) ∧
      (rt'.state = .inactive ∨ rt'.state = .restartWait ∨ rt'.state = .activeExited ∨
        rt'.state.isFailed = true → rt'.pid = none) := by
    cases move_of_touch ht with
    | quiet hst hp | flagged _ _ hst hp => exact same hst hp
    | settled _ hst0 hst hp =>
      refine gone (hp.trans (h.down ?_)) (by simp [hst])
      rcases hst0 with hst0 | hst0 | hst0 <;> simp [hst0]
    | stopped _ _ hst =>
      rcases hst with ⟨hst, hp⟩ | ⟨hst, -⟩
      · exact gone hp (by simp [hst])
      · simp [hst, UnitState.isFailed]
    | cleared _ hf hst hp => exact gone (hp.trans (h.down (by simp [hf]))) (by simp [hst])
    | failed _ _ hf hp | dragged _ _ _ _ _ hf _ hp =>
      refine gone hp ⟨fun hst => ?_, fun hst => ?_⟩ <;> simp [hst, UnitState.isFailed] at hf
    | reached hr _ hst =>
      subst hr
      refine ⟨fun hu => ?_, by simp [hst, UnitState.isFailed]⟩
      cases hu.symm.trans hop
    | noProcess _ hsp hst =>
      refine ⟨fun hu => ?_, by simp [hst, UnitState.isFailed]⟩
      simp [hs.spawns_iff.mpr hu] at hsp
    | spawned _ _ _ hst hp =>
      refine ⟨fun _ _ => hp, ?_⟩
      rcases hst with hst | hst <;> simp [hst, UnitState.isFailed]
    | ready _ _ _ _ _ _ hnotify =>
      obtain ⟨message, hnotify⟩ := hnotify
      exact absurd hnotify (hn message)
    | unhealthy _ _ _ hst =>
      rcases hst with ⟨hst, -⟩ | ⟨hst, hp⟩
      · simp [hst, UnitState.isFailed]
      · exact gone hp (by simp [hst])
    | daemon _ _ _ hst hp => exact ⟨fun _ _ => hp, by simp [hst, UnitState.isFailed]⟩
    | exited hexit hpid _ hp =>
      obtain ⟨hstarting, hactive, -⟩ := state_of_exit ht hexit hpid hp
      exact gone hp ⟨hstarting, hactive⟩
    | waiting _ _ hst hp | killed _ _ _ hst hp => exact gone hp (by simp [hst])
  exact ⟨hbooks.1, hbooks.2, lasting_touch ht hop hn hs h⟩

/-- A touch that is no message leaves a unit completed only if it was, or if it is a
`oneshot`. -/
theorem completed_of_touch (ht : Touch k m u op rt rt') (hn : ∀ message, op ≠ .onNotify u message)
    (he : rt'.state = .activeExited) :
    rt.state = .activeExited ∨ rt.config.serviceKind = .oneshot := by
  have absurdState {state : UnitState} {P : Prop} (hst : rt'.state = state)
      (hne : state ≠ .activeExited) : P := absurd (hst.symm.trans he) hne
  cases move_of_touch ht with
  | quiet hst | flagged _ _ hst => exact .inl (hst.symm.trans he)
  | settled _ _ hst | cleared _ _ hst | reached _ _ hst | noProcess _ _ hst | daemon _ _ _ hst
  | waiting _ _ hst | killed _ _ _ hst => exact absurdState hst (by simp)
  | stopped _ _ hst => rcases hst with ⟨hst, -⟩ | ⟨hst, -⟩ <;> exact absurdState hst (by simp)
  | unhealthy _ _ _ hst => rcases hst with ⟨hst, -⟩ | ⟨hst, -⟩ <;> exact absurdState hst (by simp)
  | spawned _ _ _ hst => rcases hst with hst | hst <;> exact absurdState hst (by simp)
  | failed _ _ hf | dragged _ _ _ _ _ hf =>
    rw [he] at hf
    cases hf
  | ready _ _ _ _ _ _ hnotify =>
    obtain ⟨message, hnotify⟩ := hnotify
    exact absurd hnotify (hn message)
  | exited hexit hpid _ hp => exact .inr ((state_of_exit ht hexit hpid hp).2.2 he)

/-! ## Runs -/

/-- Messages are delivered only for notify units. -/
def Notifies (m : UnitManager) : Op → Prop
  | .onNotify unit _ => ∀ rt, m.get unit = some rt → rt.config.serviceKind = .notify
  | _ => True

/-- The operation gives `u` a definition : a reload registers it, or a start takes the one a
reload deferred. -/
def Op.GivesDefinition (u : UnitName) : Op → Prop
  | .addWithInFlight config _ => config.name = u
  | .adoptPendingConfig unit => unit = u
  | _ => False

/-- Giving a unit a definition leaves its state alone. -/
theorem state_of_givesDefinition {v : UnitName} (ht : Touch k m u op rt rt')
    (hd : op.GivesDefinition v) :
    rt'.state = rt.state := by
  cases ht with
  | @redefine config inFlight =>
    obtain ⟨_, _, _, heq, -⟩ := rt.redefine_eq config inFlight
    rw [heq]
  | adopt => rcases rt.adoptPendingConfig_eq with heq | ⟨_, _, -, -, heq⟩ <;> rw [heq]
  | dragDown hop => cases hop <;> exact hd.elim
  | _ => exact hd.elim

/-- A run from an empty manager and the operations it is made of, the last one first. -/
inductive Story : List (UnitManager × Op) → UnitManager → Prop
  | new : Story [] {}
  | step {past : List (UnitManager × Op)} {m : UnitManager} (k : Kernel) (op : Op)
    (h : Story past m) (hop : op.Promised) (hn : Notifies m op) :
    Story ((m, op) :: past) (m.apply k op)

/-- The unit has run to completion. -/
def UnitManager.Completed (m : UnitManager) (u : UnitName) : Prop :=
  ∃ rt, m.get u = some rt ∧ rt.state = .activeExited

/-- The `Type=` of a unit. -/
def UnitManager.kindOf (m : UnitManager) (u : UnitName) : Option ServiceKind :=
  (m.get u).map fun rt => rt.config.serviceKind

/-- Since the unit ran to completion, a definition changed its type. -/
def Retyped (u : UnitName) : List (UnitManager × Op) → UnitManager → Prop
  | [], _ => False
  | (m, op) :: past, m' => m.Completed u ∧ m'.Completed u ∧
      (op.GivesDefinition u ∧ m.kindOf u ≠ m'.kindOf u ∨ Retyped u past m)

theorem UnitManager.get_onNotify (k : Kernel) (m : UnitManager) (v : UnitName)
    (message : UnitRuntime.NotifyMessage) (u : UnitName) :
    (m.onNotify k v message).1.get u =
      if v = u then (m.get v).map fun rt => (rt.onNotify k message).1 else m.get u := by
  unfold onNotify
  cases h : m.get v with
  | none =>
    by_cases hvu : v = u
    · rw [if_pos hvu, ← hvu]
      exact h
    · rw [if_neg hvu]
  | some rt =>
    rw [get_put]
    rfl

/-- A message finds a notify unit, and keeps the books. -/
theorem booked_onNotify {v : UnitName} {message : UnitRuntime.NotifyMessage}
    (hm : ∀ rt, m.get u = some rt → Booked u rt) (hn : Notifies m (.onNotify v message))
    (h : (m.onNotify k v message).1.get u = some rt') :
    Booked u rt' ∧ (rt'.state = .activeExited → m.get u = some rt' ∨ m.Completed u ∧
      m.kindOf u = some rt'.config.serviceKind) := by
  rw [UnitManager.get_onNotify] at h
  split at h
  · next hvu =>
    subst hvu
    obtain ⟨rt, hrt, rfl⟩ := Option.map_eq_some_iff.mp h
    have hb := hm rt hrt
    have hkind := hn rt hrt
    obtain ⟨hp, hc, hst | ⟨hs, hst⟩⟩ := rt.onNotify_of_notify k message hkind
    · refine ⟨⟨?_, ?_, ?_⟩, fun he => .inr ⟨⟨rt, hrt, hst ▸ he⟩, ?_⟩⟩
      · rw [hst, hp]
        exact hb.up
      · rw [hst, hp]
        exact hb.down
      · rw [hst, hc]
        exact hb.lasting
      · rw [UnitManager.kindOf, hrt, Option.map_some, hc]
    · refine ⟨⟨fun hu _ => ?_, ?_, fun _ _ => ?_⟩, fun he => ?_⟩
      · rw [hp]
        exact hb.up hu (.inl hs)
      · simp [hst, UnitState.isFailed]
      · simp [hc, hkind]
      · cases hst.symm.trans he
  · exact ⟨hm rt' h, fun _ => .inl h⟩

/-- A step keeps the books. -/
theorem booked_apply (hm : ∀ u rt, m.get u = some rt → Serviced u rt ∧ Booked u rt)
    (hop : op.Promised) (hn : Notifies m op) (u : UnitName) (rt : UnitRuntime)
    (h : (m.apply k op).get u = some rt) : Booked u rt := by
  by_cases hnotify : ∃ v message, op = .onNotify v message
  · obtain ⟨v, message, rfl⟩ := hnotify
    exact (booked_onNotify (fun rt hrt => (hm u rt hrt).2) hn h).1
  · refine (UnitManager.inv_apply (P := fun u rt => Serviced u rt ∧ Booked u rt) hm
      (fun u config hmk => ⟨?_, ?_⟩) (fun u rt rt' ht hb => ⟨?_, ?_⟩) u rt h).2
    · exact ⟨⟨hmk.name, hmk.kind hop, fun c hc => by cases hc⟩, fun hp => by cases hp⟩
    · refine ⟨fun _ hst => ?_, fun _ => rfl, fun _ hst => ?_⟩
      · rcases hst with hst | hst <;> cases hst
      · cases hst
    · exact serviced_touch hop ht hb.1
    · exact booked_touch ht hop (fun message h => hnotify ⟨u, message, h⟩) hb.1 hb.2

/-- A unit that a step leaves completed and that is no `oneshot` was completed before; it had
another type only if the step gave it a definition. -/
theorem completed_apply (hm : ∀ rt, m.get u = some rt → Booked u rt) (hn : Notifies m op)
    (h : (m.apply k op).get u = some rt') (he : rt'.state = .activeExited)
    (hk : rt'.config.serviceKind ≠ .oneshot) :
    m.Completed u ∧ (m.kindOf u = some rt'.config.serviceKind ∨
      op.GivesDefinition u ∧ m.kindOf u ≠ some rt'.config.serviceKind) := by
  by_cases hnotify : ∃ v message, op = .onNotify v message
  · obtain ⟨v, message, rfl⟩ := hnotify
    rcases (booked_onNotify hm hn h).2 he with hsame | ⟨hcomp, hkind⟩
    · exact ⟨⟨rt', hsame, he⟩, .inl (by rw [UnitManager.kindOf, hsame, Option.map_some])⟩
    · exact ⟨hcomp, .inl hkind⟩
  have hn (u : UnitName) (message : UnitRuntime.NotifyMessage) : op ≠ .onNotify u message :=
    fun h => hnotify ⟨u, message, h⟩
  by_cases hd : op.GivesDefinition u
  · have hcomp := @UnitManager.inv_apply k m
      (fun v rt => v = u → rt.state = .activeExited → m.Completed u) op
      (fun v rt hrt hv he => ⟨rt, hv ▸ hrt, he⟩) (fun _ _ _ _ he => by cases he)
      (fun v rt rt' ht ih hv he => ih hv ((state_of_givesDefinition ht hd).symm.trans he))
      u rt' h rfl he
    by_cases hk : m.kindOf u = some rt'.config.serviceKind
    · exact ⟨hcomp, .inl hk⟩
    · exact ⟨hcomp, .inr ⟨hd, hk⟩⟩
  · refine @UnitManager.inv_apply k m
      (fun v rt => v = u → rt.state = .activeExited → rt.config.serviceKind ≠ .oneshot →
        m.Completed u ∧ (m.kindOf u = some rt.config.serviceKind ∨
          op.GivesDefinition u ∧ m.kindOf u ≠ some rt.config.serviceKind)) op
      (fun v rt hrt hv he _ => ?_) (fun _ _ _ _ he => by cases he)
      (fun v rt rt' ht ih hv he hk => ?_) u rt' h rfl he hk
    · subst hv
      exact ⟨⟨rt, hrt, he⟩, .inl (by rw [UnitManager.kindOf, hrt, Option.map_some])⟩
    · subst hv
      have hkind : rt'.config.serviceKind = rt.config.serviceKind := by
        cases redefined_of_touch ht with
        | kept hc | retired _ hc => rw [hc]
        | redefined hop hname =>
          subst hop
          exact absurd hname hd
        | adopted hop =>
          subst hop
          exact absurd rfl hd
        | compressed => rfl
      rw [hkind] at hk ⊢
      exact ih rfl ((completed_of_touch ht (hn v) he).resolve_right hk) hk

theorem Story.reachable {past : List (UnitManager × Op)} (h : Story past m) : Reachable m := by
  induction h with
  | new => exact .new
  | step k op _ hop _ ih => exact .step k op ih hop

theorem Story.booked {past : List (UnitManager × Op)} (h : Story past m)
    (hrt : m.get u = some rt) : Booked u rt := by
  induction h generalizing u rt with
  | new => simp [UnitManager.get] at hrt
  | step k op h hop hn ih =>
    exact booked_apply (fun u rt hrt => ⟨h.reachable.serviced hrt, ih hrt⟩) hop hn u rt hrt

/-- In every run a unit's state agrees with its process and its type, and a unit that has run to
completion is a `oneshot`, unless its type was changed afterwards. -/
theorem booked_of_story {past : List (UnitManager × Op)} (h : Story past m)
    (hrt : m.get u = some rt) : Booked u rt ∧ (rt.state = .activeExited →
      rt.config.serviceKind = .oneshot ∨ Retyped u past m) := by
  refine ⟨h.booked hrt, fun he => ?_⟩
  by_cases hk : rt.config.serviceKind = .oneshot
  · exact .inl hk
  refine .inr ?_
  induction h generalizing rt with
  | new => simp [UnitManager.get] at hrt
  | @step past m k op h hop hn ih =>
    have hkind : (m.apply k op).kindOf u = some rt.config.serviceKind := by
      rw [UnitManager.kindOf, hrt, Option.map_some]
    obtain ⟨hcomp, hchange⟩ := completed_apply (fun rt hrt => h.booked hrt) hn hrt he hk
    refine ⟨hcomp, ⟨rt, hrt, he⟩, ?_⟩
    rcases hchange with hsame | ⟨hd, hne⟩
    · obtain ⟨rt₀, hrt₀, he₀⟩ := hcomp
      rw [UnitManager.kindOf, hrt₀, Option.map_some, Option.some.injEq] at hsame
      exact .inr (ih hrt₀ he₀ (hsame ▸ hk))
    · exact .inl ⟨hd, hkind ▸ hne⟩

/-! ## A concrete run -/

/-- A service that runs to completion. -/
def onceConfig : UnitConfig := { UnitConfig.new serviceA with serviceKind := .oneshot }

def onceAdded : UnitManager :=
  ({} : UnitManager).apply (.granting 0 10) (.addWithInFlight onceConfig false)

def onceStarted : UnitManager := onceAdded.apply (.granting 0 10) (.beginSpawnUnit serviceA)

def onceDone : UnitManager := onceStarted.apply (.granting 1 10) (.onChildExit 10 .success)

theorem booked_onceDone : onceDone.kindOf serviceA = some .oneshot ∧
    ∃ rt, onceDone.get serviceA = some rt ∧ rt.state = .activeExited ∧ rt.pid = none ∧
      Booked serviceA rt := by
  have hstate : (onceDone.get serviceA).map UnitRuntime.state = some .activeExited := by decide
  obtain ⟨rt, hrt, hst⟩ := Option.map_eq_some_iff.mp hstate
  have hstory : Story [(onceStarted, .onChildExit 10 .success),
      (onceAdded, .beginSpawnUnit serviceA), ({}, .addWithInFlight onceConfig false)] onceDone :=
    .step _ _ (.step _ _ (.step _ _ .new rfl trivial) trivial trivial) trivial trivial
  have hbooked := (booked_of_story hstory hrt).1
  exact ⟨by decide, rt, hrt, hst, hbooked.down (by simp [hst]), hbooked⟩

end Rinit
