import Rinit.Flows
import Rinit.Resurrect

/-!
# Starts that are turned away

A control start works through the order of its dependencies, and asks for each one. A
dependency that is being stopped ends the start with an error, but the question has filed a
start of its own that is carried out once the stop is over. `addsNoStart_iff` : a job that is
turned away because `d` is still stopping has left no start of `d` behind exactly when one was
there before its last turn, or when there is no such unit. `startsAfterwards_turnedAway` is a
dependency that comes up again although its stop was asked for last.

`runOrder_cases` is the rule for everything said about a turn of a control start.
-/

namespace Rinit

namespace UnitManager

variable {k : Kernel} {m : UnitManager} {u v : UnitName} {rt : UnitRuntime}

/-! ## Start requests -/

theorem queuedStarts_update (m : UnitManager) (u : UnitName)
    (f : UnitRuntime → Traced UnitRuntime) : (m.update u f).queuedStarts = m.queuedStarts := by
  unfold update
  split <;> rfl

theorem queuedStarts_applyNoneTransition (m : UnitManager) (u : UnitName) :
    (m.applyNoneTransition u).queuedStarts = m.queuedStarts := by
  unfold applyNoneTransition
  split
  · cases m.targetOf u with
    | none => rfl
    | some target => exact queuedStarts_update ..
  · rfl

theorem queuedStarts_filed (k : Kernel) (m : UnitManager) (u : UnitName) (target : JobTarget)
    (source : RequestSource) : (m.filed k u target source).queuedStarts = m.queuedStarts := by
  unfold filed forgetSpentTarget
  dsimp only
  split <;> rfl

theorem queuedStarts_answered (k : Kernel) (m : UnitManager) (u : UnitName) (target : JobTarget)
    (source : RequestSource) : (m.answered k u target source).queuedStarts = m.queuedStarts := by
  unfold answered
  split
  · rw [queuedStarts_applyNoneTransition, queuedStarts_filed]
  · exact queuedStarts_filed ..

/-- A request of a unit has to wait exactly while the unit is being stopped. -/
theorem submitRequest_eq_none_iff (h : m.get u = some rt) (target : JobTarget)
    (source : RequestSource) :
    (m.submitRequest k u target source).2 = none ↔ rt.state = .deactivating := by
  have hget : (m.filed k u target source).get u = some rt := by rw [filed_get, h]
  rw [submitRequest_snd, effectFor, hget, Option.bind_some, JobQueue.reconcile, filed_targetOf,
    Option.bind_some]
  generalize (JobQueue.winner _ _).target = target
  cases target <;> cases rt.state <;> simp [JobQueue.action]

theorem get_submitRequest_started (h : m.get u = some rt) (source : RequestSource) :
    (m.submitRequest k u .started source).1.get v = m.get v := by
  rcases get_submitRequest (k := k) (v := v) h .started source with hv | ⟨-, ht, -⟩
  · exact hv
  · cases ht

/-- A start that has to wait is queued, and no other start is. -/
theorem queuedStarts_submitRequest (h : m.get u = some rt) (source : RequestSource) :
    (m.submitRequest k u .started source).1.queuedStarts =
      if rt.state = .deactivating then m.queuedStarts.insert u source else m.queuedStarts := by
  have hdeact : (m.answered k u .started source).isDeactivating u =
      decide (rt.state = .deactivating) := by
    have hget : (m.answered k u .started source).get u = some rt :=
      (get_submitRequest_started h source).trans h
    simp [isDeactivating, hget]
  have hnone : ((m.filed k u .started source).effectFor u).isNone =
      decide (rt.state = .deactivating) := by
    rw [← submitRequest_snd, Bool.eq_iff_iff, Option.isNone_iff_eq_none,
      submitRequest_eq_none_iff h, decide_eq_true_eq]
  rw [submitRequest_fst]
  dsimp only
  rw [hdeact, hnone, queuedStarts_answered, Bool.and_self]
  simp only [decide_eq_true_eq]

/-- The manager a start request works on : it makes the instance that is asked for. -/
theorem requestStart_cases (k : Kernel) (m : UnitManager) (u : UnitName) (source : RequestSource) :
    (∃ rt, m.get u = some rt ∧ m.requestStart k u source = m.submitRequest k u .started source) ∨
    (∃ e, m.get u = none ∧ m.expand u = .error e ∧ m.requestStart k u source = (m, none)) ∨
    ∃ config m', m.get u = none ∧ m.expand u = .ok config ∧ m.instantiate u = .ok m' ∧
      m'.get u = some (UnitRuntime.new config) ∧
      m.requestStart k u source = m'.submitRequest k u .started source := by
  unfold requestStart request
  cases h : m.get u with
  | some rt => exact .inl ⟨rt, rfl, rfl⟩
  | none =>
    cases he : m.expand u with
    | error e =>
      refine .inr (.inl ⟨e, rfl, rfl, ?_⟩)
      simp [instantiate, he]
    | ok config =>
      obtain ⟨m', hm'⟩ : ∃ m', m.instantiate u = .ok m' := by simp [instantiate, he]
      obtain ⟨config', hc', hget⟩ := get_instantiate hm'
      obtain rfl := Except.ok.inj (he.symm.trans hc')
      refine .inr (.inr ⟨config, m', rfl, rfl, hm', by rw [hget, if_pos rfl], ?_⟩)
      rw [hm']

/-- What a start request does to the starts that wait for a stop. -/
theorem queuedStarts_requestStart (k : Kernel) (m : UnitManager) (u : UnitName)
    (source : RequestSource) : (m.requestStart k u source).1.queuedStarts =
      if m.isDeactivating u then m.queuedStarts.insert u source else m.queuedStarts := by
  rcases requestStart_cases k m u source with
    ⟨rt, h, heq⟩ | ⟨e, h, -, heq⟩ | ⟨config, m', h, -, hm', hget, heq⟩ <;> rw [heq]
  · rw [queuedStarts_submitRequest h]
    simp [isDeactivating, h]
  · simp [isDeactivating, h]
  · rw [queuedStarts_submitRequest hget, if_neg (by simp [UnitRuntime.new])]
    have hq : m'.queuedStarts = m.queuedStarts := by
      unfold instantiate at hm'
      split at hm'
      · cases hm'
      · rw [← Except.ok.inj hm']
        rfl
    simp [isDeactivating, h, hq]

/-- There is no such unit, and no template to make it from. -/
def Unknown (m : UnitManager) (u : UnitName) : Prop :=
  m.get u = none ∧ ∃ e, m.expand u = .error e

/-- A start request comes to nothing while its unit is being stopped, or for want of a unit. -/
theorem requestStart_eq_none_iff (k : Kernel) (m : UnitManager) (u : UnitName)
    (source : RequestSource) : (m.requestStart k u source).2 = none ↔
      m.isDeactivating u = true ∨ m.Unknown u := by
  rcases requestStart_cases k m u source with
    ⟨rt, h, heq⟩ | ⟨e, h, he, heq⟩ | ⟨config, m', h, hc, -, hget, heq⟩ <;> rw [heq]
  · rw [submitRequest_eq_none_iff h]
    simp [isDeactivating, Unknown, h]
  · simp [Unknown, h, he]
  · rw [submitRequest_eq_none_iff hget]
    simp [isDeactivating, Unknown, h, hc, UnitRuntime.new]

/-- The units of `m` are there, an unknown name is as unknown, and no start was queued. -/
structure Since (m m' : UnitManager) : Prop where
  templates : m'.templates = m.templates
  known : ∀ u, (m.get u).isSome = true → (m'.get u).isSome = true
  unknown : ∀ u, m.Unknown u → m'.get u = none
  queued : ∀ d, d ∈ m'.queuedStarts → d ∈ m.queuedStarts

theorem Unknown.of_templates {m' : UnitManager} (h : m.Unknown u) (hg : m'.get u = none)
    (ht : m'.templates = m.templates) : m'.Unknown u := by
  obtain ⟨-, e, he⟩ := h
  refine ⟨hg, e, ?_⟩
  rw [← he]
  unfold expand
  rw [ht]

namespace Since

variable {m' m'' : UnitManager}

theorem refl (m : UnitManager) : Since m m := ⟨rfl, fun _ => id, fun _ h => h.1, fun _ => id⟩

theorem trans (h : Since m m') (h' : Since m' m'') : Since m m'' where
  templates := h'.templates.trans h.templates
  known u hu := h'.known u (h.known u hu)
  unknown u hu := h'.unknown u (hu.of_templates (h.unknown u hu) h.templates)
  queued d hd := h.queued d (h'.queued d hd)

theorem unknown_iff (h : Since m m') : m'.Unknown u ↔ m.Unknown u := by
  constructor
  · intro hu
    refine hu.of_templates ?_ h.templates.symm
    by_contra hne
    have hsome := h.known u (Option.isSome_iff_ne_none.mpr hne)
    simp [hu.1] at hsome
  · exact fun hu => hu.of_templates (h.unknown u hu) h.templates

theorem of_touched {op : Op} (ht : Touched k m op m m') (hk : m'.templates = m.templates)
    (hq : ∀ d, d ∈ m'.queuedStarts → d ∈ m.queuedStarts) : Since m m' where
  templates := hk
  known u hu := by
    obtain ⟨rt, hrt⟩ := Option.isSome_iff_exists.mp hu
    obtain ⟨rt', hrt', -⟩ := ht.get_of_some hrt
    simp [hrt']
  unknown u hu := by
    by_contra hne
    obtain ⟨rt', hrt'⟩ := Option.ne_none_iff_exists'.mp hne
    obtain ⟨rt, hrt, -⟩ := ht.get_some hrt'
    simp [hu.1] at hrt
  queued := hq

end Since

theorem since_update (m : UnitManager) (u : UnitName) (f : UnitRuntime → Traced UnitRuntime) :
    Since m (m.update u f) where
  templates := (keeps_update m u f).templates
  known v hv := by
    rw [get_update]
    split
    · next huv => simpa [huv] using hv
    · exact hv
  unknown v hv := by
    rw [get_update]
    split
    · next huv => simp [huv, hv.1]
    · exact hv.1
  queued d hd := by rwa [queuedStarts_update] at hd

theorem since_adoptPendingConfig (m : UnitManager) (u : UnitName) :
    Since m (m.adoptPendingConfig u) := by
  unfold adoptPendingConfig
  split
  · next rt hrt =>
    refine ⟨rfl, fun v hv => ?_, fun v hv => ?_, fun _ => id⟩
    · rw [invalidateGraph_get, get_put]
      split
      · rfl
      · exact hv
    · rw [invalidateGraph_get, get_put]
      split
      · next huv => simp [Unknown, ← huv, hrt] at hv
      · exact hv.1
  · exact .refl m

theorem templates_requestStart (k : Kernel) (m : UnitManager) (u : UnitName)
    (source : RequestSource) : (m.requestStart k u source).1.templates = m.templates := by
  rcases requestStart_cases k m u source with
    ⟨rt, h, heq⟩ | ⟨e, h, -, heq⟩ | ⟨config, m', h, -, hm', hget, heq⟩ <;> rw [heq]
  · exact (keeps_submitRequest ..).templates
  · refine (keeps_submitRequest ..).templates.trans ?_
    unfold instantiate at hm'
    split at hm'
    · cases hm'
    · rw [← Except.ok.inj hm']
      rfl

/-- A start request that need not wait queues nothing. -/
theorem since_requestStart {source : RequestSource}
    (h : (m.requestStart k u source).2 ≠ none) : Since m (m.requestStart k u source).1 where
  templates := templates_requestStart k m u source
  known v hv := by
    rcases get_request k m u .started source v with hget | ⟨_, -, ht, -⟩ | ⟨config, -, -, -, hget⟩
    · rwa [requestStart, hget]
    · cases ht
    · rw [requestStart, hget]
      rfl
  unknown v hv := by
    rcases get_request k m u .started source v with hget | ⟨_, -, ht, -⟩ | ⟨config, rfl, -, hc, -⟩
    · rw [requestStart, hget, hv.1]
    · cases ht
    · obtain ⟨-, e, he⟩ := hv
      rw [hc] at he
      cases he
  queued d hd := by
    rw [queuedStarts_requestStart, if_neg] at hd
    · exact hd
    · exact fun hdeact => h ((requestStart_eq_none_iff k m u source).mpr (.inl hdeact))

theorem queuedStarts_stopConflict (k : Kernel) (m : UnitManager) (other : UnitName) {d : UnitName}
    (h : d ∈ (m.stopConflict k other).1.queuedStarts) : d ∈ m.queuedStarts := by
  unfold stopConflict at h
  split at h
  · next hn =>
    obtain ⟨rt, hrt, -⟩ := (Option.any_eq_true _ _).mp hn
    have hreq : m.requestStop k other .userStop = m.submitRequest k other .stopped .userStop := by
      unfold requestStop request
      rw [hrt]
    dsimp only at h
    rw [stopUnit, queuedStarts_update, hreq, submitRequest_fst] at h
    dsimp only at h
    rw [queuedStarts_answered] at h
    exact Std.ExtTreeMap.mem_of_mem_erase h
  · exact h

theorem since_stopConflicts (k : Kernel) (m : UnitManager) (u : UnitName) :
    Since m (m.stopConflicts k u).1 := by
  have hboth : Keeps m (m.stopConflicts k u).1 ∧
      ∀ d, d ∈ (m.stopConflicts k u).1.queuedStarts → d ∈ m.queuedStarts := by
    unfold stopConflicts
    split
    · exact ⟨.refl m, fun _ => id⟩
    · refine Runs.foldl_induction (P := fun _ (s : UnitManager × List UnitName) =>
        Keeps m s.1 ∧ ∀ d, d ∈ s.1.queuedStarts → d ∈ m.queuedStarts) ⟨.refl m, fun _ => id⟩ ?_
      intro _ other _ s _ h
      exact ⟨h.1.trans (keeps_stopConflict k s.1 other),
        fun d hd => h.2 d (queuedStarts_stopConflict k s.1 other hd)⟩
  exact .of_touched (touched_stopConflicts k m u) hboth.1.templates hboth.2

theorem since_turnOp {k' : Kernel} {op : Op} (h : StartFlow.TurnOp k u k' m op) :
    Since m (m.apply k' op) := by
  obtain ⟨rfl, rfl | rfl | rfl | ⟨deadline, rfl⟩ | ⟨calls, rfl⟩⟩ := h
  · exact since_stopConflicts k' m u
  · refine .of_touched (touched_beginSpawnUnit k' m u) ?_ ?_
    · change (m.beginSpawnUnit k' u).1.templates = m.templates
      unfold beginSpawnUnit
      split <;> rfl
    · change ∀ d, d ∈ (m.beginSpawnUnit k' u).1.queuedStarts → d ∈ m.queuedStarts
      unfold beginSpawnUnit
      split <;> exact fun _ => id
  · refine .of_touched (touched_failStart k' m u) ?_ ?_
    · exact (keeps_update m u _).templates
    · intro d hd
      rwa [show (m.apply k' (.failStart u)).queuedStarts = m.queuedStarts from
        queuedStarts_update m u _] at hd
  · refine .of_touched (k := k') (touched_modify fun rt _ => .capStartDeadline deadline rt) ?_ ?_
    · exact (keeps_modify m u _).templates
    · intro d hd
      rwa [show (m.apply k' (.capStartDeadline u deadline)).queuedStarts = m.queuedStarts from
        queuedStarts_update m u _] at hd
  · exact ⟨rfl, fun _ => id, fun _ h => h.1, fun _ => id⟩

theorem Since.of_guarded {m' : UnitManager} (h : Guarded (StartFlow.TurnOp k u) m m') :
    Since m m' := by
  induction h with
  | refl => exact .refl m
  | tail _ hstep ih =>
    obtain ⟨k', op, -, hop, rfl⟩ := hstep
    exact ih.trans (since_turnOp hop)

end UnitManager

namespace ControlStart

variable {k : Kernel} {t : Turn}

/-! ## Polling -/

/-- What polling the unit a job waits for does. -/
inductive Polled (t : Turn) : Turn × Bool → Prop
  | idle (h : t.job.waiting = none) : Polled t (t, false)
  | goesOn {w : UnitName} {rt : UnitRuntime} (h : t.job.waiting = some w)
    (hg : t.manager.get w = some rt)
    (hs : rt.state.isSatisfied = true ∨ w ≠ t.job.target ∧ t.job.required.contains w = false) :
    Polled t ({ t with job := { t.job with waiting := none } }, false)
  | waits {w : UnitName} (h : t.job.waiting = some w) : Polled t (t, true)
  | lost {w : UnitName} (h : t.job.waiting = some w) (hf : t.flows.contains w = false)
    (hg : t.manager.get w = none) :
    Polled t ({ t with done := some (.noSuchUnit, "no such unit: " ++ w.canonical) }, true)
  | givesUp {w : UnitName} (h : t.job.waiting = some w)
    (hn : w = t.job.target ∨ t.job.required.contains w = true) :
    Polled t ({ t with done := some (.error, failureText w t.job.target) }, true)

theorem polled_poll (t : Turn) : Polled t (poll t) := by
  unfold poll
  split
  · next h => exact .idle h
  · next w h =>
    unfold pollWaiting
    dsimp only
    split
    · exact .waits h
    · next hf =>
      split
      · next hg => exact .lost h ((Bool.not_eq_true _).mp hf) hg
      · next rt hg =>
        split
        · next hs => exact .goesOn h hg (.inl (by rw [hs]; rfl))
        · next hs => exact .goesOn h hg (.inl (by rw [hs]; rfl))
        · exact .waits h
        all_goals
          split
          · next hn => exact .givesUp h (by simpa using hn)
          · next hn => exact .goesOn h hg (.inr (by simpa using hn))

/-- A job that polls and goes on waits for nothing. -/
theorem waiting_poll (h : (poll t).2 = false) : (poll t).1.job.waiting = none := by
  have hpolled := polled_poll t
  generalize poll t = r at hpolled h
  cases hpolled with
  | idle hw => exact hw
  | goesOn => rfl
  | waits | lost | givesUp => cases h

/-! ## Turns -/

/-- How a turn of a control start ends, with `l` left of its order : it waits or gives up at the
unit it polls, or is answered by the unit it asks for, or has come to the end of its order. -/
inductive Ends (k : Kernel) (l : List UnitName) (t₁ t' : Turn) : Prop
  | polled (hp : (poll t₁).2 = true) (he : t' = (poll t₁).1)
  | asked (hp : (poll t₁).2 = false) {u : UnitName} {rest : List UnitName} (hl : l = u :: rest)
    (he : t' = requestUnit k (poll t₁).1.next u) (hd : t'.done.isSome = true)
  | finished (hl : l = []) (hp : (poll t₁).2 = false)
    (he : t' = { (poll t₁).1 with done := some (.ok, if (poll t₁).1.job.targetWasActive then
      (poll t₁).1.job.target.canonical ++ " is already active"
      else "started " ++ (poll t₁).1.job.target.canonical) })

/-- A property of a turn, and of what is left of its order, that polling and asking keep holds
where the turn ends. -/
theorem runOrder_cases {P : List UnitName → Turn → Prop}
    (hpoll : ∀ l t, P l t → (poll t).2 = false → P l (poll t).1)
    (hask : ∀ u l t, P (u :: l) t → t.job.waiting = none →
      (requestUnit k t.next u).done = none → P l (requestUnit k t.next u))
    (l : List UnitName) (t : Turn) (ht : P l t) :
    ∃ rest t₁, P rest t₁ ∧ Ends k rest t₁ (runOrder k l t) := by
  induction l generalizing t with
  | nil =>
    refine ⟨[], t, ht, ?_⟩
    unfold runOrder
    cases hp : poll t with
    | mk t₁ b =>
      cases b with
      | true => exact .polled (by rw [hp]) (by rw [hp])
      | false => exact .finished rfl (by rw [hp]) (by rw [hp])
  | cons u l ih =>
    have hwaiting := waiting_poll (t := t)
    unfold runOrder
    cases hp : poll t with
    | mk t₁ b =>
      rw [hp] at hwaiting
      cases b with
      | true => exact ⟨u :: l, t, ht, .polled (by rw [hp]) (by rw [hp])⟩
      | false =>
        have h1 : P (u :: l) t₁ := by simpa [hp] using hpoll (u :: l) t ht (by rw [hp])
        change ∃ rest t₂, P rest t₂ ∧ Ends k rest t₂
          (if (requestUnit k t₁.next u).done.isSome then requestUnit k t₁.next u
            else runOrder k l (requestUnit k t₁.next u))
        split
        · next hd => exact ⟨u :: l, t, ht, .asked (by rw [hp]) rfl (by rw [hp]) hd⟩
        · next hd => exact ih _ (hask u l t₁ h1 (hwaiting rfl) (by simpa using hd))

/-! ## Asking for a unit -/

theorem since_beginFlow (k : Kernel) (m : UnitManager) (flows : Flows) (u : UnitName) :
    m.Since (beginFlow k m flows u).1 := by
  have hadopt := m.since_adoptPendingConfig u
  have hnew : (StartFlow.new k m u).1 = m.adoptPendingConfig u := by
    unfold StartFlow.new
    dsimp only
    split
    · rfl
    · split <;> rfl
  rw [← hnew] at hadopt
  unfold beginFlow
  split
  · exact .refl m
  · generalize StartFlow.new k m u = r at hadopt
    obtain ⟨m', e | flow⟩ := r <;> exact hadopt

theorem since_applyStartEffect (k : Kernel) (m : UnitManager) (flows : Flows) (u : UnitName)
    (effect : Effect) : m.Since (applyStartEffect k m flows u effect).1 := by
  cases effect with
  | spawnProcess | cancelBackoffAndStart => exact since_beginFlow k m flows u
  | clearStartLimitAndStart =>
    exact (m.since_update u _).trans (since_beginFlow k (m.clearStartLimit u) flows u)
  | none | scheduleBackoff => exact .refl m
  | sendStopSignal | cancelBackoffAndStop => exact m.since_update u _

theorem since_startUnit (k : Kernel) (t : Turn) (u : UnitName) (effect : Effect) :
    t.manager.Since (startUnit k t u effect).manager := by
  have heffect := since_applyStartEffect k t.manager t.flows u effect
  unfold startUnit
  generalize applyStartEffect k t.manager t.flows u effect = r at heffect
  obtain ⟨m, flows, e | ok⟩ := r
  · exact heffect
  · dsimp only
    split
    · exact heffect
    · next flow _ =>
      exact heffect.trans (.of_guarded (StartFlow.guarded_advance k
        { flow := flow, manager := m, aux := t.aux } rfl))

/-- Where a request of a unit of the order comes from. -/
def sourceOf (t : Turn) (u : UnitName) : RequestSource :=
  if u = t.job.target then .userStart else .dependency

/-- The turn once a unit was asked for. -/
def requested (k : Kernel) (t : Turn) (u : UnitName) : Turn :=
  { t with manager := (t.manager.requestStart k u (sourceOf t u)).1 }

/-- A unit of the order has to be asked for : it is not up, not being started, and has not
failed, unless it is the target. -/
structure Needed (t : Turn) (u : UnitName) : Prop where
  failed : u ≠ t.job.target → t.manager.isFailed u = false
  satisfied : (t.manager.get u).any (·.state.isSatisfied) = false
  flow : t.flows.contains u = false

/-- What asking for a unit of the order does. -/
inductive Asked (k : Kernel) (t : Turn) (u : UnitName) : Turn → Prop
  | broken (hf : t.manager.isFailed u = true) (hr : t.job.required.contains u = true) :
    Asked k t u { t with done := some (.error, failureText u t.job.target) }
  | passed (h : t.manager.isFailed u = true ∧ u ≠ t.job.target ∧ t.job.required.contains u = false ∨
      (t.manager.get u).any (·.state.isSatisfied) = true) : Asked k t u t
  | joined (h : t.flows.contains u = true) :
    Asked k t u { t with job := { t.job with waiting := some u } }
  | idle (hn : Needed t u)
    (he : (t.manager.requestStart k u (sourceOf t u)).2 = some .none) :
    Asked k t u { requested k t u with job := { t.job with waiting := some u } }
  | queued (hn : Needed t u)
    (he : (t.manager.requestStart k u (sourceOf t u)).2 = none) (hu : u = t.job.target) :
    Asked k t u { requested k t u with
      done := some (.ok, u.canonical ++ " is stopping; it will start afterwards") }
  | stopping (hn : Needed t u)
    (he : (t.manager.requestStart k u (sourceOf t u)).2 = none) (hu : u ≠ t.job.target) :
    Asked k t u { requested k t u with
      done := some (.error, "dependency " ++ u.canonical ++ " is still stopping") }
  | started {effect : Effect} (hn : Needed t u)
    (he : (t.manager.requestStart k u (sourceOf t u)).2 = some effect) :
    Asked k t u (startUnit k (requested k t u) u effect)

theorem asked_requestUnit (k : Kernel) (t : Turn) (u : UnitName) :
    Asked k t u (requestUnit k t u) := by
  unfold requestUnit
  split
  · next h =>
    rw [Bool.and_eq_true, decide_eq_true_eq] at h
    split
    · next hr => exact .broken h.2 hr
    · next hr => exact .passed (.inl ⟨h.2, h.1, by simpa using hr⟩)
  · next hfailed =>
    split
    · next h => exact .passed (.inr h)
    · next hsat =>
      split
      · next h => exact .joined h
      · next hflow =>
        have hn : Needed t u := by
          refine ⟨fun hu => ?_, by simpa using hsat, (Bool.not_eq_true _).mp hflow⟩
          simpa [hu] using hfailed
        dsimp only
        rw [show (if u = t.job.target then RequestSource.userStart else .dependency) =
          sourceOf t u from rfl]
        split
        · next he => exact .idle hn he
        · next he =>
          split
          · next hu => exact .queued hn he hu
          · next hu => exact .stopping hn he hu
        · next effect _ he => exact .started hn he

/-! ## Jobs that are turned away -/

/-- What a job finds at one of its turns. -/
structure Moment where
  k : Kernel
  manager : UnitManager
  flows : Flows
  aux : AuxExits

/-- The job at the beginning of a turn. -/
def Moment.enter (w : Moment) (job : ControlStart) : Turn :=
  { job := job, manager := w.manager, flows := w.flows, aux := w.aux }

/-- The turn of a job. -/
def Moment.turn (w : Moment) (job : ControlStart) : Turn := advance w.k (w.enter job)

/-- The job waits at every turn and is answered at the last one. -/
inductive Answers (reply : Reply) : ControlStart → List Moment → Prop
  | last {job : ControlStart} (w : Moment) (h : (w.turn job).done = some reply) :
    Answers reply job [w]
  | wait {job : ControlStart} (w : Moment) {ws : List Moment} (h : (w.turn job).done = none)
    (hr : Answers reply (w.turn job).job ws) : Answers reply job (w :: ws)

/-- No turn of the job queues a start of `d`. -/
def AddsNoStart (d : UnitName) : ControlStart → List Moment → Prop
  | _, [] => True
  | job, w :: ws =>
    (d ∈ (w.turn job).manager.queuedStarts → d ∈ w.manager.queuedStarts) ∧
      AddsNoStart d (w.turn job).job ws

/-- The answer to a start whose dependency `d` is being stopped. -/
def stoppingReply (d : UnitName) : Reply :=
  (.error, "dependency " ++ d.canonical ++ " is still stopping")

theorem stoppingReply_injective {d e : UnitName} (h : stoppingReply d = stoppingReply e) : d = e := by
  have htext := congrArg (fun r : Reply => r.2.toList) h
  simp only [stoppingReply, String.toList_append, List.append_cancel_right_eq,
    List.append_cancel_left_eq] at htext
  exact UnitName.canonical_injective (String.toList_injective htext)

theorem stoppingReply_ne_failureText (d w target : UnitName) :
    (Status.error, failureText w target) ≠ stoppingReply d := by
  intro h
  have htext := congrArg (fun r : Reply => r.2.toList.getLast?) h
  unfold failureText stoppingReply at htext
  split at htext
  all_goals
    simp only [String.toList_append, List.getLast?_append] at htext
    simp at htext

theorem stoppingReply_ne_timeout (d target : UnitName) : (Status.error,
    target.canonical ++ ": start did not finish within its timeout budget") ≠ stoppingReply d := by
  intro h
  have htext := congrArg (fun r : Reply => r.2.toList.getLast?) h
  simp only [stoppingReply, String.toList_append, List.getLast?_append] at htext
  simp at htext

/-- A start that cannot be made has another answer. -/
theorem startUnit_ne_stoppingReply (hd : t.done = none) (d u : UnitName) (effect : Effect) :
    (startUnit k t u effect).done ≠ some (stoppingReply d) := by
  unfold startUnit
  generalize applyStartEffect k t.manager t.flows u effect = r
  obtain ⟨m, flows, e | ok⟩ := r
  · intro h
    have htext := congrArg (fun r : Reply => r.2.toList.head?) (Option.some.inj h)
    dsimp only at htext
    split at htext <;> simp [stoppingReply] at htext
  · dsimp only
    split <;> simp [hd]

/-- A turn that goes on has queued nothing. -/
def GoesOn (m : UnitManager) (t : Turn) : Prop := m.Since t.manager ∧ t.done = none

theorem GoesOn.poll {m : UnitManager} (h : GoesOn m t) (hp : (poll t).2 = false) :
    GoesOn m (poll t).1 := by
  have hpolled := polled_poll t
  generalize ControlStart.poll t = r at hp hpolled
  cases hpolled with
  | idle | goesOn => exact h
  | waits | lost | givesUp => cases hp

theorem GoesOn.ask {m : UnitManager} (h : GoesOn m t) {u : UnitName}
    (hd : (requestUnit k t.next u).done = none) : GoesOn m (requestUnit k t.next u) := by
  have hasked := asked_requestUnit k t.next u
  generalize requestUnit k t.next u = t' at hd hasked
  have hrequested (he : (t.manager.requestStart k u (sourceOf t.next u)).2 ≠ none) :
      m.Since (requested k t.next u).manager :=
    h.1.trans (UnitManager.since_requestStart he)
  cases hasked with
  | broken => cases hd
  | passed | joined => exact ⟨h.1, h.2⟩
  | idle _ he => exact ⟨hrequested (by simp [show (t.manager.requestStart k u _).2 = _ from he]), h.2⟩
  | queued | stopping => cases hd
  | started _ he =>
    exact ⟨(hrequested (by simp [show (t.manager.requestStart k u _).2 = _ from he])).trans
      (since_startUnit k _ u _), hd⟩

variable {w : Moment} {job : ControlStart} {d : UnitName}

/-- A turn is too late, or ends where polling and asking have led. -/
theorem turn_cases {P : List UnitName → Turn → Prop}
    (hpoll : ∀ l t, P l t → (poll t).2 = false → P l (poll t).1)
    (hask : ∀ u l t, P (u :: l) t → t.job.waiting = none →
      (requestUnit w.k t.next u).done = none → P l (requestUnit w.k t.next u))
    (h : P (job.order.drop job.index) (w.enter job)) :
    job.deadline ≤ w.k.now ∧ w.turn job = { w.enter job with done := some (.error,
      job.target.canonical ++ ": start did not finish within its timeout budget") } ∨
    ∃ rest t₁, P rest t₁ ∧ Ends w.k rest t₁ (w.turn job) := by
  unfold Moment.turn advance
  split
  · next hdl => exact .inl ⟨hdl, rfl⟩
  · exact .inr (runOrder_cases hpoll hask (job.order.drop job.index) (w.enter job) h)

theorem goesOn_cases (w : Moment) (job : ControlStart) :
    job.deadline ≤ w.k.now ∧ w.turn job = { w.enter job with done := some (.error,
      job.target.canonical ++ ": start did not finish within its timeout budget") } ∨
    ∃ rest t₁, GoesOn w.manager t₁ ∧ Ends w.k rest t₁ (w.turn job) :=
  turn_cases (fun _ _ ht hp => ht.poll hp) (fun _ _ _ ht _ hd => ht.ask hd) ⟨.refl w.manager, rfl⟩

theorem since_of_waits (h : (w.turn job).done = none) :
    w.manager.Since (w.turn job).manager := by
  rcases goesOn_cases w job with ⟨-, he⟩ | ⟨rest, t₁, hgo, hends⟩
  · rw [he] at h
    cases h
  · cases hends with
    | polled hp he =>
      rw [he, poll_manager]
      exact hgo.1
    | asked _ _ _ hd => simp [h] at hd
    | finished _ _ he =>
      rw [he] at h
      cases h

theorem poll_ne_stoppingReply (hd : t.done = none) (d : UnitName) :
    (poll t).1.done ≠ some (stoppingReply d) := by
  have hpolled := polled_poll t
  generalize poll t = r at hpolled
  cases hpolled with
  | idle | goesOn | waits => simp [hd]
  | lost => simp [stoppingReply]
  | givesUp => exact fun h => stoppingReply_ne_failureText d _ _ (Option.some.inj h)

/-- A job that is turned away has asked for the dependency, and for nothing after it. -/
theorem requestStart_of_stopping (h : (w.turn job).done = some (stoppingReply d)) :
    ∃ m source, w.manager.Since m ∧ (m.requestStart w.k d source).2 = none ∧
      (w.turn job).manager = (m.requestStart w.k d source).1 := by
  rcases goesOn_cases w job with ⟨-, he⟩ | ⟨rest, t₁, hgo, hends⟩
  · rw [he] at h
    exact absurd (Option.some.inj h) (stoppingReply_ne_timeout d job.target)
  · generalize w.turn job = t' at h hends
    cases hends with
    | polled hp he =>
      rw [he] at h
      exact absurd h (poll_ne_stoppingReply hgo.2 d)
    | finished _ _ he =>
      rw [he] at h
      cases h
    | @asked hp u _ _ he hd =>
      have hpolled := hgo.poll hp
      have hasked := asked_requestUnit w.k (poll t₁).1.next u
      rw [← he] at hasked
      cases hasked with
      | broken => exact absurd (Option.some.inj h) (stoppingReply_ne_failureText d _ _)
      | passed | joined | idle =>
        exact absurd (hpolled.2.symm.trans h) (by simp)
      | queued => cases h
      | stopping _ hnone =>
        obtain rfl := stoppingReply_injective (Option.some.inj h)
        exact ⟨_, _, hpolled.1, hnone, rfl⟩
      | started =>
        exact absurd h (startUnit_ne_stoppingReply (t := requested w.k (poll t₁).1.next u)
          hpolled.2 d u _)

/-- The turn that turns a job away has queued a start, unless there is no such unit. -/
theorem mem_queuedStarts_of_stopping (h : (w.turn job).done = some (stoppingReply d)) :
    (d ∈ (w.turn job).manager.queuedStarts → d ∈ w.manager.queuedStarts) ↔
      d ∈ w.manager.queuedStarts ∨ w.manager.Unknown d := by
  obtain ⟨m, source, hsince, hnone, hm⟩ := requestStart_of_stopping h
  rw [hm, UnitManager.queuedStarts_requestStart]
  rcases (UnitManager.requestStart_eq_none_iff w.k m d source).mp hnone with hdeact | hunknown
  · rw [if_pos hdeact]
    have hknown : ¬w.manager.Unknown d := by
      intro hu
      rw [UnitManager.isDeactivating, hsince.unknown d hu] at hdeact
      cases hdeact
    simp [hknown]
  · have hdeact : m.isDeactivating d = false := by simp [UnitManager.isDeactivating, hunknown.1]
    rw [if_neg (by simp [hdeact])]
    exact iff_of_true (hsince.queued d) (.inr (hsince.unknown_iff.mp hunknown))

/-- A job that is turned away because `d` is still stopping leaves no start of `d` behind,
exactly when there was one or there is no such unit. -/
theorem addsNoStart_iff {ws : List Moment} (h : Answers (stoppingReply d) job ws) :
    AddsNoStart d job ws ↔
      ∀ w, ws.getLast? = some w → d ∈ w.manager.queuedStarts ∨ w.manager.Unknown d := by
  induction h with
  | last w h => simp [AddsNoStart, mem_queuedStarts_of_stopping h]
  | @wait job w ws h hr ih =>
    -- only the last turn queues anything : the ones before have not been answered
    have hlast : (w :: ws).getLast? = ws.getLast? := by
      cases hr <;> rfl
    rw [hlast, AddsNoStart, ih]
    exact and_iff_right ((since_of_waits h).queued d)

/-! ## A dependency that is being stopped -/

/-- A directory with a service and the one it requires. -/
def requiringService : List UnitFile :=
  [{ name := serviceA
     path := "/etc/rinit/a.service"
     contents := "[Unit]\nRequires=b.service\n[Service]\nExecStart=/bin/a\n" },
    { name := serviceB
      path := "/etc/rinit/b.service"
      contents := "[Service]\nExecStart=/bin/b\n" }]

/-- The moment at which the loop advances its jobs, when there are no flows. -/
def Moment.of (k : Kernel) (s : Supervisor) : Moment :=
  ⟨k, s.manager, s.starts.flows, s.starts.auxExits⟩

/-- Whether the first job is turned away because the dependency is still stopping. -/
def turnsAway (s : Supervisor) : Bool :=
  s.starts.controls.head?.any fun job =>
    decide ((Moment.turn (.of (.granting 6 10) s) job).done = some (stoppingReply serviceB))

/-- The dependency was started by the boot and is being stopped, and `l` was done since. -/
theorem exists_turnsAway {l : List (ℕ × Pid × Input)} {p : Supervisor → Bool}
    (h : ((BootPlan.planBoot requiringService [] "b.service").toOption.map fun plan =>
      (Supervisor.init (.granting 0 10) plan none).steps ([(1, 10, .boot), (2, 10, .advance),
        (3, 10, .boot), (4, 10, .control (.stop serviceB))] ++ l)).any
          (fun s => turnsAway s && p s) = true) :
    ∃ s job, Supervisor.Reached s ∧ s.starts.controls.head? = some job ∧
      Answers (stoppingReply serviceB) job [.of (.granting 6 10) s] ∧ p s = true := by
  obtain ⟨s, hs, hp⟩ := Supervisor.exists_reached _ _ h
  rw [Bool.and_eq_true] at hp
  obtain ⟨job, hjob, hturn⟩ := (Option.any_eq_true _ _).mp hp.1
  exact ⟨s, job, hs, hjob, .last _ (of_decide_eq_true hturn), hp.2⟩

/-- A dependency that was asked for before the job is started afterwards anyway. -/
theorem addsNoStart_queued : ∃ s job, Supervisor.Reached s ∧
    s.starts.controls.head? = some job ∧
    Answers (stoppingReply serviceB) job [.of (.granting 6 10) s] ∧
    AddsNoStart serviceB job [.of (.granting 6 10) s] := by
  obtain ⟨s, job, hs, hjob, hans, hp⟩ := exists_turnsAway
    (l := [(5, 10, .control (.start serviceB)), (5, 10, .advance),
      (5, 10, .control (.start serviceA))])
    (p := fun s => decide (serviceB ∈ s.manager.queuedStarts)) (by decide +kernel)
  refine ⟨s, job, hs, hjob, hans, (addsNoStart_iff hans).mpr fun w hw => .inl ?_⟩
  obtain rfl := Option.some.inj hw
  exact of_decide_eq_true hp

/-- The stop of the dependency was the last thing asked for, the start that needs it is turned
away, and the dependency is up again once its stop is over. -/
theorem startsAfterwards_turnedAway : ∃ s job, Supervisor.Reached s ∧
    s.starts.controls.head? = some job ∧
    Answers (stoppingReply serviceB) job [.of (.granting 6 10) s] ∧
    serviceB ∉ s.manager.queuedStarts ∧
    ¬AddsNoStart serviceB job [.of (.granting 6 10) s] ∧
    ((s.steps [(6, 10, .advance), (7, 10, .reap [(10, .signalled 15)]), (8, 11, .queuedStarts),
      (9, 11, .advance)]).manager.get serviceB).any
        (fun rt => rt.state = .active && rt.pid = some 11) = true := by
  obtain ⟨s, job, hs, hjob, hans, hp⟩ := exists_turnsAway
    (l := [(5, 10, .control (.start serviceA))])
    (p := fun s => decide (serviceB ∉ s.manager.queuedStarts) &&
      (s.manager.get serviceB).isSome &&
      ((s.steps [(6, 10, .advance), (7, 10, .reap [(10, .signalled 15)]), (8, 11, .queuedStarts),
        (9, 11, .advance)]).manager.get serviceB).any
          fun rt => rt.state = .active && rt.pid = some 11) (by decide +kernel)
  simp only [Bool.and_eq_true, decide_eq_true_eq] at hp
  refine ⟨s, job, hs, hjob, hans, hp.1.1, fun hno => ?_, hp.2⟩
  cases hans with
  | wait _ _ hr => cases hr
  | last _ hturn =>
    rcases (mem_queuedStarts_of_stopping hturn).mp hno.1 with hq | hunknown
    · exact hp.1.1 hq
    · have hget : s.manager.get serviceB = none := hunknown.1
      simp [hget] at hp

end ControlStart

end Rinit
