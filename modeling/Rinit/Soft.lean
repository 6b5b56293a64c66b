import Rinit.Orders

/-!
# Soft dependencies

A unit that a start only wants is not to fail it. `fair_of_calm` : a job that has not met a
wanted unit at a bad moment is answered with an error only because of its target, of a unit
the target requires or of its deadline, and with success only when its target is up, or is to
start once the stop of it is over. The bad moments are these : the unit is gone, or is being
stopped, or is a tombstone, or a stop of it is still on file (`Trips`). `not_fair_wanted` is a
start that fails because a unit it wants is being stopped.
-/

namespace Rinit

namespace UnitManager

variable {k : Kernel} {m : UnitManager} {u d : UnitName} {rt : UnitRuntime}

/-! ## What a start request asks for -/

/-- A start holds the target, unless a stop is on file that is not spent. -/
theorem filed_started_target (source : RequestSource)
    (h : m.targetOf u ≠ some .stopped ∨ m.effectFor u = some .none) :
    ∃ t, (m.filed k u .started source).jobs.targetOf u = some t ∧ t.target = .started := by
  rw [filed_targetOf]
  refine ⟨_, rfl, ?_⟩
  have hold (current : MergedTarget) (hc : (m.forgetSpentTarget u).jobs.targetOf u = some current) :
      current.target = .started := by
    unfold forgetSpentTarget at hc
    split at hc
    · rw [JobQueue.targetOf_forget, if_pos rfl] at hc
      cases hc
    · next hspent =>
      have hne := h.resolve_right hspent
      rw [targetOf, hc, Option.map_some] at hne
      cases ht : current.target with
      | started => rfl
      | stopped => exact absurd (congrArg some ht) hne
  cases hc : (m.forgetSpentTarget u).jobs.targetOf u with
  | none => rfl
  | some current =>
    unfold JobQueue.winner
    dsimp only
    split
    · rfl
    · exact hold current hc

theorem submitRequest_started_effect (hrt : m.get u = some rt) (source : RequestSource)
    (h : m.targetOf u ≠ some .stopped ∨ m.effectFor u = some .none) :
    (m.submitRequest k u .started source).2 = JobQueue.action .started rt.state := by
  obtain ⟨t, ht, hst⟩ := filed_started_target (k := k) source h
  have hget : (m.filed k u .started source).get u = some rt := by rw [filed_get, hrt]
  rw [submitRequest_snd, effectFor, hget, Option.bind_some, JobQueue.reconcile, ht,
    Option.bind_some, hst]

/-- A stop that is on file for a unit that is down is spent. -/
theorem spent_of_inactive (hrt : m.get u = some rt) (hs : rt.state = .inactive) :
    m.targetOf u ≠ some .stopped ∨ m.effectFor u = some .none := by
  by_cases ht : m.targetOf u = some .stopped
  · obtain ⟨t, ht, hst⟩ := Option.map_eq_some_iff.mp ht
    refine .inr ?_
    rw [effectFor, hrt, Option.bind_some, JobQueue.reconcile, ht, Option.bind_some, hst, hs]
    rfl
  · exact .inl ht

/-! ## Bad moments -/

/-- The start of `d` cannot be asked for now : the unit is gone, being stopped, or hidden, or
was asked to stop and has not. -/
def Trips (m : UnitManager) (d : UnitName) : Prop :=
  m.Unknown d ∨ ∃ rt, m.get d = some rt ∧
    (rt.state = .deactivating ∨
      rt.retired = true ∧ (rt.state = .inactive ∨ rt.state = .restartWait) ∨
      m.targetOf d = some .stopped ∧ (rt.state = .starting ∨ rt.state = .restartWait))

end UnitManager

/-! ## Starts that can be made -/

section Begin

variable {k : Kernel} {m : UnitManager} {flows : Flows} {u : UnitName} {rt : UnitRuntime}

end Begin

namespace ControlStart

variable {k : Kernel} {t : Turn} {u d : UnitName}

/-- The job can do without `d` : it is not the target, and the target does not require it. -/
def Soft (job : ControlStart) (d : UnitName) : Prop :=
  d ≠ job.target ∧ job.required.contains d = false

/-- The order of a job ends with its target, and has it there only. -/
def TargetLast (job : ControlStart) : Prop :=
  ∃ deps, job.order = deps ++ [job.target] ∧ job.target ∉ deps

/-- The job is as the program makes it : its target is the last of its order, nothing of which
was asked for, and what it requires was found in `m`. -/
structure Made (m : UnitManager) (job : ControlStart) : Prop where
  order : job.TargetLast
  required : job.required = m.requiredClosure job.target
  index : job.index = 0

/-- The jobs of the program are made so. -/
theorem made_of_new {m m' : UnitManager} {unit : UnitName} {job : ControlStart}
    (h : ControlStart.new k m unit = (m', .ok job)) : job.Made m' ∧ job.target = unit := by
  unfold ControlStart.new at h
  have hmem (deps : List UnitName) (ho : (m.startOrder unit).2 = .ok deps) : unit ∉ deps :=
    fun hu => (ne_of_mem_startOrder ho unit hu) rfl
  generalize m.startOrder unit = r at h hmem
  obtain ⟨m₁, e | deps⟩ := r
  · cases h
  · obtain ⟨rfl, hjob⟩ := Prod.mk.inj h
    obtain rfl := Except.ok.inj hjob
    exact ⟨⟨⟨deps, rfl, hmem deps rfl⟩, rfl, rfl⟩, rfl⟩

/-- What a turn leaves of a job as it is. -/
structure SameJob (job job' : ControlStart) : Prop where
  target : job'.target = job.target
  order : job'.order = job.order
  required : job'.required = job.required
  deadline : job'.deadline = job.deadline

theorem SameJob.refl (job : ControlStart) : SameJob job job := ⟨rfl, rfl, rfl, rfl⟩

theorem SameJob.trans {job job' job'' : ControlStart} (h : SameJob job job')
    (h' : SameJob job' job'') : SameJob job job'' :=
  ⟨h'.target.trans h.target, h'.order.trans h.order, h'.required.trans h.required,
    h'.deadline.trans h.deadline⟩

theorem SameJob.targetLast {job job' : ControlStart} (h : SameJob job job')
    (hl : job.TargetLast) : job'.TargetLast := by
  obtain ⟨deps, ho, ht⟩ := hl
  exact ⟨deps, by rw [h.order, ho, h.target], h.target ▸ ht⟩

theorem SameJob.next (t : Turn) : SameJob t.job t.next.job := ⟨rfl, rfl, rfl, rfl⟩

theorem poll_job (t : Turn) : SameJob t.job (poll t).1.job ∧
    (poll t).1.job.index = t.job.index ∧ (poll t).1.flows = t.flows := by
  have hp := polled_poll t
  generalize poll t = r at hp
  cases hp <;> exact ⟨⟨rfl, rfl, rfl, rfl⟩, rfl, rfl⟩

theorem startUnit_job (k : Kernel) (t : Turn) (u : UnitName) (effect : Effect) :
    SameJob t.job (startUnit k t u effect).job ∧
      (startUnit k t u effect).job.index = t.job.index := by
  unfold startUnit
  generalize applyStartEffect k t.manager t.flows u effect = r
  obtain ⟨m, flows, e | ok⟩ := r
  · exact ⟨.refl _, rfl⟩
  · dsimp only
    split <;> exact ⟨⟨rfl, rfl, rfl, rfl⟩, rfl⟩

theorem requestUnit_job (k : Kernel) (t : Turn) (u : UnitName) :
    SameJob t.job (requestUnit k t u).job ∧ (requestUnit k t u).job.index = t.job.index := by
  have hasked := asked_requestUnit k t u
  generalize requestUnit k t u = t' at hasked
  cases hasked with
  | started => exact startUnit_job k (requested k t u) u _
  | broken | passed | joined | idle | queued | stopping => exact ⟨⟨rfl, rfl, rfl, rfl⟩, rfl⟩

/-! ## Answers -/

/-- An error that `u` is to blame for. -/
inductive ErrorOf (u target : UnitName) : Reply → Prop
  | failed : ErrorOf u target (.error, failureText u target)
  | stopping : ErrorOf u target (stoppingReply u)
  | lost : ErrorOf u target (.noSuchUnit, "no such unit: " ++ u.canonical)
  | cannotStart (reason : String) :
    ErrorOf u target (.error, "cannot start " ++ u.canonical ++ ": " ++ reason)
  | cannotStartDependency (reason : String) :
    ErrorOf u target (.error, "cannot start dependency " ++ u.canonical ++ ": " ++ reason)

/-- The target of the job is up. -/
def TargetUp (t : Turn) : Prop := (t.manager.get t.job.target).any (·.state.isSatisfied) = true

/-- The answer is fair : success when the target is up, or is to start once its stop is over, or
is no unit; or an error of the target, of a unit it requires, or of the deadline. -/
inductive Fair (k : Kernel) (t : Turn) : Reply → Prop
  | up (text : String) (h : TargetUp t) : Fair k t (.ok, text)
  | queued (text : String) (h : t.job.target ∈ t.manager.queuedStarts) : Fair k t (.ok, text)
  | gone (text : String) (h : t.manager.Unknown t.job.target) : Fair k t (.ok, text)
  | hard {u : UnitName} {reply : Reply} (hu : ¬Soft t.job u) (h : ErrorOf u t.job.target reply) :
    Fair k t reply
  | late (text : String) (h : t.job.deadline ≤ k.now) : Fair k t (.error, text)

/-- Nothing soft is in the way where the job is : the unit it polls has not vanished, and the
next unit of the order can be asked for. -/
structure GoodMoment (t : Turn) (next : Option UnitName) : Prop where
  polled : ∀ d, t.job.waiting = some d → Soft t.job d →
    t.flows.contains d = true ∨ (t.manager.get d).isSome = true
  asked : ∀ d ∈ next, Soft t.job d → Needed t d → ¬t.manager.Trips d

/-- Every moment of a turn is a good one. -/
def Calm (k : Kernel) : List UnitName → Turn → Prop
  | [], t => GoodMoment t none
  | u :: rest, t => GoodMoment t (some u) ∧ ((poll t).2 = false →
    (requestUnit k (poll t).1.next u).done = none → Calm k rest (requestUnit k (poll t).1.next u))

theorem Calm.head {l : List UnitName} (h : Calm k l t) : GoodMoment t l.head? := by
  cases l with
  | nil => exact h
  | cons u l => exact h.1

/-- Polling a job that goes on leaves what is left of a turn calm. -/
theorem Calm.poll {l : List UnitName} (h : Calm k l t) (hp : (poll t).2 = false) :
    Calm k l (poll t).1 := by
  have hwaiting := waiting_poll hp
  obtain ⟨hsame, -, hflows⟩ := poll_job t
  have hmanager := poll_manager t
  have hagain : ControlStart.poll (ControlStart.poll t).1 = ((ControlStart.poll t).1, false) := by
    unfold ControlStart.poll at hwaiting ⊢
    rw [hwaiting]
  have hgood : GoodMoment (ControlStart.poll t).1 l.head? := by
    refine ⟨fun d hd => absurd (hwaiting.symm.trans hd) (by simp), fun d hd hs hn => ?_⟩
    rw [hmanager]
    refine h.head.asked d hd ?_ ⟨fun hu => ?_, ?_, ?_⟩
    · rwa [Soft, ← hsame.target, ← hsame.required]
    · rw [← hmanager]
      exact hn.failed (hsame.target.symm ▸ hu)
    · rw [← hmanager]
      exact hn.satisfied
    · rw [← hflows]
      exact hn.flow
  cases l with
  | nil => exact hgood
  | cons u l =>
    refine ⟨hgood, fun _ => ?_⟩
    rw [hagain]
    exact h.2 hp

/-- A job that is not done has its target last, and has asked for it and waits for it, or has
found it up, when nothing is left of its order. -/
structure OnCourse (l : List UnitName) (t : Turn) : Prop where
  going : t.done = none
  left : t.job.order.drop t.job.index = l
  last : t.job.TargetLast
  aims : l = [] → t.job.waiting = some t.job.target ∨ t.job.waiting = none ∧ TargetUp t

/-- The target is up when a job that has waited for it goes on. -/
theorem OnCourse.poll {l : List UnitName} (h : OnCourse l t) (hp : (poll t).2 = false) :
    OnCourse l (poll t).1 := by
  have hpolled := polled_poll t
  generalize ControlStart.poll t = r at hpolled hp
  cases hpolled with
  | idle => exact h
  | @goesOn w rt hw hg hs =>
    refine ⟨h.going, h.left, h.last, fun hl => .inr ⟨rfl, ?_⟩⟩
    rcases h.aims hl with ht | ⟨hnone, -⟩
    · obtain rfl : w = t.job.target := Option.some.inj (hw.symm.trans ht)
      have hsat := hs.resolve_right fun hn => hn.1 rfl
      change (t.manager.get t.job.target).any (·.state.isSatisfied) = true
      rw [hg]
      exact hsat
    · exact absurd (hnone.symm.trans hw) (by simp)
  | waits | lost | givesUp => cases hp

/-- Asking for the target waits for it, or has found it up. -/
theorem aims_requestUnit (hw : t.job.waiting = none)
    (h : (requestUnit k t t.job.target).done = none) :
    (requestUnit k t t.job.target).job.waiting = some t.job.target ∨
      (requestUnit k t t.job.target).job.waiting = none ∧
        TargetUp (requestUnit k t t.job.target) := by
  have hasked := asked_requestUnit k t t.job.target
  generalize requestUnit k t t.job.target = t' at hasked h
  cases hasked with
  | broken | queued | stopping => cases h
  | passed hup =>
    rcases hup with ⟨-, hne, -⟩ | hup
    · exact absurd rfl hne
    · exact .inr ⟨hw, hup⟩
  | joined | idle => exact .inl rfl
  | started =>
    unfold startUnit at h ⊢
    generalize applyStartEffect k _ _ _ _ = r at h ⊢
    obtain ⟨m, flows, e | ok⟩ := r
    · cases h
    · exact .inl rfl

theorem OnCourse.ask {l : List UnitName} (h : OnCourse (u :: l) t) (hw : t.job.waiting = none)
    (hd : (requestUnit k t.next u).done = none) : OnCourse l (requestUnit k t.next u) := by
  obtain ⟨hsame, hindex⟩ := requestUnit_job k t.next u
  refine ⟨hd, ?_, ((SameJob.next t).trans hsame).targetLast h.last, ?_⟩
  · rw [hsame.order, hindex]
    change t.job.order.drop (t.job.index + 1) = l
    rw [← List.drop_drop, h.left]
    rfl
  · rintro rfl
    have hu : u = t.job.target := by
      obtain ⟨deps, ho, -⟩ := h.last
      have hlast := congrArg List.getLast? h.left
      rw [List.getLast?_drop, if_neg, ho, List.getLast?_concat] at hlast
      · exact (Option.some.inj hlast).symm
      · intro hle
        have hnil := List.drop_eq_nil_iff.mpr hle
        rw [h.left] at hnil
        cases hnil
    subst hu
    rw [hsame.target]
    exact aims_requestUnit (t := t.next) hw hd

/-- The job after turns that wait, whatever happens in between. -/
inductive Driven (job : ControlStart) : ControlStart → Prop
  | start : Driven job job
  | turn {job' : ControlStart} (w : Moment) (h : Driven job job') (hw : (w.turn job').done = none) :
    Driven job (w.turn job').job

theorem sameJob_turn (w : Moment) (job : ControlStart) : SameJob job (w.turn job).job := by
  rcases @turn_cases w job (fun _ t => SameJob job t.job)
    (fun _ t ht _ => ht.trans (poll_job t).1)
    (fun u _ t ht _ _ => (ht.trans (.next t)).trans (requestUnit_job w.k t.next u).1)
    (.refl job) with ⟨-, he⟩ | ⟨rest, t₁, ht, hends⟩
  · rw [he]
    exact .refl job
  · have hpoll := ht.trans (poll_job t₁).1
    cases hends with
    | polled _ he =>
      rw [he]
      exact hpoll
    | asked _ _ he =>
      rw [he]
      exact (hpoll.trans (.next (poll t₁).1)).trans (requestUnit_job w.k (poll t₁).1.next _).1
    | finished _ _ he =>
      rw [he]
      exact hpoll

/-- Between its turns a job waits for its target when nothing is left of its order. -/
structure Poised (job : ControlStart) : Prop where
  last : job.TargetLast
  aims : job.order.length ≤ job.index → job.waiting = some job.target

theorem Poised.enter {job : ControlStart} (h : job.Poised) (w : Moment) :
    OnCourse (job.order.drop job.index) (w.enter job) :=
  ⟨rfl, rfl, h.last, fun hl => .inl (h.aims (List.drop_eq_nil_iff.mp hl))⟩

/-- A turn that waits leaves the job poised. -/
theorem Poised.turn {job : ControlStart} (h : job.Poised) {w : Moment}
    (hw : (w.turn job).done = none) : (w.turn job).job.Poised := by
  rcases @turn_cases w job OnCourse (fun _ _ ht hp => ht.poll hp)
    (fun _ _ _ ht hnone hd => ht.ask hnone hd) (h.enter w) with
    ⟨-, he⟩ | ⟨rest, t₁, ht, hends⟩
  · rw [he] at hw
    cases hw
  · generalize w.turn job = t' at hw hends
    cases hends with
    | polled hp he =>
      subst he
      have hpolled := polled_poll t₁
      generalize poll t₁ = r at hpolled hp hw
      cases hpolled with
      | idle | goesOn => cases hp
      | lost | givesUp => cases hw
      | waits hwaiting =>
        refine ⟨ht.last, fun hle => ?_⟩
        have hl : rest = [] := ht.left.symm.trans (List.drop_eq_nil_iff.mpr hle)
        refine (ht.aims hl).resolve_right fun hup => ?_
        exact absurd (hup.1.symm.trans hwaiting) (by simp)
    | asked _ _ _ hd => simp [hw] at hd
    | finished _ _ he =>
      rw [he] at hw
      cases hw

/-- A job of the service in a state the loop gets into. -/
structure Wanting (s : Supervisor) (job : ControlStart) : Prop where
  reached : Supervisor.Reached s
  head : s.starts.controls.head? = some job
  target : job.target = serviceA
  required : job.required = []
  order : job.order = [serviceB, serviceA]
  index : job.index = 0
  waiting : job.waiting = none
  deadline : 6 < job.deadline
  closure : job.required = s.manager.requiredClosure serviceA

theorem Wanting.made {s : Supervisor} {job : ControlStart} (h : Wanting s job) :
    job.Made s.manager := by
  refine ⟨⟨[serviceB], by rw [h.order, h.target]; rfl, ?_⟩, by rw [h.closure, h.target], h.index⟩
  rw [h.target, List.mem_singleton]
  decide

end ControlStart

end Rinit
