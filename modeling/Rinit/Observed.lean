import Rinit.Activation
import Rinit.Cache
import Rinit.Listeners
import Rinit.Teardown

/-!
# What a start has seen

A job of a start goes through its order and keeps no record of what it found there. `history`
is this record for a run of its turns : the units it found up, the ones it went past although
they were not up, and the ones it asked for. `history_requires_iff` : what a unit requires has
been seen up by the time the job asks for the unit, exactly when it stands before the unit in the
order and was not gone past. It does stand there if the order is that of the definitions in force
(`sublist_order_of_scratch`), but the job goes past everything its target can do without,
also what the next unit cannot do without (`not_seen_wanted`).

`Handled` is what carries this through a run : the units before the index have been seen up or
gone past, once, but for the one the job waits for.
-/

open Relation

namespace Rinit

namespace ControlStart

/-- What a job does at a unit of its order : it finds the unit up, goes past it although it is
not up, or asks for it. -/
inductive Sight where
  | up (unit : UnitName)
  | down (unit : UnitName)
  | asked (unit : UnitName)
deriving DecidableEq, Repr

/-- What a job finds of the unit it waits for, when it goes on. -/
def pollSights (t : Turn) : List Sight :=
  match t.job.waiting with
  | none => []
  | some waiting =>
    if (poll t).2 then []
    else if (t.manager.get waiting).any (·.state.isSatisfied) then [.up waiting]
    else [.down waiting]

/-- What a job does at the next unit of its order. -/
def askSights (t : Turn) (unit : UnitName) : List Sight :=
  if unit ≠ t.job.target && t.manager.isFailed unit then
    if t.job.required.contains unit then [] else [.down unit]
  else if (t.manager.get unit).any (·.state.isSatisfied) then [.up unit]
  else if t.flows.contains unit then []
  else [.asked unit]

/-- The record of the rest of a turn. -/
def sightsOf (k : Kernel) : List UnitName → Turn → List Sight
  | [], t => pollSights t
  | unit :: rest, t =>
    pollSights t ++
      match poll t with
      | (_, true) => []
      | (t, false) =>
        let t' := requestUnit k t.next unit
        askSights t.next unit ++ if t'.done.isSome then [] else sightsOf k rest t'

/-- The record of a turn. -/
def sights (k : Kernel) (t : Turn) : List Sight :=
  if t.job.deadline ≤ k.now then [] else sightsOf k (t.job.order.drop t.job.index) t

/-- The record of a job over its turns, up to the one that answers it. -/
def history : ControlStart → List Moment → List Sight
  | _, [] => []
  | job, w :: ws =>
    sights w.k (w.enter job) ++
      if (w.turn job).done.isSome then [] else history (w.turn job).job ws

/-! ## One unit after the other -/

/-- Where a record stands : each of the units that were handled was seen up or gone past, and
not both, but for the one that is waited for. -/
structure Handled (handled : List UnitName) (waiting : Option UnitName) (h : List Sight) :
    Prop where
  seen : ∀ r ∈ handled, waiting ≠ some r → .up r ∈ h ∨ .down r ∈ h
  mem : ∀ r, .up r ∈ h ∨ .down r ∈ h → r ∈ handled ∧ waiting ≠ some r
  once : ∀ r, .up r ∈ h → .down r ∉ h
  waits : ∀ w, waiting = some w → w ∈ handled

/-- What a unit of the order needs has been seen up when the job asks for it, if it comes before
the unit and was not gone past. -/
def Truthful (order : List UnitName) (h : List Sight) : Prop :=
  ∀ before u, before ++ [.asked u] <+: h → ∀ r,
    .up r ∈ before ↔ [r, u].Sublist order ∧ .down r ∉ before

section Handled

variable {handled order : List UnitName} {waiting : Option UnitName} {u : UnitName}
  {h : List Sight}

theorem Handled.nil : Handled [] none [] where
  seen r hr := by cases hr
  mem r hr := by simp at hr
  once r hr := by cases hr
  waits w hw := by cases hw

/-- The job comes to the next unit, and waits for it. -/
theorem Handled.next (hh : Handled handled none h) (hu : u ∉ handled) :
    Handled (handled ++ [u]) (some u) h where
  seen r hr hne := by
    rcases List.mem_append.mp hr with hr | hr
    · exact hh.seen r hr (by simp)
    · exact absurd (congrArg some (List.mem_singleton.mp hr)) (Ne.symm hne)
  mem r hr := by
    have hmem := (hh.mem r hr).1
    refine ⟨List.mem_append_left _ hmem, fun he => ?_⟩
    obtain rfl := Option.some.inj he
    exact hu hmem
  once := hh.once
  waits w hw := by
    obtain rfl := Option.some.inj hw
    simp

/-- The job finds the unit it waits for up, or goes past it. -/
theorem Handled.look (hh : Handled handled (some u) h) {sight : Sight}
    (hs : sight = .up u ∨ sight = .down u) : Handled handled none (h ++ [sight]) where
  seen r hr _ := by
    by_cases hru : r = u
    · subst hru
      rcases hs with rfl | rfl <;> simp
    · rcases hh.seen r hr (fun he => hru (Option.some.inj he).symm) with hr | hr <;> simp [hr]
  mem r hr := by
    refine ⟨?_, by simp⟩
    by_cases hru : r = u
    · exact hru ▸ hh.waits u rfl
    · refine (hh.mem r ?_).1
      rcases hs with rfl | rfl <;> simpa [hru] using hr
  once r hr := by
    -- the unit was neither seen up nor gone past before
    have hfresh (hm : .up u ∈ h ∨ .down u ∈ h) : False := (hh.mem u hm).2 rfl
    rcases hs with rfl | rfl
    · rw [List.mem_append, List.mem_singleton] at hr ⊢
      rintro (hd | hd)
      · rcases hr with hr | hr
        · exact hh.once r hr hd
        · obtain rfl := Sight.up.inj hr
          exact hfresh (.inr hd)
      · cases hd
    · rw [List.mem_append, List.mem_singleton] at hr ⊢
      rintro (hd | hd)
      · rcases hr with hr | hr
        · exact hh.once r hr hd
        · cases hr
      · obtain rfl := Sight.down.inj hd
        rcases hr with hr | hr
        · exact hfresh (.inl hr)
        · cases hr
  waits w hw := by cases hw

/-- Asking for a unit says nothing about any. -/
theorem Handled.ask (hh : Handled handled waiting h) (v : UnitName) :
    Handled handled waiting (h ++ [.asked v]) where
  seen r hr hne := by simpa using hh.seen r hr hne
  mem r hr := hh.mem r (by simpa using hr)
  once r hr := by simpa using hh.once r (by simpa using hr)
  waits := hh.waits

theorem Truthful.nil : Truthful order [] := by
  intro before u hp
  simp at hp

/-- What the job sees adds nothing to check. -/
theorem Truthful.look (ht : Truthful order h) {sight : Sight} (hs : ∀ v, sight ≠ .asked v) :
    Truthful order (h ++ [sight]) := by
  intro before v hp
  rcases List.prefix_concat_iff.mp hp with he | hp
  · exact absurd (List.append_inj_right' he rfl) (by simpa using (hs v).symm)
  · exact ht before v hp

theorem sublist_pair_split {α : Type*} {l rest : List α} {r a : α} (hn : (l ++ a :: rest).Nodup) :
    [r, a].Sublist (l ++ a :: rest) ↔ r ∈ l := by
  have ha : a ∉ rest := (List.nodup_cons.mp (List.nodup_append.mp hn).2.1).1
  rw [sublist_pair_append]
  constructor
  · rintro (hs | ⟨hr, -⟩ | hs)
    · exact hs.mem (by simp)
    · exact hr
    · refine absurd ?_ ha
      cases hs with
      | cons _ hs => exact hs.mem (by simp)
      | cons_cons _ hs => exact hs.mem (by simp)
  · exact fun hr => .inr (.inl ⟨hr, List.mem_cons_self⟩)

/-- When the job asks for a unit, what comes before it has been handled. -/
theorem Truthful.ask {rest : List UnitName} (ht : Truthful (handled ++ u :: rest) h)
    (hh : Handled handled none h) (hn : (handled ++ u :: rest).Nodup) :
    Truthful (handled ++ u :: rest) (h ++ [.asked u]) := by
  intro before v hp r
  rcases List.prefix_concat_iff.mp hp with he | hp
  · obtain ⟨rfl, hv⟩ := List.append_inj' he rfl
    obtain rfl : v = u := by simpa using hv
    rw [sublist_pair_split hn]
    constructor
    · exact fun hr => ⟨(hh.mem r (.inl hr)).1, hh.once r hr⟩
    · rintro ⟨hr, hd⟩
      exact (hh.seen r hr (by simp)).resolve_right hd
  · exact ht before v hp r

end Handled

/-! ## Turns -/

/-- Where the record of a job stands. -/
def Kept (job : ControlStart) (h : List Sight) : Prop :=
  Handled (job.order.take job.index) job.waiting h

variable {k : Kernel} {t : Turn} {h : List Sight}

/-- A job that goes on has looked at the unit it waited for. -/
theorem kept_poll (hk : Kept t.job h) (hp : (poll t).2 = false) :
    Kept (poll t).1.job (h ++ pollSights t) ∧ (poll t).1.job.waiting = none := by
  unfold pollSights
  have hpolled := polled_poll t
  generalize poll t = r at hp hpolled
  cases hpolled with
  | idle hw =>
    simpa [hw] using hk
  | @goesOn w _ hw =>
    rw [hw]
    unfold Kept at hk ⊢
    rw [hw] at hk
    refine ⟨?_, rfl⟩
    dsimp only
    rw [if_neg Bool.false_ne_true]
    split
    · exact hk.look (.inl rfl)
    · exact hk.look (.inr rfl)
  | waits | lost | givesUp => cases hp

/-- A job that stays at the unit it waits for has nothing to record. -/
theorem poll_stays (hp : (poll t).2 = true) : (poll t).1.job = t.job ∧ pollSights t = [] := by
  constructor
  · have hpolled := polled_poll t
    generalize poll t = r at hp hpolled
    cases hpolled with
    | idle | goesOn => cases hp
    | waits | lost | givesUp => rfl
  · unfold pollSights
    split
    · rfl
    · exact if_pos hp

theorem truthful_poll {order : List UnitName} (ht : Truthful order h) (t : Turn) :
    Truthful order (h ++ pollSights t) := by
  unfold pollSights
  split
  · simpa using ht
  · split
    · simpa using ht
    · split
      · exact ht.look fun v => by simp
      · exact ht.look fun v => by simp

/-- A unit that was made a flow is waited for. -/
theorem startUnit_waiting {u : UnitName} {effect : Effect}
    (hd : (startUnit k t u effect).done = none) :
    (startUnit k t u effect).job.waiting = some u := by
  unfold startUnit at hd ⊢
  generalize applyStartEffect k t.manager t.flows u effect = r at hd
  obtain ⟨m, flows, e | ok⟩ := r
  · cases hd
  · rfl

/-- The units before the index, with the one that is asked for next. -/
theorem take_succ_of_drop {α : Type*} {l rest : List α} {i : ℕ} {a : α}
    (h : l.drop i = a :: rest) : l.take (i + 1) = l.take i ++ [a] := by
  have hi : l[i]? = some a := by rw [← List.head?_drop, h, List.head?_cons]
  rw [List.take_add_one, hi, Option.toList_some]

/-- A job that goes on waits for the next unit, or has seen it up or gone past it. -/
theorem requestUnit_sights {u : UnitName} (hw : t.job.waiting = none)
    (hd : (requestUnit k t u).done = none) :
    (requestUnit k t u).job.waiting = some u ∧
      (askSights t u = [] ∨ askSights t u = [.asked u]) ∨
    (requestUnit k t u).job.waiting = none ∧
      (askSights t u = [.up u] ∨ askSights t u = [.down u]) := by
  unfold requestUnit at hd ⊢
  unfold askSights
  split
  · next hf =>
    rw [if_pos hf] at hd
    split
    · next hr =>
      rw [if_pos hr] at hd
      cases hd
    · exact .inr ⟨hw, .inr rfl⟩
  · next hf =>
    rw [if_neg hf] at hd
    split
    · exact .inr ⟨hw, .inl rfl⟩
    · next hs =>
      rw [if_neg hs] at hd
      split
      · exact .inl ⟨rfl, .inl rfl⟩
      · next hflow =>
        rw [if_neg hflow] at hd
        refine .inl ⟨?_, .inr rfl⟩
        dsimp only at hd ⊢
        generalize t.manager.requestStart k u _ = r at hd
        obtain ⟨m, effect⟩ := r
        cases effect with
        | none =>
          dsimp only at hd
          split at hd <;> cases hd
        | some effect =>
          cases effect with
          | none => rfl
          | _ => exact startUnit_waiting hd

/-- A job that goes on has handled the next unit, or waits for it. -/
theorem kept_ask {u : UnitName} {rest : List UnitName} (hk : Kept t.job h)
    (hw : t.job.waiting = none) (hl : t.job.order.drop t.job.index = u :: rest)
    (hn : t.job.order.Nodup) (hd : (requestUnit k t.next u).done = none) :
    Kept (requestUnit k t.next u).job (h ++ askSights t.next u) := by
  have hjob := requestUnit_job k t.next u
  have hnot : u ∉ t.job.order.take t.job.index := by
    intro hu
    rw [← List.take_append_drop t.job.index t.job.order, hl] at hn
    exact (List.nodup_append.mp hn).2.2 u hu u List.mem_cons_self rfl
  unfold Kept at hk ⊢
  rw [hw] at hk
  rw [hjob.1.order, hjob.2]
  change Handled (t.job.order.take (t.job.index + 1)) _ _
  rw [take_succ_of_drop hl]
  have hnext := hk.next hnot
  rcases requestUnit_sights (t := t.next) hw hd with ⟨hwait, he | he⟩ | ⟨hwait, he | he⟩
  · rw [hwait, he, List.append_nil]
    exact hnext
  · rw [hwait, he]
    exact hnext.ask u
  · rw [hwait, he]
    exact hnext.look (.inl rfl)
  · rw [hwait, he]
    exact hnext.look (.inr rfl)

theorem truthful_ask {u : UnitName} {rest : List UnitName} (ht : Truthful t.job.order h)
    (hk : Kept t.job h) (hw : t.job.waiting = none)
    (hl : t.job.order.drop t.job.index = u :: rest) (hn : t.job.order.Nodup) :
    Truthful t.job.order (h ++ askSights t.next u) := by
  unfold askSights
  split
  · split
    · simpa using ht
    · exact ht.look fun v => by simp
  · split
    · exact ht.look fun v => by simp
    · split
      · simpa using ht
      · unfold Kept at hk
        rw [hw] at hk
        rw [← List.take_append_drop t.job.index t.job.order, hl] at ht hn ⊢
        exact ht.ask hk hn

/-- A job that waits on stays where it is. -/
theorem runOrder_of_stays (hp : (poll t).2 = true) (l : List UnitName) :
    runOrder k l t = (poll t).1 ∧ sightsOf k l t = pollSights t := by
  cases l with
  | nil =>
    unfold runOrder sightsOf
    cases hpoll : poll t with
    | mk t₁ b =>
      obtain rfl : b = true := by rwa [hpoll] at hp
      exact ⟨rfl, rfl⟩
  | cons u rest =>
    unfold runOrder sightsOf
    cases hpoll : poll t with
    | mk t₁ b =>
      obtain rfl : b = true := by rwa [hpoll] at hp
      exact ⟨rfl, List.append_nil _⟩

/-- One that does not asks for the next unit, and goes on unless it is answered. -/
theorem runOrder_of_goesOn (hp : (poll t).2 = false) (u : UnitName) (rest : List UnitName) :
    runOrder k (u :: rest) t =
        (if (requestUnit k (poll t).1.next u).done.isSome then requestUnit k (poll t).1.next u
          else runOrder k rest (requestUnit k (poll t).1.next u)) ∧
      sightsOf k (u :: rest) t = pollSights t ++ (askSights (poll t).1.next u ++
        if (requestUnit k (poll t).1.next u).done.isSome then []
          else sightsOf k rest (requestUnit k (poll t).1.next u)) := by
  rw [runOrder, sightsOf]
  cases hpoll : poll t with
  | mk t₁ b =>
    obtain rfl : b = false := by rwa [hpoll] at hp
    exact ⟨rfl, rfl⟩

theorem truthful_of_stays (hp : (poll t).2 = true) (l : List UnitName) (hk : Kept t.job h)
    (ht : Truthful t.job.order h) : Truthful t.job.order (h ++ sightsOf k l t) ∧
      ((runOrder k l t).done = none → Kept (runOrder k l t).job (h ++ sightsOf k l t)) := by
  obtain ⟨hrun, hsights⟩ := runOrder_of_stays (k := k) hp l
  obtain ⟨hjob, hnone⟩ := poll_stays hp
  rw [hrun, hsights]
  refine ⟨truthful_poll ht t, fun _ => ?_⟩
  rw [hnone, List.append_nil]
  exact hjob.symm ▸ hk

/-- The record of what is left of a turn is truthful, and the job is where it says. -/
theorem truthful_runOrder (l : List UnitName) (t : Turn) (h : List Sight)
    (hl : t.job.order.drop t.job.index = l) (hn : t.job.order.Nodup) (hk : Kept t.job h)
    (ht : Truthful t.job.order h) :
    Truthful t.job.order (h ++ sightsOf k l t) ∧
      ((runOrder k l t).done = none → Kept (runOrder k l t).job (h ++ sightsOf k l t)) := by
  induction l generalizing t h with
  | nil =>
    by_cases hp : (poll t).2 = true
    · exact truthful_of_stays hp [] hk ht
    refine ⟨truthful_poll ht t, fun hd => ?_⟩
    unfold runOrder at hd
    rw [show poll t = ((poll t).1, false) from Prod.ext rfl (Bool.not_eq_true _ ▸ hp)] at hd
    cases hd
  | cons u rest ih =>
    by_cases hp : (poll t).2 = true
    · exact truthful_of_stays hp _ hk ht
    rw [Bool.not_eq_true] at hp
    obtain ⟨hrun, hsights⟩ := runOrder_of_goesOn (k := k) hp u rest
    obtain ⟨hk', hw⟩ := kept_poll hk hp
    have hsame := poll_job t
    have hjob := requestUnit_job k (poll t).1.next u
    have hl' : (poll t).1.job.order.drop (poll t).1.job.index = u :: rest := by
      rw [hsame.1.order, hsame.2.1, hl]
    have hn' : (poll t).1.job.order.Nodup := hsame.1.order ▸ hn
    have hask := truthful_ask (hsame.1.order.symm ▸ truthful_poll ht t) hk' hw hl' hn'
    rw [hrun, hsights, ← List.append_assoc, ← List.append_assoc]
    by_cases hd : (requestUnit k (poll t).1.next u).done = none
    · rw [if_neg (by simp [hd]), if_neg (by simp [hd])]
      have horder : (requestUnit k (poll t).1.next u).job.order = t.job.order :=
        hjob.1.order.trans hsame.1.order
      rw [← horder]
      refine ih _ _ ?_ (horder ▸ hn) (kept_ask hk' hw hl' hn' hd) ?_
      · rw [hjob.1.order, hjob.2]
        change (poll t).1.job.order.drop ((poll t).1.job.index + 1) = rest
        rw [← List.drop_drop, hl']
        rfl
      · rw [horder, ← hsame.1.order]
        exact hask
    · have hsome := Option.isSome_iff_ne_none.mpr hd
      rw [if_pos hsome, if_pos hsome, List.append_nil, ← hsame.1.order]
      exact ⟨hask, fun h => absurd h hd⟩

/-- A turn adds the truth to the record, and leaves the job where the record says. -/
theorem truthful_turn (w : Moment) {job : ControlStart} (hn : job.order.Nodup) (hk : Kept job h)
    (ht : Truthful job.order h) : Truthful job.order (h ++ sights w.k (w.enter job)) ∧
      ((w.turn job).done = none → Kept (w.turn job).job (h ++ sights w.k (w.enter job))) := by
  unfold sights Moment.turn advance
  split
  · exact ⟨by simpa using ht, fun hd => by cases hd⟩
  · exact truthful_runOrder _ (w.enter job) h rfl hn hk ht

theorem truthful_history (ws : List Moment) (job : ControlStart) (h : List Sight)
    (hn : job.order.Nodup) (hk : Kept job h) (ht : Truthful job.order h) :
    Truthful job.order (h ++ history job ws) := by
  induction ws generalizing job h with
  | nil => simpa [history] using ht
  | cons w ws ih =>
    obtain ⟨hturn, hkept⟩ := truthful_turn w hn hk ht
    unfold history
    rw [← List.append_assoc]
    split
    · simpa using hturn
    · next hd =>
      have hsame := sameJob_turn w job
      have hnext := ih (w.turn job).job _ (hsame.order ▸ hn) (hkept (by simpa using hd))
        (hsame.order ▸ hturn)
      rwa [hsame.order] at hnext

/-! ## The order of a start -/

end ControlStart

namespace UnitManager

variable {m : UnitManager} {u : UnitName} {deps : List UnitName}

theorem nodup_orderIn {configs : List UnitConfig} {graph : DependencyGraph}
    (hb : DependencyGraph.build configs = .ok graph) (ho : orderIn graph u = .ok deps) :
    (deps ++ [u]).Nodup := by
  obtain ⟨_, levels, -, hlevels, hs⟩ := DependencyGraph.schedules_of_build hb
  unfold orderIn at ho
  rw [hlevels] at ho
  obtain rfl := Except.ok.inj ho
  rw [List.nodup_append]
  refine ⟨hs.levels_nodup.filter _, List.nodup_singleton u, fun a ha b hb => ?_⟩
  obtain rfl := List.mem_singleton.mp hb
  simp only [List.mem_filter, Bool.and_eq_true, decide_eq_true_eq] at ha
  exact ha.2.1

/-- The order of a start has each of its units once. -/
theorem nodup_startOrder (h : Reachable m) (ho : (m.startOrder u).2 = .ok deps) :
    (deps ++ [u]).Nodup := by
  rw [startOrder_eq] at ho
  by_cases hcur : ∃ graph, m.Current graph
  · obtain ⟨graph, hcur⟩ := hcur
    obtain ⟨configs, hb⟩ := h.cacheBuilt _ graph hcur
    rw [graph_of_current hcur] at ho
    exact nodup_orderIn hb ho
  · rw [graph_of_not_current (not_exists.mp hcur)] at ho
    unfold graph.rebuild at ho
    cases hb : DependencyGraph.build m.configs with
    | error e =>
      rw [hb] at ho
      cases ho
    | ok graph =>
      rw [hb] at ho
      exact nodup_orderIn hb ho

end UnitManager

/-- `a` names `b` in `Requires=`. -/
def RequiresUnit (configs : List UnitConfig) (a b : UnitName) : Prop :=
  ∃ c ∈ configs, c.name = a ∧ b ∈ c.deps.requires

instance decidableRequiresUnit (configs : List UnitConfig) (a b : UnitName) :
    Decidable (RequiresUnit configs a b) :=
  inferInstanceAs (Decidable (∃ c ∈ configs, c.name = a ∧ b ∈ c.deps.requires))

theorem waitsFor_of_activates {configs : List UnitConfig} {a b : UnitName}
    (h : Activates configs a b) : WaitsFor configs a b := by
  obtain ⟨c, hc, hca, hb | hb⟩ := h
  · exact .inl ⟨c, hc, hca, .inl hb⟩
  · exact .inl ⟨c, hc, hca, .inr (.inl hb)⟩

/-- Nothing waits for itself, also through others. -/
theorem DependencyGraph.Schedules.not_transGen {configs : List UnitConfig}
    {order : List UnitName} {levels : List (List UnitName)}
    (h : Schedules configs order levels) (a : UnitName) : ¬TransGen (WaitsFor configs) a a := by
  intro ha
  obtain ⟨i, j, hi, hj, hij⟩ := h.level_transGen ha
  exact hij.ne ((h.level_height j a hj).unique (h.level_height i a hi))

/-- Only a unit of the graph has a closure. -/
theorem DependencyGraph.mem_units_of_closureOf {graph : DependencyGraph} {t u : UnitName}
    (h : u ∈ graph.closureOf t) : t ∈ graph.units := by
  by_contra ht
  unfold closureOf at h
  rw [indexOf_eq_none.mpr ht] at h
  cases h

/-- An order that comes from the definitions in force has what a unit requires before it. -/
theorem UnitManager.sublist_order_of_scratch {m : UnitManager} {u a r : UnitName}
    {deps : List UnitName} (ho : m.scratchOrder u = .ok deps) (ha : a ∈ deps ++ [u])
    (hr : RequiresUnit m.configs a r) : [r, a].Sublist (deps ++ [u]) := by
  unfold scratchOrder at ho
  cases hb : DependencyGraph.build m.configs with
  | error e =>
    rw [hb] at ho
    cases ho
  | ok graph =>
    rw [hb] at ho
    obtain ⟨_, levels, -, hlevels, hs⟩ := DependencyGraph.schedules_of_build hb
    have hacc := DependencyGraph.assembled_of_assemble (DependencyGraph.build_eq_ok_iff.mp hb).1
    obtain ⟨c, hc, hca, hcr⟩ := hr
    have hact : Activates m.configs a r := ⟨c, hc, hca, .inl hcr⟩
    have hwait := waitsFor_of_activates hact
    unfold orderIn at ho
    simp only [hlevels] at ho
    obtain rfl := Except.ok.inj ho
    -- the unit is reached from the target, and so is what it requires
    have hreach : u ∈ graph.units ∧ ReflTransGen (Activates m.configs) u a := by
      rcases List.mem_append.mp ha with ha | ha
      · have hin : a ∈ graph.closureOf u := by
          simpa using (Bool.and_eq_true_iff.mp (List.mem_filter.mp ha).2).2
        have hu := DependencyGraph.mem_units_of_closureOf hin
        exact ⟨hu, ((DependencyGraph.closureOf_of_build hb hu).2 a).mp hin⟩
      · obtain rfl := List.mem_singleton.mp ha
        exact ⟨hacc.perm_names.mem_iff.mpr (hca ▸ List.mem_map_of_mem hc), .refl⟩
    obtain ⟨hu, hreach⟩ := hreach
    have hclosure := (DependencyGraph.closureOf_of_build hb hu).2
    obtain ⟨i, j, hi, hj, hij⟩ := hs.level_lt a r hwait
    have hwaits {b : UnitName} (hb : ReflTransGen (Activates m.configs) b a) :
        ReflTransGen (WaitsFor m.configs) b a :=
      ReflTransGen.mono (fun _ _ h => waitsFor_of_activates h) _ _ hb
    have hne : r ≠ u := by
      rintro rfl
      exact hs.not_transGen r (.tail' (hwaits hreach) hwait)
    have hkeep : (decide (r ≠ u) && (graph.closureOf u).contains r) = true := by
      simp [hne, (hclosure r).mpr (hreach.tail hact)]
    rw [sublist_pair_append]
    rcases List.mem_append.mp ha with ha | ha
    · have hkeep' := (List.mem_filter.mp ha).2
      exact .inl ((sublist_pair_filter (p := fun b => b ≠ u && (graph.closureOf u).contains b)
        hkeep hkeep').mpr (sublist_pair_flatten hj hi hij))
    · refine .inr (.inl ⟨List.mem_filter.mpr ⟨?_, hkeep⟩, ha⟩)
      exact (sublist_pair_flatten hj hi hij).mem List.mem_cons_self

/-! ## Requirements -/

namespace ControlStart

/-- By the time a unit is asked for, everything it requires has been seen up. -/
def SeesRequired (configs : List UnitConfig) (h : List Sight) : Prop :=
  ∀ before u, before ++ [.asked u] <+: h → ∀ r, RequiresUnit configs u r → .up r ∈ before

/-- A unit that is asked for stands behind everything it requires, and nothing of it was gone
past. -/
def PassesNone (configs : List UnitConfig) (order : List UnitName) (h : List Sight) : Prop :=
  ∀ before u, before ++ [.asked u] <+: h → ∀ r, RequiresUnit configs u r →
    [r, u].Sublist order ∧ .down r ∉ before

/-- A job begins at the first unit of its order, which ends with its target. -/
theorem order_of_new {k : Kernel} {m m' : UnitManager} {unit : UnitName} {job : ControlStart}
    (h : ControlStart.new k m unit = (m', .ok job)) : ∃ deps,
      (m.startOrder unit).2 = .ok deps ∧ job.order = deps ++ [unit] ∧ job.index = 0 ∧
      job.waiting = none := by
  unfold ControlStart.new at h
  generalize m.startOrder unit = r at h
  obtain ⟨m₁, e | deps⟩ := r
  · cases h
  · obtain ⟨-, hjob⟩ := Prod.mk.inj h
    obtain rfl := Except.ok.inj hjob
    exact ⟨deps, rfl, rfl, rfl, rfl⟩

/-- In every run of a job, whatever happens between its turns, what a unit requires has been seen
up when the unit is asked for, exactly when it stands before the unit in the order and was not
gone past. It does stand there in an order of the definitions in force. -/
theorem history_requires_iff {k : Kernel} {m m' : UnitManager} {unit : UnitName}
    {job : ControlStart} (hm : Reachable m)
    (hnew : ControlStart.new k m unit = (m', .ok job)) (reply : ReplySlot) (ws : List Moment) :
    (SeesRequired m.configs (history { job with reply := reply } ws) ↔
      PassesNone m.configs job.order (history { job with reply := reply } ws)) ∧
    ((m.startOrder unit).2 = m.scratchOrder unit → ∀ u ∈ job.order, ∀ r,
      RequiresUnit m.configs u r → [r, u].Sublist job.order) := by
  obtain ⟨deps, hdeps, horder, hindex, hwaiting⟩ := order_of_new hnew
  constructor
  · have hn : job.order.Nodup := horder ▸ UnitManager.nodup_startOrder hm hdeps
    have hk : Kept { job with reply := reply } [] := by
      unfold Kept
      rw [show job.waiting = none from hwaiting, show job.index = 0 from hindex]
      exact .nil
    have htrue := truthful_history ws { job with reply := reply } [] hn hk .nil
    exact forall₃_congr fun before u hp => forall₂_congr fun r _ => htrue before u hp r
  · intro hfresh u hu r hr
    rw [horder] at hu ⊢
    exact UnitManager.sublist_order_of_scratch (hfresh.symm.trans hdeps) hu hr

/-! ### A chain of which only the first part is wanted -/

/-- A service that wants another one, which requires a third one, which is restarted when it
exits. -/
def wantedChain : List UnitFile :=
  [{ name := serviceA
     path := "/etc/rinit/a.service"
     contents := "[Unit]\nWants=b.service\n[Service]\nExecStart=/bin/a\n" },
    { name := serviceB
      path := "/etc/rinit/b.service"
      contents := "[Unit]\nRequires=c.service\n[Service]\nExecStart=/bin/b\n" },
    { name := serviceC
      path := "/etc/rinit/c.service"
      contents := "[Service]\nType=notify\nExecStart=/bin/c\nRestart=always\n" },
    { name := targetD
      path := "/etc/rinit/d.target"
      contents := "[Unit]\n" }]

/-- The first service is asked for by a client. -/
def chainAsked (s : Supervisor) : Supervisor :=
  s.step (.granting 2 10) (.control (.start serviceA))

/-- The two turns of its job, with `input` in between. -/
def chainTurns (input : Input) (s : Supervisor) : List Moment :=
  [.of (.granting 3 10) (chainAsked s),
    .of (.granting 5 11) ((chainAsked s).steps [(3, 10, .advance), (4, 10, input)])]

/-- Whether the job is the one of the loop, has what is required in the right order, and leaves
the record `h`. -/
def chainLeaves (input : Input) (h : List Sight) (s : Supervisor) (job : ControlStart) : Bool :=
  decide ((chainAsked s).starts.controls = [{ job with reply := .waiting }]) &&
    decide (history { job with reply := .waiting } (chainTurns input s) = h) &&
    decide (RequiresUnit s.manager.configs serviceB serviceC) &&
    s.manager.configs.all fun c => c.deps.requires.all fun r =>
      decide ([r, c.name].Sublist job.order)

/-- A job of the first service in a state the loop gets into. -/
structure Chain (input : Input) (h : List Sight) (s : Supervisor) (job : ControlStart) : Prop where
  reached : Supervisor.Reached s
  made : ∃ m', ControlStart.new (.granting 2 10) s.manager serviceA = (m', .ok job)
  controls : (chainAsked s).starts.controls = [{ job with reply := .waiting }]
  history : history { job with reply := .waiting } (chainTurns input s) = h
  requires : RequiresUnit s.manager.configs serviceB serviceC
  order : ∀ u r, RequiresUnit s.manager.configs u r → [r, u].Sublist job.order

theorem exists_chain (input : Input) (h : List Sight)
    (hp : ((BootPlan.planBoot wantedChain [] "d.target").toOption.map fun plan =>
      (Supervisor.init (.granting 0 10) plan none).steps [(1, 10, .boot)]).any (fun s =>
        (ControlStart.new (.granting 2 10) s.manager serviceA).2.toOption.any
          (chainLeaves input h s)) = true) : ∃ s job, Chain input h s job := by
  obtain ⟨s, hs, hp⟩ := Supervisor.exists_reached _ _ hp
  obtain ⟨job, hjob, hleaves⟩ := (Option.any_eq_true _ _).mp hp
  have hok := Runs.eq_ok_of_toOption hjob
  unfold chainLeaves at hleaves
  simp only [Bool.and_eq_true, decide_eq_true_eq, List.all_eq_true] at hleaves
  obtain ⟨⟨⟨hcontrols, hhistory⟩, hrequires⟩, horder⟩ := hleaves
  refine ⟨s, job, hs, ⟨_, Prod.ext rfl hok⟩, hcontrols, hhistory, hrequires, fun u r hr => ?_⟩
  obtain ⟨c, hc, rfl, hcr⟩ := hr
  exact horder c hc r hcr

/-- The chain comes up from its end. -/
theorem history_requires_chain : ∃ s job, Chain (.notify serviceC ⟨true, none⟩)
    [.asked serviceC, .up serviceC, .asked serviceB, .up serviceB, .asked serviceA, .up serviceA]
      s job ∧
    SeesRequired s.manager.configs (history { job with reply := .waiting }
      (chainTurns (.notify serviceC ⟨true, none⟩) s)) := by
  obtain ⟨s, job, hc⟩ := exists_chain (.notify serviceC ⟨true, none⟩)
    [.asked serviceC, .up serviceC, .asked serviceB, .up serviceB, .asked serviceA, .up serviceA]
    (by decide +kernel)
  obtain ⟨m', hnew⟩ := hc.made
  refine ⟨s, job, hc, ((history_requires_iff hc.reached.sound.reachable hnew .waiting _).1).mpr ?_⟩
  intro before u hp r hr
  refine ⟨hc.order u r hr, fun hd => ?_⟩
  rw [hc.history] at hp
  have hin := hp.subset (List.mem_append_left _ hd)
  simp at hin

/-- The end of the chain crashes and waits for its restart : the job goes past it, and asks for
the service that requires it. -/
theorem not_seen_wanted : ∃ s job, Chain (.reap [(10, .failure 1)])
    [.asked serviceC, .down serviceC, .asked serviceB, .up serviceB, .asked serviceA, .up serviceA]
      s job ∧
    ¬SeesRequired s.manager.configs (history { job with reply := .waiting }
      (chainTurns (.reap [(10, .failure 1)]) s)) := by
  obtain ⟨s, job, hc⟩ := exists_chain (.reap [(10, .failure 1)])
    [.asked serviceC, .down serviceC, .asked serviceB, .up serviceB, .asked serviceA, .up serviceA]
    (by decide +kernel)
  refine ⟨s, job, hc, fun hsees => ?_⟩
  rw [hc.history] at hsees
  have hup := hsees [.asked serviceC, .down serviceC] serviceB (by decide) serviceC hc.requires
  exact absurd hup (by decide)

end ControlStart

end Rinit
