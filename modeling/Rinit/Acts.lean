import Rinit.Flows
import Rinit.Resurrect

/-!
# The loop as acts

What the units and the starts go through is a run of acts : an operation of the manager, a new
flow, a turn of a flow, the restarts that are due with their flows, a stop that is asked for
with its effect, the removal of a unit, and the end of a flow whose unit is gone. `acts_step` :
every step of the supervisor is such a run; `Reached.acts` : every state it gets into comes of
one. Properties of the loop that hold at every act, in whatever order the acts come, are shown
for the acts.
-/

namespace Rinit

open Relation

/-- The units, and the starts in flight. -/
structure World where
  manager : UnitManager := {}
  flows : Flows := ∅

/-- One thing that happens to them. -/
inductive Act where
  | op (operation : Op)
  | begin_ (unit : UnitName)
  | turn (unit : UnitName) (aux : AuxExits)
  | restarts
  | stop (unit : UnitName)
  | remove (unit : UnitName)
  | drop (unit : UnitName)

/-- The operations that stand alone : the others are parts of a turn, of the restarts or of a
removal. -/
def Op.Alone : Op → Prop
  | .dueRestarts | .beginSpawnUnit _ | .stopConflicts _ | .retire _ => False
  | _ => True

namespace World

variable {k : Kernel}

/-- Begin the start of a unit, unless there is one. -/
def begin_ (k : Kernel) (w : World) (unit : UnitName) : World :=
  ⟨(beginFlow k w.manager w.flows unit).1, (beginFlow k w.manager w.flows unit).2.1⟩

/-- Ask for a stop of a unit and carry it out. -/
def stopped (k : Kernel) (m : UnitManager) (unit : UnitName) : UnitManager :=
  (applyEffect k (m.requestStop k unit .userStop).1 unit (m.requestStop k unit .userStop).2).1

/-- Stop a unit that is up, and hide it. -/
def removed (k : Kernel) (m : UnitManager) (unit : UnitName) : UnitManager :=
  let m := if m.isUp unit then stopped k m unit else m
  UnitManager.retire k { m with listenFds := m.listenFds.erase unit } unit

/-- Advance the start of a unit; one that is done is dropped. -/
def turn (k : Kernel) (w : World) (unit : UnitName) (aux : AuxExits) : World :=
  match w.flows[unit]? with
  | none => w
  | some flow =>
    let t := StartFlow.advance k { flow := flow, manager := w.manager, aux := aux }
    ⟨t.manager, if t.done.isSome then w.flows.erase unit else w.flows.insert unit t.flow⟩

end World

namespace Act

/-- Carry out an act. -/
def run (k : Kernel) (w : World) : Act → World
  | .op o => { w with manager := w.manager.apply k o }
  | .begin_ unit => w.begin_ k unit
  | .turn unit aux => w.turn k unit aux
  | .restarts =>
    let r := w.manager.dueRestarts k
    r.2.foldl (World.begin_ k) { w with manager := r.1 }
  | .stop unit => ⟨World.stopped k w.manager unit, w.flows.erase unit⟩
  | .remove unit => { w with manager := World.removed k w.manager unit }
  | .drop unit => { w with flows := w.flows.erase unit }

/-- What the callers promise : an operation stands alone, and a flow is dropped only when its
unit is gone. -/
def Fits (w : World) : Act → Prop
  | .op o => o.Promised ∧ o.Alone
  | .drop unit => w.manager.unitExists unit = false
  | _ => True

/-- One act, under the condition `G`. -/
def Step (G : Kernel → World → Act → Prop) (w w' : World) : Prop :=
  ∃ k act, Fits w act ∧ G k w act ∧ w' = act.run k w

end Act

/-- A run of acts. -/
abbrev World.Run : World → World → Prop := ReflTransGen (Act.Step fun _ _ _ => True)

/-- The operations between two reloads : no definition of the directory comes in or goes, and
an instance is made only where there is no unit. -/
def Op.Serves (m : UnitManager) : Op → Prop
  | .addWithInFlight _ _ | .retire _ | .pruneRetired | .setTemplates _ | .setShutdownOrder _
  | .setCgroup _ | .compressStopTimeouts _ => False
  | .instantiate unit => m.unitExists unit = false
  | _ => True

/-- The acts between two reloads. -/
def Act.Serves (w : World) : Act → Prop
  | .op o => o.Serves w.manager
  | .remove _ => False
  | _ => True

/-- A run of acts between two reloads. -/
abbrev World.Serve : World → World → Prop :=
  ReflTransGen (Act.Step fun _ w act => act.Serves w)

namespace World

variable {k : Kernel} {m : UnitManager} {flows : Flows} {w w' : World}

theorem Run.act (k : Kernel) (w : World) (act : Act) (h : act.Fits w) : Run w (act.run k w) :=
  .single ⟨k, act, h, trivial, rfl⟩

theorem Run.op (k : Kernel) (m : UnitManager) (flows : Flows) (op : Op) (hp : op.Promised)
    (ha : op.Alone) : Run ⟨m, flows⟩ ⟨m.apply k op, flows⟩ :=
  .act k ⟨m, flows⟩ (.op op) ⟨hp, ha⟩

/-- The units move along a run of acts, whatever the condition on the acts. -/
theorem of_foldl {G : Kernel → World → Act → Prop} {α σ : Type*} {f : σ → α → σ} (π : σ → World)
    {l : List α} (h : ∀ s, ∀ a ∈ l, ReflTransGen (Act.Step G) (π s) (π (f s a))) (s : σ) :
    ReflTransGen (Act.Step G) (π s) (π (l.foldl f s)) := by
  induction l generalizing s with
  | nil => exact .refl
  | cons a l ih =>
    exact (h s a List.mem_cons_self).trans (ih (fun s b hb => h s b (List.mem_cons_of_mem _ hb)) _)

theorem Serve.act (k : Kernel) (w : World) (act : Act) (h : act.Fits w) (hs : act.Serves w) :
    Serve w (act.run k w) :=
  .single ⟨k, act, h, hs, rfl⟩

theorem Serve.op (k : Kernel) (m : UnitManager) (flows : Flows) (op : Op) (hp : op.Promised)
    (ha : op.Alone) (hs : op.Serves m) : Serve ⟨m, flows⟩ ⟨m.apply k op, flows⟩ :=
  .act k ⟨m, flows⟩ (.op op) ⟨hp, ha⟩ hs

theorem Serve.run (h : Serve w w') : Run w w' := by
  induction h with
  | refl => exact .refl
  | tail _ hstep ih =>
    obtain ⟨k, act, hfits, -, rfl⟩ := hstep
    exact ih.tail ⟨k, act, hfits, trivial, rfl⟩

/-! ## Starts -/

/-- What beginning the start of `u` does. -/
structure Begun (k : Kernel) (w : World) (u : UnitName) (w' : World) : Prop where
  manager : w'.manager = w.manager ∨ w'.manager = w.manager.apply k (.adoptPendingConfig u)
  kept : ∀ (v : UnitName) f, w.flows[v]? = some f → w'.flows[v]? = some f
  made : ∀ (v : UnitName) f, w'.flows[v]? = some f → w.flows[v]? = some f ∨
    v = u ∧ f.unit = u ∧ ((∃ paths, f.stage = .sockets paths) ∨ f.stage = .conflicts none)
  begun : ∀ rt, w.manager.get u = some rt → rt.retired = false → w'.flows[u]?.isSome = true

/-- A flow is made for every unit that is no tombstone, and starts at its beginning. -/
theorem new_cases (k : Kernel) (m : UnitManager) (u : UnitName) :
    (∃ e, StartFlow.new k m u = (m.adoptPendingConfig u, .error e) ∧
      ∀ rt, m.get u = some rt → rt.retired = true) ∨
    ∃ f, StartFlow.new k m u = (m.adoptPendingConfig u, .ok f) ∧ f.unit = u ∧
      ((∃ paths, f.stage = .sockets paths) ∨ f.stage = .conflicts none) := by
  have hget (rt : UnitRuntime) (hrt : m.get u = some rt) :
      (m.adoptPendingConfig u).get u = some rt.adoptPendingConfig := by
    unfold UnitManager.adoptPendingConfig
    rw [hrt]
    exact (UnitManager.get_put ..).trans (if_pos rfl)
  unfold StartFlow.new
  dsimp only
  split
  · next hnone =>
    refine .inl ⟨_, rfl, fun rt hrt => ?_⟩
    cases (hget rt hrt).symm.trans hnone
  · next rt hrt =>
    split
    · next hret =>
      refine .inl ⟨_, rfl, fun rt₀ hrt₀ => ?_⟩
      obtain rfl := Option.some.inj ((hget rt₀ hrt₀).symm.trans hrt)
      rwa [UnitRuntime.adoptPendingConfig_retired] at hret
    · refine .inr ⟨_, rfl, rfl, ?_⟩
      dsimp only
      split
      · exact .inr rfl
      · exact .inl ⟨_, rfl⟩

theorem begun_begin (k : Kernel) (w : World) (u : UnitName) : Begun k w u (w.begin_ k u) := by
  unfold begin_ beginFlow
  split
  · next hmem =>
    refine ⟨.inl rfl, fun _ _ h => h, fun _ _ h => .inl h, fun _ _ _ => ?_⟩
    rwa [Std.ExtTreeMap.contains_eq_isSome_getElem?] at hmem
  · next hmem =>
    have hnone : w.flows[u]? = none := by simpa using hmem
    rcases new_cases k w.manager u with ⟨e, hnew, hret⟩ | ⟨f, hnew, hunit, hstage⟩ <;> rw [hnew]
    · refine ⟨.inr rfl, fun _ _ h => h, fun _ _ h => .inl h, fun rt hrt hr => ?_⟩
      cases (hret rt hrt).symm.trans hr
    · refine ⟨.inr rfl, fun v f' h => ?_, fun v f' h => ?_, fun _ _ _ => by simp⟩
      · rw [Std.ExtTreeMap.getElem?_insert]
        split
        · next huv =>
          rw [← Std.LawfulEqCmp.eq_of_compare huv, hnone] at h
          cases h
        · exact h
      · rw [Std.ExtTreeMap.getElem?_insert] at h
        split at h
        · next huv =>
          obtain rfl := Option.some.inj h
          exact .inr ⟨(Std.LawfulEqCmp.eq_of_compare huv).symm, hunit, hstage⟩
        · exact .inl h

/-- Each flow is kept under the name of its unit. -/
def Keyed (w : World) : Prop := ∀ (u : UnitName) f, w.flows[u]? = some f → f.unit = u

theorem Begun.keyed {u : UnitName} (h : Begun k w u w') (hk : w.Keyed) : w'.Keyed := by
  intro v f hf
  rcases h.made v f hf with hf | ⟨rfl, hu, -⟩
  · exact hk v f hf
  · exact hu

/-- The turn of a flow that is done drops it, one that waits keeps it. -/
theorem turn_eq {u : UnitName} {f : StartFlow} (hf : w.flows[u]? = some f) (aux : AuxExits) :
    w.turn k u aux =
      ⟨(StartFlow.advance k { flow := f, manager := w.manager, aux := aux }).manager,
        if (StartFlow.advance k { flow := f, manager := w.manager, aux := aux }).done.isSome
        then w.flows.erase u else w.flows.insert u
          (StartFlow.advance k { flow := f, manager := w.manager, aux := aux }).flow⟩ := by
  unfold turn
  rw [hf]

theorem flows_turn_of_ne {u v : UnitName} (aux : AuxExits) (hv : v ≠ u) :
    (w.turn k u aux).flows[v]? = w.flows[v]? := by
  unfold turn
  split
  · rfl
  · dsimp only
    split
    · simp [Std.ExtTreeMap.getElem?_erase, Ne.symm hv]
    · simp [Std.ExtTreeMap.getElem?_insert, Ne.symm hv]

theorem Keyed.turn (h : w.Keyed) (u : UnitName) (aux : AuxExits) : (w.turn k u aux).Keyed := by
  cases hf : w.flows[u]? with
  | none => simpa [World.turn, hf] using h
  | some f =>
    intro v f' hf'
    by_cases hv : v = u
    · subst hv
      rw [turn_eq hf] at hf'
      dsimp only at hf'
      split at hf'
      · simp at hf'
      · rw [Std.ExtTreeMap.getElem?_insert_self, Option.some.injEq] at hf'
        rw [← hf', (StartFlow.advanced_advance k _ rfl).unit]
        exact h v f hf
    · exact h v f' (flows_turn_of_ne aux hv ▸ hf')

theorem Keyed.erase (h : w.Keyed) (m : UnitManager) (u : UnitName) :
    (⟨m, w.flows.erase u⟩ : World).Keyed := by
  intro v f hf
  simp only [Std.ExtTreeMap.getElem?_erase] at hf
  split at hf
  · cases hf
  · exact h v f hf

theorem guarded_turn (h : w.Keyed) (u : UnitName) (aux : AuxExits) :
    Guarded (StartFlow.TurnOp k u) w.manager (w.turn k u aux).manager := by
  cases hf : w.flows[u]? with
  | none =>
    unfold turn
    rw [hf]
    exact .refl
  | some f =>
    have hrun := StartFlow.guarded_advance k { flow := f, manager := w.manager, aux := aux } rfl
    rw [show f.unit = u from h u f hf] at hrun
    rw [turn_eq hf]
    exact hrun

/-- A stop with its effect is a run of two operations. -/
theorem guarded_stopped (k : Kernel) (m : UnitManager) (u : UnitName) :
    Guarded (fun _ _ op => op = .requestStop u .userStop ∨ op = .stopUnit u) m (stopped k m u) := by
  have hreq : Guarded (fun _ _ op => op = .requestStop u .userStop ∨ op = .stopUnit u) m
      (m.requestStop k u .userStop).1 :=
    .single ⟨k, .requestStop u .userStop, le_rfl, .inl rfl, rfl⟩
  have hstop (m : UnitManager) : Guarded
      (fun _ _ op => op = .requestStop u .userStop ∨ op = .stopUnit u) m (m.stopUnit k u) :=
    .single ⟨k, .stopUnit u, trivial, .inr rfl, rfl⟩
  unfold stopped applyEffect
  split
  all_goals first
    | exact hreq
    | exact hreq.trans (hstop _)

/-- A removal is a stop, if the unit is up, and a retirement. -/
theorem guarded_removed (k : Kernel) (m : UnitManager) (u : UnitName) :
    Guarded (fun _ _ op => op = .requestStop u .userStop ∨ op = .stopUnit u ∨
      (∃ fds, op = .setListeners fds) ∨ op = .retire u) m (removed k m u) := by
  have hstop : Guarded (fun _ _ op => op = .requestStop u .userStop ∨ op = .stopUnit u ∨
      (∃ fds, op = .setListeners fds) ∨ op = .retire u) m
      (if m.isUp u then stopped k m u else m) := by
    split
    · exact (guarded_stopped k m u).mono fun _ _ _ h => h.imp id .inl
    · exact .refl
  unfold removed
  generalize (if m.isUp u then stopped k m u else m) = m₁ at hstop
  exact (hstop.tail ⟨k, .setListeners (m₁.listenFds.erase u), trivial,
    .inr (.inr (.inl ⟨_, rfl⟩)), rfl⟩).tail ⟨k, .retire u, trivial, .inr (.inr (.inr rfl)), rfl⟩

theorem run_applyEffect (k : Kernel) (m : UnitManager) (flows : Flows) (u : UnitName)
    (effect : Option Effect) : Serve ⟨m, flows⟩ ⟨(applyEffect k m u effect).1, flows⟩ := by
  have hstop : Serve ⟨m, flows⟩ ⟨m.stopUnit k u, flows⟩ :=
    .op k m flows (.stopUnit u) trivial trivial trivial
  unfold applyEffect
  split
  all_goals first
    | exact .refl
    | exact hstop

theorem run_applyStartEffect (k : Kernel) (m : UnitManager) (flows : Flows) (u : UnitName)
    (effect : Effect) : Serve ⟨m, flows⟩
      ⟨(applyStartEffect k m flows u effect).1, (applyStartEffect k m flows u effect).2.1⟩ := by
  have hbegin (m : UnitManager) : Serve ⟨m, flows⟩ (begin_ k ⟨m, flows⟩ u) :=
    .act k ⟨m, flows⟩ (.begin_ u) trivial trivial
  have hclear : Serve ⟨m, flows⟩ ⟨m.clearStartLimit u, flows⟩ :=
    .op k m flows (.clearStartLimit u) trivial trivial trivial
  have hstop : Serve ⟨m, flows⟩ ⟨m.stopUnit k u, flows⟩ :=
    .op k m flows (.stopUnit u) trivial trivial trivial
  unfold applyStartEffect
  split
  · exact hbegin m
  · exact hbegin m
  · exact hclear.trans (hbegin _)
  · exact .refl
  · exact hstop
  · exact hstop
  · exact .refl

theorem run_requestStart (k : Kernel) (m : UnitManager) (flows : Flows) (u : UnitName)
    {source : RequestSource} (h : source.rank ≤ RequestSource.userStart.rank) :
    Serve ⟨m, flows⟩ ⟨(m.requestStart k u source).1, flows⟩ :=
  .op k m flows (.requestStart u source) h trivial trivial

theorem run_turn (k : Kernel) (w : World) (u : UnitName) (aux : AuxExits) :
    Serve w (w.turn k u aux) :=
  .act k w (.turn u aux) trivial trivial

theorem run_note (m : UnitManager) (flows : Flows) (calls : List Call) :
    Serve ⟨m, flows⟩ ⟨{ m with calls := m.calls ++ calls }, flows⟩ :=
  .op (.granting 0 0) m flows (.note calls) trivial trivial trivial

end World

/-! ## Control starts -/

namespace ControlStart

variable {k : Kernel}

/-- The world a turn of a control start works on. -/
def Turn.world (t : Turn) : World := ⟨t.manager, t.flows⟩

theorem run_startUnit (k : Kernel) (t : Turn) (u : UnitName) (effect : Effect) :
    World.Serve t.world (startUnit k t u effect).world := by
  have heffect := World.run_applyStartEffect k t.manager t.flows u effect
  unfold startUnit
  dsimp only
  generalize applyStartEffect k t.manager t.flows u effect = r at heffect
  obtain ⟨m, flows, e | ok⟩ := r
  · exact heffect
  · refine heffect.trans ?_
    have hturn := World.run_turn k ⟨m, flows⟩ u t.aux
    unfold World.turn at hturn
    dsimp only at hturn ⊢
    split
    · exact .refl
    · next flow hflow =>
      rw [hflow] at hturn
      exact hturn

theorem run_requestUnit (k : Kernel) (t : Turn) (u : UnitName) :
    World.Serve t.world (requestUnit k t u).world := by
  have hreq (source : RequestSource) (h : source.rank ≤ RequestSource.userStart.rank) :=
    World.run_requestStart k t.manager t.flows u h
  unfold requestUnit
  split
  · split <;> exact .refl
  · split
    · exact .refl
    · split
      · exact .refl
      · have hsource : (if u = t.job.target then RequestSource.userStart
            else .dependency).rank ≤ RequestSource.userStart.rank := by
          split <;> decide
        have hreq := hreq _ hsource
        dsimp only
        generalize t.manager.requestStart k u _ = r at hreq
        obtain ⟨m, effect⟩ := r
        dsimp only at hreq ⊢
        split
        · exact hreq
        · split <;> exact hreq
        · exact hreq.trans (run_startUnit k { t with manager := m } u _)

theorem world_poll (t : Turn) : (poll t).1.world = t.world := by
  unfold poll
  split
  · rfl
  · unfold pollWaiting
    dsimp only
    split
    · rfl
    · split
      · rfl
      · split
        all_goals first
          | rfl
          | split <;> rfl

theorem run_runOrder (k : Kernel) (l : List UnitName) (t : Turn) :
    World.Serve t.world (runOrder k l t).world := by
  induction l generalizing t with
  | nil =>
    have hpoll := world_poll t
    unfold runOrder
    generalize poll t = r at hpoll
    obtain ⟨t', _ | _⟩ := r
    · exact hpoll ▸ .refl
    · exact hpoll ▸ .refl
  | cons u rest ih =>
    have hpoll := world_poll t
    unfold runOrder
    generalize poll t = r at hpoll
    obtain ⟨t', _ | _⟩ := r
    · have hask := run_requestUnit k { t' with job := { t'.job with index := t'.job.index + 1 } } u
      have hask : World.Serve t.world (requestUnit k
          { t' with job := { t'.job with index := t'.job.index + 1 } } u).world := hpoll ▸ hask
      dsimp only
      split
      · exact hask
      · exact hask.trans (ih _)
    · exact hpoll ▸ .refl

theorem run_advance (k : Kernel) (t : Turn) : World.Serve t.world (advance k t).world := by
  unfold advance
  split
  · exact .refl
  · exact run_runOrder k _ t

theorem run_new (k : Kernel) (m : UnitManager) (flows : Flows) (u : UnitName) :
    World.Serve ⟨m, flows⟩ ⟨(ControlStart.new k m u).1, flows⟩ := by
  rw [ReloadState.controlStart_new_fst]
  exact .op k m flows (.startOrder u) trivial trivial trivial

end ControlStart

/-! ## The coordinator -/

namespace StartCoordinator

/-- What dropping a flow leaves : a kill, and the other flows. -/
theorem removeFlow_eq (k : Kernel) (c : StartCoordinator) (m : UnitManager) (u : UnitName) :
    ∃ calls, (c.removeFlow k m u).1 = m.noted calls ∧
      (c.removeFlow k m u).2.flows = c.flows.erase u := by
  unfold removeFlow
  split
  · next hnone =>
    refine ⟨[], (m.noted_nil).symm, Std.ExtTreeMap.ext_getElem? fun v => ?_⟩
    rw [Std.ExtTreeMap.getElem?_erase]
    split
    · next huv => rw [← Std.LawfulEqCmp.eq_of_compare huv, hnone]
    · rfl
  · dsimp only
    split
    · exact ⟨[], (m.noted_nil).symm, rfl⟩
    · exact ⟨_, rfl, rfl⟩

theorem run_advanceFlow (k : Kernel) (s : UnitManager × StartCoordinator) (u : UnitName) :
    World.Serve ⟨s.1, s.2.flows⟩ ⟨(advanceFlow k s u).1, (advanceFlow k s u).2.flows⟩ := by
  have hturn := World.run_turn k ⟨s.1, s.2.flows⟩ u s.2.auxExits
  unfold World.turn at hturn
  unfold advanceFlow
  dsimp only at hturn
  cases hflow : s.2.flows[u]? with
  | none => exact .refl
  | some flow =>
    rw [hflow] at hturn
    dsimp only at hturn ⊢
    split
    · next hdone =>
      rw [if_pos hdone] at hturn
      obtain ⟨calls, hm, hflows⟩ := removeFlow_eq k { s.2 with
        flows := s.2.flows.insert u (StartFlow.advance k
          { flow := flow, manager := s.1, aux := s.2.auxExits }).flow
        auxExits := (StartFlow.advance k
          { flow := flow, manager := s.1, aux := s.2.auxExits }).aux }
        (StartFlow.advance k { flow := flow, manager := s.1, aux := s.2.auxExits }).manager u
      have herase (f : StartFlow) : (s.2.flows.insert u f).erase u = s.2.flows.erase u := by
        refine Std.ExtTreeMap.ext_getElem? fun v => ?_
        rw [Std.ExtTreeMap.getElem?_erase, Std.ExtTreeMap.getElem?_erase]
        split
        · rfl
        · next huv => rw [Std.ExtTreeMap.getElem?_insert, if_neg huv]
      rw [hm, hflows, herase]
      exact hturn.trans (World.run_note _ _ calls)
    · next hdone =>
      rw [if_neg hdone] at hturn
      exact hturn

theorem run_advanceControls (k : Kernel) (l : List ControlStart) (m : UnitManager)
    (flows : Flows) (aux : AuxExits) : World.Serve ⟨m, flows⟩
      ⟨(advanceControls k l m flows aux).1, (advanceControls k l m flows aux).2.1.flows⟩ := by
  induction l generalizing m flows aux with
  | nil => exact .refl
  | cons job l ih =>
    unfold advanceControls
    split
    · exact ih m flows aux
    · have hadv := ControlStart.run_advance k
        { job := job, manager := m, flows := flows, aux := aux }
      dsimp only
      split <;> exact hadv.trans (ih _ _ _)

theorem run_advance (k : Kernel) (c : StartCoordinator) (m : UnitManager) :
    World.Serve ⟨m, c.flows⟩ ⟨(c.advance k m).1, (c.advance k m).2.1.flows⟩ :=
  (World.of_foldl (fun s : UnitManager × StartCoordinator => ⟨s.1, s.2.flows⟩)
    (fun s u _ => run_advanceFlow k s u) (m, c)).trans (run_advanceControls k _ _ _ _)

theorem run_startAsync (k : Kernel) (c : StartCoordinator) (m : UnitManager) (u : UnitName) :
    World.Serve ⟨m, c.flows⟩ ⟨(c.startAsync k m u).1, c.flows⟩ ∧
      (c.startAsync k m u).2.1.flows = c.flows := by
  have hnew := ControlStart.run_new k m c.flows u
  unfold startAsync
  generalize ControlStart.new k m u = r at hnew
  obtain ⟨m', e | job⟩ := r <;> exact ⟨hnew, rfl⟩

theorem run_dropFlow (k : Kernel) (c : StartCoordinator) (m : UnitManager) (u : UnitName)
    (h : m.unitExists u = false) :
    World.Serve ⟨m, c.flows⟩ ⟨(c.removeFlow k m u).1, (c.removeFlow k m u).2.flows⟩ := by
  obtain ⟨calls, hm, hflows⟩ := removeFlow_eq k c m u
  rw [hm, hflows]
  exact (World.Serve.act k ⟨m, c.flows⟩ (.drop u) h trivial).trans (World.run_note _ _ calls)

theorem run_dropFlows (k : Kernel) (l : List UnitName) (s : UnitManager × StartCoordinator)
    (h : ∀ u ∈ l, s.1.unitExists u = false) : World.Serve ⟨s.1, s.2.flows⟩
      ⟨(l.foldl (fun s unit => s.2.removeFlow k s.1 unit) s).1,
        (l.foldl (fun s unit => s.2.removeFlow k s.1 unit) s).2.flows⟩ := by
  induction l generalizing s with
  | nil => exact .refl
  | cons u l ih =>
    refine (run_dropFlow k s.2 s.1 u (h u List.mem_cons_self)).trans (ih _ fun v hv => ?_)
    obtain ⟨calls, hm, -⟩ := removeFlow_eq k s.2 s.1 u
    rw [hm]
    exact h v (List.mem_cons_of_mem _ hv)

theorem run_afterReload (k : Kernel) (c : StartCoordinator) (m : UnitManager) :
    World.Serve ⟨m, c.flows⟩ ⟨(c.afterReload k m).1, (c.afterReload k m).2.1.flows⟩ :=
  run_dropFlows k _ (m, c) fun u hu => by simpa using (List.mem_filter.mp hu).2

end StartCoordinator

/-! ## Requests -/

namespace World

theorem run_controlStart (k : Kernel) (m : UnitManager) (flows : Flows) (u : UnitName) :
    Serve ⟨m, flows⟩ ⟨(controlStart k m u).1, flows⟩ := by
  rcases controlStart_cases k m u with
    ⟨-, heq⟩ | ⟨-, -, heq⟩ | ⟨hex, -, ⟨-, heq⟩ | ⟨m', hmk, heq⟩⟩
  · rw [heq]
    exact ControlStart.run_new k m flows u
  · rw [heq]
  · rw [heq]
  · have happly : Serve ⟨m, flows⟩ ⟨m.apply k (.instantiate u), flows⟩ :=
      .op k m flows (.instantiate u) trivial trivial hex
    rw [UnitManager.apply, hmk] at happly
    rw [heq]
    exact happly.trans (ControlStart.run_new k m' flows u)

/-- A stop that is answered is the stop that was asked for, with its effect. -/
theorem controlStop_eq (k : Kernel) {m : UnitManager} {u : UnitName} {rt : UnitRuntime}
    (h : m.unitExists u = true) (hrt : m.get u = some rt) : (controlStop k m u).1 =
      (applyEffect k (m.requestStop k u .userStop).1 u (m.requestStop k u .userStop).2).1 := by
  unfold controlStop
  rw [h, hrt]
  dsimp only
  generalize m.requestStop k u .userStop = r
  obtain ⟨m', effect⟩ := r
  cases effect with
  | none => rfl
  | some effect =>
    cases effect with
    | none => rfl
    | _ =>
      simp only [Bool.not_true, Bool.false_eq_true, if_false]
      generalize applyEffect k m' u _ = r
      obtain ⟨m'', e | ok⟩ := r <;> rfl

theorem run_stop (k : Kernel) (c : StartCoordinator) (m : UnitManager) (u : UnitName) :
    Serve ⟨m, c.flows⟩ ⟨(applyEffect k ((c.removeFlow k m u).1.requestStop k u .userStop).1 u
      ((c.removeFlow k m u).1.requestStop k u .userStop).2).1,
      (c.removeFlow k m u).2.flows⟩ := by
  obtain ⟨calls, hm, hflows⟩ := StartCoordinator.removeFlow_eq k c m u
  rw [hm, hflows]
  exact (run_note m c.flows calls).trans
    (Serve.act k ⟨m.noted calls, c.flows⟩ (.stop u) trivial trivial)

theorem run_controlStop (k : Kernel) (c : StartCoordinator) (m : UnitManager) (u : UnitName) :
    Serve ⟨m, c.flows⟩
      ⟨(controlStop k (c.removeFlow k m u).1 u).1, (c.removeFlow k m u).2.flows⟩ := by
  have hexists : (c.removeFlow k m u).1.unitExists u = m.unitExists u := by
    obtain ⟨calls, hm, -⟩ := StartCoordinator.removeFlow_eq k c m u
    rw [hm]
    rfl
  cases h : m.unitExists u with
  | false =>
    rw [show (controlStop k (c.removeFlow k m u).1 u).1 = (c.removeFlow k m u).1 by
      simp [controlStop, hexists, h]]
    exact StartCoordinator.run_dropFlow k c m u h
  | true =>
    obtain ⟨rt, hrt, -⟩ := (Option.any_eq_true _ _).mp (hexists.trans h)
    rw [controlStop_eq k (hexists.trans h) hrt]
    exact run_stop k c m u

theorem run_controlRestart (k : Kernel) (m : UnitManager) (flows : Flows) (u : UnitName) :
    Serve ⟨m, flows⟩ ⟨(controlRestart k m u).1, flows⟩ := by
  have hrestart : Serve ⟨m, flows⟩ ⟨(m.restartUnit k u).1, flows⟩ :=
    .op k m flows (.restartUnit u) trivial trivial trivial
  unfold controlRestart
  split
  · exact .refl
  · generalize m.restartUnit k u = r at hrestart
    obtain ⟨m', plan⟩ := r
    cases plan with
    | stopping => exact hrestart
    | start => exact hrestart.trans (run_controlStart k m' flows u)
    | notApplicable => exact hrestart

end World

/-! ## Reloads -/

namespace ReloadState

/-- The world a reload works on. -/
def world (s : ReloadState) : World := ⟨s.manager, s.starts.flows⟩

theorem run_removeUnit (k : Kernel) (plan : BootPlan) (s : ReloadState) (u : UnitName) :
    World.Run s.world (removeUnit k plan s u).1.world := by
  unfold removeUnit
  split
  · exact .refl
  · have hremove := World.Run.act k s.world (.remove u) trivial
    split
    · next hup =>
      have hreq : World.Run s.world ⟨(s.manager.requestStop k u .userStop).1, s.starts.flows⟩ :=
        .op k s.manager s.starts.flows (.requestStop u .userStop) le_rfl trivial
      have heffect := World.run_applyEffect k (s.manager.requestStop k u .userStop).1
        s.starts.flows u (s.manager.requestStop k u .userStop).2
      have hup : s.world.manager.isUp u = true := hup
      rw [Act.run, World.removed, if_pos hup, World.stopped] at hremove
      change World.Run s.world ⟨UnitManager.retire k { (applyEffect k _ u _).1 with
        listenFds := (applyEffect k _ u _).1.listenFds.erase u } u, _⟩ at hremove
      dsimp only [world] at hremove ⊢
      generalize applyEffect k (s.manager.requestStop k u .userStop).1 u _ = r at heffect hremove
      obtain ⟨m, e | ok⟩ := r
      · exact hreq.trans heffect.run
      · exact hremove
    · next hup =>
      have hup : ¬s.world.manager.isUp u = true := hup
      rw [Act.run, World.removed, if_neg hup] at hremove
      exact hremove

theorem run_removeUnits (k : Kernel) (plan : BootPlan) (l : List UnitName) (s : ReloadState) :
    World.Run s.world (removeUnits k plan l s).1.world := by
  induction l generalizing s with
  | nil => exact .refl
  | cons u l ih =>
    have hremove := run_removeUnit k plan s u
    unfold removeUnits
    generalize removeUnit k plan s u = r at hremove
    obtain ⟨s', e | ok⟩ := r
    · exact hremove
    · exact hremove.trans (ih s')

theorem run_reconcileSocket (k : Kernel) (s : ReloadState) (config : UnitConfig) :
    World.Run s.world (reconcileSocket k s config).world := by
  have hset (fds : Std.ExtTreeMap UnitName ℤ compare) :
      World.Run s.world ⟨{ s.manager with listenFds := fds }, s.starts.flows⟩ :=
    .op k s.manager s.starts.flows (.setListeners fds) trivial trivial
  unfold reconcileSocket
  dsimp only
  split
  · exact .refl
  · exact hset _
  · split
    · unfold world
      dsimp only
      split
      · exact hset _
      · exact .refl
    · split <;> exact hset _

theorem run_registerUnit (k : Kernel) (s : ReloadState) (config : UnitConfig)
    (hc : config.kind = config.name.ty) : World.Run s.world (registerUnit k s config).world := by
  have hadd := World.Run.op k s.manager s.starts.flows
    (.addWithInFlight config (s.starts.flows.contains config.name)) hc trivial
  unfold registerUnit
  exact hadd.trans (run_reconcileSocket k { s with
    manager := s.manager.apply k (.addWithInFlight config (s.starts.flows.contains config.name))
    report := _ } config)

theorem run_startAdded (k : Kernel) (plan : BootPlan) (s : ReloadState) (u : UnitName) :
    World.Run s.world (startAdded k plan s u).world := by
  obtain ⟨hstart, hflows⟩ := StartCoordinator.run_startAsync k s.starts s.manager u
  unfold startAdded
  split
  · exact .refl
  · split
    · exact .refl
    · generalize s.starts.startAsync k s.manager u = r at hstart hflows
      obtain ⟨m, starts, e | ok⟩ := r
      all_goals
        dsimp only at hflows
        unfold world
        rw [hflows]
        exact hstart.run

theorem run_reload (k : Kernel) (files : List UnitFile) (warnings : List String)
    (target : String) (s : ReloadState) :
    World.Run s.world (reload k files warnings target s).1.world := by
  unfold reload
  split
  · exact .refl
  · next plan hplan =>
    have hp := BootPlan.proper_of_planBoot hplan
    have hprune : World.Run s.world ⟨s.manager.pruneRetired.1, s.starts.flows⟩ :=
      .op k s.manager s.starts.flows .pruneRetired trivial trivial
    have hremove := run_removeUnits k plan s.manager.pruneRetired.1.names { s with
      manager := s.manager.pruneRetired.1, report := { pruned := s.manager.pruneRetired.2 } }
    unfold applyPlan
    dsimp only
    generalize removeUnits k plan _ _ = r at hremove
    obtain ⟨s', e | ok⟩ := r
    · exact hprune.trans hremove
    · refine (hprune.trans hremove).trans ?_
      refine (World.of_foldl world
        (fun s c hc => run_registerUnit k s c (hp.kind c hc)) s').trans ?_
      refine (World.of_foldl (l := plan.levels.flatten) world
        (fun s u _ => run_startAdded k plan s u) _).trans ?_
      exact (World.Run.op k _ _ (.setTemplates plan.templates) trivial trivial).trans
        (World.Run.op k _ _ (.setShutdownOrder plan.levels.flatten) trivial trivial)

end ReloadState

/-! ## The boot -/

namespace Boot

variable {b : Boot}

/-- The world the boot works on. -/
def world (s : UnitManager × StartCoordinator) : World := ⟨s.1, s.2.flows⟩

theorem run_startService (k : Kernel) (s : UnitManager × StartCoordinator) (u : UnitName) :
    World.Serve (world s) (world (startService k s u).1) := by
  have hreq : World.Serve (world s) ⟨(s.1.requestStart k u .dependency).1, s.2.flows⟩ :=
    World.run_requestStart k s.1 s.2.flows u (by decide)
  unfold startService
  split
  · exact .refl
  · split
    · exact .refl
    · generalize s.1.requestStart k u .dependency = r at hreq
      obtain ⟨m, _ | effect⟩ := r
      · exact hreq
      · have heffect := World.run_applyStartEffect k m s.2.flows u effect
        unfold StartCoordinator.beginEffect
        dsimp only
        generalize applyStartEffect k m s.2.flows u effect = r at heffect
        obtain ⟨m', flows, e | ok⟩ := r <;> exact hreq.trans heffect

theorem run_startServices (k : Kernel) (l : List UnitName) (s : UnitManager × StartCoordinator) :
    World.Serve (world s) (world (startServices k l s).1) := by
  induction l generalizing s with
  | nil => exact .refl
  | cons u l ih => exact (run_startService k s u).trans (ih _)

theorem run_settleService (k : Kernel) (plan : BootPlan) (starts : StartCoordinator)
    (m : UnitManager) (u : UnitName) :
    World.Serve ⟨m, starts.flows⟩ ⟨(settleService k plan starts m u).1, starts.flows⟩ := by
  have hfail : World.Serve ⟨m, starts.flows⟩ ⟨(m.failStart k u).1, starts.flows⟩ :=
    .op k m starts.flows (.failStart u) trivial trivial trivial
  unfold settleService
  split
  · exact .refl
  · split
    · dsimp only
      split
      · exact hfail
      · exact .refl
    all_goals
      split <;> first | exact .refl | exact hfail

theorem run_settlePending (k : Kernel) (plan : BootPlan) (starts : StartCoordinator)
    (l : List UnitName) (m : UnitManager) :
    World.Serve ⟨m, starts.flows⟩ ⟨(settlePending k plan starts l m).1, starts.flows⟩ := by
  induction l generalizing m with
  | nil => exact .refl
  | cons u l ih => exact (run_settleService k plan starts m u).trans (ih _)

theorem run_settleTargets (k : Kernel) {targets : List UnitName}
    (h : ∀ u ∈ targets, u.ty = .target) (m : UnitManager) (flows : Flows) :
    World.Serve ⟨m, flows⟩ ⟨settleTargets k targets m, flows⟩ :=
  World.of_foldl (fun m => ⟨m, flows⟩)
    (fun m u hu => World.Serve.op k m flows (.reachTarget u) (h u hu) trivial trivial) m

theorem run_beginLevel (k : Kernel) (b : Boot) (level : List UnitName)
    (s : UnitManager × StartCoordinator) :
    World.Serve (world s) (world (beginLevel k b level s).2) := by
  unfold beginLevel
  split
  · exact .refl
  · exact run_startServices k _ s

theorem run_walk (k : Kernel) (levels : List (List UnitName)) (hb : b.Sound)
    (s : UnitManager × StartCoordinator) : World.Serve (world s) (world (walk k levels b s).2) := by
  induction levels generalizing b s with
  | nil => exact .refl
  | cons level rest ih =>
    have hbegin := run_beginLevel k b level s
    have hb' := (steady_beginLevel k hb level s).1
    unfold walk
    generalize beginLevel k b level s = r at hbegin hb'
    obtain ⟨b', m, starts⟩ := r
    have hpending := run_settlePending k b'.plan starts b'.pending.toList m
    dsimp only
    generalize settlePending k b'.plan starts b'.pending.toList m = q at hpending
    obtain ⟨m', _ | ⟨u, us⟩⟩ := q
    · have htargets := run_settleTargets k hb'.targets m' starts.flows
      exact ((hbegin.trans hpending).trans htargets).trans
        (ih (b := { b' with pending := ∅, level := b'.level + 1, active := false })
          ⟨hb'.proper, hb'.targets⟩ (settleTargets k b'.targets m', starts))
    · exact hbegin.trans hpending

end Boot

/-! ## The loop -/

namespace Supervisor

variable {s : Supervisor}

/-- The units and the starts in flight of the supervisor. -/
def world (s : Supervisor) : World := ⟨s.manager, s.starts.flows⟩

theorem run_reapOne (k : Kernel) (s : Supervisor) (exit : Pid × ExitOutcome) :
    World.Serve s.world (reapOne k s exit).world := by
  have hexit : World.Serve s.world ⟨(s.manager.onChildExit k exit.1 exit.2).1, s.starts.flows⟩ :=
    .op k s.manager s.starts.flows (.onChildExit exit.1 exit.2) trivial trivial trivial
  unfold reapOne
  generalize s.manager.onChildExit k exit.1 exit.2 = r at hexit
  obtain ⟨m, _ | o⟩ := r
  · dsimp only
    unfold world StartCoordinator.takeAux
    dsimp only
    split
    · exact hexit
    · split <;> exact hexit
  · exact hexit

theorem world_beginAll (k : Kernel) (s : Supervisor) (l : List UnitName) :
    (beginAll k s l).world = l.foldl (World.begin_ k) s.world := by
  induction l generalizing s with
  | nil => rfl
  | cons u l ih => exact ih _

theorem run_beginAll (k : Kernel) (s : Supervisor) (l : List UnitName) :
    World.Serve s.world (beginAll k s l).world := by
  rw [world_beginAll]
  exact World.of_foldl id (fun w u _ => World.Serve.act k w (.begin_ u) trivial trivial) s.world

theorem run_tryStartSocket (k : Kernel) (s : Supervisor) (u : UnitName) :
    World.Serve s.world (tryStartSocket k s u).world := by
  have hnote : World.Serve s.world ⟨s.manager.noteConnection k u, s.starts.flows⟩ :=
    .op k s.manager s.starts.flows (.noteConnection u) trivial trivial trivial
  obtain ⟨hstart, hflows⟩ :=
    StartCoordinator.run_startAsync k s.starts (s.manager.noteConnection k u) u
  unfold tryStartSocket
  dsimp only
  split
  · exact hnote
  · split
    · exact hnote
    · split
      · exact hnote
      · generalize s.starts.startAsync k (s.manager.noteConnection k u) u = r at hstart hflows
        obtain ⟨m, starts, e | ok⟩ := r
        all_goals
          dsimp only at hstart hflows
          unfold world
          rw [hflows]
          exact hnote.trans hstart

theorem run_wakeSockets (k : Kernel) (s : Supervisor) :
    World.Serve s.world (wakeSockets k s).world := by
  unfold wakeSockets
  split
  · exact .refl
  · exact World.of_foldl (l := s.pendingSocketWakes.toList) world
      (fun s u _ => run_tryStartSocket k s u) { s with pendingSocketWakes := ∅ }

theorem run_connection (k : Kernel) (s : Supervisor) (u : UnitName) :
    World.Serve s.world (connection k s u).world := by
  unfold connection
  split
  · exact .refl
  · split
    · exact .refl
    · exact run_tryStartSocket k s u

theorem world_answer (s : Supervisor) (action : ControlAction) :
    (answer s action).world = s.world := by
  cases action <;> rfl

theorem serve_handle (k : Kernel) (s : Supervisor) {request : Request}
    (h : ∀ files warnings target, request ≠ .reload files warnings target) :
    World.Serve s.world (handle k s request).world := by
  cases request with
  | start u =>
    unfold handle
    rw [world_answer]
    exact World.run_controlStart k s.manager s.starts.flows u
  | stop u =>
    unfold handle
    rw [world_answer]
    exact World.run_controlStop k s.starts s.manager u
  | restart u =>
    unfold handle
    rw [world_answer]
    exact World.run_controlRestart k s.manager s.starts.flows u
  | resetFailed u =>
    unfold handle
    dsimp only
    split <;> rw [world_answer]
    exact .op k s.manager s.starts.flows (.resetFailed u) trivial trivial trivial
  | reload files warnings target => exact absurd rfl (h files warnings target)

/-- A reload, and the starts it drops. -/
theorem run_handle_reload (k : Kernel) (s : Supervisor) (files : List UnitFile)
    (warnings : List String) (target : String) :
    World.Run s.world (handle k s (.reload files warnings target)).world :=
  (ReloadState.run_reload k files warnings target
    { manager := s.manager, starts := s.starts, activation := s.activation }).trans
    (StartCoordinator.run_afterReload k _ _).run

theorem run_advanceBoot (k : Kernel) (hs : s.Sound) :
    World.Serve s.world (advanceBoot k s).world := by
  unfold advanceBoot
  split
  · exact .refl
  · next b hb =>
    have hadv : World.Serve s.world (Boot.world (b.advance k (s.manager, s.starts)).2) := by
      unfold Boot.advance
      split
      · exact .refl
      · exact Boot.run_walk k _ (hs.boot b hb) (s.manager, s.starts)
    generalize b.advance k (s.manager, s.starts) = r at hadv
    obtain ⟨b', m, starts⟩ := r
    dsimp only
    split
    · exact hadv.trans
        (World.Serve.op k m starts.flows (.setBootInProgress false) trivial trivial trivial)
    · exact hadv

/-- The supervisor starts with a run of acts. -/
theorem acts_init (k : Kernel) {plan : BootPlan} (hp : plan.Proper) (cgroup : Cgroup) :
    World.Run {} (init k plan cgroup).world := by
  let m : UnitManager := { bootInProgress := true, cgroup := cgroup }
  have hstart : World.Run {} ⟨m, ∅⟩ :=
    (World.Run.op k {} ∅ (.setBootInProgress true) trivial trivial).trans
      (World.Run.op k _ ∅ (.setCgroup cgroup) trivial trivial)
  refine hstart.trans ?_
  refine (World.of_foldl (f := fun m config => (m.add config).1) (fun m => ⟨m, ∅⟩)
    (fun m config hc =>
      World.Run.op k m ∅ (.addWithInFlight config false) (hp.kind config hc) trivial)
    m).trans ?_
  refine (World.Run.op k _ ∅ (.setTemplates plan.templates) trivial trivial).trans ?_
  refine ReflTransGen.trans ?_ (World.Run.op k _ ∅ (.setShutdownOrder plan.levels.flatten) trivial
    trivial)
  refine World.of_foldl (l := plan.configs) (fun s : UnitManager × Activated => ⟨s.1, ∅⟩)
    (fun s config _ => ?_)
    ({ plan.configs.foldl (fun m config => (m.add config).1) m with
      templates := plan.templates }, ∅)
  dsimp only
  split
  · exact .refl
  · split
    · exact World.Run.op k s.1 ∅ (.failStart config.name) trivial trivial
    · dsimp only
      split
      · exact World.Run.op k s.1 ∅ (.setListeners _) trivial trivial
      · exact .refl

/-- A step that is no reload is a run of the acts between two reloads. -/
theorem serve_step (k : Kernel) (hs : s.Sound) {input : Input}
    (h : ∀ files warnings target, input ≠ .control (.reload files warnings target)) :
    World.Serve s.world (step k s input).world := by
  have passed (op : Op) (hp : op.Promised) (ha : op.Alone) (hs : op.Serves s.manager) :
      World.Serve s.world ⟨s.manager.apply k op, s.starts.flows⟩ :=
    .op k s.manager s.starts.flows op hp ha hs
  cases input with
  | reap exits => exact World.of_foldl world (fun s e _ => run_reapOne k s e) s
  | advance => exact StartCoordinator.run_advance k s.starts s.manager
  | boot => exact run_advanceBoot k hs
  | wakeSockets => exact run_wakeSockets k s
  | restarts =>
    unfold step
    rw [world_beginAll]
    exact World.Serve.act k s.world .restarts trivial trivial
  | queuedStarts =>
    exact (passed .dueQueuedStarts trivial trivial trivial).trans
      (run_beginAll k { s with manager := (s.manager.dueQueuedStarts k).1 } _)
  | startTimeouts => exact passed .dueStartTimeouts trivial trivial trivial
  | kills => exact passed .dueKills trivial trivial trivial
  | healthProbes => exact passed .dueHealthProbes trivial trivial trivial
  | probeTimeouts => exact passed .dueProbeTimeouts trivial trivial trivial
  | idle =>
    refine (passed .dueIdleUnits trivial trivial trivial).trans ?_
    exact World.of_foldl (f := stopIdle k) (l := (s.manager.dueIdleUnits k).2) world
      (fun s u _ => World.run_stop k s.starts s.manager u)
      { s with manager := (s.manager.dueIdleUnits k).1 }
  | notify u message => exact passed (.onNotify u message) trivial trivial trivial
  | control request =>
    change World.Serve s.world (control k s request).world
    unfold control
    split
    · rw [world_answer]
    · exact serve_handle k s fun files warnings target hr => h files warnings target (hr ▸ rfl)
  | connection u => exact run_connection k s u

/-- Every step of the supervisor is a run of acts. -/
theorem acts_step (k : Kernel) (hs : s.Sound) (input : Input) :
    World.Run s.world (step k s input).world := by
  by_cases h : ∃ files warnings target, input = .control (.reload files warnings target)
  · obtain ⟨files, warnings, target, rfl⟩ := h
    change World.Run s.world (control k s (.reload files warnings target)).world
    unfold control
    split
    · rw [world_answer]
    · exact run_handle_reload k s files warnings target
  · exact (serve_step k hs fun files warnings target hr => h ⟨files, warnings, target, hr⟩).run

/-- Every state the supervisor gets into comes of a run of acts. -/
theorem Reached.acts (h : Reached s) : World.Run {} s.world := by
  induction h with
  | init k cgroup h => exact acts_init k (BootPlan.proper_of_planBoot h) cgroup
  | step k input h ih => exact ih.trans (acts_step k h.sound input)

end Supervisor

end Rinit
