import Rinit.Entries
import Rinit.Listeners

/-!
# The starts of a boot

`FlowsHold` says which starts are in flight while a plan is booted : those of the units that the
boot asked for, until the unit has been spawned or has failed. Every entry of the log keeps it
with what holds of the units (`Holds`), and what the log shows to be settled stays so (`Onward`).
`onward_step` : this is so for whatever the loop does but advance the boot.
-/

namespace Rinit

open Relation

namespace Boot

variable {plan : BootPlan} {k : Kernel} {m : UnitManager} {u v : UnitName} {w w' : World}
  {log log' : List Logged} {e : Logged} {rt : UnitRuntime}

/-! ## The starts in flight -/

/-- The boot has asked for the unit. -/
def Asked (log : List Logged) (u : UnitName) : Prop := ∃ e ∈ log, e.incident = .ask u

theorem asked_append : Asked (log ++ [e]) u ↔ Asked log u ∨ e.incident = .ask u := by
  simp [Asked, or_and_right, exists_or]

/-- The starts in flight are those of units that were asked for, and a start ends with its unit
spawned or failed. -/
structure FlowsHold (plan : BootPlan) (log : List Logged) (w : World) : Prop where
  flow : ∀ (u : UnitName) f, w.flows[u]? = some f → f.unit = u ∧ Asked log u ∧
    (f.stage.isEarly = false → Spawned log u)
  spawned : ∀ u, Spawned log u → Asked log u
  asked : ∀ u, Asked log u → u.ty = .service ∧ (plan.configOf u).isSome = true ∧
    (w.flows.contains u = true ∨ Spawned log u ∨ w.manager.isFailed u = true)

/-- What holds of the units and of the starts, given what has happened. -/
structure Holds (plan : BootPlan) (log : List Logged) (w : World) : Prop where
  units : UnitsHold plan log w.manager
  flows : FlowsHold plan log w

theorem Holds.service (h : Holds plan log w) {f : StartFlow} (hf : w.flows[u]? = some f) :
    u.ty = .service ∧ ∃ rt, w.manager.get u = some rt := by
  obtain ⟨-, hasked, -⟩ := h.flows.flow u f hf
  obtain ⟨hs, hc, -⟩ := h.flows.asked u hasked
  rw [← h.units.frame.config u] at hc
  exact ⟨hs, by simpa [Option.isSome_iff_exists] using hc⟩

/-- An entry that asks for nothing and spawns nothing leaves the starts. -/
theorem Holds.append (h : Holds plan log w) (he : Orderly plan e) (hb : e.before = w.manager)
    (hspawns : ∀ u, ¬e.Spawns u) (hask : ∀ u, e.incident ≠ .ask u) :
    Holds plan (log ++ [e]) ⟨e.after, w.flows⟩ := by
  have hspawned (u : UnitName) : Spawned (log ++ [e]) u ↔ Spawned log u :=
    spawned_append.trans (or_iff_left (hspawns u))
  have hasked (u : UnitName) : Asked (log ++ [e]) u ↔ Asked log u :=
    asked_append.trans (or_iff_left (hask u))
  refine ⟨.append (hb ▸ h.units) he fun u hs => absurd hs (hspawns u), ?_, ?_, ?_⟩
  · intro u f hf
    rw [hspawned, hasked]
    exact h.flows.flow u f hf
  · intro u hu
    rw [hspawned] at hu
    rw [hasked]
    exact h.flows.spawned u hu
  · intro u hu
    rw [hasked] at hu
    rw [hspawned]
    obtain ⟨hs, hc, hup⟩ := h.flows.asked u hu
    exact ⟨hs, hc, hup.imp id (.imp id
      (isFailed_of_steady (hb ▸ he.steady) h.units.frame.reachable))⟩

/-- What a turn leaves of a start : one that is over has spawned its unit or failed it. -/
theorem spawned_turn (h : Holds plan log w) {f : StartFlow} (hf : w.flows[u]? = some f)
    (k : Kernel) (aux : AuxExits) {t' : StartFlow.Turn}
    (ht' : t' = StartFlow.advance k { flow := f, manager := w.manager, aux := aux })
    (he : e.incident = .turn u ∧ e.before = w.manager ∧ ∀ v, e.after.get v = t'.manager.get v) :
    t'.flow.unit = u ∧
      (t'.done.isSome = true → Spawned (log ++ [e]) u ∨ e.after.isFailed u = true) ∧
      (t'.done = none → t'.flow.stage.isEarly = false → Spawned (log ++ [e]) u) := by
  obtain ⟨rfl, -, hearly⟩ := h.flows.flow u f hf
  obtain ⟨hs, rt, hrt⟩ := h.service hf
  obtain ⟨hincident, hbefore, hafter⟩ := he
  have hold (hs : Spawned log f.unit) : Spawned (log ++ [e]) f.unit :=
    spawned_append.mpr (.inl hs)
  have hfailed (hf : t'.manager.isFailed f.unit = true) : e.after.isFailed f.unit = true := by
    rw [UnitManager.isFailed, hafter]
    exact hf
  have hframe := h.units.frame
  have hunit := (StartFlow.advanced_advance k
    { flow := f, manager := w.manager, aux := aux } rfl).unit
  have hturned := StartFlow.turned_advance k
    (t := { flow := f, manager := w.manager, aux := aux }) rfl hframe.unopposed
  rw [← ht'] at hturned hunit
  refine ⟨hunit, ?_⟩
  cases hturned with
  | cancelled hb hm hd =>
    refine ⟨fun _ => ?_, fun hnone => by simp [hnone] at hd⟩
    -- nobody stops a unit during a boot, and one that goes down has been up
    rcases hb with hstop | ⟨-, hdown⟩ | ⟨hdown, -⟩
    · exact absurd hstop (hframe.started f.unit)
    · refine .inl (hold (by_contra fun hn => (h.units.tame _ rt hrt).down hn (.inr (.inr ?_))))
      simpa [UnitManager.isDeactivating, hrt] using hdown
    · exact .inr (hfailed (hm ▸ hdown))
  | @failed calls m hm hm' hd =>
    refine ⟨fun _ => .inr (hfailed ?_), fun hnone => by simp [hnone] at hd⟩
    rw [hm']
    refine isFailed_failStart k ?_
    rcases hm with rfl | ⟨-, rfl⟩
    · simp [hrt]
    · rw [get_beginSpawnUnit, if_pos rfl, UnitManager.noted_get, hrt]
      rfl
  | waits _ _ hd hearly' =>
    exact ⟨fun hsome => by simp [hd] at hsome, fun _ hlate => by cases hearly'.symm.trans hlate⟩
  | later hlate =>
    have hnew := hold (hearly hlate)
    exact ⟨fun _ => .inl hnew, fun _ _ => hnew⟩
  | spawned calls hok hfollows =>
    have hnew : Spawned (log ++ [e]) f.unit := by
      by_cases hn : Spawned log f.unit
      · exact hold hn
      · obtain ⟨hp, -⟩ := (h.units.tame _ rt hrt).fresh hn
        obtain ⟨rt₁, hrt₁, hp₁⟩ := pid_beginSpawnUnit k hok (hrt : (w.manager.noted calls).get _ = _)
          ((hframe.reachable.serviced hrt).spawns_iff.mpr hs)
        obtain ⟨rt', hrt', hsame⟩ := sameLife_follows hfollows hrt₁
        refine spawned_append.mpr (.inr ⟨hincident, ?_, ?_⟩)
        · exact (Option.any_eq_true ..).mpr ⟨rt, hbefore ▸ hrt, by rw [hp]; rfl⟩
        · exact (Option.any_eq_true ..).mpr ⟨rt', (hafter _).trans hrt', hsame.pid ▸ hp₁⟩
    exact ⟨fun _ => .inl hnew, fun _ _ => hnew⟩

/-- A turn of a start. -/
theorem Holds.turn (h : Holds plan log w) {f : StartFlow} (hf : w.flows[u]? = some f)
    (k : Kernel) (aux : AuxExits) (calls : List Call) {t' : StartFlow.Turn}
    (ht' : t' = StartFlow.advance k { flow := f, manager := w.manager, aux := aux })
    (he : e = ⟨k, w.manager, .turn u, t'.manager.noted calls⟩) :
    Orderly plan e ∧ Holds plan (log ++ [e])
      ⟨e.after, if t'.done.isSome then w.flows.erase u else w.flows.insert u t'.flow⟩ := by
  obtain ⟨hunit, hdone, hwaits⟩ := spawned_turn (e := e) h hf k aux ht'
    (by rw [he]; exact ⟨rfl, rfl, fun _ => rfl⟩)
  have hservice := h.service hf
  have horderly : Orderly plan e := by
    obtain ⟨rfl, -⟩ := h.flows.flow u f hf
    rw [he, ht']
    refine (orderly_advance (t := { flow := f, manager := w.manager, aux := aux })
      h.units.frame k rfl hservice.1 ?_).noted calls
    obtain ⟨rt, hrt⟩ := hservice.2
    exact Option.isSome_iff_exists.mpr ⟨rt, hrt⟩
  have hbefore : e.before = w.manager := by rw [he]
  have hspawns {v : UnitName} (hs : e.Spawns v) : v = u := by
    have hturn := hs.1
    rw [he] at hturn
    exact (Incident.turn.inj hturn).symm
  have hasked (v : UnitName) : Asked (log ++ [e]) v ↔ Asked log v :=
    asked_append.trans (or_iff_left (by rw [he]; simp))
  have hother {v : UnitName} (hv : v ≠ u) : (if t'.done.isSome then w.flows.erase u
      else w.flows.insert u t'.flow)[v]? = w.flows[v]? := by
    split
    · simp [Std.ExtTreeMap.getElem?_erase, Ne.symm hv]
    · simp [Std.ExtTreeMap.getElem?_insert, Ne.symm hv]
  refine ⟨horderly, .append (hbefore ▸ h.units) horderly fun v hs => hspawns hs ▸ hservice.1,
    fun v f' hf' => ?_, fun v hv => ?_, fun v hv => ?_⟩
  · by_cases hvu : v = u
    · subst hvu
      split at hf'
      · simp at hf'
      · next hnone =>
        rw [Std.ExtTreeMap.getElem?_insert_self, Option.some.injEq] at hf'
        subst hf'
        exact ⟨hunit, (hasked v).mpr (h.flows.flow v f hf).2.1, hwaits (by simpa using hnone)⟩
    · rw [hother hvu] at hf'
      obtain ⟨hu, ha, hs⟩ := h.flows.flow v f' hf'
      exact ⟨hu, (hasked v).mpr ha, fun hl => spawned_append.mpr (.inl (hs hl))⟩
  · rw [hasked]
    rcases spawned_append.mp hv with hv | hv
    · exact h.flows.spawned v hv
    · exact hspawns hv ▸ (h.flows.flow u f hf).2.1
  · obtain ⟨hs, hc, hup⟩ := h.flows.asked v ((hasked v).mp hv)
    refine ⟨hs, hc, ?_⟩
    -- the flow of `u` may have ended, the others are as they were
    by_cases hvu : v = u
    · subst hvu
      by_cases hd : t'.done.isSome = true
      · exact .inr (hdone hd)
      · exact .inl (by simp [hd])
    · rcases hup with hup | hup | hup
      · refine .inl ?_
        rw [Std.ExtTreeMap.contains_eq_isSome_getElem?] at hup ⊢
        rwa [hother hvu]
      · exact .inr (.inl (spawned_append.mpr (.inl hup)))
      · exact .inr (.inr (isFailed_of_steady (hbefore ▸ horderly.steady)
          h.units.frame.reachable hup))

/-- Starts of some units are begun, which changes no unit. -/
structure Begins (plan : BootPlan) (l : List UnitName) (w w' : World) : Prop where
  frame : Frame plan w'.manager
  steady : SteadyAll w.manager w'.manager
  get : ∀ v, w'.manager.get v = w.manager.get v
  kept : ∀ (v : UnitName) f, w.flows[v]? = some f → w'.flows[v]? = some f
  made : ∀ (v : UnitName) f, w'.flows[v]? = some f → w.flows[v]? = some f ∨ v ∈ l ∧ f.unit = v

theorem begins_begin {l : List UnitName} (h : Frame plan w.manager) (k : Kernel) (hu : u ∈ l) :
    Begins plan l w (w.begin_ k u) := by
  have hbegun := World.begun_begin k w u
  have hmade (v : UnitName) (f : StartFlow) (hf : (w.begin_ k u).flows[v]? = some f) :
      w.flows[v]? = some f ∨ v ∈ l ∧ f.unit = v := by
    rcases hbegun.made v f hf with hf | ⟨rfl, hunit, -⟩
    · exact .inl hf
    · exact .inr ⟨hu, hunit⟩
  rcases hbegun.manager with hm | hm
  · exact ⟨by rwa [hm], by rw [hm]; exact .refl _, fun v => by rw [hm], hbegun.kept, hmade⟩
  · obtain ⟨hframe, hget⟩ := h.adopt u
    have hsteady : SteadyAll w.manager (w.manager.apply k (.adoptPendingConfig u)) :=
      .apply k w.manager (.adoptPendingConfig u) trivial fun _ _ => trivial
    exact ⟨by rw [hm]; exact hframe, by rw [hm]; exact hsteady, fun v => by rw [hm]; exact hget v,
      hbegun.kept, hmade⟩

theorem Begins.trans {l : List UnitName} {w'' : World} (h : Begins plan l w w')
    (h' : Begins plan l w' w'') : Begins plan l w w'' where
  frame := h'.frame
  steady := h.steady.trans h'.steady
  get v := (h'.get v).trans (h.get v)
  kept v f hf := h'.kept v f (h.kept v f hf)
  made v f hf := (h'.made v f hf).elim (h.made v f) .inr

theorem begins_foldl (h : Frame plan w.manager) (k : Kernel) (l : List UnitName) :
    Begins plan l w (l.foldl (World.begin_ k) w) := by
  refine Runs.foldl_induction (P := fun _ w' => Begins plan l w w')
    ⟨h, .refl _, fun _ => rfl, fun _ _ h => h, fun _ _ h => .inl h⟩ fun done u rest w' hl hw' => ?_
  exact hw'.trans (begins_begin hw'.frame k (by simp [hl]))

/-- A restart is due for a unit that was spawned. -/
theorem spawned_of_due (h : UnitsHold plan log m) (hu : u ∈ (m.dueRestarts k).2) :
    Spawned log u := by
  obtain ⟨rt, hrt, hdue⟩ := (UnitManager.mem_pass m u).mp hu
  -- a unit that was never spawned has no restart timer
  by_contra hn
  obtain ⟨-, ht, -⟩ := (h.tame u rt hrt).fresh hn
  rw [Traced.pure_val] at hdue
  simp [UnitRuntime.dueRestart, ht, (h.frame.rest u rt hrt).2.1] at hdue

/-- The restarts that are due are begun. -/
theorem Holds.restarts (h : Holds plan log w) (k : Kernel)
    (hw' : w' = (w.manager.dueRestarts k).2.foldl (World.begin_ k)
      ⟨(w.manager.dueRestarts k).1, w.flows⟩)
    (he : e = ⟨k, w.manager, .pass, w'.manager⟩) :
    Orderly plan e ∧ Holds plan (log ++ [e]) w' := by
  have hframe : Frame plan (w.manager.dueRestarts k).1 :=
    h.units.frame.apply k .dueRestarts trivial
  have hsteady : SteadyAll w.manager (w.manager.dueRestarts k).1 :=
    .apply k w.manager .dueRestarts trivial fun _ _ => trivial
  have hbegins := begins_foldl (w := ⟨(w.manager.dueRestarts k).1, w.flows⟩) hframe k
    (w.manager.dueRestarts k).2
  rw [← hw'] at hbegins
  have horderly : Orderly plan e := by
    rw [he]
    refine orderly_of_idles h.units.frame hbegins.frame (hsteady.trans hbegins.steady)
      fun u rt hrt => ?_
    refine ⟨(rt.dueRestart k).1, ?_, idles_dueRestart k rt⟩
    rw [hbegins.get]
    exact (UnitManager.get_pass w.manager u _).trans (by rw [hrt]; rfl)
  refine ⟨horderly, ?_⟩
  have hold := h.append horderly (by rw [he]) (fun u hs => by cases he ▸ hs.1) (by rw [he]; simp)
  have hsame : e.after = w'.manager := by rw [he]
  refine ⟨hsame ▸ hold.units, fun u f hf => ?_, hold.flows.spawned, fun u hu => ?_⟩
  · rcases hbegins.made u f hf with hf | ⟨hdue, hunit⟩
    · exact hold.flows.flow u f hf
    · have hspawned : Spawned (log ++ [e]) u :=
        spawned_append.mpr (.inl (spawned_of_due h.units hdue))
      exact ⟨hunit, hold.flows.spawned u hspawned, fun _ => hspawned⟩
  · obtain ⟨hs, hc, hup⟩ := hold.flows.asked u hu
    refine ⟨hs, hc, hup.imp (fun hflow => ?_) (.imp id (hsame ▸ id))⟩
    rw [Std.ExtTreeMap.contains_eq_isSome_getElem?] at hflow ⊢
    obtain ⟨f, hf⟩ := Option.isSome_iff_exists.mp hflow
    rw [hbegins.kept u f hf]
    rfl

theorem startService_eq {s : UnitManager × StartCoordinator} (h : Frame plan s.1)
    (hrt : s.1.get u = some rt) (hs : rt.state = .inactive) (hn : s.2.flows[u]? = none)
    (k : Kernel) {w' : World} (hw' : w' = World.begin_ k
      ⟨(s.1.requestStart k u .dependency).1, s.2.flows⟩ u) :
    startService k s u = ((w'.manager, { s.2 with flows := w'.flows }), true) := by
  obtain ⟨heffect, hframe, hget⟩ := h.request (k := k) hrt hs
  have hbegun : (beginFlow k (s.1.requestStart k u .dependency).1 s.2.flows u).2.2 = .ok () := by
    unfold beginFlow
    rw [Std.ExtTreeMap.contains_eq_isSome_getElem?, hn, if_neg (by simp)]
    rcases World.new_cases k (s.1.requestStart k u .dependency).1 u with ⟨e, heq, hret⟩ | ⟨f, heq, -⟩
    · have hretired := hret rt ((hget u).trans hrt)
      rw [(h.rest u rt hrt).2.1] at hretired
      cases hretired
    · rw [heq]
  unfold startService
  rw [if_neg (by simp [UnitManager.isFailed, hrt, hs, UnitState.isFailed]),
    if_neg (by simp [h.listenFds])]
  generalize hr : s.1.requestStart k u .dependency = r at heffect hw' hbegun
  obtain ⟨m', effect⟩ := r
  obtain rfl : effect = some .spawnProcess := heffect
  dsimp only at hw' hbegun ⊢
  unfold StartCoordinator.beginEffect applyStartEffect
  dsimp only
  rw [hbegun, hw']
  rfl

/-- A service is asked for, which begins its start. -/
theorem Holds.ask {s : UnitManager × StartCoordinator} (h : Holds plan log (world s))
    (hu : u.ty = .service) (hc : (plan.configOf u).isSome = true) (hn : ¬Asked log u)
    (hf : s.1.isFailed u = false) (k : Kernel)
    (he : e = ⟨k, s.1, .ask u, (startService k s u).1.1⟩) :
    (startService k s u).2 = true ∧ Orderly plan e ∧
      Holds plan (log ++ [e]) (world (startService k s u).1) := by
  have hframe : Frame plan s.1 := h.units.frame
  obtain ⟨rt, hrt⟩ : ∃ rt, s.1.get u = some rt := by
    rw [← hframe.config u] at hc
    simpa [Option.isSome_iff_exists] using hc
  have hspawned : ¬Spawned log u := fun hs => hn (h.flows.spawned u hs)
  have hstate : rt.state = .inactive := by
    obtain ⟨-, -, hs | hs | ⟨ht, -⟩⟩ := (h.units.tame u rt hrt).fresh hspawned
    · exact hs
    · simp [UnitManager.isFailed, hrt, hs] at hf
    · cases hu.symm.trans ht
  have hflow : s.2.flows[u]? = none := by
    by_contra hsome
    obtain ⟨f, hf⟩ := Option.ne_none_iff_exists'.mp hsome
    exact hn (h.flows.flow u f hf).2.1
  obtain ⟨-, hrequest, hget⟩ := hframe.request (k := k) hrt hstate
  have hbegins := begins_begin (w := ⟨(s.1.requestStart k u .dependency).1, s.2.flows⟩)
    (l := [u]) hrequest k List.mem_cons_self
  have hbegun := World.begun_begin k ⟨(s.1.requestStart k u .dependency).1, s.2.flows⟩ u
  generalize hw' : World.begin_ k ⟨(s.1.requestStart k u .dependency).1, s.2.flows⟩ u = w'
    at hbegins hbegun
  have heq := startService_eq hframe hrt hstate hflow k hw'.symm
  rw [heq] at he ⊢
  have hsteady : SteadyAll s.1 (s.1.requestStart k u .dependency).1 :=
    .apply k s.1 (.requestStart u .dependency) (Nat.zero_le _) fun _ _ => trivial
  have horderly : Orderly plan e := by
    rw [he]
    exact orderly_of_idles hframe hbegins.frame (hsteady.trans hbegins.steady) fun v rtv hrtv =>
      ⟨rtv, ((hbegins.get v).trans (hget v)).trans hrtv, .refl rtv⟩
  have hspawns (v : UnitName) : ¬e.Spawns v := fun hs => by cases he ▸ hs.1
  have hasks : e.incident = .ask u := by rw [he]
  have hspawned (v : UnitName) : Spawned (log ++ [e]) v ↔ Spawned log v :=
    spawned_append.trans (or_iff_left (hspawns v))
  have hasked {v : UnitName} (hv : Asked log v) : Asked (log ++ [e]) v :=
    asked_append.mpr (.inl hv)
  have hunits : UnitsHold plan (log ++ [e]) w'.manager := by
    have happend := UnitsHold.append (e := e) (by rw [he]; exact h.units) horderly
      fun v hs => absurd hs (hspawns v)
    rwa [show e.after = w'.manager by rw [he]] at happend
  refine ⟨rfl, horderly, hunits, fun v f hf => ?_, fun v hv => ?_, fun v hv => ?_⟩
  · rcases hbegun.made v f hf with hf | ⟨rfl, hunit, hstage⟩
    · obtain ⟨hunit, ha, hlate⟩ := h.flows.flow v f hf
      exact ⟨hunit, hasked ha, fun hl => (hspawned v).mpr (hlate hl)⟩
    · refine ⟨hunit, asked_append.mpr (.inr hasks), fun hl => ?_⟩
      rcases hstage with ⟨_, hs⟩ | hs <;> rw [hs] at hl <;> cases hl
  · exact hasked (h.flows.spawned v ((hspawned v).mp hv))
  · rcases asked_append.mp hv with hv | hv
    · obtain ⟨hs, hconf, hup⟩ := h.flows.asked v hv
      refine ⟨hs, hconf, hup.imp (fun hflow => ?_) (.imp (hspawned v).mpr fun hdown => ?_)⟩
      · rw [Std.ExtTreeMap.contains_eq_isSome_getElem?] at hflow ⊢
        obtain ⟨f, hf⟩ := Option.isSome_iff_exists.mp hflow
        rw [show (world ((w'.manager, { s.2 with flows := w'.flows }), true).1).flows[v]? = some f
          from hbegins.kept v f hf]
        rfl
      · exact isFailed_of_steady (hsteady.trans hbegins.steady) hframe.reachable hdown
    · obtain rfl : u = v := Incident.ask.inj (hasks.symm.trans hv)
      refine ⟨hu, hc, .inl ?_⟩
      rw [Std.ExtTreeMap.contains_eq_isSome_getElem?]
      exact hbegun.begun rt ((hget u).trans hrt) (hframe.rest u rt hrt).2.1

/-! ## One entry after the other -/

/-- A unit that is spawned has not failed, so nothing it requires has failed it. -/
theorem spawnsSafely (h : UnitsHold plan log e.before) (he : Orderly plan e) (hs : e.Spawns u) :
    SpawnsSafely plan log e.before u := by
  have hup : ¬e.before.isFailed u = true := by
    intro hf
    obtain ⟨rt, hrt, hf⟩ :=
      (Option.any_eq_true ..).mp (isFailed_of_steady he.steady h.frame.reachable hf)
    obtain ⟨rt', hrt', hp⟩ := (Option.any_eq_true ..).mp hs.2.2
    obtain rfl := Option.some.inj (hrt.symm.trans hrt')
    simp [he.frame.reachable.failedIdle hrt hf] at hp
  refine ⟨fun hn r hr => ?_, fun e' he' r hr hfails => hup (h.kept e' he' r hr u hfails)⟩
  by_contra hf
  exact hup (h.closed u r hn hr (by simpa using hf))

theorem Safe.append (h : Safe plan log)
    (hask : ∀ u, e.incident = .ask u → AsksSafely plan log e.before u)
    (hspawn : ∀ u, e.Spawns u → SpawnsSafely plan log e.before u) : Safe plan (log ++ [e]) := by
  intro before e' after heq
  rcases List.eq_nil_or_concat after with rfl | ⟨rest, last, rfl⟩
  · obtain ⟨rfl, he⟩ := List.append_inj' heq rfl
    obtain rfl := List.singleton_inj.mp he
    exact ⟨hask, hspawn⟩
  · rw [List.concat_eq_append, ← List.cons_append, ← List.append_assoc] at heq
    exact h before e' rest (List.append_inj' heq rfl).1

/-- The log goes on : what holds still holds, what is settled stays so, and only some units are
asked for. -/
structure Onward (plan : BootPlan) (asks : List UnitName) (log : List Logged) (w : World)
    (log' : List Logged) (w' : World) : Prop where
  holds : Holds plan log' w'
  safe : Safe plan log'
  settled : ∀ v, Settled plan log w.manager v → Settled plan log' w'.manager v
  failed : ∀ v, w.manager.isFailed v = true → w'.manager.isFailed v = true
  known : ∀ v, Asked log v → Asked log' v
  asked : ∀ v, Asked log' v → v ∈ asks ∨ Asked log v

namespace Onward

variable {asks : List UnitName}

theorem refl (h : Holds plan log w) (hs : Safe plan log) : Onward plan asks log w log w :=
  ⟨h, hs, fun _ => id, fun _ => id, fun _ => id, fun _ => .inr⟩

theorem trans {log'' : List Logged} {w'' : World} (h : Onward plan asks log w log' w')
    (h' : Onward plan asks log' w' log'' w'') : Onward plan asks log w log'' w'' where
  holds := h'.holds
  safe := h'.safe
  settled v hv := h'.settled v (h.settled v hv)
  failed v hv := h'.failed v (h.failed v hv)
  known v hv := h'.known v (h.known v hv)
  asked v hv := (h'.asked v hv).elim .inl (h.asked v)

theorem mono {asks' : List UnitName} (h : Onward plan asks log w log' w')
    (hs : ∀ v ∈ asks, v ∈ asks') : Onward plan asks' log w log' w' :=
  { h with asked := fun v hv => (h.asked v hv).imp (hs v) id }

theorem single (h : Holds plan log w) (hs : Safe plan log) (he : Orderly plan e)
    (hb : e.before = w.manager) (hh : Holds plan (log ++ [e]) w') (ha : e.after = w'.manager)
    (hask : ∀ u, e.incident = .ask u → u ∈ asks ∧ AsksSafely plan log e.before u) :
    Onward plan asks log w (log ++ [e]) w' where
  holds := hh
  safe := hs.append (fun u hu => (hask u hu).2) fun _ => spawnsSafely (hb ▸ h.units) he
  settled _ hv := ha ▸ Settled.append (hb ▸ h.units) he
    (fun u hu => hh.units.service u (spawned_append.mpr (.inr hu))) (hb ▸ hv)
  failed _ hv := ha ▸ isFailed_of_steady he.steady (hb ▸ h.units.frame.reachable) (hb ▸ hv)
  known _ hv := asked_append.mpr (.inl hv)
  asked v hv := (asked_append.mp hv).symm.imp (fun hv => (hask v hv).1) id

/-- An entry that asks for nothing and spawns nothing. -/
theorem quiet (h : Holds plan log w) (hs : Safe plan log) (he : Orderly plan e)
    (hb : e.before = w.manager) (hspawns : ∀ u, e.incident ≠ .turn u)
    (hask : ∀ u, e.incident ≠ .ask u) : Onward plan asks log w (log ++ [e]) ⟨e.after, w.flows⟩ :=
  single h hs he hb (h.append he hb (fun u hu => hspawns u hu.1) hask) rfl
    fun u hu => absurd hu (hask u)

end Onward

/-! ## What goes on while the boot waits -/

open Supervisor

theorem world_reapOne (k : Kernel) (s : Supervisor) (exit : Pid × ExitOutcome) :
    (reapOne k s exit).world = ⟨(s.manager.onChildExit k exit.1 exit.2).1, s.starts.flows⟩ := by
  unfold reapOne
  split
  · next heq => rw [Supervisor.world, heq]
  · next heq =>
    rw [Supervisor.world, heq]
    dsimp only
    split
    · rfl
    · unfold StartCoordinator.takeAux
      split <;> rfl

/-- The children that were reaped. -/
theorem onward_exits (k : Kernel) (exits : List (Pid × ExitOutcome)) {s : Supervisor}
    {log : List Logged} (h : Holds plan log s.world) (hs : Safe plan log)
    (hcalm : ∀ e ∈ exitLog k exits s, e.Calm) : Onward plan [] log s.world
      (log ++ exitLog k exits s) (exits.foldl (reapOne k) s).world := by
  induction exits generalizing s log with
  | nil =>
    rw [exitLog, List.append_nil]
    exact .refl h hs
  | cons exit rest ih =>
    have hworld := world_reapOne k s exit
    have hmanager : (reapOne k s exit).manager = (s.manager.onChildExit k exit.1 exit.2).1 :=
      congrArg World.manager hworld
    rw [exitLog] at hcalm ⊢
    have horderly : Orderly plan
        ⟨k, s.manager, .exit exit.1 exit.2, (reapOne k s exit).manager⟩ := by
      have hhead := hcalm _ List.mem_cons_self
      rw [hmanager] at hhead ⊢
      exact orderly_exit h.units.frame k exit.1 exit.2 hhead
    have hfirst : Onward plan [] log s.world
        (log ++ [⟨k, s.manager, .exit exit.1 exit.2, (reapOne k s exit).manager⟩])
        (reapOne k s exit).world := by
      rw [hworld, ← hmanager]
      exact .quiet h hs horderly rfl (by simp) (by simp)
    have hrest := ih hfirst.holds hfirst.safe fun e he => hcalm e (List.mem_cons_of_mem _ he)
    rw [List.append_assoc, List.singleton_append] at hrest
    exact hfirst.trans hrest

theorem onward_turn (k : Kernel) (s : UnitManager × StartCoordinator) (u : UnitName)
    (h : Holds plan log (world s)) (hs : Safe plan log) :
    Onward plan [] log (world s)
      (log ++ [⟨k, s.1, .turn u, (StartCoordinator.advanceFlow k s u).1⟩])
      (world (StartCoordinator.advanceFlow k s u)) := by
  unfold StartCoordinator.advanceFlow
  cases hf : s.2.flows[u]? with
  | none =>
    have horderly : Orderly plan ⟨k, s.1, .turn u, s.1⟩ := orderly_of_idles h.units.frame
      h.units.frame (.refl s.1) fun v rt hrt => ⟨rt, hrt, .refl rt⟩
    have hspawns (v : UnitName) : ¬(⟨k, s.1, .turn u, s.1⟩ : Logged).Spawns v := by
      rintro ⟨-, hnone, hsome⟩
      obtain ⟨rt, hrt, hp⟩ := (Option.any_eq_true ..).mp hnone
      obtain ⟨rt', hrt', hp'⟩ := (Option.any_eq_true ..).mp hsome
      obtain rfl := Option.some.inj (hrt.symm.trans hrt')
      simp_all
    exact .single h hs horderly rfl (h.append horderly rfl hspawns (by simp)) rfl (by simp)
  | some f =>
    dsimp only
    generalize ht' : StartFlow.advance k { flow := f, manager := s.1, aux := s.2.auxExits } = t'
    have hturn (calls : List Call) := h.turn (e := ⟨k, s.1, .turn u, t'.manager.noted calls⟩)
      hf k s.2.auxExits calls ht'.symm rfl
    by_cases hd : t'.done.isSome = true
    · rw [if_pos hd]
      obtain ⟨calls, hm, hflows⟩ := StartCoordinator.removeFlow_eq k { s.2 with
        flows := s.2.flows.insert u t'.flow, auxExits := t'.aux } t'.manager u
      have herase : (s.2.flows.insert u t'.flow).erase u = s.2.flows.erase u := by
        refine Std.ExtTreeMap.ext_getElem? fun v => ?_
        rw [Std.ExtTreeMap.getElem?_erase, Std.ExtTreeMap.getElem?_erase]
        split
        · rfl
        · next huv => rw [Std.ExtTreeMap.getElem?_insert, if_neg huv]
      unfold world
      rw [hm, hflows, herase]
      obtain ⟨horderly, hholds⟩ := hturn calls
      rw [if_pos hd] at hholds
      exact .single h hs horderly rfl hholds rfl (by simp)
    · rw [if_neg hd]
      obtain ⟨horderly, hholds⟩ := hturn []
      rw [UnitManager.noted_nil] at horderly hholds
      rw [if_neg hd] at hholds
      exact .single h hs horderly rfl hholds rfl (by simp)

/-- The starts are advanced. -/
theorem onward_turns (k : Kernel) (units : List UnitName) {s : UnitManager × StartCoordinator}
    {log : List Logged} (h : Holds plan log (world s)) (hs : Safe plan log) :
    Onward plan [] log (world s) (log ++ turnLog k units s)
      (world (units.foldl (StartCoordinator.advanceFlow k) s)) := by
  induction units generalizing s log with
  | nil =>
    rw [turnLog, List.append_nil]
    exact .refl h hs
  | cons u rest ih =>
    have hfirst := onward_turn k s u h hs
    have hrest := ih hfirst.holds hfirst.safe
    rw [List.append_assoc, List.singleton_append] at hrest
    exact hfirst.trans hrest

theorem dueQueuedStarts_eq (h : Frame plan m) (k : Kernel) : m.dueQueuedStarts k = (m, []) := by
  unfold UnitManager.dueQueuedStarts
  rw [h.queued]
  rfl

theorem dueIdleUnits_eq (h : Frame plan m) (k : Kernel) : (m.dueIdleUnits k).2 = [] := by
  refine List.eq_nil_iff_forall_not_mem.mpr fun u hu => ?_
  obtain ⟨rt, hrt, hdue⟩ := (UnitManager.mem_pass m u).mp hu
  rw [Traced.pure_val] at hdue
  simp [UnitRuntime.dueIdle, (h.rest u rt hrt).2.2] at hdue

/-- Whatever the loop does but advance the boot. -/
theorem onward_step (k : Kernel) {s : Supervisor} {input : Input} (h : Holds plan log s.world)
    (hs : Safe plan log) (hb : s.boot.isSome = true) (hc : s.starts.controls = [])
    (hinput : input ≠ .boot) (hcalm : ∀ e ∈ s.log k input, e.Calm)
    (haddressed : ∀ e ∈ s.log k input, e.Addressed) :
    Onward plan [] log s.world (log ++ s.log k input) (s.step k input).world := by
  have hframe : Frame plan s.manager := h.units.frame
  have hsame : Onward plan [] log s.world (log ++ []) s.world := by
    rw [List.append_nil]
    exact .refl h hs
  cases input with
  | boot => exact absurd rfl hinput
  | reap exits => exact onward_exits k exits h hs hcalm
  | advance =>
    have hturns := onward_turns k s.starts.flows.keys (s := (s.manager, s.starts)) h hs
    have hstep : (s.step k .advance).world = world
        (s.starts.flows.keys.foldl (StartCoordinator.advanceFlow k) (s.manager, s.starts)) := by
      change World.mk (s.starts.advance k s.manager).1 (s.starts.advance k s.manager).2.1.flows = _
      unfold StartCoordinator.advance
      dsimp only
      rw [StartCoordinator.controls_advanceFlows, hc]
      rfl
    rw [hstep]
    exact hturns
  | wakeSockets =>
    have hstep : s.step k .wakeSockets = s := if_pos hb
    rw [hstep]
    exact hsame
  | connection u =>
    have hstep : (s.step k (.connection u)).world = s.world := by
      change (s.connection k u).world = s.world
      unfold connection
      split
      · rfl
      · rfl
    rw [hstep]
    exact hsame
  | control request =>
    have hstep : (s.step k (.control request)).world = s.world := by
      change (s.control k request).world = s.world
      unfold Supervisor.control
      rw [if_pos hb]
      rfl
    rw [hstep]
    exact hsame
  | restarts =>
    have hstep : (s.step k .restarts).world = (s.manager.dueRestarts k).2.foldl (World.begin_ k)
        ⟨(s.manager.dueRestarts k).1, s.starts.flows⟩ := by
      unfold step
      rw [world_beginAll]
      rfl
    obtain ⟨horderly, hholds⟩ := h.restarts k hstep rfl
    exact .single h hs horderly rfl hholds rfl (by simp)
  | queuedStarts =>
    have hstep : s.step k .queuedStarts = s := by
      change beginAll k { s with manager := (s.manager.dueQueuedStarts k).1 }
        (s.manager.dueQueuedStarts k).2 = s
      rw [dueQueuedStarts_eq hframe]
      rfl
    unfold Supervisor.log
    rw [hstep]
    exact .quiet h hs (orderly_of_idles hframe hframe (.refl _) fun u rt hrt => ⟨rt, hrt, .refl rt⟩)
      rfl (by simp) (by simp)
  | startTimeouts => exact .quiet h hs (orderly_dueStartTimeouts hframe k) rfl (by simp) (by simp)
  | kills => exact .quiet h hs (orderly_dueKills hframe k) rfl (by simp) (by simp)
  | healthProbes => exact .quiet h hs (orderly_dueHealthProbes hframe k) rfl (by simp) (by simp)
  | probeTimeouts => exact .quiet h hs (orderly_dueProbeTimeouts hframe k) rfl (by simp) (by simp)
  | idle =>
    have hstep : s.step k .idle = { s with manager := (s.manager.dueIdleUnits k).1 } := by
      change (s.manager.dueIdleUnits k).2.foldl (stopIdle k) _ = _
      rw [dueIdleUnits_eq hframe]
      rfl
    unfold Supervisor.log
    rw [hstep]
    exact .quiet h hs (orderly_dueIdleUnits hframe k) rfl (by simp) (by simp)
  | notify u message =>
    exact .quiet h hs (orderly_notify hframe k u message (haddressed _ List.mem_cons_self)) rfl
      (by simp) (by simp)

end Boot

end Rinit
