import Rinit.BootRun

/-!
# The levels of a boot

The boot walks the levels of its plan and leaves one when each of its services and targets has
settled (`Placed`). A service without a start in flight has been ready or has failed
(`settled_service`), so nothing is asked for before what it requires is up. `safe_of_booted` :
every run of a boot is safe, but for the breaker that trips in silence.
-/

namespace Rinit

open Relation

namespace Boot


variable {plan : BootPlan} {k : Kernel} {m : UnitManager} {u v : UnitName} {w w' : World}
  {log log' : List Logged} {e : Logged} {rt : UnitRuntime}

/-! ## Plans -/

/-- The levels of a plan hold each of its units once, and what a unit requires comes earlier. -/
structure Laid (plan : BootPlan) : Prop where
  nodup : plan.levels.flatten.Nodup
  known : ∀ u ∈ plan.levels.flatten, (plan.configOf u).isSome = true
  earlier : ∀ u ∈ plan.levels.flatten, ∀ r, RequiresUnit plan.configs u r → Earlier plan r u

theorem split_getD {levels : List (List UnitName)} {i : ℕ} (h : u ∈ levels.getD i []) :
    levels = levels.take i ++ levels.getD i [] :: levels.drop (i + 1) := by
  have hi : i < levels.length := by
    by_contra hi
    simp [List.getElem?_eq_none (Nat.not_lt.mp hi)] at h
  rw [List.getD_eq_getElem?_getD, List.getElem?_eq_getElem hi, Option.getD_some,
    ← List.drop_eq_getElem_cons hi, List.take_append_drop]

theorem mem_take_of_getD {levels : List (List UnitName)} {i j : ℕ} (h : u ∈ levels.getD j [])
    (hij : j < i) : u ∈ (levels.take i).flatten := by
  have hj : j < levels.length := by
    by_contra hj
    simp [List.getElem?_eq_none (Nat.not_lt.mp hj)] at h
  refine List.mem_flatten.mpr ⟨levels.getD j [], List.mem_iff_getElem?.mpr ⟨j, ?_⟩, h⟩
  rw [List.getElem?_take_of_lt hij, List.getD_eq_getElem?_getD, List.getElem?_eq_getElem hj,
    Option.getD_some]

theorem laid_of_planBoot {files : List UnitFile} {warnings : List String} {target : String}
    (h : BootPlan.planBoot files warnings target = .ok plan) : Laid plan := by
  obtain ⟨graph, hbuild, htarget, hschedule⟩ := BootPlan.schedulesUnits_of_planBoot h
  obtain ⟨hsorted, hmem⟩ := DependencyGraph.closureOf_of_build hbuild htarget
  have hacc :=
    DependencyGraph.assembled_of_assemble (DependencyGraph.build_eq_ok_iff.mp hbuild).1
  refine ⟨hschedule.perm.nodup_iff.mpr (hsorted.imp ne_of_lt), fun u hu => ?_,
    fun u hu r hr => ?_⟩
  · have hunits := DependencyGraph.mem_units_of_mem_closureOf (hschedule.perm.mem_iff.mp hu)
    obtain ⟨c, hc, rfl⟩ := List.mem_map.mp (hacc.perm_names.mem_iff.mp hunits)
    rw [ReloadState.configOf_eq_some (BootPlan.proper_of_planBoot h) hc]
    rfl
  · obtain ⟨c, hc, hname, hdep⟩ := hr
    have hactivates : Activates plan.configs u r := ⟨c, hc, hname, .inl hdep⟩
    have hclosure := hschedule.perm.mem_iff.mp hu
    have hr := (hmem r).mpr (((hmem u).mp hclosure).tail hactivates)
    obtain ⟨i, j, hi, hj, hij⟩ :=
      hschedule.lt u hclosure r hr (waitsFor_of_activates hactivates)
    exact ⟨_, _, _, split_getD hi, mem_take_of_getD hj hij, hi⟩

/-- A unit stands on one level only. -/
theorem past_unique {before before' after after' : List (List UnitName)}
    {level level' : List UnitName} (hn : (before ++ level :: after).flatten.Nodup)
    (heq : before ++ level :: after = before' ++ level' :: after') (hu : u ∈ level)
    (hu' : u ∈ level') : before = before' := by
  induction before generalizing before' with
  | nil =>
    cases before' with
    | nil => rfl
    | cons first rest =>
      obtain ⟨rfl, rfl⟩ := List.cons.inj heq
      have hdisjoint := List.disjoint_of_nodup_append (by simpa using hn) hu
      simp [hu'] at hdisjoint
  | cons first rest ih =>
    cases before' with
    | nil =>
      obtain ⟨rfl, rfl⟩ := List.cons.inj heq
      have hdisjoint := List.disjoint_of_nodup_append (by simpa using hn) hu'
      simp [hu] at hdisjoint
    | cons first' rest' =>
      rw [List.cons_append, List.cons_append] at heq
      obtain ⟨rfl, htail⟩ := List.cons.inj heq
      rw [List.cons_append, List.flatten_cons] at hn
      rw [ih (List.nodup_append.mp hn).2.1 htail]

/-- The levels before the one that is walked. -/
def past (plan : BootPlan) (i : ℕ) : List UnitName := (plan.levels.take i).flatten

theorem mem_past_of_earlier (hlaid : Laid plan) {i : ℕ} {level : List UnitName}
    (hlevel : plan.levels[i]? = some level) (hu : u ∈ level) (h : Earlier plan v u) :
    v ∈ past plan i := by
  obtain ⟨before, level', after, heq, hv, hu'⟩ := h
  have hmem : u ∈ plan.levels.getD i [] := by rwa [List.getD_eq_getElem?_getD, hlevel]
  have hsplit := split_getD hmem
  have hn := hlaid.nodup
  rw [hsplit] at hn heq
  rw [List.getD_eq_getElem?_getD, hlevel, Option.getD_some] at hn heq
  rw [past, past_unique hn heq hu hu']
  exact hv

theorem past_succ {i : ℕ} {level : List UnitName} (hlevel : plan.levels[i]? = some level) :
    past plan (i + 1) = past plan i ++ level := by
  rw [past, past, List.take_add_one, hlevel, List.flatten_append]
  simp

theorem not_mem_past (hlaid : Laid plan) {i : ℕ} {level : List UnitName}
    (hlevel : plan.levels[i]? = some level) (hu : u ∈ level) : u ∉ past plan i := by
  have hn := hlaid.nodup
  rw [← List.take_append_drop (i + 1) plan.levels, List.flatten_append] at hn
  have hn := (List.nodup_append.mp hn).1
  rw [← past, past_succ hlevel] at hn
  exact fun hp => List.disjoint_of_nodup_append hn hp hu

/-- A unit of a level is one of its services or of its targets. -/
theorem kind_of_level (hlaid : Laid plan) {i : ℕ} {level : List UnitName}
    (hlevel : plan.levels[i]? = some level) (hu : u ∈ level) :
    u ∈ plan.commandsInLevel level ∨
      u ∈ level.filter fun name => (plan.configOf name).any UnitConfig.isTarget := by
  have hmem : u ∈ plan.levels.flatten :=
    List.mem_flatten.mpr ⟨level, List.mem_of_getElem? hlevel, hu⟩
  obtain ⟨c, hc⟩ := Option.isSome_iff_exists.mp (hlaid.known u hmem)
  rcases hk : c.kind with _ | _
  · left
    simp [BootPlan.commandsInLevel, hu, hc, spawnsProcess, hk]
  · right
    simp [hu, hc, UnitConfig.isTarget, hk]

theorem service_of_command (hp : plan.Proper) {level : List UnitName}
    (hu : u ∈ plan.commandsInLevel level) :
    u ∈ level ∧ u.ty = .service ∧ (plan.configOf u).isSome = true := by
  obtain ⟨hmem, hspawns⟩ := List.mem_filter.mp hu
  obtain ⟨c, hc, hk⟩ := (Option.any_eq_true ..).mp hspawns
  obtain ⟨hconfig, rfl⟩ := BootPlan.mem_of_configOf hc
  refine ⟨hmem, ?_, by rw [hc]; rfl⟩
  rw [← hp.kind c hconfig]
  simpa [spawnsProcess] using hk

/-! ## The services of a level -/

/-- What a unit requires is up when everything before it has settled and it has not failed. -/
theorem asksSafely (h : UnitsHold plan log m) (hlaid : Laid plan) (hu : u ∈ plan.levels.flatten)
    (hn : ¬Spawned log u) (hf : m.isFailed u = false)
    (hpast : ∀ v, Earlier plan v u → Settled plan log m v) : AsksSafely plan log m u where
  earlier := hpast
  required r hr := by
    have hup : m.isFailed r = false := by
      by_contra hdown
      cases hf.symm.trans (h.closed u r hn hr (by simpa using hdown))
    exact ⟨hup, (hpast r (hlaid.earlier u hu r hr)).resolve_left (by simp [hup])⟩

/-- The services of a level are asked for, but for those that have failed. -/
theorem onward_asks (k : Kernel) (hlaid : Laid plan) (names : List UnitName)
    {s : UnitManager × StartCoordinator} {log : List Logged} (h : Holds plan log (world s))
    (hs : Safe plan log) (hn : names.Nodup)
    (hservice : ∀ u ∈ names, u.ty = .service ∧ u ∈ plan.levels.flatten)
    (hnew : ∀ u ∈ names, ¬Asked log u)
    (hpast : ∀ u ∈ names, ∀ v, Earlier plan v u → Settled plan log s.1 v) :
    Onward plan names log (world s) (log ++ askLog k names s) (world (startServices k names s).1) ∧
      (∀ u ∈ (startServices k names s).2, u ∈ names) ∧
      ∀ u ∈ names, u ∈ (startServices k names s).2 ∧ Asked (log ++ askLog k names s) u ∨
        (startServices k names s).1.1.isFailed u = true := by
  induction names generalizing s log with
  | nil =>
    rw [askLog, List.append_nil]
    exact ⟨.refl h hs, fun u hu => hu, fun u hu => by cases hu⟩
  | cons name rest ih =>
    obtain ⟨hname, hn⟩ := List.nodup_cons.mp hn
    have hmem {u : UnitName} (hu : u ∈ rest) : u ∈ name :: rest := List.mem_cons_of_mem _ hu
    rw [askLog, startServices]
    dsimp only
    by_cases hf : s.1.isFailed name = true
    · -- a service that has failed is not asked for
      have hskip : startService k s name = (s, false) := if_pos hf
      rw [if_pos (by simp [hf]), hskip]
      obtain ⟨honward, hsub, heach⟩ := ih h hs hn (fun u hu => hservice u (hmem hu))
        (fun u hu => hnew u (hmem hu)) fun u hu => hpast u (hmem hu)
      refine ⟨honward.mono fun u => hmem, fun u hu => hmem (hsub u hu), fun u hu => ?_⟩
      rcases List.mem_cons.mp hu with rfl | hu
      · exact .inr (honward.failed u hf)
      · exact heach u hu
    · have hup : s.1.isFailed name = false := by simpa using hf
      obtain ⟨hs', hlevels⟩ := hservice name List.mem_cons_self
      have hfds : s.1.listenFds = ∅ := h.units.frame.listenFds
      rw [if_neg (by simp [hup, hfds])]
      generalize he : (⟨k, s.1, .ask name, (startService k s name).1.1⟩ : Logged) = e
      obtain ⟨hstarted, horderly, hholds⟩ := h.ask hs' (hlaid.known name hlevels)
        (hnew name List.mem_cons_self) hup k he.symm
      have hincident : e.incident = .ask name := by rw [← he]
      have hfirst : Onward plan (name :: rest) log (world s) (log ++ [e])
          (world (startService k s name).1) := by
        refine .single h hs horderly (by rw [← he]; rfl) hholds (by rw [← he]; rfl) fun u hu => ?_
        obtain rfl := Incident.ask.inj (hincident.symm.trans hu)
        refine ⟨List.mem_cons_self, ?_⟩
        rw [← he]
        exact asksSafely h.units hlaid hlevels
          (fun hspawned => hnew name List.mem_cons_self (h.flows.spawned name hspawned)) hup
          (hpast name List.mem_cons_self)
      -- no unit stands twice on a level, so the others have not been asked for yet
      obtain ⟨honward, hsub, heach⟩ := ih hfirst.holds hfirst.safe hn
        (fun u hu => hservice u (hmem hu))
        (fun u hu hasked => (asked_append.mp hasked).elim (hnew u (hmem hu)) fun heq => hname
          (Incident.ask.inj (hincident.symm.trans heq) ▸ hu))
        fun u hu v hv => hfirst.settled v (hpast u (hmem hu) v hv)
      rw [List.append_assoc, List.singleton_append] at honward heach
      rw [if_pos hstarted]
      refine ⟨hfirst.trans (honward.mono fun u => hmem), fun u hu => ?_, fun u hu => ?_⟩
      · exact (List.mem_cons.mp hu).elim (fun hu => hu ▸ List.mem_cons_self) fun hu =>
          hmem (hsub u hu)
      · rcases List.mem_cons.mp hu with rfl | hu
        · refine .inl ⟨List.mem_cons_self, e, by simp, hincident⟩
        · exact (heach u hu).imp (.imp (List.mem_cons_of_mem _) id) id

/-- A service that is done with has been ready or has failed. -/
theorem settled_service (k : Kernel) {starts : StartCoordinator}
    (h : Holds plan log ⟨m, starts.flows⟩) (hs : u.ty = .service)
    (ha : Asked log u ∨ m.isFailed u = true)
    (hd : (settleService k plan starts m u).2 = true) :
    Settled plan log m u ∨ (settleService k plan starts m u).1.isFailed u = true := by
  have hready (hr : Ready plan log u) : Settled plan log m u := .inr (by rwa [Up, hs])
  obtain ⟨c, hc, hdone⟩ : ∃ c, plan.configOf u = some c ∧ (Spawned log u ∨ m.isFailed u = true ∨
      starts.flows.contains u = true) := by
    rcases ha with ha | hf
    · obtain ⟨-, hc, hup⟩ := h.flows.asked u ha
      obtain ⟨c, hc⟩ := Option.isSome_iff_exists.mp hc
      exact ⟨c, hc, hup.elim (.inr ∘ .inr) (.imp id .inl)⟩
    · obtain ⟨rt, hrt, -⟩ := (Option.any_eq_true ..).mp hf
      exact ⟨_, h.units.frame.configOf hrt, .inr (.inl hf)⟩
  obtain ⟨rt, hrt⟩ : ∃ rt, m.get u = some rt := by
    have hconfig := h.units.frame.config u
    rw [hc] at hconfig
    exact (Option.map_eq_some_iff.mp hconfig).imp fun _ => And.left
  have hfails : (m.failStart k u).1.isFailed u = true := isFailed_failStart k (by simp [hrt])
  have hlate (hl : rt.state.isLate = true) : Settled plan log m u :=
    hready ((h.units.tame u rt hrt).ready hs hl)
  unfold settleService at hd ⊢
  split at hd
  · cases hd
  · next hflow =>
    rw [if_neg hflow]
    rw [hc, hrt] at hd ⊢
    rw [Option.map_some, Option.getD_some] at hd ⊢
    cases hkind : c.serviceKind with
    | simple =>
      -- a start that is over has spawned the unit, which is all this kind waits for
      rcases hdone with ⟨e, he, hspawns⟩ | hf | hf
      · exact .inl (hready ⟨c, hc, e, he, by rwa [hkind]⟩)
      · exact .inl (.inl hf)
      · exact absurd hf hflow
    | oneshot | notify | forking =>
      -- the unit is looked at : it has failed, or it is in a state one gets to by being ready
      rw [hkind] at hd
      rw [Option.map_some] at hd ⊢
      cases hstate : rt.state with
      | starting =>
        rw [hstate] at hd
        cases hd
      | active | activeExited | restartWait | deactivating => exact .inl (hlate (by rw [hstate]; rfl))
      | inactive | failed => exact .inr hfails

/-- The services of a level that wait are looked at. -/
theorem onward_settles (k : Kernel) {starts : StartCoordinator} (units : List UnitName)
    {m : UnitManager} {log : List Logged} (h : Holds plan log ⟨m, starts.flows⟩)
    (hs : Safe plan log) (hunits : ∀ u ∈ units, u.ty = .service ∧
      (plan.configOf u).isSome = true ∧ (Asked log u ∨ m.isFailed u = true)) :
    Onward plan [] log ⟨m, starts.flows⟩ (log ++ settleLog k plan starts units m)
        ⟨(settlePending k plan starts units m).1, starts.flows⟩ ∧
      (∀ u ∈ (settlePending k plan starts units m).2, u ∈ units) ∧
      ∀ u ∈ units, u ∈ (settlePending k plan starts units m).2 ∨
        Settled plan (log ++ settleLog k plan starts units m)
          (settlePending k plan starts units m).1 u := by
  induction units generalizing m log with
  | nil =>
    rw [settleLog, List.append_nil]
    exact ⟨.refl h hs, fun u hu => hu, fun u hu => by cases hu⟩
  | cons unit rest ih =>
    obtain ⟨hservice, hc, hasked⟩ := hunits unit List.mem_cons_self
    rw [settleLog, settlePending]
    dsimp only
    have hget : (m.get unit).isSome = true := by
      rw [← h.units.frame.config unit, Option.isSome_map] at hc
      exact hc
    have horderly := orderly_settle h.units.frame k starts unit hget
    have hdone := settled_service k h hservice hasked
    generalize settleService k plan starts m unit = r at horderly hdone
    have hfirst : Onward plan [] log ⟨m, starts.flows⟩
        (log ++ [⟨k, m, .settle unit, r.1⟩]) ⟨r.1, starts.flows⟩ :=
      .quiet h hs horderly rfl (by simp) (by simp)
    obtain ⟨honward, hsub, heach⟩ := ih hfirst.holds hfirst.safe fun u hu => by
      obtain ⟨hservice, hc, hasked⟩ := hunits u (List.mem_cons_of_mem _ hu)
      exact ⟨hservice, hc, hasked.imp (hfirst.known u) (hfirst.failed u)⟩
    rw [List.append_assoc, List.singleton_append] at honward heach
    refine ⟨hfirst.trans honward, fun u hu => ?_, fun u hu => ?_⟩
    · split at hu
      · exact List.mem_cons_of_mem _ (hsub u hu)
      · exact (List.mem_cons.mp hu).elim (fun hu => hu ▸ List.mem_cons_self) fun hu =>
          List.mem_cons_of_mem _ (hsub u hu)
    · by_cases hr : r.2 = true
      · rw [if_pos hr]
        rcases List.mem_cons.mp hu with rfl | hu
        · refine .inr ?_
          rcases hdone hr with hsettled | hf
          · exact honward.settled u (hfirst.settled u hsettled)
          · exact honward.settled u (.inl hf)
        · exact heach u hu
      · rw [if_neg hr]
        rcases List.mem_cons.mp hu with rfl | hu
        · exact .inl List.mem_cons_self
        · exact (heach u hu).imp (List.mem_cons_of_mem _) id

/-! ## The targets of a level -/

/-- A target that is looked at is reached, or it fails. -/
theorem settled_target (k : Kernel) (hu : u.ty = .target)
    (hv : (m.get u).isSome = true) (log : List Logged) :
    Settled plan log (m.reachTarget k u).1 u := by
  obtain ⟨rt, hrt⟩ := Option.isSome_iff_exists.mp hv
  unfold UnitManager.reachTarget
  rw [hrt]
  dsimp only
  split
  · exact .inl (isFailed_failStart k hv)
  · have hget : (m.modify u fun rt => { rt with state := .active }).get u =
        some { rt with state := .active } := by
      rw [UnitManager.get_modify, if_pos rfl, hrt, Option.map_some]
    refine .inr ?_
    rw [Up, hu]
    exact (Option.any_eq_true ..).mpr ⟨_, hget, by simp⟩

theorem onward_targets (k : Kernel) (flows : Flows) (targets : List UnitName)
    {m : UnitManager} {log : List Logged} (h : Holds plan log ⟨m, flows⟩) (hs : Safe plan log)
    (htargets : ∀ u ∈ targets, u.ty = .target ∧ (plan.configOf u).isSome = true) :
    Onward plan [] log ⟨m, flows⟩ (log ++ targetLog k targets m)
        ⟨settleTargets k targets m, flows⟩ ∧
      ∀ u ∈ targets, Settled plan (log ++ targetLog k targets m) (settleTargets k targets m) u := by
  induction targets generalizing m log with
  | nil =>
    rw [targetLog, List.append_nil]
    exact ⟨.refl h hs, fun u hu => by cases hu⟩
  | cons name rest ih =>
    obtain ⟨ht, hc⟩ := htargets name List.mem_cons_self
    have hget : (m.get name).isSome = true := by
      rw [← h.units.frame.config name, Option.isSome_map] at hc
      exact hc
    rw [targetLog]
    have hfirst : Onward plan [] log ⟨m, flows⟩
        (log ++ [⟨k, m, .settle name, (m.reachTarget k name).1⟩])
        ⟨(m.reachTarget k name).1, flows⟩ :=
      .quiet h hs (orderly_reachTarget h.units.frame k ht hget) rfl (by simp) (by simp)
    obtain ⟨honward, heach⟩ := ih hfirst.holds hfirst.safe fun u hu =>
      htargets u (List.mem_cons_of_mem _ hu)
    rw [List.append_assoc, List.singleton_append] at honward heach
    refine ⟨hfirst.trans honward, fun u hu => ?_⟩
    rcases List.mem_cons.mp hu with rfl | hu
    · exact honward.settled u (settled_target k ht hget _)
    · exact heach u hu

/-! ## Level by level -/

/-- The level that is walked : its services were asked for or have failed, and the boot waits for
those it is not done with. -/
structure Begun (plan : BootPlan) (log : List Logged) (b : Boot) (level : List UnitName)
    (m : UnitManager) : Prop where
  targets : b.targets = level.filter fun name => (plan.configOf name).any UnitConfig.isTarget
  pending : ∀ u ∈ b.pending, u ∈ plan.commandsInLevel level
  asked : ∀ u ∈ plan.commandsInLevel level, Asked log u ∨ m.isFailed u = true
  settled : ∀ u ∈ plan.commandsInLevel level, u ∈ b.pending ∨ Settled plan log m u

/-- Where the boot stands : the levels it has left have settled, and nothing was asked for
beyond the level that is walked. -/
structure Placed (plan : BootPlan) (log : List Logged) (b : Boot) (m : UnitManager) : Prop where
  follows : b.plan = plan
  settled : ∀ u ∈ past plan b.level, Settled plan log m u
  asked : ∀ u, Asked log u → u ∈ past plan (if b.active then b.level + 1 else b.level)
  begun : b.active = true → ∀ level, plan.levels[b.level]? = some level → Begun plan log b level m

variable {b : Boot} {s : UnitManager × StartCoordinator} {level : List UnitName}

theorem Begun.onward {asks : List UnitName} (h : Begun plan log b level w.manager)
    (ho : Onward plan asks log w log' w') : Begun plan log' b level w'.manager where
  targets := h.targets
  pending := h.pending
  asked u hu := (h.asked u hu).imp (ho.known u) (ho.failed u)
  settled u hu := (h.settled u hu).imp id (ho.settled u)

/-- The boot stands where it stood while other things go on. -/
theorem Placed.onward (h : Placed plan log b w.manager) (ho : Onward plan [] log w log' w') :
    Placed plan log' b w'.manager where
  follows := h.follows
  settled u hu := ho.settled u (h.settled u hu)
  asked u hu := (ho.asked u hu).elim (fun hu => by cases hu) (h.asked u)
  begun hb level hlevel := (h.begun hb level hlevel).onward ho

theorem beginLevel_keeps (k : Kernel) (b : Boot) (level : List UnitName)
    (s : UnitManager × StartCoordinator) : (beginLevel k b level s).1.active = true ∧
      (beginLevel k b level s).1.level = b.level := by
  unfold beginLevel
  split
  · next hb => exact ⟨hb, rfl⟩
  · exact ⟨rfl, rfl⟩

/-- A level is begun : its services are asked for, once. -/
theorem onward_begin (k : Kernel) (hlaid : Laid plan) (h : Holds plan log (world s))
    (hs : Safe plan log) (hp : Placed plan log b s.1) (hlevel : plan.levels[b.level]? = some level) :
    Onward plan level log (world s) (log ++ beginLog k b level s)
        (world (beginLevel k b level s).2) ∧
      Placed plan (log ++ beginLog k b level s) (beginLevel k b level s).1
        (beginLevel k b level s).2.1 := by
  by_cases hb : b.active = true
  · have hsame : beginLevel k b level s = (b, s) := if_pos hb
    rw [hsame, beginLog, if_pos hb, List.append_nil]
    exact ⟨.refl h hs, hp⟩
  · have hmem (u : UnitName) (hu : u ∈ plan.commandsInLevel level) :=
      service_of_command h.units.frame.proper hu
    have hflatten (u : UnitName) (hu : u ∈ level) : u ∈ plan.levels.flatten :=
      List.mem_flatten.mpr ⟨level, List.mem_of_getElem? hlevel, hu⟩
    have hnew (u : UnitName) (hu : u ∈ plan.commandsInLevel level) : ¬Asked log u := fun ha => by
      have hpast := hp.asked u ha
      rw [if_neg hb] at hpast
      exact not_mem_past hlaid hlevel (hmem u hu).1 hpast
    have hnodup : (plan.commandsInLevel level).Nodup :=
      ((List.nodup_flatten.mp hlaid.nodup).1 level (List.mem_of_getElem? hlevel)).filter _
    rw [beginLog, if_neg hb, beginLevel, if_neg hb, hp.follows]
    obtain ⟨honward, hsub, heach⟩ := onward_asks k hlaid (plan.commandsInLevel level) h hs hnodup
      (fun u hu => ⟨(hmem u hu).2.1, hflatten u (hmem u hu).1⟩) hnew
      fun u hu v hv => hp.settled v (mem_past_of_earlier hlaid hlevel (hmem u hu).1 hv)
    have honward := honward.mono fun u hu => (hmem u hu).1
    refine ⟨honward, rfl, fun u hu => honward.settled u (hp.settled u hu), fun u hu => ?_,
      fun _ level' hlevel' => ?_⟩
    · rw [if_pos rfl, past_succ hlevel]
      rcases honward.asked u hu with hu | hu
      · exact List.mem_append_right _ hu
      · have hpast := hp.asked u hu
        rw [if_neg hb] at hpast
        exact List.mem_append_left _ hpast
    · obtain rfl := Option.some.inj (hlevel.symm.trans hlevel')
      refine ⟨rfl, fun u hu => hsub u (by simpa using hu), fun u hu => ?_, fun u hu => ?_⟩
      · exact (heach u hu).imp And.right id
      · exact (heach u hu).imp (fun hu => by simpa using hu.1) .inl

/-- The next level is walked once the boot waits for no service of this one and its targets were
looked at. -/
theorem Placed.next (h : Placed plan log b m) (hlaid : Laid plan) (hb : b.active = true)
    (hlevel : plan.levels[b.level]? = some level) (hp : ∀ u ∈ b.pending, Settled plan log m u)
    (ht : ∀ u ∈ b.targets, Settled plan log m u) :
    Placed plan log { b with pending := ∅, level := b.level + 1, active := false } m where
  follows := h.follows
  settled u hu := by
    rw [past_succ hlevel] at hu
    refine (List.mem_append.mp hu).elim (h.settled u) fun hu => ?_
    have hbegun := h.begun hb level hlevel
    rcases kind_of_level hlaid hlevel hu with hu | hu
    · exact (hbegun.settled u hu).elim (hp u) id
    · exact ht u (hbegun.targets ▸ hu)
  asked u hu := by
    have hasked := h.asked u hu
    rwa [if_pos hb] at hasked
  begun hb := by cases hb

/-- The boot walks its levels. -/
theorem onward_walk (k : Kernel) (hlaid : Laid plan) (rest : List (List UnitName)) {b : Boot}
    {s : UnitManager × StartCoordinator} {log : List Logged} (h : Holds plan log (world s))
    (hs : Safe plan log) (hp : Placed plan log b s.1) (hrest : plan.levels.drop b.level = rest) :
    Holds plan (log ++ walkLog k rest b s) (world (walk k rest b s).2) ∧
      Safe plan (log ++ walkLog k rest b s) ∧
      Placed plan (log ++ walkLog k rest b s) (walk k rest b s).1 (walk k rest b s).2.1 := by
  induction rest generalizing b s log with
  | nil =>
    rw [walkLog, List.append_nil]
    exact ⟨h, hs, hp.follows, hp.settled, hp.asked, fun hb level hlevel =>
      { hp.begun hb level hlevel with }⟩
  | cons level rest ih =>
    have hlevel : plan.levels[b.level]? = some level := by
      rw [← List.head?_drop, hrest, List.head?_cons]
    obtain ⟨hbegin, hplaced⟩ := onward_begin k hlaid h hs hp hlevel
    have hkeeps := beginLevel_keeps k b level s
    rw [walkLog, walk]
    generalize beginLevel k b level s = r at hbegin hplaced hkeeps
    obtain ⟨b', m, starts⟩ := r
    obtain ⟨hactive, hb'⟩ := hkeeps
    dsimp only at hbegin hplaced hactive hb' ⊢
    rw [hplaced.follows]
    rw [← hb'] at hlevel
    have hbegun := hplaced.begun hactive level hlevel
    have hholds : Holds plan _ ⟨m, starts.flows⟩ := hbegin.holds
    obtain ⟨hsettles, hsub, heach⟩ := onward_settles k b'.pending.toList hholds
      hbegin.safe fun u hu => by
        have hu := hbegun.pending u (Std.ExtTreeSet.mem_toList.mp hu)
        obtain ⟨-, hservice, hc⟩ := service_of_command h.units.frame.proper hu
        exact ⟨hservice, hc, hbegun.asked u hu⟩
    rw [List.append_assoc] at hsettles heach
    generalize settlePending k plan starts b'.pending.toList m = q at hsettles hsub heach
    obtain ⟨m', waiting⟩ := q
    have hplaced' := hplaced.onward hsettles
    have hbegun' := hbegun.onward hsettles
    cases waiting with
    | nil =>
      -- nothing is waited for any more, so the targets are looked at and the next level follows
      dsimp only at hsettles hsub heach hplaced' hbegun' ⊢
      have hkinds (t : UnitName) (ht : t ∈ b'.targets) :
          t.ty = .target ∧ (plan.configOf t).isSome = true := by
        rw [hbegun.targets] at ht
        obtain ⟨c, hc, htarget⟩ := (Option.any_eq_true ..).mp (List.mem_filter.mp ht).2
        exact ⟨ty_of_configOf h.units.frame.proper hc htarget, by rw [hc]; rfl⟩
      obtain ⟨htargets, hreached⟩ :=
        onward_targets k starts.flows b'.targets hsettles.holds hsettles.safe hkinds
      have hnext := (hplaced'.onward htargets).next hlaid hactive hlevel
        (fun v hv => htargets.settled v
          ((heach v (Std.ExtTreeSet.mem_toList.mpr hv)).resolve_left (by simp))) hreached
      have hrest' : plan.levels.drop (b'.level + 1) = rest := by
        rw [← List.tail_drop, hb', hrest, List.tail_cons]
      have hwalked := ih (s := (settleTargets k b'.targets m', starts)) htargets.holds
        htargets.safe hnext hrest'
      rw [List.append_assoc, List.append_assoc, List.append_assoc, hplaced.follows] at hwalked
      exact hwalked
    | cons u us =>
      -- the boot stays on the level
      dsimp only at hsettles hsub heach hplaced' hbegun' ⊢
      rw [List.append_nil]
      refine ⟨hsettles.holds, hsettles.safe, rfl, hplaced'.settled, hplaced'.asked,
        fun _ level' hlevel' => ?_⟩
      obtain rfl := Option.some.inj (hlevel.symm.trans hlevel')
      refine ⟨hbegun'.targets, fun v hv => ?_, hbegun'.asked, fun v hv => ?_⟩
      · have hv : v ∈ u :: us := by simpa using hv
        exact hbegun.pending v (Std.ExtTreeSet.mem_toList.mp (hsub v hv))
      · refine (hbegun'.settled v hv).elim (fun hv => ?_) .inr
        exact (heach v (Std.ExtTreeSet.mem_toList.mpr hv)).imp (fun hv => by simpa using hv) id

/-! ## The run of a boot -/

open Supervisor

/-- How a boot stands between two steps. -/
structure Underway (plan : BootPlan) (log : List Logged) (s : Supervisor) (b : Boot) : Prop where
  holds : Holds plan log s.world
  placed : Placed plan log b s.manager
  controls : s.starts.controls = []

/-- With nothing to listen on, the units are registered and nothing else is done. -/
theorem prepareUnits_plain (k : Kernel) (plan : BootPlan) (cgroup : Cgroup)
    (h : ∀ c ∈ plan.configs, c.socketActivate = none)
    (hm : plan.configs.foldl (fun (m : UnitManager) config => (m.add config).1)
      { bootInProgress := true, cgroup := cgroup } = m) :
    (prepareUnits k plan cgroup).1 =
      { m with templates := plan.templates, shutdownOrder := plan.levels.flatten } := by
  have hnone {configs : List UnitConfig} (h : ∀ c ∈ configs, c.socketActivate = none)
      {f : UnitManager × Activated → UnitConfig → UnitManager × Activated}
      (hf : ∀ s c, c.socketActivate = none → f s c = s) (s : UnitManager × Activated) :
      configs.foldl f s = s := by
    induction configs with
    | nil => rfl
    | cons c rest ih =>
      rw [List.foldl_cons, hf s c (h c List.mem_cons_self)]
      exact ih fun c' hc' => h c' (List.mem_cons_of_mem _ hc')
  unfold prepareUnits
  dsimp only
  rw [hm, hnone h fun s c hc => by rw [hc]]

theorem undisturbed_add (m : UnitManager) (config : UnitConfig) :
    m.Undisturbed (m.add config).1 := by
  unfold UnitManager.add UnitManager.addWithInFlight
  split
  · exact ⟨rfl, rfl, rfl, rfl⟩
  · dsimp only
    split <;> exact ⟨rfl, rfl, rfl, rfl⟩

/-- The units of a plan at the start of its boot. -/
theorem unitsHold_prepareUnits (hp : plan.Proper) (k : Kernel) (cgroup : Cgroup)
    (hplain : ∀ c ∈ plan.configs, c.deps.conflicts = [] ∧ c.socketActivate = none) :
    UnitsHold plan [] (prepareUnits k plan cgroup).1 := by
  let m₀ : UnitManager := { bootInProgress := true, cgroup := cgroup }
  have hundisturbed : m₀.Undisturbed
      (plan.configs.foldl (fun (m : UnitManager) config => (m.add config).1) m₀) :=
    Runs.foldl_induction (P := fun _ m => m₀.Undisturbed m) (.refl m₀)
      fun _ config _ m _ h => h.trans (undisturbed_add m config)
  have hget (v : UnitName) :
      (plan.configs.foldl (fun (m : UnitManager) config => (m.add config).1) m₀).get v =
        (plan.configOf v).map UnitRuntime.new := by
    have hempty (v : UnitName) : m₀.get v = none := by simp [m₀, UnitManager.get]
    rw [get_foldl_add hp.nodup fun c _ => hempty c.name, hempty, Option.or_none]
    rfl
  have hreachable := reachable_prepareUnits hp k cgroup
  generalize hm : plan.configs.foldl (fun (m : UnitManager) config => (m.add config).1) m₀ = m
    at hundisturbed hget
  rw [prepareUnits_plain k plan cgroup (fun c hc => (hplain c hc).2) hm] at hreachable ⊢
  have hnew {u : UnitName} {rt : UnitRuntime} (hrt : m.get u = some rt) :
      ∃ c, rt = UnitRuntime.new c :=
    (Option.map_eq_some_iff.mp ((hget u).symm.trans hrt)).imp fun _ h => h.2.symm
  refine ⟨?_, fun u hu => ?_, fun u rt hrt => ?_, fun u r _ _ hf => ?_, fun e he => by cases he⟩
  · refine ⟨hp, hplain, hreachable, hundisturbed.bootInProgress, hundisturbed.listenFds,
      hundisturbed.queuedStarts, fun u hu => ?_, fun u => ?_, fun u rt hrt => ?_⟩
    · rw [UnitManager.targetOf, show m.jobs = {} from hundisturbed.jobs] at hu
      cases hu
    · refine (congrArg _ (hget u)).trans ?_
      cases plan.configOf u <;> rfl
    · obtain ⟨c, rfl⟩ := hnew hrt
      exact ⟨rfl, rfl, rfl⟩
  · obtain ⟨e, he, -⟩ := hu
    cases he
  · obtain ⟨c, rfl⟩ := hnew hrt
    exact ⟨fun _ => ⟨rfl, rfl, .inl rfl⟩, fun _ hl => by cases hl⟩
  · obtain ⟨rt, hrt, hf⟩ := (Option.any_eq_true ..).mp hf
    obtain ⟨c, rfl⟩ := hnew hrt
    cases hf

theorem underway_init (hp : plan.Proper) (k : Kernel) (cgroup : Cgroup)
    (hplain : ∀ c ∈ plan.configs, c.deps.conflicts = [] ∧ c.socketActivate = none) :
    Underway plan [] (init k plan cgroup) { plan := plan } := by
  have hasked (u : UnitName) : ¬Asked [] u := fun ⟨e, he, _⟩ => by cases he
  have hspawned (u : UnitName) : ¬Spawned [] u := fun ⟨e, he, _⟩ => by cases he
  refine ⟨⟨unitsHold_prepareUnits hp k cgroup hplain, fun u f hf => ?_, fun u hu => ?_,
    fun u hu => absurd hu (hasked u)⟩, ⟨rfl, fun u hu => ?_, fun u hu => absurd hu (hasked u),
    fun hb => by cases hb⟩, rfl⟩
  · rw [show (init k plan cgroup).world.flows = ∅ from rfl] at hf
    simp at hf
  · exact absurd hu (hspawned u)
  · simp [past] at hu

/-- Only the boot itself moves the boot, and nothing else is waited for while it runs. -/
theorem rests_step (k : Kernel) {s : Supervisor} {input : Input} (hb : s.boot.isSome = true)
    (hc : s.starts.controls = []) (hinput : input ≠ .boot) :
    (s.step k input).boot = s.boot ∧ (s.step k input).starts.controls = [] := by
  rw [← hc]
  cases input with
  | boot => exact absurd rfl hinput
  | reap exits =>
    exact ⟨(Leaves.foldl (P := fun _ => True) (fun s e _ => leaves_reapOne k s e) s).boot,
      Runs.foldl_induction (P := fun _ (t : Supervisor) => t.starts.controls = s.starts.controls)
        rfl fun _ e _ t _ ht => (controls_reapOne k t e).trans ht⟩
  | advance =>
    refine ⟨rfl, ?_⟩
    change (s.starts.advance k s.manager).2.1.controls = _
    unfold StartCoordinator.advance
    dsimp only
    rw [StartCoordinator.controls_advanceFlows, hc]
    rfl
  | wakeSockets =>
    have hstep : s.step k .wakeSockets = s := if_pos hb
    rw [hstep]
    exact ⟨rfl, rfl⟩
  | restarts =>
    exact ⟨(leaves_beginAll (P := fun _ => True) k _ _).boot, controls_beginAll k _ _⟩
  | queuedStarts =>
    exact ⟨(leaves_beginAll (P := fun _ => True) k _ _).boot, controls_beginAll k _ _⟩
  | startTimeouts | kills | healthProbes | probeTimeouts | notify => exact ⟨rfl, rfl⟩
  | idle =>
    exact ⟨(leaves_idle k s).boot, Runs.foldl_induction (P := fun _ (t : Supervisor) =>
      t.starts.controls = s.starts.controls) rfl fun _ u _ t _ ht =>
        (controls_stopIdle k t u).trans ht⟩
  | control request =>
    change (s.control k request).boot = _ ∧ (s.control k request).starts.controls = _
    unfold Supervisor.control
    rw [if_pos hb]
    exact ⟨rfl, rfl⟩
  | connection u =>
    change (s.connection k u).boot = _ ∧ (s.connection k u).starts.controls = _
    unfold connection
    split
    · exact ⟨rfl, rfl⟩
    · exact ⟨rfl, rfl⟩

/-- The boot is advanced. -/
theorem underway_boot (k : Kernel) (hlaid : Laid plan) {s : Supervisor} {b : Boot}
    (hb : s.boot = some b) (h : Underway plan log s b) (hs : Safe plan log) :
    Safe plan (log ++ s.log k .boot) ∧ ∀ b', (s.step k .boot).boot = some b' →
      Underway plan (log ++ s.log k .boot) (s.step k .boot) b' := by
  have hcontrols : (s.step k .boot).starts.controls = [] :=
    (controls_advanceBoot k s).trans h.controls
  have hlog : s.log k .boot = b.log k (s.manager, s.starts) := by simp [Supervisor.log, hb]
  have hwalked : Holds plan (log ++ b.log k (s.manager, s.starts))
        (world (b.advance k (s.manager, s.starts)).2) ∧
      Safe plan (log ++ b.log k (s.manager, s.starts)) ∧
      Placed plan (log ++ b.log k (s.manager, s.starts)) (b.advance k (s.manager, s.starts)).1
        (b.advance k (s.manager, s.starts)).2.1 := by
    unfold Boot.log Boot.advance
    split
    · rw [List.append_nil]
      exact ⟨h.holds, hs, h.placed⟩
    · exact onward_walk k hlaid _ h.holds hs h.placed (by rw [h.placed.follows])
  rw [hlog]
  refine ⟨hwalked.2.1, fun b' hb' => ?_⟩
  have hstep : s.step k .boot = s.advanceBoot k := rfl
  rw [hstep] at hb' hcontrols ⊢
  unfold advanceBoot at hb' hcontrols ⊢
  rw [hb] at hb' hcontrols ⊢
  dsimp only at hb' hcontrols ⊢
  generalize b.advance k (s.manager, s.starts) = r at hb' hcontrols hwalked ⊢
  split at hb'
  · cases hb'
  · next hcomplete =>
    obtain rfl := Option.some.inj hb'
    rw [if_neg hcomplete] at hcontrols ⊢
    exact ⟨hwalked.1, hwalked.2.2, hcontrols⟩

theorem underway_of_booted {s : Supervisor} {log : List Logged} (hlaid : Laid plan)
    (hp : plan.Proper)
    (hplain : ∀ c ∈ plan.configs, c.deps.conflicts = [] ∧ c.socketActivate = none)
    (h : Booted plan s log) (hcalm : ∀ e ∈ log, e.Calm) (haddressed : ∀ e ∈ log, e.Addressed) :
    Safe plan log ∧ ∀ b, s.boot = some b → Underway plan log s b := by
  induction h with
  | init k cgroup =>
    refine ⟨fun before e after heq => by simp at heq, fun b hb => ?_⟩
    obtain rfl := Option.some.inj hb
    exact underway_init hp k cgroup hplain
  | @step s log k input h hb ih =>
    obtain ⟨hs, hunderway⟩ := ih (fun e he => hcalm e (List.mem_append_left _ he))
      fun e he => haddressed e (List.mem_append_left _ he)
    obtain ⟨b, hb'⟩ := Option.isSome_iff_exists.mp hb
    have hnow := hunderway b hb'
    by_cases hinput : input = .boot
    · subst hinput
      exact underway_boot k hlaid hb' hnow hs
    · have honward := onward_step k hnow.holds hs hb hnow.controls hinput
        (fun e he => hcalm e (List.mem_append_right _ he))
        fun e he => haddressed e (List.mem_append_right _ he)
      obtain ⟨hboot, hcontrols⟩ := rests_step k hb hnow.controls hinput
      refine ⟨honward.safe, fun b' hb'' => ?_⟩
      obtain rfl := Option.some.inj ((hb'.symm.trans hboot.symm).trans hb'')
      exact ⟨honward.holds, hnow.placed.onward honward, hcontrols⟩

/-- The log leaves nothing out : what has a process was spawned, and what is being started was
asked for. -/
theorem logged_of_booted {files : List UnitFile} {warnings : List String} {target : String}
    {s : Supervisor} (hplan : BootPlan.planBoot files warnings target = .ok plan)
    (hplain : ∀ c ∈ plan.configs, c.deps.conflicts = [] ∧ c.socketActivate = none)
    (h : Booted plan s log) (hcalm : ∀ e ∈ log, e.Calm) (haddressed : ∀ e ∈ log, e.Addressed)
    (hb : s.boot.isSome = true) :
    (∀ u rt, s.manager.get u = some rt → rt.pid.isSome = true → Spawned log u) ∧
      ∀ u, s.starts.flows.contains u = true → Asked log u := by
  obtain ⟨b, hb⟩ := Option.isSome_iff_exists.mp hb
  have hnow := (underway_of_booted (laid_of_planBoot hplan) (BootPlan.proper_of_planBoot hplan)
    hplain h hcalm haddressed).2 b hb
  refine ⟨fun u rt hrt hp => ?_, fun u hu => ?_⟩
  · by_contra hn
    exact (hnow.holds.units.tame u rt hrt).down hn (.inl hp)
  · rw [Std.ExtTreeMap.contains_eq_isSome_getElem?] at hu
    obtain ⟨f, hf⟩ := Option.isSome_iff_exists.mp hu
    exact (hnow.holds.flows.flow u f hf).2.1

/-- A run of a boot is safe, with nothing in conflict and nothing listening, as long as no breaker
trips in silence. -/
theorem safe_of_booted {files : List UnitFile} {warnings : List String} {target : String}
    {s : Supervisor} (hplan : BootPlan.planBoot files warnings target = .ok plan)
    (hplain : ∀ c ∈ plan.configs, c.deps.conflicts = [] ∧ c.socketActivate = none)
    (h : Booted plan s log) (hcalm : ∀ e ∈ log, e.Calm) (haddressed : ∀ e ∈ log, e.Addressed) :
    Safe plan log :=
  (underway_of_booted (laid_of_planBoot hplan) (BootPlan.proper_of_planBoot hplan) hplain h hcalm
    haddressed).1

/-! ### A chain that breaks behind a running service -/

/-- A boot with its log, each step with its time and the pid a fork gives. -/
def bootSteps : List (ℕ × Pid × Input) → Supervisor × List Logged → Supervisor × List Logged
  | [], s => s
  | (now, pid, input) :: rest, s =>
    if s.1.boot.isSome then
      bootSteps rest (s.1.step (.granting now pid) input, s.2 ++ s.1.log (.granting now pid) input)
    else s

theorem booted_bootSteps {s : Supervisor × List Logged} (h : Booted plan s.1 s.2)
    (l : List (ℕ × Pid × Input)) : Booted plan (bootSteps l s).1 (bootSteps l s).2 := by
  induction l generalizing s with
  | nil => exact h
  | cons i rest ih =>
    unfold bootSteps
    split
    · next hb => exact ih (.step (.granting i.1 i.2.1) i.2.2 h hb)
    · exact h

/-- A run of a boot without conflicts and sockets, in which no breaker trips in silence. -/
structure Plain (plan : BootPlan) (s : Supervisor) (log : List Logged) : Prop where
  configs : ∀ c ∈ plan.configs, c.deps.conflicts = [] ∧ c.socketActivate = none
  booted : Booted plan s log
  calm : ∀ e ∈ log, e.Calm
  addressed : ∀ e ∈ log, e.Addressed

/-- No unit would trip its breaker in silence, and a message comes from a notify unit. -/
def Logged.isPlain (e : Logged) : Bool :=
  (e.before.units.toList.all fun x => !x.2.tripsAfterStop e.kernel) &&
    match e.incident with
    | .notify unit _ => (e.before.get unit).all (·.config.serviceKind = .notify)
    | _ => true

theorem Logged.calm_of_isPlain (h : e.isPlain = true) : e.Calm := by
  intro pid outcome u _ _
  rw [Logged.isPlain, Bool.and_eq_true, List.all_eq_true] at h
  cases hrt : e.before.get u with
  | none => rfl
  | some rt =>
    simpa using h.1 (u, rt) (Std.ExtTreeMap.mem_toList_iff_getElem?_eq_some.mpr hrt)

theorem Logged.addressed_of_isPlain (h : e.isPlain = true) : e.Addressed := by
  intro u message rt he hrt
  rw [Logged.isPlain, Bool.and_eq_true, he] at h
  simpa [hrt] using h.2

/-- Something holds of the log of a boot, once it has been evaluated on the plan. -/
theorem exists_plain (files : List UnitFile) (target : String) {l : List (ℕ × Pid × Input)}
    {p : BootPlan → List Logged → Bool}
    (h : ((BootPlan.planBoot files [] target).toOption.any fun plan =>
      (plan.configs.all fun c => decide (c.deps.conflicts = [] ∧ c.socketActivate = none)) &&
        (bootSteps l (init (.granting 0 10) plan none, [])).2.all Logged.isPlain &&
        p plan (bootSteps l (init (.granting 0 10) plan none, [])).2) = true) :
    ∃ plan s log, BootPlan.planBoot files [] target = .ok plan ∧ Plain plan s log ∧
      p plan log = true := by
  obtain ⟨plan, hplan, h⟩ := (Option.any_eq_true _ _).mp h
  simp only [Bool.and_eq_true, List.all_eq_true, decide_eq_true_eq] at h
  obtain ⟨⟨hconfigs, hlog⟩, hp⟩ := h
  have hbooted := booted_bootSteps (s := (init (.granting 0 10) plan none, []))
    (.init (.granting 0 10) none) l
  exact ⟨plan, _, _, Runs.eq_ok_of_toOption hplan, ⟨hconfigs, hbooted,
    fun e he => Logged.calm_of_isPlain (hlog e he),
    fun e he => Logged.addressed_of_isPlain (hlog e he)⟩, hp⟩

/-- Three services, each of which requires the one before. -/
def brokenChain : List UnitFile :=
  [{ name := serviceA
     path := "/etc/rinit/a.service"
     contents := "[Service]\nExecStart=/bin/a\n" },
    { name := serviceB
      path := "/etc/rinit/b.service"
      contents := "[Unit]\nRequires=a.service\n[Service]\nType=notify\nExecStart=/bin/b\n" },
    { name := serviceC
      path := "/etc/rinit/c.service"
      contents := "[Unit]\nRequires=b.service\n[Service]\nExecStart=/bin/c\n" },
    { name := targetD
      path := "/etc/rinit/d.target"
      contents := "[Unit]\nRequires=c.service\n" }]

/-- The first service crashes while the second one is starting. -/
def chainBreaks : List (ℕ × Pid × Input) :=
  [(1, 10, .boot), (2, 10, .advance), (3, 11, .boot), (4, 11, .advance),
    (5, 12, .reap [(10, .failure 1)]), (6, 12, .notify serviceB ⟨true, none⟩), (7, 12, .boot),
    (8, 12, .advance)]

instance (e : Logged) (u : UnitName) : Decidable (e.Spawns u) :=
  inferInstanceAs (Decidable (_ ∧ _ ∧ _))

/-- The third service is asked for and spawned. -/
theorem safe_brokenChain : ∃ plan s log,
    BootPlan.planBoot brokenChain [] "d.target" = .ok plan ∧ Plain plan s log ∧
    Asked log serviceC ∧ Spawned log serviceC ∧ Safe plan log := by
  obtain ⟨plan, s, log, hplan, hplain, hp⟩ := exists_plain brokenChain "d.target"
    (l := chainBreaks) (p := fun _ log =>
      log.any (fun e => decide (e.incident = .ask serviceC)) &&
        log.any fun e => decide (e.Spawns serviceC)) (by decide +kernel)
  simp only [Bool.and_eq_true, List.any_eq_true, decide_eq_true_eq] at hp
  exact ⟨plan, s, log, hplan, hplain, hp.1, hp.2,
    safe_of_booted hplan hplain.configs hplain.booted hplain.calm hplain.addressed⟩

/-- A service that runs is not failed with what it requires, so the boot asks for the next one of
the chain, and spawns it, although the first one has failed. -/
theorem not_undoomed_brokenChain : ∃ plan s log,
    BootPlan.planBoot brokenChain [] "d.target" = .ok plan ∧ Plain plan s log ∧
    TransGen (RequiresUnit plan.configs) serviceC serviceA ∧
    (∃ e ∈ log, e.incident = .ask serviceC ∧ e.before.isFailed serviceA = true) ∧
    ∃ e ∈ log, e.Spawns serviceC ∧ e.before.isFailed serviceA = true := by
  obtain ⟨plan, s, log, hplan, hplain, hp⟩ := exists_plain brokenChain "d.target"
    (l := chainBreaks) (p := fun plan log =>
      decide (RequiresUnit plan.configs serviceC serviceB) &&
        decide (RequiresUnit plan.configs serviceB serviceA) &&
        (log.any fun e => decide (e.incident = .ask serviceC) && e.before.isFailed serviceA) &&
        log.any fun e => decide (e.Spawns serviceC) && e.before.isFailed serviceA)
    (by decide +kernel)
  simp only [Bool.and_eq_true, List.any_eq_true, decide_eq_true_eq] at hp
  obtain ⟨⟨⟨hcb, hba⟩, hask⟩, hspawn⟩ := hp
  exact ⟨plan, s, log, hplan, hplain, .tail (.single hcb) hba, hask, hspawn⟩

end Boot

end Rinit
