import Rinit.Levels

/-!
# The progress of a boot

A pass of the boot that finds no start in flight and no unit starting on its level leaves the
level (`passed_lt_advance`), and nothing else moves the boot. So in no run are there more such
passes than levels, but for the one that ends the boot (`idlePasses_le`). A start that is past its
deadline is over at its next turn (`advanceFlows_late`).

A boot that is over has settled all of its plan (`settled_of_complete`) : each of its units has
been ready, or has failed.
-/

namespace Rinit

namespace Boot

variable {k : Kernel} {plan : BootPlan} {m : UnitManager} {u v : UnitName} {b : Boot}
  {s : UnitManager × StartCoordinator}

/-! ## Passes that find nothing to wait for -/

/-- No start of the level is in flight, and none of its services is starting. -/
def idle (b : Boot) (s : UnitManager × StartCoordinator) : Bool :=
  b.pending.toList.all fun u =>
    !s.2.flows.contains u && (s.1.get u).all fun rt => rt.state ≠ .starting

/-- The levels that were begun. -/
def begun (b : Boot) : ℕ := if b.active then b.level + 1 else b.level

/-- A failure leaves no unit starting that was not. -/
theorem starting_of_failStart {root : UnitName} {rt' : UnitRuntime}
    (h : (m.failStart k root).1.get u = some rt') (hs : rt'.state = .starting) :
    ∃ rt, m.get u = some rt ∧ rt.state = .starting := by
  obtain ⟨rt, hrt, -⟩ := (UnitManager.touched_failStart k m root).get_some h
  rcases UnitManager.get_failStart k root hrt with ⟨-, h'⟩ | ⟨-, h' | ⟨-, -, h'⟩⟩
  · obtain rfl := Option.some.inj (h'.symm.trans h)
    have hf := UnitManager.failOwn_isFailed k m.cgroup u rt
    rw [hs] at hf
    cases hf
  · obtain rfl := Option.some.inj (h'.symm.trans h)
    exact ⟨_, hrt, hs⟩
  · obtain rfl := Option.some.inj (h'.symm.trans h)
    have hf := UnitManager.dragDown_isFailed rt
    rw [hs] at hf
    cases hf

/-- Nobody is starting among `units`. -/
def Rests (units : List UnitName) (m : UnitManager) : Prop :=
  ∀ u ∈ units, ∀ rt, m.get u = some rt → rt.state ≠ .starting

theorem Rests.failStart {units : List UnitName} (h : Rests units m) (k : Kernel)
    (root : UnitName) : Rests units (m.failStart k root).1 := by
  intro u hu rt' hrt' hs
  obtain ⟨rt, hrt, hs⟩ := starting_of_failStart hrt' hs
  exact h u hu rt hrt hs

/-- A service that nothing is in flight for is settled. -/
theorem settleService_of_rests {starts : StartCoordinator} {units : List UnitName}
    (hflow : starts.flows.contains u = false) (hu : u ∈ units) (h : Rests units m) :
    (settleService k plan starts m u).2 = true ∧
      Rests units (settleService k plan starts m u).1 := by
  unfold settleService
  rw [if_neg (by simp [hflow])]
  split
  · refine ⟨rfl, ?_⟩
    dsimp only
    split
    · exact h.failStart k u
    · exact h
  all_goals
    cases hrt : m.get u with
    | none => exact ⟨rfl, h.failStart k u⟩
    | some rt =>
      have hs := h u hu rt hrt
      rw [Option.map_some]
      cases hstate : rt.state with
      | starting => exact absurd hstate hs
      | active | activeExited | restartWait | deactivating => exact ⟨rfl, h⟩
      | inactive | failed => exact ⟨rfl, h.failStart k u⟩

theorem settlePending_of_rests {starts : StartCoordinator} {all : List UnitName} :
    ∀ {units : List UnitName} {m : UnitManager}, units ⊆ all →
      (∀ u ∈ units, starts.flows.contains u = false) → Rests all m →
        (settlePending k plan starts units m).2 = []
  | [], m, _, _, _ => rfl
  | unit :: rest, m, hsub, hflow, h => by
    obtain ⟨hdone, hrests⟩ :=
      settleService_of_rests (k := k) (hflow unit List.mem_cons_self) (hsub List.mem_cons_self) h
    have hrest := settlePending_of_rests (List.cons_subset.mp hsub).2
      (fun u hu => hflow u (List.mem_cons_of_mem _ hu)) hrests
    unfold settlePending
    dsimp only
    rw [if_pos hdone, hrest]

/-- A walk ends the boot, or stays on a level that it has begun. -/
theorem walk_cases (k : Kernel) : ∀ (rest : List (List UnitName)) (b : Boot)
    (s : UnitManager × StartCoordinator), b.complete = false →
    (walk k rest b s).1.plan = b.plan ∧
      ((walk k rest b s).1.complete = true ∧ (walk k rest b s).1.level = b.level + rest.length ∨
        (walk k rest b s).1.complete = false ∧ (walk k rest b s).1.active = true ∧
          b.level ≤ (walk k rest b s).1.level ∧
          (walk k rest b s).1.level < b.level + rest.length)
  | [], b, s, _ => ⟨rfl, .inl ⟨rfl, rfl⟩⟩
  | level :: rest, b, s, hb => by
    have hkeeps := beginLevel_keeps k b level s
    have hplan : (beginLevel k b level s).1.plan = b.plan ∧
        (beginLevel k b level s).1.complete = false := by
      unfold beginLevel
      split <;> exact ⟨rfl, hb⟩
    rw [walk]
    generalize beginLevel k b level s = r at hkeeps hplan
    obtain ⟨b', m, starts⟩ := r
    obtain ⟨hactive, hlevel⟩ := hkeeps
    dsimp only at hactive hlevel hplan ⊢
    generalize settlePending k b'.plan starts b'.pending.toList m = q
    obtain ⟨m', waiting⟩ := q
    rw [List.length_cons, ← hplan.1, ← hlevel]
    cases waiting with
    | nil =>
      obtain ⟨hp, h⟩ := walk_cases k rest
        { b' with pending := ∅, level := b'.level + 1, active := false }
        (settleTargets k b'.targets m', starts) hplan.2
      dsimp only at hp h ⊢
      exact ⟨hp, h.imp (.imp id fun h => by omega)
        (.imp id (.imp id (.imp (by omega) (by omega))))⟩
    | cons u us =>
      exact ⟨rfl, .inr ⟨hplan.2, hactive, Nat.le_refl _, by dsimp only; omega⟩⟩

/-- An idle pass ends the boot or begins another level. -/
theorem begun_lt_walk {rest : List (List UnitName)} (hb : b.complete = false)
    (hidle : b.idle s = true) (h : (walk k rest b s).1.complete = false) :
    b.begun < (walk k rest b s).1.begun := by
  obtain ⟨-, hdone | ⟨-, hactive, hle, hlt⟩⟩ := walk_cases k rest b s hb
  · cases h.symm.trans hdone.1
  · unfold begun
    rw [if_pos hactive]
    by_cases hb' : b.active = true
    · rw [if_pos hb']
      cases rest with
      | nil => exact absurd hlt (by simp; omega)
      | cons level rest =>
        -- the level is not begun again, and it is left
        have hsettled : (settlePending k b.plan s.2 b.pending.toList s.1).2 = [] := by
          have hall := List.all_eq_true.mp hidle
          refine settlePending_of_rests (List.Subset.refl _) (fun u hu => ?_)
            fun u hu rt hrt hs => ?_
          · have h := hall u hu
            simp only [Bool.and_eq_true, Bool.not_eq_true'] at h
            exact h.1
          · have h := hall u hu
            simp [hrt, hs] at h
        have hsame : beginLevel k b level s = (b, s) := if_pos hb'
        rw [walk, hsame] at h ⊢
        obtain ⟨m, starts⟩ := s
        dsimp only at h hsettled ⊢
        generalize settlePending k b.plan starts b.pending.toList m = q at h hsettled ⊢
        obtain ⟨m', waiting⟩ := q
        obtain rfl : waiting = [] := hsettled
        obtain ⟨-, hdone | ⟨-, -, hle, -⟩⟩ := walk_cases k rest
          { b with pending := ∅, level := b.level + 1, active := false }
          (settleTargets k b.targets m', starts) hb
        · cases h.symm.trans hdone.1
        · dsimp only at hle ⊢
          omega
    · rw [if_neg hb']
      omega

end Boot

open Boot Supervisor

/-! ## Runs -/

namespace Supervisor

/-- The boot would find nothing to wait for on its level. -/
def idle (s : Supervisor) : Bool := s.boot.any fun b => b.idle (s.manager, s.starts)

/-- A pass of the boot that finds nothing to wait for. -/
def isIdlePass (s : Supervisor) : Input → Bool
  | .boot => s.idle
  | _ => false

/-- How many passes of the boot find nothing to wait for, until it is over. -/
def idlePasses : List (Kernel × Input) → Supervisor → ℕ
  | [], _ => 0
  | (k, input) :: rest, s =>
    if s.boot.isNone then 0
    else (if s.isIdlePass input then 1 else 0) + idlePasses rest (s.step k input)

/-- A boot stands on a level of its plan. -/
structure Walks (plan : BootPlan) (s : Supervisor) (b : Boot) : Prop where
  boot : s.boot = some b
  follows : b.plan = plan
  incomplete : b.complete = false
  level : b.begun ≤ plan.levels.length
  controls : s.starts.controls = []

variable {plan : BootPlan} {k : Kernel} {s : Supervisor} {b : Boot} {input : Input}

theorem walks_init (k : Kernel) (plan : BootPlan) (cgroup : Cgroup) :
    Walks plan (init k plan cgroup) { plan := plan } :=
  ⟨rfl, rfl, rfl, Nat.zero_le _, rfl⟩

/-- A pass of the boot ends it, or leaves it where it is, or further on. -/
theorem Walks.pass (h : Walks plan s b) (k : Kernel) :
    (s.step k .boot).boot = none ∨ ∃ b', Walks plan (s.step k .boot) b' ∧ b.begun ≤ b'.begun ∧
      (s.idle = true → b.begun < b'.begun) := by
  have hcontrols := (controls_advanceBoot k s).trans h.controls
  have hwalk : b.advance k (s.manager, s.starts) =
      walk k (b.plan.levels.drop b.level) b (s.manager, s.starts) := by
    rw [Boot.advance, if_neg (by simp [h.incomplete])]
  have hcases := walk_cases k (b.plan.levels.drop b.level) b (s.manager, s.starts) h.incomplete
  have hidle : s.idle = true → (b.advance k (s.manager, s.starts)).1.complete = false →
      b.begun < (b.advance k (s.manager, s.starts)).1.begun := by
    intro hs hincomplete
    rw [hwalk] at hincomplete ⊢
    refine begun_lt_walk h.incomplete ?_ hincomplete
    simpa [idle, h.boot] using hs
  have hlevel := h.level
  rw [← hwalk, List.length_drop, h.follows] at hcases
  change (s.advanceBoot k).boot = none ∨ ∃ b', Walks plan (s.advanceBoot k) b' ∧ _
  unfold advanceBoot at hcontrols ⊢
  rw [h.boot] at hcontrols ⊢
  dsimp only at hcontrols ⊢
  generalize b.advance k (s.manager, s.starts) = r at hcases hidle hcontrols ⊢
  obtain ⟨b', m, starts⟩ := r
  dsimp only at hcases hidle hcontrols ⊢
  split
  · exact .inl rfl
  · next hincomplete =>
    have hincomplete : b'.complete = false := by simpa using hincomplete
    rw [if_neg (by simp [hincomplete])] at hcontrols
    obtain ⟨hplan, hdone | ⟨-, hactive, hle, hlt⟩⟩ := hcases
    · cases hincomplete.symm.trans hdone.1
    · have hbegun : b'.begun = b'.level + 1 := if_pos hactive
      have hold : b.begun ≤ b.level + 1 := by
        unfold begun
        split <;> omega
      refine .inr ⟨b', ⟨rfl, hplan, hincomplete, ?_, hcontrols⟩, by omega,
        fun hs => hidle hs hincomplete⟩
      omega

/-- Nothing but the boot moves the boot. -/
theorem Walks.rests (h : Walks plan s b) (k : Kernel) (hinput : input ≠ .boot) :
    Walks plan (s.step k input) b := by
  obtain ⟨hboot, hcontrols⟩ := rests_step k (by rw [h.boot]; rfl) h.controls hinput
  exact ⟨hboot.trans h.boot, h.follows, h.incomplete, h.level, hcontrols⟩

theorem Walks.bounded_idlePasses (h : Walks plan s b) (steps : List (Kernel × Input)) :
    idlePasses steps s + b.begun ≤ plan.levels.length + 1 := by
  induction steps generalizing s b with
  | nil =>
    have hlevel := h.level
    simp only [idlePasses]
    omega
  | cons x rest ih =>
    obtain ⟨k, input⟩ := x
    rw [idlePasses, if_neg (by simp [h.boot])]
    by_cases hinput : input = .boot
    · subst hinput
      change (if s.idle = true then 1 else 0) + _ + _ ≤ _
      rcases h.pass k with hnone | ⟨b', hwalks, hle, hlt⟩
      · have hover : idlePasses rest (s.step k .boot) = 0 := by
          cases rest with
          | nil => rfl
          | cons x rest => rw [idlePasses, if_pos (by simp [hnone])]
        have hlevel := h.level
        rw [hover]
        split <;> omega
      · have hrest := ih hwalks
        split
        · next hs =>
          have hlt := hlt hs
          omega
        · omega
    · have hrest := ih (h.rests k hinput)
      have hpass : s.isIdlePass input = false := by
        cases input with
        | boot => exact absurd rfl hinput
        | _ => rfl
      rw [hpass]
      simpa using hrest

theorem walks_of_booted {log : List Logged} (h : Booted plan s log) :
    ∀ b, s.boot = some b → Walks plan s b := by
  induction h with
  | init k cgroup =>
    intro b hb
    obtain rfl := Option.some.inj hb
    exact walks_init k plan cgroup
  | @step s log k input _ hb ih =>
    obtain ⟨b₀, hb₀⟩ := Option.isSome_iff_exists.mp hb
    have hwalks := ih b₀ hb₀
    intro b hb
    by_cases hinput : input = .boot
    · subst hinput
      obtain hnone | ⟨b', hwalks', -⟩ := hwalks.pass k
      · cases hnone.symm.trans hb
      · obtain rfl := Option.some.inj (hwalks'.boot.symm.trans hb)
        exact hwalks'
    · have hrests := hwalks.rests k hinput
      obtain rfl := Option.some.inj (hrests.boot.symm.trans hb)
      exact hrests

/-- A boot does not hang. In no run are there more passes of the boot that find nothing to wait
for than levels, but for the last one. -/
theorem idlePasses_le (k : Kernel) (plan : BootPlan) (cgroup : Cgroup)
    (steps : List (Kernel × Input)) :
    idlePasses steps (init k plan cgroup) ≤ plan.levels.length + 1 :=
  (walks_init k plan cgroup).bounded_idlePasses steps

end Supervisor

/-! ## What a boot waits for -/

namespace StartFlow

/-- A start that is past its deadline is over at its next turn. -/
theorem done_of_late {k : Kernel} {t : Turn} (h : t.flow.deadline ≤ k.now) :
    (advance k t).done.isSome = true := by
  unfold advance
  dsimp only
  split
  · rfl
  · split
    · rfl
    · split
      · rfl
      · split
        · rfl
        · next hstage =>
          have hsockets : t.flow.stage.isSockets = true := by simpa [h] using hstage
          cases hst : t.flow.stage with
          | sockets paths =>
            change (runSockets k paths (waitIn t .done)).done.isSome = true
            unfold runSockets
            split
            · rw [if_neg (show ¬k.now < (waitIn t .done).flow.deadline from Nat.not_lt.mpr h)]
              rfl
            · rw [if_pos (show (waitIn t .done).flow.deadline ≤ k.now from h)]
              rfl
          | conflicts | pre | spawn | spawnWait | waitReady | post | done =>
            rw [hst] at hsockets
            cases hsockets

end StartFlow

namespace StartCoordinator

variable {k : Kernel} {s : UnitManager × StartCoordinator} {u v : UnitName}

/-- Every start of `flows` is past its deadline. -/
def Late (k : Kernel) (flows : Flows) : Prop :=
  ∀ (u : UnitName) (f : StartFlow), flows[u]? = some f → f.deadline ≤ k.now

theorem flows_advanceFlow_late (h : ∀ f : StartFlow, s.2.flows[u]? = some f → f.deadline ≤ k.now) :
    (advanceFlow k s u).2.flows[v]? = if u = v then none else s.2.flows[v]? := by
  unfold advanceFlow
  cases hf : s.2.flows[u]? with
  | none =>
    dsimp only
    by_cases heq : u = v
    · rw [if_pos heq, ← heq, hf]
    · rw [if_neg heq]
  | some f =>
    have hdone := StartFlow.done_of_late (k := k)
      (t := ⟨f, s.1, s.2.auxExits, none⟩) (h f hf)
    dsimp only
    generalize StartFlow.advance k { flow := f, manager := s.1, aux := s.2.auxExits } = t at hdone ⊢
    obtain ⟨_, -, hflows⟩ := removeFlow_eq k
      { s.2 with flows := s.2.flows.insert u t.flow, auxExits := t.aux } t.manager u
    rw [if_pos hdone, hflows, Std.ExtTreeMap.getElem?_erase, Std.ExtTreeMap.getElem?_insert]
    by_cases heq : u = v <;> simp [heq]

/-- Once they are past their deadlines no start is left in flight. -/
theorem flows_advance_late {c : StartCoordinator} {m : UnitManager} (hcontrols : c.controls = [])
    (h : Late k c.flows) :
    (c.advance k m).2.1.flows[v]? = none := by
  have hall : ∀ v, (c.flows.keys.foldl (advanceFlow k) (m, c)).2.flows[v]? =
      if v ∈ c.flows.keys then none else c.flows[v]? := by
    refine Runs.foldl_induction (P := fun done (t : UnitManager × StartCoordinator) =>
      ∀ v, t.2.flows[v]? = if v ∈ done then none else c.flows[v]?) (fun v => by simp)
      fun done u rest t _ ht v => ?_
    rw [flows_advanceFlow_late fun f hf => ?_, ht v]
    · by_cases heq : u = v
      · simp [heq]
      · simp [heq, Ne.symm heq]
    · rw [ht u] at hf
      split at hf
      · cases hf
      · exact h u f hf
  unfold advance
  dsimp only
  rw [controls_advanceFlows, hcontrols]
  change (c.flows.keys.foldl (advanceFlow k) (m, c)).2.flows[v]? = none
  rw [hall]
  split
  · rfl
  · next hmem =>
    rw [Std.ExtTreeMap.mem_keys] at hmem
    exact Std.ExtTreeMap.getElem?_eq_none hmem

end StartCoordinator

/-- A boot waits for a start until its deadline, and then only for a service that is starting :
with none the next pass of the boot is idle. -/
theorem isIdlePass_of_late {plan : BootPlan} {k : Kernel} {s : Supervisor} {b : Boot}
    (h : Walks plan s b) (hlate : StartCoordinator.Late k s.starts.flows)
    (hrests : ∀ u ∈ b.pending, ∀ rt, (s.step k .advance).manager.get u = some rt →
      rt.state ≠ .starting) : (s.step k .advance).isIdlePass .boot = true := by
  change (s.step k .advance).boot.any _ = true
  rw [(h.rests k (by nofun) : Walks plan (s.step k .advance) b).boot, Option.any_some]
  refine List.all_eq_true.mpr fun u hu => ?_
  have hflow : (s.step k .advance).starts.flows.contains u = false := by
    rw [Std.ExtTreeMap.contains_eq_isSome_getElem?]
    exact congrArg Option.isSome (StartCoordinator.flows_advance_late h.controls hlate)
  rw [hflow, Bool.not_false, Bool.true_and, Option.all_eq_true]
  intro rt hrt
  simpa using hrests u (Std.ExtTreeSet.mem_toList.mp hu) rt hrt

/-- The first service of a chain has been asked for and does not come up; an hour later the boot
goes on without it. -/
theorem isIdlePass_brokenChain : ∃ plan s log, Booted plan s log ∧ s.boot.isSome = true ∧
    (s.step (.granting 3600000 10) .advance).isIdlePass .boot = true := by
  have hstate : ((BootPlan.planBoot brokenChain [] "d.target").toOption.any fun plan =>
      let s := (bootSteps [(1, 10, .boot)] (init (.granting 0 10) plan none, [])).1
      s.boot.any fun b => (s.starts.flows.toList.all fun e => decide (e.2.deadline ≤ 3600000)) &&
        b.pending.toList.all fun u =>
          ((s.step (.granting 3600000 10) .advance).manager.get u).all fun rt =>
            rt.state ≠ .starting) = true := by
    decide +kernel
  obtain ⟨plan, hplan, h⟩ := (Option.any_eq_true _ _).mp hstate
  obtain ⟨b, hb, h⟩ := (Option.any_eq_true _ _).mp h
  simp only [Bool.and_eq_true, List.all_eq_true] at h
  have hbooted := booted_bootSteps (s := (init (.granting 0 10) plan none, []))
    (.init (.granting 0 10) none) [(1, 10, .boot)]
  refine ⟨plan, _, _, hbooted, by rw [hb]; rfl, isIdlePass_of_late (walks_of_booted hbooted b hb)
    (fun u f hf => ?_) fun u hu rt hrt => ?_⟩
  · exact of_decide_eq_true (h.1 (u, f) (Std.ExtTreeMap.mem_toList_iff_getElem?_eq_some.mpr hf))
  · simpa [hrt] using h.2 u (Std.ExtTreeSet.mem_toList.mpr hu)

/-! ## A boot that is over -/

namespace Boot

variable {plan : BootPlan} {s : Supervisor} {log : List Logged}

/-- A boot that is over has settled all of its plan : each of its services has been at its
readiness point, each of its targets is reached, unless it has failed. -/
theorem settled_of_complete {files : List UnitFile} {warnings : List String} {target : String}
    (hplan : BootPlan.planBoot files warnings target = .ok plan)
    (hplain : ∀ c ∈ plan.configs, c.deps.conflicts = [] ∧ c.socketActivate = none)
    (h : Booted plan s log) (hcalm : ∀ e ∈ log, e.Calm) (haddressed : ∀ e ∈ log, e.Addressed)
    (hover : s.boot = none) : ∀ u ∈ plan.levels.flatten, Settled plan log s.manager u := by
  have hlaid := laid_of_planBoot hplan
  cases h with
  | init => cases hover
  | @step s log k input h hb =>
    obtain ⟨hsafe, hunderway⟩ := underway_of_booted hlaid (BootPlan.proper_of_planBoot hplan)
      hplain h (fun e he => hcalm e (List.mem_append_left _ he))
      fun e he => haddressed e (List.mem_append_left _ he)
    obtain ⟨b, hb'⟩ := Option.isSome_iff_exists.mp hb
    have hnow := hunderway b hb'
    by_cases hinput : input = .boot
    · subst hinput
      have hincomplete := (walks_of_booted h b hb').incomplete
      have hcases := walk_cases k (plan.levels.drop b.level) b (s.manager, s.starts) hincomplete
      obtain ⟨-, -, hplaced⟩ := onward_walk k hlaid (plan.levels.drop b.level)
        (s := (s.manager, s.starts)) hnow.holds hsafe hnow.placed rfl
      have hlog : s.log k .boot =
          walkLog k (plan.levels.drop b.level) b (s.manager, s.starts) := by
        simp [Supervisor.log, hb', Boot.log, hincomplete, hnow.placed.follows]
      have hadvance : b.advance k (s.manager, s.starts) =
          walk k (plan.levels.drop b.level) b (s.manager, s.starts) := by
        rw [Boot.advance, if_neg (by simp [hincomplete]), hnow.placed.follows]
      rw [hlog]
      change (s.advanceBoot k).boot = none at hover
      change ∀ u ∈ plan.levels.flatten, Settled plan _ (s.advanceBoot k).manager u
      unfold advanceBoot at hover ⊢
      rw [hb'] at hover ⊢
      dsimp only at hover ⊢
      rw [hadvance] at hover ⊢
      generalize walk k (plan.levels.drop b.level) b (s.manager, s.starts) = r
        at hcases hplaced hover ⊢
      obtain ⟨b', m, starts⟩ := r
      dsimp only at hcases hplaced hover ⊢
      split at hover
      · next hcomplete =>
        rw [if_pos hcomplete]
        -- the last level was left, so all of them are behind
        obtain ⟨-, ⟨-, hlevel⟩ | ⟨hnot, -⟩⟩ := hcases
        · intro u hu
          refine hplaced.settled u ?_
          have hlength : plan.levels.length ≤ b'.level := by
            rw [hlevel, List.length_drop]
            omega
          rwa [past, List.take_of_length_le hlength]
        · cases hnot.symm.trans hcomplete
      · cases hover
    · have hrests := (rests_step k hb hnow.controls hinput).1
      rw [hrests, hb'] at hover
      cases hover

/-- The chain that breaks is booted to its end. -/
theorem settled_brokenChain : ∃ plan s log,
    BootPlan.planBoot brokenChain [] "d.target" = .ok plan ∧ Plain plan s log ∧ s.boot = none ∧
      ∀ u ∈ plan.levels.flatten, Settled plan log s.manager u := by
  let steps := chainBreaks ++ [(9, 13, .boot)]
  have hrun : ((BootPlan.planBoot brokenChain [] "d.target").toOption.any fun plan =>
      (plan.configs.all fun c => decide (c.deps.conflicts = [] ∧ c.socketActivate = none)) &&
        (bootSteps steps (init (.granting 0 10) plan none, [])).2.all Logged.isPlain &&
        (bootSteps steps (init (.granting 0 10) plan none, [])).1.boot.isNone) = true := by
    decide +kernel
  obtain ⟨plan, hplan, h⟩ := (Option.any_eq_true _ _).mp hrun
  simp only [Bool.and_eq_true, List.all_eq_true, decide_eq_true_eq, Option.isNone_iff_eq_none] at h
  obtain ⟨⟨hconfigs, hlog⟩, hover⟩ := h
  have hplan := Runs.eq_ok_of_toOption hplan
  have hplain : Plain plan _ _ := ⟨hconfigs,
    booted_bootSteps (s := (init (.granting 0 10) plan none, [])) (.init (.granting 0 10) none) steps,
    fun e he => Logged.calm_of_isPlain (hlog e he),
    fun e he => Logged.addressed_of_isPlain (hlog e he)⟩
  exact ⟨plan, _, _, hplan, hplain, hover, settled_of_complete hplan hplain.configs hplain.booted
    hplain.calm hplain.addressed hover⟩

end Boot

end Rinit
