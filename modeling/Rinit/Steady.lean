import Rinit.Life
import Rinit.Reload
import Rinit.Retry
import Rinit.Supervise

/-!
# Failed units stay failed

A failed unit has no process, and only a handful of operations take it out of its failure :
a stop or a spawn of the unit itself, a cleared failure, an instance made in its place, a
pruned tombstone (`failed_apply`). `Steady P` says that what happened is a run of the
manager's operations and that it left every failed unit of `P` as it was; every part of the
start flows, of the control requests and of the loop is steady for the units it is not asked
to touch.
-/

namespace Rinit

open Relation

/-! ## Operations that leave a failure alone -/

/-- The operation does not take `u` out of a failure. -/
def Spares (u : UnitName) : Op → Prop
  | .requestStop v _ | .stopUnit v | .resetFailed v | .beginSpawnUnit v | .instantiate v => v ≠ u
  | .pruneRetired => False
  | _ => True

theorem needsStop_of_isFailed {rt : UnitRuntime} (hf : rt.state.isFailed = true)
    (hp : rt.pid = none) : UnitManager.needsStop rt = false := by
  obtain ⟨reason, hst⟩ := UnitState.isFailed_iff.mp hf
  simp [UnitManager.needsStop, hst, hp]

theorem failed_move {k : Kernel} {m : UnitManager} {u : UnitName} {op : Op} {rt rt' : UnitRuntime}
    (hop : Spares u op) (h : Move k m u op rt rt') (hf : rt.state.isFailed = true)
    (hp : rt.pid = none) : rt'.state = rt.state ∧ rt'.pid = none := by
  have hn := needsStop_of_isFailed hf hp
  cases h with
  | quiet hs hp' => exact ⟨hs, hp'.trans hp⟩
  | settled hop' =>
    rcases hop' with ⟨source, rfl⟩ | ⟨-, hns⟩
    · exact absurd rfl hop
    · simp [hn] at hns
  | stopped hop' =>
    rcases hop' with rfl | ⟨-, hnf⟩ | ⟨-, hns⟩
    · exact absurd rfl hop
    · simp [hf] at hnf
    · simp [hn] at hns
  | flagged _ hd => simp [hd, UnitState.isFailed] at hf
  | cleared hop' => exact absurd rfl (hop' ▸ hop : Spares u (.resetFailed u))
  | failed _ hnf | dragged _ _ _ _ hnf | reached _ hnf => simp [hf] at hnf
  | noProcess hop' | spawned hop' => exact absurd rfl (hop' ▸ hop : Spares u (.beginSpawnUnit u))
  | ready hs | daemon _ hs | killed _ hs => simp [hs, UnitState.isFailed] at hf
  | unhealthy _ _ hpid => simp [hp] at hpid
  | exited _ hpid | waiting _ hpid => simp [hp] at hpid

/-- A failed unit stays as it is. -/
theorem failed_apply {k : Kernel} {m : UnitManager} {u : UnitName} {op : Op} {rt : UnitRuntime}
    (hm : Reachable m) (hop : Spares u op) (hrt : m.get u = some rt)
    (hf : rt.state.isFailed = true) :
    ∃ rt', (m.apply k op).get u = some rt' ∧ rt'.state = rt.state := by
  rcases UnitManager.apply_cases k m op with ⟨w, config, hmk, hget⟩ | rfl | ht
  · refine ⟨rt, (hget u).trans ((if_neg ?_).trans hrt), rfl⟩
    rintro rfl
    cases hmk with
    | add _ _ hn | requestStart _ _ hn | requestStop _ _ hn => cases hn.symm.trans hrt
    | instantiate => exact hop rfl
  · exact hop.elim
  · obtain ⟨rt', hrt', hr⟩ := ht.get_of_some hrt
    have hkept : rt'.state = rt.state ∧ rt'.pid = none := by
      clear hrt'
      induction hr with
      | refl => exact ⟨rfl, hm.failedIdle hrt hf⟩
      | tail _ hstep ih =>
        obtain ⟨hs, hp⟩ := failed_move hop (move_of_touch hstep) (ih.1 ▸ hf) ih.2
        exact ⟨hs.trans ih.1, hp⟩
    exact ⟨rt', hrt', hkept.1⟩

/-! ## Runs that leave failures alone -/

/-- A run of the manager's operations that leaves the failed units of `P` as they were. -/
structure Steady (P : UnitName → Prop) (m m' : UnitManager) : Prop where
  reachable : Reachable m → Reachable m'
  failed : Reachable m → ∀ u rt, P u → m.get u = some rt → rt.state.isFailed = true →
    ∃ rt', m'.get u = some rt' ∧ rt'.state = rt.state

/-- Every failed unit is left as it was. -/
abbrev SteadyAll : UnitManager → UnitManager → Prop := Steady fun _ => True

namespace Steady

variable {P Q : UnitName → Prop} {k : Kernel} {m m' m'' : UnitManager} {u : UnitName}

theorem refl (m : UnitManager) : Steady P m m := ⟨id, fun _ _ rt _ h _ => ⟨rt, h, rfl⟩⟩

theorem trans (h : Steady P m m') (h' : Steady P m' m'') : Steady P m m'' := by
  refine ⟨h'.reachable ∘ h.reachable, fun hm u rt hu hrt hf => ?_⟩
  obtain ⟨rt1, hrt1, hs1⟩ := h.failed hm u rt hu hrt hf
  obtain ⟨rt2, hrt2, hs2⟩ := h'.failed (h.reachable hm) u rt1 hu hrt1 (hs1 ▸ hf)
  exact ⟨rt2, hrt2, hs2.trans hs1⟩

theorem mono (h : Steady P m m') (hQ : ∀ u, Q u → P u) : Steady Q m m' :=
  ⟨h.reachable, fun hm u rt hu => h.failed hm u rt (hQ u hu)⟩

theorem of_all (h : SteadyAll m m') : Steady P m m' := h.mono fun _ _ => trivial

theorem apply (k : Kernel) (m : UnitManager) (op : Op) (hp : op.Promised)
    (hs : ∀ u, P u → Spares u op) : Steady P m (m.apply k op) :=
  ⟨fun hm => .step k op hm hp, fun hm u _ hu hrt hf => failed_apply hm (hs u hu) hrt hf⟩

/-- The unit that a run may touch is left alone too, if it is failed. -/
theorem of_ne (h : Steady (· ≠ u) m m') (hu : m.isFailed u = true → SteadyAll m m') :
    SteadyAll m m' := by
  refine ⟨h.reachable, fun hm v rt _ hrt hf => ?_⟩
  by_cases huv : v = u
  · subst huv
    exact (hu (by simp [UnitManager.isFailed, hrt, hf])).failed hm v rt trivial hrt hf
  · exact h.failed hm v rt huv hrt hf

theorem foldl {σ α : Type*} (π : σ → UnitManager) {f : σ → α → σ} {l : List α}
    (hf : ∀ s, ∀ a ∈ l, Steady P (π s) (π (f s a))) (s : σ) :
    Steady P (π s) (π (l.foldl f s)) := by
  induction l generalizing s with
  | nil => exact refl (π s)
  | cons a l ih =>
    have hhead := hf s a List.mem_cons_self
    exact hhead.trans (ih (fun s b hb => hf s b (List.mem_cons_of_mem _ hb)) (f s a))

theorem note (m : UnitManager) (calls : List Call) :
    Steady P m { m with calls := m.calls ++ calls } :=
  apply (.granting 0 0) m (.note calls) trivial fun _ _ => trivial

theorem failStart (k : Kernel) (m : UnitManager) (u : UnitName) :
    Steady P m (m.failStart k u).1 :=
  apply k m (.failStart u) trivial fun _ _ => trivial

theorem startOrder (m : UnitManager) (u : UnitName) : Steady P m (m.startOrder u).1 :=
  apply (.granting 0 0) m (.startOrder u) trivial fun _ _ => trivial

end Steady

/-! ## Start flows -/

namespace StartFlow

variable {P : UnitName → Prop} {k : Kernel} {t : Turn}

/-- The turn once calls were made. -/
def noted (t : Turn) (calls : List Call) : Turn :=
  { t with manager := { t.manager with calls := t.manager.calls ++ calls } }

theorem steady_fail (k : Kernel) (t : Turn) (reason : String) :
    Steady P t.manager (fail k t reason).manager :=
  .failStart k t.manager t.flow.unit

theorem steady_spawnAux (k : Kernel) (m : UnitManager) (u : UnitName) (cmd : ExecCommand) :
    Steady P m (spawnAux k m u cmd).1 := by
  unfold spawnAux
  split
  · exact .refl m
  · dsimp only
    split <;> exact .note m _

theorem steady_runPost (k : Kernel) (commands rest : List ExecCommand) (next : ℕ) (t : Turn) :
    Steady P t.manager (runPost k commands rest next t).manager := by
  induction rest generalizing next t with
  | nil => exact .refl _
  | cons cmd rest ih =>
    have haux : Steady P t.manager (spawnAux k t.manager t.flow.unit cmd).1 :=
      steady_spawnAux k t.manager t.flow.unit cmd
    unfold runPost
    generalize spawnAux k t.manager t.flow.unit cmd = r at haux
    obtain ⟨m, e | ⟨pid, secs⟩⟩ := r
    · exact haux.trans (ih _ { t with manager := m })
    · exact haux

theorem steady_waitPost (k : Kernel) (commands : List ExecCommand) (next : ℕ)
    (running : Option AuxRun) (t : Turn) :
    Steady P t.manager (waitPost k commands next running t).manager := by
  unfold waitPost
  split
  · exact steady_runPost ..
  · next run =>
    split
    · exact steady_runPost k commands (commands.drop (next + 1)) (next + 1)
        { t with aux := t.aux.erase run.pid }
    · split
      · exact (Steady.note t.manager (k.killProcessGroup run.pid sigKill).calls).trans
          (steady_runPost k commands (commands.drop (next + 1)) (next + 1)
            (noted t (k.killProcessGroup run.pid sigKill).calls))
      · exact .refl _

theorem steady_waitReady (k : Kernel) (t : Turn) :
    Steady P t.manager (waitReady k t).manager := by
  unfold waitReady
  split
  · exact .refl _
  · split
    · exact steady_runPost ..
    · exact steady_runPost ..
    · split
      · exact steady_fail ..
      · exact .refl _
    all_goals exact .refl _

theorem steady_afterSpawn (k : Kernel) (t : Turn) :
    Steady P t.manager (afterSpawn k t).manager := by
  let t' : Turn := { t with
    flow := { t.flow with spawned := true }
    manager := t.manager.capStartDeadline t.flow.unit t.flow.deadline }
  have hcap : Steady P t.manager t'.manager :=
    .apply k t.manager (.capStartDeadline t.flow.unit t.flow.deadline) trivial fun _ _ => trivial
  unfold afterSpawn
  dsimp only
  split
  · exact hcap.trans (steady_waitReady k t')
  · exact hcap.trans (steady_runPost k (postCommands t') (postCommands t') 0 t')

theorem steady_waitSpawn (k : Kernel) (t : Turn) :
    Steady P t.manager (waitSpawn k t).manager := by
  unfold waitSpawn
  split
  · exact steady_afterSpawn k t
  · exact steady_fail ..
  · exact .refl _
  · exact steady_fail ..

theorem steady_beginSpawn (k : Kernel) (m : UnitManager) (u : UnitName) :
    Steady (· ≠ u) m (beginSpawn k m u).1 := by
  have hspawn : Steady (· ≠ u) m (m.beginSpawnUnit k u).1 :=
    .apply k m (.beginSpawnUnit u) trivial fun _ hv => hv.symm
  unfold beginSpawn
  split
  · split
    · exact .refl m
    · exact hspawn
  · exact hspawn

theorem steady_runSpawn (k : Kernel) (t : Turn) :
    Steady (· ≠ t.flow.unit) t.manager (runSpawn k t).manager := by
  have hspawn := steady_beginSpawn k t.manager t.flow.unit
  unfold runSpawn
  generalize beginSpawn k t.manager t.flow.unit = r at hspawn
  obtain ⟨m, e | b⟩ := r
  · exact hspawn.trans (steady_fail k { t with manager := m } _)
  · cases b with
    | spawn pending =>
      cases pending with
      | true => exact hspawn
      | false => exact hspawn.trans (steady_afterSpawn k { t with manager := m })
    | noProcess | alreadyRunning =>
      exact hspawn.trans (steady_runPost k [] [] 0
        { t with manager := m, flow := { t.flow with spawned := false } })

theorem steady_runPre (k : Kernel) (commands : List ExecCommand) (next : ℕ) (t : Turn) :
    Steady (· ≠ t.flow.unit) t.manager (runPre k commands next t).manager := by
  unfold runPre
  split
  · exact steady_runSpawn k t
  · next cmd _ =>
    have haux : Steady (· ≠ t.flow.unit) t.manager (spawnAux k t.manager t.flow.unit cmd).1 :=
      steady_spawnAux k t.manager t.flow.unit cmd
    generalize spawnAux k t.manager t.flow.unit cmd = r at haux
    obtain ⟨m, e | ⟨pid, secs⟩⟩ := r
    · exact haux.trans (steady_fail k { t with manager := m } e)
    · exact haux

theorem steady_waitPre (k : Kernel) (commands : List ExecCommand) (next : ℕ)
    (running : Option AuxRun) (t : Turn) :
    Steady (· ≠ t.flow.unit) t.manager (waitPre k commands next running t).manager := by
  unfold waitPre
  split
  · exact steady_runPre ..
  · next run =>
    dsimp only
    split
    · exact steady_runPre k commands (next + 1) { t with aux := t.aux.erase run.pid }
    · next outcome _ _ => exact steady_fail k { t with aux := t.aux.erase run.pid } _
    · split
      · exact (Steady.note t.manager (k.killProcessGroup run.pid sigKill).calls).trans
          (steady_fail k (noted t (k.killProcessGroup run.pid sigKill).calls) _)
      · exact .refl _

theorem steady_waitConflicts (k : Kernel) (waits : List ConflictWait) (t : Turn) :
    Steady (· ≠ t.flow.unit) t.manager (waitConflicts k waits t).manager := by
  let calls := (waits.map (pollConflict k t.flow.deadline t.manager)).flatMap Traced.calls
  unfold waitConflicts
  dsimp only
  split
  · exact .note t.manager calls
  · exact (Steady.note t.manager calls).trans (steady_runPre k _ 0 (noted t calls))

theorem steady_runConflicts (k : Kernel) (waits : Option (List ConflictWait)) (t : Turn) :
    Steady (· ≠ t.flow.unit) t.manager (runConflicts k waits t).manager := by
  unfold runConflicts
  split
  · exact steady_waitConflicts ..
  · have hstop : Steady (· ≠ t.flow.unit) t.manager (t.manager.stopConflicts k t.flow.unit).1 :=
      .apply k t.manager (.stopConflicts t.flow.unit) trivial fun _ _ => trivial
    exact hstop.trans (steady_waitConflicts k _
      { t with manager := (t.manager.stopConflicts k t.flow.unit).1 })

theorem steady_runSockets (k : Kernel) (paths : List String) (t : Turn) :
    Steady (· ≠ t.flow.unit) t.manager (runSockets k paths t).manager := by
  unfold runSockets
  split
  · split
    · exact .refl _
    · exact steady_fail ..
  · split
    · exact steady_fail ..
    · exact steady_runConflicts k none t

theorem steady_runStage (k : Kernel) (stage : StartStage) (t : Turn) :
    Steady (· ≠ t.flow.unit) t.manager (runStage k stage t).manager := by
  unfold runStage
  split
  · exact steady_runSockets ..
  · exact steady_runConflicts ..
  · exact steady_waitPre ..
  · exact steady_runSpawn k t
  · exact steady_waitSpawn k t
  · exact steady_waitReady k t
  · exact steady_waitPost ..
  · exact .refl _

/-- A flow leaves every failed unit alone : its own is given up at the entry, or waits for a
spawn that was made before. -/
theorem steady_advance (k : Kernel) (t : Turn) : SteadyAll t.manager (advance k t).manager := by
  unfold advance
  dsimp only
  split
  · exact .refl _
  · split
    · exact .refl _
    · split
      · exact .refl _
      · next hguard =>
        split
        · exact steady_fail ..
        · refine (steady_runStage k t.flow.stage (waitIn t .done)).of_ne fun hf => ?_
          have hstage : t.flow.stage = .spawnWait := by
            by_contra hne
            have hf' : t.manager.isFailed t.flow.unit = true := hf
            simp [hf', hne] at hguard
          rw [hstage]
          exact steady_waitSpawn k (waitIn t .done)

theorem steady_new (k : Kernel) (m : UnitManager) (u : UnitName) : Steady P m (new k m u).1 := by
  have hadopt : Steady P m (m.adoptPendingConfig u) :=
    .apply k m (.adoptPendingConfig u) trivial fun _ _ => trivial
  unfold new
  dsimp only
  split
  · exact hadopt
  · split <;> exact hadopt

end StartFlow

/-! ## Control starts -/

section Starts

variable {P : UnitName → Prop} {k : Kernel} {m : UnitManager} {u : UnitName}

theorem steady_beginFlow (k : Kernel) (m : UnitManager) (flows : Flows) (u : UnitName) :
    Steady P m (beginFlow k m flows u).1 := by
  have hnew : Steady P m (StartFlow.new k m u).1 := StartFlow.steady_new k m u
  unfold beginFlow
  split
  · exact .refl m
  · generalize StartFlow.new k m u = r at hnew
    obtain ⟨m', e | flow⟩ := r <;> exact hnew

theorem steady_clearStartLimitAndStart (k : Kernel) (m : UnitManager) (flows : Flows) (u : UnitName) :
    Steady P m (applyStartEffect k m flows u .clearStartLimitAndStart).1 :=
  (Steady.apply k m (.clearStartLimit u) trivial fun _ _ => trivial).trans
    (steady_beginFlow k (m.clearStartLimit u) flows u)

theorem steady_applyStartEffect (k : Kernel) (m : UnitManager) (flows : Flows) (u : UnitName)
    (effect : Effect) : Steady (· ≠ u) m (applyStartEffect k m flows u effect).1 := by
  cases effect with
  | spawnProcess | cancelBackoffAndStart => exact steady_beginFlow k m flows u
  | clearStartLimitAndStart => exact steady_clearStartLimitAndStart k m flows u
  | none | scheduleBackoff => exact .refl m
  | sendStopSignal | cancelBackoffAndStop =>
    exact .apply k m (.stopUnit u) trivial fun _ hv => hv.symm

/-- A start request leaves every failed unit alone, and clears the breaker of its own. -/
theorem steady_requestStart (k : Kernel) (m : UnitManager) (u : UnitName) {source : RequestSource}
    (hs : source.rank ≤ RequestSource.userStart.rank) :
    Steady P m (m.requestStart k u source).1 :=
  .apply k m (.requestStart u source) hs fun _ _ => trivial

theorem requestStart_effect (hf : m.isFailed u = true) (source : RequestSource) :
    (m.requestStart k u source).2 = some .clearStartLimitAndStart := by
  obtain ⟨rt, hrt, hfailed⟩ := (Option.any_eq_true _ _).mp hf
  exact (requestStart_of_isFailed hrt hfailed source).1

end Starts

namespace ControlStart

variable {P : UnitName → Prop} {k : Kernel} {t : Turn} {u : UnitName}

theorem steady_startUnit {effect : Effect}
    (h : Steady P t.manager (applyStartEffect k t.manager t.flows u effect).1) :
    Steady P t.manager (startUnit k t u effect).manager := by
  unfold startUnit
  generalize applyStartEffect k t.manager t.flows u effect = r at h
  obtain ⟨m, flows, e | ok⟩ := r
  · exact h
  · dsimp only
    split
    · exact h
    · next flow _ =>
      exact h.trans
        (.of_all (StartFlow.steady_advance k { flow := flow, manager := m, aux := t.aux }))

theorem steady_requestUnit (k : Kernel) (t : Turn) (u : UnitName) :
    SteadyAll t.manager (requestUnit k t u).manager := by
  unfold requestUnit
  split
  · split <;> exact .refl _
  · split
    · exact .refl _
    · split
      · exact .refl _
      · dsimp only
        have hsource : (if u = t.job.target then RequestSource.userStart else .dependency).rank ≤
            RequestSource.userStart.rank := by split <;> decide
        generalize (if u = t.job.target then RequestSource.userStart else .dependency) = source
          at hsource
        have hreq : SteadyAll t.manager (t.manager.requestStart k u source).1 :=
          steady_requestStart k t.manager u hsource
        split
        · exact hreq
        · split <;> exact hreq
        · next effect hnone heffect =>
          let t' : Turn := { t with manager := (t.manager.requestStart k u source).1 }
          refine Steady.of_ne (u := u) (hreq.of_all.trans ?_) fun hf => ?_
          · exact steady_startUnit (t := t') (steady_applyStartEffect k t'.manager t'.flows u effect)
          · rw [requestStart_effect hf source] at heffect
            obtain rfl := Option.some.inj heffect
            exact hreq.trans (steady_startUnit (t := t')
              (steady_clearStartLimitAndStart k t'.manager t'.flows u))

theorem poll_manager (t : Turn) : (poll t).1.manager = t.manager := by
  unfold poll
  split
  · rfl
  · unfold pollWaiting
    dsimp only
    split
    · rfl
    · split
      · rfl
      · split
        · rfl
        · rfl
        · rfl
        all_goals split <;> rfl

theorem steady_runOrder (k : Kernel) (l : List UnitName) (t : Turn) :
    SteadyAll t.manager (runOrder k l t).manager := by
  induction l generalizing t with
  | nil =>
    have hpoll := poll_manager t
    unfold runOrder
    generalize poll t = r at hpoll
    obtain ⟨t', b⟩ := r
    cases b <;> exact hpoll ▸ .refl _
  | cons u l ih =>
    have hpoll := poll_manager t
    unfold runOrder
    generalize poll t = r at hpoll
    obtain ⟨t', b⟩ := r
    have hsame : SteadyAll t.manager t'.manager := hpoll ▸ .refl _
    cases b with
    | true => exact hsame
    | false =>
      have hreq := steady_requestUnit k
        { t' with job := { t'.job with index := t'.job.index + 1 } } u
      dsimp only
      split
      · exact hsame.trans hreq
      · exact hsame.trans (hreq.trans (ih _))

theorem steady_advance (k : Kernel) (t : Turn) : SteadyAll t.manager (advance k t).manager := by
  unfold advance
  split
  · exact .refl _
  · exact steady_runOrder k _ t

end ControlStart

end Rinit
