import Rinit.Cache
import Rinit.Stops

/-!
# What a reload leaves

A reload is a run of the manager's operations (`Reachable.applyPlan`), and what it leaves of
each unit can be said in one line (`reloaded_applyPlan`) : a unit of the directory is registered
or redefined, one that is gone is stopped and hidden, and everything else stays.
-/

namespace Rinit

/-! ## A stop of a unit that is removed -/

/-- What asking for a stop and carrying it out does to a unit. -/
def UnitRuntime.stopped (k : Kernel) (cg : Cgroup) (u : UnitName) (rt : UnitRuntime) : UnitRuntime :=
  match JobQueue.action .stopped rt.state with
  | some .sendStopSignal | some .cancelBackoffAndStop => (rt.stop k cg u).val
  | _ => rt.settle .stopped

/-- Whether a stop of the unit reaches out. -/
def UnitRuntime.isStopped (rt : UnitRuntime) : Bool :=
  rt.state = .active || rt.state = .starting || rt.state = .restartWait

namespace UnitRuntime

variable {rt : UnitRuntime}

theorem stopped_of_isStopped (k : Kernel) (cg : Cgroup) (u : UnitName) (h : rt.isStopped = true) :
    rt.stopped k cg u = (rt.stop k cg u).val := by
  unfold isStopped at h
  cases hst : rt.state <;> simp_all [stopped, JobQueue.action]

theorem stopped_of_not_isStopped (k : Kernel) (cg : Cgroup) (u : UnitName)
    (h : rt.isStopped = false) : rt.stopped k cg u = rt.settle .stopped := by
  unfold isStopped at h
  cases hst : rt.state <;> simp_all [stopped, JobQueue.action]

/-- A unit that a stop reaches is up because it has a process. -/
theorem exists_pid_of_isStopped (hup : rt.isUp = true) (h : rt.isStopped = true) :
    rt.state ≠ .deactivating ∧ ∃ pid, rt.pid = some pid := by
  have hd : rt.state ≠ .deactivating := by
    intro hd
    simp [isStopped, hd] at h
  rw [isUp, Bool.or_eq_true, decide_eq_true_eq] at hup
  exact ⟨hd, Option.isSome_iff_exists.mp (hup.resolve_right hd)⟩

end UnitRuntime

/-- What removing a unit leaves of it. -/
def UnitRuntime.removed (k : Kernel) (cg : Cgroup) (u : UnitName) (rt : UnitRuntime) : UnitRuntime :=
  ((if rt.isUp then rt.stopped k cg u else rt).retire k).val

/-- The calls were made on the way from `m` to `m'`. -/
def Noted (m m' : UnitManager) (calls : List Call) : Prop :=
  ∃ extra, m'.calls = m.calls ++ extra ∧ calls ⊆ extra

section

variable {k : Kernel} {m m' m'' : UnitManager} {u v : UnitName} {rt : UnitRuntime}

theorem Noted.of_eq (h : m'.calls = m.calls) : Noted m m' [] :=
  ⟨[], by rw [h, List.append_nil], List.nil_subset _⟩

theorem Noted.trans_left {calls : List Call} (h : Noted m m' calls) (h' : Noted m' m'' []) :
    Noted m m'' calls := by
  obtain ⟨extra, he, hc⟩ := h
  obtain ⟨extra', he', -⟩ := h'
  exact ⟨extra ++ extra', by rw [he', he, List.append_assoc],
    fun c hm => List.mem_append_left _ (hc hm)⟩

theorem Noted.trans_right {calls : List Call} (h : Noted m m' []) (h' : Noted m' m'' calls) :
    Noted m m'' calls := by
  obtain ⟨extra, he, -⟩ := h
  obtain ⟨extra', he', hc⟩ := h'
  exact ⟨extra ++ extra', by rw [he', he, List.append_assoc],
    fun c hm => List.mem_append_right _ (hc hm)⟩

theorem calls_requestStop (hrt : m.get u = some rt) (source : RequestSource) :
    (m.requestStop k u source).1.calls = m.calls := by
  have hforget : (m.forgetSpentTarget u).calls = m.calls := by
    unfold UnitManager.forgetSpentTarget
    split <;> rfl
  have hfiled : (m.filed k u .stopped source).calls = m.calls := hforget
  have hnone (m : UnitManager) : (m.applyNoneTransition u).calls = m.calls := by
    unfold UnitManager.applyNoneTransition UnitManager.modify UnitManager.update
    split
    · split
      · split
        · simp [UnitManager.put]
        · rfl
      · rfl
    · rfl
  have hanswered : (m.answered k u .stopped source).calls = m.calls := by
    unfold UnitManager.answered
    split
    · exact (hnone _).trans hfiled
    · exact hfiled
  rw [show m.requestStop k u source = m.submitRequest k u .stopped source by
    simp [UnitManager.requestStop, UnitManager.request, hrt]]
  exact hanswered

/-- A stop of `u` was asked for and carried out. -/
structure StopDone (k : Kernel) (m : UnitManager) (u : UnitName) (rt : UnitRuntime)
    (m' : UnitManager) : Prop where
  reachable : Reachable m'
  cgroup : m'.cgroup = m.cgroup
  get : ∀ v, m'.get v = if u = v then some (rt.stopped k m.cgroup u) else m.get v
  calls : Noted m m' (if rt.isStopped then (rt.stop k m.cgroup u).calls else [])

theorem stopDone_settled {m₁ : UnitManager} (hm₁ : Reachable m₁) (hc : m₁.cgroup = m.cgroup)
    (hget : ∀ v, m₁.get v = if u = v then some (rt.settle .stopped) else m.get v)
    (hcalls : m₁.calls = m.calls) (hs : rt.isStopped = false) : StopDone k m u rt m₁ := by
  refine ⟨hm₁, hc, fun v => ?_, by simpa [hs] using Noted.of_eq hcalls⟩
  rw [hget, UnitRuntime.stopped_of_not_isStopped k m.cgroup u hs]

theorem stopDone_signalled {m₁ : UnitManager} (hm₁ : Reachable m₁) (hc : m₁.cgroup = m.cgroup)
    (hget : ∀ v, m₁.get v = if u = v then some (rt.settle .stopped) else m.get v)
    (hcalls : m₁.calls = m.calls) (hs : rt.isStopped = true) :
    StopDone k m u rt (m₁.stopUnit k u) := by
  have hsettle : rt.settle .stopped = rt := by
    unfold UnitRuntime.isStopped at hs
    cases hst : rt.state <;> simp_all [UnitRuntime.settle]
  have hstop : m₁.stopUnit k u = m₁.put u (rt.stop k m.cgroup u) := by
    rw [UnitManager.stopUnit, UnitManager.update, hget, if_pos rfl, hsettle, hc]
  refine ⟨.step k (.stopUnit u) hm₁ trivial, by rw [hstop]; exact hc, fun v => ?_, ?_⟩
  · rw [hstop, UnitManager.get_put, UnitRuntime.stopped_of_isStopped k m.cgroup u hs, hget]
    split <;> rfl
  · rw [if_pos hs, hstop]
    exact ⟨(rt.stop k m.cgroup u).calls, by rw [UnitManager.put, hcalls], fun _ h => h⟩

/-- A stop that is asked for is carried out, whatever the state of the unit. -/
theorem stopDone_of_request (hm : Reachable m) (hrt : m.get u = some rt) :
    ∃ m', applyEffect k (m.requestStop k u .userStop).1 u (m.requestStop k u .userStop).2 =
      (m', .ok false) ∧ StopDone k m u rt m' := by
  have hcalls := calls_requestStop (k := k) hrt .userStop
  have hkeeps : UnitManager.Keeps m (m.requestStop k u .userStop).1 :=
    UnitManager.keeps_request k hrt .stopped .userStop
  have hreach : Reachable (m.requestStop k u .userStop).1 :=
    .step k (.requestStop u .userStop) hm (by exact le_rfl)
  obtain ⟨heffect, hget⟩ := requestStop_spec (k := k) hm.jobsSorted hrt
  have hget' (v : UnitName) : (m.requestStop k u .userStop).1.get v =
      if u = v then some (rt.settle .stopped) else m.get v := by
    split
    · next huv => exact huv ▸ hget
    · next huv =>
      rcases UnitManager.get_request k m u .stopped .userStop v with h | ⟨_, rfl, -⟩ | ⟨_, rfl, -⟩
      · exact h
      · exact absurd rfl huv
      · exact absurd rfl huv
  rw [heffect]
  cases hst : rt.state with
  | inactive | activeExited | failed | deactivating =>
    exact ⟨_, rfl, stopDone_settled hreach hkeeps.cgroup hget' hcalls
      (by simp [UnitRuntime.isStopped, hst])⟩
  | starting | active | restartWait =>
    exact ⟨_, rfl, stopDone_signalled hreach hkeeps.cgroup hget' hcalls
      (by simp [UnitRuntime.isStopped, hst])⟩

end

/-! ## Plans -/

namespace BootPlan

/-- The definitions of a plan have names of their own, and the type their name says. -/
structure Proper (plan : BootPlan) : Prop where
  nodup : (plan.configs.map (·.name)).Nodup
  kind : ∀ c ∈ plan.configs, c.kind = c.name.ty

theorem kind_of_loadFiles {files : List UnitFile} {loaded : Loaded}
    (h : loadFiles files = .ok loaded) : ∀ c ∈ loaded.1, c.kind = c.name.ty := by
  refine Runs.foldlM_induction (P := fun _ (loaded : Loaded) => ∀ c ∈ loaded.1, c.kind = c.name.ty)
    h (by simp) ?_
  intro done file rest l l' _ hl hstep
  unfold loadFile at hstep
  split at hstep
  · cases hstep
  · next config hparse =>
    have hconfig : config.kind = config.name.ty := by
      rw [parse_kind hparse, parse_name hparse]
    split at hstep
    · obtain rfl := Except.ok.inj hstep
      exact hl
    · obtain rfl := Except.ok.inj hstep
      intro c hc
      rcases List.mem_append.mp hc with hc | hc
      · exact hl c hc
      · rw [List.mem_singleton.mp hc]
        exact hconfig

theorem proper_of_planBoot {files : List UnitFile} {warnings : List String} {target : String}
    {plan : BootPlan} (h : planBoot files warnings target = .ok plan) : plan.Proper := by
  obtain ⟨loaded, socketWarnings, graph, -, hload, hsockets, hbuild, -⟩ := planBoot_eq_ok h
  constructor
  · have hasm := DependencyGraph.assembled_of_assemble
      (DependencyGraph.build_eq_ok_iff.mp hbuild).1
    exact hasm.perm_names.nodup_iff.mp hasm.nodup
  · obtain ⟨providers, -, hmap⟩ := Runs.bind_eq_ok.mp hsockets
    have hconfigs := (Prod.mk.inj (Except.ok.inj hmap)).1
    intro c hc
    rw [← hconfigs] at hc
    obtain ⟨c', hc', rfl⟩ := List.mem_map.mp hc
    exact kind_of_loadFiles hload c' hc'

end BootPlan

/-! ## Units that are gone -/

namespace ReloadState

variable {k : Kernel} {plan : BootPlan} {s s' s'' : ReloadState} {u v : UnitName} {rt : UnitRuntime}

theorem isGone_congr {m m' : UnitManager} (h : m'.get u = m.get u) :
    isGone m' plan u = isGone m plan u := by
  simp [isGone, UnitManager.unitExists, h]

/-- What removing units leaves : the ones that satisfy `p` are stopped and hidden. -/
structure Removed (k : Kernel) (s : ReloadState) (p : UnitName → Bool) (s' : ReloadState) :
    Prop where
  reachable : Reachable s'.manager
  cgroup : s'.manager.cgroup = s.manager.cgroup
  starts : s'.starts = s.starts
  get : ∀ v, s'.manager.get v =
    if p v then (s.manager.get v).map (·.removed k s.manager.cgroup v) else s.manager.get v
  calls : Noted s.manager s'.manager []
  stopped : ∀ v rt, p v = true → s.manager.get v = some rt → rt.isUp = true → rt.isStopped = true →
    Noted s.manager s'.manager (rt.stop k s.manager.cgroup v).calls

theorem Removed.nothing (hm : Reachable s.manager) : Removed k s (fun _ => false) s :=
  ⟨hm, rfl, rfl, fun _ => rfl, .of_eq rfl, fun _ _ h => by cases h⟩

theorem Removed.trans {p q : UnitName → Bool} (h : Removed k s p s') (h' : Removed k s' q s'')
    (hpq : ∀ v, p v = true → q v = false) : Removed k s (fun v => p v || q v) s'' := by
  have hget (v : UnitName) (hv : p v = false) : s'.manager.get v = s.manager.get v := by
    rw [h.get, hv]
    rfl
  refine ⟨h'.reachable, h'.cgroup.trans h.cgroup, h'.starts.trans h.starts, fun v => ?_,
    h.calls.trans_left h'.calls, fun v rt hv hrt hup hst => ?_⟩
  · rw [h'.get, h.cgroup]
    cases hp : p v with
    | true => simp [hpq v hp, h.get, hp]
    | false => simp [hget v hp]
  · cases hp : p v with
    | true => exact (h.stopped v rt hp hrt hup hst).trans_left h'.calls
    | false =>
      have := h'.stopped v rt (by simpa [hp] using hv) ((hget v hp).trans hrt) hup hst
      rw [h.cgroup] at this
      exact h.calls.trans_right this

theorem removed_hide (hm : Reachable s.manager) (hrt : s.manager.get u = some rt) :
    Reachable (hide k s u).manager ∧ (hide k s u).manager.cgroup = s.manager.cgroup ∧
    (hide k s u).starts = s.starts ∧ Noted s.manager (hide k s u).manager [] ∧
    ∀ v, (hide k s u).manager.get v = if u = v then some (rt.retire k).val else s.manager.get v := by
  let m : UnitManager := { s.manager with listenFds := s.manager.listenFds.erase u }
  have hm' : Reachable m := .step k (.setListeners _) hm trivial
  have hretire : m.retire k u =
      (({ m with queuedStarts := m.queuedStarts.erase u } : UnitManager).put u
        (rt.retire k)).invalidateGraph := by
    unfold UnitManager.retire
    dsimp only
    rw [show UnitManager.get { m with queuedStarts := m.queuedStarts.erase u } u = some rt from hrt]
  refine ⟨.step k (.retire u) hm' trivial, ?_, rfl, ?_, fun v => ?_⟩
  · change (m.retire k u).cgroup = _
    rw [hretire]
    rfl
  · change Noted s.manager (m.retire k u) []
    rw [hretire]
    exact ⟨(rt.retire k).calls, rfl, List.nil_subset _⟩
  · change (m.retire k u).get v = _
    rw [hretire, UnitManager.invalidateGraph_get, UnitManager.get_put]
    rfl

theorem removed_removeUnit (hm : Reachable s.manager) (u : UnitName) :
    ∃ s', removeUnit k plan s u = (s', .ok ()) ∧
      Removed k s (fun v => u = v && isGone s.manager plan v) s' := by
  unfold removeUnit
  by_cases hg : isGone s.manager plan u = true
  · have hex : s.manager.unitExists u = true := by
      unfold isGone at hg
      simp only [Bool.and_eq_true] at hg
      exact hg.1.1
    obtain ⟨rt, hrt, -⟩ := (Option.any_eq_true _ _).mp hex
    have hgone : (fun v => decide (u = v) && isGone s.manager plan v) = fun v => decide (u = v) := by
      funext v
      by_cases huv : u = v
      · simp [← huv, hg]
      · simp [huv]
    rw [hg, hgone]
    simp only [Bool.not_true, Bool.false_eq_true, if_false]
    by_cases hup : s.manager.isUp u = true
    · rw [if_pos hup]
      have hup' : rt.isUp = true := by simpa [UnitManager.isUp, hrt] using hup
      obtain ⟨m', heq, hdone⟩ := stopDone_of_request (k := k) hm hrt
      rw [heq]
      let s₁ : ReloadState :=
        { s with manager := m', report := { s.report with stopped := s.report.stopped ++ [u] } }
      obtain ⟨h1, h2, h3, h4, h5⟩ := removed_hide (k := k) (s := s₁) (u := u) hdone.reachable
        ((hdone.get u).trans (if_pos rfl))
      refine ⟨_, rfl, h1, h2.trans hdone.cgroup, h3, fun v => ?_, ?_, fun v rt' hv hrt' _ hst => ?_⟩
      · rw [h5 v]
        by_cases huv : u = v
        · simp [← huv, hrt, UnitRuntime.removed, hup']
        · simp only [huv, if_false, decide_false, Bool.false_eq_true]
          exact (hdone.get v).trans (if_neg huv)
      · exact (Noted.trans_left ⟨hdone.calls.choose, hdone.calls.choose_spec.1, List.nil_subset _⟩ h4)
      · obtain rfl : u = v := by simpa using hv
        obtain rfl := Option.some.inj (hrt.symm.trans hrt')
        have := hdone.calls
        rw [if_pos hst] at this
        exact this.trans_left h4
    · rw [if_neg hup]
      have hup' : rt.isUp = false := by simpa [UnitManager.isUp, hrt] using hup
      obtain ⟨h1, h2, h3, h4, h5⟩ := removed_hide (k := k) hm hrt
      refine ⟨_, rfl, h1, h2, h3, fun v => ?_, h4, fun v rt' hv hrt' hup'' _ => ?_⟩
      · rw [h5 v]
        by_cases huv : u = v
        · simp [← huv, hrt, UnitRuntime.removed, hup']
        · simp [huv]
      · obtain rfl : u = v := by simpa using hv
        obtain rfl := Option.some.inj (hrt.symm.trans hrt')
        simp [hup'] at hup''
  · have hnone : (fun v => decide (u = v) && isGone s.manager plan v) = fun _ => false := by
      funext v
      by_cases huv : u = v
      · simpa [← huv] using hg
      · simp [huv]
    rw [hnone]
    simp only [hg, Bool.not_false, if_true]
    exact ⟨s, rfl, .nothing hm⟩

/-- Every name of the list that is gone is removed. -/
theorem removed_removeUnits {l : List UnitName} (hl : l.Nodup) (hm : Reachable s.manager) :
    ∃ s', removeUnits k plan l s = (s', .ok ()) ∧
      Removed k s (fun v => l.contains v && isGone s.manager plan v) s' := by
  induction l generalizing s with
  | nil => exact ⟨s, rfl, .nothing hm⟩
  | cons u l ih =>
    obtain ⟨hu, hl⟩ := List.nodup_cons.mp hl
    obtain ⟨s₁, h1, hr1⟩ : ∃ s', removeUnit k plan s u = (s', .ok ()) ∧ _ :=
      removed_removeUnit hm u
    obtain ⟨s₂, h2, hr2⟩ := ih hl hr1.reachable
    refine ⟨s₂, by rw [removeUnits, h1]; exact h2, ?_⟩
    have hboth := hr1.trans hr2 fun v hv => by
      rw [Bool.and_eq_true, decide_eq_true_eq] at hv
      simp [← hv.1, hu]
    have heq : (fun v => (u :: l).contains v && isGone s.manager plan v) = fun v =>
        decide (u = v) && isGone s.manager plan v || l.contains v && isGone s₁.manager plan v := by
      funext v
      by_cases huv : u = v
      · simp [← huv, hu]
      · have hgone : isGone s₁.manager plan v = isGone s.manager plan v :=
          isGone_congr (by rw [hr1.get]; simp [huv])
        have huv' : ¬v = u := fun h => huv h.symm
        simp [huv, huv', hgone]
    rw [heq]
    exact hboth

/-! ## Units of the directory -/

/-- What registering a definition leaves of a unit. -/
def registered (config : UnitConfig) (inFlight : Bool) : Option UnitRuntime → UnitRuntime
  | none => UnitRuntime.new config
  | some rt => (rt.redefine config inFlight).1

theorem get_addWithInFlight (m : UnitManager) (config : UnitConfig) (inFlight : Bool)
    (v : UnitName) : (m.addWithInFlight config inFlight).1.get v =
      if config.name = v then some (registered config inFlight (m.get config.name)) else m.get v := by
  cases h : m.get config.name with
  | none => exact UnitManager.get_addWithInFlight_new h v
  | some rt => exact UnitManager.get_addWithInFlight_known h v

theorem addWithInFlight_frame (m : UnitManager) (config : UnitConfig) (inFlight : Bool) :
    (m.addWithInFlight config inFlight).1.cgroup = m.cgroup ∧
      (m.addWithInFlight config inFlight).1.calls = m.calls := by
  unfold UnitManager.addWithInFlight
  split
  · exact ⟨rfl, rfl⟩
  · dsimp only
    split <;> exact ⟨rfl, by simp [UnitManager.invalidateGraph, UnitManager.put]⟩

/-- Making the bound socket match a definition only moves descriptors. -/
theorem reconcileSocket_frame (k : Kernel) (s : ReloadState) (config : UnitConfig) :
    ∃ fds, (reconcileSocket k s config).manager = { s.manager with listenFds := fds } ∧
      (reconcileSocket k s config).starts = s.starts := by
  unfold reconcileSocket
  dsimp only
  split
  · exact ⟨_, rfl, rfl⟩
  · exact ⟨_, rfl, rfl⟩
  · split
    · split <;> exact ⟨_, rfl, rfl⟩
    · split
      · split <;> exact ⟨_, rfl, rfl⟩
      · exact ⟨_, rfl, rfl⟩

/-- What registering definitions leaves : each unit as `f` says. -/
structure Registered (s : ReloadState) (f : UnitName → Option UnitRuntime) (s' : ReloadState) :
    Prop where
  reachable : Reachable s'.manager
  cgroup : s'.manager.cgroup = s.manager.cgroup
  flows : s'.starts.flows = s.starts.flows
  get : ∀ v, s'.manager.get v = f v
  calls : Noted s.manager s'.manager []

theorem registered_registerUnit {config : UnitConfig} (hm : Reachable s.manager)
    (hc : config.kind = config.name.ty) : Registered s
      (fun v => if config.name = v then
        some (registered config (s.starts.flows.contains v) (s.manager.get v)) else s.manager.get v)
      (registerUnit k s config) := by
  obtain ⟨fds, hm', hstarts⟩ := reconcileSocket_frame k
    { s with
      manager := (s.manager.addWithInFlight config (s.starts.flows.contains config.name)).1
      report := noteChange s.report config.name ((s.manager.get config.name).any (·.retired))
        (s.manager.addWithInFlight config (s.starts.flows.contains config.name)).2 } config
  obtain ⟨hcg, hcalls⟩ :=
    addWithInFlight_frame s.manager config (s.starts.flows.contains config.name)
  unfold registerUnit
  dsimp only
  refine ⟨?_, by rw [hm']; exact hcg, by rw [hstarts], fun v => ?_, ?_⟩
  · rw [hm']
    exact .step k (.setListeners fds)
      (.step k (.addWithInFlight config (s.starts.flows.contains config.name)) hm hc) trivial
  · rw [hm']
    refine (get_addWithInFlight s.manager config _ v).trans ?_
    split
    · next huv => rw [huv]
    · rfl
  · rw [hm']
    exact .of_eq hcalls

/-- The definition of each name among the configs that are registered. -/
theorem registered_foldl {configs : List UnitConfig} (hn : (configs.map (·.name)).Nodup)
    (hm : Reachable s.manager) (hc : ∀ c ∈ configs, c.kind = c.name.ty) :
    Registered s (fun v => match configs.find? (fun c => c.name = v) with
      | some c => some (registered c (s.starts.flows.contains v) (s.manager.get v))
      | none => s.manager.get v) (configs.foldl (registerUnit k) s) := by
  induction configs generalizing s with
  | nil => exact ⟨hm, rfl, rfl, fun _ => rfl, .of_eq rfl⟩
  | cons c configs ih =>
    obtain ⟨hnew, hn⟩ := List.nodup_cons.mp (List.map_cons ▸ hn)
    have h1 := registered_registerUnit (k := k) hm (hc c List.mem_cons_self)
    have h2 := ih hn h1.reachable fun c' hc' => hc c' (List.mem_cons_of_mem _ hc')
    refine ⟨h2.reachable, h2.cgroup.trans h1.cgroup, h2.flows.trans h1.flows, fun v => ?_,
      h1.calls.trans_left h2.calls⟩
    rw [List.foldl_cons, h2.get, h1.flows]
    by_cases hv : c.name = v
    · have hnone : configs.find? (fun c => c.name = v) = none := by
        rw [List.find?_eq_none]
        intro c' hc' hcv
        exact hnew (hv ▸ (decide_eq_true_eq.mp hcv) ▸ List.mem_map_of_mem hc')
      rw [hnone, h1.get, if_pos hv, List.find?_cons_of_pos (by simpa using hv)]
    · rw [List.find?_cons_of_neg (by simpa using hv)]
      split
      · rw [h1.get, if_neg hv]
      · rw [h1.get, if_neg hv]

/-! ## The whole reload -/

theorem controlStart_new_fst (k : Kernel) (m : UnitManager) (u : UnitName) :
    (ControlStart.new k m u).1 = (m.startOrder u).1 := by
  unfold ControlStart.new
  split <;> next h => rw [h]

theorem startAdded_frame (k : Kernel) (plan : BootPlan) (s : ReloadState) (u : UnitName) :
    (startAdded k plan s u).starts.flows = s.starts.flows ∧
      ((startAdded k plan s u).manager = s.manager ∨
        (startAdded k plan s u).manager = (s.manager.startOrder u).1) := by
  unfold startAdded
  split
  · exact ⟨rfl, .inl rfl⟩
  · split
    · exact ⟨rfl, .inl rfl⟩
    · have hnew := controlStart_new_fst k s.manager u
      unfold StartCoordinator.startAsync
      generalize ControlStart.new k s.manager u = r at hnew
      obtain ⟨m', job | job⟩ := r
      · exact ⟨rfl, .inr hnew⟩
      · exact ⟨rfl, .inr hnew⟩

theorem registered_startAdded (hm : Reachable s.manager) (l : List UnitName) :
    Registered s s.manager.get (l.foldl (startAdded k plan) s) := by
  refine Runs.foldl_induction (P := fun _ t => Registered s s.manager.get t)
    ⟨hm, rfl, rfl, fun _ => rfl, .of_eq rfl⟩ ?_
  intro done u rest t _ h
  obtain ⟨hflows, heq⟩ := startAdded_frame k plan t u
  obtain ⟨cache, hcache⟩ := t.manager.startOrder_fst u
  rcases heq with heq | heq
  · refine ⟨heq ▸ h.reachable, heq ▸ h.cgroup, hflows.trans h.flows, fun v => ?_, heq ▸ h.calls⟩
    rw [heq]
    exact h.get v
  · have hreach : Reachable (t.manager.startOrder u).1 := .step k (.startOrder u) h.reachable trivial
    refine ⟨heq ▸ hreach, ?_, hflows.trans h.flows, fun v => ?_, ?_⟩
    · rw [heq, hcache]
      exact h.cgroup
    · rw [heq, UnitManager.get_startOrder]
      exact h.get v
    · rw [heq, hcache]
      exact h.calls

/-- The entry of a unit, unless the reload prunes it. -/
def unpruned (m : UnitManager) (u : UnitName) : Option UnitRuntime :=
  (m.get u).filter fun rt => !rt.prunable

/-- What a reload makes of each unit. -/
def reloaded (k : Kernel) (plan : BootPlan) (s : ReloadState) (u : UnitName) : Option UnitRuntime :=
  match plan.configOf u with
  | some config => some (registered config (s.starts.flows.contains u) (unpruned s.manager u))
  | none =>
    if isGone s.manager plan u then
      (unpruned s.manager u).map (·.removed k s.manager.cgroup u)
    else unpruned s.manager u

theorem not_prunable_of_not_retired (h : rt.retired = false) : rt.prunable = false := by
  simp [UnitRuntime.prunable, h]

theorem isGone_pruneRetired (m : UnitManager) (plan : BootPlan) (u : UnitName) :
    isGone m.pruneRetired.1 plan u = isGone m plan u := by
  have hex : m.pruneRetired.1.unitExists u = m.unitExists u := by
    unfold UnitManager.unitExists
    rw [UnitManager.get_pruneRetired]
    cases m.get u with
    | none => rfl
    | some rt =>
      cases hret : rt.retired with
      | false => simp [Option.filter, not_prunable_of_not_retired hret]
      | true => cases hp : rt.prunable <;> simp [Option.filter, hp, hret]
  unfold isGone
  rw [hex]

/-- What a reload leaves, once its plan is accepted. -/
structure Reloaded (k : Kernel) (plan : BootPlan) (s s' : ReloadState) : Prop where
  reachable : Reachable s'.manager
  flows : s'.starts.flows = s.starts.flows
  get : ∀ v, s'.manager.get v = reloaded k plan s v
  calls : Noted s.manager s'.manager []
  stopped : ∀ v rt, isGone s.manager plan v = true → s.manager.get v = some rt → rt.isUp = true →
    rt.isStopped = true → Noted s.manager s'.manager (rt.stop k s.manager.cgroup v).calls

/-- Applying a plan does not fail half way. -/
theorem reloaded_applyPlan (hp : plan.Proper) (hm : Reachable s.manager) :
    ∃ s' report, applyPlan k plan s = (s', .ok report) ∧ Reloaded k plan s s' := by
  have hget0 (v : UnitName) : s.manager.pruneRetired.1.get v = unpruned s.manager v :=
    UnitManager.get_pruneRetired s.manager v
  have hframe : s.manager.pruneRetired.1.cgroup = s.manager.cgroup ∧
      s.manager.pruneRetired.1.calls = s.manager.calls := by
    unfold UnitManager.pruneRetired
    dsimp only
    split <;> exact ⟨rfl, rfl⟩
  have hm0 : Reachable s.manager.pruneRetired.1 := .step k .pruneRetired hm trivial
  let s₀ : ReloadState :=
    { s with manager := s.manager.pruneRetired.1, report := { pruned := s.manager.pruneRetired.2 } }
  have hnames : (fun v => s₀.manager.names.contains v && isGone s₀.manager plan v) =
      fun v => isGone s.manager plan v := by
    funext v
    rw [isGone_pruneRetired]
    cases hg : isGone s.manager plan v with
    | false => simp
    | true =>
      have hex : s₀.manager.unitExists v = true := by
        rw [← isGone_pruneRetired] at hg
        unfold isGone at hg
        simp only [Bool.and_eq_true] at hg
        exact hg.1.1
      obtain ⟨rt, hrt, -⟩ := (Option.any_eq_true _ _).mp hex
      have hmem : v ∈ s₀.manager.units := Std.ExtTreeMap.mem_iff_isSome_getElem?.mpr
        (Option.isSome_of_eq_some hrt)
      simpa [UnitManager.names] using hmem
  obtain ⟨s₁, h1, hr⟩ : ∃ s₁, removeUnits k plan s₀.manager.names s₀ = (s₁, .ok ()) ∧ _ :=
    removed_removeUnits (s := s₀) Std.ExtTreeMap.nodup_keys hm0
  rw [hnames] at hr
  have hreg := registered_foldl (k := k) hp.nodup hr.reachable hp.kind
  have hstart : Registered _ _ (plan.levels.flatten.foldl (startAdded k plan) _) :=
    registered_startAdded hreg.reachable plan.levels.flatten
  have hnoted : Noted s₁.manager _ [] := hreg.calls.trans_left hstart.calls
  refine ⟨_, _, by simp only [applyPlan]; rw [h1], ?_, ?_, fun v => ?_, ?_,
    fun v rt hg hrt hup hst => ?_⟩
  · exact .step k (.setShutdownOrder plan.levels.flatten)
      (.step k (.setTemplates plan.templates) hstart.reachable trivial) trivial
  · exact hstart.flows.trans (hreg.flows.trans (congrArg StartCoordinator.flows hr.starts))
  · refine (hstart.get v).trans ((hreg.get v).trans ?_)
    have hold : s₁.manager.get v = if isGone s.manager plan v then
        (unpruned s.manager v).map (·.removed k s.manager.cgroup v) else unpruned s.manager v := by
      rw [hr.get, hget0, hframe.1]
    have hflows : s₁.starts.flows = s.starts.flows := congrArg StartCoordinator.flows hr.starts
    unfold reloaded BootPlan.configOf
    cases hc : plan.configs.find? fun c => decide (c.name = v) with
    | none => exact hold
    | some c =>
      have hplanned : isGone s.manager plan v = false := by
        simp [isGone, BootPlan.configOf, hc]
      rw [hplanned] at hold
      simp only [hflows, hold, Bool.false_eq_true, if_false]
  · exact (Noted.of_eq hframe.2).trans_right (hr.calls.trans_left hnoted)
  · have hstop := hr.stopped v rt hg (by
      rw [hget0, unpruned, hrt]
      have hret : rt.retired = false := by
        simp only [isGone, UnitManager.unitExists, hrt, Option.any_some, Bool.and_eq_true] at hg
        simpa using hg.1.1
      simp [Option.filter, not_prunable_of_not_retired hret]) hup hst
    rw [hframe.1] at hstop
    exact (Noted.of_eq hframe.2).trans_right (hstop.trans_left hnoted)

/-- A reload applies the plan of the directory, or changes nothing. -/
theorem reload_cases (hm : Reachable s.manager) (files : List UnitFile) (warnings : List String)
    (target : String) :
    (∃ e, BootPlan.planBoot files warnings target = .error e ∧
      reload k files warnings target s = (s, .error e)) ∨
    ∃ plan s' report, BootPlan.planBoot files warnings target = .ok plan ∧
      reload k files warnings target s = (s', .ok report) ∧ Reloaded k plan s s' := by
  unfold reload
  cases hplan : BootPlan.planBoot files warnings target with
  | error e => exact .inl ⟨e, rfl, rfl⟩
  | ok plan =>
    obtain ⟨s', report, happly, hr⟩ :=
      reloaded_applyPlan (k := k) (BootPlan.proper_of_planBoot hplan) hm
    exact .inr ⟨plan, s', report, rfl, happly, hr⟩

end ReloadState

end Rinit
