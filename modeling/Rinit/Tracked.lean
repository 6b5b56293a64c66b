import Rinit.Reload

/-!
# Tracked processes

An entry tracks a process while it has a pid, a stop command or a stop under way. The
operations that change the entries keep such an entry, or it is a tombstone and the stop has
reached its process (`kept_iff`). The exception is `instantiate`, which writes the entry of
an instance without a look at the one that is there. `controlStart` gets to it for a
tombstone, which it takes for a unit that does not exist.
-/

namespace Rinit

/-- The entry still owns a process, or a stop is under way. -/
def Tracked (rt : UnitRuntime) : Prop :=
  rt.pid.isSome = true ∨ rt.execStopPid.isSome = true ∨ rt.state = .deactivating

/-- A stop reached the process `pid` of `u` : `SIGTERM` was delivered, or the `ExecStop=`
command was run, or the process is gone. -/
inductive StopReached (k : Kernel) (u : UnitName) (pid : Pid) (calls : List Call) : Prop
  | signalled (h : Call.kill pid sigTerm true ∈ calls ∨ Call.kill (-pid) sigTerm true ∈ calls)
  | command {stopPid : Pid} (h : Call.command u stopPid ∈ calls)
  | gone (h : k.getpgid pid = .error eSrch ∨ k.kill pid sigTerm = .error eSrch ∨
      k.kill (-pid) sigTerm = .error eSrch)

/-- The entry of `u` is there as it was, or as a tombstone whose process the stop reached. -/
inductive Kept (k : Kernel) (m m' : UnitManager) (u : UnitName) (rt : UnitRuntime) : Prop
  | same {rt' : UnitRuntime} (hrt : m'.get u = some rt') (hp : rt'.pid = rt.pid)
    (he : rt'.execStopPid = rt.execStopPid) (hk : rt'.killAt = rt.killAt)
    (hd : rt.state = .deactivating → rt'.state = .deactivating)
  | stopped {rt' : UnitRuntime} {pid : Pid} (hrt : m'.get u = some rt') (hret : rt'.retired = true)
    (hp : rt.pid = some pid) (hs : StopReached k u pid (m'.calls.drop m.calls.length))

/-- The operations that come and go with definitions and requests. -/
inductive Action where
  | add (config : UnitConfig)
  | addWithInFlight (config : UnitConfig) (inFlight : Bool)
  | instantiate (unit : UnitName)
  | controlStart (unit : UnitName)
  | requestStart (unit : UnitName) (source : RequestSource)
  | requestStop (unit : UnitName) (source : RequestSource)
  | retire (unit : UnitName)
  | pruneRetired
  | reload (files : List UnitFile) (warnings : List String) (defaultTarget : String)
    (starts : StartCoordinator) (activation : Activated)

/-- Carry out an action. -/
def Action.run (k : Kernel) (m : UnitManager) : Action → UnitManager
  | .add config => (m.add config).1
  | .addWithInFlight config inFlight => (m.addWithInFlight config inFlight).1
  | .instantiate unit => (m.instantiate unit).toOption.getD m
  | .controlStart unit => (Rinit.controlStart k m unit).1
  | .requestStart unit source => (m.requestStart k unit source).1
  | .requestStop unit source => (m.requestStop k unit source).1
  | .retire unit => m.retire k unit
  | .pruneRetired => m.pruneRetired.1
  | .reload files warnings defaultTarget starts activation =>
    (ReloadState.reload k files warnings defaultTarget
      { manager := m, starts := starts, activation := activation }).1.manager

/-- The action makes an instance over an entry that tracks a process. -/
def Replaces (m : UnitManager) : Action → Prop
  | .instantiate unit => ∃ rt config, m.get unit = some rt ∧ Tracked rt ∧ m.expand unit = .ok config
  | .controlStart unit => ∃ rt config, m.get unit = some rt ∧ Tracked rt ∧
      m.expand unit = .ok config ∧ rt.retired = true ∧ m.isTemplate unit = false
  | _ => False

section

variable {k : Kernel} {m m' : UnitManager} {u : UnitName} {rt : UnitRuntime}

theorem Kept.of_eq (hrt : m.get u = some rt) (h : m'.get u = m.get u) : Kept k m m' u rt :=
  .same (h.trans hrt) rfl rfl rfl id

theorem kept_settle (hrt : m'.get u = some (rt.settle .stopped)) : Kept k m m' u rt := by
  rcases rt.settle_eq .stopped with heq | ⟨heq, hst⟩ <;> rw [heq] at hrt
  · exact .same hrt rfl rfl rfl id
  · refine .same hrt rfl rfl rfl fun hd => ?_
    rw [hd] at hst
    simp [UnitState.isFailed] at hst

theorem kept_redefine {config : UnitConfig} {inFlight : Bool}
    (hrt : m'.get u = some (rt.redefine config inFlight).1) : Kept k m m' u rt := by
  obtain ⟨_, _, _, heq, -⟩ := rt.redefine_eq config inFlight
  rw [heq] at hrt
  exact .same hrt rfl rfl rfl id

theorem kept_retire (hrt : m'.get u = some (rt.retire k).val) : Kept k m m' u rt := by
  rw [rt.retire_val] at hrt
  exact .same hrt rfl rfl rfl id

theorem not_prunable_of_tracked (h : Tracked rt) : rt.prunable = false := by
  unfold UnitRuntime.prunable UnitRuntime.isUp
  rcases h with h | h | h
  · simp [h]
  · have : rt.execStopPid.isNone = false := by simpa using h
    simp [this]
  · simp [h]

/-! ## A stop reaches its process -/

theorem stopReached_killProcessGroup {pid : Pid} (h : k.Signals pid sigTerm) :
    StopReached k u pid (k.killProcessGroup pid sigTerm).calls := by
  unfold Kernel.killProcessGroup
  rw [if_neg (not_le.mpr h.valid.1)]
  split
  · next e he => exact .gone (.inl (he.trans (congrArg _ (h.getpgid e he))))
  · next group hg =>
    unfold Kernel.send
    cases hk : k.kill (if group = pid then -pid else pid) sigTerm with
    | ok =>
      refine .signalled ?_
      by_cases hgp : group = pid
      · right
        simp [hgp, Except.isOk, Except.toBool]
      · left
        simp [hgp, Except.isOk, Except.toBool]
    | error e =>
      obtain rfl := h.kill _ e hk
      by_cases hgp : group = pid
      · rw [if_pos hgp] at hk
        exact .gone (.inr (.inr hk))
      · rw [if_neg hgp] at hk
        exact .gone (.inr (.inl hk))

theorem stopReached_signalProcess {pid : Pid} (h : k.Signals pid sigTerm) :
    StopReached k u pid (k.signalProcess pid sigTerm).calls := by
  unfold Kernel.signalProcess
  rw [if_neg (not_or.mpr ⟨not_le.mpr h.valid.1, h.valid.2⟩)]
  exact stopReached_killProcessGroup h

theorem StopReached.mono {pid : Pid} {calls calls' : List Call} (h : StopReached k u pid calls)
    (hs : calls ⊆ calls') : StopReached k u pid calls' := by
  cases h with
  | signalled h => exact .signalled (h.imp (@hs _) (@hs _))
  | command h => exact .command (hs h)
  | gone h => exact .gone h

theorem runDetached_calls {config : UnitConfig} {command : ExecCommand} {pid : Pid}
    (h : (k.runDetached u config command).val = .ok pid) :
    Call.command u pid ∈ (k.runDetached u config command).calls := by
  unfold Kernel.runDetached at h ⊢
  split at h
  · cases h
  · split at h
    · cases h
    · obtain rfl := Except.ok.inj h
      simp

theorem stopReached_stopProcess {cg : Cgroup} {pid : Pid} (h : k.Signals pid sigTerm) :
    StopReached k u pid (rt.stopProcess k cg u pid).calls := by
  unfold UnitRuntime.stopProcess
  split
  · rw [Traced.bind_calls, Traced.bind_calls]
    refine (stopReached_signalProcess h).mono fun c hc => ?_
    exact List.mem_append_right _ (List.mem_append_left _ hc)
  · rw [Traced.bind_calls]
    cases hr : (k.runDetached u rt.config rt.config.execStop).val with
    | ok stopPid => exact .command (List.mem_append_left _ (runDetached_calls hr))
    | error e =>
      dsimp only
      rw [Traced.bind_calls, Traced.bind_calls]
      refine (stopReached_killProcessGroup h).mono fun c hc => ?_
      exact List.mem_append_right _ (List.mem_append_right _ (List.mem_append_left _ hc))

theorem stopReached_stop {cg : Cgroup} {pid : Pid} (hd : rt.state ≠ .deactivating)
    (hp : rt.pid = some pid) (h : k.Signals pid sigTerm) :
    StopReached k u pid (rt.stop k cg u).calls := by
  unfold UnitRuntime.stop
  rw [if_neg hd, Traced.bind_calls, UnitRuntime.quiesce_val]
  refine StopReached.mono ?_ (List.subset_append_right _ _)
  split
  · next hp' => cases hp.symm.trans hp'
  · next pid' hp' =>
    obtain rfl := Option.some.inj (hp.symm.trans hp')
    exact stopReached_stopProcess h

/-! ## The actions -/

theorem kept_request (hrt : m.get u = some rt) (v : UnitName) (target : JobTarget)
    (source : RequestSource) : Kept k m (m.request k v target source).1 u rt := by
  rcases UnitManager.get_request k m v target source u with
    h | ⟨rt', rfl, -, h', h⟩ | ⟨_, rfl, h', -⟩
  · exact .of_eq hrt h
  · obtain rfl := Option.some.inj (hrt.symm.trans h')
    exact kept_settle h
  · cases hrt.symm.trans h'

theorem kept_addWithInFlight (hrt : m.get u = some rt) (config : UnitConfig) (inFlight : Bool) :
    Kept k m (m.addWithInFlight config inFlight).1 u rt := by
  have hget := ReloadState.get_addWithInFlight m config inFlight u
  by_cases hu : config.name = u
  · rw [if_pos hu, hu, hrt] at hget
    exact kept_redefine hget
  · rw [if_neg hu] at hget
    exact .of_eq hrt hget

theorem kept_retireUnit (hrt : m.get u = some rt) (v : UnitName) : Kept k m (m.retire k v) u rt := by
  unfold UnitManager.retire
  dsimp only
  split
  · next rt' h =>
    have h' : m.get v = some rt' := h
    by_cases hv : v = u
    · subst hv
      obtain rfl := Option.some.inj (hrt.symm.trans h')
      exact kept_retire (by rw [UnitManager.invalidateGraph_get, UnitManager.get_put, if_pos rfl])
    · refine .of_eq hrt ?_
      rw [UnitManager.invalidateGraph_get, UnitManager.get_put, if_neg hv]
      rfl
  · exact .of_eq hrt rfl

theorem kept_pruneRetired (hrt : m.get u = some rt) (ht : Tracked rt) :
    Kept k m m.pruneRetired.1 u rt := by
  refine .of_eq hrt ?_
  rw [UnitManager.get_pruneRetired, hrt]
  simp [Option.filter, not_prunable_of_tracked ht]

theorem kept_removed {cg : Cgroup} (hget : m'.get u = some (rt.removed k cg u))
    (hsig : ∀ pid, rt.pid = some pid → k.Signals pid sigTerm)
    (hcalls : rt.isUp = true → rt.isStopped = true → Noted m m' (rt.stop k cg u).calls) :
    Kept k m m' u rt := by
  unfold UnitRuntime.removed at hget
  by_cases hup : rt.isUp = true
  · rw [if_pos hup] at hget
    by_cases hs : rt.isStopped = true
    · obtain ⟨hd, pid, hp⟩ := UnitRuntime.exists_pid_of_isStopped hup hs
      obtain ⟨extra, hextra, hsub⟩ := hcalls hup hs
      refine .stopped hget rfl hp ?_
      rw [hextra, List.drop_left]
      exact (stopReached_stop hd hp (hsig pid hp)).mono hsub
    · rw [UnitRuntime.stopped_of_not_isStopped k cg u (by simpa using hs)] at hget
      rcases rt.settle_eq .stopped with heq | ⟨heq, hst⟩ <;> rw [heq] at hget
      · exact kept_retire hget
      · refine .same hget rfl rfl rfl fun hd => ?_
        rw [hd] at hst
        simp [UnitState.isFailed] at hst
  · rw [if_neg hup] at hget
    exact kept_retire hget

theorem kept_reload {files : List UnitFile} {warnings : List String} {target : String}
    {starts : StartCoordinator} {activation : Activated} (hm : Reachable m)
    (hrt : m.get u = some rt) (ht : Tracked rt)
    (hsig : ∀ pid, rt.pid = some pid → k.Signals pid sigTerm) :
    Kept k m (ReloadState.reload k files warnings target
      { manager := m, starts := starts, activation := activation }).1.manager u rt := by
  let s : ReloadState := { manager := m, starts := starts, activation := activation }
  have hkeep : ReloadState.unpruned m u = some rt := by
    simp [ReloadState.unpruned, hrt, Option.filter, not_prunable_of_tracked ht]
  rcases ReloadState.reload_cases (k := k) (s := s) hm files warnings target with
    ⟨e, -, heq⟩ | ⟨plan, s', report, -, heq, hr⟩
  · rw [heq]
    exact .of_eq hrt rfl
  · rw [heq]
    have hget := hr.get u
    unfold ReloadState.reloaded at hget
    rw [hkeep] at hget
    cases hc : plan.configOf u with
    | some config =>
      rw [hc] at hget
      exact kept_redefine hget
    | none =>
      rw [hc] at hget
      dsimp only at hget
      by_cases hg : ReloadState.isGone m plan u = true
      · rw [if_pos hg] at hget
        exact kept_removed hget hsig fun hup hs => hr.stopped u rt hg hrt hup hs
      · rw [if_neg hg] at hget
        exact .same hget rfl rfl rfl id

/-- A control start changes no entry, or makes an instance. -/
theorem get_controlStart (k : Kernel) (m : UnitManager) (v : UnitName) :
    (∀ u, (controlStart k m v).1.get u = m.get u) ∧
      (m.unitExists v = true ∨ m.isTemplate v = true ∨ ∃ e, m.expand v = .error e) ∨
    m.unitExists v = false ∧ m.isTemplate v = false ∧ ∃ config, m.expand v = .ok config ∧
      ∀ u, (controlStart k m v).1.get u =
        if v = u then some (UnitRuntime.new config) else m.get u := by
  have resolve (m : UnitManager) (u : UnitName) : (ControlStart.new k m v).1.get u = m.get u := by
    rw [ReloadState.controlStart_new_fst, m.get_startOrder v u]
  rcases controlStart_cases k m v with ⟨hex, heq⟩ | ⟨-, ht, heq⟩ |
    ⟨hex, ht, ⟨⟨e, hi⟩, heq⟩ | ⟨m', hi, heq⟩⟩
  · rw [heq]
    exact .inl ⟨resolve m, .inl hex⟩
  · rw [heq]
    exact .inl ⟨fun _ => rfl, .inr (.inl ht)⟩
  · rw [heq]
    refine .inl ⟨fun _ => rfl, .inr (.inr ?_)⟩
    unfold UnitManager.instantiate at hi
    split at hi
    · next e' he => exact ⟨e', he⟩
    · cases hi
  · obtain ⟨config, hc, hget⟩ := UnitManager.get_instantiate hi
    rw [heq]
    exact .inr ⟨hex, ht, config, hc, fun u => (resolve m' u).trans (hget u)⟩

/-- A new entry does not stand in for one that tracks a process. -/
theorem not_kept_new {config : UnitConfig} (hget : m'.get u = some (UnitRuntime.new config))
    (ht : Tracked rt) : ¬Kept k m m' u rt := by
  intro hk
  cases hk with
  | same hrt hp he _ hd =>
    obtain rfl := Option.some.inj (hget.symm.trans hrt)
    rcases ht with ht | ht | ht
    · rw [← hp] at ht
      cases ht
    · rw [← he] at ht
      cases ht
    · cases hd ht
  | stopped hrt hret =>
    obtain rfl := Option.some.inj (hget.symm.trans hrt)
    cases hret

/-- No entry that tracks a process is forgotten, unless the action makes an instance over
it. -/
theorem kept_iff (hm : Reachable m)
    (hsig : ∀ u rt pid, m.get u = some rt → rt.pid = some pid → k.Signals pid sigTerm)
    (a : Action) : (∀ u rt, m.get u = some rt → Tracked rt → Kept k m (a.run k m) u rt) ↔
      ¬Replaces m a := by
  cases a with
  | add config => exact iff_of_true (fun u rt hrt _ => kept_addWithInFlight hrt config false) id
  | addWithInFlight config inFlight =>
    exact iff_of_true (fun u rt hrt _ => kept_addWithInFlight hrt config inFlight) id
  | requestStart v source =>
    exact iff_of_true (fun u rt hrt _ => kept_request hrt v .started source) id
  | requestStop v source =>
    exact iff_of_true (fun u rt hrt _ => kept_request hrt v .stopped source) id
  | retire v => exact iff_of_true (fun u rt hrt _ => kept_retireUnit hrt v) id
  | pruneRetired => exact iff_of_true (fun u rt hrt ht => kept_pruneRetired hrt ht) id
  | reload files warnings target starts activation =>
    exact iff_of_true (fun u rt hrt ht => kept_reload hm hrt ht fun pid => hsig u rt pid hrt) id
  | instantiate v =>
    have hrun : Action.run k m (.instantiate v) = (m.instantiate v).toOption.getD m := rfl
    rw [hrun]
    cases hi : m.instantiate v with
    | error e =>
      refine iff_of_true (fun u rt hrt _ => .of_eq hrt rfl) ?_
      rintro ⟨_, config, -, -, hc⟩
      simp [UnitManager.instantiate, hc] at hi
    | ok m' =>
      obtain ⟨config, hc, hget⟩ := UnitManager.get_instantiate hi
      refine ⟨?_, fun hno u rt hrt ht => ?_⟩
      · rintro hall ⟨rt, _, hrt, ht, -⟩
        exact not_kept_new ((hget v).trans (if_pos rfl)) ht (hall v rt hrt ht)
      · refine .of_eq hrt ((hget u).trans (if_neg ?_))
        rintro rfl
        exact hno ⟨rt, config, hrt, ht, hc⟩
  | controlStart v =>
    have hrun : Action.run k m (.controlStart v) = (controlStart k m v).1 := rfl
    rw [hrun]
    rcases get_controlStart k m v with ⟨hget, hwhy⟩ | ⟨hex, htemplate, config, hc, hget⟩
    · refine iff_of_true (fun u rt hrt _ => .of_eq hrt (hget u)) ?_
      rintro ⟨rt, config, hrt, -, hc, hret, htemplate⟩
      rcases hwhy with h | h | ⟨e, h⟩
      · simp [UnitManager.unitExists, hrt, hret] at h
      · simp [htemplate] at h
      · cases hc.symm.trans h
    · refine ⟨?_, fun hno u rt hrt ht => ?_⟩
      · rintro hall ⟨rt, _, hrt, ht, -⟩
        exact not_kept_new ((hget v).trans (if_pos rfl)) ht (hall v rt hrt ht)
      · refine .of_eq hrt ((hget u).trans (if_neg ?_))
        rintro rfl
        exact hno ⟨rt, config, hrt, ht, hc, by simpa [UnitManager.unitExists, hrt] using hex,
          htemplate⟩

end

/-! ## Concrete runs -/

/-- A service that is up stays tracked when its unit file goes. -/
theorem kept_up : (∀ u rt, up.get u = some rt → Tracked rt →
    Kept (.granting 1 10) up (Action.run (.granting 1 10) up (.retire serviceA)) u rt) ↔
      ¬Replaces up (.retire serviceA) := by
  refine kept_iff reachable_up (fun u rt pid hrt hp => ?_) _
  have hall : up.units.toList.all (fun e => e.2.pid.all fun pid => 1 < pid && pid ≠ 1) = true := by
    decide
  have hpid := List.all_eq_true.mp hall (u, rt)
    (Std.ExtTreeMap.mem_toList_iff_getElem?_eq_some.mpr hrt)
  rw [hp, Option.all_some, Bool.and_eq_true, decide_eq_true_eq, decide_eq_true_eq] at hpid
  exact ⟨hpid, fun e he => (by cases he), fun target e he => (by cases he)⟩

/-- The templates of a directory with one template. -/
def workerTemplate : Std.ExtTreeMap String String compare :=
  Std.ExtTreeMap.empty.insert "t@.service" "[Service]\nExecStart=/bin/t\n"

/-- An instance is started, its template goes, and the template comes back while the process
of the instance is still on its way out. -/
def instanceStopping : UnitManager :=
  ({} : UnitManager).apply (.granting 0 10) (.setTemplates workerTemplate)
    |>.apply (.granting 0 10) (.instantiate instanceT)
    |>.apply (.granting 0 10) (.beginSpawnUnit instanceT)
    |>.apply (.granting 1 10) (.stopUnit instanceT)
    |>.apply (.granting 1 10) (.retire instanceT)
    |>.apply (.granting 2 10) (.setTemplates workerTemplate)

/-- A start of the instance forgets the process : its pid is in no entry any more. -/
theorem not_kept_instanceStopping : Reachable instanceStopping ∧
    (instanceStopping.get instanceT).any (fun rt => rt.pid = some 10 && rt.killAt.isSome &&
      rt.state = .deactivating) = true ∧
    (Action.run (.granting 3 10) instanceStopping (.controlStart instanceT)).ownsChild 10 = false ∧
    ¬∀ u rt, instanceStopping.get u = some rt → Tracked rt → Kept (.granting 3 10) instanceStopping
      (Action.run (.granting 3 10) instanceStopping (.controlStart instanceT)) u rt := by
  have hentry : (instanceStopping.get instanceT).any (fun rt => rt.pid = some 10 &&
      rt.killAt.isSome && rt.state = .deactivating) = true := by decide
  have hnew : ((Action.run (.granting 3 10) instanceStopping (.controlStart instanceT)).get
      instanceT).any (fun rt => rt.pid.isNone && !rt.retired) = true := by decide
  refine ⟨?_, hentry, by decide, fun hall => ?_⟩
  · exact .step _ _ (.step _ _ (.step _ _ (.step _ _ (.step _ _ (.step _ _ .new trivial) trivial)
      trivial) trivial) trivial) trivial
  · obtain ⟨rt, hrt, hst⟩ := (Option.any_eq_true _ _).mp hentry
    obtain ⟨rt', hrt', hst'⟩ := (Option.any_eq_true _ _).mp hnew
    simp only [Bool.and_eq_true, decide_eq_true_eq, Option.isNone_iff_eq_none,
      Bool.not_eq_true'] at hst hst'
    cases hall instanceT rt hrt (.inl (by simp [hst.1.1])) with
    | same h hp =>
      obtain rfl := Option.some.inj (hrt'.symm.trans h)
      cases hst'.1.symm.trans (hp.trans hst.1.1)
    | stopped h hret =>
      obtain rfl := Option.some.inj (hrt'.symm.trans h)
      cases hst'.2.symm.trans hret

end Rinit
