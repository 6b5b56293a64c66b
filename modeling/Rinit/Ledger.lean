import Rinit.Sent

/-!
# The processes of the units

`ProcessTable` is what the kernel knows : for which unit the process with a pid was made. A
process stays until the manager is told of its exit; a fork never gives the pid of a process
that is still there.
-/

namespace Rinit

open UnitRuntime (Acted)

/-- What is done for every unit on the way from `m` to `m'`. -/
def Did (k : Kernel) (m m' : UnitManager) : Prop :=
  ∃ (sent : UnitName → List Call) (calls : List Call), m'.calls = m.calls ++ calls ∧
    (∀ c, c ∈ calls ↔ ∃ v, c ∈ sent v) ∧
    ∀ v, (m.get v = none ∧ m'.get v = none ∧ sent v = []) ∨
      ∃ rt rt', m.get v = some rt ∧ m'.get v = some rt' ∧ Acted k v rt rt' (sent v)

namespace Did

variable {k : Kernel} {m m₁ m' : UnitManager} {u : UnitName}

theorem trans (h : Did k m m₁) (h' : Did k m₁ m') : Did k m m' := by
  obtain ⟨sent, calls, hc, hmem, hu⟩ := h
  obtain ⟨sent', calls', hc', hmem', hu'⟩ := h'
  refine ⟨fun v => sent v ++ sent' v, calls ++ calls', by rw [hc', hc, List.append_assoc],
    fun c => ?_, fun v => ?_⟩
  · rw [List.mem_append, hmem, hmem', ← exists_or]
    exact exists_congr fun v => List.mem_append.symm
  · rcases hu v with ⟨hn, hn₁, hs⟩ | ⟨rt, rt₁, hrt, hrt₁, ha⟩
    · rcases hu' v with ⟨-, hn', hs'⟩ | ⟨rt, _, hrt, -⟩
      · exact .inl ⟨hn, hn', by simp [hs, hs']⟩
      · cases hn₁.symm.trans hrt
    · rcases hu' v with ⟨hn₁, -⟩ | ⟨rt₂, rt', hrt₂, hrt', ha'⟩
      · cases hn₁.symm.trans hrt₁
      · obtain rfl := Option.some.inj (hrt₁.symm.trans hrt₂)
        exact .inr ⟨rt, rt', hrt, hrt', ha.trans ha'⟩

/-- Nothing reaches out, and every unit keeps its processes or loses some. -/
theorem quiet (hc : m'.calls = m.calls)
    (h : ∀ v, (m.get v = none ∧ m'.get v = none) ∨
      ∃ rt rt', m.get v = some rt ∧ m'.get v = some rt' ∧ Acted k v rt rt' []) : Did k m m' := by
  refine ⟨fun _ => [], [], by rw [hc, List.append_nil], by simp, fun v => ?_⟩
  rcases h v with ⟨hn, hn'⟩ | h
  · exact .inl ⟨hn, hn', rfl⟩
  · exact .inr h

theorem of_get (hc : m'.calls = m.calls) (h : ∀ v, m'.get v = m.get v) : Did k m m' := by
  refine .quiet hc fun v => ?_
  cases hv : m.get v with
  | none => exact .inl ⟨rfl, (h v).trans hv⟩
  | some rt => exact .inr ⟨rt, rt, rfl, (h v).trans hv, .refl rt⟩

theorem put {rt : UnitRuntime} {x : Traced UnitRuntime} (hrt : m.get u = some rt)
    (h : Acted k u rt x.val x.calls) : Did k m (m.put u x) := by
  refine ⟨fun v => if u = v then x.calls else [], x.calls, rfl, fun c => ?_, fun v => ?_⟩
  · refine ⟨fun hc => ⟨u, by simpa using hc⟩, ?_⟩
    rintro ⟨v, hc⟩
    dsimp only at hc
    split at hc
    · exact hc
    · cases hc
  · rw [UnitManager.get_put]
    dsimp only
    by_cases huv : u = v
    · subst huv
      exact .inr ⟨rt, x.val, hrt, if_pos rfl, by rwa [if_pos rfl]⟩
    · rw [if_neg huv, if_neg huv]
      cases hv : m.get v with
      | none => exact .inl ⟨rfl, rfl, rfl⟩
      | some rt => exact .inr ⟨rt, rt, rfl, rfl, .refl rt⟩

theorem refl (m : UnitManager) : Did k m m := .of_get rfl fun _ => rfl

theorem update {f : UnitRuntime → Traced UnitRuntime}
    (h : ∀ rt, Acted k u rt (f rt).val (f rt).calls) : Did k m (m.update u f) := by
  unfold UnitManager.update
  split
  · next rt hrt => exact .put hrt (h rt)
  · exact .refl m

theorem modify {f : UnitRuntime → UnitRuntime} (h : ∀ rt, Acted k u rt (f rt) []) :
    Did k m (m.modify u f) :=
  .update h

theorem pass {f : UnitName → UnitRuntime → Traced (UnitRuntime × Bool)}
    (h : ∀ v rt, Acted k v rt (f v rt).val.1 (f v rt).calls) : Did k m (m.pass f).1 := by
  refine ⟨fun v => ((m.get v).map fun rt => (f v rt).calls).getD [], _, rfl, fun c => ?_,
    fun v => ?_⟩
  · rw [List.mem_flatMap]
    dsimp only
    constructor
    · rintro ⟨⟨v, rt⟩, he, hc⟩
      have hrt : m.get v = some rt := Std.ExtTreeMap.mem_toList_iff_getElem?_eq_some.mp he
      exact ⟨v, by rwa [hrt]⟩
    · rintro ⟨v, hc⟩
      cases hrt : m.get v with
      | none => rw [hrt] at hc; cases hc
      | some rt =>
        rw [hrt] at hc
        exact ⟨(v, rt), Std.ExtTreeMap.mem_toList_iff_getElem?_eq_some.mpr hrt, hc⟩
  · rw [UnitManager.get_pass]
    dsimp only
    cases hrt : m.get v with
    | none => exact .inl ⟨rfl, rfl, rfl⟩
    | some rt => exact .inr ⟨rt, _, rfl, rfl, h v rt⟩

end Did

/-! ## Operations that reach out -/

section Operations

variable {k : Kernel} {m : UnitManager} {u : UnitName} {rt rt' : UnitRuntime} {op : Op}

theorem calls_submitRequest (k : Kernel) (m : UnitManager) (u : UnitName) (target : JobTarget)
    (source : RequestSource) : (m.submitRequest k u target source).1.calls = m.calls := by
  have hforget : (m.forgetSpentTarget u).calls = m.calls := by
    unfold UnitManager.forgetSpentTarget
    split <;> rfl
  have hnone (m : UnitManager) : (m.applyNoneTransition u).calls = m.calls := by
    unfold UnitManager.applyNoneTransition UnitManager.modify UnitManager.update
    split
    · split
      · split
        · simp [UnitManager.put]
        · rfl
      · rfl
    · rfl
  unfold UnitManager.submitRequest
  dsimp only
  split
  · exact (hnone _).trans hforget
  · exact hforget

theorem calls_request (k : Kernel) (m : UnitManager) (u : UnitName) (target : JobTarget)
    (source : RequestSource) : (m.request k u target source).1.calls = m.calls := by
  unfold UnitManager.request UnitManager.instantiate
  split
  · exact calls_submitRequest ..
  · split
    · rfl
    · next h =>
      split at h
      · cases h
      · obtain rfl := Except.ok.inj h
        exact calls_submitRequest ..

theorem acted_settle (target : JobTarget) (rt : UnitRuntime) :
    Acted k u rt (rt.settle target) [] := by
  rcases rt.settle_eq target with heq | ⟨heq, -⟩ <;> rw [heq] <;>
    exact .of_le (.inl rfl) (.inl rfl) (.inl rfl) (.inl rfl)

theorem acted_dragDown (rt : UnitRuntime) : Acted k u rt rt.dragDown [] := by
  unfold UnitRuntime.dragDown
  split <;> exact .of_le (.inl rfl) (.inl rfl) (.inl rfl) (.inl rfl)

theorem did_requestStop (hrt : m.get u = some rt) (source : RequestSource) :
    Did k m (m.requestStop k u source).1 := by
  refine .quiet (calls_request ..) fun v => ?_
  have hget := UnitManager.get_request k m u .stopped source v
  unfold UnitManager.requestStop
  rcases hget with h | ⟨rt, rfl, -, hrt', h⟩ | ⟨_, rfl, hn, -⟩
  · rw [h]
    cases hv : m.get v with
    | none => exact .inl ⟨rfl, rfl⟩
    | some rt => exact .inr ⟨rt, rt, rfl, rfl, .refl rt⟩
  · exact .inr ⟨rt, _, hrt', h, acted_settle .stopped rt⟩
  · cases hrt.symm.trans hn

theorem did_stopConflict (k : Kernel) (m : UnitManager) (other : UnitName) :
    Did k m (m.stopConflict k other).1 := by
  unfold UnitManager.stopConflict
  split
  · next hn =>
    obtain ⟨rt, hrt, -⟩ := (Option.any_eq_true _ _).mp hn
    exact (did_requestStop hrt .userStop).trans (.update fun rt => rt.acted_stop k _ other)
  · exact .refl m

theorem did_stopConflicts (k : Kernel) (m : UnitManager) (u : UnitName) :
    Did k m (m.stopConflicts k u).1 := by
  unfold UnitManager.stopConflicts
  split
  · exact .refl m
  · exact Runs.foldl_induction (P := fun _ (s : UnitManager × List UnitName) => Did k m s.1)
      (.refl m) fun _ other _ s _ h => h.trans (did_stopConflict k s.1 other)

theorem did_restartUnit (k : Kernel) (m : UnitManager) (u : UnitName) :
    Did k m (m.restartUnit k u).1 := by
  rcases UnitManager.restartUnit_cases k m u with heq | ⟨-, heq | ⟨-, heq⟩⟩ <;> rw [heq]
  · exact .refl m
  · exact .update fun rt => rt.acted_stop k _ u
  · exact Did.trans (.update fun rt => rt.acted_stop k _ u)
      (.modify fun _ => .of_le (.inl rfl) (.inl rfl) (.inl rfl) (.inl rfl))

theorem did_failStart (k : Kernel) (m : UnitManager) (u : UnitName) :
    Did k m (m.failStart k u).1 := by
  refine Did.trans (.update fun rt => rt.acted_failOwn k m.cgroup u) (.quiet rfl fun v => ?_)
  rw [UnitManager.failStart, UnitManager.get_cascade _ u v fun _ => UnitManager.isFailed_of_failOwn]
  cases hv : (m.update u (·.failOwn k m.cgroup u)).get v with
  | none =>
    refine .inl ⟨rfl, ?_⟩
    split <;> rfl
  | some rt =>
    refine .inr ?_
    split
    · exact ⟨rt, _, rfl, rfl, acted_dragDown rt⟩
    · exact ⟨rt, rt, rfl, rfl, .refl rt⟩

theorem did_reachTarget (k : Kernel) (m : UnitManager) (u : UnitName) :
    Did k m (m.reachTarget k u).1 := by
  unfold UnitManager.reachTarget
  split
  · exact .refl m
  · split
    · exact did_failStart k m u
    · exact .modify fun _ => .of_le (.inl rfl) (.inl rfl) (.inl rfl) (.inl rfl)

theorem did_retire (k : Kernel) (m : UnitManager) (u : UnitName) : Did k m (m.retire k u) := by
  have herase : Did k m { m with queuedStarts := m.queuedStarts.erase u } :=
    .of_get rfl fun _ => rfl
  refine herase.trans ?_
  unfold UnitManager.retire
  dsimp only
  split
  · next rt hrt =>
    exact Did.trans (.put hrt (rt.acted_retire k u)) (.of_get rfl fun _ => rfl)
  · exact .refl _

theorem did_beginSpawnUnit (k : Kernel) (m : UnitManager) (u : UnitName) :
    Did k m (m.beginSpawnUnit k u).1 := by
  unfold UnitManager.beginSpawnUnit
  split
  · exact .refl m
  · next rt hrt => exact .put hrt (rt.acted_beginSpawn k m.cgroup u)

/-- The units without a process that has exited. -/
def UnitManager.without (m : UnitManager) (pid : Pid) : UnitManager :=
  { m with units := m.units.map fun _ rt => rt.without pid }

@[simp] theorem UnitManager.get_without (m : UnitManager) (pid : Pid) (v : UnitName) :
    (m.without pid).get v = (m.get v).map (·.without pid) := by
  simp [UnitManager.without, UnitManager.get, Std.ExtTreeMap.getElem?_map]

/-- The unit that records the exited process is changed, and all others are as they were. -/
theorem did_exit {pid : Pid} {m' : UnitManager} {calls : List Call}
    (hc : m'.calls = m.calls ++ calls) (hrt : m.get u = some rt) (hrt' : m'.get u = some rt')
    (hother : ∀ v, v ≠ u → m'.get v = m.get v)
    (hfree : ∀ v rt, v ≠ u → m.get v = some rt → ¬rt.Has pid)
    (h : Acted k u (rt.without pid) rt' calls) : Did k (m.without pid) m' := by
  refine ⟨fun v => if u = v then calls else [], calls, hc, fun c => ?_, fun v => ?_⟩
  · refine ⟨fun hc => ⟨u, by simpa using hc⟩, ?_⟩
    rintro ⟨v, hc⟩
    dsimp only at hc
    split at hc
    · exact hc
    · cases hc
  · rw [UnitManager.get_without]
    dsimp only
    by_cases huv : u = v
    · subst huv
      exact .inr ⟨_, rt', by rw [hrt, Option.map_some], hrt', by rwa [if_pos rfl]⟩
    · rw [if_neg huv, hother v (Ne.symm huv)]
      cases hv : m.get v with
      | none => exact .inl ⟨rfl, rfl, rfl⟩
      | some rt₁ =>
        have hnot := hfree v rt₁ (Ne.symm huv) hv
        refine .inr ⟨_, rt₁, rfl, rfl, UnitRuntime.acted_without (.inl ⟨?_, rfl⟩) (.inl ⟨?_, rfl⟩)
          (.inl ⟨?_, rfl⟩) rfl⟩
        · exact fun h => hnot (UnitRuntime.has_main h)
        · exact fun h => hnot (UnitRuntime.has_probe h)
        · exact fun h => hnot (UnitRuntime.has_stopCommand h)

/-- An exit is an adoption, which makes no call, or it makes its calls for the units, none of
them for the process that has exited. -/
theorem did_onChildExit (h : OneOwner m) (k : Kernel) (pid : Pid) (outcome : ExitOutcome) :
    Did k (m.without pid) (m.onChildExit k pid outcome).1 ∨
    ∃ u rt daemon, m.Adopts k (.onChildExit pid outcome) u daemon ∧ m.get u = some rt ∧
      (∀ role, rt.pidIn role = some pid → role = .main) ∧
      (∀ v rt, v ≠ u → m.get v = some rt → ¬rt.Has pid) ∧
      (m.onChildExit k pid outcome).1 = m.put u (pure (rt.markDaemonStarted k daemon)) := by
  -- the unit and the role the exit is taken for, and no other
  have only {u : UnitName} {rt : UnitRuntime} {role : ProcessRole} (hrt : m.get u = some rt)
      (hrole : rt.pidIn role = some pid) :
      (∀ v rt, v ≠ u → m.get v = some rt → ¬rt.Has pid) ∧
        ∀ role', rt.pidIn role' = some pid → role' = role := by
    refine ⟨fun v rt' hv hrt' => ?_, fun role' hrole' => ?_⟩
    · rintro ⟨role', hrole'⟩
      exact hv (h pid v u role' role ⟨rt', hrt', hrole'⟩ ⟨rt, hrt, hrole⟩).1
    · exact (h pid u u role' role ⟨rt, hrt, hrole'⟩ ⟨rt, hrt, hrole⟩).2
  have update {u : UnitName} {rt : UnitRuntime} {role : ProcessRole} (hrt : m.get u = some rt)
      (hrole : rt.pidIn role = some pid) {f : UnitRuntime → Traced UnitRuntime}
      (hf : Acted k u (rt.without pid) (f rt).val (f rt).calls) :
      Did k (m.without pid) (m.update u f) := by
    have heq : m.update u f = m.put u (f rt) := by rw [UnitManager.update, hrt]
    rw [heq]
    exact did_exit rfl hrt (by rw [UnitManager.get_put, if_pos rfl])
      (fun v hv => by rw [UnitManager.get_put, if_neg (Ne.symm hv)]) (only hrt hrole).1 hf
  unfold UnitManager.onChildExit
  split
  · next u hu =>
    obtain ⟨rt, hrt, hp⟩ := UnitManager.owner_eq_some hu
    have hrole : rt.pidIn .healthProbe = some pid := of_decide_eq_true hp
    refine .inl (update hrt hrole (.after (rt.acted_finishProbe k m.cgroup u outcome) ?_))
    refine UnitRuntime.acted_without (.inl ⟨fun hm => ?_, rfl⟩) (.inr rfl)
      (.inl ⟨fun hs => ?_, rfl⟩) rfl
    · cases (only hrt hrole).2 .main hm
    · cases (only hrt hrole).2 .stopCommand hs
  · next hprobe =>
    split
    · next u hu =>
      obtain ⟨rt, hrt, hp⟩ := UnitManager.owner_eq_some hu
      have hrole : rt.pidIn .stopCommand = some pid := of_decide_eq_true hp
      refine .inl (update hrt hrole (.after (rt.acted_execStopExit k m.cgroup u outcome) ?_))
      refine UnitRuntime.acted_without (.inl ⟨fun hm => ?_, rfl⟩) (.inl ⟨fun hq => ?_, rfl⟩)
        (.inr rfl) rfl
      · cases (only hrt hrole).2 .main hm
      · cases (only hrt hrole).2 .healthProbe hq
    · next hexec =>
      split
      · next hmain =>
        refine .inl (.quiet rfl fun v => ?_)
        rw [UnitManager.get_without]
        cases hv : m.get v with
        | none => exact .inl ⟨rfl, rfl⟩
        | some rt =>
          refine .inr ⟨_, rt, rfl, rfl, UnitRuntime.acted_without (.inl ⟨?_, rfl⟩)
            (.inl ⟨?_, rfl⟩) (.inl ⟨?_, rfl⟩) rfl⟩
          · exact fun hp => of_decide_eq_false (UnitManager.owner_eq_none hmain hv) hp
          · exact fun hp => of_decide_eq_false (UnitManager.owner_eq_none hprobe hv) hp
          · exact fun hp => of_decide_eq_false (UnitManager.owner_eq_none hexec hv) hp
      · next u hmain =>
        obtain ⟨rt, hrt, hp⟩ := UnitManager.ExitsMain.get ⟨hprobe, hexec, hmain⟩
        obtain ⟨hfree, honly⟩ := only hrt (show rt.pidIn .main = some pid from hp)
        rw [hrt]
        dsimp only
        unfold UnitManager.onMainExit
        split
        · next daemon hd =>
          exact .inr ⟨u, rt, daemon, ⟨pid, outcome, rfl, ⟨hprobe, hexec, hmain⟩, rt, hrt, hd⟩,
            hrt, honly, hfree, rfl⟩
        · refine .inl ?_
          dsimp only
          have hput : Did k (m.without pid)
              (m.put u ⟨(rt.mainExit k m.bootInProgress pid outcome).val.1,
                (rt.mainExit k m.bootInProgress pid outcome).calls⟩) := by
            refine did_exit rfl hrt (by rw [UnitManager.get_put, if_pos rfl])
              (fun v hv => by rw [UnitManager.get_put, if_neg (Ne.symm hv)]) hfree
              (.after (rt.acted_mainExit k u m.bootInProgress pid outcome) ?_)
            refine UnitRuntime.acted_without (.inr rfl) (.inl ⟨fun hq => ?_, rfl⟩)
              (.inl ⟨fun hs => ?_, rfl⟩) rfl
            · cases honly .healthProbe hq
            · cases honly .stopCommand hs
          split
          · exact hput.trans (did_failStart k _ u)
          · exact hput

/-- The operations that make no system call of their own. -/
def Op.Quiet : Op → Prop
  | .retire _ | .stopUnit _ | .restartUnit _ | .stopConflicts _ | .failStart _ | .reachTarget _
  | .beginSpawnUnit _ | .onChildExit _ _ | .dueStartTimeouts | .dueKills | .dueHealthProbes
  | .dueProbeTimeouts | .note _ => False
  | _ => True

theorem calls_of_quiet (k : Kernel) (m : UnitManager) (hq : op.Quiet) :
    (m.apply k op).calls = m.calls := by
  have hmodify (m : UnitManager) (u : UnitName) (f : UnitRuntime → UnitRuntime) :
      (m.modify u f).calls = m.calls := by
    unfold UnitManager.modify UnitManager.update
    split
    · exact List.append_nil _
    · rfl
  have hpass (f : UnitRuntime → UnitRuntime × Bool) :
      (m.pass fun _ rt => pure (f rt)).1.calls = m.calls := by
    simp [UnitManager.pass]
  cases op with
  | retire | stopUnit | restartUnit | stopConflicts | failStart | reachTarget | beginSpawnUnit
  | onChildExit | dueStartTimeouts | dueKills | dueHealthProbes | dueProbeTimeouts | note =>
    exact hq.elim
  | addWithInFlight config inFlight =>
    change (m.addWithInFlight config inFlight).1.calls = m.calls
    unfold UnitManager.addWithInFlight
    split
    · rfl
    · dsimp only
      split <;> exact List.append_nil _
  | instantiate u =>
    change ((m.instantiate u).toOption.getD m).calls = m.calls
    unfold UnitManager.instantiate
    split <;> rfl
  | pruneRetired =>
    change m.pruneRetired.1.calls = m.calls
    unfold UnitManager.pruneRetired
    dsimp only
    split <;> rfl
  | adoptPendingConfig u =>
    change (m.adoptPendingConfig u).calls = m.calls
    unfold UnitManager.adoptPendingConfig
    split
    · exact List.append_nil _
    · rfl
  | startOrder u =>
    have hgraph : m.graph.1.calls = m.calls := by
      unfold UnitManager.graph UnitManager.graph.rebuild
      repeat' split
      all_goals rfl
    change (m.startOrder u).1.calls = m.calls
    unfold UnitManager.startOrder
    split <;> simp_all
  | requestStart u source => exact calls_request ..
  | requestStop u source => exact calls_request ..
  | dueQueuedStarts =>
    change (m.dueQueuedStarts k).1.calls = m.calls
    unfold UnitManager.dueQueuedStarts
    refine Runs.foldl_induction (P := fun _ (s : UnitManager × List UnitName) =>
      s.1.calls = m.calls) rfl fun _ e _ s _ h => ?_
    refine Eq.trans ?_ h
    change (s.1.dueQueuedStart k e.1 e.2).1.calls = s.1.calls
    unfold UnitManager.dueQueuedStart
    split
    · rfl
    · split
      · rfl
      · exact calls_request ..
  | resetFailed | clearStartLimit | capStartDeadline | noteConnection => exact hmodify ..
  | compressStopTimeouts | setTemplates | setListeners | setShutdownOrder | setCgroup
  | setBootInProgress => rfl
  | onNotify u message =>
    change (m.onNotify k u message).1.calls = m.calls
    unfold UnitManager.onNotify
    split
    · rfl
    · exact List.append_nil _
  | dueIdleUnits => exact hpass ..
  | dueRestarts => exact hpass ..

/-- A quiet touch gives a unit no process. -/
theorem acted_touch (hq : op.Quiet) (ht : Touch k m u op rt rt') : Acted k u rt rt' [] := by
  cases ht with
  | @redefine config inFlight =>
    obtain ⟨_, _, _, heq, -⟩ := rt.redefine_eq config inFlight
    exact heq ▸ .of_le (.inl rfl) (.inl rfl) (.inl rfl) (.inl rfl)
  | adopt =>
    rcases rt.adoptPendingConfig_eq with heq | ⟨_, _, -, -, heq⟩ <;> rw [heq] <;>
      exact .of_le (.inl rfl) (.inl rfl) (.inl rfl) (.inl rfl)
  | settle => exact acted_settle ..
  | dragDown => exact acted_dragDown rt
  | resetFailed | clearStartLimit | compress | capStartDeadline | noteConnection =>
    exact .of_le (.inl rfl) (.inl rfl) (.inl rfl) (.inl rfl)
  | onNotify message =>
    rcases rt.onNotify_eq k message with ⟨_, heq⟩ | ⟨_, _, _, _, _, -, heq⟩ <;> rw [heq] <;>
      exact .of_le (.inl rfl) (.inl rfl) (.inl rfl) (.inl rfl)
  | dueIdle =>
    obtain ⟨_, heq⟩ := rt.dueIdle_eq k
    exact heq ▸ .of_le (.inl rfl) (.inl rfl) (.inl rfl) (.inl rfl)
  | dueRestart =>
    obtain ⟨_, heq, -⟩ := rt.dueRestart_eq k
    exact heq ▸ .of_le (.inl rfl) (.inl rfl) (.inl rfl) (.inl rfl)
  | _ => exact hq.elim

/-- The operation is not the exit of the process. -/
def Op.Spares (op : Op) (pid : Pid) : Prop := ∀ outcome, op ≠ .onChildExit pid outcome

/-- The calls of an operation, and the processes and groups it leaves the units with. -/
structure Sends (k : Kernel) (m : UnitManager) (op : Op) (calls : List Call) : Prop where
  trace : (m.apply k op).calls = m.calls ++ calls
  kills : ∀ target signal ok, .kill target signal ok ∈ calls →
    (signal = sigTerm ∨ signal = sigKill) ∧ ∃ u rt, m.get u = some rt ∧
      Aimed k u (fun pid => (rt.Has pid ∧ op.Spares pid) ∨ Forked calls u pid) rt.Led target
  forks : ∀ u pid, Forked calls u pid → (∃ pending, k.spawn u = .ok (pid, pending)) ∨
    ∃ c, k.spawnDetached u c = .ok pid
  records : ∀ u rt', (m.apply k op).get u = some rt' → ∀ pid, rt'.Has pid →
    (∃ rt, m.get u = some rt ∧ rt.Has pid ∧ op.Spares pid) ∨ Forked calls u pid ∨
      m.Adopts k op u pid
  groups : ∀ u rt', (m.apply k op).get u = some rt' → ∀ pgid, rt'.Led pgid →
    (∃ rt, m.get u = some rt ∧ (rt.Led pgid ∨ rt.Has pgid)) ∨ Forked calls u pgid ∨
      m.Adopts k op u pgid

/-- An operation that makes its calls for the units, from a state in which they have nothing
but what they have now and the operation spares. -/
theorem sends_of_did {m₀ : UnitManager} (hc : m₀.calls = m.calls) (hd : Did k m₀ (m.apply k op))
    (h : ∀ u rt₀, m₀.get u = some rt₀ → ∃ rt, m.get u = some rt ∧
      (∀ pid, rt₀.Has pid → rt.Has pid ∧ op.Spares pid) ∧ ∀ pgid, rt₀.Led pgid → rt.Led pgid) :
    ∃ calls, Sends k m op calls := by
  obtain ⟨sent, calls, hcalls, hmem, hu⟩ := hd
  have whole {v : UnitName} {pid : Pid} (hf : Forked (sent v) v pid) : Forked calls v pid :=
    hf.imp (fun hc => (hmem _).mpr ⟨v, hc⟩) fun hc => (hmem _).mpr ⟨v, hc⟩
  have acted {c : Call} (hc : c ∈ calls) : ∃ v rt₀ rt', m₀.get v = some rt₀ ∧
      Acted k v rt₀ rt' (sent v) ∧ c ∈ sent v := by
    obtain ⟨v, hv⟩ := (hmem c).mp hc
    rcases hu v with ⟨-, -, hs⟩ | ⟨rt₀, rt', hrt₀, -, ha⟩
    · rw [hs] at hv
      cases hv
    · exact ⟨v, rt₀, rt', hrt₀, ha, hv⟩
  refine ⟨calls, by rw [hcalls, hc], fun target signal ok hc => ?_, fun u pid hf => ?_,
    fun u rt' hrt' pid hp => ?_, fun u rt' hrt' pgid hg => ?_⟩
  · obtain ⟨v, rt₀, rt', hrt₀, ha, hv⟩ := acted hc
    obtain ⟨hs, haim⟩ := ha.kills target signal ok hv
    obtain ⟨rt, hrt, hhas, hled⟩ := h v rt₀ hrt₀
    exact ⟨hs, v, rt, hrt, haim.mono (fun pid hp => hp.imp (hhas pid) whole)
      fun pgid hg => .inr (hled pgid hg)⟩
  · rcases hf with hf | hf
    · obtain ⟨v, _, _, _, ha, hv⟩ := acted hf
      obtain ⟨rfl, hs⟩ := ha.spawns u pid hv
      exact .inl hs
    · obtain ⟨v, _, _, _, ha, hv⟩ := acted hf
      obtain ⟨rfl, hs⟩ := ha.commands u pid hv
      exact .inr hs
  · rcases hu u with ⟨-, hn, -⟩ | ⟨rt₀, rt₁, hrt₀, hrt₁, ha⟩
    · cases hn.symm.trans hrt'
    · obtain rfl := Option.some.inj (hrt'.symm.trans hrt₁)
      obtain ⟨rt, hrt, hhas, -⟩ := h u rt₀ hrt₀
      exact (ha.records pid hp).imp (fun hp => ⟨rt, hrt, hhas pid hp⟩) fun hf => .inl (whole hf)
  · rcases hu u with ⟨-, hn, -⟩ | ⟨rt₀, rt₁, hrt₀, hrt₁, ha⟩
    · cases hn.symm.trans hrt'
    · obtain rfl := Option.some.inj (hrt'.symm.trans hrt₁)
      obtain ⟨rt, hrt, hhas, hled⟩ := h u rt₀ hrt₀
      rcases ha.groups pgid hg with hg | hg | hg
      · exact .inl ⟨rt, hrt, .inl (hled pgid hg)⟩
      · exact .inl ⟨rt, hrt, .inr (hhas pgid hg).1⟩
      · exact .inr (.inl (whole hg))

theorem sends_of_spares (hd : Did k m (m.apply k op)) (hop : ∀ pid, op.Spares pid) :
    ∃ calls, Sends k m op calls :=
  sends_of_did rfl hd fun _ rt hrt => ⟨rt, hrt, fun pid hp => ⟨hp, hop pid⟩, fun _ hg => hg⟩

/-- A quiet operation calls nobody, and a unit it makes has no process. -/
theorem sends_of_quiet (hq : op.Quiet) : Sends k m op [] := by
  have hspares (pid : Pid) : op.Spares pid := by
    rintro outcome rfl
    exact hq
  have hforked {u : UnitName} {pid : Pid} (h : Forked [] u pid) : False := by
    rcases h with h | h <;> cases h
  have hleft : ∀ u rt', (m.apply k op).get u = some rt' →
      (∀ pid, rt'.Has pid → ∃ rt, m.get u = some rt ∧ rt.Has pid) ∧
      ∀ pgid, rt'.Led pgid → ∃ rt, m.get u = some rt ∧ (rt.Led pgid ∨ rt.Has pgid) := by
    refine UnitManager.inv_apply (fun u rt hrt => ⟨fun pid hp => ⟨rt, hrt, hp⟩,
      fun pgid hg => ⟨rt, hrt, .inl hg⟩⟩) (fun u config _ => ⟨?_, fun pgid hg => by cases hg⟩)
      fun u rt rt' ht h => ⟨fun pid hp => ?_, fun pgid hg => ?_⟩
    · rintro pid ⟨role, hrole⟩
      rw [UnitRuntime.pidIn_none] at hrole
      cases hrole
    · exact h.1 pid (((acted_touch hq ht).records pid hp).resolve_right hforked)
    · rcases (acted_touch hq ht).groups pgid hg with hg | hg | hg
      · exact h.2 pgid hg
      · obtain ⟨rt₀, hrt₀, hp⟩ := h.1 pgid hg
        exact ⟨rt₀, hrt₀, .inr hp⟩
      · exact (hforked hg).elim
  refine ⟨by rw [calls_of_quiet k m hq, List.append_nil], nofun, fun _ _ h => (hforked h).elim,
    fun u rt' hrt' pid hp => ?_, fun u rt' hrt' pgid hg => .inl ((hleft u rt' hrt').2 pgid hg)⟩
  obtain ⟨rt, hrt, hp⟩ := (hleft u rt' hrt').1 pid hp
  exact .inl ⟨rt, hrt, hp, hspares pid⟩

/-- An adoption : the daemon takes the place of the process that has exited. -/
theorem sends_of_adopts {pid : Pid} {outcome : ExitOutcome} {daemon : Pid}
    (ha : m.Adopts k (.onChildExit pid outcome) u daemon) (hrt : m.get u = some rt)
    (honly : ∀ role, rt.pidIn role = some pid → role = .main)
    (hfree : ∀ v rt, v ≠ u → m.get v = some rt → ¬rt.Has pid)
    (heq : (m.onChildExit k pid outcome).1 = m.put u (pure (rt.markDaemonStarted k daemon))) :
    Sends k m (.onChildExit pid outcome) [] := by
  have happly : m.apply k (.onChildExit pid outcome) =
      m.put u (pure (rt.markDaemonStarted k daemon)) := heq
  have hget {v : UnitName} {rt' : UnitRuntime}
      (hrt' : (m.apply k (.onChildExit pid outcome)).get v = some rt') :
      v = u ∧ rt' = rt.markDaemonStarted k daemon ∨ v ≠ u ∧ m.get v = some rt' := by
    rw [happly, UnitManager.get_put] at hrt'
    split at hrt'
    · next huv => exact .inl ⟨huv.symm, (Option.some.inj hrt').symm⟩
    · next huv => exact .inr ⟨Ne.symm huv, hrt'⟩
  have hspares {p : Pid} (hp : p ≠ pid) : Op.Spares (.onChildExit pid outcome) p := by
    intro outcome' h
    exact hp (Op.onChildExit.inj h).1.symm
  refine ⟨by rw [happly]; rfl, nofun, fun _ _ h => (by rcases h with h | h <;> cases h),
    fun v rt' hrt' p hp => ?_, fun v rt' hrt' pgid hg => ?_⟩
  · rcases hget hrt' with ⟨rfl, rfl⟩ | ⟨hv, hsame⟩
    · obtain ⟨role, hrole⟩ := hp
      have old (hrole : rt.pidIn role = some p) (hne : role ≠ .main) :
          ∃ rt, m.get v = some rt ∧ rt.Has p ∧ Op.Spares (.onChildExit pid outcome) p := by
        refine ⟨rt, hrt, ⟨role, hrole⟩, hspares ?_⟩
        rintro rfl
        exact hne (honly role hrole)
      cases role with
      | main =>
        obtain rfl := Option.some.inj hrole
        exact .inr (.inr ha)
      | healthProbe => exact .inl (old hrole nofun)
      | stopCommand => exact .inl (old hrole nofun)
    · refine .inl ⟨rt', hsame, hp, hspares ?_⟩
      rintro rfl
      exact hfree v rt' hv hsame hp
  · rcases hget hrt' with ⟨rfl, rfl⟩ | ⟨hv, hrt'⟩
    · obtain ⟨-, hor⟩ := Option.filter_eq_some_iff.mp hg
      rcases Bool.or_eq_true_iff.mp hor with hor | hor
      · obtain rfl := of_decide_eq_true hor
        exact .inr (.inr ha)
      · exact .inl ⟨rt, hrt, .inl (of_decide_eq_true hor).symm⟩
    · exact .inl ⟨rt', hrt', .inl hg⟩

/-- Every operation sends its signals to the processes and groups of units, and leaves the units
with nothing but what they had, was forked for them or was adopted. -/
theorem sends_apply (h : OneOwner m) (k : Kernel) (hn : ∀ calls, op ≠ .note calls) :
    ∃ calls, Sends k m op calls := by
  cases op with
  | retire u => exact sends_of_spares (did_retire k m u) (by simp [Op.Spares])
  | stopUnit u => exact sends_of_spares (.update fun rt => rt.acted_stop k _ u) (by simp [Op.Spares])
  | restartUnit u => exact sends_of_spares (did_restartUnit k m u) (by simp [Op.Spares])
  | stopConflicts u => exact sends_of_spares (did_stopConflicts k m u) (by simp [Op.Spares])
  | failStart u => exact sends_of_spares (did_failStart k m u) (by simp [Op.Spares])
  | reachTarget u => exact sends_of_spares (did_reachTarget k m u) (by simp [Op.Spares])
  | beginSpawnUnit u => exact sends_of_spares (did_beginSpawnUnit k m u) (by simp [Op.Spares])
  | dueStartTimeouts =>
    exact sends_of_spares (.pass fun v rt => rt.acted_startTimeout k m.cgroup v) (by simp [Op.Spares])
  | dueKills =>
    exact sends_of_spares (.pass fun v rt => rt.acted_kill k m.cgroup v) (by simp [Op.Spares])
  | dueHealthProbes =>
    exact sends_of_spares (.pass fun v rt => rt.acted_healthProbe k v) (by simp [Op.Spares])
  | dueProbeTimeouts =>
    exact sends_of_spares (.pass fun v rt => rt.acted_probeTimeout k v) (by simp [Op.Spares])
  | onChildExit pid outcome =>
    rcases did_onChildExit h k pid outcome with hd | ⟨u, rt, daemon, ha, hrt, honly, hfree, heq⟩
    · have hc : (m.without pid).calls = m.calls := rfl
      refine sends_of_did hc hd fun u rt₀ hrt₀ => ?_
      rw [UnitManager.get_without] at hrt₀
      obtain ⟨rt, hrt, rfl⟩ := Option.map_eq_some_iff.mp hrt₀
      refine ⟨rt, hrt, fun p hp => ?_, fun _ hg => hg⟩
      obtain ⟨hp, hne⟩ := UnitRuntime.has_of_without hp
      exact ⟨hp, fun outcome' h => hne (Op.onChildExit.inj h).1.symm⟩
    · exact ⟨[], sends_of_adopts ha hrt honly hfree heq⟩
  | note calls => exact absurd rfl (hn calls)
  | _ => exact ⟨[], sends_of_quiet trivial⟩

end Operations

/-! ## Runs -/

/-- The calls an operation makes. -/
def UnitManager.sent (k : Kernel) (m : UnitManager) (op : Op) : List Call :=
  (m.apply k op).calls.drop m.calls.length

/-- The unit gets a process : it is forked for it, or adopted. -/
def UnitManager.Gains (k : Kernel) (m : UnitManager) (op : Op) (u : UnitName) (pid : Pid) : Prop :=
  Forked (m.sent k op) u pid ∨ m.Adopts k op u pid

/-- The processes that were made for a unit and have not been reaped since, and all it ever had. -/
structure Processes where
  alive : UnitName → Pid → Prop := fun _ _ => False
  had : UnitName → Pid → Prop := fun _ _ => False

namespace Processes

/-- A process that is reaped is gone. -/
def reaped (p : Processes) (pid : Pid) : Processes :=
  { p with alive := fun u q => p.alive u q ∧ q ≠ pid }

/-- The processes after an operation : the exit of a process is told when it has been reaped. -/
def after (p : Processes) (k : Kernel) (m : UnitManager) (op : Op) : Processes where
  alive u pid := m.Gains k op u pid ∨ p.alive u pid ∧ op.Spares pid
  had u pid := m.Gains k op u pid ∨ p.had u pid

end Processes

/-- The kernel never gives the pid of a process that is still there, and gives two commands two
pids. -/
structure Kernel.Forks (k : Kernel) (p : Processes) : Prop where
  spawn : ∀ u pid pending, k.spawn u = .ok (pid, pending) → ∀ v, ¬p.alive v pid
  command : ∀ u c pid, k.spawnDetached u c = .ok pid → ∀ v, ¬p.alive v pid
  apart : ∀ u v c c' pid, k.spawnDetached u c = .ok pid → k.spawnDetached v c' = .ok pid → u = v

/-- Whatever a unit records is alive, and its group was led by a process it had. -/
def Covered (m : UnitManager) (p : Processes) : Prop :=
  ∀ u rt, m.get u = some rt → (∀ pid, rt.Has pid → p.alive u pid ∧ p.had u pid) ∧
    ∀ pgid, rt.Led pgid → p.had u pgid

section Runs

variable {k : Kernel} {m : UnitManager} {p : Processes} {op : Op}

theorem Covered.fresh (h : Covered m p) (hk : k.Forks p) : k.Fresh m := by
  have free {pid : Pid} (hp : ∀ v, ¬p.alive v pid) : m.ownsChild pid = false := by
    by_contra ho
    obtain ⟨⟨u, rt⟩, he, hor⟩ := List.any_eq_true.mp (Bool.of_not_eq_false ho)
    have hrt : m.get u = some rt := Std.ExtTreeMap.mem_toList_iff_getElem?_eq_some.mp he
    have hhas : rt.Has pid := by
      simp only [Bool.or_eq_true, decide_eq_true_eq] at hor
      rcases hor with (hor | hor) | hor
      · exact UnitRuntime.has_main hor
      · exact UnitRuntime.has_probe hor
      · exact UnitRuntime.has_stopCommand hor
    exact hp u ((h u rt hrt).1 pid hhas).1
  exact ⟨fun u pid pending hs => free (hk.spawn u pid pending hs),
    fun u c pid hs => free (hk.command u c pid hs), hk.apart⟩

theorem Sends.sent {calls : List Call} (h : Sends k m op calls) : m.sent k op = calls := by
  rw [UnitManager.sent, h.trace, List.drop_left]

/-- An operation keeps the records covered. -/
theorem Covered.apply (h : Covered m p) (ho : OneOwner m) (hn : ∀ calls, op ≠ .note calls) :
    Covered (m.apply k op) (p.after k m op) := by
  obtain ⟨calls, hs⟩ := sends_apply ho k hn
  have gains {u : UnitName} {pid : Pid} (hf : Forked calls u pid) : m.Gains k op u pid :=
    .inl (hs.sent.symm ▸ hf)
  intro u rt' hrt'
  refine ⟨fun pid hp => ?_, fun pgid hg => ?_⟩
  · rcases hs.records u rt' hrt' pid hp with ⟨rt, hrt, hp, hspares⟩ | hf | ha
    · obtain ⟨halive, hhad⟩ := (h u rt hrt).1 pid hp
      exact ⟨.inr ⟨halive, hspares⟩, .inr hhad⟩
    · exact ⟨.inl (gains hf), .inl (gains hf)⟩
    · exact ⟨.inl (.inr ha), .inl (.inr ha)⟩
  · rcases hs.groups u rt' hrt' pgid hg with ⟨rt, hrt, hg | hp⟩ | hf | ha
    · exact .inr ((h u rt hrt).2 pgid hg)
    · exact .inr ((h u rt hrt).1 pgid hp).2
    · exact .inl (gains hf)
    · exact .inl (.inr ha)

end Runs

/-! ## A concrete run -/

end Rinit
