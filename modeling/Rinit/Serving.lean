import Rinit.Acts

/-!
# Between two reloads

The templates, the schedule and the definition each unit waits for are those of the directory
that was read last. The acts between two reloads leave the templates and the schedule alone
(`stays_apply`), no unit that exists goes away (`exists_apply`), and the definition of a unit's
next start stays what it is (`UnitRuntime.nextConfig`). `Defined` : the next start of every unit
uses what the directory defines for it, its own file or else its template. `Serve.served`
carries this through the loop, up to the next reload.
-/

namespace Rinit

open Relation

/-! ## The templates and the schedule -/

/-- The templates and the schedule are the same. -/
structure UnitManager.Stays (m m' : UnitManager) : Prop where
  templates : m'.templates = m.templates
  shutdownOrder : m'.shutdownOrder = m.shutdownOrder

namespace UnitManager

variable {k : Kernel} {m m' m'' : UnitManager} {u v : UnitName} {op : Op} {rt rt' : UnitRuntime}

theorem Stays.refl (m : UnitManager) : m.Stays m := ⟨rfl, rfl⟩

theorem Stays.trans (h : m.Stays m') (h' : m'.Stays m'') : m.Stays m'' :=
  ⟨h'.templates.trans h.templates, h'.shutdownOrder.trans h.shutdownOrder⟩

theorem stays_update (m : UnitManager) (u : UnitName) (f : UnitRuntime → Traced UnitRuntime) :
    m.Stays (m.update u f) := by
  unfold update
  split
  · exact ⟨rfl, rfl⟩
  · exact .refl m

theorem stays_instantiate (h : m.instantiate u = .ok m') : m.Stays m' := by
  unfold instantiate at h
  split at h
  · cases h
  · obtain rfl := Except.ok.inj h
    exact ⟨rfl, rfl⟩

theorem stays_submitRequest (k : Kernel) (m : UnitManager) (u : UnitName) (target : JobTarget)
    (source : RequestSource) : m.Stays (m.submitRequest k u target source).1 := by
  have hforget : m.Stays (m.forgetSpentTarget u) := by
    unfold forgetSpentTarget
    split <;> exact ⟨rfl, rfl⟩
  have hfiled : m.Stays (m.filed k u target source) := ⟨hforget.templates, hforget.shutdownOrder⟩
  have hnone (m : UnitManager) : m.Stays (m.applyNoneTransition u) := by
    unfold applyNoneTransition
    split
    · split
      · exact stays_update ..
      · exact .refl m
    · exact .refl m
  have hanswered : m.Stays (m.answered k u target source) := by
    unfold answered
    split
    · exact hfiled.trans (hnone _)
    · exact hfiled
  exact ⟨hanswered.templates, hanswered.shutdownOrder⟩

theorem stays_request (k : Kernel) (m : UnitManager) (u : UnitName) (target : JobTarget)
    (source : RequestSource) : m.Stays (m.request k u target source).1 := by
  unfold request
  split
  · exact stays_submitRequest ..
  · split
    · exact .refl m
    · next hi => exact (stays_instantiate hi).trans (stays_submitRequest ..)

theorem stays_failStart (k : Kernel) (m : UnitManager) (u : UnitName) :
    m.Stays (m.failStart k u).1 :=
  ⟨(stays_update m u _).templates, (stays_update m u _).shutdownOrder⟩

theorem stays_dueQueuedStarts (k : Kernel) (m : UnitManager) : m.Stays (m.dueQueuedStarts k).1 := by
  have hone (m : UnitManager) (e : UnitName × RequestSource) :
      m.Stays (m.dueQueuedStart k e.1 e.2).1 := by
    unfold dueQueuedStart
    split
    · exact ⟨rfl, rfl⟩
    · split
      · exact .refl m
      · have herase : m.Stays { m with queuedStarts := m.queuedStarts.erase e.1 } := ⟨rfl, rfl⟩
        exact herase.trans (stays_request ..)
  unfold dueQueuedStarts
  exact Runs.foldl_induction (P := fun _ (s : UnitManager × List UnitName) => m.Stays s.1)
    (.refl m) fun _ e _ s _ h => h.trans (hone s.1 e)

theorem stays_stopConflicts (k : Kernel) (m : UnitManager) (u : UnitName) :
    m.Stays (m.stopConflicts k u).1 := by
  have hone (m : UnitManager) (other : UnitName) : m.Stays (m.stopConflict k other).1 := by
    unfold stopConflict
    split
    · exact (stays_request ..).trans (stays_update ..)
    · exact .refl m
  unfold stopConflicts
  split
  · exact .refl m
  · exact Runs.foldl_induction (P := fun _ (s : UnitManager × List UnitName) => m.Stays s.1)
      (.refl m) fun _ other _ s _ h => h.trans (hone s.1 other)

theorem stays_put (m : UnitManager) (u : UnitName) (x : Traced UnitRuntime) :
    m.Stays (m.put u x) := ⟨rfl, rfl⟩

theorem stays_onMainExit (k : Kernel) (m : UnitManager) (u : UnitName) (rt : UnitRuntime) (pid : Pid)
    (outcome : ExitOutcome) : m.Stays (m.onMainExit k u rt pid outcome).1 := by
  unfold onMainExit
  split
  · exact stays_put ..
  · dsimp only
    split
    · exact (stays_put m u _).trans (stays_failStart k _ u)
    · exact stays_put ..

theorem stays_onChildExit (k : Kernel) (m : UnitManager) (pid : Pid) (outcome : ExitOutcome) :
    m.Stays (m.onChildExit k pid outcome).1 := by
  unfold onChildExit
  split
  · exact stays_update ..
  · split
    · exact stays_update ..
    · split
      · exact .refl m
      · split
        · exact .refl m
        · exact stays_onMainExit ..

/-- An operation between two reloads leaves the templates and the schedule alone. -/
theorem stays_apply (h : op.Serves m) : m.Stays (m.apply k op) := by
  cases op with
  | addWithInFlight | retire | pruneRetired | setTemplates | setShutdownOrder | setCgroup
  | compressStopTimeouts => exact h.elim
  | instantiate u =>
    change m.Stays ((m.instantiate u).toOption.getD m)
    cases hi : m.instantiate u with
    | error e => exact .refl m
    | ok m' => exact stays_instantiate hi
  | adoptPendingConfig u =>
    change m.Stays (m.adoptPendingConfig u)
    unfold adoptPendingConfig
    split
    · exact ⟨rfl, rfl⟩
    · exact .refl m
  | startOrder u =>
    obtain ⟨cache, hcache⟩ := m.startOrder_fst u
    change m.Stays (m.startOrder u).1
    rw [hcache]
    exact ⟨rfl, rfl⟩
  | requestStart | requestStop => exact stays_request ..
  | dueQueuedStarts => exact stays_dueQueuedStarts k m
  | stopUnit | resetFailed | clearStartLimit | capStartDeadline | noteConnection =>
    exact stays_update ..
  | restartUnit u =>
    change m.Stays (m.restartUnit k u).1
    rcases restartUnit_cases k m u with heq | ⟨-, heq | ⟨-, heq⟩⟩
    · rw [heq]
      exact .refl m
    · rw [heq]
      exact stays_update ..
    · rw [heq]
      exact (stays_update ..).trans (stays_update ..)
  | stopConflicts => exact stays_stopConflicts ..
  | failStart => exact stays_failStart ..
  | reachTarget u =>
    change m.Stays (m.reachTarget k u).1
    unfold reachTarget
    split
    · exact .refl m
    · split
      · exact stays_failStart ..
      · exact stays_update ..
  | beginSpawnUnit u =>
    change m.Stays (m.beginSpawnUnit k u).1
    unfold beginSpawnUnit
    split
    · exact .refl m
    · exact ⟨rfl, rfl⟩
  | onNotify u message =>
    change m.Stays (m.onNotify k u message).1
    unfold onNotify
    split
    · exact .refl m
    · exact ⟨rfl, rfl⟩
  | onChildExit => exact stays_onChildExit ..
  | dueIdleUnits | dueStartTimeouts | dueKills | dueHealthProbes | dueProbeTimeouts | dueRestarts
  | setListeners | setBootInProgress | note => exact ⟨rfl, rfl⟩

end UnitManager

/-! ## Definitions -/

namespace UnitRuntime

variable {rt : UnitRuntime}

/-- The definition the next start of the unit uses. -/
def nextConfig (rt : UnitRuntime) : UnitConfig := rt.pendingConfig.getD rt.config

theorem nextConfig_adopt (rt : UnitRuntime) : rt.adoptPendingConfig.nextConfig = rt.nextConfig := by
  unfold adoptPendingConfig
  split
  · rfl
  · split
    · next hp => simp [nextConfig, applyConfig, hp]
    · rfl

end UnitRuntime

/-- What the directory defines for a unit : its own file, or else its template. -/
def BootPlan.define (plan : BootPlan) (u : UnitName) : Except String UnitConfig :=
  match plan.configOf u with
  | some config => .ok config
  | none => UnitManager.expand { templates := plan.templates } u

namespace UnitManager

variable {k : Kernel} {m m' : UnitManager} {u v : UnitName} {op : Op} {rt rt' : UnitRuntime}
  {plan : BootPlan}

theorem expand_congr (h : m'.templates = m.templates) (u : UnitName) : m'.expand u = m.expand u := by
  unfold expand
  rw [h]

theorem unitExists_iff : m.unitExists u = true ↔ ∃ rt, m.get u = some rt ∧ rt.retired = false := by
  simp [unitExists, Option.any_eq_true]

/-- A touch between two reloads keeps the next definition, and hides no unit. -/
theorem serves_touch (hs : op.Serves m) (ht : Touch k m u op rt rt') :
    rt'.nextConfig = rt.nextConfig ∧ rt'.retired = rt.retired := by
  cases redefined_of_touch ht with
  | kept hc hp hr => exact ⟨by rw [UnitRuntime.nextConfig, hc, hp]; rfl, hr⟩
  | adopted => exact ⟨rt.nextConfig_adopt, rt.adoptPendingConfig_retired⟩
  | redefined hop | retired hop | compressed hop =>
    subst hop
    exact hs.elim

/-- No unit goes away between two reloads. -/
theorem exists_apply (hs : op.Serves m) (h : m.unitExists u = true) :
    (m.apply k op).unitExists u = true := by
  obtain ⟨rt, hrt, hret⟩ := unitExists_iff.mp h
  rw [unitExists_iff]
  rcases apply_cases k m op with ⟨w, config, -, hget⟩ | rfl | htouch
  · rw [hget u]
    split
    · exact ⟨_, rfl, rfl⟩
    · exact ⟨rt, hrt, hret⟩
  · exact hs.elim
  · obtain ⟨rt', hrt', hchain⟩ := htouch.get_of_some hrt
    refine ⟨rt', hrt', ?_⟩
    clear hrt'
    induction hchain with
    | refl => exact hret
    | tail _ ht ih => rw [(serves_touch hs ht).2, ih]

/-- The templates are those of the directory, all of its units exist, and the next start of a
unit that exists uses what the directory defines for it. -/
structure Defined (plan : BootPlan) (m : UnitManager) : Prop where
  templates : m.templates = plan.templates
  planned : ∀ u, (plan.configOf u).isSome = true → m.unitExists u = true
  next : ∀ u rt, m.get u = some rt → rt.retired = false → plan.define u = .ok rt.nextConfig

theorem Defined.expand_eq (h : Defined plan m) (hu : m.unitExists u = false) :
    plan.define u = m.expand u := by
  have hnone : plan.configOf u = none := by
    by_contra hc
    rw [h.planned u (Option.isSome_iff_ne_none.mpr hc)] at hu
    cases hu
  unfold BootPlan.define
  rw [hnone]
  exact (expand_congr h.templates u).symm

/-- The directory goes on to define every unit between two reloads. -/
theorem Defined.apply (h : Defined plan m) (op : Op) (hs : op.Serves m) :
    Defined plan (m.apply k op) := by
  have hstays := stays_apply (k := k) hs
  have made {u : UnitName} {config : UnitConfig} (hmk : Makes m u config op) :
      m.unitExists u = false ∧ m.expand u = .ok config := by
    cases hmk with
    | add => exact hs.elim
    | instantiate he => exact ⟨hs, he⟩
    | requestStart _ he hn | requestStop _ he hn => exact ⟨by simp [unitExists, hn], he⟩
  refine ⟨hstays.templates.trans h.templates, fun u hu => exists_apply hs (h.planned u hu), ?_⟩
  refine inv_apply (P := fun u rt => rt.retired = false → plan.define u = .ok rt.nextConfig)
    h.next (fun u config hmk _ => ?_) fun u rt rt' ht hrt hret => ?_
  · obtain ⟨hu, he⟩ := made hmk
    rw [h.expand_eq hu, he]
    rfl
  · obtain ⟨hnext, hr⟩ := serves_touch hs ht
    rw [hnext]
    exact hrt (hr.symm.trans hret)

theorem Defined.of_schedule (h : Defined plan m) {order : List UnitName} :
    Defined plan { m with shutdownOrder := order } :=
  ⟨h.templates, h.planned, h.next⟩

theorem Defined.guarded (h : Defined plan m) (hrun : Guarded (fun _ m op => op.Serves m) m m') :
    Defined plan m' := by
  induction hrun with
  | refl => exact h
  | tail _ hstep ih =>
    obtain ⟨k, op, -, hs, rfl⟩ := hstep
    exact ih.apply op hs

theorem stays_guarded (hrun : Guarded (fun _ m op => op.Serves m) m m') : m.Stays m' := by
  induction hrun with
  | refl => exact .refl m
  | tail _ hstep ih =>
    obtain ⟨k, op, -, hs, rfl⟩ := hstep
    exact ih.trans (stays_apply hs)

theorem exists_guarded (hrun : Guarded (fun _ m op => op.Serves m) m m')
    (h : m.unitExists u = true) : m'.unitExists u = true := by
  induction hrun with
  | refl => exact h
  | tail _ hstep ih =>
    obtain ⟨k, op, -, hs, rfl⟩ := hstep
    exact exists_apply hs ih

end UnitManager

/-! ## Acts -/

namespace World

variable {k : Kernel} {w w' : World} {act : Act} {u : UnitName}

/-- Only units that exist are being started. -/
def Live (w : World) : Prop :=
  ∀ (u : UnitName) f, w.flows[u]? = some f → w.manager.unitExists u = true

theorem exists_of_new {m : UnitManager} {f : StartFlow} (h : (StartFlow.new k m u).2 = .ok f) :
    m.unitExists u = true := by
  have hget : (m.adoptPendingConfig u).get u = (m.get u).map (·.adoptPendingConfig) := by
    unfold UnitManager.adoptPendingConfig
    split
    · next hrt => exact ((UnitManager.get_put ..).trans (if_pos rfl)).trans (by rw [hrt]; rfl)
    · next hrt => rw [hrt]; rfl
  unfold StartFlow.new at h
  dsimp only at h
  split at h
  · cases h
  · next rt hrt =>
    split at h
    · cases h
    · next hret =>
      rw [hget] at hrt
      obtain ⟨rt₀, hrt₀, rfl⟩ := Option.map_eq_some_iff.mp hrt
      rw [UnitRuntime.adoptPendingConfig_retired] at hret
      exact UnitManager.unitExists_iff.mpr ⟨rt₀, hrt₀, by simpa using hret⟩

/-- What the acts between two reloads keep. -/
structure Served (w w' : World) : Prop where
  manager : Guarded (fun _ m op => op.Serves m) w.manager w'.manager
  keyed : w.Keyed → w'.Keyed
  live : w.Live → w'.Live

theorem Served.trans {w'' : World} (h : Served w w') (h' : Served w' w'') : Served w w'' :=
  ⟨h.manager.trans h'.manager, fun hk => h'.keyed (h.keyed hk), fun hl => h'.live (h.live hl)⟩

/-- Where no flow is new, the units that are being started go on to exist. -/
theorem Served.of_flows (hm : Guarded (fun _ m op => op.Serves m) w.manager w'.manager)
    (hk : w.Keyed → w'.Keyed)
    (hf : ∀ (u : UnitName) f, w'.flows[u]? = some f → w.flows[u]?.isSome = true) : Served w w' := by
  refine ⟨hm, hk, fun hl u f h => ?_⟩
  obtain ⟨f₀, hf₀⟩ := Option.isSome_iff_exists.mp (hf u f h)
  exact UnitManager.exists_guarded hm (hl u f₀ hf₀)

theorem served_begin (k : Kernel) (w : World) (u : UnitName) : Served w (w.begin_ k u) := by
  have hb := begun_begin k w u
  have hm : Guarded (fun _ m op => op.Serves m) w.manager (w.begin_ k u).manager := by
    rcases hb.manager with h | h <;> rw [h]
    · exact .refl
    · exact .single ⟨k, .adoptPendingConfig u, trivial, trivial, rfl⟩
  refine ⟨hm, hb.keyed, fun hl v f hf => ?_⟩
  refine UnitManager.exists_guarded hm ?_
  rcases hb.made v f hf with hf | ⟨rfl, -⟩
  · exact hl v f hf
  · unfold begin_ beginFlow at hf
    split at hf
    · exact hl v f hf
    · cases hnew : StartFlow.new k w.manager v with
      | mk m' r =>
        rw [hnew] at hf
        cases r with
        | error e => exact hl v f hf
        | ok f' => exact exists_of_new (f := f') (by rw [hnew])

theorem served_foldl_begin (k : Kernel) (l : List UnitName) (w : World) :
    Served w (l.foldl (begin_ k) w) := by
  induction l generalizing w with
  | nil => exact ⟨.refl, id, id⟩
  | cons u l ih => exact (served_begin k w u).trans (ih _)

theorem erase_flows (flows : Flows) {v : UnitName} {f : StartFlow}
    (h : (flows.erase u)[v]? = some f) : flows[v]? = some f := by
  rw [Std.ExtTreeMap.getElem?_erase] at h
  split at h
  · cases h
  · exact h

theorem served_act (hk : w.Keyed) (h : act.Fits w) (hs : act.Serves w) : Served w (act.run k w) := by
  cases act with
  | op o =>
    exact .of_flows (.single ⟨k, o, h.1, hs, rfl⟩) id fun v f hf =>
      Option.isSome_of_eq_some (show w.flows[v]? = some f from hf)
  | begin_ u => exact served_begin k w u
  | turn u aux =>
    refine .of_flows ((guarded_turn hk u aux).mono ?_) (fun hk => hk.turn u aux) fun v f hf => ?_
    · rintro _ m op ⟨-, rfl | rfl | rfl | ⟨_, rfl⟩ | ⟨_, rfl⟩⟩ <;> trivial
    · by_cases hv : v = u
      · subst hv
        by_contra hnone
        have hnone : w.flows[v]? = none := by simpa using hnone
        rw [show Act.run k w (.turn v aux) = w by simp [Act.run, turn, hnone], hnone] at hf
        cases hf
      · exact Option.isSome_of_eq_some (flows_turn_of_ne aux hv ▸ hf)
  | restarts =>
    have hdue : Served w { w with manager := (w.manager.dueRestarts k).1 } :=
      .of_flows (.single ⟨k, .dueRestarts, trivial, trivial, rfl⟩) id fun v f hf =>
        Option.isSome_of_eq_some (show w.flows[v]? = some f from hf)
    exact hdue.trans (served_foldl_begin k _ _)
  | stop u =>
    refine .of_flows ((guarded_stopped k w.manager u).mono ?_) (fun hk => hk.erase _ u)
      fun v f hf => ?_
    · rintro _ m op (rfl | rfl) <;> trivial
    · exact Option.isSome_of_eq_some (erase_flows w.flows hf)
  | remove u => exact hs.elim
  | drop u =>
    exact .of_flows .refl (fun hk => hk.erase _ u) fun v f hf =>
      Option.isSome_of_eq_some (erase_flows w.flows hf)

/-- A run of the acts between two reloads. -/
theorem Serve.served (h : Serve w w') (hk : w.Keyed) : Served w w' := by
  induction h with
  | refl => exact ⟨.refl, id, id⟩
  | tail _ hstep ih =>
    obtain ⟨k, act, hfits, hs, rfl⟩ := hstep
    exact ih.trans (served_act (ih.keyed hk) hfits hs)

end World

end Rinit
