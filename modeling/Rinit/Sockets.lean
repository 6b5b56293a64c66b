import Rinit.Tended

/-!
# Sockets as dependencies

`NeedsSocket=` is turned into `Requires=` and `After=` once, over the definitions of a directory
(`linked_of_resolve`). A definition that comes into force otherwise is not looked at again : an
instance that is made from its template, a definition that a start adopts, and what a running
unit or an instance keeps over a reload. `socketsHard_of_operated` : the edges are there, and
every path has one provider, as long as each such definition gets along with the others, and
the first that does not leaves a state without (`not_socketsHard_instance`).
-/

namespace Rinit

open Relation

/-- The sockets of `p`, whose definition is `d`, are hard edges of the definition `c`, and `c`
declares none of them itself. -/
structure Linked (c : UnitConfig) (p : UnitName) (d : UnitConfig) : Prop where
  edge : ∀ path ∈ c.needsSocket, path ∈ d.sockets → p ∈ c.deps.requires ∧ p ∈ c.deps.after
  provider : ∀ path ∈ c.sockets, path ∉ d.sockets

/-! ## Resolving a directory -/

theorem claimSocket_eq_ok {unit : UnitName} {providers providers' : Providers} {path : String}
    (h : claimSocket unit providers path = .ok providers') :
    providers[path]? = none ∧ providers' = providers.insert path unit := by
  unfold claimSocket at h
  split at h
  · cases h
  · next hnone => exact ⟨hnone, (Except.ok.inj h).symm⟩

/-- Claiming the sockets of a unit keeps what others have claimed. -/
theorem claimSockets_eq_ok {config : UnitConfig} {providers providers' : Providers}
    (h : claimSockets providers config = .ok providers') :
    (∀ (path : String) u, providers[path]? = some u → providers'[path]? = some u) ∧
      ∀ path ∈ config.sockets, providers'[path]? = some config.name := by
  refine Runs.foldlM_induction (P := fun done (claimed : Providers) =>
    (∀ (path : String) u, providers[path]? = some u → claimed[path]? = some u) ∧
      ∀ path ∈ done, claimed[path]? = some config.name) h ⟨fun _ _ => id, by simp⟩ ?_
  intro done path rest claimed claimed' _ ⟨hold, hdone⟩ hstep
  obtain ⟨hnone, rfl⟩ := claimSocket_eq_ok hstep
  have hkept {q : String} {u : UnitName} (hq : claimed[q]? = some u) :
      (claimed.insert path config.name)[q]? = some u := by
    rw [Std.ExtTreeMap.getElem?_insert, if_neg, hq]
    intro hpq
    rw [← Std.LawfulEqCmp.eq_of_compare hpq, hnone] at hq
    cases hq
  refine ⟨fun q u hq => hkept (hold q u hq), fun q hq => ?_⟩
  rcases List.mem_append.mp hq with hq | hq
  · exact hkept (hdone q hq)
  · rw [List.mem_singleton.mp hq, Std.ExtTreeMap.getElem?_insert_self]

/-- Every path a unit of the directory declares is its own. -/
theorem providers_of_claims {configs : List UnitConfig} {providers : Providers}
    (h : configs.foldlM claimSockets ∅ = .ok providers) :
    ∀ c ∈ configs, ∀ path ∈ c.sockets, providers[path]? = some c.name := by
  refine Runs.foldlM_induction (P := fun done (claimed : Providers) =>
    ∀ c ∈ done, ∀ path ∈ c.sockets, claimed[path]? = some c.name) h (by simp) ?_
  intro done config rest claimed claimed' _ hdone hstep c hc path hpath
  obtain ⟨hold, hnew⟩ := claimSockets_eq_ok hstep
  rcases List.mem_append.mp hc with hc | hc
  · exact hold path c.name (hdone c hc path hpath)
  · obtain rfl := List.mem_singleton.mp hc
    exact hnew path hpath

theorem mem_foldl_pushUnique {α : Type*} [DecidableEq α] {l : List α} {init : List α} {a : α} :
    a ∈ l.foldl pushUnique init ↔ a ∈ init ∨ a ∈ l := by
  induction l generalizing init with
  | nil => simp
  | cons b l ih => rw [List.foldl_cons, ih, DependencyGraph.mem_pushUnique, List.mem_cons, or_assoc]

/-- Definitions whose sockets are resolved are linked. -/
theorem linked_of_resolve {configs resolved : List UnitConfig} {warnings : List String}
    (h : resolveSockets configs = .ok (resolved, warnings)) {c d : UnitConfig} (hc : c ∈ resolved)
    (hd : d ∈ resolved) (hne : c.name ≠ d.name) : Linked c d.name d := by
  obtain ⟨providers, hclaims, hmap⟩ := Runs.bind_eq_ok.mp h
  obtain ⟨rfl, -⟩ := Prod.mk.inj (Except.ok.inj hmap)
  have hown := providers_of_claims hclaims
  obtain ⟨c₀, hc₀, rfl⟩ := List.mem_map.mp hc
  obtain ⟨d₀, hd₀, rfl⟩ := List.mem_map.mp hd
  refine ⟨fun path hneeds hpath => ?_, fun path hpath hpath' => ?_⟩
  · have hreq : d₀.name ∈ c₀.needsSocket.filterMap (requiredProvider providers c₀) := by
      refine List.mem_filterMap.mpr ⟨path, hneeds, ?_⟩
      rw [requiredProvider, hown d₀ hd₀ path hpath]
      have hne' : d₀.name ≠ c₀.name := Ne.symm hne
      exact Option.filter_eq_some_iff.mpr ⟨rfl, by simpa using hne'⟩
    exact ⟨mem_foldl_pushUnique.mpr (.inr hreq), mem_foldl_pushUnique.mpr (.inr hreq)⟩
  · have hcp := hown c₀ hc₀ path hpath
    rw [hown d₀ hd₀ path hpath'] at hcp
    exact hne (Option.some.inj hcp).symm

/-- The definitions of a directory that is accepted are linked. -/
theorem linked_of_planBoot {files : List UnitFile} {warnings : List String} {target : String}
    {plan : BootPlan} (h : BootPlan.planBoot files warnings target = .ok plan) {c d : UnitConfig}
    (hc : c ∈ plan.configs) (hd : d ∈ plan.configs) (hne : c.name ≠ d.name) :
    Linked c d.name d := by
  obtain ⟨loaded, socketWarnings, _, _, -, hsockets, -⟩ := BootPlan.planBoot_eq_ok h
  exact linked_of_resolve hsockets hc hd hne

/-! ## The units in force -/

/-- Every `NeedsSocket=` whose path a unit declares is a hard edge to that unit, and no path is
declared twice. -/
def SocketsHard (m : UnitManager) : Prop :=
  ∀ u p rt rt', m.get u = some rt → rt.retired = false → m.get p = some rt' → rt'.retired = false →
    u ≠ p → Linked rt.config p rt'.config

/-- The definition `c` of `u` gets along with the others in force. -/
def FitsIn (m : UnitManager) (u : UnitName) (c : UnitConfig) : Prop :=
  ∀ v rt, m.get v = some rt → rt.retired = false → v ≠ u →
    Linked c v rt.config ∧ Linked rt.config u c

/-- The definition an operation brings into force gets along with the others : one a start
adopts, and that of an instance it makes. -/
def BringsFitting (m : UnitManager) : Op → Prop
  | .adoptPendingConfig u => ∀ rt, m.get u = some rt → rt.retired = false →
    FitsIn m u rt.adoptPendingConfig.config
  | .instantiate u => ∀ c, m.expand u = .ok c → FitsIn m u c
  | .requestStart u _ | .requestStop u _ =>
    m.get u = none → ∀ c, m.expand u = .ok c → FitsIn m u c
  | _ => True

/-- What a reload does not take from the directory gets along with the rest : the definitions
that units which are up or being started keep, and those of the instances. -/
def KeepsFitting (s : ReloadState) (plan : BootPlan) : Prop :=
  ∀ c ∈ s.inForce plan, c ∉ plan.configs → ∀ d ∈ s.inForce plan, d.name ≠ c.name →
    Linked c d.name d ∧ Linked d c.name c

variable {k : Kernel} {m : UnitManager} {u : UnitName} {op : Op} {rt : UnitRuntime}

theorem SocketsHard.of_get {m' : UnitManager} (h : SocketsHard m)
    (hget : ∀ v rt', m'.get v = some rt' → rt'.retired = false →
      ∃ rt, m.get v = some rt ∧ rt.retired = false ∧ rt'.config = rt.config) : SocketsHard m' := by
  intro v p rt rt' hrt hret hrt' hret' hne
  obtain ⟨rt₁, h1, hr1, hc1⟩ := hget v rt hrt hret
  obtain ⟨rt₂, h2, hr2, hc2⟩ := hget p rt' hrt' hret'
  rw [hc1, hc2]
  exact h v p rt₁ rt₂ h1 hr1 h2 hr2 hne

/-- Where one unit has got a definition, that definition decides. -/
theorem socketsHard_put {m' : UnitManager} {rt' : UnitRuntime} (h : SocketsHard m)
    (hget : ∀ v, m'.get v = if u = v then some rt' else m.get v) (hret : rt'.retired = false) :
    SocketsHard m' ↔ FitsIn m u rt'.config := by
  have hself : m'.get u = some rt' := by rw [hget, if_pos rfl]
  have hother {v : UnitName} (hv : v ≠ u) : m'.get v = m.get v := by rw [hget, if_neg (Ne.symm hv)]
  constructor
  · intro h' v rt hrt hr hv
    have hrt' := (hother hv).trans hrt
    exact ⟨h' u v rt' rt hself hret hrt' hr (Ne.symm hv),
      h' v u rt rt' hrt' hr hself hret hv⟩
  · intro hfits v p rt₁ rt₂ h1 hr1 h2 hr2 hne
    by_cases hv : v = u
    · subst hv
      obtain rfl := Option.some.inj (hself.symm.trans h1)
      have hp : p ≠ v := Ne.symm hne
      exact (hfits p rt₂ ((hother hp).symm.trans h2) hr2 hp).1
    · by_cases hp : p = u
      · subst hp
        obtain rfl := Option.some.inj (hself.symm.trans h2)
        exact (hfits v rt₁ ((hother hv).symm.trans h1) hr1 hv).2
      · exact h v p rt₁ rt₂ ((hother hv).symm.trans h1) hr1 ((hother hp).symm.trans h2) hr2 hne

/-- A touch that adopts no definition leaves the one in force. -/
theorem config_of_touch {rt' : UnitRuntime} (hs : op.Serves m) (ha : ∀ u, op ≠ .adoptPendingConfig u)
    (ht : Touch k m u op rt rt') : rt'.config = rt.config ∧ rt'.retired = rt.retired := by
  cases redefined_of_touch ht with
  | kept hc _ hr => exact ⟨hc, hr⟩
  | adopted hop => exact absurd hop (ha u)
  | redefined hop | retired hop | compressed hop =>
    subst hop
    exact hs.elim

theorem touched_config {m' : UnitManager} (hs : op.Serves m) (ha : ∀ u, op ≠ .adoptPendingConfig u)
    (ht : Touched k m op m m') (v : UnitName) {rt' : UnitRuntime} (hrt' : m'.get v = some rt') :
    ∃ rt, m.get v = some rt ∧ rt'.config = rt.config ∧ rt'.retired = rt.retired := by
  obtain ⟨rt, hrt, hchain⟩ := ht.get_some hrt'
  refine ⟨rt, hrt, ?_⟩
  clear hrt'
  induction hchain with
  | refl => exact ⟨rfl, rfl⟩
  | tail _ ht ih =>
    obtain ⟨hc, hr⟩ := config_of_touch hs ha ht
    exact ⟨hc.trans ih.1, hr.trans ih.2⟩

/-- A request for an instance that is not there makes it. -/
theorem get_request_made {c : UnitConfig} (hn : m.get u = none) (he : m.expand u = .ok c)
    (k : Kernel) (target : JobTarget) (source : RequestSource) (v : UnitName) :
    (m.request k u target source).1.get v =
      if u = v then some (UnitRuntime.new c) else m.get v := by
  split
  · next huv =>
    subst huv
    obtain ⟨m', hm'⟩ : ∃ m', m.instantiate u = .ok m' := by
      rw [UnitManager.instantiate, he]
      exact ⟨_, rfl⟩
    obtain ⟨c', hc', hget⟩ := UnitManager.get_instantiate hm'
    obtain rfl := Except.ok.inj (he.symm.trans hc')
    have hu : m'.get u = some (UnitRuntime.new c) := by rw [hget, if_pos rfl]
    unfold UnitManager.request
    rw [hn]
    dsimp only
    rw [hm']
    rcases UnitManager.get_submitRequest (k := k) (v := u) hu target source with hv | ⟨-, -, hv⟩
    · exact hv.trans hu
    · exact hv
  · next huv =>
    rcases UnitManager.get_request k m u target source v with h | ⟨_, rfl, -⟩ | ⟨_, rfl, -⟩
    · exact h
    · exact absurd rfl huv
    · exact absurd rfl huv

/-- A start that adopts a definition keeps the edges exactly when it gets along with the rest. -/
theorem socketsHard_adopt (h : SocketsHard m) (k : Kernel) (u : UnitName) :
    SocketsHard (m.apply k (.adoptPendingConfig u)) ↔ BringsFitting m (.adoptPendingConfig u) := by
  change SocketsHard (m.adoptPendingConfig u) ↔ _
  unfold UnitManager.adoptPendingConfig
  cases hrt : m.get u with
  | none =>
    refine iff_of_true h fun rt hrt' => ?_
    cases hrt.symm.trans hrt'
  | some rt =>
    have hget (v : UnitName) : ((m.put u (pure rt.adoptPendingConfig)).invalidateGraph).get v =
        if u = v then some rt.adoptPendingConfig else m.get v := UnitManager.get_put ..
    cases hret : rt.retired with
    | true =>
      refine iff_of_true (h.of_get fun v rt' hrt' hr => ?_) fun rt' hrt' hr => ?_
      · rw [hget] at hrt'
        split at hrt'
        · obtain rfl := Option.some.inj hrt'
          rw [UnitRuntime.adoptPendingConfig_retired, hret] at hr
          cases hr
        · exact ⟨rt', hrt', hr, rfl⟩
      · obtain rfl := Option.some.inj (hrt.symm.trans hrt')
        rw [hret] at hr
        cases hr
    | false =>
      refine (socketsHard_put h hget (by rw [UnitRuntime.adoptPendingConfig_retired, hret])).trans
        ⟨fun hfits rt' hrt' _ => ?_, fun hb => hb rt hrt hret⟩
      obtain rfl := Option.some.inj (hrt.symm.trans hrt')
      exact hfits

/-- A request keeps the edges exactly when an instance it makes gets along with the rest. -/
theorem socketsHard_request (h : SocketsHard m) (k : Kernel) (u : UnitName) (target : JobTarget)
    (source : RequestSource) : SocketsHard (m.request k u target source).1 ↔
      (m.get u = none → ∀ c, m.expand u = .ok c → FitsIn m u c) := by
  by_cases hmade : ∃ c, m.get u = none ∧ m.expand u = .ok c
  · obtain ⟨c, hn, he⟩ := hmade
    rw [socketsHard_put h (get_request_made hn he k target source) rfl]
    refine ⟨fun hfits _ c' he' => ?_, fun hb => hb hn c he⟩
    obtain rfl := Except.ok.inj (he.symm.trans he')
    exact hfits
  · refine iff_of_true (h.of_get fun v rt' hrt' hret => ?_) fun hn c he => absurd ⟨c, hn, he⟩ hmade
    rcases UnitManager.get_request k m u target source v with
      hget | ⟨rt, rfl, -, hrt, hget⟩ | ⟨c, -, hn, he, -⟩
    · exact ⟨rt', hget.symm.trans hrt', hret, rfl⟩
    · obtain rfl := Option.some.inj (hget.symm.trans hrt')
      rcases rt.settle_eq .stopped with heq | ⟨heq, -⟩ <;> rw [heq] at hret ⊢ <;>
        exact ⟨rt, hrt, hret, rfl⟩
    · exact absurd ⟨c, hn, he⟩ hmade

theorem socketsHard_instantiate (h : SocketsHard m) (k : Kernel) (u : UnitName) :
    SocketsHard (m.apply k (.instantiate u)) ↔ BringsFitting m (.instantiate u) := by
  change SocketsHard ((m.instantiate u).toOption.getD m) ↔ ∀ c, m.expand u = .ok c → FitsIn m u c
  cases hi : m.instantiate u with
  | error e =>
    refine iff_of_true h fun c he => ?_
    rw [UnitManager.instantiate, he] at hi
    cases hi
  | ok m' =>
    obtain ⟨c, he, hget⟩ := UnitManager.get_instantiate hi
    refine (socketsHard_put h hget rfl).trans ⟨fun hfits c' he' => ?_, fun hb => hb c he⟩
    obtain rfl := Except.ok.inj (he.symm.trans he')
    exact hfits

/-- Between two reloads nothing else brings a definition into force. -/
theorem socketsHard_other (h : SocketsHard m) (hs : op.Serves m) (k : Kernel)
    (hmakes : ∀ u c, ¬Makes m u c op) (ha : ∀ u, op ≠ .adoptPendingConfig u) :
    SocketsHard (m.apply k op) := by
  rcases UnitManager.apply_cases k m op with ⟨u, c, hmk, -⟩ | rfl | htouch
  · exact absurd hmk (hmakes u c)
  · exact hs.elim
  · refine h.of_get fun v rt' hrt' hret => ?_
    obtain ⟨rt, hrt, hc, hr⟩ := touched_config hs ha htouch v hrt'
    exact ⟨rt, hrt, hr.symm.trans hret, hc⟩

/-- An operation keeps the edges exactly when what it brings into force gets along with the
rest. -/
theorem socketsHard_apply (h : SocketsHard m) (op : Op) (hs : op.Serves m) (k : Kernel) :
    SocketsHard (m.apply k op) ↔ BringsFitting m op := by
  cases op with
  | adoptPendingConfig u => exact socketsHard_adopt h k u
  | instantiate u => exact socketsHard_instantiate h k u
  | requestStart u source | requestStop u source => exact socketsHard_request h k u _ source
  | addWithInFlight c inFlight => exact hs.elim
  | _ =>
    refine iff_of_true (socketsHard_other h hs k (fun u c hmk => ?_) fun u hop => ?_) trivial
    · cases hmk
    · cases hop

/-! ## Reloads and runs -/

theorem socketsHard_iff (hm : Reachable m) : SocketsHard m ↔
    ∀ c ∈ m.configs, ∀ d ∈ m.configs, c.name ≠ d.name → Linked c d.name d := by
  constructor
  · intro h c hc d hd hne
    obtain ⟨u, rt, hrt, hret, rfl⟩ := ReloadState.mem_configs.mp hc
    obtain ⟨p, rt', hrt', hret', rfl⟩ := ReloadState.mem_configs.mp hd
    rw [(hm.filed hrt).name, (hm.filed hrt').name] at hne
    rw [(hm.filed hrt').name]
    exact h u p rt rt' hrt hret hrt' hret' hne
  · intro h u p rt rt' hrt hret hrt' hret' hne
    have hlinked := h rt.config (ReloadState.mem_configs.mpr ⟨u, rt, hrt, hret, rfl⟩) rt'.config
      (ReloadState.mem_configs.mpr ⟨p, rt', hrt', hret', rfl⟩)
      (by rw [(hm.filed hrt).name, (hm.filed hrt').name]; exact hne)
    rwa [(hm.filed hrt').name] at hlinked

/-- A reload keeps the edges exactly when what it does not take from the directory gets along
with the rest. -/
theorem socketsHard_reload {files : List UnitFile} {warnings : List String} {target : String}
    {plan : BootPlan} {s s' : ReloadState}
    (hp : BootPlan.planBoot files warnings target = .ok plan)
    (hr : ReloadState.Reloaded k plan s s') : SocketsHard s'.manager ↔ KeepsFitting s plan := by
  have hmem {c : UnitConfig} : c ∈ s'.manager.configs ↔ c ∈ s.inForce plan :=
    ReloadState.mem_configs_iff (BootPlan.proper_of_planBoot hp) hr
  rw [socketsHard_iff hr.reachable]
  constructor
  · intro h c hc _ d hd hne
    exact ⟨h c (hmem.mpr hc) d (hmem.mpr hd) (Ne.symm hne), h d (hmem.mpr hd) c (hmem.mpr hc) hne⟩
  · intro h c hc d hd hne
    by_cases hcp : c ∈ plan.configs
    · by_cases hdp : d ∈ plan.configs
      · exact linked_of_planBoot hp hcp hdp hne
      · exact (h d (hmem.mp hd) hdp c (hmem.mp hc) hne).2
    · exact (h c (hmem.mp hc) hcp d (hmem.mp hd) (Ne.symm hne)).1

/-- The states the manager gets into : the units of a boot, operations between two reloads that
satisfy `G`, and reloads that satisfy `R`, whatever is being started at the time. -/
inductive Operated (G : UnitManager → Op → Prop) (R : ReloadState → BootPlan → Prop) :
    UnitManager → Prop
  | boot {files : List UnitFile} {warnings : List String} {target : String} {plan : BootPlan}
    (k : Kernel) (cgroup : Cgroup) (hp : BootPlan.planBoot files warnings target = .ok plan) :
    Operated G R (prepareUnits k plan cgroup).1
  | op {m : UnitManager} (k : Kernel) (op : Op) (h : Operated G R m) (hop : op.Promised)
    (hs : op.Serves m) (hg : G m op) : Operated G R (m.apply k op)
  | reload {s s' : ReloadState} {files : List UnitFile} {warnings : List String} {target : String}
    {plan : BootPlan} {report : Report} (k : Kernel) (h : Operated G R s.manager)
    (hp : BootPlan.planBoot files warnings target = .ok plan) (hr : R s plan)
    (hs : ReloadState.reload k files warnings target s = (s', .ok report)) :
    Operated G R s'.manager

variable {G : UnitManager → Op → Prop} {R : ReloadState → BootPlan → Prop}

theorem reloaded_of_reload {s s' : ReloadState} {files : List UnitFile} {warnings : List String}
    {target : String} {plan : BootPlan} {report : Report} (hm : Reachable s.manager)
    (hp : BootPlan.planBoot files warnings target = .ok plan)
    (hs : ReloadState.reload k files warnings target s = (s', .ok report)) :
    ReloadState.Reloaded k plan s s' := by
  rcases ReloadState.reload_cases (k := k) hm files warnings target with
    ⟨e, he, -⟩ | ⟨plan', s₁, report₁, hp', heq, hre⟩
  · cases he.symm.trans hp
  · obtain rfl := Except.ok.inj (hp'.symm.trans hp)
    obtain ⟨rfl, -⟩ := Prod.mk.inj (heq.symm.trans hs)
    exact hre

theorem Operated.reachable (h : Operated G R m) : Reachable m := by
  induction h with
  | boot k cgroup hp => exact reachable_prepareUnits (BootPlan.proper_of_planBoot hp) k cgroup
  | op k op _ hop _ _ ih => exact .step k op ih hop
  | reload k _ hp _ hs ih => exact (reloaded_of_reload ih hp hs).reachable

theorem socketsHard_boot {files : List UnitFile} {warnings : List String} {target : String}
    {plan : BootPlan} (hp : BootPlan.planBoot files warnings target = .ok plan) (k : Kernel)
    (cgroup : Cgroup) : SocketsHard (prepareUnits k plan cgroup).1 := by
  have hproper := BootPlan.proper_of_planBoot hp
  refine Supervisor.prepareUnits_induction hproper k cgroup (fun m _ hget => ?_)
    (fun m op hop h => ?_) fun m order h => h
  · intro u p rt rt' hrt _ hrt' _ hne
    obtain ⟨c, hc, rfl⟩ := Option.map_eq_some_iff.mp ((hget u).symm.trans hrt)
    obtain ⟨d, hd, rfl⟩ := Option.map_eq_some_iff.mp ((hget p).symm.trans hrt')
    obtain ⟨hcmem, rfl⟩ := BootPlan.mem_of_configOf hc
    obtain ⟨hdmem, rfl⟩ := BootPlan.mem_of_configOf hd
    exact linked_of_planBoot hp hcmem hdmem hne
  · obtain ⟨u, rfl⟩ | ⟨fds, rfl⟩ := hop
    · exact (socketsHard_apply h (.failStart u) trivial k).mpr trivial
    · exact (socketsHard_apply h (.setListeners fds) trivial k).mpr trivial

theorem Operated.guarded {m' : UnitManager} (h : Operated G R m)
    (hrun : Guarded (fun _ m op => op.Serves m ∧ G m op) m m') : Operated G R m' := by
  induction hrun with
  | refl => exact h
  | tail _ hstep ih =>
    obtain ⟨k, op, hop, hs, rfl⟩ := hstep
    exact .op k op ih hop hs.1 hs.2

theorem Supervisor.Tended.operated {H : Supervisor → BootPlan → BootPlan → Prop} {s : Supervisor}
    {plan : BootPlan} (h : Supervisor.Tended H s plan) :
    Operated (fun _ _ => True) (fun _ _ => True) s.manager := by
  induction h with
  | init k cgroup h => exact .boot k cgroup h
  | step k input h hi ih =>
    exact ih.guarded
      (((Supervisor.serve_step k h.reached.sound hi).served h.world.1).manager.mono
        fun _ _ _ hs => ⟨hs, trivial⟩)
  | refused k files warnings target h hr ih =>
    exact ih.guarded
      (((Supervisor.serve_refused k hr).served h.world.1).manager.mono
        fun _ _ _ hs => ⟨hs, trivial⟩)
  | @reload s plan plan' k files warnings target h hb hp hg ih =>
    obtain ⟨r, report, hr⟩ := Supervisor.reload_eq_ok h.reached.sound hp k
    have ha := Supervisor.accepted_of_reload h.reached.sound hb hp hr
    have hkeyed : World.Keyed ⟨r.manager, r.starts.flows⟩ := by
      intro u f hf
      rw [ha.reloaded.flows] at hf
      exact h.world.1 u f hf
    have hserved := (StartCoordinator.run_afterReload k r.starts r.manager).served hkeyed
    have hworld := congrArg World.manager ha.world
    rw [show (Supervisor.step k s (.control (.reload files warnings target))).manager = _
      from hworld]
    exact (Operated.reload k ih hp trivial hr).guarded
      (hserved.manager.mono fun _ _ _ hs => ⟨hs, trivial⟩)

/-- The loop gets into no other states. -/
theorem Supervisor.Reached.operated {s : Supervisor} (h : Supervisor.Reached s) :
    Operated (fun _ _ => True) (fun _ _ => True) s.manager := by
  obtain ⟨plan, ht⟩ := h.tended
  exact ht.operated

/-- As long as what comes into force outside a directory gets along with the rest, every
`NeedsSocket=` with a provider is a hard edge and no path has two; a further operation or reload
leaves it so exactly when this holds of it too. -/
theorem socketsHard_of_operated (h : Operated BringsFitting KeepsFitting m) : SocketsHard m ∧
    (∀ k op, op.Serves m → (SocketsHard (m.apply k op) ↔ BringsFitting m op)) ∧
    ∀ k files warnings target plan s s' report, s.manager = m →
      BootPlan.planBoot files warnings target = .ok plan →
      ReloadState.reload k files warnings target s = (s', .ok report) →
      (SocketsHard s'.manager ↔ KeepsFitting s plan) := by
  have hhard : SocketsHard m := by
    induction h with
    | boot k cgroup hp => exact socketsHard_boot hp k cgroup
    | op k op _ _ hs hg ih => exact (socketsHard_apply ih op hs k).mpr hg
    | reload k h hp hr hs _ =>
      exact (socketsHard_reload hp (reloaded_of_reload h.reachable hp hs)).mpr hr
  refine ⟨hhard, fun k op hs => socketsHard_apply hhard op hs k, ?_⟩
  rintro k files warnings target plan s s' report rfl hp hs
  exact socketsHard_reload hp (reloaded_of_reload h.reachable hp hs)

/-! ### Concrete runs -/

/-- A directory with a provider, a unit that needs its socket, and a template that does. -/
def sockets : List UnitFile :=
  [{ name := targetD
     path := "/etc/rinit/d.target"
     contents := "[Unit]\n" },
    { name := serviceA
      path := "/etc/rinit/a.service"
      contents := "[Service]\nExecStart=/bin/a\nSockets=/run/api.sock\n" },
    { name := serviceB
      path := "/etc/rinit/b.service"
      contents := "[Service]\nExecStart=/bin/b\nNeedsSocket=/run/api.sock\n" },
    { name := templateT
      path := "/etc/rinit/t@.service"
      contents := "[Service]\nExecStart=/bin/t\nNeedsSocket=/run/api.sock\n" }]

/-- The unit exists, needs the socket, and requires `a.service`, which declares it, or not. -/
def needsApi (m : UnitManager) (u : UnitName) (required : Bool) : Bool :=
  (m.get u).any (fun rt => !rt.retired && rt.config.needsSocket.contains "/run/api.sock" &&
    rt.config.deps.requires.contains serviceA = required) &&
  (m.get serviceA).any fun rt => !rt.retired && rt.config.sockets.contains "/run/api.sock"

theorem socketsHard_sockets : ∃ m, Operated BringsFitting KeepsFitting m ∧ SocketsHard m ∧
    needsApi m serviceB true = true := by
  obtain ⟨plan, hplan, hb⟩ := (Option.any_eq_true _ _).mp
    (show (BootPlan.planBoot sockets [] "d.target").toOption.any (fun plan =>
      needsApi ((prepareUnits (.granting 0 10) plan none).1.apply (.granting 1 10)
        (.requestStart serviceB .userStart)) serviceB true &&
      ((prepareUnits (.granting 0 10) plan none).1.get serviceB).isSome) = true by decide +kernel)
  obtain ⟨hneeds, hknown⟩ := Bool.and_eq_true_iff.mp hb
  have hrun : Operated BringsFitting KeepsFitting
      ((prepareUnits (.granting 0 10) plan none).1.apply (.granting 1 10)
        (.requestStart serviceB .userStart)) :=
    .op _ _ (.boot _ none (Runs.eq_ok_of_toOption hplan)) (Nat.le_refl _) trivial fun hn => by
      simp [hn] at hknown
  exact ⟨_, hrun, (socketsHard_of_operated hrun).1, hneeds⟩

/-- An instance is started, and nothing orders it after the unit whose socket it needs. -/
theorem not_socketsHard_instance : ∃ s, Supervisor.Reached s ∧ ¬SocketsHard s.manager := by
  obtain ⟨s, hs, hneeds⟩ := Supervisor.exists_reached sockets "d.target"
    (l := [(1, 10, .boot), (2, 10, .control (.start instanceT))])
    (p := fun s => needsApi s.manager instanceT false) (by decide +kernel)
  refine ⟨s, hs, fun hhard => ?_⟩
  obtain ⟨hu, ha⟩ := Bool.and_eq_true_iff.mp hneeds
  obtain ⟨rt, hrt, hu⟩ := (Option.any_eq_true _ _).mp hu
  obtain ⟨rt', hrt', ha⟩ := (Option.any_eq_true _ _).mp ha
  simp only [Bool.and_eq_true, Bool.not_eq_true', List.contains_eq_mem, decide_eq_true_eq,
    decide_eq_false_iff_not] at hu ha
  exact hu.2 ((hhard instanceT serviceA rt rt' hrt hu.1.1 hrt' ha.1 (by decide)).edge _ hu.1.2
    ha.2).1

end Rinit
