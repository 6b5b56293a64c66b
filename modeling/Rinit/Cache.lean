import Rinit.Control
import Rinit.Ops
import Rinit.Schedule

/-!
# The cached start order

`startOrder` keeps the graph it built with the revision it was built for, and every change of
a definition has to count the revision up. `Fresh` is what the cache is for : a graph whose
revision is current is the graph of the definitions in force, so that `startOrder` answers
as if it built the graph anew (`startOrder_of_run`). One branch does not count : a tombstone
that gets its unit file back with the definition it had, or while it is up.

A graph in the cache came from a build in any case (`Reachable.cacheBuilt`), so a start order
that is read from it is never an error.
-/

namespace Rinit

open Relation

/-! ## What the graph reads of a definition -/

/-- A definition with nothing but the links to other units. -/
def UnitConfig.links (c : UnitConfig) : UnitConfig := { UnitConfig.new c.name with deps := c.deps }

theorem DependencyGraph.build_map_links (configs : List UnitConfig) :
    build (configs.map UnitConfig.links) = build configs := by
  have hsort : (configs.map UnitConfig.links).insertionSort (fun a b => a.name ≤ b.name) =
      (configs.insertionSort fun a b => a.name ≤ b.name).map UnitConfig.links := by
    refine (List.map_insertionSort (fun a b : UnitConfig => a.name ≤ b.name)
      (fun a b : UnitConfig => a.name ≤ b.name) UnitConfig.links configs ?_).symm
    exact fun _ _ _ _ => Iff.rfl
  unfold build
  simp only [hsort, List.foldlM_map]
  rfl

/-- What the graph reads of a unit : the links of its definition, if it is in force. -/
def UnitRuntime.linked (rt : UnitRuntime) : Option UnitConfig :=
  if rt.retired then none else some rt.config.links

namespace UnitManager

/-- The links of a unit in force. -/
def linksOf (m : UnitManager) (u : UnitName) : Option UnitConfig := (m.get u).bind UnitRuntime.linked

theorem build_congr {m m' : UnitManager} (h : ∀ u, m'.linksOf u = m.linksOf u) :
    DependencyGraph.build m'.configs = DependencyGraph.build m.configs := by
  have links (m : UnitManager) : m.configs.map UnitConfig.links =
      ((m.units.filterMap fun _ rt => rt.linked).toList.map Prod.snd) := by
    rw [Std.ExtTreeMap.toList_filterMap, configs, List.map_map, List.map_filterMap,
      ← List.filterMap_eq_map, List.filterMap_filter]
    congr 1
    funext e
    unfold UnitRuntime.linked
    cases e.2.retired <;> rfl
  have hunits : (m'.units.filterMap fun _ rt => rt.linked) =
      m.units.filterMap fun _ rt => rt.linked := by
    refine Std.ExtTreeMap.ext_getElem? fun u => ?_
    rw [Std.ExtTreeMap.getElem?_filterMap', Std.ExtTreeMap.getElem?_filterMap']
    exact h u
  rw [← DependencyGraph.build_map_links m'.configs, ← DependencyGraph.build_map_links m.configs,
    links, links, hunits]

end UnitManager

/-! ## What counts the revision up -/

/-- The cache and the revision are as they were. -/
structure SameCache (m m' : UnitManager) : Prop where
  cache : m'.graphCache = m.graphCache
  revision : m'.graphRevision = m.graphRevision

namespace SameCache

variable {k : Kernel} {m m' m'' : UnitManager} {u : UnitName}

theorem trans (h : SameCache m m') (h' : SameCache m' m'') : SameCache m m'' :=
  ⟨h'.cache.trans h.cache, h'.revision.trans h.revision⟩

theorem of_keeps (h : UnitManager.Keeps m m') : SameCache m m' := ⟨h.graphCache, h.graphRevision⟩

theorem update (m : UnitManager) (u : UnitName) (f : UnitRuntime → Traced UnitRuntime) :
    SameCache m (m.update u f) :=
  .of_keeps (UnitManager.keeps_update ..)

theorem failStart (k : Kernel) (m : UnitManager) (u : UnitName) :
    SameCache m (m.failStart k u).1 :=
  (update m u (·.failOwn k m.cgroup u)).trans ⟨rfl, rfl⟩

theorem dueQueuedStarts (k : Kernel) (m : UnitManager) : SameCache m (m.dueQueuedStarts k).1 := by
  unfold UnitManager.dueQueuedStarts
  refine Runs.foldl_induction (P := fun _ (s : UnitManager × List UnitName) => SameCache m s.1)
    ⟨rfl, rfl⟩ ?_
  intro done e rest s _ hs
  dsimp only
  unfold UnitManager.dueQueuedStart
  split
  · exact hs.trans ⟨rfl, rfl⟩
  · next hex =>
    split
    · exact hs
    · obtain ⟨rt, hrt, -⟩ := (Option.any_eq_true _ _).mp
        (by simpa [UnitManager.unitExists] using hex)
      let s' : UnitManager := { s.1 with queuedStarts := s.1.queuedStarts.erase e.1 }
      have hrt' : s'.get e.1 = some rt := hrt
      exact hs.trans ((⟨rfl, rfl⟩ : SameCache s.1 s').trans
        (.of_keeps (UnitManager.keeps_request k hrt' .started e.2)))

theorem stopConflicts (k : Kernel) (m : UnitManager) (u : UnitName) :
    SameCache m (m.stopConflicts k u).1 := by
  unfold UnitManager.stopConflicts
  split
  · exact ⟨rfl, rfl⟩
  · refine Runs.foldl_induction (P := fun _ (s : UnitManager × List UnitName) => SameCache m s.1)
      ⟨rfl, rfl⟩ ?_
    intro done other rest s _ hs
    exact hs.trans (.of_keeps (UnitManager.keeps_stopConflict ..))

theorem restartUnit (k : Kernel) (m : UnitManager) (u : UnitName) :
    SameCache m (m.restartUnit k u).1 := by
  have stopped : SameCache m (m.stopUnit k u) := update m u _
  unfold UnitManager.restartUnit
  split
  · exact ⟨rfl, rfl⟩
  · split
    · exact ⟨rfl, rfl⟩
    · exact ⟨rfl, rfl⟩
    · exact ⟨rfl, rfl⟩
    all_goals
      dsimp only
      split
      · exact stopped.trans (update _ u _)
      · exact stopped

theorem onChildExit (k : Kernel) (m : UnitManager) (pid : Pid) (outcome : ExitOutcome) :
    SameCache m (m.onChildExit k pid outcome).1 := by
  have put (u : UnitName) (rt : Traced UnitRuntime) : SameCache m (m.put u rt) := ⟨rfl, rfl⟩
  unfold UnitManager.onChildExit
  split
  · exact update m _ _
  · split
    · exact update m _ _
    · split
      · exact ⟨rfl, rfl⟩
      · split
        · exact ⟨rfl, rfl⟩
        · unfold UnitManager.onMainExit
          split
          · exact ⟨rfl, rfl⟩
          · dsimp only
            split
            · exact (put _ _).trans (failStart k _ _)
            · exact put _ _

end SameCache

/-- Whether an operation is about definitions or the graph; every other leaves both alone. -/
def Op.Defines : Op → Prop
  | .addWithInFlight _ _ | .instantiate _ | .retire _ | .pruneRetired | .adoptPendingConfig _
  | .startOrder _ | .requestStart _ _ | .requestStop _ _ => True
  | _ => False

theorem sameCache_apply {k : Kernel} {m : UnitManager} {op : Op} (h : ¬op.Defines) :
    SameCache m (m.apply k op) := by
  cases op with
  | addWithInFlight | instantiate | retire | pruneRetired | adoptPendingConfig | startOrder
  | requestStart | requestStop => exact absurd trivial h
  | dueQueuedStarts => exact .dueQueuedStarts k m
  | stopConflicts u => exact .stopConflicts k m u
  | restartUnit u => exact .restartUnit k m u
  | failStart u => exact .failStart k m u
  | onChildExit pid outcome => exact .onChildExit k m pid outcome
  | reachTarget u =>
    unfold UnitManager.apply UnitManager.reachTarget
    dsimp only
    split
    · exact ⟨rfl, rfl⟩
    · split
      · exact .failStart k m u
      · exact .update m u _
  | beginSpawnUnit u =>
    unfold UnitManager.apply UnitManager.beginSpawnUnit
    dsimp only
    split <;> exact ⟨rfl, rfl⟩
  | onNotify u message =>
    unfold UnitManager.apply UnitManager.onNotify
    dsimp only
    split <;> exact ⟨rfl, rfl⟩
  | stopUnit u | resetFailed u | clearStartLimit u | capStartDeadline u | noteConnection u =>
    exact .update m u _
  | compressStopTimeouts | dueIdleUnits | dueStartTimeouts | dueKills | dueHealthProbes
  | dueProbeTimeouts | dueRestarts | setTemplates | setListeners | setShutdownOrder | setCgroup
  | setBootInProgress | note => exact ⟨rfl, rfl⟩

/-- A tombstone gets its unit file back, with the definition it had or while it is up or being
started. -/
def Revives (m : UnitManager) (op : Op) : Prop :=
  ∃ config inFlight rt, op = .addWithInFlight config inFlight ∧ m.get config.name = some rt ∧
    rt.retired = true ∧ (rt.config = config ∨ rt.isUp = true ∨ inFlight = true)

/-- The revision is counted up, or it is not and the graph would not change. -/
inductive Counted (m : UnitManager) (op : Op) (m' : UnitManager) : Prop
  | bumped (h : m'.graphRevision = m.graphRevision + 1)
  | same (h : m'.graphRevision = m.graphRevision) (hl : ∀ u, m'.linksOf u = m.linksOf u)
  | revived (h : m'.graphRevision = m.graphRevision) (hr : Revives m op)

section Counted

variable {k : Kernel} {m : UnitManager} {u : UnitName}

theorem linked_touch {op : Op} {rt rt' : UnitRuntime} (hop : ¬op.Defines)
    (ht : Touch k m u op rt rt') : rt'.linked = rt.linked := by
  cases redefined_of_touch ht with
  | kept hc _ hr => rw [UnitRuntime.linked, UnitRuntime.linked, hc, hr]
  | compressed => rfl
  | redefined h | adopted h | retired h => exact absurd (h ▸ trivial) hop

theorem linksOf_of_touched {op : Op} {m' : UnitManager} (hop : ¬op.Defines)
    (h : Touched k m op m m') (u : UnitName) : m'.linksOf u = m.linksOf u := by
  have hu := h u
  unfold UnitManager.linksOf
  generalize m.get u = o at hu
  generalize m'.get u = o' at hu
  cases hu with
  | none => rfl
  | some hr =>
    rw [Option.bind_some, Option.bind_some]
    induction hr with
    | refl => rfl
    | tail _ ht ih => exact (linked_touch hop ht).trans ih

theorem counted_addWithInFlight (m : UnitManager) (config : UnitConfig) (inFlight : Bool) :
    (m.addWithInFlight config inFlight).1.graphCache = m.graphCache ∧
      Counted m (.addWithInFlight config inFlight) (m.addWithInFlight config inFlight).1 := by
  cases hrt : m.get config.name with
  | none =>
    unfold UnitManager.addWithInFlight
    rw [hrt]
    exact ⟨rfl, .bumped rfl⟩
  | some rt =>
    have hget (u : UnitName) : (m.addWithInFlight config inFlight).1.get u = _ :=
      UnitManager.get_addWithInFlight_known hrt u
    have heq : (m.addWithInFlight config inFlight).1 =
        if (rt.redefine config inFlight).2 = .applied then
          (m.put config.name (pure (rt.redefine config inFlight).1)).invalidateGraph
        else m.put config.name (pure (rt.redefine config inFlight).1) := by
      unfold UnitManager.addWithInFlight
      rw [hrt]
    by_cases happ : (rt.redefine config inFlight).2 = .applied
    · rw [heq, if_pos happ]
      exact ⟨rfl, .bumped rfl⟩
    · have hput := heq.trans (if_neg happ)
      refine ⟨by rw [hput]; rfl, ?_⟩
      by_cases hret : rt.retired = true
      · refine .revived (by rw [hput]; rfl) ⟨config, inFlight, rt, rfl, hrt, hret, ?_⟩
        by_contra hno
        rw [not_or, not_or] at hno
        refine happ ?_
        have hup : ({ rt with retired := false } : UnitRuntime).isUp = rt.isUp := rfl
        simp only [UnitRuntime.redefine, hup, hno.1, hno.2.1, hno.2.2, if_false, Bool.or_false,
          Bool.false_eq_true]
      · refine .same (by rw [hput]; rfl) fun v => ?_
        unfold UnitManager.linksOf
        rw [hget v]
        split
        · next hv =>
          rw [← hv, hrt, Option.bind_some, Option.bind_some]
          have hret : rt.retired = false := by simpa using hret
          unfold UnitRuntime.redefine at happ ⊢
          dsimp only at happ ⊢
          split at happ
          · next hc => simp [UnitRuntime.linked, hret, hc]
          · next hc =>
            split at happ
            · next hup => simp [UnitRuntime.linked, hret, hc, hup]
            · exact absurd rfl happ
        · rfl

theorem counted_request (k : Kernel) (m : UnitManager) (u : UnitName) (target : JobTarget)
    (source : RequestSource) (op : Op) :
    (m.request k u target source).1.graphCache = m.graphCache ∧
      Counted m op (m.request k u target source).1 := by
  cases hrt : m.get u with
  | some rt =>
    have hkeeps := UnitManager.keeps_request k hrt target source
    refine ⟨hkeeps.graphCache, .same hkeeps.graphRevision fun v => ?_⟩
    unfold UnitManager.linksOf
    rcases UnitManager.get_request k m u target source v with h | ⟨rt', rfl, -, h', h⟩ | ⟨_, -, h', -⟩
    · rw [h]
    · rw [h, h', Option.bind_some, Option.bind_some]
      rcases rt'.settle_eq .stopped with heq | ⟨heq, -⟩ <;> rw [heq]
      rfl
    · cases hrt.symm.trans h'
  | none =>
    cases hi : m.instantiate u with
    | error e =>
      rw [show m.request k u target source = (m, none) by simp [UnitManager.request, hrt, hi]]
      exact ⟨rfl, .same rfl fun _ => rfl⟩
    | ok m' =>
      have hm' : m'.graphCache = m.graphCache ∧ m'.graphRevision = m.graphRevision + 1 := by
        unfold UnitManager.instantiate at hi
        split at hi
        · cases hi
        · obtain rfl := Except.ok.inj hi
          exact ⟨rfl, rfl⟩
      have hkeeps := UnitManager.keeps_submitRequest k m' u target source
      rw [show m.request k u target source = m'.submitRequest k u target source by
        simp [UnitManager.request, hrt, hi]]
      exact ⟨hkeeps.graphCache.trans hm'.1, .bumped (hkeeps.graphRevision.trans hm'.2)⟩

theorem counted_pruneRetired (m : UnitManager) : m.pruneRetired.1.graphCache = m.graphCache ∧
    Counted m .pruneRetired m.pruneRetired.1 := by
  have hlinks (v : UnitName) : m.pruneRetired.1.linksOf v = m.linksOf v := by
    unfold UnitManager.linksOf
    rw [UnitManager.get_pruneRetired]
    cases m.get v with
    | none => rfl
    | some rt =>
      cases hp : rt.prunable with
      | false => simp [Option.filter, hp]
      | true =>
        have hret : rt.retired = true := by
          unfold UnitRuntime.prunable at hp
          simp only [Bool.and_eq_true] at hp
          exact hp.1.1.1
        simp [Option.filter, hp, UnitRuntime.linked, hret]
  unfold UnitManager.pruneRetired at hlinks ⊢
  dsimp only at hlinks ⊢
  split
  · exact ⟨rfl, .bumped rfl⟩
  · next h =>
    rw [if_neg h] at hlinks
    exact ⟨rfl, .same rfl hlinks⟩

/-- Every operation but a look at the start order leaves the cache alone, and counts a change. -/
theorem counted_apply (k : Kernel) (m : UnitManager) {op : Op} (hs : ∀ u, op ≠ .startOrder u) :
    (m.apply k op).graphCache = m.graphCache ∧ Counted m op (m.apply k op) := by
  by_cases hop : op.Defines
  · cases op with
    | startOrder u => exact absurd rfl (hs u)
    | addWithInFlight config inFlight => exact counted_addWithInFlight m config inFlight
    | requestStart u source => exact counted_request k m u .started source _
    | requestStop u source => exact counted_request k m u .stopped source _
    | pruneRetired => exact counted_pruneRetired m
    | instantiate u =>
      have happly : m.apply k (.instantiate u) = (m.instantiate u).toOption.getD m := rfl
      rw [happly]
      unfold UnitManager.instantiate
      split
      · exact ⟨rfl, .same rfl fun _ => rfl⟩
      · exact ⟨rfl, .bumped rfl⟩
    | retire u =>
      unfold UnitManager.apply UnitManager.retire
      dsimp only
      split
      · exact ⟨rfl, .bumped rfl⟩
      · exact ⟨rfl, .same rfl fun _ => rfl⟩
    | adoptPendingConfig u =>
      unfold UnitManager.apply UnitManager.adoptPendingConfig
      dsimp only
      split
      · exact ⟨rfl, .bumped rfl⟩
      · exact ⟨rfl, .same rfl fun _ => rfl⟩
    | _ => exact absurd hop id
  · have hsame := sameCache_apply (k := k) (m := m) hop
    refine ⟨hsame.cache, ?_⟩
    rcases UnitManager.apply_cases k m op with ⟨_, _, hmk, -⟩ | rfl | ht
    · cases hmk <;> exact absurd trivial hop
    · exact absurd trivial hop
    · exact .same hsame.revision (linksOf_of_touched hop ht)

end Counted

/-! ## The start order -/

namespace UnitManager

variable {m : UnitManager} {u v : UnitName}

/-- The start order of a unit, from the definitions in force. -/
def scratchOrder (m : UnitManager) (unit : UnitName) : Except String (List UnitName) :=
  match DependencyGraph.build m.configs with
  | .error e => .error e.display
  | .ok graph => orderIn graph unit

theorem startOrder_eq (m : UnitManager) (u : UnitName) : m.startOrder u =
    (m.graph.1, match m.graph.2 with
      | .error e => .error e
      | .ok graph => orderIn graph u) := by
  unfold startOrder
  split <;> next h => rw [h]

/-- The cache holds the graph of the current revision. -/
def Current (m : UnitManager) (graph : DependencyGraph) : Prop :=
  m.graphCache = some (m.graphRevision, graph)

theorem graph_of_current {graph : DependencyGraph} (h : m.Current graph) :
    m.graph = (m, .ok graph) := by
  unfold UnitManager.graph
  rw [show m.graphCache = some (m.graphRevision, graph) from h]
  exact if_pos rfl

theorem graph_of_not_current (h : ∀ graph, ¬m.Current graph) :
    m.graph = graph.rebuild m := by
  unfold UnitManager.graph
  split
  · next revision graph hc =>
    refine if_neg fun hr => h graph ?_
    unfold Current
    rw [← hr]
    exact hc
  · rfl

end UnitManager

/-- The cached graph is the graph of the definitions in force, if its revision is current. -/
def Fresh (m : UnitManager) : Prop :=
  ∀ graph, m.Current graph → DependencyGraph.build m.configs = .ok graph

theorem Fresh.startOrder {m : UnitManager} (h : Fresh m) (u : UnitName) :
    (m.startOrder u).2 = m.scratchOrder u := by
  rw [UnitManager.startOrder_eq]
  unfold UnitManager.scratchOrder
  by_cases hc : ∃ graph, m.Current graph
  · obtain ⟨graph, hc⟩ := hc
    rw [UnitManager.graph_of_current hc, h graph hc]
  · rw [UnitManager.graph_of_not_current (not_exists.mp hc)]
    unfold UnitManager.graph.rebuild
    cases DependencyGraph.build m.configs with
    | error e => rfl
    | ok graph => rfl

/-- A change the step makes is counted, and the count does not come round to the revision of
the cached graph. -/
structure Counts (m : UnitManager) (op : Op) : Prop where
  revived : Revives m op → ∀ graph, ¬m.Current graph
  wrapped : ∀ graph, m.graphCache ≠ some (m.graphRevision + 1, graph)

theorem fresh_apply {k : Kernel} {m : UnitManager} {op : Op} (h : Fresh m) (hc : Counts m op) :
    Fresh (m.apply k op) := by
  by_cases hs : ∃ u, op = .startOrder u
  · obtain ⟨u, rfl⟩ := hs
    change Fresh (m.startOrder u).1
    rw [UnitManager.startOrder_eq]
    by_cases hcur : ∃ graph, m.Current graph
    · obtain ⟨graph, hcur⟩ := hcur
      rw [UnitManager.graph_of_current hcur]
      exact h
    · rw [UnitManager.graph_of_not_current (not_exists.mp hcur)]
      unfold UnitManager.graph.rebuild
      split
      · exact h
      · next graph hb =>
        intro graph' hcur'
        obtain rfl : graph = graph' := congrArg Prod.snd (Option.some.inj hcur')
        exact hb
  · obtain ⟨hcache, hcount⟩ := counted_apply k m (not_exists.mp hs)
    intro graph hcur
    unfold UnitManager.Current at hcur
    rw [hcache] at hcur
    cases hcount with
    | bumped hr => exact absurd (hr ▸ hcur) (hc.wrapped graph)
    | same hr hl =>
      rw [hr] at hcur
      rw [UnitManager.build_congr hl]
      exact h graph hcur
    | revived hr hrev =>
      rw [hr] at hcur
      exact absurd hcur (hc.revived hrev graph)

/-- In a run that counts its changes, a start order is the one of the definitions in force. -/
theorem startOrder_of_run {m : UnitManager} (h : Guarded (fun _ => Counts) {} m) (u : UnitName) :
    (m.startOrder u).2 = m.scratchOrder u := by
  refine Fresh.startOrder ?_ u
  induction h with
  | refl => exact fun graph hc => by cases hc
  | tail _ hstep ih =>
    obtain ⟨k, op, -, hc, rfl⟩ := hstep
    exact fresh_apply ih hc

/-- A service that requires another one. -/
def requiring : UnitConfig := { UnitConfig.new serviceA with deps.requires := [serviceB] }

/-- The unit files are registered. -/
def registered : UnitManager :=
  ({} : UnitManager).apply (.granting 0 10) (.addWithInFlight (UnitConfig.new serviceB) false)
    |>.apply (.granting 0 10) (.addWithInFlight requiring false)

/-- A start order is read, the file of the service goes and comes back, and a start order is read
again, which fills the cache anew. -/
def reread : UnitManager :=
  registered.apply (.granting 1 10) (.startOrder serviceA)
    |>.apply (.granting 2 10) (.retire serviceA)
    |>.apply (.granting 3 10) (.addWithInFlight requiring false)
    |>.apply (.granting 4 10) (.startOrder serviceB)

/-- Then the file is written anew, without what it requires. -/
def rewritten : UnitManager :=
  reread.apply (.granting 5 10) (.addWithInFlight (UnitConfig.new serviceA) false)

theorem counts_of_revision {m : UnitManager} {op : Op}
    (hr : Revives m op → m.graphCache.map Prod.fst ≠ some m.graphRevision)
    (hw : m.graphCache.map Prod.fst ≠ some (m.graphRevision + 1)) : Counts m op where
  revived h _ hcur := hr h (congrArg (Option.map Prod.fst) hcur)
  wrapped _ hcache := hw (congrArg (Option.map Prod.fst) hcache)

/-- Only a definition that is read brings a unit back. -/
theorem counts_of_ne {m : UnitManager} {op : Op}
    (h : ∀ config inFlight, op ≠ .addWithInFlight config inFlight)
    (hw : m.graphCache.map Prod.fst ≠ some (m.graphRevision + 1)) : Counts m op :=
  counts_of_revision (fun ⟨config, inFlight, _, hop, _⟩ => absurd hop (h config inFlight)) hw

/-- Only a unit that is retired is brought back. -/
theorem counts_of_not_retired {m : UnitManager} {config : UnitConfig}
    (hn : (m.get config.name).all fun rt => !rt.retired)
    (hw : m.graphCache.map Prod.fst ≠ some (m.graphRevision + 1)) :
    Counts m (.addWithInFlight config false) := by
  refine counts_of_revision ?_ hw
  rintro ⟨_, _, rt, h, hrt, hretired, -⟩
  cases h
  rw [hrt, Option.all_some, hretired] at hn
  exact absurd hn (by decide)

theorem guarded_registered : Guarded (fun _ => Counts) {} registered := by
  unfold registered
  refine (Guarded.snoc .refl _ (.addWithInFlight (UnitConfig.new serviceB) false) rfl ?_).snoc
    _ (.addWithInFlight requiring false) rfl ?_
  · exact counts_of_not_retired (by decide) (by decide)
  · exact counts_of_not_retired (by decide) (by decide)

theorem guarded_reread : Guarded (fun _ => Counts) {} reread := by
  unfold reread
  refine (((guarded_registered.snoc _ (.startOrder serviceA) trivial ?_).snoc
    _ (.retire serviceA) trivial ?_).snoc _ (.addWithInFlight requiring false) rfl ?_).snoc
    _ (.startOrder serviceB) trivial ?_
  · exact counts_of_ne (by simp) (by decide)
  · exact counts_of_ne (by simp) (by decide +kernel)
  · -- the file comes back while the cached graph is one of an earlier revision
    exact counts_of_revision (fun _ => by decide +kernel) (by decide +kernel)
  · exact counts_of_ne (by simp) (by decide +kernel)

/-- The start orders before and after : the graph with the requirement is in the cache when the
requirement goes. -/
theorem startOrder_rewritten :
    (reread.startOrder serviceA).2 = .ok [serviceB] ∧
    reread.graphCache.map Prod.fst = some reread.graphRevision ∧
    rewritten.scratchOrder serviceA = .ok [] ∧
    (rewritten.startOrder serviceA).2 = rewritten.scratchOrder serviceA := by
  refine ⟨by decide +kernel, by decide +kernel, by decide +kernel, startOrder_of_run ?_ serviceA⟩
  unfold rewritten
  exact guarded_reread.snoc _ (.addWithInFlight (UnitConfig.new serviceA) false) rfl
    (counts_of_not_retired (by decide +kernel) (by decide +kernel))

/-- The file of the service goes, a start order is read, and the file comes back as it was. -/
def revived : UnitManager :=
  registered.apply (.granting 1 10) (.retire serviceA)
    |>.apply (.granting 2 10) (.startOrder serviceB)
    |>.apply (.granting 3 10) (.addWithInFlight requiring false)

/-- The service is in force again, and started without what it requires. -/
theorem startOrder_revived : Reachable revived ∧ revived.unitExists serviceA = true ∧
    (revived.startOrder serviceA).2 = .ok [] ∧ revived.scratchOrder serviceA = .ok [serviceB] := by
  refine ⟨?_, by decide, by decide, by decide⟩
  exact .step _ _ (.step _ _ (.step _ _ (.step _ _ (.step _ _ .new rfl) rfl) trivial) trivial) rfl

/-! ## A start that is answered with an error -/

theorem DependencyGraph.levels_of_build {configs : List UnitConfig} {graph : DependencyGraph}
    (h : build configs = .ok graph) : ∃ levels, graph.levels = .ok levels := by
  obtain ⟨-, order, ho⟩ := build_eq_ok_iff.mp h
  exact ⟨_, by rw [levels, ho]; rfl⟩

/-- The graph in the cache came from a build. -/
def CacheBuilt (m : UnitManager) : Prop :=
  ∀ revision graph, m.graphCache = some (revision, graph) →
    ∃ configs, DependencyGraph.build configs = .ok graph

theorem Reachable.cacheBuilt {m : UnitManager} (h : Reachable m) : CacheBuilt m := by
  induction h with
  | new => exact fun _ _ hc => by cases hc
  | @step m k op _ _ ih =>
    by_cases hs : ∃ u, op = .startOrder u
    · obtain ⟨u, rfl⟩ := hs
      change CacheBuilt (m.startOrder u).1
      rw [UnitManager.startOrder_eq]
      by_cases hcur : ∃ graph, m.Current graph
      · obtain ⟨graph, hcur⟩ := hcur
        rw [UnitManager.graph_of_current hcur]
        exact ih
      · rw [UnitManager.graph_of_not_current (not_exists.mp hcur)]
        unfold UnitManager.graph.rebuild
        split
        · exact ih
        · next graph hb =>
          intro revision graph' hc
          obtain rfl : graph = graph' := congrArg Prod.snd (Option.some.inj hc)
          exact ⟨_, hb⟩
    · intro revision graph hc
      rw [(counted_apply k m (not_exists.mp hs)).1] at hc
      exact ih revision graph hc

namespace CacheBuilt

variable {m : UnitManager}

/-- There is a graph, and every unit has a start order, or there is none for any. -/
theorem graph_cases (h : CacheBuilt m) :
    (∃ e, m.graph = (m, .error e)) ∨
    ∃ m' graph, m.graph = (m', .ok graph) ∧ ∀ u, ∃ l, UnitManager.orderIn graph u = .ok l := by
  have ordered {configs : List UnitConfig} {graph : DependencyGraph}
      (hb : DependencyGraph.build configs = .ok graph) (u : UnitName) :
      ∃ l, UnitManager.orderIn graph u = .ok l := by
    obtain ⟨levels, hl⟩ := DependencyGraph.levels_of_build hb
    exact ⟨_, by rw [UnitManager.orderIn, hl]⟩
  by_cases hcur : ∃ graph, m.Current graph
  · obtain ⟨graph, hcur⟩ := hcur
    obtain ⟨configs, hb⟩ := h _ graph hcur
    exact .inr ⟨m, graph, UnitManager.graph_of_current hcur, ordered hb⟩
  · rw [UnitManager.graph_of_not_current (not_exists.mp hcur)]
    unfold UnitManager.graph.rebuild
    split
    · exact .inl ⟨_, rfl⟩
    · next graph hb => exact .inr ⟨_, graph, rfl, ordered hb⟩

/-- One unit with a start order is enough for all to have one. -/
theorem startOrder_ok (h : CacheBuilt m) {v : UnitName} {l : List UnitName}
    (hl : (m.startOrder v).2 = .ok l) (u : UnitName) : ∃ l, (m.startOrder u).2 = .ok l := by
  rw [UnitManager.startOrder_eq] at hl ⊢
  rcases h.graph_cases with ⟨e, hg⟩ | ⟨m', graph, hg, hord⟩
  · rw [hg] at hl
    cases hl
  · rw [hg]
    exact hord u

/-- Where one unit has no start order, no unit has, and asking changes nothing. -/
theorem startOrder_error (h : CacheBuilt m) {u : UnitName} {e : String}
    (he : (m.startOrder u).2 = .error e) :
    (m.startOrder u).1 = m ∧ ∀ v, (m.startOrder v).2 = .error e := by
  rcases h.graph_cases with ⟨e', hg⟩ | ⟨m', graph, hg, hord⟩
  · rw [UnitManager.startOrder_eq, hg] at he ⊢
    obtain rfl := Except.error.inj he
    exact ⟨rfl, fun v => by rw [UnitManager.startOrder_eq, hg]⟩
  · rw [UnitManager.startOrder_eq, hg] at he
    obtain ⟨l, hl⟩ := hord u
    cases hl.symm.trans he

end CacheBuilt

/-- A start request for `u` makes an instance of a template. -/
def MakesInstance (m : UnitManager) (u : UnitName) : Prop :=
  m.unitExists u = false ∧ m.isTemplate u = false ∧ ∃ config, m.expand u = .ok config

/-- A start that is answered with an error leaves the starts of the other units as they were,
unless the request made an instance : that stays, and what is wrong with it is then wrong
with every start. -/
theorem startOrder_of_reply {k : Kernel} {m : UnitManager} {u v : UnitName} {l : List UnitName}
    {status : Status} {text : String} (hm : Reachable m) (hl : (m.startOrder v).2 = .ok l)
    (hr : (controlStart k m u).2 = .reply status text) :
    ((controlStart k m u).1.startOrder v).2 = .ok l ↔ ¬MakesInstance m u := by
  have resolve (m : UnitManager) (l : List UnitName) (hu : (m.startOrder u).2 = .ok l) :
      ∃ job, ControlStart.new k m u = ((m.startOrder u).1, .ok job) := by
    unfold ControlStart.new
    split
    · next heq => simp [heq] at hu
    · next heq => exact ⟨_, by rw [heq]⟩
  unfold controlStart at hr ⊢
  dsimp only at hr ⊢
  by_cases hex : m.unitExists u = true
  · obtain ⟨l', hu⟩ := hm.cacheBuilt.startOrder_ok hl u
    obtain ⟨job, hjob⟩ := resolve m l' hu
    rw [if_pos hex, hjob] at hr
    cases hr
  rw [if_neg hex] at hr ⊢
  by_cases htemplate : m.isTemplate u = true
  · rw [if_pos htemplate]
    exact iff_of_true hl fun h => by simp [h.2.1] at htemplate
  rw [if_neg htemplate] at hr ⊢
  cases hi : m.instantiate u with
  | error e =>
    refine iff_of_true hl fun h => ?_
    obtain ⟨config, hc⟩ := h.2.2
    simp [UnitManager.instantiate, hc] at hi
  | ok m' =>
    obtain ⟨config, hc, -⟩ := UnitManager.get_instantiate hi
    have hinst : MakesInstance m u := ⟨by simpa using hex, by simpa using htemplate, config, hc⟩
    have hm' : Reachable m' := by
      have := Reachable.step k (.instantiate u) hm trivial
      rwa [UnitManager.apply, hi] at this
    rw [hi] at hr
    dsimp only at hr ⊢
    cases hu : (m'.startOrder u).2 with
    | ok l' =>
      obtain ⟨job, hjob⟩ := resolve m' l' hu
      rw [hjob] at hr
      cases hr
    | error e =>
      obtain ⟨hsame, hall⟩ := hm'.cacheBuilt.startOrder_error hu
      have hnew : ControlStart.new k m' u = (m', .error e) := by
        unfold ControlStart.new
        rw [show m'.startOrder u = (m', .error e) from Prod.ext hsame hu]
      rw [hnew]
      refine iff_of_false (fun h => ?_) fun h => h hinst
      cases (hall v).symm.trans h

/-- A service and a template that requires a unit there is none of. -/
def badTemplate : UnitManager :=
  ({} : UnitManager).apply (.granting 0 10) (.addWithInFlight (UnitConfig.new serviceA) false)
    |>.apply (.granting 0 10) (.setTemplates (Std.ExtTreeMap.empty.insert "t@.service"
      "[Unit]\nRequires=missing.service\n[Service]\nExecStart=/bin/t\n"))

theorem reachable_badTemplate : Reachable badTemplate := .step _ _ (.step _ _ .new rfl) trivial

/-- A start of a name that no template expands is turned down and harms nobody. -/
theorem startOrder_of_reply_unknown :
    (badTemplate.startOrder serviceA).2 = .ok [] ∧
    (((controlStart (.granting 1 10) badTemplate serviceB).1.startOrder serviceA).2 = .ok [] ↔
      ¬MakesInstance badTemplate serviceB) :=
  ⟨by decide, startOrder_of_reply reachable_badTemplate (by decide)
    (show (controlStart (.granting 1 10) badTemplate serviceB).2 = .reply .noSuchUnit
      "no such unit: b.service (b.service is not a template instance)" by decide)⟩

/-- A start of an instance of the bad template is answered with an error, and from then on no
unit can be started. -/
theorem startOrder_badTemplate : Reachable badTemplate ∧ badTemplate.unitExists serviceA = true ∧
    (badTemplate.startOrder serviceA).2 = .ok [] ∧
    (controlStart (.granting 1 10) badTemplate instanceT).2 =
      .reply .error ("cannot resolve dependencies for t@1.service: " ++
        "t@1.service: Requires=missing.service but no such unit file exists") ∧
    ((controlStart (.granting 1 10) badTemplate instanceT).1.startOrder serviceA).2 =
      .error "t@1.service: Requires=missing.service but no such unit file exists" :=
  ⟨reachable_badTemplate, by decide, by decide, by decide, by decide⟩

end Rinit
