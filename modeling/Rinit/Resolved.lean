import Rinit.Sockets

/-!
# What resolving sockets changes

`resolveSockets` collects the provider of every `Sockets=` path in a map and then goes over the
units a second time. Here its result is compared with a description that knows no map :
`providerOf` looks the path up in the list itself, and `withProviders` appends the providers that
are not in a list yet, each once. `resolveSocketsInPlace` is the call as it changes the list it is
given, and `resolveSockets_exact` says when it fails and what it leaves.
-/

namespace Rinit

/-- The unit of the list that declares a path. -/
def providerOf (configs : List UnitConfig) (path : String) : Option UnitName :=
  (configs.find? fun c => c.sockets.contains path).map UnitConfig.name

/-- The providers a unit of the list needs, other than itself, in the order of its paths. -/
def neededProviders (configs : List UnitConfig) (config : UnitConfig) : List UnitName :=
  config.needsSocket.filterMap fun path => (providerOf configs path).filter (· ≠ config.name)

/-- A list and the items of another that are not in it, each once. -/
def appendMissing {α : Type*} [DecidableEq α] (list added : List α) : List α :=
  list ++ (added.filter (· ∉ list)).eraseDups

/-- The definition with the providers it needs in `Requires=` and `After=`. -/
def withProviders (configs : List UnitConfig) (config : UnitConfig) : UnitConfig :=
  { config with deps := { config.deps with
      requires := appendMissing config.deps.requires (neededProviders configs config)
      after := appendMissing config.deps.after (neededProviders configs config) } }

/-- A warning for each needed path without a provider. -/
def orphansOf (configs : List UnitConfig) (config : UnitConfig) : List String :=
  (config.needsSocket.filter fun path => (providerOf configs path).isNone).map fun path =>
    config.name.canonical ++ ": NeedsSocket=" ++ path ++
      " has no unit declaring it; waiting for the path anyway"

/-- `resolveSockets` on the list it changes in place : the list afterwards and the answer. -/
def resolveSocketsInPlace (configs : List UnitConfig) :
    List UnitConfig × Except DependencyError (List String) :=
  match configs.foldlM claimSockets ∅ with
  | .error e => (configs, .error e)
  | .ok providers =>
    (configs.map (requireProviders providers), .ok (configs.flatMap (orphanWarnings providers)))

theorem resolveSockets_eq_inPlace (configs : List UnitConfig) :
    resolveSockets configs = (resolveSocketsInPlace configs).2.map
      fun warnings => ((resolveSocketsInPlace configs).1, warnings) := by
  unfold resolveSockets resolveSocketsInPlace
  cases configs.foldlM claimSockets ∅ <;> rfl

/-! ### Pushing what is missing -/

section missing

variable {α : Type*} [DecidableEq α]

theorem foldl_pushUnique (added : List α) : ∀ list : List α,
    added.foldl pushUnique list = appendMissing list added := by
  induction added with
  | nil =>
    intro list
    simp [appendMissing]
  | cons a added ih =>
    intro list
    rw [List.foldl_cons, ih]
    by_cases ha : a ∈ list
    · rw [pushUnique, if_pos (by simpa using ha)]
      simp [appendMissing, ha]
    · rw [pushUnique, if_neg (by simpa using ha)]
      simp only [appendMissing]
      rw [List.filter_cons_of_pos (by simpa using ha), List.eraseDups_cons, List.filter_filter,
        List.append_assoc]
      simp [and_comm, beq_eq_decide]

/-- Pushing a second time adds nothing. -/
theorem appendMissing_self (list added : List α) :
    appendMissing (appendMissing list added) added = appendMissing list added := by
  have hnone : added.filter (· ∉ appendMissing list added) = [] := by
    refine List.filter_eq_nil_iff.mpr fun a ha => ?_
    by_cases hl : a ∈ list
    · simp [appendMissing, hl]
    · simp [appendMissing, hl, ha]
  unfold appendMissing at hnone ⊢
  rw [hnone, List.eraseDups_nil, List.append_nil]

end missing

/-! ### The map of the providers -/

/-- The paths a list of units declares, in order. -/
def declaredPaths (configs : List UnitConfig) : List String := configs.flatMap UnitConfig.sockets

theorem providerOf_eq_none {configs : List UnitConfig} {path : String} :
    providerOf configs path = none ↔ path ∉ declaredPaths configs := by
  simp [providerOf, declaredPaths]

theorem providerOf_append (configs : List UnitConfig) (config : UnitConfig) (path : String) :
    providerOf (configs ++ [config]) path = (providerOf configs path).or
      (if path ∈ config.sockets then some config.name else none) := by
  unfold providerOf
  rw [List.find?_append]
  cases configs.find? fun c => c.sockets.contains path with
  | some c => rfl
  | none => by_cases hp : path ∈ config.sockets <;> simp [hp]

/-- The paths of a unit can be claimed exactly if they are distinct and free. -/
theorem claimSocket_foldlM (unit : UnitName) (paths : List String) : ∀ providers : Providers,
    (∃ claimed, paths.foldlM (claimSocket unit) providers = .ok claimed) ↔
      paths.Nodup ∧ ∀ path ∈ paths, providers[path]? = none := by
  induction paths with
  | nil => exact fun providers => ⟨fun _ => ⟨List.nodup_nil, by simp⟩, fun _ => ⟨providers, rfl⟩⟩
  | cons path paths ih =>
    intro providers
    rw [List.foldlM_cons, List.nodup_cons]
    cases hp : providers[path]? with
    | some first =>
      refine iff_of_false ?_ fun h => ?_
      · rintro ⟨claimed, h⟩
        rw [claimSocket, hp] at h
        cases h
      · have := h.2 path (by simp)
        rw [hp] at this
        cases this
    | none =>
      have hstep : claimSocket unit providers path = .ok (providers.insert path unit) := by
        rw [claimSocket, hp]
      have hfree (q : String) : (providers.insert path unit)[q]? = none ↔
          path ≠ q ∧ providers[q]? = none := by
        rw [Std.ExtTreeMap.getElem?_insert]
        by_cases hq : path = q <;> simp [hq]
      rw [hstep]
      refine (ih _).trans ?_
      simp only [hfree, List.mem_cons, forall_eq_or_imp, hp, true_and]
      constructor
      · rintro ⟨hnodup, hrest⟩
        exact ⟨⟨fun hmem => (hrest path hmem).1 rfl, hnodup⟩, fun q hq => (hrest q hq).2⟩
      · rintro ⟨⟨hnew, hnodup⟩, hrest⟩
        exact ⟨hnodup, fun q hq => ⟨fun h => hnew (h ▸ hq), hrest q hq⟩⟩

/-- A claim that is accepted gives the paths of the unit to it and leaves the others. -/
theorem getElem?_claimSockets {config : UnitConfig} {providers claimed : Providers}
    (h : claimSockets providers config = .ok claimed) (path : String) :
    claimed[path]? = (providers[path]?).or
      (if path ∈ config.sockets then some config.name else none) := by
  obtain ⟨hkept, hown⟩ := claimSockets_eq_ok h
  cases hp : providers[path]? with
  | some u => exact hkept path u hp
  | none =>
    rw [Option.none_or]
    by_cases hmem : path ∈ config.sockets
    · rw [if_pos hmem, hown path hmem]
    · rw [if_neg hmem]
      refine Runs.foldlM_induction (P := fun done (held : Providers) =>
        path ∉ done → held[path]? = none) h (fun _ => hp) ?_ hmem
      intro done q rest held held' _ ih hstep hnot
      obtain ⟨-, rfl⟩ := claimSocket_eq_ok hstep
      rw [List.mem_append, List.mem_singleton, not_or] at hnot
      rw [Std.ExtTreeMap.getElem?_insert, if_neg, ih hnot.1]
      exact fun hq => hnot.2 (Std.LawfulEqCmp.eq_of_compare hq).symm

/-- The map is built exactly if no path is declared twice, and it is then the list's own
answer for every path. -/
theorem claimSockets_foldlM (configs : List UnitConfig) :
    ((∃ providers, configs.foldlM claimSockets ∅ = .ok providers) ↔
      (declaredPaths configs).Nodup) ∧
    ∀ providers, configs.foldlM claimSockets ∅ = .ok providers →
      ∀ path : String, providers[path]? = providerOf configs path := by
  induction configs using List.reverseRecOn with
  | nil =>
    refine ⟨⟨fun _ => List.nodup_nil, fun _ => ⟨∅, rfl⟩⟩, fun providers h path => ?_⟩
    obtain rfl := Except.ok.inj h
    simp [providerOf]
  | append_singleton configs config ih =>
    have hpaths : declaredPaths (configs ++ [config]) =
        declaredPaths configs ++ config.sockets := by
      simp [declaredPaths]
    rw [hpaths, List.foldlM_append]
    cases hrun : configs.foldlM claimSockets ∅ with
    | error e =>
      refine ⟨iff_of_false (by rintro ⟨_, h⟩; cases h) fun h => ?_, fun _ h => by cases h⟩
      obtain ⟨providers, hok⟩ := ih.1.mpr (List.nodup_append.mp h).1
      rw [hrun] at hok
      cases hok
    | ok providers =>
      have hmap := ih.2 providers hrun
      have hnodup := ih.1.mp ⟨providers, hrun⟩
      have hlast (claimed : Providers) :
          ((Except.ok providers >>= fun p => [config].foldlM claimSockets p) = .ok claimed) ↔
            claimSockets providers config = .ok claimed := by
        change (claimSockets providers config >>= fun p => pure p) = _ ↔ _
        rw [bind_pure]
      simp only [hlast]
      constructor
      · refine (claimSocket_foldlM config.name config.sockets providers).trans ?_
        rw [List.nodup_append]
        simp only [hmap, providerOf_eq_none]
        constructor
        · rintro ⟨hown, hfree⟩
          exact ⟨hnodup, hown, fun a ha b hb hab => hfree b hb (hab ▸ ha)⟩
        · rintro ⟨-, hown, hdis⟩
          exact ⟨hown, fun path hp hd => hdis path hd path hp rfl⟩
      · intro claimed h path
        rw [getElem?_claimSockets h, hmap, providerOf_append]

/-! ### The result -/

theorem requireProviders_eq {configs : List UnitConfig} {providers : Providers}
    (h : ∀ path : String, providers[path]? = providerOf configs path) :
    requireProviders providers = withProviders configs := by
  funext config
  have hneeded : config.needsSocket.filterMap (requiredProvider providers config) =
      neededProviders configs config := by
    refine congrArg (config.needsSocket.filterMap ·) (funext fun path => ?_)
    rw [requiredProvider, h]
  rw [requireProviders, hneeded, foldl_pushUnique, foldl_pushUnique]
  rfl

theorem orphanWarnings_eq {configs : List UnitConfig} {providers : Providers}
    (h : ∀ path : String, providers[path]? = providerOf configs path) :
    orphanWarnings providers = orphansOf configs := by
  funext config
  simp only [orphanWarnings, orphansOf, h]

/-- The call, without the map. -/
theorem resolveSocketsInPlace_eq {configs : List UnitConfig}
    (h : (declaredPaths configs).Nodup) : resolveSocketsInPlace configs =
      (configs.map (withProviders configs), .ok (configs.flatMap (orphansOf configs))) := by
  obtain ⟨hiff, hmap⟩ := claimSockets_foldlM configs
  obtain ⟨providers, hok⟩ := hiff.mpr h
  rw [resolveSocketsInPlace, hok]
  simp only
  rw [requireProviders_eq (hmap providers hok), orphanWarnings_eq (hmap providers hok)]

/-- Resolving changes no declaration. -/
theorem providerOf_map_withProviders (configs : List UnitConfig) :
    providerOf (configs.map (withProviders configs)) = providerOf configs := by
  funext path
  unfold providerOf
  rw [List.find?_map, Option.map_map]
  rfl

theorem withProviders_withProviders (configs : List UnitConfig) (config : UnitConfig) :
    withProviders configs (withProviders configs config) = withProviders configs config := by
  have hneeded : neededProviders configs (withProviders configs config) =
      neededProviders configs config := rfl
  rw [withProviders, hneeded]
  simp only [withProviders, appendMissing_self]

theorem declaredPaths_map_withProviders (configs : List UnitConfig) :
    declaredPaths (configs.map (withProviders configs)) = declaredPaths configs := by
  unfold declaredPaths
  rw [List.flatMap_map]
  rfl

/-- Sockets become edges exactly. For every list of definitions the call fails if and only if
some path is declared twice, and then leaves the list as it is. Otherwise each definition has
the providers it needs appended to `Requires=` and to `After=` where they were missing, and
nothing else changed, the warnings are one for each needed path without a provider, in
order, and a second call changes nothing. -/
theorem resolveSockets_exact (configs : List UnitConfig) :
    ((∃ e, (resolveSocketsInPlace configs).2 = .error e) ↔
      ¬(configs.flatMap UnitConfig.sockets).Nodup) ∧
    ((∃ e, (resolveSocketsInPlace configs).2 = .error e) →
      (resolveSocketsInPlace configs).1 = configs) ∧
    ∀ warnings, (resolveSocketsInPlace configs).2 = .ok warnings →
      (resolveSocketsInPlace configs).1 = configs.map (withProviders configs) ∧
      warnings = configs.flatMap (orphansOf configs) ∧
      resolveSocketsInPlace (resolveSocketsInPlace configs).1 = resolveSocketsInPlace configs := by
  have hiff : (∃ e, (resolveSocketsInPlace configs).2 = .error e) ↔
      ¬(declaredPaths configs).Nodup := by
    rw [← (claimSockets_foldlM configs).1, resolveSocketsInPlace]
    cases configs.foldlM claimSockets ∅ <;> simp
  refine ⟨hiff, fun ⟨e, he⟩ => ?_, fun warnings hok => ?_⟩
  · unfold resolveSocketsInPlace at he ⊢
    cases hrun : configs.foldlM claimSockets ∅ with
    | error e => rfl
    | ok providers =>
      rw [hrun] at he
      cases he
  · have hnodup : (declaredPaths configs).Nodup := by
      by_contra hdup
      obtain ⟨e, he⟩ := hiff.mpr hdup
      rw [hok] at he
      cases he
    have hcall := resolveSocketsInPlace_eq hnodup
    rw [hcall] at hok ⊢
    refine ⟨rfl, (Except.ok.inj hok).symm, ?_⟩
    rw [resolveSocketsInPlace_eq (by rwa [declaredPaths_map_withProviders])]
    have hwith : withProviders (configs.map (withProviders configs)) = withProviders configs := by
      funext config
      simp only [withProviders, neededProviders, providerOf_map_withProviders]
    have horphans (config : UnitConfig) : orphansOf (configs.map (withProviders configs))
        (withProviders configs config) = orphansOf configs config := by
      simp only [orphansOf, providerOf_map_withProviders]
      rfl
    rw [hwith, List.map_map, List.flatMap_map]
    refine Prod.ext ?_ ?_
    · exact congrArg configs.map (funext fun config => withProviders_withProviders configs config)
    · exact congrArg (Except.ok ∘ configs.flatMap) (funext horphans)

/-- A provider, a unit that needs its path and one of its own, and a unit that needs a path
nobody declares. -/
def socketUnits : List UnitConfig :=
  [{ UnitConfig.new serviceA with sockets := ["/run/a"] },
    { UnitConfig.new serviceB with
      sockets := ["/run/b"], needsSocket := ["/run/b", "/run/a", "/run/a"] },
    { UnitConfig.new targetD with needsSocket := ["/run/x"] }]

theorem resolveSockets_socketUnits :
    (resolveSocketsInPlace socketUnits).1 = socketUnits.map (withProviders socketUnits) ∧
    (socketUnits.map (withProviders socketUnits)).map (·.deps.requires) = [[], [serviceA], []] := by
  have hok : ¬∃ e, (resolveSocketsInPlace socketUnits).2 = .error e := fun h =>
    (resolveSockets_exact socketUnits).1.mp h (by decide)
  cases hcall : (resolveSocketsInPlace socketUnits).2 with
  | error e => exact absurd ⟨e, hcall⟩ hok
  | ok warnings =>
    exact ⟨((resolveSockets_exact socketUnits).2.2 warnings hcall).1, by decide⟩

end Rinit
