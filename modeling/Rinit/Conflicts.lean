import Rinit.Merge
import Rinit.Targets
import Rinit.Teardown

/-!
# Conflicts at a shutdown

The stop sequence is repaired in place : where a unit stands before one it conflicts with, the
other is moved in front of it, and the pass goes on from the shifted position. `Swept` is the
invariant of a pass. The units in front of the position that were not moved in this pass have
nothing left behind them that they conflict with, so that whatever a pass leaves unsettled was
moved in it, by a unit that was unsettled before it. An unsettled unit after `n` passes is
therefore the end of a chain of `n` conflicts (`Trail`), which is longer than the sequence has
units unless there is a cycle. `shutdownOrder_exact` : the result is a permutation of the
started units, and without a cycle every superseded unit comes first.
-/

namespace Rinit

open Relation

/-! ## One pass over a list -/

section pass

variable {α : Type*} {R : α → α → Prop} {o pre rest moved : List α} {x y : α}

/-- `x` stands before something it supersedes. -/
def Unsettled (R : α → α → Prop) (o : List α) (x : α) : Prop := ∃ y, R x y ∧ [x, y].Sublist o

/-- A pass over `o` between `pre` and `rest` that has moved `moved`. -/
structure Swept (R : α → α → Prop) (o pre rest moved : List α) : Prop where
  perm : (pre ++ rest).Perm o
  behind : rest.Sublist o
  cause : ∀ y ∈ moved, ∃ x, R x y ∧ [x, y].Sublist o
  settled : ∀ x ∈ pre, x ∉ moved → ¬Unsettled R (pre ++ rest) x

theorem Swept.init (o : List α) : Swept R o [] o [] where
  perm := .refl o
  behind := .refl o
  cause := by simp
  settled := by simp

/-- The pass goes on when nothing behind the unit is superseded by it. -/
theorem Swept.keep (h : Swept R o pre (x :: rest) moved) (hn : o.Nodup)
    (hx : ∀ y, R x y → y ∉ rest) : Swept R o (pre ++ [x]) rest moved := by
  have heq : pre ++ [x] ++ rest = pre ++ x :: rest := by simp
  refine ⟨heq ▸ h.perm, (List.sublist_cons_self x rest).trans h.behind, h.cause, fun z hz hm => ?_⟩
  rw [heq]
  rcases List.mem_append.mp hz with hz | hz
  · exact h.settled z hz hm
  · obtain rfl := List.mem_singleton.mp hz
    rintro ⟨y, hR, hsub⟩
    have hnodup := (h.perm.nodup_iff).mpr hn
    obtain ⟨-, htail, hdis⟩ := List.nodup_append.mp hnodup
    rcases sublist_pair_append.mp hsub with hsub | ⟨hz', -⟩ | hsub
    · exact hdis z (hsub.subset (by simp)) z (by simp) rfl
    · exact hdis z hz' z (by simp) rfl
    · cases hsub with
      | cons _ hsub => exact (List.nodup_cons.mp htail).1 (hsub.subset (by simp))
      | cons_cons _ hsub => exact hx y hR (List.singleton_sublist.mp hsub)

/-- The pass goes on when a superseded unit behind the position is moved in front of it. -/
theorem Swept.move {r₁ r₂ : List α} (h : Swept R o pre (x :: (r₁ ++ y :: r₂)) moved)
    (hn : o.Nodup) (hR : R x y) : Swept R o (pre ++ [y]) (x :: (r₁ ++ r₂)) (y :: moved) := by
  have hbehind : (y :: x :: (r₁ ++ r₂)).Perm (x :: (r₁ ++ y :: r₂)) :=
    (List.Perm.swap x y _).trans (List.perm_middle.symm.cons x)
  have hperm : (pre ++ [y] ++ x :: (r₁ ++ r₂)).Perm (pre ++ x :: (r₁ ++ y :: r₂)) := by
    rw [List.append_assoc]
    exact hbehind.append_left pre
  have hrest : (x :: (r₁ ++ r₂)).Sublist (x :: (r₁ ++ y :: r₂)) :=
    ((List.Sublist.refl r₁).append (List.sublist_cons_self y r₂)).cons_cons x
  refine ⟨hperm.trans h.perm, hrest.trans h.behind, fun z hz => ?_, fun z hz hm => ?_⟩
  · rcases List.mem_cons.mp hz with rfl | hz
    · refine ⟨x, hR, List.Sublist.trans ?_ h.behind⟩
      exact (List.singleton_sublist.mpr (by simp)).cons_cons x
    · exact h.cause z hz
  · rw [List.mem_cons, not_or] at hm
    have hpre : z ∈ pre := (List.mem_append.mp hz).resolve_right (by simpa using hm.1)
    rintro ⟨w, hw, hsub⟩
    refine h.settled z hpre hm.2 ⟨w, hw, ?_⟩
    rw [List.append_assoc] at hsub
    have hnodup : (pre ++ ([y] ++ x :: (r₁ ++ r₂))).Nodup := by
      rw [← List.append_assoc]
      exact (hperm.trans h.perm).nodup_iff.mpr hn
    have hdis := (List.nodup_append.mp hnodup).2.2
    rcases sublist_pair_append.mp hsub with hsub | ⟨-, hw⟩ | hsub
    · exact sublist_pair_append.mpr (.inl hsub)
    · exact sublist_pair_append.mpr (.inr (.inl ⟨hpre, hbehind.mem_iff.mp hw⟩))
    · exact absurd rfl (hdis z hpre z (hsub.subset (by simp)))

/-- What a whole pass leaves unsettled it has moved, because of a unit that was unsettled
before. -/
theorem Swept.unsettled (h : Swept R o pre [] moved) (hx : Unsettled R pre x) :
    x ∈ moved ∧ ∃ w, R w x ∧ Unsettled R o w := by
  have hmoved : x ∈ moved := by
    by_contra hm
    obtain ⟨y, -, hsub⟩ := id hx
    refine h.settled x (hsub.subset (by simp)) hm ?_
    rwa [List.append_nil]
  obtain ⟨w, hw, hsub⟩ := h.cause x hmoved
  exact ⟨hmoved, w, hw, x, hw, hsub⟩

/-- `x` is the end of a chain of `n` steps of the relation among the members of `o`. -/
def Trail (R : α → α → Prop) (o : List α) (n : ℕ) (x : α) : Prop :=
  ∃ ws : List α, ws.length = n ∧ (x :: ws).IsChain (fun a b => R b a) ∧ ∀ w ∈ x :: ws, w ∈ o

theorem Trail.zero (hx : x ∈ o) : Trail R o 0 x :=
  ⟨[], rfl, List.isChain_singleton x, by simpa using hx⟩

theorem Trail.succ {n : ℕ} (h : Trail R o n x) (hR : R x y) (hy : y ∈ o) :
    Trail R o (n + 1) y := by
  obtain ⟨ws, hlen, hchain, hmem⟩ := h
  refine ⟨x :: ws, by simp [hlen], List.isChain_cons_cons.mpr ⟨hR, hchain⟩, fun w hw => ?_⟩
  rcases List.mem_cons.mp hw with rfl | hw
  · exact hy
  · exact hmem w hw

/-- Without a cycle a chain is shorter than the list. -/
theorem Trail.lt_length {n : ℕ} (h : Trail R o n x)
    (hacyclic : ∀ a, ¬TransGen (fun a b => a ∈ o ∧ b ∈ o ∧ R a b) a a) : n < o.length := by
  obtain ⟨ws, hlen, hchain, hmem⟩ := h
  have hchain' : (x :: ws).IsChain fun a b => TransGen (fun a b => a ∈ o ∧ b ∈ o ∧ R a b) b a :=
    List.IsChain.imp_of_mem_imp (fun a b ha hb hab => .single ⟨hmem b hb, hmem a ha, hab⟩) hchain
  have htrans : IsTrans α fun a b => TransGen (fun a b => a ∈ o ∧ b ∈ o ∧ R a b) b a :=
    ⟨fun a b c hab hbc => hbc.trans hab⟩
  have hnodup : (x :: ws).Nodup := by
    refine List.Pairwise.imp (fun {a b} hab => ?_) hchain'.pairwise
    rintro rfl
    exact hacyclic _ hab
  have hle := (List.subperm_of_subset hnodup hmem).length_le
  rw [List.length_cons, hlen] at hle
  exact hle

end pass

theorem sublist_pair_or {α : Type*} {l : List α} {a b : α} (ha : a ∈ l) (hb : b ∈ l)
    (hab : a ≠ b) : [a, b].Sublist l ∨ [b, a].Sublist l := by
  obtain ⟨l₁, l₂, rfl⟩ := List.append_of_mem ha
  rcases List.mem_append.mp hb with hb | hb
  · exact .inr (sublist_pair_append.mpr (.inr (.inl ⟨hb, by simp⟩)))
  · have hb' : b ∈ l₂ := (List.mem_cons.mp hb).resolve_left hab.symm
    exact .inl (sublist_pair_append.mpr
      (.inr (.inr ((List.singleton_sublist.mpr hb').cons_cons a))))

/-! ## The passes of the manager -/

namespace UnitManager

variable {m : UnitManager} {o pre rest : List UnitName} {x y : UnitName}

/-- The definition of `x` names `y` in `Conflicts=`. -/
def ConflictsWith (m : UnitManager) (x y : UnitName) : Prop :=
  ∃ rt, m.get x = some rt ∧ y ∈ rt.config.deps.conflicts

theorem idxOf?_behind {α : Type*} [DecidableEq α] {pre r₁ r₂ : List α} {x y : α}
    (hn : (pre ++ x :: (r₁ ++ y :: r₂)).Nodup) :
    (pre ++ x :: (r₁ ++ y :: r₂)).idxOf? y = some (pre.length + 1 + r₁.length) := by
  rw [List.idxOf?_eq_some_iff]
  have hat : (pre ++ x :: (r₁ ++ y :: r₂))[pre.length + 1 + r₁.length]? = some y := by
    rw [List.getElem?_append_right (by omega),
      show pre.length + 1 + r₁.length - pre.length = r₁.length + 1 by omega]
    simp
  obtain ⟨hlt, hget⟩ := List.getElem?_eq_some_iff.mp hat
  refine ⟨hlt, hget, fun j hj hjy => ?_⟩
  have := (hn.getElem_inj_iff (i := j) (j := pre.length + 1 + r₁.length)).mp (hjy.trans hget.symm)
  omega

/-- What the unit at the position finds behind it : nothing it conflicts with, or a unit
that it does, and where this one stands. -/
theorem laterConflict_cases (hn : (pre ++ x :: rest).Nodup) :
    (m.laterConflict (pre ++ x :: rest) pre.length = none ∧ ∀ y, m.ConflictsWith x y → y ∉ rest) ∨
    ∃ y r₁ r₂, m.ConflictsWith x y ∧ rest = r₁ ++ y :: r₂ ∧
      m.laterConflict (pre ++ x :: rest) pre.length = some (pre.length + 1 + r₁.length) := by
  have hx : (pre ++ x :: rest)[pre.length]? = some x := by simp
  cases hlater : m.laterConflict (pre ++ x :: rest) pre.length with
  | none =>
    refine .inl ⟨rfl, fun y ⟨rt, hrt, hy⟩ hmem => ?_⟩
    obtain ⟨r₁, r₂, rfl⟩ := List.append_of_mem hmem
    unfold laterConflict at hlater
    rw [hx, Option.bind_some, hrt, Option.bind_some, List.findSome?_eq_none_iff] at hlater
    have hnone := hlater y hy
    rw [idxOf?_behind hn, Option.filter_some, if_pos (by simp; omega)] at hnone
    cases hnone
  | some j =>
    right
    unfold laterConflict at hlater
    rw [hx, Option.bind_some] at hlater
    obtain ⟨rt, hrt, hfind⟩ := Option.bind_eq_some_iff.mp hlater
    obtain ⟨y, hy, hidx⟩ := List.exists_of_findSome?_eq_some hfind
    obtain ⟨hidx, hlt⟩ := Option.filter_eq_some_iff.mp hidx
    have hmem : y ∈ rest := by
      obtain ⟨hj, hget, -⟩ := List.idxOf?_eq_some_iff.mp hidx
      have hlt : pre.length < j := by simpa using hlt
      have hat : (pre ++ x :: rest)[j]? = some y := List.getElem?_eq_some_iff.mpr ⟨hj, hget⟩
      rw [List.getElem?_append_right hlt.le] at hat
      obtain ⟨i, hi⟩ : ∃ i, j - pre.length = i + 1 := ⟨j - pre.length - 1, by omega⟩
      rw [hi, List.getElem?_cons_succ] at hat
      exact List.mem_of_getElem? hat
    obtain ⟨r₁, r₂, rfl⟩ := List.append_of_mem hmem
    rw [idxOf?_behind hn] at hidx
    exact ⟨y, r₁, r₂, ⟨rt, hrt, hy⟩, rfl, hidx.symm⟩

theorem insertIdx_length_append {α : Type*} (pre l : List α) (y : α) :
    (pre ++ l).insertIdx pre.length y = pre ++ y :: l := by
  induction pre with
  | nil => rfl
  | cons a pre ih => rw [List.cons_append, List.length_cons, List.insertIdx_succ_cons, ih,
      List.cons_append]

theorem moveConflict_move {r₁ r₂ : List UnitName} {changed : Bool}
    (h : m.laterConflict (pre ++ x :: (r₁ ++ y :: r₂)) pre.length =
      some (pre.length + 1 + r₁.length)) :
    m.moveConflict (pre ++ x :: (r₁ ++ y :: r₂), changed) pre.length =
      (pre ++ [y] ++ x :: (r₁ ++ r₂), true) := by
  have hidx : pre.length + 1 + r₁.length - pre.length = r₁.length + 1 := by omega
  have hat : (pre ++ x :: (r₁ ++ y :: r₂))[pre.length + 1 + r₁.length]? = some y := by
    rw [List.getElem?_append_right (by omega), hidx]
    simp
  unfold moveConflict
  simp only [h, hat]
  rw [List.eraseIdx_append_of_length_le (by omega), hidx, List.eraseIdx_cons_succ,
    List.eraseIdx_append_of_length_le le_rfl, Nat.sub_self, List.eraseIdx_cons_zero,
    insertIdx_length_append, List.append_assoc]
  rfl

/-- A pass up to a position. -/
theorem sweep (hn : o.Nodup) (n : ℕ) (hle : n ≤ o.length) : ∃ pre rest moved,
    (List.range n).foldl m.moveConflict (o, false) = (pre ++ rest, !moved.isEmpty) ∧
    pre.length = n ∧ Swept m.ConflictsWith o pre rest moved := by
  induction n with
  | zero => exact ⟨[], o, [], rfl, rfl, .init o⟩
  | succ n ih =>
    obtain ⟨pre, rest, moved, hrun, rfl, hswept⟩ := ih (by omega)
    have hlen := hswept.perm.length_eq
    cases rest with
    | nil =>
      rw [List.append_nil] at hlen
      omega
    | cons x rest =>
      rw [List.range_succ, List.foldl_append, hrun]
      rcases laterConflict_cases (m := m) (hswept.perm.nodup_iff.mpr hn) with
        ⟨hnone, hx⟩ | ⟨y, r₁, r₂, hy, rfl, hsome⟩
      · refine ⟨pre ++ [x], rest, moved, ?_, by simp, hswept.keep hn hx⟩
        simp [moveConflict, hnone]
      · refine ⟨pre ++ [y], x :: (r₁ ++ r₂), y :: moved, ?_, by simp, hswept.move hn hy⟩
        simp only [List.foldl_cons, List.foldl_nil]
        exact moveConflict_move hsome

/-- The passes only permute, and a unit they leave unsettled is the end of a chain of
conflicts that grew by one in every pass. -/
theorem conflictPasses_spec {started : List UnitName} (n : ℕ) : ∀ {o : List UnitName} {k : ℕ},
    o.Nodup → o.Perm started →
      (∀ x, Unsettled m.ConflictsWith o x → Trail m.ConflictsWith started k x) →
      (m.conflictPasses n o).Perm started ∧
      ∀ x, Unsettled m.ConflictsWith (m.conflictPasses n o) x →
        Trail m.ConflictsWith started (k + n) x := by
  induction n with
  | zero => exact fun _ hp hk => ⟨hp, hk⟩
  | succ n ih =>
    intro o k hn hp hk
    obtain ⟨pre, rest, moved, hrun, hlen, hswept⟩ := sweep (m := m) hn o.length le_rfl
    have hrest : rest = [] := by
      have := hswept.perm.length_eq
      rw [List.length_append] at this
      exact List.length_eq_zero_iff.mp (by omega)
    subst hrest
    have hperm : pre.Perm o := by simpa using hswept.perm
    rw [conflictPasses, hrun, List.append_nil]
    simp only
    cases hm : moved with
    | nil =>
      rw [hm] at hswept
      exact ⟨hperm.trans hp, fun x hx => absurd (hswept.unsettled hx).1 List.not_mem_nil⟩
    | cons y moved' =>
      have hnext := ih (o := pre) (k := k + 1) (hperm.nodup_iff.mpr hn) (hperm.trans hp)
        fun x hx => by
          obtain ⟨-, w, hw, hun⟩ := hswept.unsettled hx
          obtain ⟨z, -, hsub⟩ := hx
          exact (hk w hun).succ hw ((hperm.trans hp).mem_iff.mp (hsub.subset (by simp)))
      rw [show k + 1 + n = k + (n + 1) by omega] at hnext
      exact hnext

end UnitManager

/-! ## The queue of the manager -/

/-- A queue that was made by its own operations; there are no others. -/
def JobQueue.Made (q : JobQueue) : Prop := ∃ ops, q = JobQueue.run ops

namespace JobQueue.Made

variable {q : JobQueue}

theorem submit (h : q.Made) (job : Job) : (q.submit job).1.Made := by
  obtain ⟨ops, rfl⟩ := h
  refine ⟨ops ++ [.submit job], ?_⟩
  rw [run_concat]
  rfl

theorem forget (h : q.Made) (unit : UnitName) : (q.forget unit).Made := by
  obtain ⟨ops, rfl⟩ := h
  refine ⟨ops ++ [.forget unit], ?_⟩
  rw [run_concat]
  rfl

end JobQueue.Made

namespace UnitManager

variable {k : Kernel} {m : UnitManager} {u : UnitName}

theorem made_submitRequest (h : m.jobs.Made) (target : JobTarget) (source : RequestSource) :
    (m.submitRequest k u target source).1.jobs.Made := by
  rw [jobs_submitRequest]
  refine JobQueue.Made.submit ?_ _
  unfold forgetSpentTarget
  split
  · exact h.forget u
  · exact h

theorem made_request (h : m.jobs.Made) (target : JobTarget) (source : RequestSource) :
    (m.request k u target source).1.jobs.Made := by
  unfold request
  split
  · exact made_submitRequest h target source
  · split
    · exact h
    · next m' hm' =>
      exact made_submitRequest ((sameRequests_instantiate hm').jobs ▸ h) target source

theorem made_dueQueuedStarts (h : m.jobs.Made) : (m.dueQueuedStarts k).1.jobs.Made := by
  unfold dueQueuedStarts
  refine Runs.foldl_induction (P := fun _ (s : UnitManager × List UnitName) => s.1.jobs.Made) h ?_
  intro done e rest s _ hs
  dsimp only
  unfold dueQueuedStart
  split
  · exact hs
  · split
    · exact hs
    · exact made_request (m := { s.1 with queuedStarts := s.1.queuedStarts.erase e.1 }) hs _ _

theorem made_stopConflicts (h : m.jobs.Made) (u : UnitName) :
    (m.stopConflicts k u).1.jobs.Made := by
  unfold stopConflicts
  split
  · exact h
  · refine Runs.foldl_induction (P := fun _ (s : UnitManager × List UnitName) => s.1.jobs.Made)
      h ?_
    intro done other rest s _ hs
    dsimp only
    unfold stopConflict
    split
    · dsimp only
      rw [stopUnit, (sameRequests_update ..).jobs]
      exact made_request hs _ _
    · exact hs

/-- Every operation of the manager leaves it with such a queue. -/
theorem made_apply (h : m.jobs.Made) (op : Op) : (m.apply k op).jobs.Made := by
  by_cases hr : op.Requests
  · cases op with
    | requestStart u source | requestStop u source => exact made_request h _ _
    | dueQueuedStarts => exact made_dueQueuedStarts h
    | stopConflicts u => exact made_stopConflicts h u
    | retire u =>
      unfold apply retire
      dsimp only
      split <;> exact h
    | _ => exact hr.elim
  · rw [(sameRequests_apply hr).jobs]
    exact h

theorem made_of_reachable (h : Reachable m) : m.jobs.Made := by
  induction h with
  | new => exact ⟨[], rfl⟩
  | step k op _ _ ih => exact made_apply ih op

/-! ## The result -/

theorem nodup_startedUnits (h : m.jobs.Made) : m.startedUnits.Nodup := by
  obtain ⟨ops, hops⟩ := h
  have hmerged : (m.jobs.merged.map Prod.fst).Nodup := hops ▸ JobQueue.nodup_run ops
  have htargets : (m.jobs.targets.map Prod.fst).Nodup :=
    ((List.perm_insertionSort _ m.jobs.merged).map Prod.fst).nodup_iff.mpr hmerged
  exact htargets.sublist (List.filter_sublist.map _)

/-- The sequence the passes begin with has every started unit once. -/
theorem stopSequence_perm (h : m.jobs.Made) : m.stopSequence.Perm m.startedUnits := by
  unfold stopSequence
  dsimp only
  obtain ⟨scheduled, hs, hsub, hsn, -⟩ :=
    foldl_pushUnique_eq (m.shutdownOrder.reverse.filter m.startedUnits.contains) []
  rw [hs, List.nil_append]
  obtain ⟨added, ha, -, han, hmem⟩ := foldl_pushUnique_eq m.startedUnits scheduled
  rw [ha]
  have hstarted (u : UnitName) (hu : u ∈ scheduled) : u ∈ m.startedUnits := by
    have := (List.mem_filter.mp (hsub.subset hu)).2
    simpa using this
  refine (List.perm_ext_iff_of_nodup ?_ (nodup_startedUnits h)).mpr fun u => ?_
  · refine List.nodup_append.mpr ⟨hsn, han, fun a hs' b hb hab => ?_⟩
    exact ((hmem b).mp hb).2 (hab ▸ hs')
  · rw [List.mem_append, hmem]
    exact ⟨fun hu => hu.elim (hstarted u) fun hu => hu.1,
      fun hu => or_iff_not_imp_left.mpr fun hn => ⟨hu, hn⟩⟩

/-- The order of a shutdown, for any state of the manager. It is a permutation of the started
units, and where `Conflicts=` has no cycle among them, a started unit that another one names
in `Conflicts=` comes before it. -/
theorem shutdownOrder_exact (m : UnitManager) (h : m.jobs.Made) :
    m.getShutdownOrder.Perm m.startedUnits ∧
    ((∀ a, ¬TransGen (fun x y =>
        x ∈ m.startedUnits ∧ y ∈ m.startedUnits ∧ m.ConflictsWith x y) a a) →
      ∀ x ∈ m.startedUnits, ∀ y ∈ m.startedUnits, m.ConflictsWith x y →
        [y, x].Sublist m.getShutdownOrder) := by
  have hseq := stopSequence_perm h
  have hnodup := hseq.nodup_iff.mpr (nodup_startedUnits h)
  have htrail₀ (x : UnitName) (hx : Unsettled m.ConflictsWith m.stopSequence x) :
      Trail m.ConflictsWith m.startedUnits 0 x := by
    obtain ⟨y, -, hsub⟩ := hx
    exact .zero (hseq.mem_iff.mp (hsub.subset (by simp)))
  obtain ⟨hperm, htrail⟩ := conflictPasses_spec m.stopSequence.length hnodup hseq htrail₀
  refine ⟨hperm, fun hacyclic x hx y hy hxy => ?_⟩
  have hsettled : ¬[x, y].Sublist m.getShutdownOrder := fun hsub => by
    have hlt := (htrail x ⟨y, hxy, hsub⟩).lt_length hacyclic
    rw [Nat.zero_add, hseq.length_eq] at hlt
    exact lt_irrefl _ hlt
  have hne : x ≠ y := by
    rintro rfl
    exact hacyclic x (.single ⟨hx, hy, hxy⟩)
  exact (sublist_pair_or (hperm.mem_iff.mpr hx) (hperm.mem_iff.mpr hy) hne).resolve_left hsettled

/-- Two services and a target that are started, where the target conflicts with the second
service and this one with the first. -/
def superseding : UnitManager :=
  let k := Kernel.granting 0 10
  ({} : UnitManager)
    |>.apply k (.addWithInFlight (UnitConfig.new serviceA) false)
    |>.apply k (.addWithInFlight
      { UnitConfig.new serviceB with deps := { conflicts := [serviceA] } } false)
    |>.apply k (.addWithInFlight
      { UnitConfig.new targetD with deps := { conflicts := [serviceB] } } false)
    |>.apply k (.setShutdownOrder [serviceA, serviceB, targetD])
    |>.apply k (.requestStart serviceA .userStart)
    |>.apply k (.requestStart serviceB .userStart)
    |>.apply k (.requestStart targetD .userStart)

/-- Every conflict goes down in this order. -/
def supersedingRank (u : UnitName) : ℕ := if u = serviceA then 0 else if u = serviceB then 1 else 2

theorem superseding_conflictsWith {x y : UnitName} (h : superseding.ConflictsWith x y) :
    supersedingRank y < supersedingRank x := by
  have hnames : (superseding.units.toList.map fun e => (e.1, e.2.config.deps.conflicts)) =
      [(serviceA, []), (serviceB, [serviceA]), (targetD, [serviceB])] := by decide +kernel
  obtain ⟨rt, hrt, hy⟩ := h
  have hmem := List.mem_map_of_mem (f := fun e => (e.1, e.2.config.deps.conflicts))
    (Std.ExtTreeMap.mem_toList_iff_getElem?_eq_some.mpr hrt)
  rw [hnames] at hmem
  simp only [List.mem_cons, List.not_mem_nil, or_false, Prod.mk.injEq] at hmem
  rcases hmem with ⟨-, hc⟩ | ⟨rfl, hc⟩ | ⟨rfl, hc⟩
  · rw [hc] at hy
    cases hy
  · rw [hc, List.mem_singleton] at hy
    subst hy
    decide
  · rw [hc, List.mem_singleton] at hy
    subst hy
    decide

theorem shutdownOrder_superseding :
    superseding.stopSequence = [targetD, serviceB, serviceA] ∧
    [serviceB, targetD].Sublist superseding.getShutdownOrder := by
  have hmade : superseding.jobs.Made := made_apply (made_apply (made_apply (made_apply
    (made_apply (made_apply (made_apply ⟨[], rfl⟩ _) _) _) _) _) _) _
  have hstarted : superseding.startedUnits = [serviceA, serviceB, targetD] := by decide +kernel
  have hnamed : (superseding.get targetD).any (fun rt => serviceB ∈ rt.config.deps.conflicts) =
      true := by decide +kernel
  obtain ⟨rt, hrt, hmem⟩ := (Option.any_eq_true _ _).mp hnamed
  refine ⟨by decide +kernel, (shutdownOrder_exact superseding hmade).2 (fun a ha => ?_) targetD
    (by rw [hstarted]; decide) serviceB (by rw [hstarted]; decide) ⟨rt, hrt, by simpa using hmem⟩⟩
  have hdown {x y : UnitName} (h : TransGen (fun x y => x ∈ superseding.startedUnits ∧
      y ∈ superseding.startedUnits ∧ superseding.ConflictsWith x y) x y) :
      supersedingRank y < supersedingRank x := by
    induction h with
    | single h => exact superseding_conflictsWith h.2.2
    | tail _ h ih => exact (superseding_conflictsWith h.2.2).trans ih
  exact lt_irrefl _ (hdown ha)

end UnitManager

end Rinit
