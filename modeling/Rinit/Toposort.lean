import Mathlib.Algebra.BigOperators.Fin
import Mathlib.Data.List.MinMax
import Mathlib.Data.Fintype.EquivFin
import Mathlib.Order.Bounds.Basic
import Mathlib.Order.WellFounded
import Mathlib.Logic.Relation

/-!
# Orders of a finite dependency graph

A graph on the indices of a list, `deps` giving for each index the indices it waits for.
`kahn` draws the ready index with the smallest element until none is left, counting down
the unplaced dependencies of every index. Its state is a function of the indices placed
so far (`KahnAt`), so a run lists every index once, each after its dependencies
(`readyOrder_of_kahn`), and it only stops early on a cycle (`kahn_isSome`).

`levels` gives every element of a ready order the level above its deepest dependency.
The level is the height of the element : the length of the longest chain below it
(`levels_spec`).
-/

namespace Toposort

variable {α : Type*}

/-! ## Ready orders -/

/-- Every listed element comes once and after the elements it waits for, given that
`done` came before. -/
def ReadyOrder (deps : α → List α) : List α → List α → Prop
  | _, [] => True
  | done, a :: rest => a ∉ done ∧ (∀ d ∈ deps a, d ∈ done) ∧ ReadyOrder deps (done ++ [a]) rest

theorem readyOrder_append {deps : α → List α} : ∀ {done order : List α} {a : α},
    ReadyOrder deps done order → a ∉ done ++ order → (∀ d ∈ deps a, d ∈ done ++ order) →
      ReadyOrder deps done (order ++ [a])
  | done, [], a, _, ha, hd => ⟨by simpa using ha, by simpa using hd, trivial⟩
  | done, b :: rest, a, h, ha, hd =>
    ⟨h.1, h.2.1, readyOrder_append h.2.2 (by simpa using ha) (by simpa using hd)⟩

/-- What an element of a ready order waits for stands at an earlier position. -/
theorem ReadyOrder.lt_of_mem {deps : α → List α} : ∀ {done order : List α},
    ReadyOrder deps done order → ∀ {i j : ℕ} {a d : α}, (done ++ order)[i]? = some a →
      done.length ≤ i → d ∈ deps a → (done ++ order)[j]? = some d → (done ++ order).Nodup → j < i
  | done, [], _, i, j, a, d, hi, hle, _, _, _ => by
    have := (List.getElem?_eq_some_iff.mp hi).1
    simp at this
    omega
  | done, b :: rest, h, i, j, a, d, hi, hle, hd, hj, hn => by
    rcases Nat.eq_or_lt_of_le hle with rfl | hlt
    · have hab : b = a := by simpa using hi
      subst hab
      have hdone : d ∈ done := h.2.1 d hd
      obtain ⟨k, hk, hkd⟩ := List.getElem_of_mem hdone
      have hk' : (done ++ b :: rest)[k]? = some d := by
        rw [List.getElem?_append_left hk, List.getElem?_eq_getElem hk, hkd]
      have hjl := (List.getElem?_eq_some_iff.mp hj).1
      have hjk : j = k := (List.getElem?_inj hjl hn).mp (hj.trans hk'.symm)
      omega
    · have e : done ++ b :: rest = (done ++ [b]) ++ rest := by simp
      rw [e] at hi hj hn
      exact h.2.2.lt_of_mem hi (by simpa using Nat.succ_le_of_lt hlt) hd hj hn

/-- A ready order read through `f`, when `f` is one to one on it and gives every
dependency of an image from a dependency. -/
theorem ReadyOrder.filterMap {β : Type*} {deps : α → List α} {deps' : β → List β}
    {f : α → Option β} (hf : ∀ a b e, f a = some e → f b = some e → a = b)
    (hd : ∀ a b, f a = some b → ∀ e ∈ deps' b, ∃ d ∈ deps a, f d = some e) :
    ∀ {done order : List α}, ReadyOrder deps done order →
      ReadyOrder deps' (done.filterMap f) (order.filterMap f)
  | _, [], _ => trivial
  | done, a :: rest, h => by
    have ih := h.2.2.filterMap hf hd
    cases hb : f a with
    | none => simpa [hb] using ih
    | some b =>
      rw [List.filterMap_cons_some hb]
      refine ⟨?_, ?_, by simpa [hb] using ih⟩
      · intro hmem
        obtain ⟨a', ha', hb'⟩ := List.mem_filterMap.mp hmem
        exact h.1 (hf a' a b hb' hb ▸ ha')
      · intro e he
        obtain ⟨d, hda, hde⟩ := hd a b hb e he
        exact List.mem_filterMap.mpr ⟨d, h.2.1 d hda, hde⟩

theorem filterMap_getElem?_range : ∀ l : List α,
    (List.range l.length).filterMap (l[·]?) = l
  | [] => rfl
  | a :: l => by
    have hl : (List.range l.length).filterMap (fun i => (a :: l)[i + 1]?) = l := by
      simpa using filterMap_getElem?_range l
    simpa [List.range_succ_eq_map, List.filterMap_map, Function.comp_def] using hl

theorem sum_range_getD (deps : List (List ℕ)) (f : List ℕ → ℕ) :
    ∑ i ∈ Finset.range deps.length, f (deps.getD i []) = (deps.map f).sum := by
  rw [← Fin.sum_univ_eq_sum_range (fun i => f (deps.getD i [])), ← List.sum_ofFn]
  congr 1
  exact List.ext_getElem (by simp) fun i _ _ => by simp

/-! ## Kahn's algorithm -/

/-- The loop state : unplaced dependencies and placed flag of every index, and the
elements placed so far. -/
structure Kahn (α : Type*) where
  remaining : List ℕ
  placed : List Bool
  ordered : List α

/-- The elements that may come next, with their indices. -/
def Kahn.ready (units : List α) (s : Kahn α) : List (α × ℕ) :=
  units.zipIdx.filter fun p => s.placed[p.2]? == some false && s.remaining[p.2]? == some 0

/-- Place the smallest ready element; `none` when there is none. -/
def Kahn.step [LinearOrder α] (units : List α) (deps : List (List ℕ)) (s : Kahn α) :
    Option (Kahn α) :=
  ((s.ready units).argmin Prod.fst).map fun p =>
    { remaining := List.zipWith (fun ds r => if ds.contains p.2 then r - 1 else r) deps s.remaining
      placed := s.placed.set p.2 true
      ordered := s.ordered ++ [p.1] }

/-- Place `k` more elements. -/
def Kahn.run [LinearOrder α] (units : List α) (deps : List (List ℕ)) :
    ℕ → Kahn α → Option (List α)
  | 0, s => some s.ordered
  | k + 1, s => (s.step units deps).bind (Kahn.run units deps k)

def Kahn.init (units : List α) (deps : List (List ℕ)) : Kahn α where
  remaining := deps.map List.length
  placed := List.replicate units.length false
  ordered := []

/-- Place every element, the smallest ready one each round. -/
def kahn [LinearOrder α] (units : List α) (deps : List (List ℕ)) : Option (List α) :=
  Kahn.run units deps units.length (Kahn.init units deps)

/-- One entry for every index, each a duplicate free list of indices. -/
structure WellFormed (n : ℕ) (deps : List (List ℕ)) : Prop where
  length : deps.length = n
  nodup : ∀ ds ∈ deps, ds.Nodup
  lt : ∀ ds ∈ deps, ∀ d ∈ ds, d < n

theorem WellFormed.lt_of_mem_getD {n : ℕ} {deps : List (List ℕ)} (hw : WellFormed n deps)
    {i d : ℕ} (hd : d ∈ deps.getD i []) : d < n := by
  by_cases hi : i < deps.length
  · have e : deps.getD i [] = deps[i] := by simp [hi]
    exact hw.lt _ (List.getElem_mem hi) d (e ▸ hd)
  · simp [List.getD, List.getElem?_eq_none (Nat.le_of_not_lt hi)] at hd

/-- The state after the indices `idx` are placed. -/
structure KahnAt (units : List α) (deps : List (List ℕ)) (idx : List ℕ) (s : Kahn α) : Prop where
  remaining : s.remaining = deps.map fun ds => (ds.filter fun d => !idx.contains d).length
  placed : s.placed = (List.range units.length).map idx.contains
  ordered : s.ordered = idx.filterMap (units[·]?)
  lt : ∀ i ∈ idx, i < units.length
  order : ReadyOrder (fun i => deps.getD i []) [] idx

section Run

variable {units : List α} {deps : List (List ℕ)} {idx : List ℕ} {s : Kahn α}

theorem kahnAt_init (units : List α) (deps : List (List ℕ)) :
    KahnAt units deps [] (Kahn.init units deps) where
  remaining := by simp [Kahn.init]
  placed := by
    refine List.ext_getElem? fun i => ?_
    by_cases hi : i < units.length <;> simp [Kahn.init, hi]
  ordered := rfl
  lt := by simp
  order := trivial

theorem KahnAt.mem_ready (h : KahnAt units deps idx s) (hw : WellFormed units.length deps)
    {p : α × ℕ} : p ∈ s.ready units ↔
      units[p.2]? = some p.1 ∧ p.2 ∉ idx ∧ ∀ d ∈ deps.getD p.2 [], d ∈ idx := by
  obtain ⟨a, i⟩ := p
  simp only [Kahn.ready, List.mem_filter, List.mk_mem_zipIdx_iff_getElem?, Bool.and_eq_true,
    beq_iff_eq, h.remaining, h.placed, List.getElem?_map]
  refine and_congr_right fun ha => ?_
  have hi : i < units.length := (List.getElem?_eq_some_iff.mp ha).1
  have hi' : i < deps.length := by rw [hw.length]; exact hi
  simp [List.getElem?_eq_getElem hi', List.getElem?_range hi, List.filter_eq_nil_iff]

/-- Placing `i` takes one off the count of a list that holds it. -/
theorem length_unplaced_append {ds : List ℕ} {i : ℕ} (hds : ds.Nodup) (hi : i ∉ idx) :
    (ds.filter fun d => !(idx ++ [i]).contains d).length =
      if ds.contains i then (ds.filter fun d => !idx.contains d).length - 1
      else (ds.filter fun d => !idx.contains d).length := by
  have e : (fun d => !(idx ++ [i]).contains d) = fun d => (d != i && !idx.contains d) := by
    funext d
    by_cases hdi : d = i <;> simp [hdi, List.contains_eq_mem]
  rw [e, ← List.filter_filter, ← (hds.filter _).erase_eq_filter, List.length_erase]
  simp [List.mem_filter, hi]

/-- Placing `p` takes it off the counters of the indices that wait for it. -/
theorem KahnAt.place [LinearOrder α] (h : KahnAt units deps idx s)
    (hw : WellFormed units.length deps) {p : α × ℕ} (hp : p ∈ s.ready units) :
    KahnAt units deps (idx ++ [p.2])
      { remaining := List.zipWith (fun ds r => if ds.contains p.2 then r - 1 else r) deps
          s.remaining
        placed := s.placed.set p.2 true
        ordered := s.ordered ++ [p.1] } := by
  obtain ⟨hu, hn, hd⟩ := (h.mem_ready hw).mp hp
  have hlt : p.2 < units.length := (List.getElem?_eq_some_iff.mp hu).1
  refine ⟨?_, ?_, ?_, ?_, ?_⟩
  · simp only [h.remaining, List.zipWith_map_right, List.zipWith_self]
    exact List.map_congr_left fun ds hds => (length_unplaced_append (hw.nodup ds hds) hn).symm
  · refine List.ext_getElem? fun i => ?_
    by_cases hi : i < units.length
    · by_cases hip : p.2 = i
      · simp [h.placed, hi, hip]
      · have hip' : i ≠ p.2 := fun e => hip e.symm
        simp [h.placed, hi, hip, hip', List.contains_eq_mem]
    · simp [h.placed, hi]
  · simp [h.ordered, hu]
  · simp only [List.mem_append, List.mem_singleton]
    rintro i (hi | rfl)
    · exact h.lt i hi
    · exact hlt
  · exact readyOrder_append h.order (by simpa using hn) (by simpa using hd)

/-- A step places a ready index. -/
theorem KahnAt.step [LinearOrder α] (h : KahnAt units deps idx s)
    (hw : WellFormed units.length deps) {s' : Kahn α} (hs : s.step units deps = some s') :
    ∃ i, KahnAt units deps (idx ++ [i]) s' := by
  obtain ⟨p, hp, rfl⟩ := Option.map_eq_some_iff.mp hs
  exact ⟨p.2, h.place hw (List.argmin_mem hp)⟩

theorem KahnAt.run [LinearOrder α] (hw : WellFormed units.length deps) : ∀ {k : ℕ}
    {idx : List ℕ} {s : Kahn α}, KahnAt units deps idx s → ∀ {order : List α},
      s.run units deps k = some order →
        ∃ idx' s', KahnAt units deps idx' s' ∧ idx'.length = idx.length + k ∧ s'.ordered = order
  | 0, idx, s, h, order, hr => ⟨idx, s, h, rfl, by simpa [Kahn.run] using hr⟩
  | k + 1, idx, s, h, order, hr => by
    obtain ⟨s', hs, hr⟩ := Option.bind_eq_some_iff.mp hr
    obtain ⟨i, h'⟩ := h.step hw hs
    obtain ⟨idx', s'', h'', hl, ho⟩ := KahnAt.run hw h' hr
    exact ⟨idx', s'', h'', by rw [hl, List.length_append, List.length_singleton]; omega, ho⟩

theorem ReadyOrder.nodup {β : Type*} {deps : β → List β} : ∀ {done order : List β},
    ReadyOrder deps done order → done.Nodup → (done ++ order).Nodup
  | done, [], _, hn => by simpa using hn
  | done, b :: rest, h, hn => by
    have hn' : (done ++ [b]).Nodup := by
      rw [List.nodup_append_comm]
      exact List.nodup_cons.mpr ⟨h.1, hn⟩
    simpa using h.2.2.nodup hn'

/-- A run that ends lists every index once, each after what it waits for. -/
theorem readyOrder_of_kahn [LinearOrder α] (hw : WellFormed units.length deps) {order : List α}
    (h : kahn units deps = some order) :
    ∃ idx : List ℕ, idx.Perm (List.range units.length) ∧
      ReadyOrder (fun i => deps.getD i []) [] idx ∧ order = idx.filterMap (units[·]?) := by
  obtain ⟨idx, s, hs, hl, rfl⟩ := KahnAt.run hw (kahnAt_init units deps) h
  refine ⟨idx, ?_, hs.order, hs.ordered⟩
  have hnd : idx.Nodup := by simpa using hs.order.nodup List.nodup_nil
  have hsub : idx.Subperm (List.range units.length) :=
    hnd.subperm fun i hi => List.mem_range.mpr (hs.lt i hi)
  exact hsub.perm_of_length_le (by simpa using hl.ge)

/-- Some index that is not placed is ready, unless the unplaced ones run in a circle. -/
theorem KahnAt.exists_ready (h : KahnAt units deps idx s) (hw : WellFormed units.length deps)
    (hac : ∀ i, ¬Relation.TransGen (fun a b => b ∈ deps.getD a []) i i)
    (hl : idx.length < units.length) : ∃ p, p ∈ s.ready units := by
  let R : Fin units.length → Fin units.length → Prop :=
    fun a b => Relation.TransGen (fun a b => b ∈ deps.getD a []) b.1 a.1
  have : IsTrans _ R := ⟨fun a b c hab hbc => hbc.trans hab⟩
  have : Std.Irrefl R := ⟨fun a => hac a.1⟩
  have hwf : WellFounded R := Finite.wellFounded_of_trans_of_irrefl R
  have hne : ∃ i : Fin units.length, i.1 ∉ idx := by
    by_contra hcon
    have hall : ∀ i : Fin units.length, i.1 ∈ idx := fun i => not_not.mp fun hi => hcon ⟨i, hi⟩
    have hsub : (List.range units.length).Subperm idx :=
      List.nodup_range.subperm fun i hi => hall ⟨i, List.mem_range.mp hi⟩
    have := hsub.length_le
    simp at this
    omega
  obtain ⟨i, hi, hmin⟩ := hwf.has_min {i : Fin units.length | i.1 ∉ idx} hne
  refine ⟨(units[i], i.1), (h.mem_ready hw).mpr ⟨by simp, hi, fun d hd => ?_⟩⟩
  have hlt : d < units.length := hw.lt_of_mem_getD hd
  exact not_not.mp fun hnot => hmin ⟨d, hlt⟩ hnot (.single hd)

/-- Without a cycle the run never stops early. -/
theorem KahnAt.run_isSome [LinearOrder α] (hw : WellFormed units.length deps)
    (hac : ∀ i, ¬Relation.TransGen (fun a b => b ∈ deps.getD a []) i i) : ∀ {k : ℕ}
    {idx : List ℕ} {s : Kahn α}, KahnAt units deps idx s → idx.length + k = units.length →
      (s.run units deps k).isSome
  | 0, _, _, _, _ => rfl
  | k + 1, idx, s, h, hl => by
    obtain ⟨p, hp⟩ := h.exists_ready hw hac (by omega)
    cases hq : (s.ready units).argmin Prod.fst with
    | none => exact absurd (List.argmin_eq_none.mp hq ▸ hp) List.not_mem_nil
    | some q =>
      have hs := h.place hw (List.argmin_mem hq)
      simp only [Kahn.run, Kahn.step, hq, Option.map_some, Option.bind_some]
      exact KahnAt.run_isSome hw hac hs
        (by rw [List.length_append, List.length_singleton]; omega)

theorem kahn_isSome [LinearOrder α] (hw : WellFormed units.length deps)
    (hac : ∀ i, ¬Relation.TransGen (fun a b => b ∈ deps.getD a []) i i) :
    (kahn units deps).isSome :=
  KahnAt.run_isSome hw hac (kahnAt_init units deps) (by simp)

end Run

/-- Whatever has dependencies and is in a ready order is on no cycle. -/
theorem ReadyOrder.not_transGen {deps : α → List α} {order : List α}
    (ho : ReadyOrder deps [] order) (hall : ∀ a b, b ∈ deps a → a ∈ order) (a : α) :
    ¬Relation.TransGen (fun a b => b ∈ deps a) a a := by
  have hnodup : order.Nodup := by simpa using ho.nodup List.nodup_nil
  -- along a chain of dependencies the positions in the order go down
  have hdesc : ∀ a b, Relation.TransGen (fun a b => b ∈ deps a) a b →
      ∀ i j : ℕ, order[i]? = some a → order[j]? = some b → j < i := by
    intro a b hab
    induction hab with
    | single hd =>
      intro i j hi hj
      exact ho.lt_of_mem hi (Nat.zero_le i) hd hj hnodup
    | @tail b c _ hd ih =>
      intro i j hi hj
      obtain ⟨k, hk⟩ := List.mem_iff_getElem?.mp (hall b c hd)
      exact (ho.lt_of_mem hk (Nat.zero_le k) hd hj hnodup).trans (ih i k hi hk)
  intro haa
  obtain ⟨b, hb, -⟩ := Relation.TransGen.head'_iff.mp haa
  obtain ⟨i, hi⟩ := List.mem_iff_getElem?.mp (hall a b hb)
  exact lt_irrefl i (hdesc a a haa i i hi hi)

/-! ## Heights and levels -/

/-- The longest chain below `a` has `k` steps. -/
def IsHeight (R : α → α → Prop) (a : α) (k : ℕ) : Prop :=
  IsGreatest {n | ∃ c : List α, (a :: c).IsChain R ∧ c.length = n} k

section Height

variable {R : α → α → Prop} {a b : α} {i j k : ℕ}

theorem isHeight_zero (h : ∀ b, ¬R a b) : IsHeight R a 0 := by
  refine ⟨⟨[], by simp, rfl⟩, ?_⟩
  rintro n ⟨c, hc, rfl⟩
  cases c with
  | nil => simp
  | cons b c => exact absurd (List.isChain_cons_cons.mp hc).1 (h b)

theorem isHeight_succ (hb : R a b) (hk : IsHeight R b k)
    (hle : ∀ d, R a d → ∃ j ≤ k, IsHeight R d j) : IsHeight R a (k + 1) := by
  refine ⟨?_, ?_⟩
  · obtain ⟨c, hc, hl⟩ := hk.1
    exact ⟨b :: c, List.isChain_cons_cons.mpr ⟨hb, hc⟩, by simp [hl]⟩
  · rintro n ⟨c, hc, rfl⟩
    cases c with
    | nil => simp
    | cons d c =>
      obtain ⟨had, hdc⟩ := List.isChain_cons_cons.mp hc
      obtain ⟨j, hj, hd⟩ := hle d had
      have hcj : c.length ≤ j := hd.2 ⟨c, hdc, rfl⟩
      simp only [List.length_cons]
      omega

theorem IsHeight.lt (ha : IsHeight R a i) (hb : IsHeight R b j) (hab : R a b) : j < i := by
  obtain ⟨c, hc, hl⟩ := hb.1
  have : (b :: c).length ≤ i := ha.2 ⟨b :: c, List.isChain_cons_cons.mpr ⟨hab, hc⟩, rfl⟩
  simp only [List.length_cons] at this
  omega

theorem IsHeight.eq_zero_iff (ha : IsHeight R a i) : i = 0 ↔ ∀ b, ¬R a b := by
  constructor
  · rintro rfl b hab
    have : (1 : ℕ) ≤ 0 := ha.2 ⟨[b], by simpa using hab, rfl⟩
    omega
  · intro h
    exact ha.unique (isHeight_zero h)

end Height

/-- The levels, with empty ones up to level `l`. -/
def grow (levels : List (List α)) (l : ℕ) : List (List α) :=
  if levels.length ≤ l then levels ++ List.replicate (l + 1 - levels.length) [] else levels

/-- Append `a` to level `l`, with the empty levels this needs. -/
def place (levels : List (List α)) (l : ℕ) (a : α) : List (List α) :=
  (grow levels l).modify l (· ++ [a])

theorem lt_length_grow (levels : List (List α)) (l : ℕ) : l < (grow levels l).length := by
  unfold grow
  split
  · simp only [List.length_append, List.length_replicate]
    omega
  · omega

theorem getD_grow (levels : List (List α)) (l i : ℕ) :
    (grow levels l).getD i [] = levels.getD i [] := by
  unfold grow
  split
  · by_cases hi : i < levels.length
    · simp [List.getElem?_append_left hi]
    · simp [List.getElem?_append_right (Nat.le_of_not_lt hi), List.getElem?_replicate, hi]
      split <;> rfl
  · rfl

theorem flatten_grow (levels : List (List α)) (l : ℕ) :
    (grow levels l).flatten = levels.flatten := by
  unfold grow
  split <;> simp

theorem mem_place {levels : List (List α)} {l i : ℕ} {a b : α} :
    b ∈ (place levels l a).getD i [] ↔ b ∈ levels.getD i [] ∨ i = l ∧ b = a := by
  have hl := lt_length_grow levels l
  rw [place, ← getD_grow levels l i]
  by_cases hi : l = i
  · subst hi
    simp [hl]
  · have hi' : i ≠ l := fun e => hi e.symm
    simp [hi, hi']

theorem flatten_place (levels : List (List α)) (l : ℕ) (a : α) :
    (place levels l a).flatten.Perm (a :: levels.flatten) := by
  have hl := lt_length_grow levels l
  rw [place, ← flatten_grow levels l, List.modify_eq_take_cons_drop hl]
  conv_rhs => rw [← List.take_append_drop l (grow levels l), List.drop_eq_getElem_cons hl]
  simp only [List.flatten_append, List.flatten_cons, List.append_assoc, List.singleton_append]
  rw [← List.append_assoc, ← List.append_assoc]
  exact List.perm_middle

variable [DecidableEq α]

/-- The level recorded for `a`, 0 when there is none. -/
def levelOf (levelled : List (α × ℕ)) (a : α) : ℕ :=
  ((levelled.find? fun e => e.1 = a).map Prod.snd).getD 0

/-- One level above the deepest dependency; 0 without one. -/
def levelNext (deps : α → List α) (levelled : List (α × ℕ)) (a : α) : ℕ :=
  let deepest := ((deps a).map (levelOf levelled)).max?.getD 0
  if deepest = 0 ∧ (deps a).isEmpty then 0 else deepest + 1

/-- Level the elements of an order, in turn. -/
def levelRun (deps : α → List α) :
    List α → List (α × ℕ) → List (List α) → List (List α)
  | [], _, levels => levels
  | a :: rest, levelled, levels =>
    let level := levelNext deps levelled a
    levelRun deps rest (levelled ++ [(a, level)]) (place levels level a)

/-- Assign every element of an order a level. -/
def levels (deps : α → List α) (order : List α) : List (List α) :=
  levelRun deps order [] []

section Level

variable {deps : α → List α} {levelled : List (α × ℕ)} {done : List α} {a : α}

/-- The recorded levels are heights, one for each element of `done`. -/
structure Levelled (deps : α → List α) (done : List α) (levelled : List (α × ℕ)) : Prop where
  fst : levelled.map Prod.fst = done
  height : ∀ e ∈ levelled, IsHeight (fun x y => y ∈ deps x) e.1 e.2

theorem Levelled.levelOf (h : Levelled deps done levelled) (ha : a ∈ done) :
    IsHeight (fun x y => y ∈ deps x) a (levelOf levelled a) := by
  obtain ⟨e, he, hea⟩ := List.mem_map.mp (h.fst ▸ ha)
  have hsome : (levelled.find? fun e => e.1 = a).isSome :=
    List.find?_isSome.mpr ⟨e, he, by simpa using hea⟩
  obtain ⟨e', he'⟩ := Option.isSome_iff_exists.mp hsome
  have hea' : e'.1 = a := by simpa using List.find?_some he'
  simp only [Toposort.levelOf, he', Option.map_some, Option.getD_some]
  exact hea' ▸ h.height e' (List.mem_of_find?_eq_some he')

/-- An element whose dependencies are levelled is one above the deepest of them. -/
theorem Levelled.levelNext (h : Levelled deps done levelled) (ha : ∀ d ∈ deps a, d ∈ done) :
    IsHeight (fun x y => y ∈ deps x) a (levelNext deps levelled a) := by
  cases hm : ((deps a).map (Toposort.levelOf levelled)).max? with
  | none =>
    have he : deps a = [] := by simpa using List.max?_eq_none_iff.mp hm
    have e : Toposort.levelNext deps levelled a = 0 := by simp [Toposort.levelNext, he]
    rw [e]
    exact isHeight_zero (by simp [he])
  | some k =>
    obtain ⟨hk, hle⟩ := List.max?_eq_some_iff.mp hm
    obtain ⟨b, hb, rfl⟩ := List.mem_map.mp hk
    have hne : deps a ≠ [] := List.ne_nil_of_mem hb
    have e : Toposort.levelNext deps levelled a = Toposort.levelOf levelled b + 1 := by
      simp [Toposort.levelNext, hm, hne]
    rw [e]
    refine isHeight_succ hb (h.levelOf (ha b hb)) fun d hd => ?_
    exact ⟨_, hle _ (List.mem_map_of_mem hd), h.levelOf (ha d hd)⟩

theorem levelRun_spec : ∀ {order : List α} {done : List α} {levelled : List (α × ℕ)}
    {lv : List (List α)}, Levelled deps done levelled → ReadyOrder deps done order →
      (∀ i a, a ∈ lv.getD i [] → IsHeight (fun x y => y ∈ deps x) a i) →
        (levelRun deps order levelled lv).flatten.Perm (lv.flatten ++ order) ∧
        ∀ i a, a ∈ (levelRun deps order levelled lv).getD i [] →
          IsHeight (fun x y => y ∈ deps x) a i
  | [], _, _, _, _, _, hl => ⟨by simp [levelRun], hl⟩
  | a :: rest, done, levelled, lv, h, ho, hl => by
    have ha := h.levelNext ho.2.1
    have h' : Levelled deps (done ++ [a]) (levelled ++ [(a, levelNext deps levelled a)]) :=
      ⟨by simp [h.fst], by simpa [or_imp, forall_and] using ⟨fun x k => h.height (x, k), ha⟩⟩
    have hl' : ∀ i b, b ∈ (place lv (levelNext deps levelled a) a).getD i [] →
        IsHeight (fun x y => y ∈ deps x) b i := by
      intro i b hb
      rcases mem_place.mp hb with hb | ⟨rfl, rfl⟩
      · exact hl i b hb
      · exact ha
    obtain ⟨hp, hh⟩ := levelRun_spec h' ho.2.2 hl'
    refine ⟨?_, hh⟩
    calc (levelRun deps (a :: rest) levelled lv).flatten
        |>.Perm ((place lv (levelNext deps levelled a) a).flatten ++ rest) := hp
      _ |>.Perm ((a :: lv.flatten) ++ rest) := (flatten_place lv _ a).append_right rest
      _ |>.Perm (lv.flatten ++ a :: rest) := List.perm_middle.symm

/-- Levelling a ready order keeps its elements and gives each its height. -/
theorem levels_spec {order : List α} (h : ReadyOrder deps [] order) :
    (levels deps order).flatten.Perm order ∧
      ∀ i a, a ∈ (levels deps order).getD i [] → IsHeight (fun x y => y ∈ deps x) a i := by
  have h0 : Levelled deps [] [] := ⟨rfl, by simp⟩
  have hnone : ∀ i a, a ∈ ([] : List (List α)).getD i [] →
      IsHeight (fun x y => y ∈ deps x) a i := by simp
  have h1 := levelRun_spec h0 h hnone
  exact ⟨by simpa [levels] using h1.1, h1.2⟩

end Level

end Toposort
