import Mathlib.Algebra.Order.BigOperators.Group.Finset
import Mathlib.Data.List.Chain
import Rinit.Schedule

/-!
# Reported cycles

`topologicalOrder` refuses a graph because Kahn's algorithm is stuck, and `findCycle` then
looks for a cycle with a depth first search of its own. The search keeps its path stack and
its work stack in lockstep (`Search.At`) : the path follows the edges, its nodes are the ones
marked as on it, and the nodes that are done form a ready order. A step therefore closes a
real cycle, or keeps the invariant (`searchFrom_spec`) and uses up some of the fuel
(`Search.weight`). A search that meets no cycle has put every unit into a ready order, which
a graph that Kahn's algorithm refused does not have, so the fallback is never reported
(`closedWalk_of_kahn`). On names this is `cycle_iff_of_build`.
-/

namespace Rinit

/-- A walk along `r` that ends where it starts. -/
structure ClosedWalk {α : Type*} (r : α → α → Prop) (path : List α) : Prop where
  two_le : 2 ≤ path.length
  closed : path.head? = path.getLast?
  chain : path.IsChain r

/-- A closed walk is not a list without repetitions. -/
theorem ClosedWalk.not_nodup {α : Type*} {r : α → α → Prop} {path : List α}
    (h : ClosedWalk r path) : ¬path.Nodup := by
  match path, h with
  | a :: b :: rest, h =>
    intro hn
    have hlast : (b :: rest).getLast? = some a := by
      have hc := h.closed
      rw [List.getLast?_cons_cons] at hc
      simpa using hc.symm
    exact (List.nodup_cons.mp hn).1 (List.mem_of_getLast? hlast)
  | [], h => exact absurd h.two_le (by simp)
  | [_], h => exact absurd h.two_le (by simp)

theorem transGen_of_isChain {α : Type*} {r : α → α → Prop} : ∀ {a b : α} {path : List α},
    (a :: path).IsChain r → path.getLast? = some b → Relation.TransGen r a b
  | a, b, [], _, hl => by simp at hl
  | a, b, [c], h, hl => by
    obtain rfl : c = b := by simpa using hl
    exact .single (by simpa using h)
  | a, b, c :: d :: path, h, hl => by
    rw [List.isChain_cons_cons] at h
    rw [List.getLast?_cons_cons] at hl
    exact .head h.1 (transGen_of_isChain h.2 hl)

/-- Whoever is on a closed walk is on a cycle. -/
theorem ClosedWalk.exists_transGen {α : Type*} {r : α → α → Prop} {path : List α}
    (h : ClosedWalk r path) : ∃ a, Relation.TransGen r a a := by
  match path, h with
  | a :: b :: rest, h =>
    have hc := h.closed
    rw [List.getLast?_cons_cons] at hc
    exact ⟨a, transGen_of_isChain h.chain (by simpa using hc.symm)⟩
  | [], h => exact absurd h.two_le (by simp)
  | [_], h => exact absurd h.two_le (by simp)

theorem isChain_filterMap {α β : Type*} {r : α → α → Prop} {r' : β → β → Prop} {f : α → Option β}
    (hf : ∀ a b c d, f a = some c → f b = some d → r a b → r' c d) :
    ∀ {l : List α}, (∀ a ∈ l, (f a).isSome) → l.IsChain r → (l.filterMap f).IsChain r'
  | [], _, _ => by simp
  | [a], _, _ => by cases h : f a <;> simp [h]
  | a :: b :: l, hs, h => by
    rw [List.isChain_cons_cons] at h
    have ih := isChain_filterMap hf (fun x hx => hs x (List.mem_cons_of_mem _ hx)) h.2
    obtain ⟨c, hc⟩ := Option.isSome_iff_exists.mp (hs a (by simp))
    obtain ⟨d, hd⟩ := Option.isSome_iff_exists.mp (hs b (by simp))
    rw [List.filterMap_cons_some hd] at ih
    rw [List.filterMap_cons_some hc, List.filterMap_cons_some hd, List.isChain_cons_cons]
    exact ⟨hf a b c d hc hd h.1, ih⟩

theorem length_filterMap_of_isSome {α β : Type*} {f : α → Option β} :
    ∀ {l : List α}, (∀ a ∈ l, (f a).isSome) → (l.filterMap f).length = l.length
  | [], _ => rfl
  | a :: l, hs => by
    obtain ⟨c, hc⟩ := Option.isSome_iff_exists.mp (hs a (by simp))
    rw [List.filterMap_cons_some hc, List.length_cons, List.length_cons,
      length_filterMap_of_isSome fun x hx => hs x (List.mem_cons_of_mem _ hx)]

theorem head?_filterMap_of_isSome {α β : Type*} {f : α → Option β} :
    ∀ {l : List α}, (∀ a ∈ l, (f a).isSome) → (l.filterMap f).head? = l.head?.bind f
  | [], _ => rfl
  | a :: l, hs => by
    obtain ⟨c, hc⟩ := Option.isSome_iff_exists.mp (hs a (by simp))
    simp [hc]

theorem getLast?_filterMap_of_isSome {α β : Type*} {f : α → Option β} {l : List α}
    (hs : ∀ a ∈ l, (f a).isSome) : (l.filterMap f).getLast? = l.getLast?.bind f := by
  rw [List.getLast?_eq_head?_reverse, List.getLast?_eq_head?_reverse, ← List.filterMap_reverse,
    head?_filterMap_of_isSome fun a ha => hs a (List.mem_reverse.mp ha)]

namespace DependencyGraph

/-! ## The search -/

namespace Search

/-- The mark of an index. -/
def markAt (marks : List Mark) (i : ℕ) : Mark := marks.getD i .done

theorem markAt_set {marks : List Mark} {k : ℕ} (hk : k < marks.length) (m : Mark) (i : ℕ) :
    markAt (marks.set k m) i = if i = k then m else markAt marks i := by
  unfold markAt
  by_cases h : i = k
  · subst h
    simp [hk]
  · have h' : k ≠ i := fun e => h e.symm
    simp [h, h']

/-- Behind its cursor every node on the work stack has dependencies that were `seen`, or
that are on the stack above it. -/
def Passed (deps : ℕ → List ℕ) : (ℕ → Prop) → List (ℕ × ℕ) → Prop
  | _, [] => True
  | seen, (node, cursor) :: work =>
    (∀ d ∈ (deps node).take cursor, seen d) ∧ Passed deps (fun d => seen d ∨ d = node) work

theorem Passed.mono {deps : ℕ → List ℕ} : ∀ {work : List (ℕ × ℕ)} {seen seen' : ℕ → Prop},
    Passed deps seen work → (∀ d, seen d → seen' d) → Passed deps seen' work
  | [], _, _, _, _ => trivial
  | _ :: _, _, _, h, hs =>
    ⟨fun d hd => hs d (h.1 d hd), h.2.mono fun d hd => hd.imp (hs d) id⟩

/-- A search under way : the path stack is the work stack without its cursors, its nodes
are the ones marked so and each is a dependency of the one below it, and the nodes that are
done come in an order in which each comes after its dependencies. -/
structure At (n : ℕ) (deps : ℕ → List ℕ) (s : Search) : Prop where
  length : s.marks.length = n
  lockstep : s.stack = (s.work.map Prod.fst).reverse
  onStack : ∀ i, markAt s.marks i = .onStack ↔ i ∈ s.work.map Prod.fst
  nodup : (s.work.map Prod.fst).Nodup
  chain : (s.work.map Prod.fst).IsChain fun a b => a ∈ deps b
  passed : Passed deps (fun d => markAt s.marks d = .done) s.work
  finished : ∃ order, Toposort.ReadyOrder deps [] order ∧
    ∀ i < n, markAt s.marks i = .done ↔ i ∈ order

variable {n : ℕ} {deps : ℕ → List ℕ} {s : Search} {node cursor next : ℕ} {work : List (ℕ × ℕ)}

theorem At.lt_of_mark (h : At n deps s) {i : ℕ} (hi : markAt s.marks i ≠ .done) : i < n := by
  by_contra hn
  refine hi ?_
  rw [markAt, List.getD_eq_getElem?_getD, List.getElem?_eq_none (by rw [h.length]; omega)]
  rfl

theorem At.mark_set (h : At n deps s) {k : ℕ} (hk : markAt s.marks k ≠ .done) (m : Mark) (i : ℕ) :
    markAt (s.marks.set k m) i = if i = k then m else markAt s.marks i :=
  markAt_set (by rw [h.length]; exact h.lt_of_mark hk) m i

/-- Put an unseen node on top of the stacks. -/
theorem At.push (h : At n deps s) (hnext : markAt s.marks next = .unseen)
    (htop : ∀ i ∈ s.work.head?, next ∈ deps i.1) :
    At n deps ⟨s.marks.set next .onStack, s.stack ++ [next], (next, 0) :: s.work⟩ := by
  have hmark := h.mark_set (k := next) (by simp [hnext]) .onStack
  have hdone : ∀ i, markAt (s.marks.set next .onStack) i = .done ↔ markAt s.marks i = .done := by
    intro i
    rw [hmark]
    by_cases hi : i = next
    · simp [hi, hnext]
    · simp [hi]
  refine ⟨by simp [h.length], by simp [h.lockstep], fun i => ?_, ?_, ?_, ?_, ?_⟩
  · rw [hmark, List.map_cons, List.mem_cons]
    by_cases hi : i = next
    · simp [hi]
    · simpa [hi] using h.onStack i
  · rw [List.map_cons, List.nodup_cons]
    refine ⟨fun hmem => ?_, h.nodup⟩
    have hon := (h.onStack next).mpr hmem
    simp [hnext] at hon
  · rw [List.map_cons, List.isChain_cons]
    refine ⟨fun b hb => ?_, h.chain⟩
    rw [List.head?_map] at hb
    obtain ⟨top, ht, rfl⟩ := Option.map_eq_some_iff.mp hb
    exact htop top ht
  · exact ⟨by simp, h.passed.mono fun d hd => Or.inl ((hdone d).mpr hd)⟩
  · obtain ⟨order, ho, hmem⟩ := h.finished
    exact ⟨order, ho, fun i hi => (hdone i).trans (hmem i hi)⟩

/-- Move the cursor of the top node past a dependency that is done or about to be. -/
theorem At.passed_cursor (h : At n deps s) (hw : s.work = (node, cursor) :: work)
    (hc : (deps node)[cursor]? = some next) {seen : ℕ → Prop}
    (hseen : ∀ d, markAt s.marks d = .done → seen d) (hnext : seen next) :
    Passed deps seen ((node, cursor + 1) :: work) := by
  have hp := h.passed
  rw [hw] at hp
  refine ⟨fun d hd => ?_, hp.2.mono fun d hd => hd.imp (hseen d) id⟩
  rw [List.take_add_one, hc] at hd
  rcases List.mem_append.mp hd with hd | hd
  · exact hseen d (hp.1 d hd)
  · obtain rfl : d = next := by simpa using hd
    exact hnext

/-- The dependency at the cursor is done. -/
theorem At.skip (h : At n deps s) (hw : s.work = (node, cursor) :: work)
    (hc : (deps node)[cursor]? = some next) (hnext : markAt s.marks next = .done) :
    At n deps { s with work := (node, cursor + 1) :: work } := by
  refine ⟨h.length, ?_, fun i => ?_, ?_, ?_, ?_, h.finished⟩
  · simpa [hw] using h.lockstep
  · simpa [hw] using h.onStack i
  · simpa [hw] using h.nodup
  · simpa [hw] using h.chain
  · exact h.passed_cursor hw hc (fun d hd => hd) hnext

/-- The dependency at the cursor is entered. -/
theorem At.enter (h : At n deps s) (hw : s.work = (node, cursor) :: work)
    (hc : (deps node)[cursor]? = some next) (hnext : markAt s.marks next = .unseen) :
    At n deps ⟨s.marks.set next .onStack, s.stack ++ [next],
      (next, 0) :: (node, cursor + 1) :: work⟩ := by
  -- the cursor moves first; only the passed dependency `next` is not done yet
  have htop : ∀ i ∈ ((node, cursor) :: work).head?, next ∈ deps i.1 := by
    simpa using List.mem_of_getElem? hc
  have hp := h.push hnext (hw ▸ htop)
  have hpass : Passed deps (fun d => markAt s.marks d = .done ∨ d = next)
      ((node, cursor + 1) :: work) :=
    h.passed_cursor hw hc (fun d hd => Or.inl hd) (Or.inr rfl)
  refine ⟨hp.length, ?_, fun i => ?_, ?_, ?_, ⟨by simp, hpass.mono fun d hd => ?_⟩, hp.finished⟩
  · simpa [hw] using hp.lockstep
  · simpa [hw] using hp.onStack i
  · simpa [hw] using hp.nodup
  · simpa [hw] using hp.chain
  · refine hd.imp (fun hdone => (h.mark_set (by simp [hnext]) .onStack d).trans ?_) id
    rw [if_neg, hdone]
    rintro rfl
    exact absurd (hnext.symm.trans hdone) (by simp)

/-- The top node has no dependency left : all of them are done. -/
theorem At.leave (h : At n deps s) (hw : s.work = (node, cursor) :: work)
    (hc : (deps node)[cursor]? = none) (hlt : ∀ i, ∀ d ∈ deps i, d < n) :
    At n deps ⟨s.marks.set node .done, s.stack.dropLast, work⟩ := by
  have hon : markAt s.marks node = .onStack := (h.onStack node).mpr (by simp [hw])
  have hmark := h.mark_set (k := node) (by simp [hon]) .done
  have hp := h.passed
  have hd := h.nodup
  rw [hw] at hp hd
  rw [List.map_cons, List.nodup_cons] at hd
  refine ⟨by simp [h.length], by simp [h.lockstep, hw], fun i => ?_, hd.2, ?_, ?_, ?_⟩
  · rw [hmark]
    by_cases hi : i = node
    · subst hi
      simpa using hd.1
    · simpa [hi, hw] using h.onStack i
  · have hch := h.chain
    rw [hw, List.map_cons] at hch
    exact hch.tail
  · refine hp.2.mono fun d hd => ?_
    rw [hmark]
    rcases hd with hd | rfl
    · rw [hd, ite_self]
    · rw [if_pos rfl]
  · obtain ⟨order, ho, hmem⟩ := h.finished
    have hn : node < n := h.lt_of_mark (by simp [hon])
    refine ⟨order ++ [node], Toposort.readyOrder_append ho ?_ fun d hdn => ?_, fun i hi => ?_⟩
    · rw [List.nil_append, ← hmem node hn, hon]
      simp
    · rw [List.nil_append, ← hmem d (hlt node d hdn)]
      have hall := hp.1 d
      rw [List.take_of_length_le (List.getElem?_eq_none_iff.mp hc)] at hall
      exact hall hdn
    · rw [hmark, List.mem_append, List.mem_singleton, ← hmem i hi]
      by_cases he : i = node <;> simp [he]

/-- A dependency on the path stack closes a cycle. -/
theorem At.closes (h : At n deps s) (hw : s.work = (node, cursor) :: work)
    (hc : (deps node)[cursor]? = some next) (hnext : markAt s.marks next = .onStack) :
    ∃ path : List ℕ, (∀ i ∈ path, i < n) ∧ ClosedWalk (fun i j => j ∈ deps i) path ∧
      path = s.stack.drop ((s.stack.idxOf? next).getD 0) ++ [next] := by
  have hmem : next ∈ s.stack := by
    rw [h.lockstep, List.mem_reverse]
    exact (h.onStack next).mp hnext
  obtain ⟨k, hk⟩ := Option.isSome_iff_exists.mp (List.isSome_idxOf?.mpr hmem)
  obtain ⟨hlen, hget, -⟩ := List.idxOf?_eq_some_iff.mp hk
  have hdrop : s.stack.drop k = next :: s.stack.drop (k + 1) := by
    rw [List.drop_eq_getElem_cons hlen, hget]
  have hlast : (s.stack.drop k).getLast? = some node := by
    rw [List.getLast?_drop, if_neg (by omega), h.lockstep, hw]
    simp
  have hchain : (s.stack.drop k).IsChain fun i j => j ∈ deps i := by
    refine List.IsChain.drop ?_ k
    rw [h.lockstep, List.isChain_reverse]
    exact h.chain
  refine ⟨_, fun i hi => ?_, ⟨?_, ?_, ?_⟩, by rw [hk, Option.getD_some]⟩
  · have hi' : i ∈ s.stack := by
      rcases List.mem_append.mp hi with hi | hi
      · exact List.mem_of_mem_drop hi
      · rw [List.mem_singleton.mp hi]
        exact hmem
    rw [h.lockstep, List.mem_reverse] at hi'
    exact h.lt_of_mark (by simp [(h.onStack i).mpr hi'])
  · simp [hdrop]
  · rw [List.getLast?_concat, hdrop]
    rfl
  · rw [List.isChain_append]
    refine ⟨hchain, by simp, fun a ha b hb => ?_⟩
    rw [hlast] at ha
    obtain rfl : node = a := by simpa using ha
    obtain rfl : next = b := by simpa using hb
    exact List.mem_of_getElem? hc

/-- What a search has left to do at most : every unseen node is entered and left and each
of its dependencies looked at, and so is the rest of the nodes on the work stack. -/
def weight (n : ℕ) (deps : ℕ → List ℕ) (s : Search) : ℕ :=
  (∑ i ∈ (Finset.range n).filter fun i => markAt s.marks i = .unseen, ((deps i).length + 2)) +
    (s.work.map fun w => (deps w.1).length - w.2 + 1).sum

/-- Marking an unseen node takes its share away. -/
theorem At.sum_unseen (h : At n deps s) (hnext : markAt s.marks next = .unseen) {m : Mark}
    (hm : m ≠ .unseen) :
    (∑ i ∈ (Finset.range n).filter fun i => markAt (s.marks.set next m) i = .unseen,
        ((deps i).length + 2)) + ((deps next).length + 2) =
      ∑ i ∈ (Finset.range n).filter fun i => markAt s.marks i = .unseen,
        ((deps i).length + 2) := by
  have hn : next < n := h.lt_of_mark (by simp [hnext])
  have herase : (Finset.range n).filter (fun i => markAt (s.marks.set next m) i = .unseen) =
      ((Finset.range n).filter fun i => markAt s.marks i = .unseen).erase next := by
    ext i
    rw [Finset.mem_erase, Finset.mem_filter, Finset.mem_filter,
      h.mark_set (by simp [hnext]) m i]
    by_cases hi : i = next <;> simp [hi, hm]
  rw [herase]
  exact Finset.sum_erase_add _ _ (Finset.mem_filter.mpr ⟨Finset.mem_range.mpr hn, hnext⟩)

theorem At.weight_skip (hw : s.work = (node, cursor) :: work)
    (hc : (deps node)[cursor]? = some next) :
    weight n deps { s with work := (node, cursor + 1) :: work } < weight n deps s := by
  have hlt := (List.getElem?_eq_some_iff.mp hc).1
  simp only [weight, hw, List.map_cons, List.sum_cons]
  omega

theorem At.weight_enter (h : At n deps s) (hw : s.work = (node, cursor) :: work)
    (hc : (deps node)[cursor]? = some next) (hnext : markAt s.marks next = .unseen) :
    weight n deps ⟨s.marks.set next .onStack, s.stack ++ [next],
      (next, 0) :: (node, cursor + 1) :: work⟩ < weight n deps s := by
  have hlt := (List.getElem?_eq_some_iff.mp hc).1
  have hsum := h.sum_unseen hnext (m := .onStack) (by simp)
  simp only [weight, hw, List.map_cons, List.sum_cons]
  omega

theorem At.weight_leave (h : At n deps s) (hw : s.work = (node, cursor) :: work) :
    weight n deps ⟨s.marks.set node .done, s.stack.dropLast, work⟩ < weight n deps s := by
  have hon : markAt s.marks node = .onStack := (h.onStack node).mpr (by simp [hw])
  have hsame : ∀ i, markAt (s.marks.set node .done) i = .unseen ↔ markAt s.marks i = .unseen := by
    intro i
    rw [h.mark_set (by simp [hon])]
    by_cases hi : i = node <;> simp [hi, hon]
  simp only [weight, hw, List.map_cons, List.sum_cons, hsame]
  omega

end Search

/-- The dependencies of an index. -/
def depsAt (graph : DependencyGraph) (i : ℕ) : List ℕ := graph.dependencies.getD i []

/-- What a search from one start comes to : the units of a closed walk, or a finished search
in which whatever was seen is still seen. -/
def Searched (graph : DependencyGraph) (s : Search) : List UnitName ⊕ Search → Prop
  | .inl path => ∃ walk : List ℕ, (∀ i ∈ walk, i < graph.units.length) ∧
      ClosedWalk (fun i j => j ∈ graph.depsAt i) walk ∧ path = walk.filterMap (graph.units[·]?)
  | .inr s' => Search.At graph.units.length graph.depsAt s' ∧ s'.work = [] ∧
      ∀ i, Search.markAt s.marks i ≠ .unseen → Search.markAt s'.marks i ≠ .unseen

section Search

variable {graph : DependencyGraph} {s : Search}

theorem cyclePath_eq (stack : List ℕ) (next : ℕ) : graph.cyclePath stack next =
    (stack.drop ((stack.idxOf? next).getD 0) ++ [next]).filterMap (graph.units[·]?) := by
  rw [cyclePath, List.filterMap_append]
  cases h : graph.units[next]? <;> simp [h]

theorem Searched.of_seen {s' : Search} {r : List UnitName ⊕ Search} (h : Searched graph s' r)
    (hs : ∀ i, Search.markAt s.marks i ≠ .unseen → Search.markAt s'.marks i ≠ .unseen) :
    Searched graph s r := by
  cases r with
  | inl path => exact h
  | inr t => exact ⟨h.1, h.2.1, fun i hi => h.2.2 i (hs i hi)⟩

/-- With enough fuel a search meets a cycle or finishes. -/
theorem searchFrom_spec (hlt : ∀ i, ∀ d ∈ graph.depsAt i, d < graph.units.length) :
    ∀ {fuel : ℕ} {s : Search}, s.At graph.units.length graph.depsAt →
      s.weight graph.units.length graph.depsAt < fuel → Searched graph s (graph.searchFrom fuel s)
  | 0, _, _, hw => absurd hw (by omega)
  | fuel + 1, s, h, hfuel => by
    have hseen : ∀ k m, Search.markAt s.marks k ≠ .done → m ≠ .unseen → ∀ i,
        Search.markAt s.marks i ≠ .unseen → Search.markAt (s.marks.set k m) i ≠ .unseen := by
      intro k m hk hm i hi
      rw [h.mark_set hk]
      split
      · exact hm
      · exact hi
    have hle : s.weight graph.units.length graph.depsAt ≤ fuel := Nat.le_of_lt_succ hfuel
    cases hw : s.work with
    | nil =>
      simp only [searchFrom, hw]
      exact ⟨h, hw, fun i hi => hi⟩
    | cons top work =>
      obtain ⟨node, cursor⟩ := top
      cases hc : (graph.depsAt node)[cursor]? with
      | none =>
        have hon : Search.markAt s.marks node = .onStack := (h.onStack node).mpr (by simp [hw])
        have ih := searchFrom_spec hlt (h.leave hw hc hlt)
          (lt_of_lt_of_le (h.weight_leave hw) hle)
        have e : graph.searchFrom (fuel + 1) s = graph.searchFrom fuel
            ⟨s.marks.set node .done, s.stack.dropLast, work⟩ := by
          rw [depsAt] at hc
          simp only [searchFrom, hw, hc]
        exact e ▸ ih.of_seen (hseen node .done (by simp [hon]) (by simp))
      | some next =>
        have hc' := hc
        rw [depsAt] at hc'
        cases hm : Search.markAt s.marks next with
        | unseen =>
          have ih := searchFrom_spec hlt (h.enter hw hc hm)
            (lt_of_lt_of_le (h.weight_enter hw hc hm) hle)
          have e : graph.searchFrom (fuel + 1) s = graph.searchFrom fuel
              ⟨s.marks.set next .onStack, s.stack ++ [next],
                (next, 0) :: (node, cursor + 1) :: work⟩ := by
            rw [Search.markAt] at hm
            simp only [searchFrom, hw, hc', hm]
          exact e ▸ ih.of_seen (hseen next .onStack (by simp [hm]) (by simp))
        | onStack =>
          obtain ⟨walk, hn, hwalk, he⟩ := h.closes hw hc hm
          have e : graph.searchFrom (fuel + 1) s = .inl (graph.cyclePath s.stack next) := by
            rw [Search.markAt] at hm
            simp only [searchFrom, hw, hc', hm]
          rw [e]
          exact ⟨walk, hn, hwalk, he ▸ cyclePath_eq s.stack next⟩
        | done =>
          have ih := searchFrom_spec hlt (h.skip hw hc hm)
            (lt_of_lt_of_le (Search.At.weight_skip hw hc) hle)
          have e : graph.searchFrom (fuel + 1) s = graph.searchFrom fuel
              { s with work := (node, cursor + 1) :: work } := by
            rw [Search.markAt] at hm
            simp only [searchFrom, hw, hc', hm]
          exact e ▸ ih.of_seen fun i hi => hi

/-- The fuel of a search is more than it has to do. -/
theorem weight_lt_searchFuel (hlen : graph.dependencies.length = graph.units.length)
    (h : s.At graph.units.length graph.depsAt) {start : ℕ}
    (hs : Search.markAt s.marks start = .unseen) :
    Search.weight graph.units.length graph.depsAt
      ⟨s.marks.set start .onStack, s.stack ++ [start], [(start, 0)]⟩ < graph.searchFuel := by
  have hsum := h.sum_unseen hs (m := .onStack) (by simp)
  have hle : (∑ i ∈ (Finset.range graph.units.length).filter fun i =>
        Search.markAt s.marks i = .unseen, ((graph.depsAt i).length + 2)) ≤
      ∑ i ∈ Finset.range graph.units.length, ((graph.depsAt i).length + 2) :=
    Finset.sum_le_sum_of_subset (Finset.filter_subset _ _)
  have hall : (graph.dependencies.map fun ds => ds.length + 2).sum =
      ∑ i ∈ Finset.range graph.units.length, ((graph.depsAt i).length + 2) := by
    rw [← hlen]
    exact (Toposort.sum_range_getD _ _).symm
  simp only [Search.weight, searchFuel, List.map_cons, List.map_nil, List.sum_cons, List.sum_nil]
  omega

/-- Searching from every start in turn reports a closed walk, unless all of the starts come
in an order in which each index comes after its dependencies. -/
theorem searchAll_spec (hlen : graph.dependencies.length = graph.units.length)
    (hlt : ∀ i, ∀ d ∈ graph.depsAt i, d < graph.units.length) :
    ∀ (starts : List ℕ) {s : Search}, s.At graph.units.length graph.depsAt → s.work = [] →
      (∃ walk : List ℕ, (∀ i ∈ walk, i < graph.units.length) ∧
        ClosedWalk (fun i j => j ∈ graph.depsAt i) walk ∧
        graph.searchAll starts s = walk.filterMap (graph.units[·]?)) ∨
      ∃ order, Toposort.ReadyOrder graph.depsAt [] order ∧
        ∀ i < graph.units.length, i ∈ starts ∨ Search.markAt s.marks i ≠ .unseen → i ∈ order
  | [], s, h, hw => by
    obtain ⟨order, ho, hmem⟩ := h.finished
    refine Or.inr ⟨order, ho, fun i hi hseen => (hmem i hi).mp ?_⟩
    have hoff : Search.markAt s.marks i ≠ .onStack := fun he => by
      simpa [hw] using (h.onStack i).mp he
    cases hm : Search.markAt s.marks i with
    | unseen => simp [hm] at hseen
    | onStack => exact absurd hm hoff
    | done => rfl
  | start :: starts, s, h, hw => by
    by_cases hs : Search.markAt s.marks start = .unseen
    · have hpush := h.push hs (by simp [hw])
      rw [hw] at hpush
      have hfrom := searchFrom_spec hlt hpush (weight_lt_searchFuel hlen h hs)
      have hs' : s.marks.getD start .done = .unseen := hs
      cases hr : graph.searchFrom graph.searchFuel
          ⟨s.marks.set start .onStack, s.stack ++ [start], [(start, 0)]⟩ with
      | inl path =>
        rw [hr] at hfrom
        refine Or.inl ?_
        simp only [searchAll, hs', ne_eq, not_true_eq_false, if_false, hr]
        exact hfrom
      | inr s' =>
        rw [hr] at hfrom
        obtain ⟨h', hw', hseen⟩ := hfrom
        have e : graph.searchAll (start :: starts) s = graph.searchAll starts s' := by
          simp only [searchAll, hs', ne_eq, not_true_eq_false, if_false, hr]
        have hset := h.mark_set (k := start) (by simp [hs]) .onStack
        refine (searchAll_spec hlen hlt starts h' hw').imp (fun hc => e ▸ hc) ?_
        refine Exists.imp fun order ho => ⟨ho.1, fun i hi him => ho.2 i hi ?_⟩
        rcases him with him | him
        · rcases List.mem_cons.mp him with rfl | him
          · exact Or.inr (hseen i (by simp [hset]))
          · exact Or.inl him
        · refine Or.inr (hseen i ?_)
          rw [hset]
          split
          · simp
          · exact him
    · have e : graph.searchAll (start :: starts) s = graph.searchAll starts s := by
        have hs' : s.marks.getD start .done ≠ .unseen := hs
        simp only [searchAll, ne_eq, hs', not_false_eq_true, if_true]
      refine (searchAll_spec hlen hlt starts h hw).imp (fun hc => e ▸ hc) ?_
      refine Exists.imp fun order ho => ⟨ho.1, fun i hi him => ho.2 i hi ?_⟩
      refine him.elim (fun him => ?_) Or.inr
      rcases List.mem_cons.mp him with rfl | him
      · exact Or.inr hs
      · exact Or.inl him

theorem search_init (n : ℕ) (deps : ℕ → List ℕ) :
    Search.At n deps { marks := List.replicate n .unseen, stack := [], work := [] } := by
  have hmark : ∀ i, Search.markAt (List.replicate n .unseen) i =
      if i < n then .unseen else .done := by
    intro i
    rw [Search.markAt, List.getD_eq_getElem?_getD, List.getElem?_replicate]
    split <;> rfl
  refine ⟨by simp, rfl, fun i => ?_, by simp, by simp, trivial, [], trivial, fun i hi => ?_⟩
  · rw [hmark]
    split <;> simp
  · rw [hmark, if_pos hi]
    simp

/-- A graph that Kahn's algorithm refuses has a cycle, and the one that is reported is. -/
theorem closedWalk_of_kahn (hw : Toposort.WellFormed graph.units.length graph.dependencies)
    (hk : Toposort.kahn graph.units graph.dependencies = none) :
    ∃ walk : List ℕ, (∀ i ∈ walk, i < graph.units.length) ∧
      ClosedWalk (fun i j => j ∈ graph.depsAt i) walk ∧
      graph.findCycle = .cycle (walk.filterMap (graph.units[·]?)) := by
  have hlt : ∀ i, ∀ d ∈ graph.depsAt i, d < graph.units.length := fun i d => hw.lt_of_mem_getD
  rcases searchAll_spec hw.length hlt (List.range graph.units.length)
    (search_init _ graph.depsAt) rfl with ⟨walk, hn, hwalk, he⟩ | ⟨order, ho, hall⟩
  · exact ⟨walk, hn, hwalk, congrArg DependencyError.cycle he⟩
  · -- a ready order of all the indices would have let Kahn's algorithm finish
    have hidx : ∀ i d, d ∈ graph.depsAt i → i < graph.units.length := by
      intro i d hd
      by_contra hi
      rw [depsAt, List.getD_eq_getElem?_getD,
        List.getElem?_eq_none (by rw [hw.length]; omega)] at hd
      simp at hd
    have hsome := Toposort.kahn_isSome hw (ho.not_transGen fun i d hd =>
      hall i (hidx i d hd) (Or.inl (List.mem_range.mpr (hidx i d hd))))
    rw [hk] at hsome
    cases hsome

end Search

/-! ## On names -/

theorem Assembled.closedWalk {configs : List UnitConfig} {graph : DependencyGraph}
    (h : Assembled configs graph) {walk : List ℕ} (hn : ∀ i ∈ walk, i < graph.units.length)
    (hw : ClosedWalk (fun i j => j ∈ graph.depsAt i) walk) :
    ClosedWalk (WaitsFor configs) (walk.filterMap (graph.units[·]?)) := by
  have hsome : ∀ i ∈ walk, (graph.units[i]?).isSome := fun i hi => by simpa using hn i hi
  refine ⟨by rw [length_filterMap_of_isSome hsome]; exact hw.two_le, ?_, ?_⟩
  · rw [head?_filterMap_of_isSome hsome, getLast?_filterMap_of_isSome hsome, hw.closed]
  · exact isChain_filterMap (fun i j a b hi hj hd => h.mem_dependenciesOf_iff.mp
      (h.mem_dependenciesOf.mpr ⟨i, j, hi, hj, hd⟩)) hsome hw.chain

/-- Of an assembled graph `build` only refuses cycles, and it reports `findCycle`. -/
theorem kahn_of_build {configs : List UnitConfig} {graph : DependencyGraph}
    (hg : assemble configs = .ok graph) {e : DependencyError} (h : build configs = .error e) :
    Toposort.kahn graph.units graph.dependencies = none ∧ e = graph.findCycle := by
  rw [build_eq_assemble, hg] at h
  cases hk : Toposort.kahn graph.units graph.dependencies with
  | none =>
    have ho : graph.topologicalOrder = .error graph.findCycle := by simp only [topologicalOrder, hk]
    have he := (congrArg (· >>= fun _ => pure graph) ho).symm.trans h
    exact ⟨rfl, (Except.error.inj he).symm⟩
  | some order =>
    have ho : graph.topologicalOrder = .ok order := by simp only [topologicalOrder, hk]
    have he := (congrArg (· >>= fun _ => pure graph) ho).symm.trans h
    cases he

/-- With distinct names and hard references that resolve, a directory is refused for a cycle
exactly when its ordering relation has one. The report is a closed walk along the relation,
and not the list of all units that stands for it where no cycle is found. -/
theorem cycle_iff_of_build {configs : List UnitConfig} (hn : (configs.map (·.name)).Nodup)
    (hr : RefsResolve configs) :
    ((∃ path, build configs = .error (.cycle path)) ↔
      ∃ u, Relation.TransGen (WaitsFor configs) u u) ∧
    ∀ path, build configs = .error (.cycle path) → ClosedWalk (WaitsFor configs) path ∧
      ∀ graph, assemble configs = .ok graph → path ≠ graph.units := by
  obtain ⟨graph, hg⟩ := assemble_ok hn hr
  have hasm := assembled_of_assemble hg
  have hreport : ∀ path, build configs = .error (.cycle path) →
      ClosedWalk (WaitsFor configs) path := by
    intro path hpath
    obtain ⟨hk, hfind⟩ := kahn_of_build hg hpath
    obtain ⟨walk, hlt, hwalk, he⟩ := closedWalk_of_kahn hasm.wf hk
    obtain rfl : path = _ := DependencyError.cycle.inj (hfind.trans he)
    exact hasm.closedWalk hlt hwalk
  refine ⟨⟨fun ⟨path, hpath⟩ => (hreport path hpath).exists_transGen, fun ⟨u, hu⟩ => ?_⟩,
    fun path hpath => ⟨hreport path hpath, fun graph' hg' he => ?_⟩⟩
  · cases hb : build configs with
    | error e => exact ⟨_, congrArg Except.error (kahn_of_build hg hb).2⟩
    | ok graph' => exact absurd hu (acyclic_of_build hb u)
  · exact (hreport path hpath).not_nodup (he ▸ (assembled_of_assemble hg').nodup)

/-- Two units that require each other. -/
def mutualPair : List UnitConfig :=
  [{ UnitConfig.new serviceB with deps.requires := [serviceA] },
    { UnitConfig.new serviceA with deps.requires := [serviceB] }]

theorem refsResolve_mutualPair : RefsResolve mutualPair := by
  intro c hc u hu
  simp only [mutualPair, List.mem_cons, List.not_mem_nil, or_false] at hc
  rcases hc with rfl | rfl <;> simp_all [UnitConfig.new, mutualPair]

theorem cycle_mutualPair :
    build mutualPair = .error (.cycle [serviceA, serviceB, serviceA]) ∧
      (∃ u, Relation.TransGen (WaitsFor mutualPair) u u) ∧
      ClosedWalk (WaitsFor mutualPair) [serviceA, serviceB, serviceA] :=
  ⟨by decide, (cycle_iff_of_build (by decide) refsResolve_mutualPair).1.mp
    ⟨[serviceA, serviceB, serviceA], by decide⟩,
    ((cycle_iff_of_build (by decide) refsResolve_mutualPair).2 _ (by decide)).1⟩

end DependencyGraph

end Rinit
