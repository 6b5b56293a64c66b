import Mathlib.Algebra.GroupWithZero.Nat
import Mathlib.Algebra.Order.BigOperators.Group.List
import Mathlib.Data.Prod.Lex
import Mathlib.Data.String.Basic
import Std.Data.ExtTreeMap

/-!
# Limiting the console

A message of the supervisor itself is printed or folded by the place in the code it comes from
(`Limiter.admitMessage`). Each place has a window and a budget in it, what is over the budget is
counted, and the first message of a later window says how many were folded.

A place does not see the others : its decisions are those of `siteRun`, the run of one place
(`decisionsFor_run`). There a count is a step lemma and an induction (`siteRun_length`), and so
is the bound on what is printed in any stretch as long as a window (`Windows.rate`) : the stretch
meets two windows at most. `limiter_run` is all of it for every place of a run.
-/

namespace Rinit

/-- One call site : the file it is in and the line it is on. -/
structure CallSite where
  file : String
  line : ℕ
deriving DecidableEq, Repr

instance : LinearOrder CallSite :=
  LinearOrder.lift' (fun k => toLex (k.file, k.line)) fun a b h => by
    simp only [toLex_inj, Prod.mk.injEq] at h
    cases a
    cases b
    simpa using h

instance : Std.TransCmp (compare : CallSite → CallSite → Ordering) := inferInstance

instance : Std.LawfulEqCmp (compare : CallSite → CallSite → Ordering) where
  eq_of_compare h := compare_eq_iff_eq.mp h

/-- What a call site is allowed to do with the message it has. -/
inductive Decision where
  | print
  | suppress
  /-- Print it, after saying that `count` earlier messages were suppressed. -/
  | printAfterSuppressing (count : ℕ)
deriving DecidableEq, Repr

/-- The window of one call site. -/
structure Site where
  windowStart : ℕ
  printed : ℕ
  suppressed : ℕ
deriving DecidableEq, Repr

structure Limiter where
  windowMs : ℕ
  burst : ℕ
  sites : Std.ExtTreeMap CallSite Site compare := ∅

/-- Decide on one message, in the window as it is at `now`. -/
def Site.admitAt (windowMs burst : ℕ) (site : Site) (now : ℕ) : Site × Decision :=
  if windowMs ≤ now - site.windowStart then
    (⟨now, 1, 0⟩,
      if 0 < site.suppressed then .printAfterSuppressing site.suppressed else .print)
  else if site.printed < burst then ({ site with printed := site.printed + 1 }, .print)
  else ({ site with suppressed := min (site.suppressed + 1) (2 ^ 32 - 1) }, .suppress)

/-- A message at a time. -/
structure Message where
  key : CallSite
  now : ℕ
deriving DecidableEq, Repr

namespace Limiter

/-- The source's `admit` : decide what to do with a message. -/
def admitMessage (l : Limiter) (m : Message) : Limiter × Decision :=
  let r := (l.sites[m.key]?.getD ⟨m.now, 0, 0⟩).admitAt l.windowMs l.burst m.now
  ({ l with sites := l.sites.insert m.key r.1 }, r.2)

/-- Every call site that has suppressed something and not reported it yet. -/
def pending (l : Limiter) : List (CallSite × ℕ) :=
  (l.sites.toList.filter fun e => 0 < e.2.suppressed).map fun e => (e.1, e.2.suppressed)

/-- How many messages of a call site are pending. -/
def pendingFor (l : Limiter) (key : CallSite) : ℕ := (l.pending.lookup key).getD 0

def run (l : Limiter) : List Message → Limiter × List Decision
  | [] => (l, [])
  | m :: messages =>
    let r := (l.admitMessage m).1.run messages
    (r.1, (l.admitMessage m).2 :: r.2)

end Limiter

/-! ## What a run did -/

/-- The times of the messages of a call site. -/
def timesFor (key : CallSite) (messages : List Message) : List ℕ :=
  (messages.filter fun m => m.key = key).map Message.now

/-- The decisions on the messages of a call site. -/
def decisionsFor (key : CallSite) (messages : List Message) (decisions : List Decision) :
    List Decision :=
  ((messages.zip decisions).filter fun e => e.1.key = key).map Prod.snd

def Decision.isPrint : Decision → Bool
  | print | printAfterSuppressing _ => true
  | suppress => false

/-- The count that is reported with a message. -/
def Decision.reported : Decision → ℕ
  | printAfterSuppressing count => count
  | print | suppress => 0

/-- The times of the messages that are printed. -/
def printTimes (times : List ℕ) (decisions : List Decision) : List ℕ :=
  ((times.zip decisions).filter fun e => e.2.isPrint).map Prod.fst

/-- The suppressions since the last report, `n` of them before. -/
def unreportedFrom (n : ℕ) (decisions : List Decision) : ℕ :=
  decisions.foldl (fun n d => match d with
    | .suppress => n + 1
    | .printAfterSuppressing _ => 0
    | .print => n) n

/-- The suppressions since the last report. -/
def unreported (decisions : List Decision) : ℕ := unreportedFrom 0 decisions

/-- No more is suppressed than there are messages. -/
theorem unreportedFrom_le (n : ℕ) (decisions : List Decision) :
    unreportedFrom n decisions ≤ n + decisions.length := by
  induction decisions generalizing n with
  | nil => exact le_rfl
  | cons d decisions ih =>
    rw [List.length_cons]
    cases d with
    | print => exact (ih n).trans (by omega)
    | suppress => exact (ih (n + 1)).trans (by omega)
    | printAfterSuppressing count => exact (ih 0).trans (by omega)

theorem length_decisionsFor_le (key : CallSite) (messages : List Message)
    (decisions : List Decision) :
    (decisionsFor key messages decisions).length ≤ messages.length := by
  rw [decisionsFor, List.length_map]
  refine (List.length_filter_le _ _).trans ?_
  rw [List.length_zip]
  exact Nat.min_le_left ..

/-! ## One call site -/

/-- The run of one call site. -/
def siteRun (windowMs burst : ℕ) : Option Site → List ℕ → Option Site × List Decision
  | site, [] => (site, [])
  | site, now :: times =>
    let r := (site.getD ⟨now, 0, 0⟩).admitAt windowMs burst now
    let rest := siteRun windowMs burst (some r.1) times
    (rest.1, r.2 :: rest.2)

/-- A call site does not see the others. -/
theorem decisionsFor_run (key : CallSite) (l : Limiter) (messages : List Message) :
    decisionsFor key messages (l.run messages).2 =
        (siteRun l.windowMs l.burst l.sites[key]? (timesFor key messages)).2 ∧
      (l.run messages).1.sites[key]? =
        (siteRun l.windowMs l.burst l.sites[key]? (timesFor key messages)).1 := by
  induction messages generalizing l with
  | nil => exact ⟨rfl, rfl⟩
  | cons m messages ih =>
    have hrest := ih (l.admitMessage m).1
    by_cases hkey : m.key = key
    · subst hkey
      have hsite : (l.admitMessage m).1.sites[m.key]? =
          some ((l.sites[m.key]?.getD ⟨m.now, 0, 0⟩).admitAt l.windowMs l.burst m.now).1 :=
        Std.ExtTreeMap.getElem?_insert_self
      rw [hsite] at hrest
      have htimes : timesFor m.key (m :: messages) = m.now :: timesFor m.key messages := by
        rw [timesFor, List.filter_cons_of_pos (by simp), List.map_cons, timesFor]
      rw [htimes]
      refine ⟨?_, hrest.2⟩
      rw [decisionsFor, Limiter.run, List.zip_cons_cons, List.filter_cons_of_pos (by simp),
        List.map_cons, ← decisionsFor, hrest.1]
      rfl
    · have hsite : (l.admitMessage m).1.sites[key]? = l.sites[key]? := by
        rw [Limiter.admitMessage, Std.ExtTreeMap.getElem?_insert, if_neg]
        simpa [Std.LawfulEqCmp.compare_eq_iff_eq] using hkey
      rw [hsite] at hrest
      have htimes : timesFor key (m :: messages) = timesFor key messages := by
        rw [timesFor, List.filter_cons_of_neg (by simpa using hkey), timesFor]
      rw [htimes]
      refine ⟨?_, hrest.2⟩
      rw [decisionsFor, Limiter.run, List.zip_cons_cons,
        List.filter_cons_of_neg (by simpa using hkey), ← decisionsFor]
      exact hrest.1

section OneSite

variable {windowMs burst now : ℕ} {site : Site}

/-- What one message can do to a window. -/
theorem Site.admitAt_cases (windowMs burst : ℕ) (site : Site) (now : ℕ) :
    (windowMs ≤ now - site.windowStart ∧ site.suppressed ≠ 0 ∧
      site.admitAt windowMs burst now = (⟨now, 1, 0⟩, .printAfterSuppressing site.suppressed)) ∨
    (windowMs ≤ now - site.windowStart ∧ site.suppressed = 0 ∧
      site.admitAt windowMs burst now = (⟨now, 1, 0⟩, .print)) ∨
    (now - site.windowStart < windowMs ∧ site.printed < burst ∧
      site.admitAt windowMs burst now = ({ site with printed := site.printed + 1 }, .print)) ∨
    (now - site.windowStart < windowMs ∧ site.admitAt windowMs burst now =
      ({ site with suppressed := min (site.suppressed + 1) (2 ^ 32 - 1) }, .suppress)) := by
  unfold Site.admitAt
  by_cases hroll : windowMs ≤ now - site.windowStart
  · rw [if_pos hroll]
    by_cases hzero : site.suppressed = 0
    · exact .inr (.inl ⟨hroll, hzero, by rw [if_neg (by omega)]⟩)
    · exact .inl ⟨hroll, hzero, by rw [if_pos (by omega)]⟩
  · rw [if_neg hroll]
    by_cases hburst : site.printed < burst
    · exact .inr (.inr (.inl ⟨by omega, hburst, if_pos hburst⟩))
    · exact .inr (.inr (.inr ⟨by omega, if_neg hburst⟩))

theorem printAfterSuppressing_zero_not_mem (windowMs burst : ℕ) (times : List ℕ) :
    ∀ site, .printAfterSuppressing 0 ∉ (siteRun windowMs burst site times).2 := by
  induction times with
  | nil => exact fun site => List.not_mem_nil
  | cons now times ih =>
    intro site hmem
    rcases List.mem_cons.mp hmem with h | h
    · rcases Site.admitAt_cases windowMs burst (site.getD ⟨now, 0, 0⟩) now with
        ⟨-, hne, heq⟩ | ⟨-, -, heq⟩ | ⟨-, -, heq⟩ | ⟨-, heq⟩
      · rw [heq, Decision.printAfterSuppressing.injEq] at h
        exact hne h.symm
      · rw [heq] at h; cases h
      · rw [heq] at h; cases h
      · rw [heq] at h; cases h
    · exact ih _ h

/-- One message is printed, or counted, or reports the count. -/
theorem Site.admitAt_count (windowMs burst : ℕ) (site : Site) (now : ℕ)
    (hcount : unreportedFrom site.suppressed [(site.admitAt windowMs burst now).2] < 2 ^ 32) :
    (site.admitAt windowMs burst now).1.suppressed =
        unreportedFrom site.suppressed [(site.admitAt windowMs burst now).2] ∧
      1 + site.suppressed = (if (site.admitAt windowMs burst now).2.isPrint then 1 else 0) +
        (site.admitAt windowMs burst now).2.reported +
        (site.admitAt windowMs burst now).1.suppressed := by
  rcases Site.admitAt_cases windowMs burst site now with
    ⟨-, -, heq⟩ | ⟨-, hzero, heq⟩ | ⟨-, -, heq⟩ | ⟨-, heq⟩
  · rw [heq]
    exact ⟨rfl, rfl⟩
  · rw [heq, hzero]
    exact ⟨rfl, rfl⟩
  · rw [heq]
    refine ⟨rfl, ?_⟩
    simp [Decision.isPrint, Decision.reported]
  · rw [heq] at hcount ⊢
    have hlt : site.suppressed + 1 < 2 ^ 32 := hcount
    have hmin : min (site.suppressed + 1) (2 ^ 32 - 1) = site.suppressed + 1 := by omega
    refine ⟨hmin, ?_⟩
    simp only [hmin, Decision.isPrint, Decision.reported, Bool.false_eq_true, if_false]
    omega

/-- Every message of a call site is printed, reported or still counted. -/
theorem siteRun_length (windowMs burst : ℕ) (times : List ℕ) : ∀ site : Option Site,
    (∀ done, done <+: (siteRun windowMs burst site times).2 →
      unreportedFrom ((site.map Site.suppressed).getD 0) done < 2 ^ 32) →
    times.length + (site.map Site.suppressed).getD 0 =
      (siteRun windowMs burst site times).2.countP Decision.isPrint +
        ((siteRun windowMs burst site times).2.map Decision.reported).sum +
        ((siteRun windowMs burst site times).1.map Site.suppressed).getD 0 := by
  induction times with
  | nil => intro site _; simp [siteRun]
  | cons now times ih =>
    intro site hcount
    have hsup : (site.getD ⟨now, 0, 0⟩).suppressed = (site.map Site.suppressed).getD 0 := by
      cases site <;> rfl
    rw [← hsup] at hcount ⊢
    obtain ⟨hnext, hone⟩ := Site.admitAt_count windowMs burst (site.getD ⟨now, 0, 0⟩) now
      (hcount [_] (List.prefix_append [_] _))
    have hrest := ih (some ((site.getD ⟨now, 0, 0⟩).admitAt windowMs burst now).1)
      fun done hdone => by
        have h := hcount (_ :: done) (List.cons_prefix_cons.mpr ⟨rfl, hdone⟩)
        rw [Option.map_some, Option.getD_some, hnext]
        exact h
    rw [Option.map_some, Option.getD_some] at hrest
    simp only [siteRun, List.length_cons, List.countP_cons, List.map_cons, List.sum_cons]
    omega

/-! ### The bound -/

/-- A window that opened at `start` and has printed `printed` messages, after the prints at
`prints` and messages until `last` : the prints before the window are not after its start, those
of them that a stretch reaching into the window can meet are few, and so are those of any
stretch. -/
structure Windows (windowMs most start printed last : ℕ) (prints : List ℕ) : Prop where
  exists_older : ∃ older current, prints = older ++ current ∧ current.length = printed ∧
    (∀ t ∈ older, t ≤ start) ∧
    ∀ a, start < a + windowMs → older.countP (fun t => a ≤ t) ≤ most
  printed_le : printed ≤ most
  start_le : start ≤ last
  past : ∀ t ∈ prints, t ≤ last
  rate : ∀ a, prints.countP (fun t => a ≤ t ∧ t < a + windowMs) ≤ 2 * most

variable {most start printed last : ℕ} {prints : List ℕ}

theorem Windows.later (h : Windows windowMs most start printed last prints) (hlast : last ≤ now) :
    Windows windowMs most start printed now prints where
  exists_older := h.exists_older
  printed_le := h.printed_le
  start_le := h.start_le.trans hlast
  past t ht := (h.past t ht).trans hlast
  rate := h.rate

theorem countP_window_le (windowMs a : ℕ) (ts : List ℕ) :
    ts.countP (fun t => a ≤ t ∧ t < a + windowMs) ≤ ts.countP fun t => a ≤ t :=
  List.countP_mono_left fun t _ h => by
    rw [decide_eq_true_eq] at h ⊢
    exact h.1

/-- A new window : what was printed before and is met from inside it was printed in the window
that just ended. -/
theorem Windows.roll (h : Windows windowMs most start printed last prints) (hmost : 1 ≤ most)
    (hlast : last ≤ now) (hroll : windowMs ≤ now - start) :
    Windows windowMs most now 1 now (prints ++ [now]) := by
  obtain ⟨older, current, rfl, hlen, holder, -⟩ := h.exists_older
  have hfew : ∀ a, now < a + windowMs → (older ++ current).countP (fun t => a ≤ t) ≤ most := by
    intro a ha
    have hzero : older.countP (fun t => a ≤ t) = 0 := List.countP_eq_zero.mpr fun t ht hle => by
      have := holder t ht
      have := h.start_le
      rw [decide_eq_true_eq] at hle
      omega
    rw [List.countP_append, hzero, Nat.zero_add]
    exact List.countP_le_length.trans (hlen ▸ h.printed_le)
  refine ⟨⟨older ++ current, [now], rfl, rfl, fun t ht => (h.past t ht).trans hlast, hfew⟩, hmost,
    le_rfl, fun t ht => ?_, fun a => ?_⟩
  · rcases List.mem_append.mp ht with ht | ht
    · exact (h.past t ht).trans hlast
    · exact (List.mem_singleton.mp ht).le
  · rw [List.countP_append, List.countP_singleton]
    split
    case isTrue hin =>
      rw [decide_eq_true_eq] at hin
      have := (countP_window_le windowMs a _).trans (hfew a hin.2)
      omega
    case isFalse =>
      rw [Nat.add_zero]
      exact h.rate a

/-- One more print in the window. -/
theorem Windows.print (h : Windows windowMs most start printed last prints) (hlast : last ≤ now)
    (hburst : printed < most) :
    Windows windowMs most start (printed + 1) now (prints ++ [now]) := by
  obtain ⟨older, current, rfl, hlen, holder, hfew⟩ := h.exists_older
  refine ⟨⟨older, current ++ [now], List.append_assoc .., ?_, holder, hfew⟩, hburst,
    h.start_le.trans hlast, fun t ht => ?_, fun a => ?_⟩
  · rw [List.length_append, hlen]
    rfl
  · rcases List.mem_append.mp ht with ht | ht
    · exact (h.past t ht).trans hlast
    · exact (List.mem_singleton.mp ht).le
  · rw [List.countP_append, List.countP_singleton]
    split
    case isTrue hin =>
      rw [decide_eq_true_eq] at hin
      have hstart := h.start_le
      have hold := (countP_window_le windowMs a older).trans (hfew a (by omega))
      have hnew : current.countP (fun t => a ≤ t ∧ t < a + windowMs) ≤ printed :=
        hlen ▸ List.countP_le_length
      rw [List.countP_append]
      omega
    case isFalse =>
      rw [Nat.add_zero]
      exact h.rate a

theorem Windows.admitAt (burst : ℕ) (h : Windows windowMs (max burst 1) site.windowStart
    site.printed last prints) (hlast : last ≤ now) :
    Windows windowMs (max burst 1) (site.admitAt windowMs burst now).1.windowStart
      (site.admitAt windowMs burst now).1.printed now
      (prints ++ if (site.admitAt windowMs burst now).2.isPrint then [now] else []) := by
  have hmost : 1 ≤ max burst 1 := Nat.le_max_right ..
  rcases Site.admitAt_cases windowMs burst site now with
    ⟨hroll, -, heq⟩ | ⟨hroll, -, heq⟩ | ⟨-, hburst, heq⟩ | ⟨-, heq⟩
  · rw [heq]
    exact h.roll hmost hlast hroll
  · rw [heq]
    exact h.roll hmost hlast hroll
  · rw [heq]
    exact h.print hlast (lt_of_lt_of_le hburst (Nat.le_max_left ..))
  · rw [heq]
    change Windows windowMs (max burst 1) site.windowStart site.printed now (prints ++ [])
    rw [List.append_nil]
    exact h.later hlast

theorem printTimes_cons (now : ℕ) (times : List ℕ) (d : Decision) (decisions : List Decision) :
    printTimes (now :: times) (d :: decisions) =
      (if d.isPrint then [now] else []) ++ printTimes times decisions := by
  rw [printTimes, List.zip_cons_cons]
  by_cases hd : d.isPrint = true
  · rw [List.filter_cons_of_pos (by exact hd), if_pos hd]
    rfl
  · rw [List.filter_cons_of_neg (by exact hd), if_neg hd]
    rfl

theorem Windows.siteRun_rate (burst : ℕ) (times : List ℕ) : ∀ {site : Site} {last : ℕ}
    {prints : List ℕ}, Windows windowMs (max burst 1) site.windowStart site.printed last prints →
      (last :: times).Pairwise (· ≤ ·) → ∀ a,
        (prints ++ printTimes times (siteRun windowMs burst (some site) times).2).countP
          (fun t => a ≤ t ∧ t < a + windowMs) ≤ 2 * max burst 1 := by
  induction times with
  | nil =>
    intro site last prints h _ a
    rw [siteRun, printTimes, List.zip_nil_left, List.filter_nil, List.map_nil, List.append_nil]
    exact h.rate a
  | cons now times ih =>
    intro site last prints h htimes a
    obtain ⟨hlast, htimes⟩ := List.pairwise_cons.mp htimes
    have hstep := h.admitAt burst (hlast now List.mem_cons_self)
    have hrest := ih hstep htimes a
    rwa [List.append_assoc, ← printTimes_cons] at hrest

/-- In a stretch as long as a window no more is printed than two windows allow. -/
theorem siteRun_rate (windowMs burst : ℕ) {times : List ℕ} (htimes : times.Pairwise (· ≤ ·))
    (a : ℕ) : (printTimes times (siteRun windowMs burst none times).2).countP
      (fun t => a ≤ t ∧ t < a + windowMs) ≤ 2 * max burst 1 := by
  cases times with
  | nil => exact Nat.zero_le _
  | cons now times =>
    let first : Site := ⟨now, 0, 0⟩
    have hnew : Windows windowMs (max burst 1) first.windowStart first.printed now [] :=
      ⟨⟨[], [], rfl, rfl, fun t ht => absurd ht List.not_mem_nil, fun a _ => Nat.zero_le _⟩,
        Nat.zero_le _, le_rfl, fun t ht => absurd ht List.not_mem_nil, fun a => Nat.zero_le _⟩
    refine Windows.siteRun_rate burst (now :: times) hnew ?_ a
    refine List.pairwise_cons.mpr ⟨fun t ht => ?_, htimes⟩
    rcases List.mem_cons.mp ht with rfl | ht
    · exact le_rfl
    · exact (List.pairwise_cons.mp htimes).1 t ht

end OneSite

/-! ## Runs -/

theorem lookup_eq_some_of_mem {l : List (CallSite × ℕ)} {key : CallSite} {n : ℕ}
    (hl : (l.map Prod.fst).Nodup) (h : (key, n) ∈ l) : l.lookup key = some n := by
  induction l with
  | nil => exact absurd h List.not_mem_nil
  | cons e l ih =>
    rw [List.map_cons, List.nodup_cons] at hl
    rcases List.mem_cons.mp h with rfl | h
    · exact List.lookup_cons_self
    · have hne : key ≠ e.1 := fun heq => hl.1 (heq ▸ List.mem_map_of_mem h)
      rw [List.lookup_cons, beq_false_of_ne hne]
      exact ih hl.2 h

theorem Limiter.mem_pending {l : Limiter} {key : CallSite} {n : ℕ} : (key, n) ∈ l.pending ↔
    ∃ site, l.sites[key]? = some site ∧ 0 < site.suppressed ∧ site.suppressed = n := by
  rw [pending, List.mem_map]
  constructor
  · rintro ⟨⟨key, site⟩, he, heq⟩
    obtain ⟨rfl, rfl⟩ := Prod.mk.inj heq
    obtain ⟨hmem, hpos⟩ := List.mem_filter.mp he
    exact ⟨site, Std.ExtTreeMap.mem_toList_iff_getElem?_eq_some.mp hmem, of_decide_eq_true hpos,
      rfl⟩
  · rintro ⟨site, hsite, hpos, rfl⟩
    exact ⟨(key, site), List.mem_filter.mpr
      ⟨Std.ExtTreeMap.mem_toList_iff_getElem?_eq_some.mpr hsite, decide_eq_true hpos⟩, rfl⟩

/-- The pending count of a call site is that of its window. -/
theorem Limiter.pendingFor_eq (l : Limiter) (key : CallSite) :
    l.pendingFor key = (l.sites[key]?.map Site.suppressed).getD 0 := by
  have hnodup : (l.pending.map Prod.fst).Nodup := by
    rw [pending, List.map_map]
    refine List.Nodup.sublist (List.filter_sublist.map _) ?_
    change (l.sites.toList.map Prod.fst).Nodup
    rw [Std.ExtTreeMap.map_fst_toList_eq_keys]
    exact Std.ExtTreeMap.nodup_keys
  rw [pendingFor]
  cases hlookup : l.pending.lookup key with
  | some n =>
    have hmem : (key, n) ∈ l.pending := by
      obtain ⟨before, after, heq, -⟩ := List.lookup_eq_some_iff.mp hlookup
      rw [heq]
      exact List.mem_append_right _ List.mem_cons_self
    obtain ⟨site, hsite, -, rfl⟩ := mem_pending.mp hmem
    rw [hsite]
    rfl
  | none =>
    cases hsite : l.sites[key]? with
    | none => rfl
    | some site =>
      rcases Nat.eq_zero_or_pos site.suppressed with hzero | hpos
      · exact hzero.symm
      · have hmem := mem_pending.mpr ⟨site, hsite, hpos, rfl⟩
        rw [lookup_eq_some_of_mem hnodup hmem] at hlookup
        cases hlookup

theorem Limiter.length_run (l : Limiter) (messages : List Message) :
    (l.run messages).2.length = messages.length := by
  induction messages generalizing l with
  | nil => rfl
  | cons m messages ih => rw [run, List.length_cons, List.length_cons, ih]

/-- With one call site only, its decisions are all there are. -/
theorem decisionsFor_eq_self {key : CallSite} {messages : List Message}
    {decisions : List Decision} (hkey : ∀ m ∈ messages, m.key = key)
    (hlen : decisions.length = messages.length) :
    decisionsFor key messages decisions = decisions := by
  have hall : (messages.zip decisions).filter (fun e => e.1.key = key) =
      messages.zip decisions := List.filter_eq_self.mpr fun e he =>
    decide_eq_true (hkey _ (List.of_mem_zip he).1)
  rw [decisionsFor, hall, List.map_snd_zip hlen.le]

/-- In every run, for every call site : each message is printed, was reported or is pending, no
report is empty, the decisions are those of the run without the other call sites, and no stretch
as long as a window has more prints than two windows allow. -/
theorem limiter_run (windowMs burst : ℕ) (messages : List Message) (key : CallSite)
    (htimes : (messages.map Message.now).Pairwise (· ≤ ·))
    (hcount : ∀ done, done <+: decisionsFor key messages
      ((⟨windowMs, burst, ∅⟩ : Limiter).run messages).2 → unreported done < 2 ^ 32) :
    let r := (⟨windowMs, burst, ∅⟩ : Limiter).run messages
    let decisions := decisionsFor key messages r.2
    (timesFor key messages).length = decisions.countP Decision.isPrint +
        (decisions.map Decision.reported).sum + r.1.pendingFor key ∧
      .printAfterSuppressing 0 ∉ decisions ∧
      decisions = ((⟨windowMs, burst, ∅⟩ : Limiter).run
        (messages.filter fun m => m.key = key)).2 ∧
      ∀ a, (printTimes (timesFor key messages) decisions).countP
        (fun t => a ≤ t ∧ t < a + windowMs) ≤ 2 * max burst 1 := by
  obtain ⟨hdecisions, hsite⟩ := decisionsFor_run key ⟨windowMs, burst, ∅⟩ messages
  obtain ⟨halone, -⟩ := decisionsFor_run key ⟨windowMs, burst, ∅⟩
    (messages.filter fun m => m.key = key)
  have hnone : (∅ : Std.ExtTreeMap CallSite Site compare)[key]? = none :=
    Std.ExtTreeMap.getElem?_empty
  simp only [hnone] at hdecisions hsite halone
  rw [hdecisions] at hcount
  dsimp only
  rw [Limiter.pendingFor_eq, hdecisions, hsite]
  refine ⟨?_, printAfterSuppressing_zero_not_mem windowMs burst _ none, ?_,
    siteRun_rate windowMs burst ?_⟩
  · exact siteRun_length windowMs burst _ none hcount
  · have htimes' : timesFor key (messages.filter fun m => m.key = key) =
        timesFor key messages := by
      rw [timesFor, List.filter_filter, timesFor]
      simp only [Bool.and_self]
    rw [htimes', decisionsFor_eq_self (fun m hm => of_decide_eq_true (List.mem_filter.mp hm).2)
      (Limiter.length_run _ _)] at halone
    exact halone.symm
  · exact (htimes.sublist ((List.filter_sublist).map _))

/-- Two messages at once with a budget of one, and one from elsewhere. -/
theorem limiter_run_two :
    let messages : List Message := [⟨⟨"boot.rs", 1⟩, 0⟩, ⟨⟨"boot.rs", 1⟩, 0⟩, ⟨⟨"logs.rs", 2⟩, 3⟩]
    let key : CallSite := ⟨"boot.rs", 1⟩
    let r := (⟨1000, 1, ∅⟩ : Limiter).run messages
    let decisions := decisionsFor key messages r.2
    (timesFor key messages).length = decisions.countP Decision.isPrint +
        (decisions.map Decision.reported).sum + r.1.pendingFor key ∧
      .printAfterSuppressing 0 ∉ decisions ∧
      decisions = ((⟨1000, 1, ∅⟩ : Limiter).run (messages.filter fun m => m.key = key)).2 ∧
      ∀ a, (printTimes (timesFor key messages) decisions).countP
        (fun t => a ≤ t ∧ t < a + 1000) ≤ 2 * max 1 1 :=
  limiter_run 1000 1 [⟨⟨"boot.rs", 1⟩, 0⟩, ⟨⟨"boot.rs", 1⟩, 0⟩, ⟨⟨"logs.rs", 2⟩, 3⟩]
    ⟨"boot.rs", 1⟩ (by decide) fun done hdone => by
      have hle : unreported done ≤ 0 + done.length := unreportedFrom_le 0 done
      have hlen := hdone.length_le.trans (length_decisionsFor_le ..)
      change done.length ≤ 3 at hlen
      omega

end Rinit
