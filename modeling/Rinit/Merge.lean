import Mathlib.Data.List.DropRight
import Mathlib.Data.List.MinMax
import Mathlib.Data.List.Pairwise
import Mathlib.Data.Prod.Lex
import Rinit.Job

/-!
# Merging over a whole history

A queue goes through submissions and forgets in any order (`run`), and throws away every job
that loses. `holder` looks back at the whole history instead : of the jobs for a unit since
it was last forgotten, the first one with the greatest `key`, the source before the time.
Nothing that was thrown away would have mattered (`targetOf_run`), and `submit` says whether
the job it was given is the holder now (`merged_run`). Jobs with distinct keys give the same
targets in whatever order they are submitted (`targets_run_perm`).
-/

namespace Rinit

/-- What a request is ranked by : its source, then its time. -/
def MergedTarget.key (m : MergedTarget) : ℕ ×ₗ ℕ := toLex (m.source.rank, m.time)

/-- What the queue keeps of a job. -/
def Job.merged (job : Job) : MergedTarget := ⟨job.target, job.source, job.time⟩

def Job.key (job : Job) : ℕ ×ₗ ℕ := job.merged.key

theorem RequestSource.rank_injective : Function.Injective RequestSource.rank := by
  intro a b h
  cases a <;> cases b <;> simp_all [RequestSource.rank]

theorem JobQueue.outranks_iff (new current : MergedTarget) :
    outranks new current ↔ current.key < new.key := by
  rw [MergedTarget.key, MergedTarget.key, Prod.Lex.toLex_lt_toLex, outranks, Bool.or_eq_true,
    Bool.and_eq_true, decide_eq_true_iff, decide_eq_true_iff, decide_eq_true_iff]
  exact or_congr_right (and_congr_left' (eq_comm.trans RequestSource.rank_injective.eq_iff.symm))

/-- The comparison of `submit` is the one of `supersedes`. -/
theorem JobQueue.outranks_merged (job other : Job) :
    outranks job.merged other.merged = job.supersedes other :=
  rfl

theorem Job.supersedes_iff (job other : Job) : job.supersedes other ↔ other.key < job.key := by
  rw [← JobQueue.outranks_merged, JobQueue.outranks_iff]
  rfl

namespace JobQueue

/-- One call on a queue. -/
inductive Op where
  | submit (job : Job)
  | forget (unit : UnitName)
deriving DecidableEq, Repr

def apply (q : JobQueue) : Op → JobQueue
  | .submit job => (q.submit job).1
  | .forget unit => q.forget unit

/-- The queue after a history of calls. -/
def run (ops : List Op) : JobQueue := ops.foldl apply {}

/-- The job of a call, if it submits one for `unit`. -/
def Op.jobFor (unit : UnitName) : Op → Option Job
  | .submit job => if job.unit = unit then some job else none
  | .forget _ => none

/-- The jobs for `unit` since it was last forgotten. -/
def since (unit : UnitName) (ops : List Op) : List Job :=
  (ops.rtakeWhile fun op => op ≠ .forget unit).filterMap (Op.jobFor unit)

/-- The job that holds the target of `unit` and where it stands among the jobs for it : the
first of those with the greatest key. -/
def holder (unit : UnitName) (ops : List Op) : Option (Job × ℕ) :=
  (since unit ops).zipIdx.argmax fun e => e.1.key

section History

variable {unit : UnitName} {ops : List Op} {job : Job}

theorem since_submit : since unit (ops ++ [.submit job]) =
    since unit ops ++ if job.unit = unit then [job] else [] := by
  unfold since
  rw [List.rtakeWhile_concat, if_pos (by simp), List.filterMap_append]
  by_cases h : job.unit = unit <;> simp [Op.jobFor, h]

theorem since_forget (other : UnitName) : since unit (ops ++ [.forget other]) =
    if unit = other then [] else since unit ops := by
  unfold since
  rw [List.rtakeWhile_concat]
  by_cases h : unit = other
  · simp [h]
  · have h' : other ≠ unit := fun e => h e.symm
    simp [h, h', Op.jobFor]

/-- A job takes over from the holder if its key is greater. -/
theorem holder_submit (h : job.unit = unit) : holder unit (ops ++ [.submit job]) =
    (holder unit ops).elim (some (job, (since unit ops).length)) fun e =>
      if job.supersedes e.1 then some (job, (since unit ops).length) else some e := by
  unfold holder
  rw [since_submit, if_pos h, List.zipIdx_append, List.zipIdx_singleton, List.argmax_concat]
  cases (since unit ops).zipIdx.argmax fun e => e.1.key with
  | none => simp
  | some e => simp [Job.supersedes_iff]

theorem holder_submit_of_ne (h : job.unit ≠ unit) :
    holder unit (ops ++ [.submit job]) = holder unit ops := by
  unfold holder
  rw [since_submit, if_neg h, List.append_nil]

theorem holder_forget (other : UnitName) : holder unit (ops ++ [.forget other]) =
    if unit = other then none else holder unit ops := by
  unfold holder
  rw [since_forget]
  split <;> rfl

theorem lt_of_holder {e : Job × ℕ} (h : holder unit ops = some e) :
    e.2 < (since unit ops).length := by
  have hmem := List.argmax_mem h
  simpa using (List.mem_zipIdx hmem).2.1

end History

/-! ## The queue of a history -/

theorem map_fst_offer (unit : UnitName) (new : MergedTarget) :
    ∀ l : List (UnitName × MergedTarget), (offer unit new l).1.map Prod.fst =
      if unit ∈ l.map Prod.fst then l.map Prod.fst else l.map Prod.fst ++ [unit]
  | [] => rfl
  | (candidate, current) :: l => by
    have ih := map_fst_offer unit new l
    unfold offer
    by_cases hc : candidate = unit
    · subst hc
      simp only [if_true]
      split <;> simp
    · have hc' : unit ≠ candidate := fun e => hc e.symm
      simp only [hc, if_false, List.map_cons, ih, List.mem_cons, hc', false_or]
      split <;> simp

theorem nodup_submit {q : JobQueue} (h : (q.merged.map Prod.fst).Nodup) (job : Job) :
    ((q.submit job).1.merged.map Prod.fst).Nodup := by
  unfold submit
  rw [map_fst_offer]
  split
  · exact h
  · next hnew =>
    rw [List.nodup_append_comm]
    exact List.nodup_cons.mpr ⟨hnew, h⟩

theorem nodup_forget {q : JobQueue} (h : (q.merged.map Prod.fst).Nodup) (unit : UnitName) :
    ((q.forget unit).merged.map Prod.fst).Nodup :=
  h.sublist (List.filter_sublist.map _)

/-- A job wins when it outranks the target there is, if there is one. -/
theorem submit_snd (q : JobQueue) (job : Job) :
    (q.submit job).2 = (q.targetOf job.unit).all (outranks job.merged) := by
  have hoffer : ∀ l : List (UnitName × MergedTarget), (offer job.unit job.merged l).2 =
      ((l.find? fun e => e.1 = job.unit).map Prod.snd).all (outranks job.merged) := by
    intro l
    induction l with
    | nil => rfl
    | cons e l ih =>
      obtain ⟨candidate, current⟩ := e
      unfold offer
      by_cases hc : candidate = job.unit
      · simp only [hc, if_true, List.find?_cons, decide_true, Option.map_some, Option.all_some]
        cases outranks job.merged current <;> rfl
      · simp [hc, ih]
  exact hoffer q.merged

theorem run_concat (ops : List Op) (op : Op) : run (ops ++ [op]) = (run ops).apply op := by
  rw [run, List.foldl_append]
  rfl

theorem nodup_run (ops : List Op) : ((run ops).merged.map Prod.fst).Nodup := by
  induction ops using List.reverseRecOn with
  | nil => exact List.nodup_nil
  | append_singleton ops op ih =>
    rw [run_concat]
    cases op with
    | submit job => exact nodup_submit ih job
    | forget unit => exact nodup_forget ih unit

/-- Over any history the target of a unit is the one its holder asks for. -/
theorem targetOf_run (ops : List Op) (unit : UnitName) :
    (run ops).targetOf unit = (holder unit ops).map fun e => e.1.merged := by
  induction ops using List.reverseRecOn with
  | nil => rfl
  | append_singleton ops op ih =>
    rw [run_concat]
    cases op with
    | submit job =>
      by_cases h : job.unit = unit
      · subst h
        rw [holder_submit rfl]
        refine (targetOf_submit (run ops) job).trans ?_
        rw [ih]
        cases hh : holder job.unit ops with
        | none => rfl
        | some e =>
          simp only [Option.map_some, winner, Option.elim_some]
          have ho : outranks ⟨job.target, job.source, job.time⟩ e.1.merged = job.supersedes e.1 :=
            outranks_merged job e.1
          rw [ho]
          cases job.supersedes e.1 <;> rfl
      · rw [holder_submit_of_ne h, ← ih]
        exact targetOf_submit_of_ne (run ops) job fun e => h e.symm
    | forget other =>
      rw [holder_forget]
      refine (targetOf_forget (run ops) other unit).trans ?_
      rw [ih]
      split <;> rfl

/-- A queue with one entry for each unit is known by its targets. -/
theorem mem_merged_iff {q : JobQueue} (h : (q.merged.map Prod.fst).Nodup) {unit : UnitName}
    {m : MergedTarget} : (unit, m) ∈ q.merged ↔ q.targetOf unit = some m := by
  unfold targetOf
  rw [Option.map_eq_some_iff]
  constructor
  · intro hmem
    have hsome : (q.merged.find? fun e => e.1 = unit).isSome := by
      rw [List.find?_isSome]
      exact ⟨_, hmem, by simp⟩
    obtain ⟨e, he⟩ := Option.isSome_iff_exists.mp hsome
    have hunit : e.1 = unit := by simpa using List.find?_some he
    have hsame := List.inj_on_of_nodup_map h (List.mem_of_find?_eq_some he) hmem hunit
    exact ⟨e, he, by rw [hsame]⟩
  · rintro ⟨e, he, rfl⟩
    have hunit : e.1 = unit := by simpa using List.find?_some he
    exact hunit ▸ List.mem_of_find?_eq_some he

theorem targets_eq {q q' : JobQueue} (h : (q.merged.map Prod.fst).Nodup)
    (h' : (q'.merged.map Prod.fst).Nodup) (ht : ∀ unit, q.targetOf unit = q'.targetOf unit) :
    q.targets = q'.targets := by
  have : Std.Total fun a b : UnitName × MergedTarget => a.1 ≤ b.1 := ⟨fun _ _ => le_total _ _⟩
  have : IsTrans (UnitName × MergedTarget) fun a b => a.1 ≤ b.1 := ⟨fun _ _ _ => le_trans⟩
  have hperm : q.merged.Perm q'.merged := by
    refine (List.perm_ext_iff_of_nodup h.of_map h'.of_map).mpr fun e => ?_
    rw [show e = (e.1, e.2) from rfl, mem_merged_iff h, mem_merged_iff h', ht]
  refine List.Perm.eq_of_pairwise ?_ (List.pairwise_insertionSort _ _)
    (List.pairwise_insertionSort _ _) ((List.perm_insertionSort _ _).trans
      (hperm.trans (List.perm_insertionSort _ _).symm))
  intro a b ha hb hab hba
  exact List.inj_on_of_nodup_map h ((List.perm_insertionSort _ _).mem_iff.mp ha)
    (hperm.mem_iff.mpr ((List.perm_insertionSort _ _).mem_iff.mp hb)) (le_antisymm hab hba)

/-! ## The order of the submissions -/

/-- What the target of `unit` becomes when a job is submitted. -/
def retarget (unit : UnitName) (m : Option MergedTarget) (job : Job) : Option MergedTarget :=
  if job.unit = unit then some (winner job.merged m) else m

theorem targetOf_submits (unit : UnitName) : ∀ (jobs : List Job) (q : JobQueue),
    ((jobs.map Op.submit).foldl apply q).targetOf unit =
      jobs.foldl (retarget unit) (q.targetOf unit)
  | [], _ => rfl
  | job :: jobs, q => by
    rw [List.map_cons, List.foldl_cons, targetOf_submits unit jobs, List.foldl_cons]
    congr 1
    unfold retarget
    by_cases h : job.unit = unit
    · rw [if_pos h, ← h]
      exact targetOf_submit q job
    · rw [if_neg h]
      exact targetOf_submit_of_ne q job fun e => h e.symm

/-- Of two requests with different keys the same one wins, whichever comes first. -/
theorem winner_comm {a b : MergedTarget} (h : a.key ≠ b.key) (m : Option MergedTarget) :
    winner a (some (winner b m)) = winner b (some (winner a m)) := by
  have hite : ∀ new current, winner new (some current) =
      if current.key < new.key then new else current := by
    intro new current
    simp only [winner, outranks_iff]
  cases m with
  | none =>
    simp only [winner.eq_1, hite]
    rcases lt_or_gt_of_ne h with hab | hab
    · rw [if_neg (lt_asymm hab), if_pos hab]
    · rw [if_pos hab, if_neg (lt_asymm hab)]
  | some c =>
    simp only [hite]
    grind

theorem retarget_comm {unit : UnitName} {a b : Job} (h : a = b ∨ (a.unit = b.unit → a.key ≠ b.key))
    (m : Option MergedTarget) :
    retarget unit (retarget unit m a) b = retarget unit (retarget unit m b) a := by
  unfold retarget
  by_cases ha : a.unit = unit
  · by_cases hb : b.unit = unit
    · simp only [ha, hb, if_true]
      rcases h with rfl | h
      · rfl
      · exact congrArg some (winner_comm (h (ha.trans hb.symm)) m).symm
    · simp only [hb, if_false]
  · simp only [ha, if_false]

/-- Requests for one unit with different keys may come in any order. -/
theorem targets_run_perm (ops : List Op) {jobs jobs' : List Job} (h : jobs.Perm jobs')
    (hkey : jobs.Pairwise fun a b => a.unit = b.unit → a.key ≠ b.key) :
    (run (ops ++ jobs.map .submit)).targets = (run (ops ++ jobs'.map .submit)).targets := by
  refine targets_eq (nodup_run _) (nodup_run _) fun unit => ?_
  rw [run, run, List.foldl_append, List.foldl_append, targetOf_submits, targetOf_submits]
  have : Std.Symm fun a b : Job => a.unit = b.unit → a.key ≠ b.key :=
    ⟨fun _ _ hne he => (hne he.symm).symm⟩
  refine h.foldl_eq' (fun a ha b hb m => retarget_comm ?_ m) _
  by_cases hab : a = b
  · exact Or.inl hab
  · exact Or.inr (hkey.forall ha hb hab)

/-- Over any history, a unit has one entry, which is what the job asks for that has the
greatest source and time of those since it was forgotten, the first of them. A submission
wins when its job is that one from then on, which is when it supersedes the one before.
Requests with different keys may be submitted in any order. -/
theorem merged_run (ops : List Op) :
    ((run ops).merged.map Prod.fst).Nodup ∧
    (∀ unit, (run ops).targetOf unit = (holder unit ops).map fun e => e.1.merged) ∧
    (∀ job, ((run ops).submit job).2 = true ↔
      holder job.unit (ops ++ [.submit job]) = some (job, (since job.unit ops).length)) ∧
    (∀ job, ((run ops).submit job).2 = (holder job.unit ops).all fun e => job.supersedes e.1) ∧
    ∀ jobs jobs' : List Job, jobs.Perm jobs' →
      jobs.Pairwise (fun a b => a.unit = b.unit → a.key ≠ b.key) →
      (run (ops ++ jobs.map .submit)).targets = (run (ops ++ jobs'.map .submit)).targets := by
  have hwins : ∀ job, ((run ops).submit job).2 =
      (holder job.unit ops).all fun e => job.supersedes e.1 := by
    intro job
    rw [submit_snd, targetOf_run, Option.all_map]
    rfl
  refine ⟨nodup_run ops, targetOf_run ops, fun job => ?_, hwins,
    fun jobs jobs' h hkey => targets_run_perm ops h hkey⟩
  rw [hwins, holder_submit rfl]
  cases hh : holder job.unit ops with
  | none => simp
  | some e =>
    -- the holder stands before the place of the new job, so it is not that one
    have hlt := lt_of_holder hh
    cases hs : job.supersedes e.1 with
    | true => simp [hs]
    | false =>
      simp only [Option.all_some, hs, Option.elim_some, Bool.false_eq_true, if_false, false_iff]
      rintro he
      rw [Option.some.inj he] at hlt
      exact lt_irrefl _ hlt

theorem merged_run_pair :
    (run ([.forget serviceA] ++ [Job.mk serviceA .started .userStart 3,
        Job.mk serviceA .stopped .userStop 2].map .submit)).targets =
      (run ([.forget serviceA] ++ [Job.mk serviceA .stopped .userStop 2,
        Job.mk serviceA .started .userStart 3].map .submit)).targets :=
  (merged_run [.forget serviceA]).2.2.2.2 _ _ (.swap _ _ []) (by decide)

end JobQueue

end Rinit
