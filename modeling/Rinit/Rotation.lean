import Mathlib.Data.List.Infix
import Mathlib.Logic.Function.Basic

/-!
# Rotated files

A log kept in numbered files: file `0` is written to, and a rotation moves every file up by
one. A disk is a function from numbers to contents, and a run is a list of file operations, so
the moments of a run are the prefixes of that list.

`joined k` reads the files from the oldest to file `0`. In a run that removes only file `k`
and renames only to a free number one higher (`SafeRun`), what `joined k` reads is at every
moment the newest part of what was there and what was written since (`SafeRun.suffix`), and
all of it unless a file was removed (`SafeRun.joined_eq`).
-/

namespace Rotation

abbrev Bytes := List UInt8

/-- The contents of each file that is there. -/
abbrev Disk := ℕ → Option Bytes

inductive FileOp where
  | remove (i : ℕ)
  | rename (i j : ℕ)
  /-- Open file `0` for appending, creating it if it is not there. -/
  | create
  /-- Cut file `0` to nothing. -/
  | clear
  /-- Append to file `0`. -/
  | write (bytes : Bytes)
deriving DecidableEq

/-- What file `i` holds, nothing if it is not there. -/
def contents (d : Disk) (i : ℕ) : Bytes := (d i).getD []

/-- What an operation does. Removing or renaming a file that is not there does nothing. -/
def FileOp.apply (d : Disk) : FileOp → Disk
  | remove i => Function.update d i none
  | rename i j =>
    if (d i).isSome then Function.update (Function.update d j (d i)) i none else d
  | create => Function.update d 0 (some (contents d 0))
  | clear => Function.update d 0 (some [])
  | write bytes => Function.update d 0 (some (contents d 0 ++ bytes))

@[simp] theorem apply_create_zero (d : Disk) :
    FileOp.apply d .create 0 = some (contents d 0) := by simp [FileOp.apply]

@[simp] theorem apply_clear_zero (d : Disk) : FileOp.apply d .clear 0 = some [] := by
  simp [FileOp.apply]

@[simp] theorem apply_write_zero (d : Disk) (bytes : Bytes) :
    FileOp.apply d (.write bytes) 0 = some (contents d 0 ++ bytes) := by simp [FileOp.apply]

@[simp] theorem apply_clear_succ (d : Disk) (i : ℕ) :
    FileOp.apply d .clear (i + 1) = d (i + 1) := Function.update_of_ne (Nat.succ_ne_zero i) _ _

@[simp] theorem apply_write_succ (d : Disk) (bytes : Bytes) (i : ℕ) :
    FileOp.apply d (.write bytes) (i + 1) = d (i + 1) :=
  Function.update_of_ne (Nat.succ_ne_zero i) _ _

@[simp] theorem apply_remove_self (d : Disk) (i : ℕ) : FileOp.apply d (.remove i) i = none := by
  simp [FileOp.apply]

/-- A number is free once its file moved up. -/
theorem apply_rename_self (d : Disk) (i : ℕ) :
    FileOp.apply d (.rename i (i + 1)) i = none := by
  cases hd : d i with
  | none =>
    have happly : FileOp.apply d (.rename i (i + 1)) = d := by simp [FileOp.apply, hd]
    rw [happly, hd]
  | some bytes => simp [FileOp.apply, hd]

/-- Renaming to a free number. -/
theorem apply_rename_of_free {d : Disk} {j : ℕ} (hfree : d j = none) (i : ℕ) :
    FileOp.apply d (.rename i j) = Function.update (Function.update d j (d i)) i none := by
  cases hd : d i with
  | none =>
    rw [← hfree, Function.update_eq_self, hfree, ← hd, Function.update_eq_self]
    simp [FileOp.apply, hd]
  | some bytes => simp [FileOp.apply, hd]

/-- The disk after a run. -/
def runOps (d : Disk) (ops : List FileOp) : Disk := ops.foldl FileOp.apply d

theorem runOps_append (d : Disk) (ops ops' : List FileOp) :
    runOps d (ops ++ ops') = runOps (runOps d ops) ops' := List.foldl_append

/-- The bytes an operation appends. -/
def FileOp.bytes : FileOp → Bytes
  | write bytes => bytes
  | remove _ | rename _ _ | create | clear => []

/-- The bytes a run appends. -/
def appended (ops : List FileOp) : Bytes := ops.flatMap FileOp.bytes

@[simp] theorem appended_append (ops ops' : List FileOp) :
    appended (ops ++ ops') = appended ops ++ appended ops' := List.flatMap_append

/-- Files `k`, ..., `1`, `0`, one behind the other. -/
def joined (d : Disk) : ℕ → Bytes
  | 0 => contents d 0
  | k + 1 => contents d (k + 1) ++ joined d k

theorem joined_congr {d d' : Disk} {k : ℕ} (h : ∀ i ≤ k, contents d' i = contents d i) :
    joined d' k = joined d k := by
  induction k with
  | zero => exact h 0 le_rfl
  | succ k ih =>
    rw [joined, joined, h (k + 1) le_rfl, ih fun i hi => h i (hi.trans (Nat.le_succ k))]

theorem joined_eq_zero {d : Disk} {k : ℕ} (h : ∀ i, 1 ≤ i → i ≤ k → d i = none) :
    joined d k = contents d 0 := by
  induction k with
  | zero => rfl
  | succ k ih =>
    rw [joined, contents, h (k + 1) (Nat.le_add_left 1 k) le_rfl,
      ih fun i hi hik => h i hi (hik.trans (Nat.le_succ k))]
    rfl

/-- Appending to file `0` appends to what is read. -/
theorem joined_write {d d' : Disk} {bytes : Bytes} (hzero : contents d' 0 = contents d 0 ++ bytes)
    (hrest : ∀ i, 1 ≤ i → d' i = d i) (k : ℕ) : joined d' k = joined d k ++ bytes := by
  induction k with
  | zero => exact hzero
  | succ k ih =>
    rw [joined, joined, contents, hrest (k + 1) (Nat.le_add_left 1 k), ih, List.append_assoc]
    rfl

/-- Moving a file to the free number above it moves nothing that is read. -/
theorem joined_rename {d : Disk} {i k : ℕ} (hik : i < k) (hfree : d (i + 1) = none) :
    joined (FileOp.apply d (.rename i (i + 1))) k = joined d k := by
  change joined (if (d i).isSome then _ else d) k = _
  split
  case isFalse => rfl
  set d' := Function.update (Function.update d (i + 1) (d i)) i none with hd'
  have hother : ∀ j, j ≠ i → j ≠ i + 1 → contents d' j = contents d j := fun j hi hj => by
    rw [contents, hd', Function.update_of_ne hi, Function.update_of_ne hj, contents]
  have hhigh : contents d' (i + 1) = contents d i := by
    rw [contents, hd', Function.update_of_ne (Nat.succ_ne_self i), Function.update_self, contents]
  have hlow : contents d' i = [] := by rw [contents, hd', Function.update_self]; rfl
  have hempty : contents d (i + 1) = [] := by rw [contents, hfree]; rfl
  induction k with
  | zero => exact absurd hik (Nat.not_lt_zero i)
  | succ k ih =>
    rcases Nat.lt_succ_iff_lt_or_eq.mp hik with hlt | rfl
    · rw [joined, joined, ih hlt, hother (k + 1) (by omega) (by omega)]
    · rw [joined, joined, hhigh, hempty, List.nil_append]
      cases i with
      | zero => rw [joined, joined, hlow, List.append_nil]
      | succ j =>
        rw [joined, joined, hlow, List.nil_append]
        exact congrArg _ (joined_congr fun n hn => hother n (by omega) (by omega))

/-- Removing the oldest file removes the front of what is read. -/
theorem joined_remove (d : Disk) {k : ℕ} (hk : 1 ≤ k) :
    joined d k = contents d k ++ joined (FileOp.apply d (.remove k)) k := by
  obtain ⟨k, rfl⟩ := Nat.exists_eq_add_one.mpr hk
  have hother : ∀ i ≤ k, contents (Function.update d (k + 1) none) i = contents d i :=
    fun i hi => by rw [contents, Function.update_of_ne (by omega), contents]
  rw [joined, FileOp.apply, joined, contents, contents, Function.update_self, joined_congr hother]
  rfl

/-! ## Safe runs -/

/-- The operation only removes file `k`, or renames to a free number one higher, or appends. -/
def Safe (k : ℕ) (d : Disk) : FileOp → Prop
  | .remove i => i = k
  | .rename i j => j = i + 1 ∧ i < k ∧ d j = none
  | .create => True
  | .clear => False
  | .write _ => True

/-- Every operation is safe when it is done. -/
def SafeRun (k : ℕ) (d : Disk) : List FileOp → Prop
  | [] => True
  | op :: ops => Safe k d op ∧ SafeRun k (op.apply d) ops

theorem safeRun_append {k : ℕ} {d : Disk} {ops ops' : List FileOp} :
    SafeRun k d (ops ++ ops') ↔ SafeRun k d ops ∧ SafeRun k (runOps d ops) ops' := by
  induction ops generalizing d with
  | nil => simp [SafeRun, runOps]
  | cons op ops ih =>
    rw [List.cons_append, SafeRun, SafeRun, ih, and_assoc]
    rfl

/-- Somewhere in the run a file that is there is removed. -/
def Loses (d : Disk) (ops : List FileOp) : Prop :=
  ∃ before i after, ops = before ++ .remove i :: after ∧ (runOps d before i).isSome

theorem Loses.cons {d : Disk} {op : FileOp} {ops : List FileOp} (h : Loses (op.apply d) ops) :
    Loses d (op :: ops) := by
  obtain ⟨before, i, after, rfl, hsome⟩ := h
  exact ⟨op :: before, i, after, rfl, hsome⟩

/-- One safe operation : what is read gains what is appended, and loses the oldest file if that
is removed. -/
theorem Safe.joined {k : ℕ} {d : Disk} {op : FileOp} (hk : 1 ≤ k) (h : Safe k d op) :
    ∃ lost, joined d k ++ op.bytes = lost ++ joined (op.apply d) k ∧
      (lost = [] ∨ ∃ i, op = .remove i ∧ (d i).isSome) := by
  cases op with
  | remove i =>
    obtain rfl : i = k := h
    refine ⟨contents d i, ?_, ?_⟩
    · rw [FileOp.bytes, List.append_nil, joined_remove d hk]
    · cases hd : d i with
      | none => exact .inl (by rw [contents, hd]; rfl)
      | some bytes => exact .inr ⟨i, rfl, by rw [hd]; rfl⟩
  | rename i j =>
    obtain ⟨rfl, hik, hfree⟩ := h
    exact ⟨[], by rw [FileOp.bytes, List.append_nil, joined_rename hik hfree]; rfl, .inl rfl⟩
  | create =>
    refine ⟨[], ?_, .inl rfl⟩
    refine (joined_write ?_ (fun i hi => ?_) k).symm
    · rw [FileOp.bytes, List.append_nil, contents, FileOp.apply, Function.update_self]
      rfl
    · exact Function.update_of_ne (Nat.one_le_iff_ne_zero.mp hi) _ _
  | clear => exact h.elim
  | write bytes =>
    refine ⟨[], ?_, .inl rfl⟩
    refine (joined_write ?_ (fun i hi => ?_) k).symm
    · rw [contents, FileOp.apply, Function.update_self]
      rfl
    · exact Function.update_of_ne (Nat.one_le_iff_ne_zero.mp hi) _ _

theorem SafeRun.joined {k : ℕ} (hk : 1 ≤ k) : ∀ {d : Disk} {ops : List FileOp},
    SafeRun k d ops → ∃ lost, joined d k ++ appended ops = lost ++ joined (runOps d ops) k ∧
      (lost = [] ∨ Loses d ops)
  | d, [], _ => ⟨[], List.append_nil _, .inl rfl⟩
  | d, op :: ops, h => by
    obtain ⟨lost, heq, hlost⟩ := h.1.joined hk
    obtain ⟨lost', heq', hlost'⟩ := SafeRun.joined hk h.2
    refine ⟨lost ++ lost', ?_, ?_⟩
    · calc Rotation.joined d k ++ appended (op :: ops)
          = (Rotation.joined d k ++ op.bytes) ++ appended ops := (List.append_assoc ..).symm
        _ = lost ++ (Rotation.joined (op.apply d) k ++ appended ops) := by
          rw [heq, List.append_assoc]
        _ = (lost ++ lost') ++ Rotation.joined (runOps d (op :: ops)) k := by
          rw [heq', List.append_assoc]
          rfl
    · rcases hlost with rfl | ⟨i, rfl, hsome⟩
      · exact hlost'.imp (fun h => h) Loses.cons
      · exact .inr ⟨[], i, ops, rfl, hsome⟩

section Moments

variable {k : ℕ} {d : Disk} {ops now : List FileOp}

theorem SafeRun.of_prefix (h : SafeRun k d ops) (hnow : now <+: ops) : SafeRun k d now := by
  obtain ⟨rest, rfl⟩ := hnow
  exact (safeRun_append.mp h).1

/-- At every moment of a safe run, what is read is the newest part of what was there and what
was appended since. -/
theorem SafeRun.suffix (hk : 1 ≤ k) (h : SafeRun k d ops) (hnow : now <+: ops) :
    Rotation.joined (runOps d now) k <:+ Rotation.joined d k ++ appended now := by
  obtain ⟨lost, heq, -⟩ := (h.of_prefix hnow).joined hk
  exact ⟨lost, heq.symm⟩

/-- Nothing is missing before a file is removed. -/
theorem SafeRun.joined_eq (hk : 1 ≤ k) (h : SafeRun k d ops) (hnow : now <+: ops)
    (hkeep : ¬Loses d now) :
    Rotation.joined (runOps d now) k = Rotation.joined d k ++ appended now := by
  obtain ⟨lost, heq, rfl | hloses⟩ := (h.of_prefix hnow).joined hk
  · exact heq.symm
  · exact absurd hloses hkeep

end Moments

end Rotation
