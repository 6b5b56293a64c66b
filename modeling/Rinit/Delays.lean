import Rinit.Breaker

/-!
# Backoff delays

The delay before a restart doubles with every failure, up to a cap, and a little jitter is
added. The products and the sum saturate at 64 bits, so that a huge base gives a huge delay.
`attempts` counts the failures since the last reset, or since the last failure that found the
unit stable. `onFailure_delay_bounds` : every delay of a run is at least
`base * 2 ^ min (n - 1) 5` and less than a quarter of the base above that.

The jitter is a xorshift generator, which never leaves the zero state. A shift followed by an
exclusive or is zero only at zero (`eq_zero_of_xor_shiftLeft`, `eq_zero_of_xor_shiftRight`),
so that a generator seeded with a word other than zero never gets there (`draws_seed_ne_zero`).
-/

namespace Rinit

/-! ### The jitter -/

/-- A word that a left shift leaves as it is, is shifted out of itself. -/
theorem eq_zero_of_xor_shiftLeft {x : UInt64} (h : x ^^^ (x <<< 25) = 0) : x = 0 := by
  have hx : x.toBitVec = x.toBitVec <<< 25 := by
    simpa using congrArg UInt64.toBitVec (UInt64.xor_eq_zero_iff.mp h)
  have htwice : x.toBitVec = x.toBitVec <<< (25 + 25) := by
    rw [BitVec.shiftLeft_add, ← hx, ← hx]
  have hout : x.toBitVec = x.toBitVec <<< (25 + 25 + 25) := by
    rw [BitVec.shiftLeft_add, ← htwice, ← hx]
  apply UInt64.toBitVec_inj.mp
  rw [hout]
  exact BitVec.shiftLeft_eq_zero (by decide)

/-- A word that a right shift leaves as it is, is no larger than a part of itself. -/
theorem eq_zero_of_xor_shiftRight {x k : UInt64} (hk : 0 < k.toNat % 64)
    (h : x ^^^ (x >>> k) = 0) : x = 0 := by
  have hx : x.toNat = x.toNat / 2 ^ (k.toNat % 64) := by
    have := congrArg UInt64.toNat (UInt64.xor_eq_zero_iff.mp h)
    rwa [UInt64.toNat_shiftRight, Nat.shiftRight_eq_div_pow] at this
  apply UInt64.toNat_inj.mp
  rcases Nat.eq_zero_or_pos x.toNat with hzero | hpos
  · exact hzero
  · have := Nat.div_lt_self hpos (Nat.one_lt_two_pow hk.ne')
    omega

namespace Jitter

theorem new_seed_ne_zero (seed : UInt64) : (new seed).seed ≠ 0 := by
  unfold new
  split
  · decide
  · assumption

theorem nextBelow_seed_ne_zero {j : Jitter} (h : j.seed ≠ 0) (bound : ℕ) :
    (j.nextBelow bound).1.seed ≠ 0 := by
  unfold nextBelow
  split
  · exact h
  · intro hz
    have h27 := eq_zero_of_xor_shiftRight (by decide) hz
    have h25 := eq_zero_of_xor_shiftLeft h27
    exact h (eq_zero_of_xor_shiftRight (by decide) h25)

theorem nextBelow_le (j : Jitter) (bound : ℕ) : (j.nextBelow bound).2 ≤ bound - 1 := by
  unfold nextBelow
  split
  · exact Nat.zero_le _
  · exact Nat.le_sub_one_of_lt (Nat.mod_lt _ (by omega))

/-- The generator after a draw below each bound. -/
def draws (j : Jitter) (bounds : List ℕ) : Jitter := bounds.foldl (fun j n => (j.nextBelow n).1) j

theorem draws_seed_ne_zero (bounds : List ℕ) {j : Jitter} (h : j.seed ≠ 0) :
    (j.draws bounds).seed ≠ 0 := by
  induction bounds generalizing j with
  | nil => exact h
  | cons n bounds ih => exact ih (nextBelow_seed_ne_zero h n)

end Jitter

/-! ### The count -/

namespace BackoffState

/-- The failures the delay is computed from, after one more call. -/
def attemptsStep (b : BackoffState) (n : ℕ) : BackoffCall → ℕ
  | .onActive _ => n
  | .onFailure now => if b.hasBeenStableSince now then 1 else n + 1
  | .reset => 0

/-- The failures since the last reset, or since and with the last failure that found the unit
stable. -/
def attempts (b : BackoffState) (calls : List BackoffCall) : ℕ :=
  (calls.foldl (fun s c => (s.1.call c, attemptsStep s.1 s.2 c)) (b, 0)).2

theorem attempts_append_singleton (b : BackoffState) (calls : List BackoffCall)
    (c : BackoffCall) :
    b.attempts (calls ++ [c]) = attemptsStep (b.runCalls calls) (b.attempts calls) c := by
  have hfst (calls : List BackoffCall) (s : BackoffState × ℕ) :
      (calls.foldl (fun s c => (s.1.call c, attemptsStep s.1 s.2 c)) s).1 = s.1.runCalls calls := by
    induction calls generalizing s with
    | nil => rfl
    | cons c calls ih => exact ih _
  simp only [attempts, List.foldl_append, List.foldl_cons, List.foldl_nil]
  rw [hfst]

theorem onFailure_fst_consecutive (b : BackoffState) (now : ℕ) :
    (b.onFailure now).1.consecutive = (b.countFailure now).consecutive := by
  unfold onFailure
  dsimp only
  split
  · rfl
  · split <;> rfl

theorem countFailure_consecutive {b : BackoffState} {n : ℕ}
    (h : b.consecutive = min n (2 ^ 32 - 1)) (now : ℕ) :
    (b.countFailure now).consecutive =
      min (attemptsStep b n (.onFailure now)) (2 ^ 32 - 1) := by
  unfold countFailure attemptsStep
  cases hstable : b.hasBeenStableSince now with
  | true => simp [hstable]
  | false =>
    simp only [hstable, Bool.false_eq_true, if_false, h]
    omega

/-- The counter of the program is the number of failures, saturated at 32 bits. -/
theorem runCalls_consecutive {b : BackoffState} (h : b.consecutive = 0)
    (calls : List BackoffCall) :
    (b.runCalls calls).consecutive = min (b.attempts calls) (2 ^ 32 - 1) := by
  induction calls using List.reverseRecOn with
  | nil => simpa [runCalls, attempts] using h
  | append_singleton calls c ih =>
    rw [runCalls_append_singleton, attempts_append_singleton]
    cases c with
    | onActive now => exact ih
    | onFailure now =>
      exact (onFailure_fst_consecutive _ now).trans (countFailure_consecutive ih now)
    | reset => rfl

/-- A delay comes out of `nextDelay` on the counted failure, with a window that does not
matter to it. -/
theorem onFailure_eq_some {b : BackoffState} {now delay : ℕ}
    (h : (b.onFailure now).2 = some delay) :
    ∃ window, delay = { b.countFailure now with window := window }.nextDelay.2 := by
  unfold onFailure at h
  dsimp only at h
  split at h
  · exact ⟨(b.countFailure now).window, (Option.some.inj h).symm⟩
  · split at h
    · cases h
    · exact ⟨_, (Option.some.inj h).symm⟩

theorem onFailure_jitter {b : BackoffState} (h : b.jitter.seed ≠ 0) (now : ℕ) :
    (b.onFailure now).1.jitter.seed ≠ 0 := by
  have hcount : (b.countFailure now).jitter = b.jitter := by
    unfold countFailure
    split <;> rfl
  have hnext (b' : BackoffState) (hj : b'.jitter = b.jitter) :
      b'.nextDelay.1.jitter.seed ≠ 0 := Jitter.nextBelow_seed_ne_zero (by rwa [hj]) _
  unfold onFailure
  dsimp only
  split
  · exact hnext _ hcount
  · split
    · rwa [hcount]
    · exact hnext _ hcount

theorem runCalls_jitter {b : BackoffState} (h : b.jitter.seed ≠ 0) (calls : List BackoffCall) :
    (b.runCalls calls).jitter.seed ≠ 0 := by
  induction calls using List.reverseRecOn with
  | nil => exact h
  | append_singleton calls c ih =>
    rw [runCalls_append_singleton]
    cases c with
    | onActive now => exact ih
    | onFailure now => exact onFailure_jitter ih now
    | reset => exact ih

end BackoffState

/-! ### The delay -/

/-- The delay of the `n`th failure in milliseconds, without the jitter. -/
def plainDelay (base n : ℕ) : ℕ := saturate (base * 2 ^ min (n - 1) backoffExponentCap)

theorem saturate_mono {m n : ℕ} (h : m ≤ n) : saturate m ≤ saturate n := by
  unfold saturate
  omega

theorem plainDelay_mono (base : ℕ) {n n' : ℕ} (h : n ≤ n') :
    plainDelay base n ≤ plainDelay base n' := by
  apply saturate_mono
  apply Nat.mul_le_mul_left
  apply Nat.pow_le_pow_right (by decide)
  omega

/-- The delay lies between the plain delay and a quarter of the base above it. -/
theorem nextDelay_bounds {b : BackoffState} {n : ℕ} (h : b.consecutive = min n (2 ^ 32 - 1)) :
    plainDelay (saturate b.base) n ≤ b.nextDelay.2 ∧
    b.nextDelay.2 ≤ saturate (plainDelay (saturate b.base) n + (saturate b.base / 4 - 1)) := by
  have hexp : min (b.consecutive - 1) backoffExponentCap = min (n - 1) backoffExponentCap := by
    rw [h, backoffExponentCap]
    omega
  have hscaled : min (saturate (saturate b.base * 2 ^ min (b.consecutive - 1) backoffExponentCap))
      (saturate (saturate b.base * 2 ^ backoffExponentCap)) = plainDelay (saturate b.base) n := by
    rw [hexp, plainDelay]
    refine min_eq_left (saturate_mono (Nat.mul_le_mul_left _ ?_))
    exact Nat.pow_le_pow_right (by decide) (by omega)
  have hjitter := b.jitter.nextBelow_le (saturate b.base / 4)
  unfold BackoffState.nextDelay
  simp only [hscaled]
  constructor
  · calc
      plainDelay (saturate b.base) n = saturate (plainDelay (saturate b.base) n) := by
        unfold plainDelay saturate
        omega
      _ ≤ _ := saturate_mono (Nat.le_add_right _ _)
  · exact saturate_mono (Nat.add_le_add_left hjitter _)

/-- Delays never wrap. Along every run of calls, a delay after `n` failures is at least
`base * 2 ^ min (n - 1) 5` milliseconds and at most `base / 4 - 1` above, both saturated at
64 bits. The lower bound never decreases with `n`. And no number of draws brings the
jitter to the zero state. -/
theorem onFailure_delay_bounds (base interval : Duration) (burst : ℕ) (seed : UInt64)
    (calls : List BackoffCall) (now : ℕ) :
    let start := BackoffState.ofDurations base burst interval seed
    let n := start.attempts (calls ++ [.onFailure now])
    (∀ delay, ((start.runCalls calls).onFailure now).2 = some delay →
      plainDelay base.asMillis n ≤ delay ∧
      delay ≤ saturate (plainDelay base.asMillis n + (base.asMillis / 4 - 1))) ∧
    (∀ m m', m ≤ m' → plainDelay base.asMillis m ≤ plainDelay base.asMillis m') ∧
    (∀ bounds, ((Jitter.new seed).draws bounds).seed ≠ 0) ∧
    ((start.runCalls calls).onFailure now).1.jitter.seed ≠ 0 := by
  intro start n
  have hseed : start.jitter.seed ≠ 0 := Jitter.new_seed_ne_zero seed
  refine ⟨fun delay h => ?_, fun m m' hm => plainDelay_mono _ hm,
    fun bounds => Jitter.draws_seed_ne_zero bounds hseed,
    BackoffState.onFailure_jitter (BackoffState.runCalls_jitter hseed calls) now⟩
  have hcount := BackoffState.countFailure_consecutive
    (BackoffState.runCalls_consecutive (b := start) rfl calls) now
  rw [← BackoffState.attempts_append_singleton] at hcount
  have hbase : ((start.runCalls calls).countFailure now).base = base.wholeMillis := by
    have hrun := (start.runCalls_policy calls).2.2
    have hkeep : ((start.runCalls calls).countFailure now).base = (start.runCalls calls).base := by
      unfold BackoffState.countFailure
      split <;> rfl
    exact hkeep.trans hrun
  obtain ⟨window, rfl⟩ := BackoffState.onFailure_eq_some h
  have hbounds := nextDelay_bounds
    (b := { (start.runCalls calls).countFailure now with window := window }) hcount
  rw [Duration.asMillis_eq, ← hbase]
  exact hbounds

/-- The second failure of a unit with a base of ten seconds waits at least twenty. -/
theorem onFailure_delay_second :
    ∃ delay, (((BackoffState.ofDurations tenSeconds 3 tenSeconds 1).runCalls
        [.onFailure 0]).onFailure 10).2 = some delay ∧ 20000 ≤ delay ∧ delay ≤ 22499 := by
  have h := (onFailure_delay_bounds tenSeconds tenSeconds 3 1 [.onFailure 0] 10).1 _ rfl
  exact ⟨_, rfl, le_trans (by decide) h.1, h.2.trans (by decide)⟩

end Rinit
