import Rinit.Config

/-!
# Restart backoff and the start limit

`BackoffState` counts the failures of one unit. `onFailure` gives the delay before the
next attempt, `RestartSec= * 2 ^ (n - 1)` with a cap and a little jitter on top, or
nothing when `StartLimitBurst=` failures fell inside `StartLimitIntervalSec=`. Times are
milliseconds, and the arithmetic saturates at 64 bits as the program's does.
-/

namespace Rinit

/-- The cap on the exponent of the backoff. -/
def backoffExponentCap : ℕ := 5

/-- The largest 64-bit value. -/
def u64Max : ℕ := 2 ^ 64 - 1

/-- A value that saturates at 64 bits. -/
def saturate (n : ℕ) : ℕ := min n u64Max

/-- A xorshift generator. -/
structure Jitter where
  seed : UInt64
deriving DecidableEq, Repr

namespace Jitter

def new (seed : UInt64) : Jitter := ⟨if seed = 0 then 0x9E3779B97F4A7C15 else seed⟩

/-- The next value below `bound`, 0 for a zero bound. -/
def nextBelow (j : Jitter) (bound : ℕ) : Jitter × ℕ :=
  if bound = 0 then (j, 0)
  else
    let x := j.seed
    let x := x ^^^ (x >>> 12)
    let x := x ^^^ (x <<< 25)
    let x := x ^^^ (x >>> 27)
    (⟨x⟩, (x * 0x2545F4914F6CDD1D).toNat % bound)

end Jitter

/-- The restart bookkeeping of one unit. -/
structure BackoffState where
  base : ℕ
  consecutive : ℕ
  window : List ℕ
  burst : ℕ
  interval : ℕ
  becameActiveAt : Option ℕ
  jitter : Jitter
deriving DecidableEq, Repr

namespace BackoffState

def new (base burst interval : ℕ) (seed : UInt64) : BackoffState where
  base := base
  consecutive := 0
  window := []
  burst := max burst 1
  interval := interval
  becameActiveAt := none
  jitter := Jitter.new seed

/-- Apply a reloaded policy and keep the newest failures the new burst can use. -/
def reconfigure (b : BackoffState) (base burst interval : ℕ) : BackoffState :=
  { b with
    base := base
    burst := max burst 1
    interval := interval
    window := b.window.drop (b.window.length - max burst 1) }

def onActive (b : BackoffState) (now : ℕ) : BackoffState := { b with becameActiveAt := some now }

/-- Whether the unit has been up for at least one interval. -/
def hasBeenStableSince (b : BackoffState) (now : ℕ) : Bool :=
  match b.becameActiveAt with
  | none => false
  | some since => b.interval = 0 || decide (saturate b.interval ≤ now - since)

/-- The delay of the current attempt. -/
def nextDelay (b : BackoffState) : BackoffState × ℕ :=
  let baseMs := saturate b.base
  let exponent := min (b.consecutive - 1) backoffExponentCap
  let scaled := min (saturate (baseMs * 2 ^ exponent)) (saturate (baseMs * 2 ^ backoffExponentCap))
  let r := b.jitter.nextBelow (baseMs / 4)
  ({ b with jitter := r.1 }, saturate (scaled + r.2))

/-- The failure is counted, after a stable run cleared what came before. -/
def countFailure (b : BackoffState) (now : ℕ) : BackoffState :=
  let b := if b.hasBeenStableSince now then { b with consecutive := 0, window := [] } else b
  { b with becameActiveAt := none, consecutive := min (b.consecutive + 1) (2 ^ 32 - 1) }

/-- The failures that are still inside the window, at most `burst` of them. -/
def slide (b : BackoffState) (now : ℕ) : List ℕ :=
  let window := (b.window ++ [now]).dropWhile fun front => saturate b.interval ≤ now - front
  window.drop (window.length - b.burst)

/-- Record a failure : the delay to wait, or `none` when the breaker tripped. -/
def onFailure (b : BackoffState) (now : ℕ) : BackoffState × Option ℕ :=
  let b := b.countFailure now
  if saturate b.interval = 0 then
    let r := b.nextDelay
    (r.1, some r.2)
  else
    let b := { b with window := b.slide now }
    if b.burst ≤ b.window.length then (b, none)
    else
      let r := b.nextDelay
      (r.1, some r.2)

def failuresInWindow (b : BackoffState) : ℕ := b.window.length

/-- Forget the failures. -/
def reset (b : BackoffState) : BackoffState :=
  { b with consecutive := 0, window := [], becameActiveAt := none }

end BackoffState

end Rinit
