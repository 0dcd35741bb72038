/-!
# Retrying after failures

The delay before a retry grows by a factor with every failure in a row, up to a greatest delay.
-/

namespace Confluence

/-- How a node goes on after failures that may pass. Delays are in milliseconds. -/
structure RetryPolicy where
  initialDelay : Nat := 50
  multiplier : Float := 2.0
  maxDelay : Nat := 5000
  /-- The number of failures in a row that ends the retries; zero for no end. -/
  maxAttempts : Nat := 8

namespace RetryPolicy

/-- The nearest floating-point number. -/
def toFloat (n : Nat) : Float := (UInt64.ofNat n).toFloat

/-- A power by repeated squaring, `acc` times `m` to the `n`. The order of the multiplications
fixes the rounding. -/
def powerFrom (acc m : Float) (n : Nat) : Float :=
  let acc := if n % 2 = 1 then acc * m else acc
  if h : n / 2 = 0 then acc else powerFrom acc (m * m) (n / 2)
termination_by n
decreasing_by omega

def maxExponent : Nat := 2147483647

/-- The lesser of two numbers; one that is no number gives way to the other. -/
def lesser (a b : Float) : Float := if a.isNaN then b else if b < a then b else a

/-- The greater of two numbers; one that is no number gives way to the other. -/
def greater (a b : Float) : Float := if a.isNaN then b else if a < b then b else a

/-- The delay before the retry after a number of failures in a row. -/
def delayFor (p : RetryPolicy) (failures : Nat) : Nat :=
  let exponent := min (failures - 1) maxExponent
  let scaled := toFloat p.initialDelay * powerFrom 1.0 p.multiplier exponent
  (greater (lesser scaled (toFloat p.maxDelay)) 0.0).toUInt64.toNat

/-- Whether a number of failures in a row allows another try. -/
def allows (p : RetryPolicy) (failures : Nat) : Bool :=
  p.maxAttempts = 0 || failures < p.maxAttempts

def defect? (p : RetryPolicy) : Option String :=
  if !(p.multiplier.isFinite && p.multiplier ≥ 1.0) then
    some "retry.multiplier must be a finite number >= 1.0"
  else if p.maxDelay < p.initialDelay then
    some "retry.initial_delay_ms must not exceed retry.max_delay_ms"
  else none

end RetryPolicy

/-- How a node behaves while it waits for new heads. -/
structure NodeSettings where
  /-- The milliseconds between two looks at heads that have not changed. -/
  pollInterval : Nat := 100
  retry : RetryPolicy := {}

def NodeSettings.defect? (s : NodeSettings) : Option String :=
  if s.pollInterval = 0 then some "poll_interval_ms must be positive" else s.retry.defect?

end Confluence
