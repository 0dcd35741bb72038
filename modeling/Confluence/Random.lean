/-!
# Seeded choices

A linear congruential generator on 64 bits. One seed gives the same choices on every machine; the
low bits of the state, whose cycles are short, are not handed out.
-/

namespace Confluence

/-- The state of a generator. -/
structure Random where
  state : UInt64
deriving DecidableEq, Inhabited

namespace Random

/-- What a seed is combined with, so that small seeds start far apart. -/
def offset : UInt64 := 0x9e3779b97f4a7c15

def multiplier : UInt64 := 6364136223846793005

def increment : UInt64 := 1442695040888963407

def ofSeed (seed : UInt64) : Random := ⟨seed ^^^ offset⟩

/-- The generator of one of several streams that share a seed. -/
def fork (seed stream : UInt64) : Random := ofSeed (seed * 0x100000001b3 + stream)

def step (r : Random) : Random := ⟨r.state * multiplier + increment⟩

/-- The upper 48 bits of the next state. -/
def next (r : Random) : UInt64 × Random := (r.step.state >>> 16, r.step)

/-- A value below a bound. Nothing is drawn for the bound zero, whose only value is zero. -/
def below (r : Random) (bound : UInt64) : UInt64 × Random :=
  if bound = 0 then (0, r) else (r.next.1 % bound, r.next.2)

/-- Whether an event of a chance in per cent happens. Nothing is drawn where the answer is
settled. -/
def hits (r : Random) (percent : Nat) : Bool × Random :=
  if percent = 0 then (false, r)
  else if 100 ≤ percent then (true, r)
  else ((r.below 100).1.toNat < percent, (r.below 100).2)

end Random

end Confluence
