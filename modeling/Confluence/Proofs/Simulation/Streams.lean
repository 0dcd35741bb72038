import Confluence.Proofs.Simulation.Ids
import Mathlib.Algebra.Ring.GeomSum
import Mathlib.Data.Nat.ModEq
import Mathlib.Data.Nat.Prime.Basic
import Mathlib.Tactic.Ring

/-!
# Streams of choices

The states of a generator follow one another by `x ↦ (d + 1) x + c` modulo a power of two. In `n`
steps a state moves by `d x + c` times the sum of the first `n` powers of `d + 1`. If four divides
`d` and `c` is odd, the first factor is odd and the sum is divisible by just those powers of two
that divide `n`. So no state comes back before `2 ^ 64` steps, by which time all have had their
turn.
-/

namespace Confluence

/-! ## Sums of powers -/

section

variable {a : ℕ}

theorem one_add_pow_eq_two_mul_odd (ha : a % 4 = 1) (n : ℕ) : ∃ q, Odd q ∧ 1 + a ^ n = 2 * q := by
  have hpow : a ^ n % 4 = 1 := by rw [Nat.pow_mod, ha, one_pow, Nat.one_mod]
  refine ⟨(1 + a ^ n) / 2, ?_, ?_⟩
  · rw [Nat.odd_iff]
    omega
  · omega

theorem geom_sum_add_self (a n : ℕ) :
    ∑ i ∈ Finset.range (n + n), a ^ i = (∑ i ∈ Finset.range n, a ^ i) * (1 + a ^ n) := by
  simp only [Finset.sum_range_add, pow_add, ← Finset.mul_sum]
  ring

theorem odd_geom_sum_iff (ha : Odd a) (n : ℕ) : Odd (∑ i ∈ Finset.range n, a ^ i) ↔ Odd n := by
  induction n with
  | zero => simp
  | succ n ih =>
      have hpow : ¬Even (a ^ n) := Nat.not_even_iff_odd.2 ha.pow
      rw [Finset.sum_range_succ, Nat.odd_add, Nat.odd_add_one, ← ih, iff_false_right hpow]

/-- A sum of powers is as often divisible by two as the number of its terms: to double this number
doubles the sum up to an odd factor. -/
theorem two_pow_dvd_geom_sum_iff (ha : a % 4 = 1) (k n : ℕ) :
    2 ^ k ∣ ∑ i ∈ Finset.range n, a ^ i ↔ 2 ^ k ∣ n := by
  induction k generalizing n with
  | zero => simp
  | succ k ih =>
      have hodd : Odd a := Nat.odd_iff.2 (by omega)
      rcases Nat.even_or_odd n with ⟨m, rfl⟩ | hn
      · obtain ⟨q, hq, heq⟩ := one_add_pow_eq_two_mul_odd ha m
        have hcoprime : Nat.Coprime (2 ^ k) q := (Nat.coprime_two_left.2 hq).pow_left k
        rw [geom_sum_add_self, heq, ← mul_assoc, mul_right_comm, ← two_mul, pow_succ, mul_comm 2 m,
          Nat.mul_dvd_mul_iff_right two_pos, Nat.mul_dvd_mul_iff_right two_pos,
          hcoprime.dvd_mul_right, ih]
      · have htwo {x : ℕ} (hx : Odd x) : ¬2 ^ (k + 1) ∣ x := fun h =>
          hx.not_two_dvd_nat ((dvd_pow_self 2 (Nat.succ_ne_zero k)).trans h)
        exact iff_of_false (htwo ((odd_geom_sum_iff hodd n).2 hn)) (htwo hn)

end

/-! ## Sequences with a linear rule -/

section

variable {x : ℕ → ℕ} {c d k : ℕ}

theorem modEq_add_geom_sum {m : ℕ} (hx : ∀ n, x (n + 1) ≡ (d + 1) * x n + c [MOD m]) (n : ℕ) :
    x n ≡ x 0 + (∑ i ∈ Finset.range n, (d + 1) ^ i) * (d * x 0 + c) [MOD m] := by
  induction n with
  | zero => simp [Nat.ModEq.refl]
  | succ n ih =>
      refine (hx n).trans (((ih.mul_left (d + 1)).add_right c).trans ?_)
      rw [geom_sum_succ]
      ring_nf
      exact Nat.ModEq.refl _

/-- Where the rule is as it should be, the start comes back after `2 ^ k` steps and not before. -/
theorem modEq_start_iff (hd : 4 ∣ d) (hc : Odd c)
    (hx : ∀ n, x (n + 1) ≡ (d + 1) * x n + c [MOD 2 ^ k]) (n : ℕ) :
    x n ≡ x 0 [MOD 2 ^ k] ↔ 2 ^ k ∣ n := by
  have hrule : (d + 1) % 4 = 1 := by omega
  have hodd : Odd (d * x 0 + c) := by
    have heven : Even d := even_iff_two_dvd.2 (Nat.dvd_trans (by decide) hd)
    exact (heven.mul_right (x 0)).add_odd hc
  have hcoprime : Nat.Coprime (2 ^ k) (d * x 0 + c) := (Nat.coprime_two_left.2 hodd).pow_left k
  have hmoved := modEq_add_geom_sum hx n
  rw [← two_pow_dvd_geom_sum_iff hrule, ← hcoprime.dvd_mul_right, ← Nat.add_modEq_left_iff]
  exact ⟨hmoved.symm.trans, hmoved.trans⟩

end

namespace Random

open Function

/-! ## One stream -/

variable {r : Random}

theorem state_step_modEq (r : Random) : r.step.state.toNat ≡
    (multiplier.toNat - 1 + 1) * r.state.toNat + increment.toNat [MOD 2 ^ 64] := by
  rw [step, UInt64.toNat_add, UInt64.toNat_mul, mul_comm]
  exact (Nat.mod_modEq _ _).trans ((Nat.mod_modEq _ _).add_right _)

theorem eq_iff_modEq {r s : Random} : r = s ↔ r.state.toNat ≡ s.state.toNat [MOD 2 ^ 64] := by
  rw [Nat.ModEq, Nat.mod_eq_of_lt r.state.toNat_lt, Nat.mod_eq_of_lt s.state.toNat_lt,
    UInt64.toNat_inj]
  exact ⟨congrArg state, congrArg mk⟩

theorem iterate_step_eq_self_iff (r : Random) (n : ℕ) : step^[n] r = r ↔ 2 ^ 64 ∣ n := by
  have hrule (n : ℕ) : (step^[n + 1] r).state.toNat ≡
      (multiplier.toNat - 1 + 1) * (step^[n] r).state.toNat + increment.toNat [MOD 2 ^ 64] := by
    rw [iterate_succ_apply']
    exact state_step_modEq _
  rw [eq_iff_modEq]
  exact modEq_start_iff (x := fun n => (step^[n] r).state.toNat) (by decide) (by decide) hrule n

/-- Two states of a stream are the same if and only if they are whole rounds of `2 ^ 64` steps
apart. -/
theorem iterate_step_eq_iff (r : Random) (m n : ℕ) :
    step^[m] r = step^[n] r ↔ m ≡ n [MOD 2 ^ 64] := by
  wlog hle : m ≤ n generalizing m n
  · rw [eq_comm, this n m (Nat.le_of_not_le hle)]
    exact ⟨Nat.ModEq.symm, Nat.ModEq.symm⟩
  · obtain ⟨k, rfl⟩ := Nat.exists_eq_add_of_le hle
    rw [Nat.add_comm, iterate_add_apply, eq_comm, iterate_step_eq_self_iff, Nat.add_comm,
      Nat.modEq_iff_dvd' hle, Nat.add_sub_cancel_left]

/-- Each state comes up once in the first `2 ^ 64` steps: these lead to different states, and there
are no more of them. -/
theorem existsUnique_iterate_step (r : Random) (x : UInt64) :
    ∃! n, n < 2 ^ 64 ∧ (step^[n] r).state = x := by
  have hinjective {m n : ℕ} (hm : m < 2 ^ 64) (hn : n < 2 ^ 64)
      (heq : (step^[m] r).state = (step^[n] r).state) : m = n := by
    have hstep : step^[m] r = step^[n] r := congrArg Random.mk heq
    exact ((iterate_step_eq_iff r m n).1 hstep).eq_of_lt_of_lt hm hn
  have hsurjective : Surjective fun n : Fin UInt64.size => (step^[n] r).state.toFin := by
    refine Finite.injective_iff_surjective.1 fun m n heq => Fin.ext ?_
    exact hinjective m.isLt n.isLt (UInt64.toFin_inj.1 heq)
  obtain ⟨n, hn⟩ := hsurjective x.toFin
  refine ⟨n, ⟨n.isLt, UInt64.toFin_inj.1 hn⟩, fun m hm => ?_⟩
  exact hinjective hm.1 n.isLt (hm.2.trans (UInt64.toFin_inj.1 hn).symm)

/-! ## Several streams -/

theorem ofSeed_injective : Injective ofSeed := fun a b h => by
  rw [ofSeed, ofSeed, mk.injEq] at h
  exact (UInt64.xor_left_inj offset).1 h

theorem mul_right_cancel_of_odd {a b c : UInt64} (hc : Odd c.toNat) (h : a * c = b * c) :
    a = b := by
  have hcoprime : Nat.Coprime (2 ^ 64) c.toNat := (Nat.coprime_two_left.2 hc).pow_left 64
  have hmod : a.toNat * c.toNat ≡ b.toNat * c.toNat [MOD 2 ^ 64] := by
    rw [Nat.ModEq, ← UInt64.toNat_mul, ← UInt64.toNat_mul, h]
  have hab : a.toNat ≡ b.toNat [MOD 2 ^ 64] := hmod.cancel_right_of_coprime hcoprime
  exact UInt64.toNat_inj.1 (hab.eq_of_lt_of_lt a.toNat_lt b.toNat_lt)

theorem fork_injective_seed (stream : UInt64) : Injective fun seed => fork seed stream := by
  intro a b h
  have hmul : a * 0x100000001b3 = b * 0x100000001b3 :=
    (UInt64.add_left_inj stream).1 (ofSeed_injective h)
  exact mul_right_cancel_of_odd (by decide) hmul

theorem fork_injective_stream (seed : UInt64) : Injective (fork seed) := by
  intro a b h
  exact (UInt64.add_right_inj (seed * 0x100000001b3)).1 (ofSeed_injective h)

/-- The two seeds differ in parity. -/
theorem fork_ne_ofSeed (seed : UInt64) {stream : UInt64} (hodd : Odd stream.toNat) :
    fork seed stream ≠ ofSeed seed := by
  intro h
  have heq := congrArg UInt64.toNat (ofSeed_injective h)
  have hfactor : (0x100000001b3 : UInt64).toNat = 0x100000001b3 := rfl
  rw [UInt64.toNat_add, UInt64.toNat_mul, hfactor] at heq
  have hstream := Nat.odd_iff.1 hodd
  omega

/-- Whatever the seed, a stream comes back to its first state after `2 ^ 64` draws, and by then has
been in every state once. Different seeds begin in different states, on the main stream as well as
on any other, and so do different streams of one seed. In particular a simulation draws its actions
and its faults from different states. -/
theorem full_period :
    (∀ (seed : UInt64) (m n : ℕ), (fun r => r.next.2)^[m] (ofSeed seed) =
        (fun r => r.next.2)^[n] (ofSeed seed) ↔ m ≡ n [MOD 2 ^ 64]) ∧
      (∀ seed state : UInt64,
        ∃! n, n < 2 ^ 64 ∧ ((fun r => r.next.2)^[n] (ofSeed seed)).state = state) ∧
      Injective ofSeed ∧
      (∀ stream, Injective fun seed => fork seed stream) ∧
      (∀ seed, Injective (fork seed)) ∧
      ∀ (s : SimulationSettings) (seed : UInt64), ∃ w, Simulation.start s seed = .ok w ∧
        w.random = ofSeed seed ∧ w.repository.random = fork seed 1 ∧
        w.repository.random.state ≠ w.random.state := by
  refine ⟨fun seed => iterate_step_eq_iff (ofSeed seed),
    fun seed => existsUnique_iterate_step (ofSeed seed), ofSeed_injective, fork_injective_seed,
    fork_injective_stream, fun s seed => ?_⟩
  refine ⟨_, Simulation.start_eq s seed, rfl, rfl, fun h => ?_⟩
  have hodd : Odd (1 : UInt64).toNat := by decide
  exact fork_ne_ofSeed seed hodd (congrArg Random.mk h)

end Random

end Confluence
