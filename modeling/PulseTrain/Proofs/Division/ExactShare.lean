import Mathlib.Tactic
import PulseTrain.Division

/-!
# Shares as exact integers

The share of an axis is its step count in fixed point, divided by the number of
divisions, truncated and raised by one unit.  Truncation and the extra unit
together put the sum of all shares above the requested steps, and by less than
two units for every division.  Everything else follows from this one equation:
the whole part of the running sum ends exactly at the requested steps, it never
turns around, and no division exceeds the segment capacity.

The words of the program carry these integers without overflow; see
`PulseTrain.Proofs.Division.Positions`.
-/

namespace PulseTrain

/-- The share of an axis as an integer without bounds. -/
def exactShare (steps : ℤ) (count : ℕ) : ℤ := (steps * 2 ^ 32).tdiv count + 1

/-- Whole steps of an axis after the first `k` of `count` divisions. -/
def exactPosition (steps : ℤ) (count k : ℕ) : ℤ :=
  k * exactShare steps count / 2 ^ 32

section Share

variable {steps : ℤ} {count : ℕ}

theorem count_mul_exactShare (steps : ℤ) (hcount : 0 < count) :
    ∃ excess : ℤ,
      count * exactShare steps count = steps * 2 ^ 32 + excess ∧
        0 < excess ∧ excess < 2 * count := by
  have hsplit := Int.mul_tdiv_add_tmod (steps * 2 ^ 32) count
  have hremainder :
      ((steps * 2 ^ 32).tmod count).natAbs < count := by
    rw [Int.natAbs_tmod, Int.natAbs_natCast]
    exact Nat.mod_lt _ hcount
  refine ⟨count - (steps * 2 ^ 32).tmod count, ?_, ?_, ?_⟩
  · unfold exactShare
    linarith
  · omega
  · omega

theorem exactShare_pos (hcount : 0 < count) (hsteps : 0 ≤ steps) :
    0 < exactShare steps count := by
  obtain ⟨excess, hsum, hexcess, -⟩ := count_mul_exactShare steps hcount
  have hproduct : 0 < (count : ℤ) * exactShare steps count := by
    rw [hsum]
    positivity
  exact pos_of_mul_pos_right hproduct (by positivity)

theorem exactShare_nonpos (hcount : 0 < count) (hsmall : count ≤ 2 ^ 31)
    (hsteps : steps < 0) : exactShare steps count ≤ 0 := by
  obtain ⟨excess, hsum, -, hexcess⟩ := count_mul_exactShare steps hcount
  by_contra hpos
  have hproduct : (count : ℤ) * 1 ≤ count * exactShare steps count :=
    mul_le_mul_of_nonneg_left (by omega) (by positivity)
  omega

/-- An axis that makes fewer than `bound` steps per division on average has
its share within `bound` whole steps. -/
theorem exactShare_le (hcount : 0 < count) (hsmall : count ≤ 2 ^ 31) {bound : ℤ}
    (hsteps : steps < bound * count) : exactShare steps count ≤ bound * 2 ^ 32 := by
  obtain ⟨excess, hsum, -, hexcess⟩ := count_mul_exactShare steps hcount
  by_contra hlarge
  have hproduct : (count : ℤ) * (bound * 2 ^ 32) ≤ count * exactShare steps count :=
    mul_le_mul_of_nonneg_left (by omega) (by positivity)
  have hswap : (count : ℤ) * (bound * 2 ^ 32) = bound * count * 2 ^ 32 := by ring
  omega

theorem le_exactShare (hcount : 0 < count) {bound : ℤ}
    (hsteps : bound * count ≤ steps) : bound * 2 ^ 32 ≤ exactShare steps count := by
  obtain ⟨excess, hsum, hexcess, -⟩ := count_mul_exactShare steps hcount
  by_contra hsmall
  have hproduct : (count : ℤ) * exactShare steps count ≤ count * (bound * 2 ^ 32) :=
    mul_le_mul_of_nonneg_left (by omega) (by positivity)
  have hswap : (count : ℤ) * (bound * 2 ^ 32) = bound * count * 2 ^ 32 := by ring
  omega

theorem mul_exactShare_le_of_nonneg (hcount : 0 < count) (hsteps : 0 ≤ steps) {k : ℕ}
    (hk : k ≤ count) :
    0 ≤ k * exactShare steps count ∧
      k * exactShare steps count ≤ count * exactShare steps count := by
  have hshare := exactShare_pos hcount hsteps
  constructor
  · positivity
  · exact mul_le_mul_of_nonneg_right (by exact_mod_cast hk) hshare.le

theorem le_mul_exactShare_of_neg (hcount : 0 < count) (hsmall : count ≤ 2 ^ 31)
    (hsteps : steps < 0) {k : ℕ} (hk : k ≤ count) :
    count * exactShare steps count ≤ k * exactShare steps count ∧
      k * exactShare steps count ≤ 0 := by
  have hshare := exactShare_nonpos hcount hsmall hsteps
  constructor
  · exact mul_le_mul_of_nonpos_right (by exact_mod_cast hk) hshare
  · exact mul_nonpos_of_nonneg_of_nonpos (by positivity) hshare

/-- No running sum leaves the range of 64 signed bits. -/
theorem mul_exactShare_bounds (hcount : 0 < count) (hsmall : count ≤ 2 ^ 31)
    (hlow : -2 ^ 31 ≤ steps) (hhigh : steps < 2 ^ 31) {k : ℕ} (hk : k ≤ count) :
    -2 ^ 63 ≤ k * exactShare steps count ∧ k * exactShare steps count < 2 ^ 63 := by
  obtain ⟨excess, hsum, hexcess, hbound⟩ := count_mul_exactShare steps hcount
  rcases le_or_gt 0 steps with hsteps | hsteps
  · obtain ⟨hfirst, hlast⟩ := mul_exactShare_le_of_nonneg hcount hsteps hk
    omega
  · obtain ⟨hfirst, hlast⟩ := le_mul_exactShare_of_neg hcount hsmall hsteps hk
    omega

end Share

section Position

variable {steps : ℤ} {count : ℕ}

@[simp] theorem exactPosition_zero (steps : ℤ) (count : ℕ) :
    exactPosition steps count 0 = 0 := by
  simp [exactPosition]

/-- Nothing is lost and nothing is added over all divisions. -/
theorem exactPosition_count (steps : ℤ) (hcount : 0 < count) (hsmall : count ≤ 2 ^ 31) :
    exactPosition steps count count = steps := by
  obtain ⟨excess, hsum, hexcess, hbound⟩ := count_mul_exactShare steps hcount
  unfold exactPosition
  omega

theorem exactPosition_single (steps : ℤ) :
    exactPosition steps 1 1 - exactPosition steps 1 0 = steps := by
  rw [exactPosition_count steps (by omega) (by omega), exactPosition_zero, sub_zero]

theorem exactPosition_mem_of_nonneg (hcount : 0 < count) (hsmall : count ≤ 2 ^ 31)
    (hsteps : 0 ≤ steps) {k : ℕ} (hk : k ≤ count) :
    0 ≤ exactPosition steps count k ∧ exactPosition steps count k ≤ steps := by
  have hlast := exactPosition_count steps hcount hsmall
  obtain ⟨hstart, hgoal⟩ := mul_exactShare_le_of_nonneg hcount hsteps hk
  unfold exactPosition at hlast ⊢
  omega

theorem exactPosition_mem_of_neg (hcount : 0 < count) (hsmall : count ≤ 2 ^ 31)
    (hsteps : steps < 0) {k : ℕ} (hk : k ≤ count) :
    steps ≤ exactPosition steps count k ∧ exactPosition steps count k ≤ 0 := by
  have hlast := exactPosition_count steps hcount hsmall
  obtain ⟨hgoal, hstart⟩ := le_mul_exactShare_of_neg hcount hsmall hsteps hk
  unfold exactPosition at hlast ⊢
  omega

theorem succ_mul_exactShare (steps : ℤ) (count k : ℕ) :
    ((k + 1 : ℕ) : ℤ) * exactShare steps count =
      k * exactShare steps count + exactShare steps count := by
  push_cast
  ring

theorem exactPosition_succ_sub_le {bound : ℤ} (k : ℕ)
    (hshare : exactShare steps count ≤ bound * 2 ^ 32) :
    exactPosition steps count (k + 1) - exactPosition steps count k ≤ bound := by
  unfold exactPosition
  rw [succ_mul_exactShare]
  omega

theorem le_exactPosition_succ_sub {bound : ℤ} (k : ℕ)
    (hshare : bound * 2 ^ 32 ≤ exactShare steps count) :
    bound ≤ exactPosition steps count (k + 1) - exactPosition steps count k := by
  unfold exactPosition
  rw [succ_mul_exactShare]
  omega

theorem exactPosition_le_succ (hcount : 0 < count) (hsteps : 0 ≤ steps) (k : ℕ) :
    exactPosition steps count k ≤ exactPosition steps count (k + 1) := by
  have hshare : 0 * 2 ^ 32 ≤ exactShare steps count := by
    have := exactShare_pos hcount hsteps
    omega
  have hmove := le_exactPosition_succ_sub k hshare
  omega

theorem exactPosition_succ_le (hcount : 0 < count) (hsmall : count ≤ 2 ^ 31)
    (hsteps : steps < 0) (k : ℕ) :
    exactPosition steps count (k + 1) ≤ exactPosition steps count k := by
  have hshare : exactShare steps count ≤ 0 * 2 ^ 32 := by
    have := exactShare_nonpos hcount hsmall hsteps
    omega
  have hmove := exactPosition_succ_sub_le k hshare
  omega

end Position

/-- Differences of successive positions add up to the way from the first
position to the last. -/
theorem sum_map_eq_sub {α : Type} (value : α → ℤ) (position : ℕ → ℤ) {l : List α} {k : ℕ}
    (hvalue : ∀ j x, l[j]? = some x → value x = position (k + j + 1) - position (k + j)) :
    (l.map value).sum = position (k + l.length) - position k := by
  induction l generalizing k with
  | nil => simp
  | cons first later ih =>
      have hfirst : value first = position (k + 1) - position k := hvalue 0 first rfl
      have hlater := ih (k := k + 1) fun j x hget => by
        have hshift := hvalue (j + 1) x (by simpa using hget)
        rwa [show k + (j + 1) = k + 1 + j by omega] at hshift
      rw [List.map_cons, List.sum_cons, hfirst, hlater, List.length_cons,
        show k + (later.length + 1) = k + 1 + later.length by omega]
      omega

end PulseTrain
