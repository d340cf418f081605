import PulseTrain.Proofs.Plan.Capacity

/-!
# The course of the divisions

After each division every axis stands at its exact position, whatever the number of
divisions is.  These positions never turn around and never leave the way from the
start to the goal, and they lie almost evenly on it: a share has one whole part, so
an axis makes that many steps in a division or one more.

How many divisions there are is settled at the start.  With a division more than the
capacity of a segment goes into the defining steps, every division fits, and it moves
because the defining axis makes a step in each.
-/

namespace PulseTrain

section Position

variable {steps : ℤ} {count k : ℕ}

theorem exactPosition_mem_uIcc (hcount : 0 < count) (hsmall : count ≤ 2 ^ 31) (hk : k ≤ count) :
    exactPosition steps count k ∈ Set.uIcc 0 steps := by
  rw [Set.mem_uIcc]
  rcases le_or_gt 0 steps with hsteps | hsteps
  · exact .inl (exactPosition_mem_of_nonneg hcount hsmall hsteps hk)
  · exact .inr (exactPosition_mem_of_neg hcount hsmall hsteps hk)

/-- An axis makes the whole part of its share in a division, or one step more. -/
theorem exactPosition_succ_sub_mem_Icc (steps : ℤ) (count k : ℕ) :
    exactPosition steps count (k + 1) - exactPosition steps count k ∈
      Set.Icc (exactShare steps count / 2 ^ 32) (exactShare steps count / 2 ^ 32 + 1) := by
  constructor
  · exact le_exactPosition_succ_sub k (by omega)
  · exact exactPosition_succ_sub_le k (by omega)

end Position

namespace Division.Covers

variable {m : Movement} {count k : ℕ} {division : Division}

theorem eq_zero_or_sign_eq (hcovers : division.Covers m count k) (hsmall : count ≤ 2 ^ 31)
    (hk : k < count) (axis : Axis) :
    (division.movement.steps.get axis).toInt = 0 ∨
      (division.movement.steps.get axis).toInt.sign = (m.steps.get axis).toInt.sign := by
  have hcount : 0 < count := by omega
  rcases lt_trichotomy (m.steps.get axis).toInt 0 with hneg | hzero | hpos
  · have hbackward := hcovers.nonpos hcount hsmall hneg
    rcases hbackward.eq_or_lt with hrests | hmoves
    · exact .inl hrests
    · exact .inr (by rw [Int.sign_eq_neg_one_of_neg hmoves, Int.sign_eq_neg_one_of_neg hneg])
  · -- Both positions are those of an axis at rest.
    have hbefore := exactPosition_mem_of_nonneg hcount hsmall hzero.ge hk.le
    have hafter := exactPosition_mem_of_nonneg hcount hsmall hzero.ge (k := k + 1) hk
    have hsteps := hcovers.steps axis
    exact .inl (by omega)
  · have hforward := hcovers.nonneg hcount hpos.le
    rcases hforward.eq_or_lt with hrests | hmoves
    · exact .inl hrests.symm
    · exact .inr (by rw [Int.sign_eq_one_of_pos hmoves, Int.sign_eq_one_of_pos hpos])

end Division.Covers

namespace Divisions

/-! ## Drawing the divisions -/

/-- What is left after `count` more draws; once all are drawn nothing changes. -/
def afterDraws : ℕ → Divisions → Divisions
  | 0, d => d
  | count + 1, d =>
      match d.next? with
      | none => d
      | some (_, rest) => rest.afterDraws count

theorem toList_afterDraws (count : ℕ) (d : Divisions) :
    (d.afterDraws count).toList = d.toList.drop count := by
  induction count generalizing d with
  | zero => rfl
  | succ count ih =>
      cases hnext : d.next? with
      | none => simp [afterDraws, hnext, toList_of_next?_eq_none hnext]
      | some drawn =>
          obtain ⟨division, rest⟩ := drawn
          simp [afterDraws, hnext, toList_of_next?_eq_some hnext, ih rest]

theorem afterDraws_succ {count : ℕ} {d rest : Divisions} {division : Division}
    (hnext : (d.afterDraws count).next? = some (division, rest)) :
    d.afterDraws (count + 1) = rest := by
  induction count generalizing d with
  | zero =>
      have hfirst : d.next? = some (division, rest) := hnext
      simp [afterDraws, hfirst]
  | succ count ih =>
      cases hfirst : d.next? with
      | none =>
          simp only [afterDraws, hfirst] at hnext
          cases hnext
      | some drawn =>
          obtain ⟨first, later⟩ := drawn
          have hlater := ih (d := later) (by simpa [afterDraws, hfirst] using hnext)
          rw [← hlater, afterDraws, hfirst]

theorem map_fst_next? (d : Divisions) : d.next?.map Prod.fst = d.toList.head? := by
  cases hnext : d.next? with
  | none =>
      rw [toList_of_next?_eq_none hnext]
      rfl
  | some drawn =>
      rw [toList_of_next?_eq_some hnext]
      rfl

/-! ## The way of an axis -/

section

variable {m : Movement} {definingSteps : UInt32}

theorem sum_take_steps {k : ℕ} (hk : k ≤ (divisionCount definingSteps).toNat) (axis : Axis) :
    (((ofMovement m definingSteps).toList.take k).map fun division =>
        (division.movement.steps.get axis).toInt).sum =
      exactPosition (m.steps.get axis).toInt (divisionCount definingSteps).toNat k := by
  have hsum := sum_map_eq_sub (k := 0) (l := (ofMovement m definingSteps).toList.take k)
    (fun division => (division.movement.steps.get axis).toInt)
    (exactPosition (m.steps.get axis).toInt (divisionCount definingSteps).toNat)
    (by
      intro j division hget
      rw [List.getElem?_take] at hget
      split at hget
      next =>
        rw [Nat.zero_add]
        exact (covers_ofMovement hget).steps axis
      next => cases hget)
  rw [hsum, List.length_take, length_toList_ofMovement, min_eq_left hk, Nat.zero_add,
    exactPosition_zero, sub_zero]

/-- The divisions make all steps of every axis, none of them in the wrong direction, and
on the way no axis passes its goal or falls behind its start. -/
theorem steps_conserved (m : Movement) (definingSteps : UInt32) (axis : Axis) :
    ((ofMovement m definingSteps).toList.map fun division =>
        (division.movement.steps.get axis).toInt).sum = (m.steps.get axis).toInt ∧
      (∀ division ∈ (ofMovement m definingSteps).toList,
        (division.movement.steps.get axis).toInt = 0 ∨
          (division.movement.steps.get axis).toInt.sign = (m.steps.get axis).toInt.sign) ∧
      ∀ k, (((ofMovement m definingSteps).toList.take k).map fun division =>
        (division.movement.steps.get axis).toInt).sum ∈ Set.uIcc 0 (m.steps.get axis).toInt := by
  have hcount := divisionCount_pos definingSteps
  have hsmall := divisionCount_le definingSteps
  have hlength := length_toList_ofMovement m definingSteps
  have htotal : ((ofMovement m definingSteps).toList.map fun division =>
      (division.movement.steps.get axis).toInt).sum = (m.steps.get axis).toInt := by
    have hall := sum_take_steps (m := m) (k := (divisionCount definingSteps).toNat) le_rfl axis
    rwa [List.take_of_length_le hlength.le, exactPosition_count _ hcount hsmall] at hall
  refine ⟨htotal, fun division hmem => ?_, fun k => ?_⟩
  · obtain ⟨k, hk, hcovers⟩ := exists_covers_of_mem hmem
    exact hcovers.eq_zero_or_sign_eq hsmall hk axis
  · rcases le_total k (divisionCount definingSteps).toNat with hk | hk
    · rw [sum_take_steps hk]
      exact exactPosition_mem_uIcc hcount hsmall hk
    · rw [List.take_of_length_le (hlength.trans_le hk), htotal]
      exact Set.right_mem_uIcc

end

/-! ## Balance -/

/-- The number of divisions is the one that was announced, and before each draw what is
announced is the number still to come.  Every division moves and fits into a segment, and
an axis makes the same number of steps in all of them, give or take one. -/
theorem balanced {m : Movement} {n : UInt32}
    (hn : IsGreatest (Set.range fun axis : Axis => (m.steps.get axis).toInt.natAbs) n.toNat)
    (hmoves : 1 ≤ n.toNat) :
    (ofMovement m n).toList.length = (divisionCount n).toNat ∧
      (∀ drawn, ((ofMovement m n).afterDraws drawn).next?.map Prod.fst =
          (ofMovement m n).toList[drawn]? ∧
        ((ofMovement m n).afterDraws drawn).remaining.toNat =
          ((ofMovement m n).toList.drop drawn).length) ∧
      (∀ division ∈ (ofMovement m n).toList,
        1 ≤ division.definingSteps.toNat ∧ division.definingSteps.toNat ≤ 32767 ∧
          IsGreatest (Set.range fun axis : Axis =>
            (division.movement.steps.get axis).toInt.natAbs) division.definingSteps.toNat) ∧
      ∀ axis : Axis, ∀ first ∈ (ofMovement m n).toList, ∀ second ∈ (ofMovement m n).toList,
        |(first.movement.steps.get axis).toInt - (second.movement.steps.get axis).toInt| ≤ 1 := by
  obtain rfl : n = m.definingSteps :=
    UInt32.toNat_inj.mp (hn.unique m.isGreatest_definingSteps)
  have hsome : m.definingSteps ≠ 0 := by
    intro hzero
    rw [hzero] at hmoves
    exact absurd hmoves (by decide)
  refine ⟨length_toList_ofMovement m _, fun drawn => ⟨?_, ?_⟩, fun division hmem => ?_,
    fun axis first hfirst second hsecond => ?_⟩
  · rw [map_fst_next?, toList_afterDraws, List.head?_drop]
  · rw [← length_toList, toList_afterDraws]
  · obtain ⟨k, -, hcovers⟩ := exists_covers_of_mem hmem
    have hown : division.definingSteps = division.movement.definingSteps :=
      hcovers.definingSteps
    refine ⟨definingSteps_pos_of_mem hsome hmem, definingSteps_le_of_mem hmem, ?_⟩
    rw [hown]
    exact division.movement.isGreatest_definingSteps
  · obtain ⟨j, -, hcovers₁⟩ := exists_covers_of_mem hfirst
    obtain ⟨k, -, hcovers₂⟩ := exists_covers_of_mem hsecond
    obtain ⟨hleast₁, hmost₁⟩ := exactPosition_succ_sub_mem_Icc
      (m.steps.get axis).toInt (divisionCount m.definingSteps).toNat j
    obtain ⟨hleast₂, hmost₂⟩ := exactPosition_succ_sub_mem_Icc
      (m.steps.get axis).toInt (divisionCount m.definingSteps).toNat k
    rw [hcovers₁.steps, hcovers₂.steps, abs_le]
    omega

/-- Two divisions of 65533 steps leave room for a single step. -/
theorem balanced_of_full_divisions :
    IsGreatest (Set.range fun axis : Axis =>
        ((Movement.ofSteps [65533, -65533, 1] 0 0 0).steps.get axis).toInt.natAbs)
        (65533 : UInt32).toNat ∧
      1 ≤ (65533 : UInt32).toNat ∧
      (ofMovement (.ofSteps [65533, -65533, 1] 0 0 0) 65533).toList.length = 2 ∧
      ∀ division ∈ (ofMovement (.ofSteps [65533, -65533, 1] 0 0 0) 65533).toList,
        1 ≤ division.definingSteps.toNat ∧ division.definingSteps.toNat ≤ 32767 := by
  have hgreatest : IsGreatest (Set.range fun axis : Axis =>
      ((Movement.ofSteps [65533, -65533, 1] 0 0 0).steps.get axis).toInt.natAbs)
      (65533 : UInt32).toNat := Movement.isGreatest_definingSteps _
  have hmoves : 1 ≤ (65533 : UInt32).toNat := by decide
  obtain ⟨hlength, -, hfits, -⟩ := balanced hgreatest hmoves
  exact ⟨hgreatest, hmoves, hlength, fun division hmem =>
    ⟨(hfits division hmem).1, (hfits division hmem).2.1⟩⟩

end Divisions

end PulseTrain
