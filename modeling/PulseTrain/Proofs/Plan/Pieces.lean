import Mathlib.Tactic
import PulseTrain.Plan
import PulseTrain.Proofs.Division.Positions

/-!
# The pieces of a movement

A plan is drawn upon lazily, but what it will give is settled when it is made:
a movement that fits is one piece, and a longer one is the list of its
divisions.  As long as every piece moves, no draw skips anything, so the
segments of a plan are its pieces, synthesized one by one, and further draws
give nothing.

The pieces of a movement always move and always fit into a segment.  Both come
from the number of divisions, which exceeds the defining steps divided by the
capacity of a segment, but by at most one.
-/

namespace PulseTrain

/-! ## Drawing upon a plan -/

def Pending.pieces : Pending → List Division
  | single none => []
  | single (some whole) => [whole]
  | split rest => rest.toList

/-- The plan after `count` more draws; one that has run out stays as it is. -/
def Plan.afterDraws : ℕ → Plan → Plan
  | 0, p => p
  | count + 1, p =>
      match p.next?.value with
      | none => p
      | some (_, rest) => rest.afterDraws count

def Plan.draw? (p : Plan) (index : ℕ) : Option Segment :=
  (p.afterDraws index).next?.value.map Prod.fst

theorem Pending.next?_of_pieces_eq_nil {pending : Pending} (hpieces : pending.pieces = []) :
    pending.next? = pure none := by
  cases pending with
  | single whole =>
      cases whole with
      | none =>
          unfold next?
          rfl
      | some whole => simp [pieces] at hpieces
  | split divisions =>
      cases hnext : divisions.next? with
      | none =>
          unfold next?
          split
          next => rfl
          next hsome => simp [hnext] at hsome
      | some drawn =>
          obtain ⟨division, rest⟩ := drawn
          simp [pieces, Divisions.toList_of_next?_eq_some hnext] at hpieces

theorem Pending.next?_of_pieces_eq_cons {pending : Pending} {piece : Division}
    {later : List Division} (hpieces : pending.pieces = piece :: later)
    (hmoves : piece.definingSteps ≠ 0) :
    ∃ rest : Pending, rest.pieces = later ∧ pending.next? = pure (some (piece, rest)) := by
  cases pending with
  | single whole =>
      cases whole with
      | none => simp [pieces] at hpieces
      | some whole =>
          simp only [pieces, List.cons.injEq] at hpieces
          obtain ⟨rfl, rfl⟩ := hpieces
          refine ⟨single none, rfl, ?_⟩
          unfold next?
          rfl
  | split divisions =>
      cases hnext : divisions.next? with
      | none => simp [pieces, Divisions.toList_of_next?_eq_none hnext] at hpieces
      | some drawn =>
          obtain ⟨division, rest⟩ := drawn
          simp only [pieces, Divisions.toList_of_next?_eq_some hnext, List.cons.injEq] at hpieces
          obtain ⟨rfl, hlater⟩ := hpieces
          refine ⟨split rest, hlater, ?_⟩
          unfold next?
          split
          next hnone => simp [hnext] at hnone
          next division' rest' hsome =>
            rw [hnext, Option.some.injEq, Prod.mk.injEq] at hsome
            obtain ⟨rfl, rfl⟩ := hsome
            rw [if_neg hmoves]

namespace Plan

theorem next?_of_pieces_eq_nil {p : Plan} (hpieces : p.pending.pieces = []) :
    p.next? = pure none := by
  unfold next?
  rw [Pending.next?_of_pieces_eq_nil hpieces]
  rfl

theorem next?_of_pieces_eq_cons {p : Plan} {piece : Division} {later : List Division}
    (hpieces : p.pending.pieces = piece :: later) (hmoves : piece.definingSteps ≠ 0) :
    ∃ rest : Plan, rest.timing = p.timing ∧ rest.pending.pieces = later ∧
      p.next?.value =
        some ((p.timing.synthesize piece.movement piece.definingSteps).value, rest) ∧
      p.next?.events = (p.timing.synthesize piece.movement piece.definingSteps).events := by
  obtain ⟨pending, hlater, hnext⟩ := Pending.next?_of_pieces_eq_cons hpieces hmoves
  refine ⟨{ p with pending }, rfl, hlater, ?_, ?_⟩
  · unfold next?
    rw [hnext]
    rfl
  · unfold next?
    rw [hnext]
    simp

/-- If every piece moves, the segments are the synthesized pieces. -/
theorem segments_eq_map {p : Plan}
    (hmoves : ∀ piece ∈ p.pending.pieces, piece.definingSteps ≠ 0) :
    p.segments = p.pending.pieces.map fun piece =>
      p.timing.synthesize piece.movement piece.definingSteps := by
  induction hpieces : p.pending.pieces generalizing p with
  | nil =>
      rw [List.map_nil]
      apply segments_of_next?_eq_none
      rw [next?_of_pieces_eq_nil hpieces]
      rfl
  | cons piece later ih =>
      rw [hpieces] at hmoves
      obtain ⟨rest, htiming, hlater, hvalue, hevents⟩ :=
        next?_of_pieces_eq_cons hpieces (hmoves piece List.mem_cons_self)
      have hrest := ih (p := rest)
        (fun other hother => hmoves other (by
          rw [hlater] at hother
          exact List.mem_cons_of_mem piece hother)) hlater
      rw [segments_of_next?_eq_some hvalue, hrest, hevents, htiming, List.map_cons]

theorem draw?_eq_getElem? (p : Plan) (index : ℕ) :
    p.draw? index = (p.segments.map Logged.value)[index]? := by
  induction index generalizing p with
  | zero =>
      cases hnext : p.next?.value with
      | none => simp [draw?, afterDraws, hnext, segments_of_next?_eq_none hnext]
      | some drawn =>
          obtain ⟨segment, rest⟩ := drawn
          simp [draw?, afterDraws, hnext, segments_of_next?_eq_some hnext]
  | succ index ih =>
      cases hnext : p.next?.value with
      | none => simp [draw?, afterDraws, hnext, segments_of_next?_eq_none hnext]
      | some drawn =>
          obtain ⟨segment, rest⟩ := drawn
          have hrest := ih rest
          simp only [draw?] at hrest
          simp [draw?, afterDraws, hnext, segments_of_next?_eq_some hnext, hrest]

end Plan

/-! ## The pieces of a movement -/

namespace Movement

def pieces (m : Movement) : List Division :=
  if m.definingSteps ≤ stepsPerSegment then [⟨m, m.definingSteps⟩]
  else (Divisions.ofMovement m m.definingSteps).toList

theorem length_pieces (m : Movement) :
    m.pieces.length =
      if m.definingSteps.toNat ≤ 32767 then 1 else m.definingSteps.toNat / 32767 + 1 := by
  have hcapacity : m.definingSteps ≤ stepsPerSegment ↔ m.definingSteps.toNat ≤ 32767 :=
    UInt32.le_iff_toNat_le
  unfold pieces
  by_cases hfits : m.definingSteps.toNat ≤ 32767
  · rw [if_pos hfits, if_pos (hcapacity.mpr hfits), List.length_singleton]
  · rw [if_neg hfits, if_neg (mt hcapacity.mp hfits), Divisions.length_toList_ofMovement,
      toNat_divisionCount]

theorem length_pieces_pos (m : Movement) : 0 < m.pieces.length := by
  rw [length_pieces]
  split <;> omega

theorem length_pieces_le (m : Movement) : m.pieces.length ≤ 2 ^ 31 := by
  have hbound := m.definingSteps.toNat_lt
  rw [length_pieces]
  split <;> omega

theorem covers_pieces {m : Movement} {k : ℕ} {piece : Division}
    (hget : m.pieces[k]? = some piece) : piece.Covers m m.pieces.length k := by
  unfold pieces at hget ⊢
  by_cases hfits : m.definingSteps ≤ stepsPerSegment
  · rw [if_pos hfits] at hget ⊢
    obtain ⟨rfl, rfl⟩ : k = 0 ∧ piece = ⟨m, m.definingSteps⟩ := by
      cases k with
      | zero => simpa [eq_comm] using hget
      | succ k => simp at hget
    refine ⟨?_, rfl, rfl⟩
    intro axis
    rw [List.length_singleton, exactPosition_single]
  · rw [if_neg hfits] at hget ⊢
    rw [Divisions.length_toList_ofMovement]
    exact Divisions.covers_ofMovement hget

end Movement

end PulseTrain
