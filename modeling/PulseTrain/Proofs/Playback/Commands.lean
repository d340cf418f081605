import Mathlib.Data.List.DropRight
import PulseTrain.Proofs.Playback.Loops

/-!
# Commands to a playback

A playback is told to run one loop, to run what is left of its segment or to start over,
in any order and as often as one likes.  Of all that only the number of loops since the
last start stays visible.  The edges that the loops of a segment report are one list that
is fixed from the start; a playback stands at some place of it, one loop reports the next
entry, a run reports all that follow, and a reset goes back to the beginning.
-/

namespace PulseTrain

namespace Playback

/-! ## The loops that are left -/

/-- The state after an attempt to run a loop, which a complete playback leaves as it is. -/
def next (p : Playback) : Playback := (p.advance?.map Prod.snd).getD p

/-- The edges that the loops still to be run report, in order. -/
def edges (p : Playback) : List AxisMask :=
  match h : p.advance? with
  | none => []
  | some (rising, later) =>
    have := remaining_lt h
    rising :: later.edges
termination_by p.remaining

variable {p later : Playback} {rising : AxisMask}

theorem next_of_advance?_eq_none (h : p.advance? = none) : p.next = p := by
  simp [next, h]

theorem next_of_advance?_eq_some (h : p.advance? = some (rising, later)) : p.next = later := by
  simp [next, h]

theorem edges_of_advance?_eq_none (h : p.advance? = none) : p.edges = [] := by
  rw [edges]
  split <;> simp_all

theorem edges_of_advance?_eq_some (h : p.advance? = some (rising, later)) :
    p.edges = rising :: later.edges := by
  rw [edges]
  split <;> simp_all

theorem forward_eq_iterate (count : ℕ) (p : Playback) : p.forward count = next^[count] p := by
  induction count generalizing p with
  | zero => rfl
  | succ count ih =>
      rw [Function.iterate_succ_apply]
      cases hadvance : p.advance? with
      | none =>
          have hstays := next_of_advance?_eq_none hadvance
          rw [hstays, Function.iterate_fixed hstays]
          simp only [forward, hadvance]
      | some advanced =>
          rw [next_of_advance?_eq_some hadvance, ← ih]
          simp only [forward, hadvance]

theorem forward_succ (count : ℕ) (p : Playback) :
    p.forward (count + 1) = (p.forward count).next := by
  simp only [forward_eq_iterate, Function.iterate_succ_apply']

theorem forward_add (count more : ℕ) (p : Playback) :
    p.forward (count + more) = (p.forward count).forward more := by
  simp only [forward_eq_iterate, Nat.add_comm count more, Function.iterate_add_apply]

theorem head?_edges (p : Playback) : p.edges.head? = p.advance?.map Prod.fst := by
  cases hadvance : p.advance? with
  | none => rw [edges_of_advance?_eq_none hadvance]; rfl
  | some advanced => rw [edges_of_advance?_eq_some hadvance]; rfl

theorem edges_next (p : Playback) : p.next.edges = p.edges.tail := by
  cases hadvance : p.advance? with
  | none =>
      rw [next_of_advance?_eq_none hadvance, edges_of_advance?_eq_none hadvance, List.tail_nil]
  | some advanced =>
      rw [next_of_advance?_eq_some hadvance, edges_of_advance?_eq_some hadvance, List.tail_cons]

theorem edges_forward (count : ℕ) (p : Playback) :
    (p.forward count).edges = p.edges.drop count := by
  induction count with
  | zero => rfl
  | succ count ih => rw [forward_succ, edges_next, ih, List.tail_drop]

/-- A run counts the edges that are left and ends where as many attempts would. -/
theorem runFrom_eq (pulses : Axes ℕ) (p : Playback) (axis : Axis) :
    (p.runFrom pulses).1.get axis = pulses.get axis + p.edges.countP (·.contains axis) ∧
      (p.runFrom pulses).2 = p.forward p.edges.length := by
  match hadvance : p.advance? with
  | none =>
      rw [runFrom_of_advance?_eq_none _ hadvance, edges_of_advance?_eq_none hadvance]
      exact ⟨rfl, rfl⟩
  | some (rising, later) =>
      have := remaining_lt hadvance
      obtain ⟨hcounts, hend⟩ := runFrom_eq (countRising rising pulses) later axis
      rw [runFrom_of_advance?_eq_some _ hadvance, edges_of_advance?_eq_some hadvance]
      constructor
      · rw [hcounts, get_countRising, List.countP_cons]
        omega
      · rw [hend, List.length_cons]
        simp only [forward, hadvance]
termination_by p.remaining

theorem After.length_edges {s : Segment} {k : ℕ} {p : Playback} (hafter : After s k p)
    (hk : k ≤ s.loops.toNat) : p.edges.length + k = s.loops.toNat := by
  match hadvance : p.advance? with
  | none =>
      rw [edges_of_advance?_eq_none hadvance, List.length_nil, Nat.zero_add]
      exact le_antisymm hk (hafter.advance?_eq_none_iff.mp hadvance)
  | some (rising, later) =>
      have := remaining_lt hadvance
      obtain ⟨hrunning, hlater, -⟩ := hafter.advance hadvance
      rw [edges_of_advance?_eq_some hadvance, List.length_cons]
      have hrest := hlater.length_edges hrunning
      omega
termination_by p.remaining

/-! ## A fresh playback, advanced -/

variable {s : Segment} {count : ℕ}

theorem after_forward (hcount : count ≤ s.loops.toNat) :
    After s count ((ofSegment s).forward count) := by
  have hafter := (after_ofSegment s).forward (Nat.zero_le _) count
  rwa [Nat.zero_add, min_eq_left hcount] at hafter

theorem length_edges_ofSegment (s : Segment) : (ofSegment s).edges.length = s.loops.toNat :=
  (after_ofSegment s).length_edges (Nat.zero_le _)

theorem next_forward_loops (s : Segment) :
    ((ofSegment s).forward s.loops.toNat).next = (ofSegment s).forward s.loops.toNat :=
  next_of_advance?_eq_none ((after_forward le_rfl).advance?_eq_none_iff.mpr le_rfl)

theorem next_forward (hcount : count ≤ s.loops.toNat) :
    ((ofSegment s).forward count).next = (ofSegment s).forward (min (count + 1) s.loops.toNat) := by
  rcases hcount.lt_or_eq with hlt | rfl
  · rw [min_eq_left hlt, forward_succ]
  · rw [min_eq_right (Nat.le_succ _), next_forward_loops]

theorem run_forward (hcount : count ≤ s.loops.toNat) :
    ((ofSegment s).forward count).run.2 = (ofSegment s).forward s.loops.toNat := by
  have hlength := (after_forward hcount).length_edges hcount
  rw [run, (runFrom_eq _ _ 0).2, ← forward_add, Nat.add_comm, hlength]

theorem get_run_forward (count : ℕ) (axis : Axis) :
    ((ofSegment s).forward count).run.1.get axis =
      ((ofSegment s).edges.drop count).countP (·.contains axis) := by
  rw [run, (runFrom_eq _ _ axis).1, Axes.get_replicate, Nat.zero_add, edges_forward]

theorem reset_forward (hcount : count ≤ s.loops.toNat) :
    ((ofSegment s).forward count).reset = ofSegment s := by
  rw [reset, (after_forward hcount).segment]

/-! ## Histories -/

inductive Command where
  | advance
  | run
  | reset
  deriving DecidableEq

def obey (p : Playback) : Command → Playback
  | .advance => p.next
  | .run => p.run.2
  | .reset => p.reset

/-- The state after the given commands, oldest first. -/
def afterCommands (p : Playback) (commands : List Command) : Playback := commands.foldl obey p

theorem afterCommands_append (commands : List Command) (command : Command) (p : Playback) :
    p.afterCommands (commands ++ [command]) = (p.afterCommands commands).obey command :=
  List.foldl_append

/-- How many of `total` loops a command asks for. -/
def Command.loops (total : ℕ) : Command → ℕ
  | .advance => 1
  | .run => total
  | .reset => 0

/-- The loops of a segment of `total` loops that have been run since the last reset. -/
def played (total : ℕ) (commands : List Command) : ℕ :=
  min ((commands.rtakeWhile (· ≠ .reset)).map (Command.loops total)).sum total

theorem played_le (total : ℕ) (commands : List Command) : played total commands ≤ total :=
  min_le_right _ _

theorem played_append_advance (total : ℕ) (commands : List Command) :
    played total (commands ++ [.advance]) = min (played total commands + 1) total := by
  unfold played
  rw [List.rtakeWhile_concat_pos _ _ _ (by decide), List.map_append, List.sum_append]
  change min (_ + 1) total = _
  omega

theorem played_append_run (total : ℕ) (commands : List Command) :
    played total (commands ++ [.run]) = total := by
  unfold played
  rw [List.rtakeWhile_concat_pos _ _ _ (by decide), List.map_append, List.sum_append]
  change min (_ + total) total = total
  omega

theorem played_append_reset (total : ℕ) (commands : List Command) :
    played total (commands ++ [.reset]) = 0 := by
  unfold played
  rw [List.rtakeWhile_concat_neg _ _ _ (by decide)]
  exact Nat.zero_min total

/-- Only the loops since the last reset matter for the state. -/
theorem afterCommands_eq_forward (s : Segment) (commands : List Command) :
    (ofSegment s).afterCommands commands =
      (ofSegment s).forward (played s.loops.toNat commands) := by
  -- What the last command does is known of every state that a fresh playback can reach.
  induction commands using List.reverseRecOn with
  | nil => rfl
  | append_singleton commands command ih =>
      have hplayed := played_le s.loops.toNat commands
      rw [afterCommands_append, ih]
      cases command with
      | advance => rw [played_append_advance, ← next_forward hplayed]; rfl
      | run => rw [played_append_run, ← run_forward hplayed]; rfl
      | reset => rw [played_append_reset]; exact reset_forward hplayed

/-- After any commands a playback is a fresh one that was advanced as often as it was since
the last reset, up to the loops of its segment.  Advancing reports the edges at that place,
and nothing exactly at the end, where the state is kept; a run counts the edges that are
left; and the loops behind it and before it are all loops of the segment. -/
theorem determined_by_played (s : Segment) (commands : List Command) :
    let fresh := ofSegment s
    let m := played s.loops.toNat commands
    let p := fresh.afterCommands commands
    fresh.edges.length = s.loops.toNat ∧
      p = fresh.forward m ∧
      p.advance?.map Prod.fst = fresh.edges[m]? ∧
      (p.advance? = none ↔ m = s.loops.toNat) ∧
      (m = s.loops.toNat → p.next = p) ∧
      (∀ axis : Axis, p.run.1.get axis = (fresh.edges.drop m).countP (·.contains axis)) ∧
      p.loop = m ∧ p.loop + p.remaining = s.loops.toNat := by
  intro fresh m p
  have hm : m ≤ s.loops.toNat := played_le _ _
  have hstate : p = fresh.forward m := afterCommands_eq_forward s commands
  have hafter : After s m p := hstate ▸ after_forward hm
  have hend : p.advance? = none ↔ m = s.loops.toNat :=
    hafter.advance?_eq_none_iff.trans ⟨le_antisymm hm, Eq.ge⟩
  refine ⟨length_edges_ofSegment s, hstate, ?_, hend, fun h => ?_, fun axis => ?_,
    hafter.loop, ?_⟩
  · rw [← head?_edges, hstate, edges_forward, List.head?_drop]
  · exact next_of_advance?_eq_none (hend.mpr h)
  · rw [hstate, get_run_forward]
  · rw [remaining, total, hafter.segment, hafter.loop]
    omega

end Playback

end PulseTrain
