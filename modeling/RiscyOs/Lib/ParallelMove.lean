import Mathlib.Data.List.Basic
import Mathlib.Logic.Function.Basic

/-!
# Moves in sequence and moves at once

A memory is a function `m : α → β`, and move `i` writes at `dst i` what stands at `src i`. `moves`
makes a list of moves one after the other, so that a later one reads what the earlier ones have
written. In `Moved` all sources are read in the memory before the first of them.

* `Ordered`: no move writes over the source or the destination of a later one.
* `moves_moved`: ordered moves do in sequence what they do at once.
-/

namespace ParallelMove

variable {ι α β : Type*} [DecidableEq α]

def move (dst src : ι → α) (m : α → β) (i : ι) : α → β := Function.update m (dst i) (m (src i))

/-- The moves `is`, first to last. -/
def moves (dst src : ι → α) (m : α → β) : List ι → α → β
  | [] => m
  | i :: is => moves dst src (move dst src m i) is

/-- `m'` is `m` with the moves `is` made at once. -/
structure Moved (dst src : ι → α) (is : List ι) (m m' : α → β) : Prop where
  moved : ∀ i ∈ is, m' (dst i) = m (src i)
  kept : ∀ a, (∀ i ∈ is, dst i ≠ a) → m' a = m a

/-- No move writes over the source or the destination of a later one. -/
def Ordered (dst src : ι → α) (is : List ι) : Prop :=
  is.Pairwise fun i j => dst i ≠ dst j ∧ dst i ≠ src j

variable {dst src : ι → α} {m : α → β} {i : ι} {is : List ι} {a : α}

theorem move_self : move dst src m i (dst i) = m (src i) := Function.update_self ..

theorem move_of_ne (h : dst i ≠ a) : move dst src m i a = m a := Function.update_of_ne h.symm ..

/-- **Ordered moves do in sequence what they do at once.** -/
theorem moves_moved (h : Ordered dst src is) : Moved dst src is m (moves dst src m is) := by
  induction is generalizing m with
  | nil =>
    refine ⟨?_, fun a _ => rfl⟩
    intro i hi
    cases hi
  | cons i is ih =>
    obtain ⟨hfirst, hrest⟩ := List.pairwise_cons.1 h
    have hlater := ih (m := move dst src m i) hrest
    constructor
    · intro j hj
      rcases List.mem_cons.1 hj with rfl | hj
      · -- no later move writes there again
        rw [moves, hlater.kept _ fun k hk => (hfirst k hk).1.symm, move_self]
      · rw [moves, hlater.moved j hj, move_of_ne (hfirst j hj).2]
    · intro a ha
      rw [List.forall_mem_cons] at ha
      rw [moves, hlater.kept a ha.2, move_of_ne ha.1]

end ParallelMove
