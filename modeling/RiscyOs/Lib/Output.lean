import Mathlib.Data.List.Range
import RiscyOs.Lib.FuelLoop

/-!
# Loops that write

A loop that also writes carries what has been written, `out`, beside its state. When each pass does
what the pass of a loop without output does, and writes a text of its own, the whole loop does what
that loop does, and writes the texts one behind the other.

* `forLoop_writes`: the text of a pass depends on its number.
* `loop_writes`: `left s l` says that from the state `s` on the text `l` is still to be written.
-/

namespace FuelLoop

variable {ε σ ρ α : Type*} {s : σ}

theorem forLoop_writes {body : Nat → σ → Except ε σ}
    {bodyOut : Nat → σ × List α → Except ε (σ × List α)} {text : Nat → List α} {I : σ → Prop}
    (hbody : ∀ i s out, I s → bodyOut i (s, out) = (body i s).map fun s' => (s', out ++ text i))
    (hkeep : ∀ i s s', I s → body i s = .ok s' → I s') (hs : I s) (i n : Nat) (out : List α) :
    forLoop bodyOut i n (s, out) =
      (forLoop body i n s).map fun s' => (s', out ++ (List.range' i n).flatMap text) := by
  induction n generalizing i s out with
  | zero => simp [forLoop, Except.map]
  | succ n ih =>
    rw [forLoop, forLoop, hbody i s out hs]
    cases hb : body i s with
    | error e => rfl
    | ok s' =>
      rw [List.range'_succ, List.flatMap_cons, ← List.append_assoc]
      exact ih (hkeep i s s' hs hb) (i + 1) (out ++ text i)

/-- A pass writes a first part of what is left, and the last pass all of it. -/
def WritesPass (left : σ → List α → Prop) (out l : List α) :
    Except ε (σ ⊕ ρ) → Except ε ((σ × List α) ⊕ (ρ × List α)) → Prop
  | .error e, y => y = .error e
  | .ok (.inl s'), y =>
    ∃ text rest, l = text ++ rest ∧ left s' rest ∧ y = .ok (.inl (s', out ++ text))
  | .ok (.inr r), y => y = .ok (.inr (r, out ++ l))

theorem loop_writes {outOfFuel : ε} {body : σ → Except ε (σ ⊕ ρ)}
    {bodyOut : σ × List α → Except ε ((σ × List α) ⊕ (ρ × List α))} (left : σ → List α → Prop)
    (hpass : ∀ s out l, left s l → WritesPass left out l (body s) (bodyOut (s, out)))
    {l : List α} (hs : left s l) (fuel : Nat) (out : List α) :
    loop outOfFuel bodyOut fuel (s, out) =
      (loop outOfFuel body fuel s).map fun r => (r, out ++ l) := by
  induction fuel generalizing s out l with
  | zero => rfl
  | succ fuel ih =>
    have hp := hpass s out l hs
    cases hb : body s with
    | error e =>
      rw [hb] at hp
      rw [loop_fail hb, loop_fail hp]
      rfl
    | ok next =>
      rw [hb] at hp
      cases next with
      | inl s' =>
        obtain ⟨text, rest, rfl, hleft, hout⟩ := hp
        rw [loop_again s' hb, loop_again _ hout, ih hleft, List.append_assoc]
      | inr r =>
        rw [loop_leave hb, loop_leave hp]
        rfl

end FuelLoop
