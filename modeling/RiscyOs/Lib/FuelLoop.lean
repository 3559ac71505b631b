import Mathlib.Logic.Basic

/-!
# Loops with fuel

`loop outOfFuel body` repeats `body`, which goes round again with a new state (`Sum.inl`) or
leaves the loop with a result (`Sum.inr`), and fails with `outOfFuel` when the fuel is spent.
`forLoop` is a loop whose number of passes is known beforehand, and needs no fuel.

* `loop_again`, `loop_leave`, `loop_fail` run one pass.
* `loop_trace`: a loop that goes through known states leaves from the last one. `loop_trace_iff`
  also says that it leaves from no other.
* `loop_variant`: a loop that keeps an invariant and lowers a measure leaves.
* `loop_stuck`: a pass that goes round with the state it had never leaves.
* `loop_eq_ok_of_le` says that more fuel gives the same result.
* `loop_mono`: a body that succeeds where another one does leaves with the same result.
* `Steady`: a computation whose result does not change with more fuel; loops over steady bodies are
  steady.
-/

namespace FuelLoop

variable {ε σ ρ : Type*}

/-- Repeat `body` until it leaves the loop. -/
def loop (outOfFuel : ε) (body : σ → Except ε (σ ⊕ ρ)) : Nat → σ → Except ε ρ
  | 0, _ => .error outOfFuel
  | fuel + 1, s =>
    match body s with
    | .error e => .error e
    | .ok (.inr r) => .ok r
    | .ok (.inl s') => loop outOfFuel body fuel s'

/-- Run `body i`, `body (i + 1)`, … for `n` passes. -/
def forLoop (body : Nat → σ → Except ε σ) : Nat → Nat → σ → Except ε σ
  | _, 0, s => .ok s
  | i, n + 1, s =>
    match body i s with
    | .error e => .error e
    | .ok s' => forLoop body (i + 1) n s'

variable {outOfFuel : ε} {body : σ → Except ε (σ ⊕ ρ)} {fuel : Nat} {s : σ} {r : ρ}

theorem loop_again (s' : σ) (h : body s = .ok (.inl s')) :
    loop outOfFuel body (fuel + 1) s = loop outOfFuel body fuel s' := by
  simp only [loop, h]

theorem loop_leave (h : body s = .ok (.inr r)) :
    loop outOfFuel body (fuel + 1) s = .ok r := by
  simp only [loop, h]

theorem loop_fail {e : ε} (h : body s = .error e) :
    loop outOfFuel body (fuel + 1) s = .error e := by
  simp only [loop, h]

/-- A loop that goes through `state 0`, …, `state k` and leaves there. -/
theorem loop_trace (state : Nat → σ) {k : Nat}
    (hagain : ∀ i < k, body (state i) = .ok (.inl (state (i + 1))))
    (hleave : body (state k) = .ok (.inr r)) (hfuel : k < fuel) :
    loop outOfFuel body fuel (state 0) = .ok r := by
  -- `i` passes have been made
  suffices ∀ n i, i ≤ k → k < n + i → loop outOfFuel body n (state i) = .ok r from
    this fuel 0 (Nat.zero_le k) hfuel
  intro n
  induction n with
  | zero => intro i _ _; omega
  | succ n ih =>
    intro i hi hn
    rcases Nat.eq_or_lt_of_le hi with rfl | hlt
    · exact loop_leave hleave
    · rw [loop_again (state (i + 1)) (hagain i hlt)]
      exact ih (i + 1) hlt (by omega)

/-- A loop whose states are `state 0`, `state 1`, … leaves from the first one that `stops`, if the
fuel lasts so long, and not otherwise. -/
theorem loop_trace_iff (state : Nat → σ) {stops : Nat → Prop} {result : Nat → ρ}
    (hagain : ∀ i, ¬ stops i → body (state i) = .ok (.inl (state (i + 1))))
    (hleave : ∀ i, stops i → body (state i) = .ok (.inr (result i))) :
    loop outOfFuel body fuel (state 0) = .ok r ↔
      ∃ k < fuel, stops k ∧ (∀ i < k, ¬ stops i) ∧ r = result k := by
  -- from the state `i` on
  suffices ∀ n i, loop outOfFuel body n (state i) = .ok r ↔
      ∃ k < n, stops (i + k) ∧ (∀ j < k, ¬ stops (i + j)) ∧ r = result (i + k) by
    simpa only [Nat.zero_add] using this fuel 0
  intro n
  induction n with
  | zero => intro i; simp [loop]
  | succ n ih =>
    intro i
    by_cases hstop : stops i
    · rw [loop_leave (hleave i hstop)]
      constructor
      · intro h
        exact ⟨0, Nat.succ_pos n, hstop, fun j hj => absurd hj (Nat.not_lt_zero j),
          (Except.ok.inj h).symm⟩
      · intro ⟨k, _, _, hbefore, hr⟩
        have hk : k = 0 := Nat.eq_zero_of_not_pos fun hpos => hbefore 0 hpos hstop
        rw [hr, hk, Nat.add_zero]
    · rw [loop_again _ (hagain i hstop), ih (i + 1)]
      have hnext : ∀ j, i + 1 + j = i + (j + 1) := Nat.succ_add_eq_add_succ i
      simp only [hnext]
      constructor
      · intro ⟨k, hk, hstops, hbefore, hr⟩
        refine ⟨k + 1, Nat.succ_lt_succ hk, hstops, fun j hj => ?_, hr⟩
        cases j with
        | zero => exact hstop
        | succ j => exact hbefore j (Nat.lt_of_succ_lt_succ hj)
      · intro ⟨k, hk, hstops, hbefore, hr⟩
        cases k with
        | zero => exact absurd hstops hstop
        | succ k =>
          exact ⟨k, Nat.lt_of_succ_lt_succ hk, hstops,
            fun j hj => hbefore (j + 1) (Nat.succ_lt_succ hj), hr⟩

/-- Each pass either leaves with a result in `P`, or keeps the invariant `I` and lowers `μ`. -/
theorem loop_variant (I : σ → Prop) (μ : σ → Nat) {P : ρ → Prop}
    (hpass : ∀ s, I s → (∃ r, body s = .ok (.inr r) ∧ P r) ∨
      ∃ s', body s = .ok (.inl s') ∧ I s' ∧ μ s' < μ s)
    (hI : I s) (hfuel : μ s < fuel) : ∃ r, loop outOfFuel body fuel s = .ok r ∧ P r := by
  induction fuel generalizing s with
  | zero => omega
  | succ fuel ih =>
    rcases hpass s hI with ⟨r, hr, hP⟩ | ⟨s', hs', hI', hless⟩
    · exact ⟨r, loop_leave hr, hP⟩
    · rw [loop_again s' hs']
      exact ih hI' (by omega)

theorem loop_stuck (h : body s = .ok (.inl s)) :
    loop outOfFuel body fuel s = .error outOfFuel := by
  induction fuel with
  | zero => rfl
  | succ fuel ih => rw [loop_again s h, ih]

/-- A loop that has left has left for every larger fuel, with the same result. -/
theorem loop_eq_ok_of_le {fuel' : Nat} (hle : fuel ≤ fuel')
    (hr : loop outOfFuel body fuel s = .ok r) : loop outOfFuel body fuel' s = .ok r := by
  induction fuel generalizing s fuel' with
  | zero => cases hr
  | succ fuel ih =>
    obtain ⟨k, rfl⟩ : ∃ k, fuel' = k + 1 := ⟨fuel' - 1, by omega⟩
    cases hb : body s with
    | error e => rw [loop_fail hb] at hr; cases hr
    | ok next =>
      cases next with
      | inl s' =>
        rw [loop_again s' hb] at hr ⊢
        exact ih (by omega) hr
      | inr r' => rwa [loop_leave hb] at hr ⊢

theorem loop_mono {body' : σ → Except ε (σ ⊕ ρ)} (hbody : ∀ s x, body s = .ok x → body' s = .ok x)
    (hr : loop outOfFuel body fuel s = .ok r) : loop outOfFuel body' fuel s = .ok r := by
  induction fuel generalizing s with
  | zero => cases hr
  | succ fuel ih =>
    cases hb : body s with
    | error e => rw [loop_fail hb] at hr; cases hr
    | ok next =>
      cases next with
      | inl s' =>
        rw [loop_again s' hb] at hr
        rw [loop_again s' (hbody s _ hb)]
        exact ih hr
      | inr r' =>
        rw [loop_leave hb] at hr
        rw [loop_leave (hbody s _ hb), hr]

/-! ## More fuel -/

section
universe u
variable {α β : Type u} {f : Nat → Except ε α} {g : Nat → α → Except ε β}

/-- What `f` returns it also returns with more fuel. -/
def Steady (f : Nat → Except ε α) : Prop := ∀ n n' r, n ≤ n' → f n = .ok r → f n' = .ok r

theorem steady_const (x : Except ε α) : Steady fun _ => x := fun _ _ _ _ h => h

theorem Steady.bind (hf : Steady f) (hg : ∀ a, Steady fun n => g n a) :
    Steady fun n => f n >>= g n := by
  intro n n' r hle hr
  dsimp only at hr ⊢
  cases hfn : f n with
  | error e =>
    rw [hfn] at hr
    cases hr
  | ok a =>
    rw [hfn] at hr
    rw [hf n n' a hle hfn]
    exact hg a n n' r hle hr

theorem Steady.ite {p : Prop} [Decidable p] {f' : Nat → Except ε α} (hf : Steady f)
    (hf' : Steady f') : Steady fun n => if p then f n else f' n := by
  by_cases h : p
  · simpa only [if_pos h] using hf
  · simpa only [if_neg h] using hf'

theorem Steady.loop {body : Nat → σ → Except ε (σ ⊕ ρ)} (hbody : ∀ s, Steady fun n => body n s)
    (s : σ) : Steady fun n => loop outOfFuel (body n) n s :=
  fun _ _ _ hle hr =>
    loop_mono (fun s x => hbody s _ _ x hle) (loop_eq_ok_of_le hle hr)

end

end FuelLoop
