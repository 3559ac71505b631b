import Mathlib.Logic.Basic

/-!
# Two machines that answer alike

A machine answers a request from its state, and fails or goes to a new state. `Agrees R` compares
two answers: both fail alike, or both give one reply and leave states that `R` relates.

* `Runs step others`: the runs of a machine in an environment that may change its state, by
  `others`, between two requests.
* `Runs.simulates`: when the answers agree and `others` keeps `R`, every run of the first machine
  gives the replies that the second one gives with no environment at all.
-/

namespace Simulation

variable {ε σ τ ι ρ : Type*}

/-- Both fail alike, or both give one reply and leave related states. -/
def Agrees (R : σ → τ → Prop) : Except ε (ρ × σ) → Except ε (ρ × τ) → Prop
  | .ok (r, s), .ok (r', t) => r = r' ∧ R s t
  | .error e, .error e' => e = e'
  | _, _ => False

/-- The replies to a list of requests, and the state after the last one. -/
def answers (step : τ → ι → Except ε (ρ × τ)) : τ → List ι → Except ε (List ρ × τ)
  | t, [] => .ok ([], t)
  | t, i :: is =>
    match step t i with
    | .error e => .error e
    | .ok (r, t) =>
      match answers step t is with
      | .error e => .error e
      | .ok (rs, t) => .ok (r :: rs, t)

/-- `Runs step others s log s'`: the requests and replies of `log` lead from `s` to `s'`. -/
inductive Runs (step : σ → ι → Except ε (ρ × σ)) (others : σ → σ → Prop) :
    σ → List (ι × ρ) → σ → Prop
  | nil (s : σ) : Runs step others s [] s
  | request {s s' s'' : σ} {i : ι} {r : ρ} {log : List (ι × ρ)} :
      step s i = .ok (r, s') → Runs step others s' log s'' → Runs step others s ((i, r) :: log) s''
  | others {s s' s'' : σ} {log : List (ι × ρ)} :
      others s s' → Runs step others s' log s'' → Runs step others s log s''

variable {R : σ → τ → Prop} {step : σ → ι → Except ε (ρ × σ)} {plain : τ → ι → Except ε (ρ × τ)}
  {others : σ → σ → Prop} {valid : ι → Prop} {s s' : σ} {t : τ} {log : List (ι × ρ)}

theorem Agrees.ok {x : Except ε (ρ × σ)} {y : Except ε (ρ × τ)} {r : ρ} (h : Agrees R x y)
    (hx : x = .ok (r, s)) : ∃ t, y = .ok (r, t) ∧ R s t := by
  subst hx
  rcases y with e | ⟨r', t⟩
  · exact h.elim
  · obtain ⟨rfl, hR⟩ := h
    exact ⟨t, rfl, hR⟩

theorem Agrees.error {x : Except ε (ρ × σ)} {y : Except ε (ρ × τ)} {e : ε} (h : Agrees R x y)
    (hy : y = .error e) : x = .error e := by
  subst hy
  rcases x with e' | ⟨r, s⟩
  · exact congrArg Except.error h
  · exact h.elim

theorem Agrees.symm_ok {x : Except ε (ρ × σ)} {y : Except ε (ρ × τ)} {r : ρ} (h : Agrees R x y)
    (hy : y = .ok (r, t)) : ∃ s, x = .ok (r, s) ∧ R s t := by
  subst hy
  rcases x with e | ⟨r', s⟩
  · exact h.elim
  · obtain ⟨rfl, hR⟩ := h
    exact ⟨s, rfl, hR⟩

/-- Answers that agree still agree when their replies are translated. -/
theorem Agrees.map {ρ' : Type*} (f : ρ → ρ') {x : Except ε (ρ × σ)} {y : Except ε (ρ × τ)}
    (h : Agrees R x y) : Agrees R (x.map (Prod.map f id)) (y.map (Prod.map f id)) := by
  rcases x with e | ⟨r, s⟩ <;> rcases y with e' | ⟨r', t⟩
  · exact h
  · exact h.elim
  · exact h.elim
  · exact ⟨congrArg f h.1, h.2⟩

/-- Agreement of the answers carries over to whole runs. -/
theorem Runs.simulates (h : Runs step others s log s')
    (hstep : ∀ s t i, R s t → valid i → Agrees R (step s i) (plain t i))
    (hothers : ∀ s s' t, R s t → others s s' → R s' t)
    (hR : R s t) (hvalid : ∀ e ∈ log, valid e.1) :
    ∃ t', answers plain t (log.map Prod.fst) = .ok (log.map Prod.snd, t') ∧ R s' t' := by
  induction h generalizing t with
  | nil => exact ⟨t, rfl, hR⟩
  | request hrun _ ih =>
    obtain ⟨t₁, hplain, hR₁⟩ := (hstep _ t _ hR (hvalid _ List.mem_cons_self)).ok hrun
    obtain ⟨t', hrest, hR'⟩ := ih hR₁ fun e he => hvalid e (List.mem_cons_of_mem _ he)
    exact ⟨t', by simp only [answers, List.map_cons, hplain, hrest], hR'⟩
  | others hchange _ ih => exact ih (hothers _ _ t hR hchange) hvalid

end Simulation
