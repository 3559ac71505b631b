import Mathlib.Algebra.BigOperators.Group.List.Basic
import Mathlib.Algebra.GroupWithZero.Nat
import Mathlib.Data.Set.Lattice
import Mathlib.Tactic.SplitIfs

/-!
# Cutting ranges out of a range

A range is a pair of its first number and its length. `cutOut e r` is what the range `e` leaves of
`r`, one or two shorter ranges or none, and `cutAll U r` is what a list of ranges leaves.

* `covers_cutAll` says which numbers are left.
* `pos_of_mem_cutAll`, `within_of_mem_cutAll` and `ordered_cutAll`: the pieces are not empty, lie
  in the range and are in order, so that no two of them meet.
* `sum_cutAll_le` bounds their total length.
-/

namespace Ranges

/-- The number `x` is in the range `r`. -/
def Has (r : Nat × Nat) (x : Nat) : Prop := r.1 ≤ x ∧ x < r.1 + r.2

instance (r : Nat × Nat) (x : Nat) : Decidable (Has r x) := inferInstanceAs (Decidable (_ ∧ _))

/-- The number `x` is in one of the ranges `U`. -/
def Covers (U : List (Nat × Nat)) (x : Nat) : Prop := ∃ e ∈ U, Has e x

/-- The range `p` is a part of the range `r`. -/
def Within (p r : Nat × Nat) : Prop := r.1 ≤ p.1 ∧ p.1 + p.2 ≤ r.1 + r.2

/-- Nothing of `e` is inside `r`, not even the place where an empty range stands. -/
def Misses (e r : Nat × Nat) : Prop := e.1 + e.2 ≤ r.1 ∨ r.1 + r.2 ≤ e.1

instance (p r : Nat × Nat) : Decidable (Within p r) := inferInstanceAs (Decidable (_ ∧ _))

instance (e r : Nat × Nat) : Decidable (Misses e r) := inferInstanceAs (Decidable (_ ∨ _))

theorem Within.has {p r : Nat × Nat} (h : Within p r) {x : Nat} (hx : Has p x) : Has r x :=
  ⟨h.1.trans hx.1, hx.2.trans_le h.2⟩

theorem Within.trans {p q r : Nat × Nat} (hpq : Within p q) (hqr : Within q r) : Within p r :=
  ⟨hqr.1.trans hpq.1, hpq.2.trans hqr.2⟩

theorem Misses.within {e p r : Nat × Nat} (h : Misses e r) (hp : Within p r) : Misses e p :=
  h.imp (fun h => h.trans hp.1) fun h => hp.2.trans h

theorem covers_cons {e : Nat × Nat} {U : List (Nat × Nat)} {x : Nat} :
    Covers (e :: U) x ↔ Has e x ∨ Covers U x := by
  simp [Covers]

theorem covers_append {U V : List (Nat × Nat)} {x : Nat} :
    Covers (U ++ V) x ↔ Covers U x ∨ Covers V x := by
  simp [Covers, or_and_right, exists_or]

theorem covers_flatMap {U : List (Nat × Nat)} {f : Nat × Nat → List (Nat × Nat)} {x : Nat} :
    Covers (U.flatMap f) x ↔ ∃ e ∈ U, Covers (f e) x := by
  simp only [Covers, List.mem_flatMap]
  constructor
  · intro ⟨p, ⟨e, he, hp⟩, hx⟩
    exact ⟨e, he, p, hp, hx⟩
  · intro ⟨e, he, p, hp, hx⟩
    exact ⟨p, ⟨e, he, hp⟩, hx⟩

/-! ## One range -/

/-- The part of `r` before `e`. -/
def below (e r : Nat × Nat) : Nat × Nat := (r.1, min (r.1 + r.2) e.1 - r.1)

/-- The part of `r` after `e`. -/
def above (e r : Nat × Nat) : Nat × Nat :=
  (max r.1 (e.1 + e.2), r.1 + r.2 - max r.1 (e.1 + e.2))

/-- The range as a list, empty when it is. -/
def nonempty (r : Nat × Nat) : List (Nat × Nat) := if r.2 = 0 then [] else [r]

/-- What `e` leaves of `r`. -/
def cutOut (e r : Nat × Nat) : List (Nat × Nat) := nonempty (below e r) ++ nonempty (above e r)

theorem mem_nonempty {p r : Nat × Nat} : p ∈ nonempty r ↔ p = r ∧ 0 < r.2 := by
  unfold nonempty
  by_cases h : r.2 = 0
  · simp [h]
  · simp [h, Nat.pos_of_ne_zero h]

theorem mem_cutOut {e p r : Nat × Nat} :
    p ∈ cutOut e r ↔ (p = below e r ∧ 0 < (below e r).2) ∨ (p = above e r ∧ 0 < (above e r).2) := by
  rw [cutOut, List.mem_append, mem_nonempty, mem_nonempty]

theorem pos_of_mem_cutOut {e p r : Nat × Nat} (hp : p ∈ cutOut e r) : 0 < p.2 := by
  rcases mem_cutOut.1 hp with ⟨rfl, h⟩ | ⟨rfl, h⟩
  · exact h
  · exact h

theorem within_of_mem_cutOut {e p r : Nat × Nat} (hp : p ∈ cutOut e r) : Within p r := by
  unfold Within
  rcases mem_cutOut.1 hp with ⟨rfl, h⟩ | ⟨rfl, h⟩
  · simp only [below] at h ⊢
    omega
  · simp only [above] at h ⊢
    omega

theorem misses_of_mem_cutOut {e p r : Nat × Nat} (hp : p ∈ cutOut e r) : Misses e p := by
  unfold Misses
  rcases mem_cutOut.1 hp with ⟨rfl, h⟩ | ⟨rfl, h⟩
  · simp only [below] at h ⊢
    omega
  · simp only [above] at h ⊢
    omega

/-- Cutting loses exactly the numbers of `e`. -/
theorem covers_cutOut {e r : Nat × Nat} {x : Nat} :
    Covers (cutOut e r) x ↔ Has r x ∧ ¬ Has e x := by
  constructor
  · intro ⟨p, hp, hx⟩
    have hmiss := misses_of_mem_cutOut hp
    unfold Misses at hmiss
    refine ⟨(within_of_mem_cutOut hp).has hx, fun he => ?_⟩
    unfold Has at hx he
    omega
  · intro ⟨hr, he⟩
    unfold Has at hr he
    by_cases hlt : x < e.1
    · have hx : Has (below e r) x := by
        simp only [Has, below]
        omega
      exact ⟨below e r, mem_cutOut.2 (.inl ⟨rfl, by simp only [below]; omega⟩), hx⟩
    · have hx : Has (above e r) x := by
        simp only [Has, above]
        omega
      exact ⟨above e r, mem_cutOut.2 (.inr ⟨rfl, by simp only [above]; omega⟩), hx⟩

theorem cutOut_eq {e r : Nat × Nat} {ps qs : List (Nat × Nat)} (hp : nonempty (below e r) = ps)
    (hq : nonempty (above e r) = qs) : cutOut e r = ps ++ qs := by
  rw [cutOut, hp, hq]

theorem nonempty_of_zero {r : Nat × Nat} (h : r.2 = 0) : nonempty r = [] := if_pos h

theorem nonempty_of_pos {r : Nat × Nat} (h : 0 < r.2) : nonempty r = [r] := if_neg h.ne'

theorem below_eq_zero {e r : Nat × Nat} (h : e.1 ≤ r.1) : nonempty (below e r) = [] :=
  nonempty_of_zero (by simp only [below]; omega)

theorem above_eq_zero {e r : Nat × Nat} (h : r.1 + r.2 ≤ e.1 + e.2) : nonempty (above e r) = [] :=
  nonempty_of_zero (by simp only [above]; omega)

theorem below_eq {e r : Nat × Nat} (h : r.1 < e.1) (he : e.1 ≤ r.1 + r.2) :
    nonempty (below e r) = [(r.1, e.1 - r.1)] := by
  have hbelow : below e r = (r.1, e.1 - r.1) := by rw [below, min_eq_right he]
  rw [hbelow]
  exact nonempty_of_pos (Nat.sub_pos_of_lt h)

theorem above_eq {e r : Nat × Nat} (h : e.1 + e.2 < r.1 + r.2) (he : r.1 ≤ e.1 + e.2) :
    nonempty (above e r) = [(e.1 + e.2, r.1 + r.2 - (e.1 + e.2))] := by
  have habove : above e r = (e.1 + e.2, r.1 + r.2 - (e.1 + e.2)) := by rw [above, max_eq_right he]
  rw [habove]
  exact nonempty_of_pos (Nat.sub_pos_of_lt h)

theorem cutOut_covered {e r : Nat × Nat} (hlo : e.1 ≤ r.1) (hhi : r.1 + r.2 ≤ e.1 + e.2) :
    cutOut e r = [] := cutOut_eq (below_eq_zero hlo) (above_eq_zero hhi)

theorem cutOut_low {e r : Nat × Nat} (hlo : e.1 ≤ r.1) (hmeet : r.1 ≤ e.1 + e.2)
    (hhi : e.1 + e.2 < r.1 + r.2) : cutOut e r = [(e.1 + e.2, r.1 + r.2 - (e.1 + e.2))] :=
  cutOut_eq (below_eq_zero hlo) (above_eq hhi hmeet)

theorem cutOut_high {e r : Nat × Nat} (hlo : r.1 < e.1) (hmeet : e.1 ≤ r.1 + r.2)
    (hhi : r.1 + r.2 ≤ e.1 + e.2) : cutOut e r = [(r.1, e.1 - r.1)] :=
  cutOut_eq (below_eq hlo hmeet) (above_eq_zero hhi)

theorem cutOut_inside {e r : Nat × Nat} (hlo : r.1 < e.1) (hhi : e.1 + e.2 < r.1 + r.2) :
    cutOut e r = [(r.1, e.1 - r.1), (e.1 + e.2, r.1 + r.2 - (e.1 + e.2))] :=
  cutOut_eq (below_eq hlo (by omega)) (above_eq hhi (by omega))

theorem cutOut_of_misses {e r : Nat × Nat} (h : Misses e r) (hr : 0 < r.2) : cutOut e r = [r] := by
  have hself : nonempty r = [r] := nonempty_of_pos hr
  by_cases hle : e.1 + e.2 ≤ r.1
  · have habove : above e r = r := by rw [above, max_eq_left hle, Nat.add_sub_cancel_left]
    exact cutOut_eq (below_eq_zero (by omega)) ((congrArg nonempty habove).trans hself)
  · have hge : r.1 + r.2 ≤ e.1 := h.resolve_left hle
    have hbelow : below e r = r := by rw [below, min_eq_left hge, Nat.add_sub_cancel_left]
    exact cutOut_eq ((congrArg nonempty hbelow).trans hself) (above_eq_zero (by omega))

/-! ## A list of ranges -/

/-- What the ranges `U` leave of `r`. -/
def cutAll : List (Nat × Nat) → Nat × Nat → List (Nat × Nat)
  | [], r => nonempty r
  | e :: U, r => (cutOut e r).flatMap (cutAll U)

theorem mem_cutAll_cons {e p r : Nat × Nat} {U : List (Nat × Nat)} :
    p ∈ cutAll (e :: U) r ↔ ∃ q ∈ cutOut e r, p ∈ cutAll U q := by
  rw [cutAll, List.mem_flatMap]

theorem pos_of_mem_cutAll {U : List (Nat × Nat)} {p r : Nat × Nat} (hp : p ∈ cutAll U r) :
    0 < p.2 := by
  induction U generalizing r with
  | nil =>
    obtain ⟨rfl, hpos⟩ := mem_nonempty.1 hp
    exact hpos
  | cons e U ih =>
    obtain ⟨q, -, hpq⟩ := mem_cutAll_cons.1 hp
    exact ih hpq

theorem within_of_mem_cutAll {U : List (Nat × Nat)} {p r : Nat × Nat} (hp : p ∈ cutAll U r) :
    Within p r := by
  induction U generalizing r with
  | nil =>
    obtain ⟨rfl, -⟩ := mem_nonempty.1 hp
    exact ⟨le_rfl, le_rfl⟩
  | cons e U ih =>
    obtain ⟨q, hq, hpq⟩ := mem_cutAll_cons.1 hp
    exact (ih hpq).trans (within_of_mem_cutOut hq)

theorem misses_of_mem_cutAll {U : List (Nat × Nat)} {p r : Nat × Nat} (hp : p ∈ cutAll U r) :
    ∀ e ∈ U, Misses e p := by
  induction U generalizing r with
  | nil => simp
  | cons e' U ih =>
    obtain ⟨q, hq, hpq⟩ := mem_cutAll_cons.1 hp
    intro e he
    rcases List.mem_cons.1 he with rfl | he
    · exact (misses_of_mem_cutOut hq).within (within_of_mem_cutAll hpq)
    · exact ih hpq e he

/-- **The numbers of `r` that are left are the ones in none of the ranges.** -/
theorem covers_cutAll {U : List (Nat × Nat)} {r : Nat × Nat} {x : Nat} :
    Covers (cutAll U r) x ↔ Has r x ∧ ¬ Covers U x := by
  induction U generalizing r with
  | nil =>
    simp only [Covers, cutAll, mem_nonempty, List.not_mem_nil, false_and, exists_false,
      not_false_eq_true, and_true]
    constructor
    · intro ⟨p, ⟨hp, _⟩, hx⟩
      exact hp ▸ hx
    · intro hx
      refine ⟨r, ⟨rfl, ?_⟩, hx⟩
      unfold Has at hx
      omega
  | cons e U ih =>
    have hcut := @covers_cutOut e r x
    rw [cutAll, covers_flatMap, covers_cons]
    simp only [ih]
    constructor
    · intro ⟨q, hq, hx, hU⟩
      obtain ⟨hr, he⟩ := hcut.1 ⟨q, hq, hx⟩
      exact ⟨hr, fun h => h.elim he hU⟩
    · intro ⟨hr, hout⟩
      obtain ⟨q, hq, hx⟩ := hcut.2 ⟨hr, fun he => hout (.inl he)⟩
      exact ⟨q, hq, hx, fun hU => hout (.inr hU)⟩

/-! ## Order -/

/-- Each range ends before the next ones begin. -/
def Ordered (ps : List (Nat × Nat)) : Prop := ps.Pairwise fun p q => p.1 + p.2 ≤ q.1

theorem ordered_nonempty (r : Nat × Nat) : Ordered (nonempty r) := by
  unfold nonempty Ordered
  split_ifs
  · exact .nil
  · exact List.pairwise_singleton _ r

theorem ordered_cutOut (e r : Nat × Nat) : Ordered (cutOut e r) := by
  refine List.pairwise_append.2 ⟨ordered_nonempty _, ordered_nonempty _, fun p hp q hq => ?_⟩
  obtain ⟨rfl, hp⟩ := mem_nonempty.1 hp
  obtain ⟨rfl, hq⟩ := mem_nonempty.1 hq
  simp only [below, above] at hp hq ⊢
  omega

/-- Cutting up ranges that are in order keeps the order. -/
theorem Ordered.flatMap {ps : List (Nat × Nat)} {f : Nat × Nat → List (Nat × Nat)}
    (h : Ordered ps) (hf : ∀ p, Ordered (f p)) (hin : ∀ p, ∀ q ∈ f p, Within q p) :
    Ordered (ps.flatMap f) := by
  induction ps with
  | nil => exact .nil
  | cons p ps ih =>
    have hcons := List.pairwise_cons.1 h
    rw [List.flatMap_cons]
    refine List.pairwise_append.2 ⟨hf p, ih hcons.2, fun a ha b hb => ?_⟩
    obtain ⟨q, hq, hbq⟩ := List.mem_flatMap.1 hb
    exact ((hin p a ha).2.trans (hcons.1 q hq)).trans (hin q b hbq).1

theorem ordered_cutAll (U : List (Nat × Nat)) (r : Nat × Nat) : Ordered (cutAll U r) := by
  induction U generalizing r with
  | nil => exact ordered_nonempty r
  | cons e U ih => exact (ordered_cutOut e r).flatMap ih fun q p hp => within_of_mem_cutAll hp

/-- Ranges in order have room in any range that holds them all. -/
theorem Ordered.sum_le {ps : List (Nat × Nat)} (h : Ordered ps) {r : Nat × Nat}
    (hin : ∀ p ∈ ps, Within p r) : (ps.map Prod.snd).sum ≤ r.2 := by
  induction ps generalizing r with
  | nil => exact Nat.zero_le _
  | cons p ps ih =>
    have hcons := List.pairwise_cons.1 h
    have hp := hin p List.mem_cons_self
    unfold Within at hp
    have hrests : ∀ q ∈ ps, Within q (p.1 + p.2, r.1 + r.2 - (p.1 + p.2)) := by
      intro q hq
      have hq' := hin q (List.mem_cons_of_mem p hq)
      have := hcons.1 q hq
      unfold Within at hq' ⊢
      dsimp only
      omega
    have hrest := ih hcons.2 hrests
    simp only [List.map_cons, List.sum_cons] at hrest ⊢
    omega

theorem sum_cutAll_le (U : List (Nat × Nat)) (r : Nat × Nat) :
    ((cutAll U r).map Prod.snd).sum ≤ r.2 :=
  (ordered_cutAll U r).sum_le fun _ hp => within_of_mem_cutAll hp

end Ranges
