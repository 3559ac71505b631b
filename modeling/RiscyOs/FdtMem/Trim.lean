import RiscyOs.FdtMem.Carve

/-!
# Trimming around ranges that wrap

`trim_or_split_around_reserved` compares ends that the machine computes. The address and the size
of a reserve entry come from the blob, and nothing says that their sum is below `2 ^ 64`; a region
of memory may end at `2 ^ 64` itself. `Leaves` says what the call should leave, in terms of the true
ends.

* `leaves_of_lt`: it leaves that when both true ends are below `2 ^ 64`.
* `leaves_unchanged_iff`: a region that is left as it is has nothing in common with the range.
* `trimOrSplit_leaves_iff`: the other pairs of ranges with which the call is right.
-/

namespace RiscyOs

open Ranges

/-- The one or two ranges, also when they are empty. -/
def Trimmed.ranges : Trimmed → List (Nat × Nat)
  | .one start size => [(start, size)]
  | .two start size splitStart splitSize => [(start, size), (splitStart, splitSize)]

/-- The ranges are disjoint and have the bytes of `r` that are not in `e`. -/
structure Leaves (e r : Nat × Nat) (t : Trimmed) : Prop where
  disjoint : t.ranges.Pairwise fun p q => ∀ x, ¬(Has p x ∧ Has q x)
  covers_iff : ∀ x, Covers t.ranges x ↔ Has r x ∧ ¬Has e x
  size_eq_zero : (∀ x, Has r x → Has e x) → ∀ p ∈ t.ranges, p.2 = 0

/-- Where the ends that the machine computes compare as the true ends of the region `r` and of the
reserved range `e` do, or fail to without harm. -/
def EndsCompare (e r : Nat × Nat) : Prop :=
  if r.1 + r.2 < 2 ^ 64 then
    e.1 + e.2 < 2 ^ 64 ∨ r.1 + r.2 < e.1 ∨ r.1 + r.2 = e.1 ∧ e.1 + e.2 ≤ 2 ^ 64 + r.1
  else e.1 + e.2 ≤ r.1 ∨ e.2 = 0

variable {e r : Nat × Nat} {t : Trimmed}

theorem Leaves.of_covers (hdisjoint : t.ranges.Pairwise fun p q => ∀ x, ¬(Has p x ∧ Has q x))
    (hcovers : ∀ x, Covers t.ranges x ↔ Has r x ∧ ¬Has e x) : Leaves e r t where
  disjoint := hdisjoint
  covers_iff := hcovers
  size_eq_zero := by
    intro hall p hp
    by_contra hpos
    have hfirst := (hcovers p.1).1 ⟨p, hp, le_rfl, by omega⟩
    exact hfirst.2 (hall p.1 hfirst.1)

theorem covers_parts_iff (x : Nat) : Covers t.parts x ↔ Covers t.ranges x := by
  cases t with
  | one start size =>
    rw [Trimmed.parts, Trimmed.ranges, nonempty]
    split_ifs with hsize
    · dsimp only at hsize
      subst hsize
      simp [Covers, Has]
    · rfl
  | two start size splitStart splitSize => rfl

/-- The call is right when both true ends are below `2 ^ 64`. -/
theorem leaves_of_lt (hpos : 0 < r.2) (hr : r.1 + r.2 < 2 ^ 64) (he : e.1 + e.2 < 2 ^ 64) :
    Leaves e r (trimOrSplitAroundReserved r.1 r.2 e.1 e.2) := by
  have hparts := parts_trimOrSplit hpos hr he
  refine .of_covers ?_ fun x => ?_
  · cases ht : trimOrSplitAroundReserved r.1 r.2 e.1 e.2 with
    | one start size => exact List.pairwise_singleton ..
    | two start size splitStart splitSize =>
      have hordered : Ordered (Trimmed.parts (.two start size splitStart splitSize)) := by
        rw [← ht, hparts]
        exact ordered_cutOut e r
      refine hordered.imp fun {p q} hpq x => ?_
      rintro ⟨hp, hq⟩
      exact absurd (hp.2.trans_le (hpq.trans hq.1)) (lt_irrefl x)
  · rw [← covers_parts_iff, hparts]
    exact covers_cutOut

theorem leaves_unchanged_iff (hpos : 0 < r.2) :
    Leaves e r (.one r.1 r.2) ↔ e.2 = 0 ∨ e.1 + e.2 ≤ r.1 ∨ r.1 + r.2 ≤ e.1 := by
  constructor
  · intro h
    by_contra hmeet
    -- the first byte they have in common
    have hr : Has r (max r.1 e.1) := by
      constructor <;> omega
    have he : Has e (max r.1 e.1) := by
      constructor <;> omega
    exact ((h.covers_iff _).1 ⟨r, List.mem_singleton_self r, hr⟩).2 he
  · intro hmiss
    refine .of_covers (List.pairwise_singleton ..) fun x => ?_
    have hcovers : Covers (Trimmed.one r.1 r.2).ranges x ↔ Has r x := by
      simp [Covers, Trimmed.ranges, Has]
    rw [hcovers]
    unfold Has
    omega

/-- A reserved range that wraps, around a region that does not: it is missed, or splits the region
at its wrapped end. -/
theorem trimOrSplit_of_wraps (hr : r.1 + r.2 < 2 ^ 64) (he : e.1 < 2 ^ 64) (hsize : e.2 < 2 ^ 64)
    (hwrap : 2 ^ 64 ≤ e.1 + e.2) :
    trimOrSplitAroundReserved r.1 r.2 e.1 e.2 =
      if e.1 + e.2 - 2 ^ 64 ≤ r.1 ∨ r.1 + r.2 < e.1 then .one r.1 r.2
      else .two r.1 (e.1 - r.1) (e.1 + e.2 - 2 ^ 64) (r.1 + r.2 - (e.1 + e.2 - 2 ^ 64)) := by
  have hend : wadd e.1 e.2 = e.1 + e.2 - 2 ^ 64 := by
    unfold wadd
    omega
  unfold trimOrSplitAroundReserved
  dsimp only
  rw [hend, wadd_eq hr]
  by_cases hmiss : e.1 + e.2 - 2 ^ 64 ≤ r.1 ∨ r.1 + r.2 < e.1
  · rw [if_pos hmiss, if_pos hmiss]
  · rw [if_neg hmiss, if_neg hmiss, if_neg (by omega), if_pos (by omega), wsub_eq (by omega) he,
      wsub_eq (by omega) hr]

/-- The two ranges of such a split share the byte at the wrapped end. -/
theorem not_leaves_of_overlap {start size splitStart splitSize : Nat} (hlo : start ≤ splitStart)
    (hhi : splitStart < start + size) (hpos : 0 < splitSize) :
    ¬Leaves e r (.two start size splitStart splitSize) := by
  intro h
  have hdisjoint := List.rel_of_pairwise_cons h.disjoint (List.mem_singleton_self _)
  exact hdisjoint splitStart ⟨⟨hlo, hhi⟩, le_rfl, Nat.lt_add_of_pos_right hpos⟩

/-- A region that ends at `2 ^ 64` has the end `0` in the machine. -/
theorem trimOrSplit_of_top (hr : r.1 + r.2 = 2 ^ 64) :
    trimOrSplitAroundReserved r.1 r.2 e.1 e.2 =
      if wadd e.1 e.2 ≤ r.1 ∨ 0 < e.1 then .one r.1 r.2 else .one NULL 0 := by
  have hstop : wadd r.1 r.2 = 0 := by rw [wadd, hr, Nat.mod_self]
  unfold trimOrSplitAroundReserved
  dsimp only
  rw [hstop]
  by_cases hmiss : wadd e.1 e.2 ≤ r.1 ∨ 0 < e.1
  · rw [if_pos hmiss, if_pos hmiss]
  · rw [if_neg hmiss, if_neg hmiss, if_pos (by omega), if_pos (Nat.zero_le _)]

theorem leaves_top_iff (hpos : 0 < r.2) (hr : r.1 + r.2 = 2 ^ 64) (he : e.1 < 2 ^ 64)
    (hsize : e.2 < 2 ^ 64) :
    Leaves e r (trimOrSplitAroundReserved r.1 r.2 e.1 e.2) ↔ e.1 + e.2 ≤ r.1 ∨ e.2 = 0 := by
  rw [trimOrSplit_of_top hr]
  by_cases hmiss : wadd e.1 e.2 ≤ r.1 ∨ 0 < e.1
  · rw [if_pos hmiss, leaves_unchanged_iff hpos]
    omega
  · -- the range begins at `0` and ends inside the region, whose last byte is lost
    rw [if_neg hmiss]
    have hend : wadd e.1 e.2 = e.1 + e.2 := wadd_eq (by omega)
    rw [hend] at hmiss
    constructor
    · intro h
      have hlast : Has r (2 ^ 64 - 1) ∧ ¬Has e (2 ^ 64 - 1) := by
        unfold Has
        omega
      obtain ⟨p, hp, hhas⟩ := (h.covers_iff _).2 hlast
      rw [List.mem_singleton.1 hp] at hhas
      exact absurd hhas.2 (by norm_num)
    · intro h
      omega

/-- **The call is right exactly when the ends compare.** An end of the region at `2 ^ 64` does not
count as wrapped: all its bytes have an address. -/
theorem trimOrSplit_leaves_iff (hpos : 0 < r.2) (hr : r.1 + r.2 ≤ 2 ^ 64) (he : e.1 < 2 ^ 64)
    (hsize : e.2 < 2 ^ 64) :
    Leaves e r (trimOrSplitAroundReserved r.1 r.2 e.1 e.2) ↔ EndsCompare e r := by
  unfold EndsCompare
  by_cases htop : r.1 + r.2 < 2 ^ 64
  · rw [if_pos htop]
    by_cases hwrap : e.1 + e.2 < 2 ^ 64
    · exact ⟨fun _ => .inl hwrap, fun _ => leaves_of_lt hpos htop hwrap⟩
    rw [trimOrSplit_of_wraps htop he hsize (not_lt.1 hwrap)]
    by_cases hmiss : e.1 + e.2 - 2 ^ 64 ≤ r.1 ∨ r.1 + r.2 < e.1
    · rw [if_pos hmiss, leaves_unchanged_iff hpos]
      omega
    · rw [if_neg hmiss]
      refine ⟨fun h => absurd h ?_, fun h => ?_⟩
      · exact not_leaves_of_overlap (by omega) (by omega) (by omega)
      · omega
  · rw [if_neg htop]
    exact leaves_top_iff hpos (by omega) he hsize

/-- All memory above a region is reserved, up to `2 ^ 64`. -/
theorem trimOrSplit_leaves_iff_above :
    Leaves (0x2000, 2 ^ 64 - 0x2000) (0x1000, 0x1000)
        (trimOrSplitAroundReserved 0x1000 0x1000 0x2000 (2 ^ 64 - 0x2000)) ↔
      EndsCompare (0x2000, 2 ^ 64 - 0x2000) (0x1000, 0x1000) :=
  trimOrSplit_leaves_iff (by decide) (by decide) (by decide) (by decide)

/-- All memory from `0x80000000` on is reserved, and a region there is left as it is. -/
theorem trimOrSplit_reserved_to_top :
    ¬Leaves (0x80000000, 2 ^ 64 - 0x80000000) (0x80000000, 0x8000000)
      (trimOrSplitAroundReserved 0x80000000 0x8000000 0x80000000 (2 ^ 64 - 0x80000000)) := by
  have hleft : trimOrSplitAroundReserved 0x80000000 0x8000000 0x80000000 (2 ^ 64 - 0x80000000) =
      .one 0x80000000 0x8000000 := by decide
  intro h
  have hzero := h.size_eq_zero (fun x hx => ⟨hx.1, by have := hx.2; omega⟩) (0x80000000, 0x8000000)
  rw [hleft] at hzero
  exact absurd (hzero (List.mem_singleton_self _)) (by decide)

end RiscyOs
