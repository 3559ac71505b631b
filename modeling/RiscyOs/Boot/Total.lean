import Mathlib.Algebra.BigOperators.Group.List.Basic
import Mathlib.Algebra.GroupWithZero.Nat
import RiscyOs.Boot.BestFit

/-!
# How much an allocation takes off the list

A successful `boot_alloc` edits one region. The bytes it takes beyond the block are the padding and
what is left of the region when that is too small for a node. The padding at the low end can be a
whole `2 ^ alignment`, but the low end is chosen only when that is less than at the high end, or
when so much is left that it looks negative there (`placedPad_lt_or_room`).

* `bootAlloc_total`: at most one region changes, and what the total drops by.
* `bootAlloc_nothing`: a block of no bytes may change no region.
-/

namespace RiscyOs

open ByteMemory

variable {s s' : Machine} {fl : FreeList} {r : Region} {rs rs' pre post : List Region}
  {p size alignment fuel : Nat}

/-- The number of free bytes. -/
def totalFree (rs : List Region) : Nat := (rs.map Region.size).sum

/-- One region of `rs` is replaced by another one or dropped, and the others stay. -/
def ChangesOne (rs rs' : List Region) : Prop :=
  ∃ pre r post left, rs = pre ++ r :: post ∧ rs' = pre ++ (Option.toList left ++ post) ∧
    left ≠ some r

/-! ## Sums -/

theorem totalFree_append (rs rs' : List Region) :
    totalFree (rs ++ rs') = totalFree rs + totalFree rs' := by
  simp [totalFree]

theorem totalFree_cons (r : Region) (rs : List Region) :
    totalFree (r :: rs) = r.size + totalFree rs := by
  simp [totalFree]

/-- Dropping a remainder costs less than a node. -/
theorem totalFree_keep (r : Region) :
    totalFree (keep r) ≤ r.size ∧ r.size ≤ totalFree (keep r) + (regionHeader - 1) ∧
      (regionHeader ≤ r.size → totalFree (keep r) = r.size) := by
  by_cases hsmall : r.size < regionHeader
  · rw [keep_of_lt hsmall]
    refine ⟨Nat.zero_le _, ?_, fun hroom => absurd hsmall hroom.not_gt⟩
    exact (Nat.le_sub_one_of_lt hsmall).trans (Nat.le_add_left _ _)
  · have hsum : totalFree (keep r) = r.size := by
      rw [keep_of_le (Nat.not_lt.1 hsmall)]
      simp [totalFree]
    exact ⟨hsum.le, hsum.ge.trans (Nat.le_add_right _ _), fun _ => hsum⟩

/-- A list that did not change has no region that did. -/
theorem not_changesOne_self (rs : List Region) : ¬ ChangesOne rs rs := by
  rintro ⟨pre, r, post, left, rfl, heq, hne⟩
  have htail := List.append_cancel_left heq
  cases left with
  | none =>
    have hlen := congrArg List.length htail
    simp at hlen
  | some left => exact hne (congrArg some (List.cons.inj htail).1.symm)

/-! ## The padding -/

/-- **The padding is less than `2 ^ alignment`, or what is left is large.** -/
theorem placedPad_lt_or_room (h63 : size + 2 ^ alignment < 2 ^ 63) (hr : r.size < 2 ^ 64) :
    placedPad size alignment r ≤ 2 ^ alignment - 1 ∨
      size + placedPad size alignment r + regionHeader ≤ r.size := by
  have hhigh := highPad_lt r size alignment
  have hlow := lowPad_le r alignment
  by_cases hplaced : placedLow size alignment r
  · rw [placedPad, if_pos hplaced]
    have hless : leftOver r size (highPad r size alignment) <
        leftOver r size (lowPad r alignment) := hplaced
    rw [leftOver_eq hr (by omega), leftOver_eq hr (by omega)] at hless
    by_cases hlarge : r.size < 2 ^ 63 + (size + highPad r size alignment)
    · -- neither remainder wraps, so there is less padding at the low end
      left
      rw [if_pos hlarge] at hless
      split_ifs at hless <;> omega
    · right
      have hpow : 2 ^ alignment ≤ 2 ^ 62 := by
        apply Nat.pow_le_pow_right Nat.two_pos
        have hlt : 2 ^ alignment < 2 ^ 63 := by omega
        have := (Nat.pow_lt_pow_iff_right Nat.one_lt_two).1 hlt
        omega
      simp only [regionHeader]
      omega
  · left
    rw [placedPad, if_neg hplaced]
    omega

/-- What the bytes of the region become: the block, at most that much besides, and the rest. -/
theorem totalFree_placed (h63 : size + 2 ^ alignment < 2 ^ 63) (hr : r.size < 2 ^ 64)
    (hfit : size + placedPad size alignment r ≤ r.size) :
    totalFree (keep (placedRest size alignment r)) + size ≤ r.size ∧
      r.size ≤ totalFree (keep (placedRest size alignment r)) + size + (2 ^ alignment - 1) +
        (regionHeader - 1) := by
  obtain ⟨hle, hge, hroom⟩ := totalFree_keep (placedRest size alignment r)
  have hsize :
      (placedRest size alignment r).size = r.size - (size + placedPad size alignment r) := by
    unfold placedRest placedPad
    split_ifs
    · rfl
    · rfl
  have hpad := placedPad_le size alignment r
  rw [hsize] at hle hge hroom
  simp only [regionHeader] at hge hroom ⊢
  rcases placedPad_lt_or_room h63 hr with hless | hlarge
  · omega
  · have hexact := hroom (by simp only [regionHeader] at hlarge; omega)
    omega

/-- A block of at least one byte changes its region. -/
theorem placedRest_ne (hpos : 0 < size) (hfit : size + placedPad size alignment r ≤ r.size) :
    placedRest size alignment r ≠ r := by
  intro heq
  have hsize := congrArg Region.size heq
  unfold placedPad at hfit
  unfold placedRest at hsize
  split_ifs at hfit hsize <;> simp only at hsize <;> omega

theorem keep_eq_toList (r : Region) :
    ∃ left : Option Region, keep r = left.toList ∧ (left = some r ∨ left = none) := by
  by_cases hsmall : r.size < regionHeader
  · exact ⟨none, keep_of_lt hsmall, .inr rfl⟩
  · exact ⟨some r, keep_of_le (Nat.not_lt.1 hsmall), .inl rfl⟩

/-! ## The whole allocation -/

/-- **What an allocation costs.** When it does not fail, at most one region changes, and one does
unless the block is empty; the total drops by the size, and by less than `2 ^ alignment` and a node
besides. -/
theorem bootAlloc_total (h : Represents s fl) (h63 : size + 2 ^ alignment < 2 ^ 63)
    (hfuel : fl.regions.length < fuel) :
    ∃ p s', bootAlloc fuel s size alignment = .ok (p, s') ∧ (p ≠ NULL →
      ∃ fl', Represents s' fl' ∧
        (ChangesOne fl.regions fl'.regions ∨ size = 0 ∧ fl'.regions = fl.regions) ∧
        totalFree fl'.regions + size ≤ totalFree fl.regions ∧
        totalFree fl.regions ≤
          totalFree fl'.regions + size + (2 ^ alignment - 1) + (regionHeader - 1)) := by
  have halign := alignment_lt h63
  have hsize := request_lt h63
  cases hbest : bestFit size alignment fl.regions with
  | none =>
    refine ⟨NULL, s, ?_, fun hp => absurd rfl hp⟩
    rw [bootAlloc_eq (by omega) halign h hfuel, hbest]
  | some r =>
    have hmem := (mem_of_bestFit hbest).1
    obtain ⟨pre, post, hsplit⟩ := List.append_of_mem hmem
    have hfit := fits_of_bestFit fl.layout h63 hbest
    obtain ⟨s', hs', hseg⟩ := bootAlloc_placed halign h hfuel hbest hfit hsplit
    have hL := fl.layout
    rw [hsplit] at hL
    obtain ⟨htake, hdrop⟩ := totalFree_placed h63 (fl.layout.size_lt hmem) hfit
    refine ⟨_, s', hs', fun _ => ⟨⟨_, hL.placed hfit⟩, hseg, ?_, ?_, ?_⟩⟩
    · obtain ⟨left, hkeep, hleft⟩ := keep_eq_toList (placedRest size alignment r)
      simp only [hsplit, hkeep]
      by_cases hchange : left = some r
      · right
        have hrest : placedRest size alignment r = r :=
          Option.some.inj ((hleft.resolve_right (by simp [hchange])).symm.trans hchange)
        refine ⟨?_, by simp [hchange]⟩
        by_contra hpos
        exact placedRest_ne (Nat.pos_of_ne_zero hpos) hfit hrest
      · exact .inl ⟨pre, r, post, left, rfl, rfl, hchange⟩
    all_goals
      simp only [hsplit, totalFree_append, totalFree_cons]
      omega

/-- A block off the high end of the first of two pages. -/
theorem bootAlloc_total_twoPages : ∃ s' fl',
    bootAlloc 3 twoPages.machine 0x100 8 = .ok (0x1f00, s') ∧ Represents s' fl' ∧
      (ChangesOne twoPages.regions fl'.regions ∨
        0x100 = 0 ∧ fl'.regions = twoPages.regions) ∧
      totalFree fl'.regions + 0x100 ≤ totalFree twoPages.regions ∧
      totalFree twoPages.regions ≤
        totalFree fl'.regions + 0x100 + (2 ^ 8 - 1) + (regionHeader - 1) := by
  have h63 : 0x100 + 2 ^ 8 < 2 ^ 63 := by decide
  have hfuel : twoPages.regions.length < 3 := by decide
  obtain ⟨p, s', hrun, htotal⟩ := bootAlloc_total (represents_machine twoPages) h63 hfuel
  have hp : (bootAlloc 3 twoPages.machine 0x100 8).map Prod.fst = .ok 0x1f00 := by rfl
  rw [hrun] at hp
  obtain rfl : p = 0x1f00 := Except.ok.inj hp
  obtain ⟨fl', hall⟩ := htotal (by decide)
  exact ⟨s', fl', hrun, hall⟩

/-! ## A block of no bytes -/

/-- A successful allocation of no bytes that changes no region. -/
theorem bootAlloc_nothing : ∃ s', bootAlloc 3 twoPages.machine 0 0 = .ok (0x2000, s') ∧
    ¬ ∃ fl', Represents s' fl' ∧ ChangesOne twoPages.regions fl'.regions := by
  have hbest : bestFit 0 0 twoPages.regions = some ⟨0x1000, 0x1000⟩ := by decide
  have hsplit : twoPages.regions = [] ++ ⟨0x1000, 0x1000⟩ :: [⟨0x8000, 0x1000⟩] := rfl
  have hfuel : twoPages.regions.length < 3 := by decide
  obtain ⟨s', hrun, hseg⟩ :=
    bootAlloc_placed (by decide) (represents_machine twoPages) hfuel hbest (by decide) hsplit
  refine ⟨s', hrun, ?_⟩
  rintro ⟨fl', h', hchange⟩
  have hsame : Represents s' twoPages := hseg
  rw [← hsame.unique h'] at hchange
  exact not_changesOne_self _ hchange

end RiscyOs
