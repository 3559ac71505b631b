import Mathlib.Order.Bounds.Basic
import RiscyOs.Boot.BestFit

/-!
# Completeness and optimality of `boot_alloc`

The code tries the two ends of each region only. At the high end it computes the least padding;
at the low end of a region that starts aligned it takes a whole `2 ^ alignment` where none is
needed.

* `zero_le_greater_iff`: a region is considered exactly when it has room for an aligned block.
* `bootAlloc_null_iff`: so `boot_alloc` fails only when there is no such region.
* `misjudged_iff`: the regions of which the code computes another remainder than the true one.
* `bootAlloc_optimal_iff`: it makes the best choice for the true padding exactly when each of them
  loses against another region.
-/

namespace RiscyOs

open ByteMemory

variable {s : Machine} {fl : FreeList} {r : Region} {rs : List Region} {size alignment fuel : Nat}

/-! ## Padding -/

theorem isLeast_padding {m : Nat} (hm : 0 < m) (x : Nat) :
    IsLeast {u | m ∣ x + u} ((m - x % m) % m) := by
  have hlt := Nat.mod_lt x hm
  have hdiv := Nat.div_add_mod x m
  by_cases hx : x % m = 0
  · rw [hx, Nat.sub_zero, Nat.mod_self]
    exact ⟨Nat.dvd_of_mod_eq_zero hx, fun u _ => Nat.zero_le u⟩
  · rw [Nat.mod_eq_of_lt (by omega)]
    constructor
    · refine ⟨x / m + 1, ?_⟩
      rw [Nat.mul_add]
      omega
    · intro u hu
      by_contra hsmall
      -- `x + u` is between two neighbouring multiples of `m`
      obtain ⟨k, hk⟩ := hu
      have hlo : m * (x / m) < m * k := by omega
      have hhi : m * k < m * (x / m + 1) := by
        rw [Nat.mul_add]
        omega
      have := Nat.lt_of_mul_lt_mul_left hlo
      have := Nat.lt_of_mul_lt_mul_left hhi
      omega

theorem isLeast_remainder {m : Nat} (hm : 0 < m) (x : Int) :
    IsLeast {u : Nat | (m : Int) ∣ x - u} (x % m).toNat := by
  have hm' : (m : Int) ≠ 0 := by omega
  have hnonneg := Int.emod_nonneg x hm'
  constructor
  · show (m : Int) ∣ x - (x % m).toNat
    rw [Int.toNat_of_nonneg hnonneg]
    exact Int.dvd_self_sub_emod
  · intro u hu
    by_contra hsmall
    -- a smaller `u` leaves a positive multiple of `m` below `m`
    have hdvd : (m : Int) ∣ x % m - u := by
      rw [show x % m - u = (x - u) - (x - x % m) by omega]
      exact Int.dvd_sub hu Int.dvd_self_sub_emod
    have hle := Int.le_of_dvd (by omega) hdvd
    have := Int.emod_lt_of_pos x (show (0 : Int) < m by omega)
    omega

/-- The padding that a block at the low end of `r` needs. -/
def lowSlack (r : Region) (alignment : Nat) : Nat :=
  (2 ^ alignment - r.addr % 2 ^ alignment) % 2 ^ alignment

theorem lowSlack_isLeast (r : Region) (alignment : Nat) :
    IsLeast {u | 2 ^ alignment ∣ r.addr + u} (lowSlack r alignment) :=
  isLeast_padding (Nat.two_pow_pos alignment) r.addr

/-- The code pads too much only below a block in a region that starts aligned. -/
theorem lowPad_eq_slack (r : Region) (alignment : Nat) :
    lowPad r alignment =
      if 2 ^ alignment ∣ r.addr then 2 ^ alignment else lowSlack r alignment := by
  have hlt := Nat.mod_lt r.addr (Nat.two_pow_pos alignment)
  rw [lowPad]
  split_ifs with halign
  · rw [Nat.mod_eq_zero_of_dvd halign, Nat.sub_zero]
  · have hne : r.addr % 2 ^ alignment ≠ 0 := fun h => halign (Nat.dvd_of_mod_eq_zero h)
    rw [lowSlack, Nat.mod_eq_of_lt (Nat.sub_lt (Nat.two_pow_pos alignment) (by omega))]

theorem lowSlack_eq_zero (h : 2 ^ alignment ∣ r.addr) : lowSlack r alignment = 0 := by
  rw [lowSlack, Nat.mod_eq_zero_of_dvd h, Nat.sub_zero, Nat.mod_self]

/-- The padding the code computes at the high end is the least one. -/
theorem highPad_isLeast (halign : alignment < 64) (hsize : size ≤ 2 ^ 64) :
    IsLeast {u : Nat | ((2 ^ alignment : Nat) : Int) ∣ (r.stop : Int) - size - u}
      (highPad r size alignment) := by
  have hpow : ((2 ^ alignment : Nat) : Int) ∣ (2 ^ 64 : Nat) :=
    Int.natCast_dvd_natCast.2 (pow_dvd_pow 2 halign.le)
  have heq : ((highPad r size alignment : Nat) : Int) =
      ((r.stop : Int) - size) % (2 ^ alignment : Nat) := by
    rw [highPad, Int.natCast_mod, Nat.cast_sub (by omega), Nat.cast_add,
      show (r.stop : Int) + (2 ^ 64 : Nat) - size = (r.stop : Int) - size + (2 ^ 64 : Nat) by omega,
      Int.add_emod, Int.emod_eq_zero_of_dvd hpow, Int.add_zero, Int.emod_emod_of_dvd _ dvd_rfl]
  have hleast := isLeast_remainder (Nat.two_pow_pos alignment) ((r.stop : Int) - size)
  rwa [← heq, Int.toNat_natCast] at hleast

theorem highPad_eq_zero_iff (halign : alignment < 64) (hsize : size ≤ r.stop) :
    highPad r size alignment = 0 ↔ 2 ^ alignment ∣ r.stop - size := by
  have hpow : 2 ^ alignment ∣ 2 ^ 64 := pow_dvd_pow 2 halign.le
  rw [highPad, Nat.sub_add_comm hsize, ← Nat.dvd_iff_mod_eq_zero]
  exact (Nat.dvd_add_iff_left hpow).symm

/-! ## Completeness -/

/-- The region has room for an aligned block. -/
def HasBlock (r : Region) (size alignment : Nat) : Prop :=
  ∃ p, 2 ^ alignment ∣ p ∧ r.addr ≤ p ∧ p + size ≤ r.stop

/-- The highest aligned address is enough. -/
theorem hasBlock_iff (halign : alignment < 64) (hsize : size < 2 ^ 64) :
    HasBlock r size alignment ↔ size + highPad r size alignment ≤ r.size := by
  constructor
  · intro ⟨p, hp, hlo, hhi⟩
    -- the padding is at most the distance of `p` from the highest address for a block
    have hmem : r.stop - size - p ∈
        {u : Nat | ((2 ^ alignment : Nat) : Int) ∣ (r.stop : Int) - size - u} := by
      show ((2 ^ alignment : Nat) : Int) ∣ (r.stop : Int) - size - (r.stop - size - p : Nat)
      rw [show (r.stop : Int) - size - (r.stop - size - p : Nat) = p by omega]
      exact Int.natCast_dvd_natCast.2 hp
    have hle := (highPad_isLeast halign hsize.le).2 hmem
    simp only [Region.stop] at hhi hle
    omega
  · intro hfit
    refine ⟨_, highPad_aligned halign hfit, by omega, ?_⟩
    simp only [Region.stop]
    omega

/-- A block that fits where the code places it is an aligned block of the region. -/
theorem placedBlock_spec (halign : alignment < 64)
    (hfit : size + placedPad size alignment r ≤ r.size) :
    2 ^ alignment ∣ placedBlock size alignment r ∧ r.addr ≤ placedBlock size alignment r ∧
      placedBlock size alignment r + size ≤ r.stop := by
  have hstop : r.stop = r.addr + r.size := rfl
  unfold placedPad at hfit
  unfold placedBlock
  split_ifs at hfit ⊢
  · exact ⟨lowPad_aligned r alignment, by omega, by omega⟩
  · exact ⟨highPad_aligned halign hfit, by omega, by omega⟩

theorem greater_of_small (h63 : size + 2 ^ alignment < 2 ^ 63) (hr : r.size < 2 ^ 63) :
    greater size alignment r = (r.size : Int) - (size + placedPad size alignment r : Nat) := by
  have hpad := placedPad_le size alignment r
  rw [greater_eq_placed, leftOver_eq_of_small hr (by omega)]

/-- **A region is considered exactly when it has room for an aligned block.** -/
theorem zero_le_greater_iff (h63 : size + 2 ^ alignment < 2 ^ 63) (hr : r.size < 2 ^ 63) :
    0 ≤ greater size alignment r ↔ HasBlock r size alignment := by
  have halign := alignment_lt h63
  constructor
  · intro hnonneg
    rw [greater_of_small h63 hr] at hnonneg
    exact ⟨_, placedBlock_spec halign (by omega)⟩
  · intro hblock
    have hpad := highPad_lt r size alignment
    have hsize : size < 2 ^ 64 := by omega
    have hfit := (hasBlock_iff halign hsize).1 hblock
    have hafter : leftAfter size alignment r = _ := leftOver_eq_of_small hr (by omega)
    apply le_max_of_le_left
    rw [hafter]
    omega

/-- **`boot_alloc` fails exactly when no region has room for an aligned block**, and then changes
nothing. -/
theorem bootAlloc_null_iff (h : WellFormed s fl) (h63 : size + 2 ^ alignment < 2 ^ 63)
    (hfuel : fl.regions.length < fuel) :
    ∃ p s', bootAlloc fuel s size alignment = .ok (p, s') ∧
      (p = NULL ↔ ¬ ∃ r ∈ fl.regions, ∃ q, 2 ^ alignment ∣ q ∧ r.addr ≤ q ∧ q + size ≤ r.stop) ∧
      (p = NULL → s' = s) := by
  have halign := alignment_lt h63
  have hsize : size ≤ 2 ^ 64 := by
    have := request_lt h63
    omega
  cases hbest : bestFit size alignment fl.regions with
  | none =>
    have hnone : ¬ ∃ r ∈ fl.regions, HasBlock r size alignment := by
      intro ⟨r, hr, hblock⟩
      exact leastLeft_eq_none.1 hbest r hr ((zero_le_greater_iff h63 (h.small r hr)).2 hblock)
    refine ⟨NULL, s, ?_, iff_of_true rfl hnone, fun _ => rfl⟩
    rw [bootAlloc_eq hsize halign h.represents hfuel, hbest]
  | some r =>
    obtain ⟨hmem, hnonneg⟩ := mem_of_bestFit hbest
    obtain ⟨pre, post, hsplit⟩ := List.append_of_mem hmem
    have hfit := fits_of_bestFit fl.layout h63 hbest
    obtain ⟨s', hs', -⟩ := bootAlloc_placed halign h.represents hfuel hbest hfit hsplit
    have hpos : placedBlock size alignment r ≠ NULL :=
      ((fl.layout.nonnull r hmem).trans_le (placedBlock_spec halign hfit).2.1).ne'
    have hblock : ∃ r ∈ fl.regions, HasBlock r size alignment :=
      ⟨r, hmem, (zero_le_greater_iff h63 (h.small r hmem)).1 hnonneg⟩
    exact ⟨_, s', hs', iff_of_false hpos (not_not.2 hblock), fun hnull => absurd hnull hpos⟩

/-- A request on `twoPages` that fails, though it is smaller than a page. -/
theorem bootAlloc_null_iff_twoPages :
    ∃ p s', bootAlloc 3 twoPages.machine 0x800 13 = .ok (p, s') ∧
      (p = NULL ↔ ¬ ∃ r ∈ twoPages.regions, ∃ q, 2 ^ 13 ∣ q ∧ r.addr ≤ q ∧ q + 0x800 ≤ r.stop) ∧
      (p = NULL → s' = twoPages.machine) :=
  bootAlloc_null_iff ⟨represents_machine twoPages, by decide⟩ (by decide) (by decide)

/-! ## Optimality -/

/-- The padding that a block needs at the low or at the high end. -/
def truePad (size alignment : Nat) (r : Region) (low : Bool) : Nat :=
  if low then lowSlack r alignment else highPad r size alignment

@[simp] theorem truePad_low (size alignment : Nat) (r : Region) :
    truePad size alignment r true = lowSlack r alignment := if_pos rfl

@[simp] theorem truePad_high (size alignment : Nat) (r : Region) :
    truePad size alignment r false = highPad r size alignment := if_neg Bool.false_ne_true

/-- What remains of the region. -/
def trueLeft (size alignment : Nat) (r : Region) (low : Bool) : Int :=
  (r.size : Int) - (size + truePad size alignment r low : Nat)

/-- The larger of the two remainders. -/
def trueGreater (size alignment : Nat) (r : Region) : Int :=
  max (trueLeft size alignment r false) (trueLeft size alignment r true)

/-- The region with the smallest such remainder. -/
def trueBest (size alignment : Nat) (rs : List Region) : Option Region :=
  leastLeft (trueGreater size alignment) rs

/-- The block at the low or at the high end. -/
def trueBlock (size alignment : Nat) (r : Region) (low : Bool) : Nat :=
  if low then r.addr + truePad size alignment r low
  else r.addr + (r.size - (size + truePad size alignment r low))

/-- What is left of the region. -/
def trueRest (size alignment : Nat) (r : Region) (low : Bool) : Region :=
  if low then
    ⟨r.addr + (size + truePad size alignment r low), r.size - (size + truePad size alignment r low)⟩
  else ⟨r.addr, r.size - (size + truePad size alignment r low)⟩

/-- `boot_alloc` picks the best region and an end that leaves the larger remainder, and takes the
block from there. -/
def AllocatesBest (fuel : Nat) (s : Machine) (fl : FreeList) (size alignment : Nat) : Prop :=
  ∃ fit p s', bootAllocScan fuel s size alignment (bootFreeListBegin s) ⟨NULL, 2 ^ 64 - 1, false⟩ =
      .ok fit ∧ bootAlloc fuel s size alignment = .ok (p, s') ∧
    match trueBest size alignment fl.regions with
    | none => p = NULL ∧ s' = s
    | some r =>
      fit.smallestFitting = r.addr ∧
        trueLeft size alignment r fit.shouldAllocBefore = trueGreater size alignment r ∧
        p = trueBlock size alignment r fit.shouldAllocBefore ∧
        ∃ pre post, fl.regions = pre ++ r :: post ∧ Seg s'.mem NULL s'.bootFreeList
          (pre ++ (keep (trueRest size alignment r fit.shouldAllocBefore) ++ post)) NULL

/-- The padding at the low end is the one that is too large, and the high end needs some. -/
def Wasteful (size alignment : Nat) (r : Region) : Prop :=
  2 ^ alignment ∣ r.addr ∧ ¬ 2 ^ alignment ∣ r.stop - size

/-- The code computes a remainder that is too small: it wastes the low end, or the remainder is so
large that it looks negative. -/
def Misjudged (size alignment : Nat) (r : Region) : Prop :=
  Wasteful size alignment r ∨ 2 ^ 63 ≤ trueGreater size alignment r

/-! ### What the code computes and what is true -/

/-- The code never computes too much. -/
theorem leftOver_le_true {pad : Nat} {low : Bool} (hr : r.size < 2 ^ 64)
    (h63 : size + pad < 2 ^ 63) (hpad : truePad size alignment r low ≤ pad) :
    leftOver r size pad ≤ trueLeft size alignment r low := by
  rw [leftOver_eq hr h63, trueLeft]
  split_ifs <;> omega

theorem lowSlack_le (r : Region) (alignment : Nat) : lowSlack r alignment ≤ lowPad r alignment :=
  (lowSlack_isLeast r alignment).2 (lowPad_aligned r alignment)

theorem greater_le_true (h63 : size + 2 ^ alignment < 2 ^ 63) (hr : r.size < 2 ^ 64) :
    greater size alignment r ≤ trueGreater size alignment r := by
  have hhigh := highPad_lt r size alignment
  have hlow := lowPad_le r alignment
  apply max_le_max
  · exact leftOver_le_true hr (by omega) (truePad_high size alignment r).le
  · exact leftOver_le_true hr (by omega) (lowSlack_le r alignment)

theorem leftOver_eq_true {low : Bool} (hr : r.size < 2 ^ 64)
    (h63 : size + truePad size alignment r low < 2 ^ 63)
    (hleft : trueLeft size alignment r low < 2 ^ 63) :
    leftOver r size (truePad size alignment r low) = trueLeft size alignment r low := by
  rw [leftOver_eq hr h63, if_pos, trueLeft]
  rw [trueLeft] at hleft
  omega

theorem leftAfter_eq_true (h63 : size + 2 ^ alignment < 2 ^ 63) (hr : r.size < 2 ^ 64)
    (hleft : trueLeft size alignment r false < 2 ^ 63) :
    leftAfter size alignment r = trueLeft size alignment r false := by
  have hpad := highPad_lt r size alignment
  rw [leftAfter, ← truePad_high size alignment r]
  apply leftOver_eq_true hr _ hleft
  rw [truePad_high]
  omega

/-- A region fits for the true padding exactly when it has room. -/
theorem zero_le_trueGreater_iff (h63 : size + 2 ^ alignment < 2 ^ 63) :
    0 ≤ trueGreater size alignment r ↔ HasBlock r size alignment := by
  have halign := alignment_lt h63
  have hpos := Nat.two_pow_pos alignment
  have hsize : size < 2 ^ 64 := by omega
  have hstop : r.stop = r.addr + r.size := rfl
  constructor
  · intro hnonneg
    rcases le_max_iff.1 hnonneg with hhigh | hlow
    · refine (hasBlock_iff halign hsize).2 ?_
      rw [trueLeft, truePad_high] at hhigh
      omega
    · rw [trueLeft, truePad_low] at hlow
      exact ⟨_, (lowSlack_isLeast r alignment).1, by omega, by omega⟩
  · intro hblock
    have hfit := (hasBlock_iff halign hsize).1 hblock
    apply le_max_of_le_left
    rw [trueLeft, truePad_high]
    omega

/-- The code finds no room where there is some only when a large remainder looks negative. -/
theorem large_of_greater_neg (h63 : size + 2 ^ alignment < 2 ^ 63) (hr : r.size < 2 ^ 64)
    (hnonneg : 0 ≤ trueGreater size alignment r) (hneg : greater size alignment r < 0) :
    2 ^ 63 ≤ trueGreater size alignment r := by
  have hpad := highPad_lt r size alignment
  have hsize : size < 2 ^ 64 := by omega
  have hfit := (hasBlock_iff (alignment_lt h63) hsize).1 ((zero_le_trueGreater_iff h63).1 hnonneg)
  by_contra hsmall
  have hlarge : trueLeft size alignment r false < 2 ^ 63 :=
    (le_max_left _ _).trans_lt (not_le.1 hsmall)
  have hafter := leftAfter_eq_true h63 hr hlarge
  have hle := le_max_left (leftAfter size alignment r) (leftBefore size alignment r)
  rw [trueLeft, truePad_high] at hafter
  change leftAfter size alignment r ≤ greater size alignment r at hle
  omega

/-- Where the block is placed, the code knows how much is left. -/
theorem greater_of_nonneg (h63 : size + 2 ^ alignment < 2 ^ 63) (hr : r.size < 2 ^ 64)
    (hnonneg : 0 ≤ greater size alignment r) :
    size + placedPad size alignment r ≤ r.size ∧
      greater size alignment r = (r.size : Int) - (size + placedPad size alignment r : Nat) := by
  have hpad := placedPad_le size alignment r
  have hsum : size + placedPad size alignment r < 2 ^ 63 := by omega
  rw [greater_eq_placed] at hnonneg ⊢
  have hfit := fits_of_leftOver_nonneg hsum hr hnonneg
  refine ⟨hfit, ?_⟩
  rw [leftOver_eq hr hsum] at hnonneg ⊢
  split_ifs at hnonneg ⊢
  · rfl
  · omega

/-- Where the code is right about the remainder, it is right about the padding. -/
theorem placedPad_eq_true (h63 : size + 2 ^ alignment < 2 ^ 63) (hr : r.size < 2 ^ 64)
    (hnonneg : 0 ≤ greater size alignment r)
    (heq : greater size alignment r = trueGreater size alignment r) :
    placedPad size alignment r = truePad size alignment r (decide (placedLow size alignment r)) ∧
      trueLeft size alignment r (decide (placedLow size alignment r)) =
        trueGreater size alignment r := by
  obtain ⟨hfit, hleft⟩ := greater_of_nonneg h63 hr hnonneg
  have hpad : truePad size alignment r (decide (placedLow size alignment r)) ≤
      placedPad size alignment r := by
    by_cases hlow : placedLow size alignment r
    · rw [placedPad, if_pos hlow, decide_eq_true hlow, truePad_low]
      exact lowSlack_le r alignment
    · rw [placedPad, if_neg hlow, decide_eq_false hlow, truePad_high]
  have hmax : trueLeft size alignment r (decide (placedLow size alignment r)) ≤
      trueGreater size alignment r := by
    cases decide (placedLow size alignment r)
    · exact le_max_left _ _
    · exact le_max_right _ _
  rw [trueLeft] at hmax ⊢
  omega

theorem highPad_eq_zero_iff_of_room (halign : alignment < 64) (hblock : HasBlock r size alignment) :
    highPad r size alignment = 0 ↔ 2 ^ alignment ∣ r.stop - size := by
  obtain ⟨p, -, -, hp⟩ := hblock
  exact highPad_eq_zero_iff halign (by omega)

theorem greater_ne_true (h63 : size + 2 ^ alignment < 2 ^ 63) (hr : r.size < 2 ^ 64)
    (hblock : HasBlock r size alignment) (hwaste : Wasteful size alignment r) :
    greater size alignment r ≠ trueGreater size alignment r := by
  intro heq
  obtain ⟨haligned, hunaligned⟩ := hwaste
  have hpos := Nat.two_pow_pos alignment
  have hnone := lowSlack_eq_zero haligned
  have hnonneg : 0 ≤ greater size alignment r := heq ▸ (zero_le_trueGreater_iff h63).2 hblock
  obtain ⟨hpad, hleft⟩ := placedPad_eq_true h63 hr hnonneg heq
  by_cases hlow : placedLow size alignment r
  · have hslack := lowPad_eq_slack r alignment
    rw [if_pos haligned] at hslack
    rw [placedPad, if_pos hlow, decide_eq_true hlow, truePad_low] at hpad
    omega
  · rw [decide_eq_false hlow] at hleft
    have hle : trueLeft size alignment r true ≤ trueLeft size alignment r false :=
      hleft ▸ le_max_right _ _
    rw [trueLeft, trueLeft, truePad_low, truePad_high] at hle
    exact hunaligned ((highPad_eq_zero_iff_of_room (alignment_lt h63) hblock).1 (by omega))

theorem greater_eq_true (h63 : size + 2 ^ alignment < 2 ^ 63) (hr : r.size < 2 ^ 64)
    (hblock : HasBlock r size alignment) (hplain : ¬ Misjudged size alignment r) :
    greater size alignment r = trueGreater size alignment r := by
  obtain ⟨hwaste, hlarge⟩ := not_or.1 hplain
  have hleft : ∀ low, trueLeft size alignment r low < 2 ^ 63 := by
    intro low
    apply lt_of_le_of_lt _ (not_le.1 hlarge)
    cases low
    · exact le_max_left _ _
    · exact le_max_right _ _
  have hafter := leftAfter_eq_true h63 hr (hleft false)
  by_cases haligned : 2 ^ alignment ∣ r.addr
  · have hnone : highPad r size alignment = 0 :=
      (highPad_eq_zero_iff_of_room (alignment_lt h63) hblock).2
        (by_contra fun h => hwaste ⟨haligned, h⟩)
    -- both ends leave the same, and the code is right about the high one
    have hsame : trueGreater size alignment r = trueLeft size alignment r false := by
      rw [trueGreater, trueLeft, trueLeft, truePad_low, truePad_high, hnone,
        lowSlack_eq_zero haligned, max_self]
    apply le_antisymm (greater_le_true h63 hr)
    rw [hsame, ← hafter]
    exact le_max_left _ _
  · have hslack := lowPad_eq_slack r alignment
    have hle := lowPad_le r alignment
    rw [if_neg haligned] at hslack
    have hbefore : leftBefore size alignment r = trueLeft size alignment r true := by
      rw [leftBefore, hslack, ← truePad_low size alignment r]
      apply leftOver_eq_true hr _ (hleft true)
      rw [truePad_low]
      omega
    exact congrArg₂ max hafter hbefore

/-- The regions of which the code computes another remainder than the true one. -/
theorem misjudged_iff (h63 : size + 2 ^ alignment < 2 ^ 63) (hr : r.size < 2 ^ 64)
    (hblock : HasBlock r size alignment) :
    Misjudged size alignment r ↔ greater size alignment r ≠ trueGreater size alignment r := by
  constructor
  · rintro (hwaste | hlarge)
    · exact greater_ne_true h63 hr hblock hwaste
    · exact fun heq => (greater_lt size alignment r).not_ge (heq ▸ hlarge)
  · intro hne
    by_contra hplain
    exact hne (greater_eq_true h63 hr hblock hplain)

/-- What a region that the code considers is to the true choice. -/
theorem hasBlock_of_greater (h63 : size + 2 ^ alignment < 2 ^ 63) (hr : r.size < 2 ^ 64)
    (hnonneg : 0 ≤ greater size alignment r) : HasBlock r size alignment :=
  (zero_le_trueGreater_iff h63).1 (hnonneg.trans (greater_le_true h63 hr))

/-- A best fit whose remainder the code knows is the true best. -/
theorem trueBest_of_bestFit (h63 : size + 2 ^ alignment < 2 ^ 63) (hL : Layout rs)
    (hbest : bestFit size alignment rs = some r)
    (heq : greater size alignment r = trueGreater size alignment r) :
    trueBest size alignment rs = some r := by
  obtain ⟨⟨hmem, hnonneg⟩, hfirst⟩ := (leastLeft_eq_some_iff hL).1 hbest
  refine (leastLeft_eq_some_iff hL).2 ⟨⟨hmem, heq ▸ hnonneg⟩, ?_⟩
  intro c hc hroom hbeats
  have hlt := greater_lt size alignment r
  have hle := greater_le_true h63 (hL.size_lt hc)
  by_cases hseen : 0 ≤ greater size alignment c
  · apply hfirst c hc hseen
    unfold Beats at hbeats ⊢
    omega
  · have hlarge := large_of_greater_neg h63 (hL.size_lt hc) hroom (not_le.1 hseen)
    unfold Beats at hbeats
    omega

/-- The code pads as it should exactly when the block is where it should be. -/
theorem placedBlock_eq_iff (size alignment : Nat) (r : Region) :
    placedBlock size alignment r =
        trueBlock size alignment r (decide (placedLow size alignment r)) ↔
      placedPad size alignment r =
        truePad size alignment r (decide (placedLow size alignment r)) := by
  by_cases hlow : placedLow size alignment r
  · rw [placedBlock, placedPad, if_pos hlow, if_pos hlow, decide_eq_true hlow, trueBlock,
      if_pos rfl]
    exact Nat.add_left_cancel_iff
  · rw [placedBlock, placedPad, if_neg hlow, if_neg hlow, decide_eq_false hlow, trueBlock,
      if_neg Bool.false_ne_true, truePad_high]
    exact iff_of_true rfl rfl

theorem placedRest_eq (hpad : placedPad size alignment r =
      truePad size alignment r (decide (placedLow size alignment r))) :
    placedRest size alignment r =
      trueRest size alignment r (decide (placedLow size alignment r)) := by
  by_cases hlow : placedLow size alignment r
  · rw [placedPad, if_pos hlow, decide_eq_true hlow] at hpad
    rw [placedRest, if_pos hlow, decide_eq_true hlow, trueRest, if_pos rfl, ← hpad]
  · rw [placedRest, if_neg hlow, decide_eq_false hlow, trueRest, if_neg Bool.false_ne_true,
      truePad_high]

/-- A best fit where the code is wrong about the remainder is not the best allocation. -/
theorem not_allocatesBest (h : Represents s fl) (h63 : size + 2 ^ alignment < 2 ^ 63)
    (hfuel : fl.regions.length < fuel) (hbest : bestFit size alignment fl.regions = some r)
    (hne : greater size alignment r ≠ trueGreater size alignment r) :
    ¬ AllocatesBest fuel s fl size alignment := by
  have halign := alignment_lt h63
  have hpos := Nat.two_pow_pos alignment
  obtain ⟨hmem, hnonneg⟩ := mem_of_bestFit hbest
  have hr := fl.layout.size_lt hmem
  obtain ⟨hfit, hleft⟩ := greater_of_nonneg h63 hr hnonneg
  obtain ⟨pre, post, hsplit⟩ := List.append_of_mem hmem
  obtain ⟨s₁, hs₁, -⟩ := bootAlloc_placed halign h hfuel hbest hfit hsplit
  rintro ⟨fit, p, s', hscan, hrun, hspec⟩
  rw [bootAllocScan_bestFit (by omega) halign h hfuel, hbest] at hscan
  obtain rfl := Except.ok.inj hscan
  obtain ⟨rfl, -⟩ := Prod.mk.inj (Except.ok.inj (hs₁.symm.trans hrun))
  cases htrue : trueBest size alignment fl.regions with
  | none =>
    exact leastLeft_eq_none.1 htrue r hmem (hnonneg.trans (greater_le_true h63 hr))
  | some c =>
    rw [htrue] at hspec
    obtain ⟨haddr, hlarger, hblock, -⟩ := hspec
    obtain ⟨hc, -⟩ := mem_fitting.1 (List.argmin_mem htrue)
    obtain rfl := fl.layout.eq_of_addr_eq hmem hc haddr
    -- the block is where it should be, so the padding is the true one
    have hpad := (placedBlock_eq_iff size alignment r).1 hblock
    rw [hpad] at hleft
    exact hne (hleft.trans hlarger)

/-- A best fit where the code is right about the remainder is the best allocation. -/
theorem allocatesBest (h : Represents s fl) (h63 : size + 2 ^ alignment < 2 ^ 63)
    (hfuel : fl.regions.length < fuel) (hbest : bestFit size alignment fl.regions = some r)
    (heq : greater size alignment r = trueGreater size alignment r) :
    AllocatesBest fuel s fl size alignment := by
  have halign := alignment_lt h63
  have hpos := Nat.two_pow_pos alignment
  obtain ⟨hmem, hnonneg⟩ := mem_of_bestFit hbest
  have hr := fl.layout.size_lt hmem
  obtain ⟨hfit, -⟩ := greater_of_nonneg h63 hr hnonneg
  obtain ⟨pre, post, hsplit⟩ := List.append_of_mem hmem
  obtain ⟨s', hs', hseg⟩ := bootAlloc_placed halign h hfuel hbest hfit hsplit
  obtain ⟨hpad, hleft⟩ := placedPad_eq_true h63 hr hnonneg heq
  have hsize : size ≤ 2 ^ 64 := by omega
  have hscan := bootAllocScan_bestFit hsize halign h hfuel
  rw [hbest] at hscan
  refine ⟨_, _, s', hscan, hs', ?_⟩
  rw [trueBest_of_bestFit h63 fl.layout hbest heq]
  rw [placedRest_eq hpad] at hseg
  exact ⟨rfl, hleft, (placedBlock_eq_iff size alignment r).2 hpad, pre, post, hsplit, hseg⟩

/-- Where the code considers no region, the allocation is the best one if none has room. -/
theorem allocatesBest_iff_of_none (h : Represents s fl) (h63 : size + 2 ^ alignment < 2 ^ 63)
    (hfuel : fl.regions.length < fuel) (hbest : bestFit size alignment fl.regions = none) :
    AllocatesBest fuel s fl size alignment ↔ ∀ r ∈ fl.regions, ¬ HasBlock r size alignment := by
  have halign := alignment_lt h63
  have hsize : size ≤ 2 ^ 64 := by
    have := request_lt h63
    omega
  have hscan := bootAllocScan_bestFit hsize halign h hfuel
  have hrun := bootAlloc_eq hsize halign h hfuel
  have htrue : trueBest size alignment fl.regions = none ↔
      ∀ r ∈ fl.regions, ¬ HasBlock r size alignment := by
    simp only [trueBest, leastLeft_eq_none, zero_le_trueGreater_iff h63]
  rw [hbest] at hscan hrun
  rw [← htrue]
  constructor
  · rintro ⟨fit, p, s', hfit, -, hspec⟩
    rw [hscan] at hfit
    obtain rfl := Except.ok.inj hfit
    cases hc : trueBest size alignment fl.regions with
    | none => rfl
    | some c =>
      rw [hc] at hspec
      exact absurd hspec.1 (fl.layout.nonnull c (mem_fitting.1 (List.argmin_mem hc)).1).ne
  · intro hnone
    refine ⟨_, _, _, hscan, hrun, ?_⟩
    rw [hnone]
    exact ⟨rfl, rfl⟩

/-- **When `boot_alloc` is best fit with true padding**: every region with room that the code
misjudges loses against another one. -/
theorem bootAlloc_optimal_iff (h : Represents s fl) (h63 : size + 2 ^ alignment < 2 ^ 63)
    (hfuel : fl.regions.length < fuel) :
    AllocatesBest fuel s fl size alignment ↔
      ∀ r ∈ fl.regions, HasBlock r size alignment → Misjudged size alignment r →
        ∃ c ∈ fl.regions, 0 ≤ greater size alignment c ∧
          (0 ≤ greater size alignment r → Beats (greater size alignment) c r) := by
  have hL := fl.layout
  cases hbest : bestFit size alignment fl.regions with
  | none =>
    have hnone := leastLeft_eq_none.1 hbest
    rw [allocatesBest_iff_of_none h h63 hfuel hbest]
    constructor
    · exact fun hnoRoom r hmem hblock => absurd hblock (hnoRoom r hmem)
    · intro hbeaten r hmem hblock
      have hroom := (zero_le_trueGreater_iff h63).2 hblock
      have hlarge := large_of_greater_neg h63 (hL.size_lt hmem) hroom (not_le.1 (hnone r hmem))
      obtain ⟨c, hc, hnonneg, -⟩ := hbeaten r hmem hblock (.inr hlarge)
      exact hnone c hc hnonneg
  | some r =>
    obtain ⟨⟨hmem, hnonneg⟩, hfirst⟩ := (leastLeft_eq_some_iff hL).1 hbest
    have hr := hL.size_lt hmem
    have hmis := misjudged_iff h63 hr (hasBlock_of_greater h63 hr hnonneg)
    constructor
    · intro halloc c hc hblock hwrong
      by_cases hcr : c = r
      · subst hcr
        exact absurd halloc (not_allocatesBest h h63 hfuel hbest (hmis.1 hwrong))
      · exact ⟨r, hmem, hnonneg, beats_of_leastLeft hL hbest hc hcr⟩
    · intro hbeaten
      apply allocatesBest h h63 hfuel hbest
      by_contra hne
      obtain ⟨c, hc, hseen, hbeats⟩ :=
        hbeaten r hmem (hasBlock_of_greater h63 hr hnonneg) (hmis.2 hne)
      exact hfirst c hc hseen (hbeats hnonneg)

/-- A request for a page from each of two pages. -/
theorem bootAlloc_optimal_iff_twoPages :
    AllocatesBest 3 twoPages.machine twoPages 0x1000 12 ↔
      ∀ r ∈ twoPages.regions, HasBlock r 0x1000 12 → Misjudged 0x1000 12 r →
        ∃ c ∈ twoPages.regions, 0 ≤ greater 0x1000 12 c ∧
          (0 ≤ greater 0x1000 12 r → Beats (greater 0x1000 12) c r) :=
  bootAlloc_optimal_iff (represents_machine twoPages) (by decide) (by decide)

/-- A region that starts at a page and ends in the middle of the next one. -/
def pageAndHalf : FreeList :=
  ⟨[⟨0x1000, 0x1800⟩], ⟨by simp, by decide, by decide, by decide⟩⟩

/-- A page taken from `pageAndHalf` leaves nothing of it: half a page is lost as padding. -/
theorem pageAndHalf_not_best : ¬ AllocatesBest 2 pageAndHalf.machine pageAndHalf 0x1000 12 := by
  have hbest : bestFit 0x1000 12 pageAndHalf.regions = some ⟨0x1000, 0x1800⟩ := by decide
  exact not_allocatesBest (represents_machine pageAndHalf) (by decide) (by decide) hbest (by decide)

end RiscyOs
