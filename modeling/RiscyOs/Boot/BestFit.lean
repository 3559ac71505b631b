import Mathlib.Data.List.MinMax
import RiscyOs.Boot.AllocRun

/-!
# Which region `boot_alloc` chooses

`greater` is the larger of the two remainders the code computes for a region, and `bestFit` the
first region with the smallest such remainder, among those where it is not negative.

* `bootAllocScan_bestFit`: the loop of `boot_alloc` finds `bestFit`.
* `leastLeft_eq_some_iff`: no region beats it.
* `bootAlloc_eq`: `boot_alloc` is one of the two placements, at `bestFit`.
* `bootAlloc_placed`: what it returns and leaves, when the block fits there.
* `zero_le_leftOver_iff`: when a remainder looks as if the block fits.
-/

namespace RiscyOs

open ByteMemory FuelLoop

variable {s : Machine} {fl : FreeList} {r : Region} {rs : List Region} {size alignment fuel : Nat}

/-! ## The choice -/

/-- The larger of the two remainders. -/
def greater (size alignment : Nat) (r : Region) : Int :=
  max (leftAfter size alignment r) (leftBefore size alignment r)

/-- The regions of which something remains, or nothing: the remainder is not negative. -/
def fitting (left : Region → Int) (rs : List Region) : List Region := rs.filter fun r => 0 ≤ left r

/-- The first of them with the smallest remainder. -/
def leastLeft (left : Region → Int) (rs : List Region) : Option Region :=
  -- the order is named so that the definition stays computable under any imports
  @List.argmin _ _ Int.instLinearOrder.toPreorder _ left (fitting left rs)

/-- The region with the smallest remainder, as the code computes it. -/
def bestFit (size alignment : Nat) (rs : List Region) : Option Region :=
  leastLeft (greater size alignment) rs

/-- Is the block taken off the low end of `r`? -/
def placedLow (size alignment : Nat) (r : Region) : Prop :=
  leftAfter size alignment r < leftBefore size alignment r

instance (size alignment : Nat) (r : Region) : Decidable (placedLow size alignment r) :=
  inferInstanceAs (Decidable (_ < _))

/-- The padding below or above the block, at the end where it is placed. -/
def placedPad (size alignment : Nat) (r : Region) : Nat :=
  if placedLow size alignment r then lowPad r alignment else highPad r size alignment

theorem leftOver_lt (r : Region) (size pad : Nat) : leftOver r size pad < 2 ^ 63 := by
  unfold leftOver ssub toSigned ofSigned
  split_ifs <;> omega

theorem greater_lt (size alignment : Nat) (r : Region) : greater size alignment r < 2 ^ 63 :=
  max_lt (leftOver_lt r size _) (leftOver_lt r size _)

theorem ofSigned_eq {i : Int} (h : 0 ≤ i) (hlt : i < 2 ^ 63) : (ofSigned i : Int) = i := by
  unfold ofSigned
  omega

/-- What the code knows about the choice. -/
def Fit.of (size alignment : Nat) : Option Region → Fit
  | none => ⟨NULL, 2 ^ 64 - 1, false⟩
  | some r => ⟨r.addr, ofSigned (greater size alignment r), placedLow size alignment r⟩

/-- One pass keeps the region with the smaller remainder. -/
theorem Fit.of_step {o : Option Region} (ho : ∀ c ∈ o, 0 ≤ greater size alignment c) (r : Region) :
    (Fit.of size alignment o).step size alignment r =
      Fit.of size alignment (if 0 ≤ greater size alignment r then
        List.argAux (fun b c => greater size alignment b < greater size alignment c) o r
      else o) := by
  have hgreater : (if leftAfter size alignment r > leftBefore size alignment r then
      leftAfter size alignment r else leftBefore size alignment r) = greater size alignment r := by
    unfold greater
    split_ifs <;> omega
  have hlow : decide (leftAfter size alignment r ≠ greater size alignment r) =
      decide (placedLow size alignment r) := by
    apply decide_eq_decide.2
    unfold greater placedLow
    omega
  have hlt := greater_lt size alignment r
  simp only [Fit.step, Fit.consider, hgreater, hlow]
  by_cases hfit : 0 ≤ greater size alignment r
  · have hword := ofSigned_eq hfit hlt
    rw [if_pos hfit]
    cases o with
    | none =>
      have hbest : 2 ^ 64 - 1 > ofSigned (greater size alignment r) := by omega
      exact if_pos ⟨hfit, hbest⟩
    | some c =>
      have hc := ofSigned_eq (ho c rfl) (greater_lt size alignment c)
      have hiff : ofSigned (greater size alignment c) > ofSigned (greater size alignment r) ↔
          greater size alignment r < greater size alignment c := by omega
      simp only [Fit.of, List.argAux, hfit, hiff, true_and]
      split_ifs
      · rfl
      · rfl
  · rw [if_neg fun h => hfit h.1, if_neg hfit]

theorem foldl_step_eq {o : Option Region} (ho : ∀ c ∈ o, 0 ≤ greater size alignment c) :
    rs.foldl (Fit.step size alignment) (Fit.of size alignment o) =
      Fit.of size alignment ((fitting (greater size alignment) rs).foldl
        (List.argAux fun b c => greater size alignment b < greater size alignment c) o) := by
  induction rs generalizing o with
  | nil => rfl
  | cons r rs ih =>
    rw [List.foldl_cons, Fit.of_step ho, fitting]
    by_cases hfit : 0 ≤ greater size alignment r
    · rw [if_pos hfit, List.filter_cons_of_pos (by simpa using hfit), List.foldl_cons]
      apply ih
      intro c hc
      cases o with
      | none =>
        obtain rfl := Option.some.inj hc
        exact hfit
      | some c' =>
        simp only [List.argAux] at hc
        split_ifs at hc
        · obtain rfl := Option.some.inj hc
          exact hfit
        · exact ho c hc
    · rw [if_neg hfit, List.filter_cons_of_neg (by simpa using hfit)]
      exact ih ho

/-- **The loop of `boot_alloc` finds the best fit.** -/
theorem bootAllocScan_bestFit (hsize : size ≤ 2 ^ 64) (halign : alignment < 64)
    (h : Represents s fl) (hfuel : fl.regions.length < fuel) :
    bootAllocScan fuel s size alignment (bootFreeListBegin s) ⟨NULL, 2 ^ 64 - 1, false⟩ =
      .ok (Fit.of size alignment (bestFit size alignment fl.regions)) := by
  rw [bootFreeListBegin, bootAllocScan_eq _ hsize halign fl.layout h hfuel]
  exact congrArg Except.ok (foldl_step_eq (o := none) fun c hc => by cases hc)

/-! ## The smallest remainder -/

section LeastLeft

variable {left : Region → Int} {c : Region}

theorem mem_fitting : r ∈ fitting left rs ↔ r ∈ rs ∧ 0 ≤ left r := by
  rw [fitting, List.mem_filter, decide_eq_true_eq]

theorem leastLeft_eq_none : leastLeft left rs = none ↔ ∀ r ∈ rs, ¬ 0 ≤ left r := by
  rw [leastLeft, List.argmin_eq_none, fitting, List.filter_eq_nil_iff]
  simp only [decide_eq_true_eq]

/-- Is `c` a better choice than `r`: does less remain of it, or as much and it comes first? -/
def Beats (left : Region → Int) (c r : Region) : Prop :=
  left c < left r ∨ left c = left r ∧ c.addr < r.addr

/-- A region comes first in a list sorted by address exactly when its address is smaller. -/
theorem addr_lt_iff_idxOf_lt (hord : rs.Pairwise fun a b => a.addr < b.addr)
    (hc : c ∈ rs) (hr : r ∈ rs) : c.addr < r.addr ↔ rs.idxOf c < rs.idxOf r := by
  have hlen := List.idxOf_lt_length_of_mem hc
  have hlen' := List.idxOf_lt_length_of_mem hr
  have hget := List.pairwise_iff_getElem.1 hord
  constructor
  · intro haddr
    by_contra hge
    rcases (Nat.not_lt.1 hge).lt_or_eq with hlt | heq
    · have hrc := hget _ _ hlen' hlen hlt
      rw [List.getElem_idxOf, List.getElem_idxOf] at hrc
      omega
    · obtain rfl := (List.idxOf_inj hr).1 heq
      exact lt_irrefl _ haddr
  · intro hlt
    have hcr := hget _ _ hlen hlen' hlt
    rwa [List.getElem_idxOf, List.getElem_idxOf] at hcr

/-- The choice is the region that no other one beats. -/
theorem leastLeft_eq_some_iff (hL : Layout rs) :
    leastLeft left rs = some r ↔
      (r ∈ rs ∧ 0 ≤ left r) ∧ ∀ c ∈ rs, 0 ≤ left c → ¬ Beats left c r := by
  have hord : (fitting left rs).Pairwise fun a b => a.addr < b.addr := by
    apply List.Pairwise.filter
    apply hL.ordered.imp_of_mem
    intro a b ha _ hab
    have := hL.room a ha
    simp only [Region.stop, regionHeader] at this hab
    omega
  rw [leastLeft, List.argmin_eq_some_iff, mem_fitting]
  apply and_congr_right
  intro hr
  have hr' := mem_fitting.2 hr
  constructor
  · rintro ⟨hmin, hfirst⟩ c hc hnonneg hbeats
    have hc' := mem_fitting.2 ⟨hc, hnonneg⟩
    rcases hbeats with hlt | ⟨heq, haddr⟩
    · exact hlt.not_ge (hmin c hc')
    · exact ((addr_lt_iff_idxOf_lt hord hc' hr').1 haddr).not_ge (hfirst c hc' heq.le)
  · intro hbest
    constructor
    · intro c hc'
      obtain ⟨hc, hnonneg⟩ := mem_fitting.1 hc'
      by_contra hlt
      exact hbest c hc hnonneg (.inl (not_le.1 hlt))
    · intro c hc' hle
      obtain ⟨hc, hnonneg⟩ := mem_fitting.1 hc'
      by_contra hlt
      have haddr := (addr_lt_iff_idxOf_lt hord hc' hr').2 (Nat.not_le.1 hlt)
      rcases hle.lt_or_eq with hless | heq
      · exact hbest c hc hnonneg (.inl hless)
      · exact hbest c hc hnonneg (.inr ⟨heq, haddr⟩)

/-- The choice beats every other region that is considered. -/
theorem beats_of_leastLeft (hL : Layout rs) (h : leastLeft left rs = some r) (hc : c ∈ rs)
    (hne : c ≠ r) (hseen : 0 ≤ left c) : Beats left r c := by
  obtain ⟨⟨hmem, -⟩, hfirst⟩ := (leastLeft_eq_some_iff hL).1 h
  have hlose := hfirst c hc hseen
  have haddr : c.addr ≠ r.addr := fun heq => hne (hL.eq_of_addr_eq hc hmem heq)
  unfold Beats at hlose ⊢
  omega

end LeastLeft

theorem mem_of_bestFit (h : bestFit size alignment rs = some r) :
    r ∈ rs ∧ 0 ≤ greater size alignment r :=
  mem_fitting.1 (List.argmin_mem h)

/-- **`boot_alloc` is one of the two placements, at the best fit.** -/
theorem bootAlloc_eq (hsize : size ≤ 2 ^ 64) (halign : alignment < 64) (h : Represents s fl)
    (hfuel : fl.regions.length < fuel) :
    bootAlloc fuel s size alignment =
      match bestFit size alignment fl.regions with
      | none => .ok (NULL, s)
      | some r =>
        if placedLow size alignment r then allocBefore s r.addr size alignment
        else allocAfter s r.addr size alignment := by
  rw [bootAlloc, bootAllocScan_bestFit hsize halign h hfuel, ok_bind]
  cases hbest : bestFit size alignment fl.regions with
  | none => exact if_pos rfl
  | some r =>
    have hr := fl.layout.nonnull r (mem_of_bestFit hbest).1
    rw [Fit.of, if_neg hr.ne']
    simp only [decide_eq_true_eq]

/-! ## The placement -/

/-- The address of the block. -/
def placedBlock (size alignment : Nat) (r : Region) : Nat :=
  if placedLow size alignment r then r.addr + lowPad r alignment
  else r.addr + (r.size - (size + highPad r size alignment))

/-- What is left of the region. -/
def placedRest (size alignment : Nat) (r : Region) : Region :=
  if placedLow size alignment r then
    ⟨r.addr + (size + lowPad r alignment), r.size - (size + lowPad r alignment)⟩
  else ⟨r.addr, r.size - (size + highPad r size alignment)⟩

/-- **A block that fits at the best fit is taken from there**, and the other regions stay. -/
theorem bootAlloc_placed {pre post : List Region} (halign : alignment < 64)
    (h : Represents s fl) (hfuel : fl.regions.length < fuel)
    (hbest : bestFit size alignment fl.regions = some r)
    (hfit : size + placedPad size alignment r ≤ r.size) (hsplit : fl.regions = pre ++ r :: post) :
    ∃ s', bootAlloc fuel s size alignment = .ok (placedBlock size alignment r, s') ∧
      Seg s'.mem NULL s'.bootFreeList
        (pre ++ (keep (placedRest size alignment r) ++ post)) NULL := by
  have hL := fl.layout
  have hseg : Seg s.mem NULL s.bootFreeList fl.regions NULL := h
  have hwrap := hL.noWrap r (mem_of_bestFit hbest).1
  simp only [Region.stop] at hwrap
  rw [bootAlloc_eq (by omega) halign h hfuel, hbest]
  rw [hsplit] at hL hseg
  dsimp only
  by_cases hlow : placedLow size alignment r
  · rw [placedPad, if_pos hlow] at hfit
    rw [if_pos hlow, placedBlock, if_pos hlow, placedRest, if_pos hlow]
    obtain ⟨s', hs', hseg', -⟩ := allocBefore_spec halign hL hseg hfit
    exact ⟨s', hs', hseg'⟩
  · rw [placedPad, if_neg hlow] at hfit
    rw [if_neg hlow, placedBlock, if_neg hlow, placedRest, if_neg hlow]
    obtain ⟨s', hs', hseg', -⟩ := allocAfter_spec halign hL hseg hfit
    exact ⟨s', hs', hseg'⟩

/-- What is left lies inside the region. -/
theorem placedRest_inside (hfit : size + placedPad size alignment r ≤ r.size) :
    r.addr ≤ (placedRest size alignment r).addr ∧
      (placedRest size alignment r).stop ≤ r.stop := by
  unfold placedPad at hfit
  unfold placedRest Region.stop
  split_ifs at hfit ⊢
  · exact ⟨Nat.le_add_right r.addr _, by dsimp only; omega⟩
  · exact ⟨le_rfl, by dsimp only; omega⟩

theorem Layout.placed {pre post : List Region} (hL : Layout (pre ++ r :: post))
    (hfit : size + placedPad size alignment r ≤ r.size) :
    Layout (pre ++ (keep (placedRest size alignment r) ++ post)) := by
  obtain ⟨hlo, hhi⟩ := placedRest_inside hfit
  by_cases hsmall : (placedRest size alignment r).size < regionHeader
  · rw [keep_of_lt hsmall]
    exact (Layout.middle_iff.1 hL).1
  · rw [keep_of_le (Nat.not_lt.1 hsmall)]
    exact hL.shrink hlo hhi (Nat.not_lt.1 hsmall)

/-- The larger remainder is the one where the block is placed. -/
theorem greater_eq_placed (size alignment : Nat) (r : Region) :
    greater size alignment r = leftOver r size (placedPad size alignment r) := by
  unfold greater placedPad
  by_cases hlow : placedLow size alignment r
  · rw [if_pos hlow]
    exact max_eq_right (le_of_lt hlow)
  · rw [if_neg hlow]
    exact max_eq_left (not_lt.1 hlow)

/-! ## Remainders -/

/-- A sum of size and padding that is too large for the region, but that the cast to `ssize_t`
turns into a small or a negative number. -/
def Fooled (r : Region) (size pad : Nat) : Prop :=
  2 ^ 63 + r.size < size + pad ∧ size + pad ≤ 2 ^ 64 + r.size

instance (r : Region) (size pad : Nat) : Decidable (Fooled r size pad) :=
  inferInstanceAs (Decidable (_ ∧ _))

/-- **When a remainder is not negative**: the block fits and leaves less than `2 ^ 63` bytes, or the
code is fooled. -/
theorem zero_le_leftOver_iff {pad : Nat} (hr : r.size < 2 ^ 64) (hsize : size < 2 ^ 64)
    (hpad : pad ≤ 2 ^ 63) : 0 ≤ leftOver r size pad ↔
      size + pad ≤ r.size ∧ r.size < 2 ^ 63 + (size + pad) ∨ Fooled r size pad := by
  simp only [leftOver, ssub, toSigned, ofSigned, wadd, Fooled]
  split_ifs <;> omega

/-- Below `2 ^ 63` the cast of the sum does no harm, but a large remainder looks negative. -/
theorem leftOver_eq {pad : Nat} (hr : r.size < 2 ^ 64) (h : size + pad < 2 ^ 63) :
    leftOver r size pad =
      if r.size < 2 ^ 63 + (size + pad) then (r.size : Int) - (size + pad : Nat)
      else (r.size : Int) - (size + pad : Nat) - 2 ^ 64 := by
  simp only [leftOver, ssub, toSigned, ofSigned, wadd]
  split_ifs <;> omega

theorem leftOver_eq_of_small {pad : Nat} (hr : r.size < 2 ^ 63) (h : size + pad < 2 ^ 63) :
    leftOver r size pad = (r.size : Int) - (size + pad : Nat) := by
  rw [leftOver_eq (by omega) h, if_pos (by omega)]

theorem placedPad_le (size alignment : Nat) (r : Region) :
    placedPad size alignment r ≤ 2 ^ alignment := by
  unfold placedPad
  split_ifs
  · exact lowPad_le r alignment
  · exact (highPad_lt r size alignment).le

/-- Only a request of nearly `2 ^ 63` bytes or more fools the code. -/
theorem not_fooled_of_lt (h63 : size + 2 ^ alignment < 2 ^ 63) :
    ¬ Fooled r size (placedPad size alignment r) := by
  have hpad := placedPad_le size alignment r
  unfold Fooled
  omega

/-- The best fit has room for the block, or the code is fooled there. -/
theorem fits_or_fooled (hL : Layout rs) (hsize : size < 2 ^ 64) (halign : alignment < 64)
    (hbest : bestFit size alignment rs = some r) :
    size + placedPad size alignment r ≤ r.size ∨ Fooled r size (placedPad size alignment r) := by
  obtain ⟨hmem, hnonneg⟩ := mem_of_bestFit hbest
  have hpow : 2 ^ alignment ≤ 2 ^ 63 := Nat.pow_le_pow_right Nat.two_pos (by omega)
  have hpad := (placedPad_le size alignment r).trans hpow
  rw [greater_eq_placed, zero_le_leftOver_iff (hL.size_lt hmem) hsize hpad] at hnonneg
  exact hnonneg.imp_left And.left

theorem fits_of_bestFit (hL : Layout rs) (h63 : size + 2 ^ alignment < 2 ^ 63)
    (hbest : bestFit size alignment rs = some r) :
    size + placedPad size alignment r ≤ r.size := by
  have hsize := request_lt h63
  exact (fits_or_fooled hL (by omega) (alignment_lt h63) hbest).resolve_right (not_fooled_of_lt h63)

end RiscyOs
