import Mathlib.Data.Nat.Bitwise
import RiscyOs.Boot.Layout

/-!
# What `boot_alloc` does to the list

An allocation takes a block off one end of one region. `keep r` is what stays on the list of the
remainder `r`: a region too small to hold its node is dropped.

* `unlinkRegion_spec`, `moveRegion_spec`: the two edits of the list.
* `allocAfter_spec`, `allocBefore_spec`: the two placements, as edits of the list of regions.
* `bootAllocScan_eq`: the loop is a fold over the regions.
* `bootAlloc_spec`: an allocation fails and changes nothing, or takes its block out of one region.
-/

namespace RiscyOs

open ByteMemory FuelLoop

/-- What stays on the list of a remainder. -/
def keep (r : Region) : List Region := if r.size < regionHeader then [] else [r]

theorem keep_of_lt {r : Region} (h : r.size < regionHeader) : keep r = [] := if_pos h

theorem keep_of_le {r : Region} (h : regionHeader ≤ r.size) : keep r = [r] := if_neg h.not_gt

/-! ## The two edits of the list -/

variable {s : Machine} {pre post : List Region} {r : Region}

/-- Unlinking a region joins the two sides of it. -/
theorem unlinkRegion_spec (hL : Layout (pre ++ r :: post))
    (hpre : Seg s.mem NULL s.bootFreeList pre r.addr)
    (hprev : loadLE s.mem (r.addr + 8) 8 = lastAddr NULL pre)
    (hpost : Seg s.mem r.addr (loadLE s.mem r.addr 8) post NULL) :
    ∃ s', unlinkRegion s r.addr = .ok s' ∧ Seg s'.mem NULL s'.bootFreeList (pre ++ post) NULL ∧
      ∀ b, b ∉ headersOf pre → b ∉ headersOf post → s'.mem b = s.mem b := by
  have hr : 0 < r.addr := hL.nonnull r (by simp)
  have hrest := (Layout.middle_iff.1 hL).1
  have hnode : ∀ b ∈ r.header, b ∉ headersOf pre ∧ b ∉ headersOf post := fun b hb =>
    hL.not_mem_headersOf (hL.header_subset_bytes (by simp) hb)
  obtain ⟨s₁, hs₁, hpre₁, hframe₁⟩ := relinkPrev_spec
    (hrest.sublist (List.sublist_append_left pre post)) hpre (loadLE_lt s.mem r.addr 8)
  -- the node of `r` is untouched by the first write
  have hword : ∀ off ≤ 16, loadLE s₁.mem (r.addr + off) 8 = loadLE s.mem (r.addr + off) 8 :=
    fun off hoff => loadLE_congr fun b hb hb' => hframe₁ b (hnode b
      ⟨by omega, by simp only [regionHeader]; omega⟩).1
  have hnext₁ := hword 0 (by omega)
  have hprev₁ := (hword 8 (by omega)).trans hprev
  rw [Nat.add_zero] at hnext₁
  have hpost₁ : Seg s₁.mem r.addr (loadLE s.mem r.addr 8) post NULL :=
    hpost.congr fun b hb => hframe₁ b (hrest.headersOf_disjoint hb)
  have hlast : lastAddr NULL pre < 2 ^ 64 := hprev ▸ loadLE_lt s.mem (r.addr + 8) 8
  obtain ⟨s₂, hs₂, hhead₂, hpost₂, hframe₂⟩ := relinkNext_spec
    (hrest.sublist (List.sublist_append_right pre post)) hpost₁ hlast
  refine ⟨s₂, ?_, seg_join ?_ hpost₂, fun b hb hb' => (hframe₂ b hb').trans (hframe₁ b hb)⟩
  · simp only [unlinkRegion, Machine.prev_eq hr, Machine.next_eq hr, ok_bind, hprev, hs₁, hnext₁,
      hprev₁, hs₂]
  · rw [hhead₂]
    refine hpre₁.congr fun b hb => hframe₂ b fun hb' => ?_
    exact hrest.headersOf_disjoint hb' hb

/-- Moving a region up inside its own bytes keeps its place in the list. -/
theorem moveRegion_spec {offset newSize : Nat} (hL : Layout (pre ++ r :: post))
    (hseg : Seg s.mem NULL s.bootFreeList (pre ++ r :: post) NULL)
    (hfit : offset + newSize ≤ r.size) (hroom : regionHeader ≤ newSize) :
    ∃ s', moveRegion s r.addr offset newSize = .ok s' ∧
      Seg s'.mem NULL s'.bootFreeList (pre ++ ⟨r.addr + offset, newSize⟩ :: post) NULL ∧
      ∀ b, b ∉ headersOf pre → b ∉ headersOf post → b ∉ r.bytes → s'.mem b = s.mem b := by
  obtain ⟨hpre, hprev, -, hpost⟩ := seg_middle.1 hseg
  have hr : 0 < r.addr := hL.nonnull r (by simp)
  have hwrap := hL.noWrap r (by simp)
  have hrest := (Layout.middle_iff.1 hL).1
  simp only [Region.stop] at hwrap
  have hp : 0 < r.addr + offset := by omega
  have hwadd : wadd r.addr offset = r.addr + offset := wadd_eq (by omega)
  -- the three writes to the new node
  let m₁ := storeLE (storeLE (storeLE s.mem (r.addr + offset + 16) 8 newSize)
    (r.addr + offset + 8) 8 (lastAddr NULL pre)) (r.addr + offset) 8 (loadLE s.mem r.addr 8)
  have hm₁ : ∀ b ∉ r.bytes, m₁ b = s.mem b := by
    intro b hb
    simp only [Region.bytes, Region.stop, Set.mem_Ico, regionHeader] at hb hroom
    simp only [m₁]
    rw [storeLE_outside (by omega), storeLE_outside (by omega), storeLE_outside (by omega)]
  have hlast : lastAddr NULL pre < 2 ^ 64 := hprev ▸ loadLE_lt s.mem (r.addr + 8) 8
  have hnext₁ : loadLE m₁ (r.addr + offset) 8 = loadLE s.mem r.addr 8 :=
    loadLE_storeLE_word (loadLE_lt s.mem r.addr 8)
  have hprev₁ : loadLE m₁ (r.addr + offset + 8) 8 = lastAddr NULL pre := by
    simp only [m₁]
    rw [loadLE_storeLE_disjoint (by omega), loadLE_storeLE_word hlast]
  have hsize₁ : loadLE m₁ (r.addr + offset + 16) 8 = newSize := by
    simp only [m₁]
    rw [loadLE_storeLE_disjoint (by omega), loadLE_storeLE_disjoint (by omega),
      loadLE_storeLE_word (by omega)]
  have hout : ∀ b, b ∈ headersOf pre ∨ b ∈ headersOf post → b ∉ r.bytes := by
    intro b hb hin
    have hnot := hL.not_mem_headersOf hin
    exact hb.elim hnot.1 hnot.2
  have hpre₁ : Seg m₁ NULL s.bootFreeList pre r.addr :=
    hpre.congr fun b hb => hm₁ b (hout b (.inl hb))
  have hpost₁ : Seg m₁ r.addr (loadLE s.mem r.addr 8) post NULL :=
    hpost.congr fun b hb => hm₁ b (hout b (.inr hb))
  obtain ⟨s₂, hs₂, hpre₂, hframe₂⟩ := relinkPrev_spec (s := { s with mem := m₁ })
    (hrest.sublist (List.sublist_append_left pre post)) hpre₁
    (x := r.addr + offset) (by omega)
  have hpost₂ : Seg s₂.mem r.addr (loadLE s.mem r.addr 8) post NULL :=
    hpost₁.congr fun b hb => hframe₂ b (hrest.headersOf_disjoint hb)
  obtain ⟨s₃, hs₃, hhead₃, hpost₃, hframe₃⟩ := relinkNext_spec
    (hrest.sublist (List.sublist_append_right pre post)) hpost₂
    (x := r.addr + offset) (by omega)
  have hnode : ∀ off ≤ 16, loadLE s₃.mem (r.addr + offset + off) 8 =
      loadLE m₁ (r.addr + offset + off) 8 := by
    intro off hoff
    apply loadLE_congr
    intro b hb hb'
    have hin : b ∈ r.bytes := by
      simp only [Region.bytes, Region.stop, Set.mem_Ico, regionHeader] at *
      omega
    have hnot := hL.not_mem_headersOf hin
    exact (hframe₃ b hnot.2).trans (hframe₂ b hnot.1)
  refine ⟨s₃, ?_, seg_middle.2 ⟨?_, ?_, ?_, ?_⟩, ?_⟩
  · simp only [moveRegion, Machine.prev_eq hr, Machine.next_eq hr, ok_bind, hprev, hwadd,
      Machine.setSize_eq hp, Machine.setPrev_eq hp, Machine.setNext_eq hp]
    rw [hs₂, ok_bind, hs₃]
  · rw [hhead₃]
    refine hpre₂.congr fun b hb => hframe₃ b fun hb' => ?_
    exact hrest.headersOf_disjoint hb' hb
  · exact (hnode 8 (by omega)).trans hprev₁
  · exact (hnode 16 le_rfl).trans hsize₁
  · have hnext₃ := (hnode 0 (by omega)).trans hnext₁
    rw [Nat.add_zero] at hnext₃
    rw [hnext₃]
    exact hpost₃
  · intro b hb hb' hb''
    exact (hframe₃ b hb').trans ((hframe₂ b hb).trans (hm₁ b hb''))

/-! ## Padding -/

/-- The padding above a block of `size` bytes taken off the high end of `r`. -/
def highPad (r : Region) (size alignment : Nat) : Nat :=
  (r.stop + 2 ^ 64 - size) % 2 ^ alignment

/-- The padding below a block taken off the low end of `r`: a whole `2 ^ alignment` when `r` is
already aligned. -/
def lowPad (r : Region) (alignment : Nat) : Nat := 2 ^ alignment - r.addr % 2 ^ alignment

/-- What `boot_alloc` computes to be left of `r` when `size + pad` bytes are taken. -/
def leftOver (r : Region) (size pad : Nat) : Int :=
  ssub (toSigned r.size) (toSigned (wadd size pad))

theorem two_pow_lt {alignment : Nat} (h : alignment < 64) : 2 ^ alignment < 2 ^ 64 :=
  Nat.pow_lt_pow_right Nat.one_lt_two h

theorem alignmentMask_eq {alignment : Nat} (h : alignment < 64) :
    alignmentMask alignment = 2 ^ alignment - 1 := by
  have hlt := two_pow_lt h
  rw [alignmentMask, Nat.mod_eq_of_lt hlt, wsub_eq Nat.one_le_two_pow hlt]

theorem alignment_lt {size alignment : Nat} (h : size + 2 ^ alignment < 2 ^ 63) :
    alignment < 64 := by
  have : 2 ^ alignment < 2 ^ 63 := by omega
  have := (Nat.pow_lt_pow_iff_right Nat.one_lt_two).1 this
  omega

theorem request_lt {size alignment : Nat} (h : size + 2 ^ alignment < 2 ^ 63) : size < 2 ^ 63 :=
  (Nat.le_add_right size _).trans_lt h

theorem lowPad_eq {r : Region} {alignment : Nat} (h : alignment < 64) :
    allocBeforeUnalignment r.addr alignment = lowPad r alignment := by
  have hlt := two_pow_lt h
  rw [allocBeforeUnalignment, alignmentMask_eq h, Nat.and_two_pow_sub_one_eq_mod,
    Nat.mod_eq_of_lt hlt, wsub_eq (Nat.mod_lt _ (Nat.two_pow_pos _)).le hlt, lowPad]

theorem lowPad_le (r : Region) (alignment : Nat) : lowPad r alignment ≤ 2 ^ alignment :=
  Nat.sub_le _ _

theorem highPad_lt (r : Region) (size alignment : Nat) : highPad r size alignment < 2 ^ alignment :=
  Nat.mod_lt _ (Nat.two_pow_pos _)

theorem allocAfterUnalignment_eq {size alignment : Nat} (hsize : size ≤ 2 ^ 64)
    (halign : alignment < 64) (hr : 0 < r.addr) (hmem : loadLE s.mem (r.addr + 16) 8 = r.size)
    (hwrap : r.stop < 2 ^ 64) :
    allocAfterUnalignment s r.addr size alignment = .ok (highPad r size alignment) := by
  have hstop : wadd r.addr r.size = r.stop := wadd_eq hwrap
  have hpow : 2 ^ alignment ∣ 2 ^ 64 := pow_dvd_pow 2 halign.le
  have hsub : wsub r.stop size % 2 ^ alignment = highPad r size alignment := by
    rw [wsub, Nat.mod_mod_of_dvd _ hpow, highPad]
    rcases hsize.lt_or_eq with hlt | rfl
    · rw [Nat.mod_eq_of_lt hlt, Nat.add_sub_assoc hsize]
    · rw [Nat.mod_self, Nat.sub_zero, Nat.add_sub_cancel, Nat.add_mod, Nat.mod_eq_zero_of_dvd hpow,
        Nat.add_zero, Nat.mod_mod]
  simp only [allocAfterUnalignment, Machine.size_eq hr, hmem, ok_bind, pure_eq_ok, hstop,
    alignmentMask_eq halign, Nat.and_two_pow_sub_one_eq_mod, hsub]

/-- A nonnegative remainder is the true one, and the block fits. -/
theorem fits_of_leftOver_nonneg {size pad : Nat} (h63 : size + pad < 2 ^ 63)
    (hr : r.size < 2 ^ 64) (h : 0 ≤ leftOver r size pad) : size + pad ≤ r.size := by
  rw [leftOver, wadd_eq (by omega)] at h
  simp only [ssub, toSigned, ofSigned] at h
  split_ifs at h <;> omega

/-! ## The two placements -/

/-- Taking a block off the high end of a region keeps its low end. -/
theorem allocAfter_spec {size alignment : Nat} (halign : alignment < 64)
    (hL : Layout (pre ++ r :: post))
    (hseg : Seg s.mem NULL s.bootFreeList (pre ++ r :: post) NULL)
    (hfit : size + highPad r size alignment ≤ r.size) :
    ∃ s', allocAfter s r.addr size alignment =
        .ok (r.addr + (r.size - (size + highPad r size alignment)), s') ∧
      Seg s'.mem NULL s'.bootFreeList
        (pre ++ (keep ⟨r.addr, r.size - (size + highPad r size alignment)⟩ ++ post)) NULL ∧
      ∀ b, b ∉ headersOf pre → b ∉ headersOf post → b ∉ r.bytes → s'.mem b = s.mem b := by
  obtain ⟨hpre, hprev, hsize, hpost⟩ := seg_middle.1 hseg
  have hr : 0 < r.addr := hL.nonnull r (by simp)
  have hwrap := hL.noWrap r (by simp)
  have hroom := hL.room r (by simp)
  have hpad := highPad_lt r size alignment
  have hsize64 : size ≤ 2 ^ 64 := by
    simp only [Region.stop] at hwrap
    omega
  have hun := allocAfterUnalignment_eq (s := s) hsize64 halign hr hsize hwrap
  generalize highPad r size alignment = pad at *
  simp only [Region.stop, regionHeader] at hwrap hroom
  have hnew : wsub r.size (wadd size pad) = r.size - (size + pad) := by
    rw [wadd_eq (by omega), wsub_eq hfit (by omega)]
  obtain ⟨n, hn⟩ : ∃ n, r.size - (size + pad) = n := ⟨_, rfl⟩
  rw [hn] at hnew ⊢
  -- the list after the size of `r` is lowered
  obtain ⟨m₁, hm₁⟩ : ∃ m₁, storeLE s.mem (r.addr + 16) 8 n = m₁ := ⟨_, rfl⟩
  have hout : ∀ b ∉ r.bytes, m₁ b = s.mem b := by
    intro b hb
    rw [← hm₁]
    apply storeLE_outside
    simp only [Region.bytes, Region.stop, Set.mem_Ico] at hb
    omega
  have hpre₁ : Seg m₁ NULL s.bootFreeList pre r.addr :=
    hpre.congr fun b hb => hout b fun hb' => (hL.not_mem_headersOf hb').1 hb
  have hnext₁ : loadLE m₁ r.addr 8 = loadLE s.mem r.addr 8 :=
    hm₁ ▸ loadLE_storeLE_disjoint (by omega)
  have hprev₁ : loadLE m₁ (r.addr + 8) 8 = lastAddr NULL pre :=
    hm₁ ▸ (loadLE_storeLE_disjoint (by omega)).trans hprev
  have hsize₁ : loadLE m₁ (r.addr + 16) 8 = n := hm₁ ▸ loadLE_storeLE_word (by omega)
  have hpost₁ : Seg m₁ r.addr (loadLE m₁ r.addr 8) post NULL := by
    rw [hnext₁]
    exact hpost.congr fun b hb => hout b fun hb' => (hL.not_mem_headersOf hb').2 hb
  have hret : wadd r.addr n = r.addr + n := wadd_eq (by omega)
  by_cases hsmall : n < regionHeader
  · obtain ⟨s₂, hs₂, hseg₂, hframe₂⟩ := unlinkRegion_spec (s := { s with mem := m₁ }) hL hpre₁
      hprev₁ hpost₁
    -- the node has left the list, but its size field can still be read
    have hsize₂ : loadLE s₂.mem (r.addr + 16) 8 = n := by
      rw [← hsize₁]
      apply loadLE_congr
      intro b hb hb'
      have hnode : b ∈ r.header := ⟨by omega, by simp only [regionHeader]; omega⟩
      have hnot := hL.not_mem_headersOf (hL.header_subset_bytes (by simp) hnode)
      exact hframe₂ b hnot.1 hnot.2
    refine ⟨s₂, ?_, ?_, fun b hb hb' hb'' => (hframe₂ b hb hb').trans (hout b hb'')⟩
    · simp only [allocAfter, hun, ok_bind, Machine.size_eq hr, hsize, Machine.setSize_eq hr, hnew,
        hm₁, hsize₁, if_pos hsmall, hs₂, hsize₂, hret, pure_eq_ok]
    · rwa [keep_of_lt hsmall]
  · refine ⟨{ s with mem := m₁ }, ?_, ?_, fun b _ _ hb => hout b hb⟩
    · simp only [allocAfter, hun, ok_bind, Machine.size_eq hr, hsize, Machine.setSize_eq hr, hnew,
        hm₁, hsize₁, if_neg hsmall, hret, pure_eq_ok]
    · rw [keep_of_le (Nat.not_lt.1 hsmall)]
      exact seg_middle.2 ⟨hpre₁, hprev₁, hsize₁, hpost₁⟩

/-- Taking a block off the low end of a region moves its node up. -/
theorem allocBefore_spec {size alignment : Nat} (halign : alignment < 64)
    (hL : Layout (pre ++ r :: post))
    (hseg : Seg s.mem NULL s.bootFreeList (pre ++ r :: post) NULL)
    (hfit : size + lowPad r alignment ≤ r.size) :
    ∃ s', allocBefore s r.addr size alignment = .ok (r.addr + lowPad r alignment, s') ∧
      Seg s'.mem NULL s'.bootFreeList
        (pre ++ (keep ⟨r.addr + (size + lowPad r alignment),
          r.size - (size + lowPad r alignment)⟩ ++ post)) NULL ∧
      ∀ b, b ∉ headersOf pre → b ∉ headersOf post → b ∉ r.bytes → s'.mem b = s.mem b := by
  obtain ⟨hpre, hprev, hsize, hpost⟩ := seg_middle.1 hseg
  have hr : 0 < r.addr := hL.nonnull r (by simp)
  have hwrap := hL.noWrap r (by simp)
  have hpad := lowPad_le r alignment
  have hun := lowPad_eq (r := r) halign
  generalize lowPad r alignment = pad at *
  simp only [Region.stop] at hwrap
  have hsum : wadd size pad = size + pad := wadd_eq (by omega)
  have hnew : wsub r.size (size + pad) = r.size - (size + pad) := wsub_eq hfit (by omega)
  have hret : wadd r.addr pad = r.addr + pad := wadd_eq (by omega)
  by_cases hsmall : r.size - (size + pad) < regionHeader
  · obtain ⟨s₂, hs₂, hseg₂, hframe₂⟩ := unlinkRegion_spec hL hpre hprev hpost
    refine ⟨s₂, ?_, ?_, fun b hb hb' _ => hframe₂ b hb hb'⟩
    · simp only [allocBefore, hun, Machine.size_eq hr, hsize, ok_bind, hsum, hnew, if_pos hsmall,
        hs₂, hret, pure_eq_ok]
    · rwa [keep_of_lt hsmall]
  · have hrest : size + pad + (r.size - (size + pad)) ≤ r.size := by omega
    obtain ⟨s₂, hs₂, hseg₂, hframe₂⟩ := moveRegion_spec hL hseg hrest (Nat.not_lt.1 hsmall)
    refine ⟨s₂, ?_, ?_, hframe₂⟩
    · simp only [allocBefore, hun, Machine.size_eq hr, hsize, ok_bind, hsum, hnew, if_neg hsmall,
        hs₂, hret, pure_eq_ok]
    · rwa [keep_of_le (Nat.not_lt.1 hsmall)]

/-! ## The scan -/

/-- What an allocation at the high end leaves of `r`, as the code computes it. -/
def leftAfter (size alignment : Nat) (r : Region) : Int :=
  leftOver r size (highPad r size alignment)

/-- What an allocation at the low end leaves of `r`, as the code computes it. -/
def leftBefore (size alignment : Nat) (r : Region) : Int := leftOver r size (lowPad r alignment)

/-- One pass of the scan, on the region itself. -/
def Fit.step (size alignment : Nat) (fit : Fit) (r : Region) : Fit :=
  fit.consider r.addr (leftAfter size alignment r) (leftBefore size alignment r)

/-- The loop of `boot_alloc` is a fold over the regions. -/
theorem bootAllocScan_eq {size alignment fuel a p : Nat} {rs : List Region} (fit : Fit)
    (hsize : size ≤ 2 ^ 64) (halign : alignment < 64) (hL : Layout rs)
    (hseg : Seg s.mem a p rs NULL) (hfuel : rs.length < fuel) :
    bootAllocScan fuel s size alignment p fit = .ok (rs.foldl (Fit.step size alignment) fit) := by
  induction rs generalizing a p fit fuel with
  | nil =>
    obtain ⟨k, rfl⟩ : ∃ k, fuel = k + 1 := ⟨fuel - 1, by simp at hfuel; omega⟩
    exact loop_leave (if_pos hseg)
  | cons r rs ih =>
    obtain ⟨k, rfl⟩ : ∃ k, fuel = k + 1 := ⟨fuel - 1, by simp at hfuel; omega⟩
    obtain ⟨rfl, -, hmem, hrest⟩ := hseg
    have hr : 0 < r.addr := hL.nonnull r (by simp)
    have hafter : regionSizeAllocAfter s r.addr size alignment =
        .ok (leftAfter size alignment r) := by
      simp only [regionSizeAllocAfter, allocAfterUnalignment_eq hsize halign hr hmem
        (hL.noWrap r (by simp)), Machine.size_eq hr, hmem, ok_bind, pure_eq_ok, leftAfter, leftOver]
    have hbefore : regionSizeAllocBefore s r.addr size alignment =
        .ok (leftBefore size alignment r) := by
      simp only [regionSizeAllocBefore, lowPad_eq halign, Machine.size_eq hr, hmem, ok_bind,
        pure_eq_ok, leftBefore, leftOver]
    rw [List.foldl_cons, bootAllocScan, loop_again (loadLE s.mem r.addr 8,
      fit.step size alignment r)]
    · exact ih _ (hL.sublist (List.sublist_cons_self r rs)) hrest (by simpa using hfuel)
    · simp only [if_neg hr.ne', hafter, hbefore, bootFreeListNext, Machine.next_eq hr, ok_bind]
      rfl

/-- The best fit is one of the regions, at an end where the block fits. -/
def Fit.Picks (size alignment : Nat) (rs : List Region) (fit : Fit) : Prop :=
  fit.smallestFitting = NULL ∨ ∃ r ∈ rs, fit.smallestFitting = r.addr ∧
    0 ≤ if fit.shouldAllocBefore then leftBefore size alignment r else leftAfter size alignment r

theorem Fit.Picks.step {size alignment : Nat} {rs : List Region} {fit : Fit} (hr : r ∈ rs)
    (h : fit.Picks size alignment rs) : (fit.step size alignment r).Picks size alignment rs := by
  simp only [Fit.step, Fit.consider]
  generalize hgreater : (if leftAfter size alignment r > leftBefore size alignment r then
    leftAfter size alignment r else leftBefore size alignment r) = greater
  split_ifs with htaken
  · refine .inr ⟨r, hr, rfl, ?_⟩
    simp only [decide_eq_true_eq]
    split_ifs at hgreater ⊢ <;> omega
  · exact h

theorem Fit.Picks.foldl {size alignment : Nat} {rs xs : List Region} {fit : Fit} (hxs : xs ⊆ rs)
    (h : fit.Picks size alignment rs) :
    (xs.foldl (Fit.step size alignment) fit).Picks size alignment rs := by
  induction xs generalizing fit with
  | nil => exact h
  | cons x xs ih =>
    exact ih (fun y hy => hxs (List.mem_cons_of_mem x hy)) (h.step (hxs (by simp)))

/-! ## The whole allocation -/

/-- The block `[p, p + size)` is taken off one end of `r`, and `left` is the rest of it. -/
structure Carved (r left : Region) (p size : Nat) : Prop where
  block_ge : r.addr ≤ p
  block_le : p + size ≤ r.stop
  left_ge : r.addr ≤ left.addr
  left_le : left.stop ≤ r.stop
  apart : left.stop ≤ p ∨ p + size ≤ left.addr

/-- An allocation takes an aligned block out of one region of `rs`; the others stay. -/
structure Takes (rs rs' : List Region) (p size alignment : Nat) : Prop where
  aligned : 2 ^ alignment ∣ p
  split : ∃ pre r post left, rs = pre ++ r :: post ∧ rs' = pre ++ (keep left ++ post) ∧
    Carved r left p size

theorem Takes.layout {rs rs' : List Region} {p size alignment : Nat}
    (h : Takes rs rs' p size alignment) (hL : Layout rs) : Layout rs' := by
  obtain ⟨-, pre, r, post, left, rfl, rfl, hc⟩ := h
  by_cases hsmall : left.size < regionHeader
  · rw [keep_of_lt hsmall]
    exact (Layout.middle_iff.1 hL).1
  · rw [keep_of_le (Nat.not_lt.1 hsmall)]
    exact hL.shrink hc.left_ge hc.left_le (Nat.not_lt.1 hsmall)

theorem highPad_aligned {size alignment : Nat} (halign : alignment < 64)
    (hfit : size + highPad r size alignment ≤ r.size) :
    2 ^ alignment ∣ r.addr + (r.size - (size + highPad r size alignment)) := by
  have hpow : 2 ^ alignment ∣ 2 ^ 64 := pow_dvd_pow 2 halign.le
  have hx : 2 ^ alignment ∣ (r.stop + 2 ^ 64 - size) - highPad r size alignment :=
    Nat.dvd_sub_mod _
  have heq : r.addr + (r.size - (size + highPad r size alignment)) =
      (r.stop + 2 ^ 64 - size) - highPad r size alignment - 2 ^ 64 := by
    simp only [Region.stop]
    omega
  rw [heq]
  exact Nat.dvd_sub hx hpow

theorem lowPad_aligned (r : Region) (alignment : Nat) :
    2 ^ alignment ∣ r.addr + lowPad r alignment := by
  have hmod := Nat.mod_lt r.addr (Nat.two_pow_pos alignment)
  have heq : r.addr + lowPad r alignment =
      (r.addr - r.addr % 2 ^ alignment) + 2 ^ alignment := by
    have := Nat.mod_le r.addr (2 ^ alignment)
    simp only [lowPad]
    omega
  rw [heq]
  exact Nat.dvd_add (Nat.dvd_sub_mod _) dvd_rfl

/-- **`boot_alloc` returns, and refines `Takes`.** It fails and leaves the state alone, or returns
an aligned block taken out of one region. -/
theorem bootAlloc_spec {size alignment fuel : Nat} {rs : List Region}
    (h63 : size + 2 ^ alignment < 2 ^ 63) (hL : Layout rs)
    (hseg : Seg s.mem NULL s.bootFreeList rs NULL) (hfuel : rs.length < fuel) :
    ∃ p s', bootAlloc fuel s size alignment = .ok (p, s') ∧
      (p = NULL ∧ s' = s ∨ p ≠ NULL ∧ ∃ rs', Takes rs rs' p size alignment ∧
        Seg s'.mem NULL s'.bootFreeList rs' NULL) := by
  have halign := alignment_lt h63
  have hpos := Nat.two_pow_pos alignment
  have hscan := bootAllocScan_eq ⟨NULL, 2 ^ 64 - 1, false⟩ (show size ≤ 2 ^ 64 by omega)
    halign hL hseg hfuel
  have hpicks : (rs.foldl (Fit.step size alignment) ⟨NULL, 2 ^ 64 - 1, false⟩).Picks size
      alignment rs := Fit.Picks.foldl (List.Subset.refl rs) (.inl rfl)
  simp only [bootAlloc, bootFreeListBegin, hscan, ok_bind]
  generalize rs.foldl (Fit.step size alignment) ⟨NULL, 2 ^ 64 - 1, false⟩ = fit at hpicks
  rcases hpicks with hnull | ⟨r, hr, haddr, hleft⟩
  · exact ⟨NULL, s, if_pos hnull, .inl ⟨rfl, rfl⟩⟩
  obtain ⟨pre, post, rfl⟩ := List.append_of_mem hr
  have hr0 : 0 < r.addr := hL.nonnull r (by simp)
  have hwrap := hL.noWrap r (by simp)
  have hstop : r.stop = r.addr + r.size := rfl
  have hr64 : r.size < 2 ^ 64 := by omega
  rw [haddr, if_neg hr0.ne']
  by_cases hbefore : fit.shouldAllocBefore = true
  · rw [if_pos hbefore] at hleft ⊢
    have hpad := lowPad_le r alignment
    have hfit := fits_of_leftOver_nonneg (by omega) hr64 hleft
    obtain ⟨s', hs', hseg', -⟩ := allocBefore_spec halign hL hseg hfit
    have hblock : Carved r ⟨r.addr + (size + lowPad r alignment),
        r.size - (size + lowPad r alignment)⟩ (r.addr + lowPad r alignment) size :=
      ⟨by omega, by omega, by dsimp only; omega, by simp only [Region.stop]; omega,
        .inr (by dsimp only; omega)⟩
    exact ⟨_, s', hs', .inr ⟨(Nat.add_pos_left hr0 _).ne', _, ⟨lowPad_aligned r alignment, pre, r,
      post, _, rfl, rfl, hblock⟩, hseg'⟩⟩
  · rw [if_neg hbefore] at hleft ⊢
    have hpad := highPad_lt r size alignment
    have hfit := fits_of_leftOver_nonneg (by omega) hr64 hleft
    obtain ⟨s', hs', hseg', -⟩ := allocAfter_spec halign hL hseg hfit
    have hblock : Carved r ⟨r.addr, r.size - (size + highPad r size alignment)⟩
        (r.addr + (r.size - (size + highPad r size alignment))) size :=
      ⟨by omega, by omega, le_rfl, by simp only [Region.stop]; omega, .inl le_rfl⟩
    exact ⟨_, s', hs', .inr ⟨(Nat.add_pos_left hr0 _).ne', _, ⟨highPad_aligned halign hfit, pre, r,
      post, _, rfl, rfl, hblock⟩, hseg'⟩⟩

end RiscyOs
