import RiscyOs.Boot.BestFit

/-!
# Requests of any size

`boot_alloc` casts the sum of the size and the padding to `ssize_t`. A request of `2 ^ 63` bytes or
more can look negative, or wrap, and then it seems to fit anywhere: the code is *fooled*.

`bootAlloc_within_iff`: for any size, the block taken is no larger than its region, nothing is
taken when no region is large enough, and no region grows, exactly when every region that fools the
code loses against another one.
-/

namespace RiscyOs

open ByteMemory

variable {s : Machine} {fl : FreeList} {r : Region} {size alignment fuel : Nat}

/-- `boot_alloc` stays within the regions: the one it chooses is as large as the request, a request
larger than all of them fails and changes nothing, and no region grows. -/
def AllocatesWithin (fuel : Nat) (s : Machine) (fl : FreeList) (size alignment : Nat) : Prop :=
  ∃ fit p s', bootAllocScan fuel s size alignment (bootFreeListBegin s) ⟨NULL, 2 ^ 64 - 1, false⟩ =
      .ok fit ∧ bootAlloc fuel s size alignment = .ok (p, s') ∧
    (∀ r ∈ fl.regions, fit.smallestFitting = r.addr → size ≤ r.size) ∧
    ((∀ r ∈ fl.regions, r.size < size) → p = NULL ∧ s' = s) ∧
    ∃ fl', Represents s' fl' ∧
      ∀ r' ∈ fl'.regions, ∃ r ∈ fl.regions, r.addr ≤ r'.addr ∧ r'.stop ≤ r.stop

/-- A region that fools the code seems to fit, but is smaller than the request. -/
theorem Fooled.lt {pad : Nat} (h : Fooled r size pad) (hpad : pad ≤ 2 ^ 63) : r.size < size := by
  unfold Fooled at h
  omega

theorem placedPad_le_word (halign : alignment < 64) (size : Nat) (r : Region) :
    placedPad size alignment r ≤ 2 ^ 63 :=
  (placedPad_le size alignment r).trans (Nat.pow_le_pow_right Nat.two_pos (by omega))

/-- A block that fits where it is placed stays within the regions. -/
theorem allocatesWithin (h : Represents s fl) (hsize : size < 2 ^ 64) (halign : alignment < 64)
    (hfuel : fl.regions.length < fuel) (hbest : bestFit size alignment fl.regions = some r)
    (hfit : size + placedPad size alignment r ≤ r.size) :
    AllocatesWithin fuel s fl size alignment := by
  obtain ⟨hmem, -⟩ := mem_of_bestFit hbest
  obtain ⟨pre, post, hsplit⟩ := List.append_of_mem hmem
  have hL := fl.layout
  have hscan := bootAllocScan_bestFit hsize.le halign h hfuel
  obtain ⟨s', hs', hseg⟩ := bootAlloc_placed halign h hfuel hbest hfit hsplit
  rw [hbest] at hscan
  refine ⟨_, _, s', hscan, hs', ?_, ?_, ⟨_, (hsplit ▸ hL).placed hfit⟩, hseg, ?_⟩
  · intro c hc haddr
    obtain rfl := hL.eq_of_addr_eq hmem hc haddr
    exact (Nat.le_add_right size _).trans hfit
  · intro hlarge
    have := hlarge r hmem
    omega
  · intro x hx
    rw [hsplit]
    rcases List.mem_append.1 hx with hx | hx
    · exact ⟨x, by simp [hx], le_rfl, le_rfl⟩
    rcases List.mem_append.1 hx with hx | hx
    · rw [keep] at hx
      split_ifs at hx
      · cases hx
      · rw [List.mem_singleton.1 hx]
        exact ⟨r, by simp, placedRest_inside hfit⟩
    · exact ⟨x, by simp [hx], le_rfl, le_rfl⟩

/-- A region that fools the code and that no other one beats is chosen for too large a block. -/
theorem not_allocatesWithin (h : Represents s fl) (hsize : size < 2 ^ 64) (halign : alignment < 64)
    (hfuel : fl.regions.length < fuel) (hbest : bestFit size alignment fl.regions = some r)
    (hfooled : Fooled r size (placedPad size alignment r)) :
    ¬ AllocatesWithin fuel s fl size alignment := by
  rintro ⟨fit, p, s', hscan, -, hchosen, -⟩
  rw [bootAllocScan_bestFit hsize.le halign h hfuel, hbest] at hscan
  obtain rfl := Except.ok.inj hscan
  have hle := hchosen r (mem_of_bestFit hbest).1 rfl
  exact (hfooled.lt (placedPad_le_word halign size r)).not_ge hle

/-- **When `boot_alloc` stays within the regions**: every region that fools it loses against
another one. -/
theorem bootAlloc_within_iff (h : Represents s fl) (hsize : size < 2 ^ 64) (halign : alignment < 64)
    (hfuel : fl.regions.length < fuel) :
    AllocatesWithin fuel s fl size alignment ↔
      ∀ r ∈ fl.regions, Fooled r size (placedPad size alignment r) →
        ∃ c ∈ fl.regions, 0 ≤ greater size alignment c ∧ Beats (greater size alignment) c r := by
  have hL := fl.layout
  have hseen : ∀ r ∈ fl.regions, Fooled r size (placedPad size alignment r) →
      0 ≤ greater size alignment r := by
    intro r hmem hfooled
    rw [greater_eq_placed]
    exact (zero_le_leftOver_iff (hL.size_lt hmem) hsize (placedPad_le_word halign size r)).2
      (.inr hfooled)
  constructor
  · intro hwithin r hmem hfooled
    by_contra hnone
    push Not at hnone
    have hbest : bestFit size alignment fl.regions = some r :=
      (leastLeft_eq_some_iff hL).2 ⟨⟨hmem, hseen r hmem hfooled⟩, hnone⟩
    exact not_allocatesWithin h hsize halign hfuel hbest hfooled hwithin
  · intro hbeaten
    cases hbest : bestFit size alignment fl.regions with
    | none =>
      have hscan := bootAllocScan_bestFit hsize.le halign h hfuel
      have hrun := bootAlloc_eq hsize.le halign h hfuel
      rw [hbest] at hscan hrun
      refine ⟨_, _, _, hscan, hrun, ?_, fun _ => ⟨rfl, rfl⟩, fl, h, ?_⟩
      · exact fun c hc haddr => absurd haddr (hL.nonnull c hc).ne
      · exact fun x hx => ⟨x, hx, le_rfl, le_rfl⟩
    | some r =>
      obtain ⟨⟨hmem, -⟩, hfirst⟩ := (leastLeft_eq_some_iff hL).1 hbest
      rcases fits_or_fooled hL hsize halign hbest with hfit | hfooled
      · exact allocatesWithin h hsize halign hfuel hbest hfit
      · obtain ⟨c, hc, hnonneg, hbeats⟩ := hbeaten r hmem hfooled
        exact absurd hbeats (hfirst c hc hnonneg)

/-- A request for more than half of the address space. -/
theorem bootAlloc_within_iff_twoPages :
    AllocatesWithin 3 twoPages.machine twoPages (2 ^ 63) 12 ↔
      ∀ r ∈ twoPages.regions, Fooled r (2 ^ 63) (placedPad (2 ^ 63) 12 r) →
        ∃ c ∈ twoPages.regions, 0 ≤ greater (2 ^ 63) 12 c ∧ Beats (greater (2 ^ 63) 12) c r :=
  bootAlloc_within_iff (represents_machine twoPages) (by decide) (by decide) (by decide)

/-- A request for `2 ^ 64 - 1` bytes is granted from a page, which grows by a byte. -/
theorem twoPages_not_within : ¬ AllocatesWithin 3 twoPages.machine twoPages (2 ^ 64 - 1) 0 := by
  have hbest : bestFit (2 ^ 64 - 1) 0 twoPages.regions = some ⟨0x1000, 0x1000⟩ := by decide
  exact not_allocatesWithin (represents_machine twoPages) (by decide) (by decide) (by decide) hbest
    (by decide)

end RiscyOs
