import RiscyOs.Boot.Alloc

/-!
# Runs of `boot_alloc`

From a well-formed list, any sequence of `boot_alloc` calls returns, keeps the list well formed
after every call, and hands out aligned blocks that are disjoint from each other and from what is
still free (`bootAllocs_safe`).
-/

namespace RiscyOs

open ByteMemory

/-- A well-formed free list: every region is below `2 ^ 63` bytes as well. -/
structure WellFormed (s : Machine) (fl : FreeList) : Prop where
  represents : Represents s fl
  small : ∀ r ∈ fl.regions, r.size < 2 ^ 63

/-! ## What `Takes` does to the bytes -/

variable {rs rs' : List Region} {p size alignment : Nat}

theorem bytesOf_keep_subset (r : Region) : bytesOf (keep r) ⊆ r.bytes := by
  rintro b ⟨x, hx, hb⟩
  rw [keep] at hx
  split_ifs at hx
  · cases hx
  · rwa [List.mem_singleton.1 hx] at hb

theorem Takes.block_subset (h : Takes rs rs' p size alignment) :
    ∃ r ∈ rs, r.addr ≤ p ∧ p + size ≤ r.stop := by
  obtain ⟨-, pre, r, post, left, rfl, -, hc⟩ := h
  exact ⟨r, by simp, hc.block_ge, hc.block_le⟩

theorem Takes.bytes_subset (h : Takes rs rs' p size alignment) : bytesOf rs' ⊆ bytesOf rs := by
  obtain ⟨-, pre, r, post, left, rfl, rfl, hc⟩ := h
  have hleft : left.bytes ⊆ r.bytes := Set.Ico_subset_Ico hc.left_ge hc.left_le
  rw [bytesOf_append, bytesOf_append, bytesOf_append, bytesOf_cons]
  gcongr
  exact (bytesOf_keep_subset left).trans hleft

/-- The block taken is no longer on the list. -/
theorem Takes.block_disjoint (h : Takes rs rs' p size alignment) (hL : Layout rs) :
    Disjoint (Set.Ico p (p + size)) (bytesOf rs') := by
  obtain ⟨-, pre, r, post, left, rfl, rfl, hc⟩ := h
  obtain ⟨-, hbelow, habove, -⟩ := Layout.middle_iff.1 hL
  have hblock := hc.block_ge
  have hblock' := hc.block_le
  rw [Set.disjoint_left]
  rintro b hb ⟨x, hx, hxb⟩
  simp only [Region.bytes, Set.mem_Ico] at hb hxb
  rcases List.mem_append.1 hx with hx | hx
  · have := hbelow x hx
    omega
  rcases List.mem_append.1 hx with hx | hx
  · have hxl := bytesOf_keep_subset left ⟨x, hx, hxb⟩
    simp only [Region.bytes, Set.mem_Ico] at hxl
    rcases hc.apart with hapart | hapart <;> omega
  · have := habove x hx
    omega

/-- The remainder of a region is no larger than the region. -/
theorem Takes.small (h : Takes rs rs' p size alignment) {bound : Nat}
    (hrs : ∀ r ∈ rs, r.size < bound) : ∀ r ∈ rs', r.size < bound := by
  obtain ⟨-, pre, r, post, left, rfl, rfl, hc⟩ := h
  intro x hx
  rcases List.mem_append.1 hx with hx | hx
  · exact hrs x (by simp [hx])
  rcases List.mem_append.1 hx with hx | hx
  · have hr := hrs r (by simp)
    have hge := hc.left_ge
    have hle := hc.left_le
    simp only [Region.stop] at hle
    rw [keep] at hx
    split_ifs at hx
    · cases hx
    · rw [List.mem_singleton.1 hx]
      omega
  · exact hrs x (by simp [hx])

theorem Takes.length_le (h : Takes rs rs' p size alignment) : rs'.length ≤ rs.length := by
  obtain ⟨-, pre, r, post, left, rfl, rfl, -⟩ := h
  have : (keep left).length ≤ 1 := by
    rw [keep]
    split_ifs <;> simp
  simp only [List.length_append, List.length_cons]
  omega

/-! ## Sequences of calls -/

/-- One call of `boot_alloc`, with the states around it. -/
structure AllocCall where
  size : Nat
  alignment : Nat
  result : Nat
  before : Machine
  after : Machine

/-- The calls `boot_alloc(size, alignment)` for each request, one after the other. -/
def bootAllocs (fuel : Nat) : Machine → List (Nat × Nat) → Result (List AllocCall × Machine)
  | s, [] => .ok ([], s)
  | s, (size, alignment) :: requests => do
    let (p, s') ← bootAlloc fuel s size alignment
    let (calls, s'') ← bootAllocs fuel s' requests
    return (⟨size, alignment, p, s, s'⟩ :: calls, s'')

/-- What a call was asked for. -/
def AllocCall.request (c : AllocCall) : Nat × Nat := (c.size, c.alignment)

/-- There is a call for each request, in their order. -/
theorem bootAllocs_requests {fuel : Nat} {s s' : Machine} {requests : List (Nat × Nat)}
    {calls : List AllocCall} (h : bootAllocs fuel s requests = .ok (calls, s')) :
    calls.map AllocCall.request = requests := by
  induction requests generalizing s calls with
  | nil =>
    cases h
    rfl
  | cons q requests ih =>
    obtain ⟨⟨p, s₁⟩, -, h⟩ := bind_eq_ok.1 h
    obtain ⟨⟨rest, s₂⟩, hrest, h⟩ := bind_eq_ok.1 h
    cases h
    rw [List.map_cons, ih hrest]
    rfl

/-- The block a call returned: nothing, when it failed. -/
def AllocCall.block (c : AllocCall) : Set Nat :=
  {b | c.result ≠ NULL ∧ c.result ≤ b ∧ b < c.result + c.size}

/-- The call kept the list well formed, and its block is aligned and was free. -/
structure AllocCall.Sound (c : AllocCall) : Prop where
  before : ∃ fl, WellFormed c.before fl ∧
    (c.result ≠ NULL → ∃ r ∈ fl.regions, r.addr ≤ c.result ∧ c.result + c.size ≤ r.stop)
  aligned : c.result ≠ NULL → 2 ^ c.alignment ∣ c.result
  after : ∃ fl, WellFormed c.after fl

/-- One call from a well-formed list. -/
theorem bootAlloc_sound {s : Machine} {fl : FreeList} {fuel : Nat} (h : WellFormed s fl)
    (h63 : size + 2 ^ alignment < 2 ^ 63) (hfuel : fl.regions.length < fuel) :
    ∃ p s' fl', bootAlloc fuel s size alignment = .ok (p, s') ∧ WellFormed s' fl' ∧
      fl'.regions.length ≤ fl.regions.length ∧ bytesOf fl'.regions ⊆ bytesOf fl.regions ∧
      AllocCall.Sound ⟨size, alignment, p, s, s'⟩ ∧
      AllocCall.block ⟨size, alignment, p, s, s'⟩ ⊆ bytesOf fl.regions ∧
      Disjoint (AllocCall.block ⟨size, alignment, p, s, s'⟩) (bytesOf fl'.regions) := by
  obtain ⟨p, s', hs', ⟨rfl, rfl⟩ | ⟨hp, rs', htakes, hseg'⟩⟩ :=
    bootAlloc_spec h63 fl.layout h.represents hfuel
  · have hnone : AllocCall.block ⟨size, alignment, NULL, s', s'⟩ = ∅ := by
      simp [AllocCall.block]
    refine ⟨NULL, s', fl, hs', h, le_rfl, le_rfl, ⟨⟨fl, h, ?_⟩, ?_, ⟨fl, h⟩⟩, ?_, ?_⟩
    · exact fun hne => absurd rfl hne
    · exact fun hne => absurd rfl hne
    · rw [hnone]
      exact Set.empty_subset _
    · rw [hnone]
      exact Set.disjoint_left.2 fun b hb => absurd hb (Set.notMem_empty b)
  · let fl' : FreeList := ⟨rs', htakes.layout fl.layout⟩
    have h' : WellFormed s' fl' := ⟨hseg', htakes.small h.small⟩
    obtain ⟨r, hr, hge, hle⟩ := htakes.block_subset
    have hblock : AllocCall.block ⟨size, alignment, p, s, s'⟩ ⊆ Set.Ico p (p + size) :=
      fun b hb => hb.2
    refine ⟨p, s', fl', hs', h', htakes.length_le, htakes.bytes_subset,
      ⟨⟨fl, h, fun _ => ⟨r, hr, hge, hle⟩⟩, fun _ => htakes.aligned, ⟨fl', h'⟩⟩, ?_,
      (htakes.block_disjoint fl.layout).mono_left hblock⟩
    exact fun b hb => ⟨r, hr, hge.trans hb.2.1, hb.2.2.trans_le hle⟩

/-- **Sequences of allocations are safe.** There is a call for each request; every call of the
sequence is sound, the list is well formed at the end, and the blocks are disjoint from each other
and from what is still free. -/
theorem bootAllocs_safe {s : Machine} {fl : FreeList} {fuel : Nat} {requests : List (Nat × Nat)}
    (h : WellFormed s fl) (h63 : ∀ q ∈ requests, q.1 + 2 ^ q.2 < 2 ^ 63)
    (hfuel : fl.regions.length < fuel) :
    ∃ calls s' fl', bootAllocs fuel s requests = .ok (calls, s') ∧
      calls.map AllocCall.request = requests ∧ WellFormed s' fl' ∧
      (∀ c ∈ calls, c.Sound) ∧ calls.Pairwise (fun c d => Disjoint c.block d.block) ∧
      ∀ c ∈ calls, Disjoint c.block (bytesOf fl'.regions) := by
  -- carried along: what is handed out, or still free at the end, was free at the start
  suffices ∃ calls s' fl', bootAllocs fuel s requests = .ok (calls, s') ∧ WellFormed s' fl' ∧
      (∀ c ∈ calls, c.Sound) ∧ calls.Pairwise (fun c d => Disjoint c.block d.block) ∧
      (∀ c ∈ calls, Disjoint c.block (bytesOf fl'.regions)) ∧
      (∀ c ∈ calls, c.block ⊆ bytesOf fl.regions) ∧
      bytesOf fl'.regions ⊆ bytesOf fl.regions by
    obtain ⟨calls, s', fl', hrun, hwf, hsound, hpair, hdisj, -⟩ := this
    exact ⟨calls, s', fl', hrun, bootAllocs_requests hrun, hwf, hsound, hpair, hdisj⟩
  induction requests generalizing s fl with
  | nil => exact ⟨[], s, fl, rfl, h, by simp, .nil, by simp, by simp, le_rfl⟩
  | cons q requests ih =>
    obtain ⟨p, s₁, fl₁, hs₁, hwf₁, hlen, hsub₁, hsound₁, hblock₁, hdisj₁⟩ :=
      bootAlloc_sound h (h63 q (by simp)) hfuel
    obtain ⟨calls, s', fl', hrun, hwf', hsound, hpair, hdisj, hblocks, hsub⟩ :=
      ih hwf₁ (fun q' hq' => h63 q' (List.mem_cons_of_mem q hq')) (hlen.trans_lt hfuel)
    refine ⟨⟨q.1, q.2, p, s, s₁⟩ :: calls, s', fl', ?_, hwf', ?_, ?_, ?_, ?_, hsub.trans hsub₁⟩
    · simp only [bootAllocs, hs₁, ok_bind, hrun, pure_eq_ok]
    · exact List.forall_mem_cons.2 ⟨hsound₁, hsound⟩
    · exact List.pairwise_cons.2 ⟨fun c hc => hdisj₁.mono_right (hblocks c hc), hpair⟩
    · exact List.forall_mem_cons.2 ⟨hdisj₁.mono_right hsub, hdisj⟩
    · exact List.forall_mem_cons.2 ⟨hblock₁, fun c hc => (hblocks c hc).trans hsub₁⟩

/-- Two requests on `twoPages`, the second larger than any page. -/
theorem bootAllocs_safe_twoPages :
    ∃ calls s' fl', bootAllocs 3 twoPages.machine [(0x100, 8), (0x2000, 12)] = .ok (calls, s') ∧
      calls.map AllocCall.request = [(0x100, 8), (0x2000, 12)] ∧ WellFormed s' fl' ∧
      (∀ c ∈ calls, c.Sound) ∧
      calls.Pairwise (fun c d => Disjoint c.block d.block) ∧
      ∀ c ∈ calls, Disjoint c.block (bytesOf fl'.regions) :=
  bootAllocs_safe ⟨represents_machine twoPages, by decide⟩ (by decide) (by decide)

end RiscyOs
