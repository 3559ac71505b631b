import RiscyOs.Boot.BestFit

/-!
# Where the nodes of the list stand

A node moves when a block is taken off the low end of its region: by the size of the block and the
padding below it. A `struct boot_free_region` must stand at a multiple of `8`, but the size is not
rounded up.

`bootAllocs_aligned_iff`: the nodes stay aligned in every state of a run exactly when no call of it
moves one by another distance.
-/

namespace RiscyOs

open ByteMemory

variable {s : Machine} {fl : FreeList} {r : Region} {rs : List Region} {size alignment fuel : Nat}

/-- Every node of the list stands at a multiple of `8`. -/
def HeadersAligned (s : Machine) : Prop := ∃ fl, Represents s fl ∧ ∀ r ∈ fl.regions, 8 ∣ r.addr

/-- The request moves no node by another distance than a multiple of `8`: a region whose low end
would be taken so, and of which a node is kept, loses against another region. -/
def MovesAligned (size alignment : Nat) (rs : List Region) : Prop :=
  ∀ r ∈ rs, 0 ≤ greater size alignment r → placedLow size alignment r →
    size + lowPad r alignment + regionHeader ≤ r.size → ¬ 8 ∣ size + lowPad r alignment →
      ∃ c ∈ rs, 0 ≤ greater size alignment c ∧ Beats (greater size alignment) c r

/-- At the best fit, nodes stay aligned exactly when what is left starts aligned. -/
theorem movesAligned_iff (hL : Layout rs) (h8 : 8 ∣ r.addr)
    (hbest : bestFit size alignment rs = some r) :
    MovesAligned size alignment rs ↔
      ∀ x ∈ keep (placedRest size alignment r), 8 ∣ x.addr := by
  obtain ⟨⟨hmem, hnonneg⟩, hfirst⟩ := (leastLeft_eq_some_iff hL).1 hbest
  constructor
  · intro hmoves x hx
    rw [keep] at hx
    split_ifs at hx with hsmall
    · cases hx
    obtain rfl := List.mem_singleton.1 hx
    by_cases hlow : placedLow size alignment r
    · rw [placedRest, if_pos hlow] at hsmall ⊢
      have hroom : size + lowPad r alignment + regionHeader ≤ r.size := by
        simp only [regionHeader] at hsmall ⊢
        omega
      refine Nat.dvd_add h8 (by_contra fun hnot => ?_)
      obtain ⟨c, hc, hseen, hbeats⟩ := hmoves r hmem hnonneg hlow hroom hnot
      exact hfirst c hc hseen hbeats
    · rwa [placedRest, if_neg hlow]
  · intro hkeep c hc hseen hlow hroom hnot
    by_cases hcr : c = r
    · subst hcr
      have hleft : (placedRest size alignment c).addr = c.addr + (size + lowPad c alignment) := by
        rw [placedRest, if_pos hlow]
      have hsize : regionHeader ≤ (placedRest size alignment c).size := by
        rw [placedRest, if_pos hlow]
        dsimp only
        omega
      have hdvd := hkeep _ (by rw [keep_of_le hsize]; exact List.mem_singleton_self _)
      rw [hleft] at hdvd
      exact absurd ((Nat.dvd_add_iff_right h8).2 hdvd) hnot
    · exact ⟨r, hmem, hnonneg, beats_of_leastLeft hL hbest hc hcr hseen⟩

/-- One call. -/
theorem bootAlloc_aligned_iff (h : Represents s fl) (h63 : size + 2 ^ alignment < 2 ^ 63)
    (hfuel : fl.regions.length < fuel) :
    ∃ p s' fl', bootAlloc fuel s size alignment = .ok (p, s') ∧ Represents s' fl' ∧
      fl'.regions.length ≤ fl.regions.length ∧ ((∀ r ∈ fl.regions, 8 ∣ r.addr) →
        ((∀ r ∈ fl'.regions, 8 ∣ r.addr) ↔ MovesAligned size alignment fl.regions)) := by
  have hL := fl.layout
  have halign := alignment_lt h63
  cases hbest : bestFit size alignment fl.regions with
  | none =>
    have hsize : size ≤ 2 ^ 64 := by
      have := request_lt h63
      omega
    have hrun := bootAlloc_eq hsize halign h hfuel
    rw [hbest] at hrun
    refine ⟨_, _, fl, hrun, h, le_rfl, fun h8 => iff_of_true h8 ?_⟩
    exact fun r hr hseen => absurd hseen (leastLeft_eq_none.1 hbest r hr)
  | some r =>
    have hmem := (mem_of_bestFit hbest).1
    have hfit := fits_of_bestFit hL h63 hbest
    obtain ⟨pre, post, hsplit⟩ := List.append_of_mem hmem
    obtain ⟨s', hs', hseg⟩ := bootAlloc_placed halign h hfuel hbest hfit hsplit
    refine ⟨_, s', ⟨_, (hsplit ▸ hL).placed hfit⟩, hs', hseg, ?_, fun h8 => ?_⟩
    · have hkeep : (keep (placedRest size alignment r)).length ≤ 1 := by
        rw [keep]
        split_ifs <;> simp
      simp only [hsplit, List.length_append, List.length_cons]
      omega
    · rw [movesAligned_iff hL (h8 r hmem) hbest]
      constructor
      · exact fun hall x hx => hall x (by simp [hx])
      · intro hkeep x hx
        rcases List.mem_append.1 hx with hx | hx
        · exact h8 x (by simp [hsplit, hx])
        rcases List.mem_append.1 hx with hx | hx
        · exact hkeep x hx
        · exact h8 x (by simp [hsplit, hx])

theorem headersAligned_iff (h : Represents s fl) :
    HeadersAligned s ↔ ∀ r ∈ fl.regions, 8 ∣ r.addr := by
  constructor
  · rintro ⟨fl', h', h8⟩
    rwa [h.unique h']
  · exact fun h8 => ⟨fl, h, h8⟩

/-- **When the nodes stay aligned in a run**: no call moves one by another distance than a multiple
of `8`. -/
theorem bootAllocs_aligned_iff {requests : List (Nat × Nat)} (h : Represents s fl)
    (h8 : ∀ r ∈ fl.regions, 8 ∣ r.addr ∧ 8 ∣ r.stop)
    (h63 : ∀ q ∈ requests, q.1 + 2 ^ q.2 < 2 ^ 63) (hfuel : fl.regions.length < fuel) :
    ∃ calls s', bootAllocs fuel s requests = .ok (calls, s') ∧
      calls.map AllocCall.request = requests ∧
      ((∀ c ∈ calls, HeadersAligned c.after) ↔
        ∀ c ∈ calls, ∀ fl, Represents c.before fl →
          MovesAligned c.size c.alignment fl.regions) := by
  -- the ends need not stay aligned, and once a node is off nothing more is said of the run
  suffices ∃ calls s', bootAllocs fuel s requests = .ok (calls, s') ∧
      ((∀ r ∈ fl.regions, 8 ∣ r.addr) → ((∀ c ∈ calls, HeadersAligned c.after) ↔
        ∀ c ∈ calls, ∀ fl, Represents c.before fl →
          MovesAligned c.size c.alignment fl.regions)) by
    obtain ⟨calls, s', hrun, hiff⟩ := this
    exact ⟨calls, s', hrun, bootAllocs_requests hrun, hiff fun r hr => (h8 r hr).1⟩
  clear h8
  induction requests generalizing s fl with
  | nil => exact ⟨[], s, rfl, by simp⟩
  | cons q requests ih =>
    have hrest := fun q' hq' => h63 q' (List.mem_cons_of_mem q hq')
    obtain ⟨p, s₁, fl₁, hs₁, h₁, hlen, hstep⟩ := bootAlloc_aligned_iff h (h63 q (by simp)) hfuel
    obtain ⟨calls, s', hrun, hiff⟩ := ih h₁ hrest (hlen.trans_lt hfuel)
    refine ⟨⟨q.1, q.2, p, s, s₁⟩ :: calls, s', ?_, fun h8 => ?_⟩
    · simp only [bootAllocs, hs₁, ok_bind, hrun, pure_eq_ok]
    · have hmoves : (∀ fl', Represents s fl' → MovesAligned q.1 q.2 fl'.regions) ↔
          MovesAligned q.1 q.2 fl.regions :=
        ⟨fun hall => hall fl h, fun hmoves fl' h' => h.unique h' ▸ hmoves⟩
      rw [List.forall_mem_cons, List.forall_mem_cons, hmoves, ← hstep h8, headersAligned_iff h₁]
      exact and_congr_right hiff

/-- Two requests on `twoPages`. -/
theorem bootAllocs_aligned_iff_twoPages :
    ∃ calls s', bootAllocs 3 twoPages.machine [(0x100, 8), (0x18, 3)] = .ok (calls, s') ∧
      calls.map AllocCall.request = [(0x100, 8), (0x18, 3)] ∧
      ((∀ c ∈ calls, HeadersAligned c.after) ↔
        ∀ c ∈ calls, ∀ fl, Represents c.before fl →
          MovesAligned c.size c.alignment fl.regions) :=
  bootAllocs_aligned_iff (represents_machine twoPages) (by decide) (by decide) (by decide)

/-- A region that ends at a page, but starts at an odd multiple of `8`. -/
def oddStart : FreeList :=
  ⟨[⟨0x1008, 0xff8⟩], ⟨by simp, by decide, by decide, by decide⟩⟩

/-- One byte at a multiple of `16` is taken off the low end, and the node moves to `0x1011`. -/
theorem oddStart_not_aligned :
    ¬ ∃ calls s', bootAllocs 2 oddStart.machine [(1, 4)] = .ok (calls, s') ∧
      ∀ c ∈ calls, HeadersAligned c.after := by
  rintro ⟨calls, s', hrun, hall⟩
  obtain ⟨p, s₁, fl₁, hs₁, h₁, -, hstep⟩ := bootAlloc_aligned_iff (represents_machine oddStart)
    (show 1 + 2 ^ 4 < 2 ^ 63 by decide) (show oddStart.regions.length < 2 by decide)
  simp only [bootAllocs, hs₁, ok_bind, pure_eq_ok] at hrun
  obtain ⟨rfl, -⟩ := Prod.mk.inj (Except.ok.inj hrun)
  have haligned := (headersAligned_iff h₁).1 (hall _ (List.mem_singleton_self _))
  have hmoves := (hstep (by decide)).1 haligned
  obtain ⟨c, hc, -, hbeats⟩ := hmoves ⟨0x1008, 0xff8⟩ (by simp [oddStart]) (by decide) (by decide)
    (by decide) (by decide)
  -- there is no other region
  obtain rfl := List.mem_singleton.1 hc
  exact hbeats.elim (lt_irrefl _) fun h => lt_irrefl _ h.2

end RiscyOs
