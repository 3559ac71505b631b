import RiscyOs.FdtMem.Carve

/-!
# Freeing one region

`try_boot_free_region` looks at all reserved ranges again after every split. Its recursion ends
because a part that was split off misses the ranges that were looked at so far.

* `tryBootFreeRegion_eq`: the recursion is `freeAll` over the pieces of the region.
* `tryBootFreeRegion_recorded`: what a `boot_free` that always succeeds is called with.
-/

namespace RiscyOs

open ByteMemory Ranges

section
variable {σ : Type} (free : σ → Nat → Nat → Result (KError × σ))

/-- Free the regions one after the other; the result is the number of bytes freed. -/
def freeAll : σ → List (Nat × Nat) → Result (Nat × σ)
  | s, [] => .ok (0, s)
  | s, p :: ps => do
    let (code, s) ← free s p.1 p.2
    let (freed, s) ← freeAll s ps
    return (wadd (if code = .success then p.2 else 0) freed, s)

/-! ## What is handed on -/

/-- The ranges that stay off limits: everything below the kernel's end, and what is reserved. -/
def Blob.offLimits (b : Blob) (kernelEnd : Nat) : List (Nat × Nat) := (0, kernelEnd) :: b.reserved

/-- The parts of a region that are not off limits. -/
def Blob.pieces (b : Blob) (kernelEnd : Nat) (r : Nat × Nat) : List (Nat × Nat) :=
  cutAll (b.offLimits kernelEnd) r

/-- A region that may be passed to `boot_free`. -/
structure Blob.Allowed (b : Blob) (kernelEnd : Nat) (p : Nat × Nat) : Prop where
  pos : 0 < p.2
  noWrap : p.1 + p.2 < 2 ^ 64
  misses : ∀ e ∈ b.offLimits kernelEnd, Misses e p

variable {b : Blob} {kernelEnd : Nat}

theorem Blob.allowed_of_mem {p r : Nat × Nat} (hr : r.1 + r.2 < 2 ^ 64)
    (hp : p ∈ b.pieces kernelEnd r) : b.Allowed kernelEnd p where
  pos := pos_of_mem_cutAll hp
  noWrap := (within_of_mem_cutAll hp).2.trans_lt hr
  misses := misses_of_mem_cutAll hp

/-- **A byte is left exactly when it is above the kernel, not reserved and not in the blob.** -/
theorem Blob.covers_pieces {r : Nat × Nat} {x : Nat} :
    Covers (b.pieces kernelEnd r) x ↔
      Has r x ∧ kernelEnd ≤ x ∧ ¬ Covers b.reserve x ∧ ¬ Has (b.fdt, b.totalsize) x := by
  have hkernel : Has (0, kernelEnd) x ↔ ¬ kernelEnd ≤ x := by
    unfold Has
    dsimp only
    omega
  have hblob : Covers [(b.fdt, b.totalsize)] x ↔ Has (b.fdt, b.totalsize) x := by simp [Covers]
  rw [pieces, covers_cutAll, offLimits, reserved, covers_cons, covers_append, hkernel, hblob]
  tauto

/-! ## Runs of `boot_free` -/

/-- The first call of a run, and the run after it. -/
theorem freeAll_cons_ok {s s' : σ} {p : Nat × Nat} {ps : List (Nat × Nat)} {freed : Nat}
    (h : freeAll free s (p :: ps) = .ok (freed, s')) :
    ∃ code s₁ rest, free s p.1 p.2 = .ok (code, s₁) ∧ freeAll free s₁ ps = .ok (rest, s') := by
  rw [freeAll] at h
  cases hcall : free s p.1 p.2 with
  | error e =>
    rw [hcall] at h
    cases h
  | ok x =>
    obtain ⟨code, s₁⟩ := x
    simp only [hcall, ok_bind] at h
    cases hrest : freeAll free s₁ ps with
    | error e =>
      rw [hrest] at h
      cases h
    | ok y =>
      rw [hrest] at h
      cases h
      exact ⟨code, s₁, y.1, rfl, hrest⟩

theorem freeAll_lt {s s' : σ} {ps : List (Nat × Nat)} {freed : Nat}
    (h : freeAll free s ps = .ok (freed, s')) : freed < 2 ^ 64 := by
  cases ps with
  | nil =>
    cases h
    norm_num
  | cons p ps =>
    simp only [freeAll] at h
    cases hfree : free s p.1 p.2 with
    | error e => rw [hfree] at h; cases h
    | ok r =>
      rw [hfree, ok_bind] at h
      cases hrest : freeAll free r.2 ps with
      | error e => rw [hrest] at h; cases h
      | ok r' =>
        rw [hrest, ok_bind] at h
        cases h
        exact wadd_lt _ _

theorem wadd_assoc (a b c : Nat) : wadd (wadd a b) c = wadd a (wadd b c) := by
  unfold wadd
  rw [Nat.mod_add_mod, Nat.add_mod_mod, Nat.add_assoc]

theorem freeAll_append (s : σ) (ps qs : List (Nat × Nat)) :
    freeAll free s (ps ++ qs) = do
      let (freed, s) ← freeAll free s ps
      let (freed', s) ← freeAll free s qs
      return (wadd freed freed', s) := by
  induction ps generalizing s with
  | nil =>
    simp only [List.nil_append, freeAll, ok_bind]
    cases hqs : freeAll free s qs with
    | error e => rfl
    | ok r =>
      have hlt : r.1 < 2 ^ 64 := freeAll_lt free hqs
      have hzero : wadd 0 r.1 = r.1 := by rw [wadd, Nat.zero_add, Nat.mod_eq_of_lt hlt]
      simp only [ok_bind, hzero]
      rfl
  | cons p ps ih =>
    simp only [List.cons_append, freeAll, ih]
    cases free s p.1 p.2 with
    | error e => rfl
    | ok r =>
      simp only [ok_bind]
      cases freeAll free r.2 ps with
      | error e => rfl
      | ok r' =>
        simp only [ok_bind, pure_eq_ok]
        cases freeAll free r'.2 qs with
        | error e => rfl
        | ok r'' => simp only [ok_bind, wadd_assoc]

/-- What the state satisfies before every call of `boot_free` on an allowed region. -/
structure Keeps (b : Blob) (kernelEnd : Nat) (view : σ → View) (Inv : σ → Prop) : Prop where
  mapIn : ∀ {s : σ}, Inv s → b.MapIn (view s)
  free : ∀ {s s' : σ} {code : KError} {p : Nat × Nat}, Inv s → b.Allowed kernelEnd p →
    free s p.1 p.2 = .ok (code, s') → Inv s'

variable {free}

theorem Keeps.freeAll {view : σ → View} {Inv : σ → Prop} (hk : Keeps free b kernelEnd view Inv)
    {s s' : σ} {ps : List (Nat × Nat)} {freed : Nat} (hs : Inv s)
    (hps : ∀ p ∈ ps, b.Allowed kernelEnd p) (h : freeAll free s ps = .ok (freed, s')) : Inv s' := by
  induction ps generalizing s freed with
  | nil =>
    cases h
    exact hs
  | cons p ps ih =>
    simp only [RiscyOs.freeAll] at h
    cases hfree : free s p.1 p.2 with
    | error e => rw [hfree] at h; cases h
    | ok r =>
      rw [hfree, ok_bind] at h
      cases hrest : RiscyOs.freeAll free r.2 ps with
      | error e => rw [hrest] at h; cases h
      | ok r' =>
        rw [hrest, ok_bind] at h
        cases h
        have hinv : Inv r.2 := hk.free hs (hps p List.mem_cons_self)
          (show free s p.1 p.2 = .ok (r.1, r.2) from hfree)
        exact ih hinv (fun q hq => hps q (List.mem_cons_of_mem p hq)) hrest

/-! ## The recursion -/

variable {view : σ → View} {Inv : σ → Prop} {fuel : Nat}

/-- A region that reaches down to the kernel is cut off at the kernel's end. -/
theorem tryBootFreeRegion_clip {start size n : Nat} (s : σ) (hwrap : start + size < 2 ^ 64)
    (hlo : start < kernelEnd) (hhi : kernelEnd < start + size) :
    tryBootFreeRegion view free kernelEnd fuel b.fdt (n + 1) s start size =
      tryBootFreeRegion view free kernelEnd fuel b.fdt (n + 1) s kernelEnd
        (start + size - kernelEnd) := by
  have hsum : kernelEnd + (start + size - kernelEnd) = start + size := by omega
  have hstop : wadd kernelEnd (start + size - kernelEnd) = start + size := by
    rw [wadd, hsum, Nat.mod_eq_of_lt hwrap]
  unfold tryBootFreeRegion
  dsimp only
  rw [wadd_eq hwrap, hstop, wsub_eq hhi.le hwrap, if_neg (by omega), if_neg (by omega),
    if_pos hlo, if_neg (by omega), if_neg (fun h => lt_irrefl kernelEnd h.1),
    if_neg (lt_irrefl kernelEnd)]

/-- Above the kernel only the reserved ranges matter. -/
theorem tryBootFreeRegion_above {r : Nat × Nat} {n : Nat} (s : σ) (hmap : b.MapIn (view s))
    (hfuel : b.reserve.length < fuel) (hpos : 0 < r.2) (hlo : kernelEnd ≤ r.1) :
    tryBootFreeRegion view free kernelEnd fuel b.fdt (n + 1) s r.1 r.2 =
      match carveList b.reserved r.1 r.2 with
      | .gone => .ok (0, s)
      | .split start size splitStart splitSize => do
        let (freed, s) ← tryBootFreeRegion view free kernelEnd fuel b.fdt n s start size
        let (splitFreed, s) ←
          tryBootFreeRegion view free kernelEnd fuel b.fdt n s splitStart splitSize
        return (wadd freed splitFreed, s)
      | .whole start size => do
        let (code, s) ← free s start size
        return (if code = .success then size else 0, s) := by
  rw [tryBootFreeRegion]
  dsimp only
  rw [if_neg hpos.ne', if_neg (fun h => absurd h.1 (not_lt.2 hlo)), if_neg (not_lt.2 hlo)]
  dsimp only
  rw [carve_eq hmap hfuel, ok_bind]
  rfl

theorem tryBootFreeRegion_rest (hk : Keeps free b kernelEnd view Inv)
    (hfuel : b.reserve.length < fuel) (hU : ∀ e ∈ b.reserved, e.1 + e.2 < 2 ^ 64)
    {done rest : List (Nat × Nat)} (hdone : b.reserved = done ++ rest) {n : Nat}
    (hn : rest.length < n) {r : Nat × Nat} (hmiss : ∀ e ∈ done, Misses e r) (hpos : 0 < r.2)
    (hr : r.1 + r.2 < 2 ^ 64) (hlo : kernelEnd ≤ r.1) {s : σ} (hs : Inv s) :
    tryBootFreeRegion view free kernelEnd fuel b.fdt n s r.1 r.2 =
      freeAll free s (cutAll rest r) := by
  induction n using Nat.strong_induction_on generalizing done rest r s with
  | _ n ih =>
    obtain ⟨n, rfl⟩ : ∃ k, n = k + 1 := ⟨n - 1, by omega⟩
    have hrest : ∀ e ∈ rest, e.1 + e.2 < 2 ^ 64 := by
      intro e he
      exact hU e (hdone ▸ List.mem_append_right done he)
    have hlist : carveList b.reserved r.1 r.2 = carveList rest r.1 r.2 := by
      rw [hdone]
      exact carveList_append hpos hr fun e he =>
        ⟨hmiss e he, hU e (hdone ▸ List.mem_append_left rest he)⟩
    rw [tryBootFreeRegion_above s (hk.mapIn hs) hfuel hpos hlo, hlist]
    have hspec := carveList_spec hpos hr hrest
    generalize carveList rest r.1 r.2 = c at hspec
    cases hspec with
    | gone left =>
      rw [left]
      rfl
    | @whole p left =>
      have hp : p ∈ cutAll rest r := by
        rw [left]
        exact List.mem_singleton_self p
      have hlt : p.2 < 2 ^ 64 := by
        have := (within_of_mem_cutAll hp).2
        omega
      rw [left]
      simp only [freeAll, ok_bind]
      cases free s p.1 p.2 with
      | error e => rfl
      | ok x =>
        simp only [ok_bind, pure_eq_ok]
        rw [wadd_zero (by split_ifs <;> omega)]
    | @split p q done' rest' ranges fewer misses pos within left =>
      have hranges : b.reserved = (done ++ done') ++ rest' := by
        rw [hdone, ranges, List.append_assoc]
      have hlt : rest'.length < n := by omega
      have hp : ∀ e ∈ done ++ done', Misses e p := by
        intro e he
        rcases List.mem_append.1 he with he | he
        · exact (hmiss e he).within within.1
        · exact (misses e he).1
      have hq : ∀ e ∈ done ++ done', Misses e q := by
        intro e he
        rcases List.mem_append.1 he with he | he
        · exact (hmiss e he).within within.2
        · exact (misses e he).2
      have hallowed : ∀ p' ∈ cutAll rest' p, b.Allowed kernelEnd p' := by
        intro p' hp'
        have hin := (within_of_mem_cutAll hp').trans within.1
        refine ⟨pos_of_mem_cutAll hp', hin.2.trans_lt hr, ?_⟩
        intro e he
        rcases List.mem_cons.1 he with rfl | he
        · exact .inl ((Nat.zero_add kernelEnd).trans_le (hlo.trans hin.1))
        · rw [hranges] at he
          rcases List.mem_append.1 he with he | he
          · exact (hp e he).within (within_of_mem_cutAll hp')
          · exact misses_of_mem_cutAll hp' e he
      rw [left, freeAll_append]
      dsimp only
      rw [ih n (Nat.lt_succ_self n) hranges hlt hp pos.1 (within.1.2.trans_lt hr)
        (hlo.trans within.1.1) hs]
      cases hfirst : freeAll free s (cutAll rest' p) with
      | error e => rfl
      | ok x =>
        have hinv : Inv x.2 := hk.freeAll hs hallowed
          (show freeAll free s (cutAll rest' p) = .ok (x.1, x.2) from hfirst)
        simp only [ok_bind]
        rw [ih n (Nat.lt_succ_self n) hranges hlt hq pos.2 (within.2.2.trans_lt hr)
          (hlo.trans within.2.1) hinv]

/-- **`try_boot_free_region` passes the pieces of the region to `boot_free`, in order.** -/
theorem tryBootFreeRegion_eq (hk : Keeps free b kernelEnd view Inv)
    (hfuel : b.reserve.length < fuel) (hreserve : ∀ e ∈ b.reserve, e.1 + e.2 < 2 ^ 64) {n : Nat}
    (hn : b.reserve.length + 1 < n) {r : Nat × Nat} (hr : r.1 + r.2 < 2 ^ 64) {s : σ}
    (hs : Inv s) :
    tryBootFreeRegion view free kernelEnd fuel b.fdt n s r.1 r.2 =
      freeAll free s (b.pieces kernelEnd r) := by
  have hU : ∀ e ∈ b.reserved, e.1 + e.2 < 2 ^ 64 := by
    intro e he
    rcases List.mem_append.1 he with he | he
    · exact hreserve e he
    · rw [List.mem_singleton.1 he]
      exact b.noWrap
  have hlen : b.reserved.length < n := by
    rw [Blob.reserved, List.length_append, List.length_singleton]
    exact hn
  have hrest : ∀ {p : Nat × Nat}, 0 < p.2 → p.1 + p.2 < 2 ^ 64 → kernelEnd ≤ p.1 →
      tryBootFreeRegion view free kernelEnd fuel b.fdt n s p.1 p.2 =
        freeAll free s (cutAll b.reserved p) := by
    intro p hpos hp hlo
    exact tryBootFreeRegion_rest hk hfuel hU (List.nil_append b.reserved).symm hlen (by simp) hpos
      hp hlo hs
  obtain ⟨n, rfl⟩ : ∃ k, n = k + 1 := ⟨n - 1, by omega⟩
  rw [Blob.pieces, Blob.offLimits, cutAll]
  by_cases hzero : r.2 = 0
  · have hcut : cutOut (0, kernelEnd) r = [] := by
      apply List.eq_nil_iff_forall_not_mem.2
      intro p hp
      have hin := within_of_mem_cutOut hp
      have := pos_of_mem_cutOut hp
      unfold Within at hin
      omega
    rw [hcut, tryBootFreeRegion, if_pos hzero]
    rfl
  have hpos : 0 < r.2 := Nat.pos_of_ne_zero hzero
  by_cases hlo : kernelEnd ≤ r.1
  · rw [hrest hpos hr hlo, cutOut_of_misses (.inl ((Nat.zero_add kernelEnd).trans_le hlo)) hpos,
      List.flatMap_singleton]
  · by_cases hhi : r.1 + r.2 ≤ kernelEnd
    · rw [cutOut_covered (Nat.zero_le r.1) (hhi.trans (Nat.zero_add kernelEnd).ge),
        tryBootFreeRegion]
      dsimp only
      rw [if_neg hzero, wadd_eq hr, if_pos ⟨not_le.1 hlo, hhi⟩]
      rfl
    · have hsum : kernelEnd + (r.1 + r.2 - kernelEnd) = r.1 + r.2 := by omega
      rw [tryBootFreeRegion_clip s hr (not_le.1 hlo) (not_le.1 hhi),
        hrest (p := (kernelEnd, r.1 + r.2 - kernelEnd)) (by dsimp only; omega)
          (hsum.trans_lt hr) le_rfl,
        cutOut_low (Nat.zero_le r.1) (by dsimp only; omega) (by dsimp only; omega)]
      simp only [Nat.zero_add, List.flatMap_singleton]

end

/-! ## A `boot_free` that always succeeds -/

/-- Remember the region and succeed. -/
def record (calls : List (Nat × Nat)) (start size : Nat) :
    Result (KError × List (Nat × Nat)) := .ok (.success, calls ++ [(start, size)])

theorem freeAll_record (calls ps : List (Nat × Nat)) (h : (ps.map Prod.snd).sum < 2 ^ 64) :
    freeAll record calls ps = .ok ((ps.map Prod.snd).sum, calls ++ ps) := by
  induction ps generalizing calls with
  | nil => simp [freeAll]
  | cons p ps ih =>
    rw [List.map_cons, List.sum_cons] at h ⊢
    have hrec : record calls p.1 p.2 = .ok (.success, calls ++ [p]) := rfl
    rw [freeAll, hrec, ok_bind]
    dsimp only
    rw [ih _ (by omega), ok_bind, if_pos rfl, pure_eq_ok, wadd_eq h, List.append_assoc]
    rfl

/-- **The regions passed to `boot_free` are the region without the kernel, the reserve entries and
the blob.** They are not empty, no two of them meet, and the result is the sum of their sizes. -/
theorem tryBootFreeRegion_recorded {b : Blob} {v : View} {kernelEnd fuel start size : Nat}
    (hb : b.MapIn v) (hreserve : ∀ e ∈ b.reserve, e.1 + e.2 < 2 ^ 64)
    (hwrap : start + size < 2 ^ 64) (hfuel : b.reserve.length + 1 < fuel) :
    ∃ freed calls,
      tryBootFreeRegion (fun _ => v) record kernelEnd fuel b.fdt fuel [] start size =
        .ok (freed, calls) ∧
      (∀ p ∈ calls, 0 < p.2) ∧
      calls.Pairwise (fun p q => ∀ x, ¬ (Has p x ∧ Has q x)) ∧
      (∀ x, Covers calls x ↔
        Has (start, size) x ∧ kernelEnd ≤ x ∧ ¬ Covers b.reserve x ∧
          ¬ Has (b.fdt, b.totalsize) x) ∧
      freed = (calls.map Prod.snd).sum := by
  have hkeeps : Keeps record b kernelEnd (fun _ => v) (fun _ => True) :=
    ⟨fun _ => hb, fun _ _ _ => trivial⟩
  have hsum : ((b.pieces kernelEnd (start, size)).map Prod.snd).sum ≤ size := sum_cutAll_le _ _
  refine ⟨_, b.pieces kernelEnd (start, size), ?_, fun p hp => pos_of_mem_cutAll hp, ?_,
    fun x => Blob.covers_pieces, rfl⟩
  · have hrun := tryBootFreeRegion_eq (r := (start, size)) (s := []) hkeeps
      (Nat.lt_of_succ_lt hfuel) hreserve hfuel hwrap trivial
    rw [freeAll_record _ _ (by omega), List.nil_append] at hrun
    exact hrun
  · apply (ordered_cutAll _ _).imp
    intro p q hpq x hx
    have := hx.1.2
    have := hx.2.1
    omega

theorem tryBootFreeRegion_recorded_board :
    ∃ freed calls,
      tryBootFreeRegion (fun _ => boardView) record 0x80000100 100 0x1000 100 [] 0x80000000 0x1000 =
        .ok (freed, calls) ∧
      (∀ p ∈ calls, 0 < p.2) ∧
      calls.Pairwise (fun p q => ∀ x, ¬ (Has p x ∧ Has q x)) ∧
      (∀ x, Covers calls x ↔
        Has (0x80000000, 0x1000) x ∧ 0x80000100 ≤ x ∧ ¬ Covers boardBlob.reserve x ∧
          ¬ Has (boardBlob.fdt, boardBlob.totalsize) x) ∧
      freed = (calls.map Prod.snd).sum :=
  tryBootFreeRegion_recorded (b := boardBlob) board_in.toMapIn (by decide)
    (by decide) (by decide)

end RiscyOs
