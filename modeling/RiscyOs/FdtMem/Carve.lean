import RiscyOs.Fdt.Encode
import RiscyOs.FdtMem.Model
import RiscyOs.Lib.Ranges

/-!
# What `try_boot_free_region` frees

A region is handed on without the kernel, the reserve entries and the blob: `Blob.pieces` is what
these ranges leave of it.

* `parts_trimOrSplit`: trimming or splitting around one range cuts it out.
* `carve_eq`: the loop over the reserve entries is a recursion over the ranges, `carveList`.
* `tryBootFreeRegion_eq`: `try_boot_free_region` passes the pieces to `boot_free`, in order.
* `tryBootFreeRegion_recorded`: the same with a `boot_free` that always succeeds.
-/

namespace RiscyOs

open ByteMemory FuelLoop Ranges

/-! ## One reserved range -/

/-- The regions that are left. -/
def Trimmed.parts : Trimmed → List (Nat × Nat)
  | .one start size => nonempty (start, size)
  | .two start size splitStart splitSize => [(start, size), (splitStart, splitSize)]

theorem parts_trimOrSplit {e r : Nat × Nat} (hpos : 0 < r.2) (hr : r.1 + r.2 < 2 ^ 64)
    (he : e.1 + e.2 < 2 ^ 64) :
    (trimOrSplitAroundReserved r.1 r.2 e.1 e.2).parts = cutOut e r := by
  unfold trimOrSplitAroundReserved
  dsimp only
  rw [wadd_eq hr, wadd_eq he]
  by_cases hmiss : e.1 + e.2 ≤ r.1 ∨ e.1 > r.1 + r.2
  · rw [if_pos hmiss, cutOut_of_misses (hmiss.imp_right le_of_lt) hpos]
    exact nonempty_of_pos hpos
  rw [if_neg hmiss]
  by_cases hlo : e.1 ≤ r.1
  · rw [if_pos hlo]
    by_cases hhi : e.1 + e.2 ≥ r.1 + r.2
    · rw [if_pos hhi, cutOut_covered hlo hhi]
      rfl
    · rw [if_neg hhi, cutOut_low hlo (by omega) (by omega), wsub_eq (by omega) hr]
      exact nonempty_of_pos (Nat.sub_pos_of_lt (not_le.1 hhi))
  · rw [if_neg hlo, wsub_eq (by omega) (by omega)]
    by_cases hhi : e.1 + e.2 < r.1 + r.2
    · rw [if_pos hhi, cutOut_inside (by omega) hhi, wsub_eq (by omega) hr]
      rfl
    · rw [if_neg hhi, cutOut_high (by omega) (by omega) (by omega)]
      exact nonempty_of_pos (Nat.sub_pos_of_lt (not_le.1 hlo))

/-- A range that misses the region leaves it as it is. -/
theorem trimOrSplit_of_misses {e r : Nat × Nat} (h : Misses e r) (hpos : 0 < r.2)
    (hr : r.1 + r.2 < 2 ^ 64) (he : e.1 + e.2 < 2 ^ 64) :
    trimOrSplitAroundReserved r.1 r.2 e.1 e.2 = .one r.1 r.2 := by
  have hparts := parts_trimOrSplit hpos hr he
  rw [cutOut_of_misses h hpos] at hparts
  cases ht : trimOrSplitAroundReserved r.1 r.2 e.1 e.2 with
  | one a n =>
    have hmem : r ∈ nonempty (a, n) := by
      rw [ht] at hparts
      show r ∈ (Trimmed.one a n).parts
      rw [hparts]
      exact List.mem_singleton_self r
    rw [(mem_nonempty.1 hmem).1]
  | two a n c k =>
    rw [ht] at hparts
    exact absurd (congrArg List.length hparts) (by simp [Trimmed.parts])

/-! ## All reserved ranges -/

/-- The loop over the reserved ranges as a recursion. -/
def carveList : List (Nat × Nat) → Nat → Nat → Carving
  | [], start, size => .whole start size
  | e :: U, start, size =>
    match trimOrSplitAroundReserved start size e.1 e.2 with
    | .two start size splitStart splitSize => .split start size splitStart splitSize
    | .one start size => if size = 0 then .gone else carveList U start size

/-- What one look at the ranges `U` makes of the region `r`. A split happens at the last range of
`done`; what `U` leaves of `r` is then what the other ranges leave of the two parts. -/
inductive Carves (U : List (Nat × Nat)) (r : Nat × Nat) : Carving → Prop where
  | gone (left : cutAll U r = []) : Carves U r .gone
  | whole {p : Nat × Nat} (left : cutAll U r = [p]) : Carves U r (.whole p.1 p.2)
  | split {p q : Nat × Nat} (done rest : List (Nat × Nat)) (ranges : U = done ++ rest)
      (fewer : rest.length < U.length) (misses : ∀ e ∈ done, Misses e p ∧ Misses e q)
      (pos : 0 < p.2 ∧ 0 < q.2) (within : Within p r ∧ Within q r)
      (left : cutAll U r = cutAll rest p ++ cutAll rest q) : Carves U r (.split p.1 p.2 q.1 q.2)

theorem Carves.cons {U : List (Nat × Nat)} {e r r' : Nat × Nat} {c : Carving}
    (hcut : cutOut e r = [r']) (h : Carves U r' c) : Carves (e :: U) r c := by
  have hleft : cutAll (e :: U) r = cutAll U r' := by
    rw [cutAll, hcut, List.flatMap_singleton]
  have hmem : r' ∈ cutOut e r := by
    rw [hcut]
    exact List.mem_singleton_self r'
  cases h with
  | gone left => exact .gone (hleft.trans left)
  | whole left => exact .whole (hleft.trans left)
  | @split p q done rest ranges fewer misses pos within left =>
    refine .split (e :: done) rest (congrArg (e :: ·) ranges) (Nat.lt_succ_of_lt fewer)
      ?_ pos
      ⟨within.1.trans (within_of_mem_cutOut hmem), within.2.trans (within_of_mem_cutOut hmem)⟩
      (hleft.trans left)
    intro e' he'
    rcases List.mem_cons.1 he' with rfl | he'
    · exact ⟨(misses_of_mem_cutOut hmem).within within.1,
        (misses_of_mem_cutOut hmem).within within.2⟩
    · exact misses e' he'

theorem carveList_spec {U : List (Nat × Nat)} {r : Nat × Nat} (hpos : 0 < r.2)
    (hr : r.1 + r.2 < 2 ^ 64) (hU : ∀ e ∈ U, e.1 + e.2 < 2 ^ 64) :
    Carves U r (carveList U r.1 r.2) := by
  induction U generalizing r with
  | nil => exact .whole (if_neg hpos.ne')
  | cons e U ih =>
    have hparts := parts_trimOrSplit hpos hr (hU e List.mem_cons_self)
    rw [carveList]
    cases ht : trimOrSplitAroundReserved r.1 r.2 e.1 e.2 with
    | one a n =>
      rw [ht] at hparts
      dsimp only
      by_cases hn : n = 0
      · rw [if_pos hn]
        have hcut : cutOut e r = [] := hparts.symm.trans (if_pos hn)
        exact .gone (by rw [cutAll, hcut, List.flatMap_nil])
      · rw [if_neg hn]
        have hcut : cutOut e r = [(a, n)] := hparts.symm.trans (if_neg hn)
        have hin : Within (a, n) r := within_of_mem_cutOut (e := e) (by rw [hcut]; simp)
        exact (ih (r := (a, n)) (Nat.pos_of_ne_zero hn) (hin.2.trans_lt hr)
          fun e' he' => hU e' (List.mem_cons_of_mem e he')).cons hcut
    | two a n c k =>
      rw [ht] at hparts
      have hp : (a, n) ∈ cutOut e r := by
        rw [← hparts]
        exact List.mem_cons_self
      have hq : (c, k) ∈ cutOut e r := by
        rw [← hparts]
        exact List.mem_cons_of_mem _ List.mem_cons_self
      refine .split (p := (a, n)) (q := (c, k)) [e] U rfl (Nat.lt_succ_self _) ?_
        ⟨pos_of_mem_cutOut hp, pos_of_mem_cutOut hq⟩
        ⟨within_of_mem_cutOut hp, within_of_mem_cutOut hq⟩ ?_
      · intro e' he'
        obtain rfl := List.mem_singleton.1 he'
        exact ⟨misses_of_mem_cutOut hp, misses_of_mem_cutOut hq⟩
      · rw [cutAll, ← hparts]
        simp [Trimmed.parts]

/-- Ranges that were cut out before are passed over. -/
theorem carveList_append {done rest : List (Nat × Nat)} {r : Nat × Nat} (hpos : 0 < r.2)
    (hr : r.1 + r.2 < 2 ^ 64) (hdone : ∀ e ∈ done, Misses e r ∧ e.1 + e.2 < 2 ^ 64) :
    carveList (done ++ rest) r.1 r.2 = carveList rest r.1 r.2 := by
  induction done with
  | nil => rfl
  | cons e done ih =>
    obtain ⟨hmiss, he⟩ := hdone e List.mem_cons_self
    rw [List.cons_append, carveList, trimOrSplit_of_misses hmiss hpos hr he]
    dsimp only
    rw [if_neg hpos.ne']
    exact ih fun e' he' => hdone e' (List.mem_cons_of_mem e he')

/-- One range more is one more look. -/
theorem carveList_concat (U : List (Nat × Nat)) (e : Nat × Nat) (start size : Nat) :
    carveList (U ++ [e]) start size =
      match carveList U start size with
      | .whole start size => carveList [e] start size
      | c => c := by
  induction U generalizing start size with
  | nil => rfl
  | cons e' U ih =>
    rw [List.cons_append, carveList, carveList]
    cases trimOrSplitAroundReserved start size e'.1 e'.2 with
    | one a n =>
      dsimp only
      split_ifs
      · rfl
      · exact ih a n
    | two a n c k => rfl

/-! ## The reserve entries -/

variable {b : Blob} {v : View} {fuel kernelEnd : Nat}

/-- The pointer to the entries `es` that stand at `a`. -/
def entryPtr (a : Nat) (es : List (Nat × Nat)) : Nat := if es = [] then NULL else a

theorem entryOrEnd_eq {a : Nat} {es : List (Nat × Nat)} (h : Blob.MapAt v a es)
    (hne : ∀ e ∈ es, e ≠ (0, 0)) : entryOrEnd v a = .ok (entryPtr a es) := by
  unfold entryOrEnd fdtReserveEntryAddress fdtReserveEntrySize
  cases es with
  | nil => rw [h.1, h.2]; rfl
  | cons e es =>
    rw [h.1, h.2.1]
    simp only [ok_bind]
    by_cases haddr : e.1 = 0
    · have hsize : e.2 ≠ 0 := fun hsize => hne e List.mem_cons_self (Prod.ext haddr hsize)
      rw [if_pos haddr, if_neg hsize]
      rfl
    · rw [if_neg haddr]
      rfl

/-- The entries `es` are the rest of the map. -/
structure Blob.RestOfMap (b : Blob) (v : View) (a : Nat) (es : List (Nat × Nat)) : Prop where
  mapAt : Blob.MapAt v a es
  ne : ∀ e ∈ es, e ≠ (0, 0)
  lower : b.fdt + b.offRsvmap ≤ a
  upper : a + 16 * (es.length + 1) ≤ b.structStart

theorem Blob.MapIn.restOfMap (h : b.MapIn v) :
    b.RestOfMap v (b.fdt + b.offRsvmap) b.reserve where
  mapAt := h.rsvmap
  ne := b.reserve_ne
  lower := le_rfl
  upper := by
    have := b.rsvmap_le
    unfold Blob.structStart
    omega

theorem Blob.RestOfMap.tail {a : Nat} {e : Nat × Nat} {es : List (Nat × Nat)}
    (h : b.RestOfMap v a (e :: es)) : b.RestOfMap v (a + 16) es where
  mapAt := h.mapAt.2.2
  ne := fun e' he' => h.ne e' (List.mem_cons_of_mem e he')
  lower := h.lower.trans (Nat.le_add_right a 16)
  upper := by
    have := h.upper
    rw [List.length_cons] at this
    omega

theorem nextReserveEntry_eq (hb : b.MapIn v) {a : Nat} {e : Nat × Nat} {es : List (Nat × Nat)}
    (h : b.RestOfMap v a (e :: es)) :
    fdtNextReserveEntry v b.fdt a = .ok (entryPtr (a + 16) es) := by
  have hnext := h.tail
  have hlower := hnext.lower
  have hupper := hnext.upper
  have hwrap : b.fdt + b.offStruct < 2 ^ 64 := by
    have := b.noWrap
    have := b.struct_le
    omega
  unfold Blob.structStart at hupper
  have hvalid : fdtMemrsvPtrInvalid v b.fdt (a + 16 + 15) = .ok false := by
    unfold fdtMemrsvPtrInvalid
    rw [hb.offMemRsvmap, hb.offDtStruct]
    simp only [ok_bind]
    rw [wadd_eq (by omega), wadd_eq hwrap, pure_eq_ok]
    exact congrArg Except.ok (decide_eq_false (by omega))
  have hentry : wadd a 16 = a + 16 := wadd_eq (by omega)
  unfold fdtNextReserveEntry
  dsimp only
  rw [hentry, wadd_eq (by omega), hvalid]
  exact entryOrEnd_eq hnext.mapAt hnext.ne

theorem carveLoop_eq (hb : b.MapIn v) {a start size : Nat} {es : List (Nat × Nat)}
    (h : b.RestOfMap v a es) (hfuel : es.length < fuel) :
    loop .outOfFuel (carveStep v b.fdt) fuel (entryPtr a es, start, size) =
      .ok (carveList es start size) := by
  induction es generalizing a start size fuel with
  | nil =>
    obtain ⟨n, rfl⟩ := Nat.exists_eq_add_of_lt hfuel
    exact loop_leave rfl
  | cons e es ih =>
    obtain ⟨n, rfl⟩ : ∃ n, fuel = n + 1 := ⟨fuel - 1, by omega⟩
    have hptr : entryPtr a (e :: es) ≠ NULL := by
      have := h.lower
      have := b.fdt_pos
      show a ≠ 0
      omega
    have hstep : carveStep v b.fdt (entryPtr a (e :: es), start, size) =
        match trimOrSplitAroundReserved start size e.1 e.2 with
        | .two start size splitStart splitSize =>
          .ok (.inr (.split start size splitStart splitSize))
        | .one start size =>
          if size = 0 then .ok (.inr .gone)
          else .ok (.inl (entryPtr (a + 16) es, start, size)) := by
      have hread : carveStep v b.fdt (entryPtr a (e :: es), start, size) = do
          let resvStart ← be64 v a
          let resvSize ← be64 v (a + 8)
          match trimOrSplitAroundReserved start size resvStart resvSize with
          | .two start size splitStart splitSize =>
            return .inr (.split start size splitStart splitSize)
          | .one start size =>
            if size = 0 then return .inr .gone
            let entry ← fdtNextReserveEntry v b.fdt a
            return .inl (entry, start, size) := if_neg hptr
      rw [hread, h.mapAt.1, h.mapAt.2.1]
      simp only [ok_bind, nextReserveEntry_eq hb h]
      rfl
    rw [carveList]
    cases ht : trimOrSplitAroundReserved start size e.1 e.2 with
    | one start' size' =>
      rw [ht] at hstep
      dsimp only at hstep ⊢
      by_cases hzero : size' = 0
      · rw [if_pos hzero] at hstep ⊢
        exact loop_leave hstep
      · rw [if_neg hzero] at hstep ⊢
        rw [loop_again _ hstep]
        exact ih h.tail (by rw [List.length_cons] at hfuel; omega)
    | two start' size' splitStart splitSize =>
      rw [ht] at hstep
      exact loop_leave hstep

/-- What is reserved: the entries of the map, and the blob itself. -/
def Blob.reserved (b : Blob) : List (Nat × Nat) := b.reserve ++ [(b.fdt, b.totalsize)]

theorem carve_eq (hb : b.MapIn v) (hfuel : b.reserve.length < fuel) (start size : Nat) :
    carve fuel v b.fdt start size = .ok (carveList b.reserved start size) := by
  have hwrap : b.fdt + b.offRsvmap < 2 ^ 64 := by
    have := b.noWrap
    have := b.struct_le
    have := b.rsvmap_le
    omega
  unfold carve fdtReserveEntryBegin
  rw [hb.offMemRsvmap]
  simp only [ok_bind]
  rw [wadd_eq hwrap, entryOrEnd_eq hb.rsvmap b.reserve_ne]
  simp only [ok_bind]
  rw [carveLoop_eq hb hb.restOfMap hfuel, Blob.reserved, carveList_concat]
  cases carveList b.reserve start size with
  | gone => rfl
  | split a n c k => rfl
  | whole a n =>
    have hsize : fdtSize v b.fdt = .ok b.totalsize := hb.totalsize
    simp only [ok_bind, hsize, carveList]
    cases trimOrSplitAroundReserved a n b.fdt b.totalsize with
    | one a' n' => rfl
    | two a' n' c k => rfl

end RiscyOs
