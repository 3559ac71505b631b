import RiscyOs.CString

/-!
# The order of `strcmp` and `memcmp`

Two strings are compared at `divergesAt s t`, the index of the first byte in which they differ or of
the terminator both have. The byte found there on either side decides the order of the strings as
lists, and both functions stop at it.

* `lt_iff_getD_lt`: the bytes at which two strings part are ordered as the strings are.
* `memcmp_eq_sign`: `memcmp` over the shorter string and its terminator returns the sign of
  `strcmp`.
* `strcmp_order`: what a call of `strcmp` says about the two strings and about the other calls.
-/

namespace RiscyOs

open ByteMemory

variable {s t : List UInt8} {lhs rhs : CStr} {i n k : Nat}

/-! ## Strings as lists -/

theorem divergesAt_comm (s t : List UInt8) : divergesAt s t = divergesAt t s := by
  fun_induction divergesAt s t with
  | case1 t => cases t <;> rfl
  | case2 b s => rfl
  | case3 b s t ih => rw [ih, divergesAt, if_pos rfl]
  | case4 b s c t hne => rw [divergesAt, if_neg (Ne.symm hne)]

/-- **The bytes at which two strings part are ordered as the strings are.** -/
theorem lt_iff_getD_lt (ht : 0 ∉ t) :
    s < t ↔ (s ++ [0]).getD (divergesAt s t) 0 < (t ++ [0]).getD (divergesAt s t) 0 := by
  fun_induction divergesAt s t with
  | case1 t =>
    cases t with
    | nil => simp
    | cons c t =>
      have hc : c ≠ 0 := (List.ne_and_not_mem_of_not_mem_cons ht).1.symm
      simpa using UInt8.pos_iff_ne_zero.2 hc
  | case2 b s => simp
  | case3 b s t ih =>
    rw [List.mem_cons, not_or] at ht
    simpa [List.cons_lt_cons_iff] using ih ht.2
  | case4 b s c t hne => simp [List.cons_lt_cons_iff, hne]

/-! ## The calls -/

/-- The same pointer, where only the first `n` bytes may be looked at. -/
def CStr.only (str : CStr) (n : Nat) : CStr := ⟨str.view.only str.ptr n, str.ptr⟩

theorem CStr.Begins.only {str : CStr} (h : str.Begins s k) : (str.only (k + 1)).Begins s k := by
  refine ⟨h.nonnull, fun i hi => ?_⟩
  have hread : (str.only (k + 1)).view (str.ptr + i) = str.view (str.ptr + i) :=
    if_pos ⟨Nat.le_add_right _ _, by omega⟩
  rw [← h.char_eq i hi, CStr.char, byteAt, CStr.char, byteAt, ← hread]
  rfl

/-- `memcmp` passes over the bytes that agree and stops at the one at `k`. -/
theorem memcmpFrom_eq_sign (hl : lhs.Begins s k) (hr : rhs.Begins t k)
    (hagree : ∀ j < k, (s ++ [0]).getD j 0 = (t ++ [0]).getD j 0) (hi : i ≤ k) (hk : k < i + n)
    (hlast : (s ++ [0]).getD k 0 = (t ++ [0]).getD k 0 → i + n = k + 1) :
    memcmpFrom lhs rhs i n =
      .ok ((((s ++ [0]).getD k 0).toNat : Int) - ((t ++ [0]).getD k 0).toNat).sign := by
  induction n generalizing i with
  | zero => omega
  | succ n ih =>
    rw [memcmpFrom, hl.char_eq i hi, hr.char_eq i hi, ok_bind, ok_bind]
    rcases Nat.eq_or_lt_of_le hi with rfl | hlt
    · generalize (s ++ [0]).getD i 0 = b at *
      generalize (t ++ [0]).getD i 0 = c at *
      split_ifs with hbc hcb
      · rw [Int.sign_eq_neg_one_of_neg (by have := UInt8.lt_iff_toNat_lt.1 hbc; omega)]
        rfl
      · rw [Int.sign_eq_one_of_pos (by have := UInt8.lt_iff_toNat_lt.1 hcb; omega)]
        rfl
      · obtain rfl : b = c := UInt8.le_antisymm (UInt8.not_lt.1 hcb) (UInt8.not_lt.1 hbc)
        obtain rfl : n = 0 := by have := hlast rfl; omega
        rw [Int.sub_self]
        rfl
    · rw [hagree i hlt, if_neg (UInt8.lt_irrefl _), if_neg (UInt8.lt_irrefl _)]
      exact ih hlt (by omega) fun heq => by have := hlast heq; omega

/-- **`memcmp` over the shorter string and its terminator returns the sign of `strcmp`.** -/
theorem memcmp_eq_sign (hs : 0 ∉ s) (ht : 0 ∉ t) (hl : lhs.Begins s (divergesAt s t))
    (hr : rhs.Begins t (divergesAt s t)) :
    memcmp lhs rhs (min s.length t.length + 1) =
      .ok ((((s ++ [0]).getD (divergesAt s t) 0).toNat : Int) -
        ((t ++ [0]).getD (divergesAt s t) 0).toNat).sign := by
  rw [memcmp, if_neg (not_or.2 ⟨hl.nonnull, hr.nonnull⟩)]
  have hle := divergesAt_le s t
  refine memcmpFrom_eq_sign hl hr (fun j hj => getD_eq_of_lt_divergesAt hj) (Nat.zero_le _)
    (by omega) fun heq => ?_
  obtain rfl := (getD_divergesAt_eq_iff hs ht).1 heq
  rw [divergesAt_self]
  omega

/-- The sign of `strcmp` is the order of the strings. -/
theorem strcmp_sign {fuel : Nat} (hs : lhs.Is s) (ht : rhs.Is t) (hf : divergesAt s t < fuel) :
    ∃ r, strcmp fuel lhs rhs = .ok r ∧ (r < 0 ↔ s < t) ∧ (r = 0 ↔ s = t) ∧ (0 < r ↔ t < s) := by
  have hle := divergesAt_le s t
  refine ⟨_, strcmp_eq hs.holds.2 ht.holds.2 (hs.begins hle.1) (ht.begins hle.2) hf, ?_, ?_, ?_⟩
  · rw [lt_iff_getD_lt ht.holds.2, UInt8.lt_iff_toNat_lt]
    omega
  · rw [← getD_divergesAt_eq_iff hs.holds.2 ht.holds.2, ← UInt8.toNat_inj]
    omega
  · rw [lt_iff_getD_lt hs.holds.2, divergesAt_comm t s, UInt8.lt_iff_toNat_lt]
    omega

/-- `strcmp(lhs, rhs)` returns `r`, and what that says about the strings and about other calls. -/
structure Compares (fuel : Nat) (lhs rhs : CStr) (s t : List UInt8) (r : Int) : Prop where
  strcmp_eq : strcmp fuel lhs rhs = .ok r
  /-- `memcmp` of `min(strlen(lhs), strlen(rhs)) + 1` bytes returns the sign. -/
  memcmp_eq : ∃ m n, strlen fuel lhs = .ok m ∧ strlen fuel rhs = .ok n ∧
    memcmp lhs rhs (min m n + 1) = .ok r.sign
  neg_iff : r < 0 ↔ s < t
  zero_iff : r = 0 ↔ s = t
  pos_iff : 0 < r ↔ t < s
  swap : strcmp fuel rhs lhs = .ok (-r)
  trans : ∀ third u, third.Is u → u.length < fuel → ∃ r₁ r₂, strcmp fuel rhs third = .ok r₁ ∧
    strcmp fuel lhs third = .ok r₂ ∧ (r ≤ 0 → r₁ ≤ 0 → r₂ ≤ 0) ∧ (r < 0 → r₁ < 0 → r₂ < 0)
  /-- Neither function looks past the first byte that differs or the terminator both have. -/
  bounded :
    strcmp fuel (lhs.only (divergesAt s t + 1)) (rhs.only (divergesAt s t + 1)) = .ok r ∧
    memcmp (lhs.only (divergesAt s t + 1)) (rhs.only (divergesAt s t + 1))
      (min s.length t.length + 1) = .ok r.sign

/-- **`strcmp` orders strings as lists of unsigned bytes, and `memcmp` agrees with it.** -/
theorem strcmp_order {fuel : Nat} (hs : lhs.Is s) (ht : rhs.Is t) (hfs : s.length < fuel)
    (hft : t.length < fuel) : ∃ r, Compares fuel lhs rhs s t r := by
  have hle := divergesAt_le s t
  have hl := hs.begins hle.1
  have hr := ht.begins hle.2
  have hf : divergesAt s t < fuel := by omega
  obtain ⟨r, hrun, hneg, hzero, hpos⟩ := strcmp_sign hs ht hf
  obtain rfl := Except.ok.inj (hrun.symm.trans (strcmp_eq hs.holds.2 ht.holds.2 hl hr hf))
  refine ⟨_, {
    strcmp_eq := hrun
    memcmp_eq := ⟨_, _, strlen_eq hs hfs, strlen_eq ht hft,
      memcmp_eq_sign hs.holds.2 ht.holds.2 hl hr⟩
    neg_iff := hneg
    zero_iff := hzero
    pos_iff := hpos
    swap := ?_
    trans := ?_
    bounded := ⟨strcmp_eq hs.holds.2 ht.holds.2 hl.only hr.only hf,
      memcmp_eq_sign hs.holds.2 ht.holds.2 hl.only hr.only⟩ }⟩
  · rw [divergesAt_comm s t] at hl hr hf ⊢
    rw [strcmp_eq ht.holds.2 hs.holds.2 hr hl hf, Int.neg_sub]
  · intro third u hu hfu
    obtain ⟨r₁, hrun₁, hneg₁, -, hpos₁⟩ :=
      strcmp_sign ht hu ((divergesAt_le t u).2.trans_lt hfu)
    obtain ⟨r₂, hrun₂, hneg₂, -, hpos₂⟩ :=
      strcmp_sign hs hu ((divergesAt_le s u).2.trans_lt hfu)
    refine ⟨r₁, r₂, hrun₁, hrun₂, fun h h₁ => ?_, fun h h₁ => ?_⟩
    · rw [← Int.not_lt, hpos] at h
      rw [← Int.not_lt, hpos₁] at h₁
      rw [← Int.not_lt, hpos₂]
      exact List.le_trans h h₁
    · exact hneg₂.2 (List.lt_trans (hneg.1 h) (hneg₁.1 h₁))

/-- A prefix of a string, and a byte above `127` after it. -/
theorem strcmp_order_prefix :
    ∃ r, Compares 4 (CStr.lit [0x61]) (CStr.lit [0x61, 0xe9]) [0x61] [0x61, 0xe9] r :=
  strcmp_order (CStr.lit_is (by decide)) (CStr.lit_is (by decide)) (by decide) (by decide)

end RiscyOs
