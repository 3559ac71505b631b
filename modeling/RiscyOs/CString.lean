import Mathlib.Data.List.GetD
import RiscyOs.Machine

/-!
# `strlen`, `strcmp` and `memcmp`

A `const char*` is an address together with the view it points into. `View.HoldsStr v a s` says
that the NUL-terminated string `s` stands at `a`.
-/

namespace ByteMemory

/-- The string `s` and its terminator stand at `a`. -/
def View.HoldsStr (v : View) (a : Nat) (s : List UInt8) : Prop := v.Holds a (s ++ [0]) ∧ 0 ∉ s

theorem View.HoldsStr.of_agrees {v v' : View} {a : Nat} {s : List UInt8} (h : v.HoldsStr a s)
    (hag : View.Agrees v v' a (a + (s.length + 1))) : v'.HoldsStr a s :=
  ⟨h.1.of_agrees (by simpa using hag), h.2⟩

/-- A terminated string in a part of a view lies inside that part, terminator included. -/
theorem View.HoldsStr.of_only {v : View} {a n p : Nat} {s : List UInt8}
    (h : (v.only a n).HoldsStr p s) : v.HoldsStr p s ∧ a ≤ p ∧ p + s.length < a + n := by
  obtain ⟨hholds, hzero⟩ := h
  refine ⟨⟨hholds.of_only, hzero⟩, ?_⟩
  rw [View.holds_append] at hholds
  have hlast := (View.of_only hholds.2.1).2
  cases s with
  | nil => exact hlast
  | cons b bs => exact ⟨(View.of_only hholds.1.1).2.1, hlast.2⟩

/-- There is one terminated string at an address. -/
theorem View.HoldsStr.unique {v : View} {p : Nat} {s t : List UInt8} (hs : v.HoldsStr p s)
    (ht : v.HoldsStr p t) : s = t := by
  induction s generalizing p t with
  | nil =>
    cases t with
    | nil => rfl
    | cons c t =>
      have hc := Option.some.inj (hs.1.1.symm.trans ht.1.1)
      exact absurd (hc ▸ List.mem_cons_self) ht.2
  | cons b s ih =>
    cases t with
    | nil =>
      have hb := Option.some.inj (ht.1.1.symm.trans hs.1.1)
      exact absurd (hb ▸ List.mem_cons_self) hs.2
    | cons c t =>
      obtain rfl : b = c := Option.some.inj (hs.1.1.symm.trans ht.1.1)
      have htail := ih ⟨hs.1.2, fun h => hs.2 (List.mem_cons_of_mem b h)⟩
        ⟨ht.1.2, fun h => ht.2 (List.mem_cons_of_mem b h)⟩
      rw [htail]

end ByteMemory

namespace RiscyOs

open ByteMemory FuelLoop

structure CStr where
  view : View
  ptr : Nat

/-- The bytes of a string of ASCII characters. -/
def ascii (s : String) : List UInt8 := s.toList.map fun c => UInt8.ofNat c.toNat

/-- A string literal; its address is some address other than `NULL`. -/
def CStr.lit (s : List UInt8) : CStr := ⟨View.ofList 1 (s ++ [0]), 1⟩

/-- `str[i]` -/
def CStr.char (s : CStr) (i : Nat) : Result UInt8 := byteAt s.view (s.ptr + i)

/-- `s` points at the string `l`. -/
structure CStr.Is (s : CStr) (l : List UInt8) : Prop where
  nonnull : s.ptr ≠ NULL
  holds : s.view.HoldsStr s.ptr l

def strlen (fuel : Nat) (str : CStr) : Result Nat :=
  if str.ptr = NULL then .error .abort
  else loop .outOfFuel (fun len => do
    let c ← str.char len
    return if c ≠ 0 then .inl (len + 1) else .inr len) fuel 0

def strcmp (fuel : Nat) (lhs rhs : CStr) : Result Int :=
  if lhs.ptr = NULL ∨ rhs.ptr = NULL then .error .abort
  else loop .outOfFuel (fun i => do
    let l ← lhs.char i
    let r ← rhs.char i
    return if l = r ∧ l ≠ 0 then .inl (i + 1) else .inr ((l.toNat : Int) - r.toNat)) fuel 0

/-- The passes `i`, …, `i + n - 1` of the loop of `memcmp`. -/
def memcmpFrom (lhs rhs : CStr) : Nat → Nat → Result Int
  | _, 0 => .ok 0
  | i, n + 1 => do
    let l ← lhs.char i
    let r ← rhs.char i
    if l < r then return -1
    else if r < l then return 1
    else memcmpFrom lhs rhs (i + 1) n

def memcmp (lhs rhs : CStr) (count : Nat) : Result Int :=
  if lhs.ptr = NULL ∨ rhs.ptr = NULL then .error .abort else memcmpFrom lhs rhs 0 count

/-! ## What they compute -/

theorem CStr.Is.char {s : CStr} {l : List UInt8} (h : s.Is l) {i : Nat} (hi : i ≤ l.length) :
    s.char i = .ok ((l ++ [0]).getD i 0) := by
  rw [CStr.char, byteAt, h.holds.1.get (by simp; omega), List.getD_eq_getElem?_getD,
    List.getElem?_eq_getElem (by simp; omega), Option.getD_some]

theorem CStr.lit_is {s : List UInt8} (h : 0 ∉ s) : (CStr.lit s).Is s :=
  ⟨one_ne_zero, View.ofList_holds 1 (s ++ [0]), h⟩

theorem getD_append_zero_ne {l : List UInt8} (h : 0 ∉ l) {i : Nat} (hi : i < l.length) :
    (l ++ [0]).getD i 0 ≠ 0 := by
  rw [List.getD_eq_getElem?_getD, List.getElem?_append_left hi, List.getElem?_eq_getElem hi]
  exact fun h0 => h (h0 ▸ List.getElem_mem hi)

theorem getD_append_zero_length (l : List UInt8) : (l ++ [0]).getD l.length 0 = 0 := by simp

/-- `strlen` that returns in a part of memory returns the same in all of it. -/
theorem strlen_of_only {fuel a n p r : Nat} {v : View} (h : strlen fuel ⟨v.only a n, p⟩ = .ok r) :
    strlen fuel ⟨v, p⟩ = .ok r := by
  unfold strlen at h ⊢
  split_ifs at h ⊢ with hnull
  · refine loop_mono (fun len x hx => ?_) h
    obtain ⟨c, hc, hx⟩ := bind_eq_ok.1 hx
    have hread : (CStr.mk v p).char len = .ok c := by
      unfold CStr.char byteAt at hc ⊢
      dsimp only at hc ⊢
      cases hb : v.only a n (p + len) with
      | none => rw [hb] at hc; cases hc
      | some b =>
        rw [hb] at hc
        rw [(View.of_only hb).1]
        exact hc
    rw [hread]
    exact hx

/-- `strlen` in a part of memory, with fuel for all of it, finds the terminator there or leaves the
part. -/
theorem strlen_only {fuel a n p : Nat} {v : View} (hp : p ≠ NULL) (hle : p ≤ a + n)
    (hfuel : a + n < p + fuel) :
    (∃ len, strlen fuel ⟨v.only a n, p⟩ = .ok len) ∨
      strlen fuel ⟨v.only a n, p⟩ = .error .unmapped := by
  rw [strlen, if_neg hp]
  -- the part ends at `p + len` at the earliest
  suffices ∀ k len, p + len ≤ a + n → a + n < p + len + k →
      (∃ r, loop .outOfFuel (fun len => do
        let c ← (CStr.mk (v.only a n) p).char len
        return if c ≠ 0 then .inl (len + 1) else .inr len) k len = (.ok r : Result Nat)) ∨
      loop .outOfFuel (fun len => do
        let c ← (CStr.mk (v.only a n) p).char len
        return if c ≠ 0 then .inl (len + 1) else .inr len) k len =
          (.error .unmapped : Result Nat) from this fuel 0 hle hfuel
  intro k
  induction k with
  | zero => intro len hlen hk; omega
  | succ k ih =>
    intro len hlen hk
    cases hc : v.only a n (p + len) with
    | none =>
      refine .inr (loop_fail ?_)
      simp only [CStr.char, byteAt, hc]
      rfl
    | some c =>
      have hread : (CStr.mk (v.only a n) p).char len = .ok c := by
        simp only [CStr.char, byteAt, hc]
      have hlt := (View.of_only hc).2.2
      by_cases hzero : c = 0
      · refine .inl ⟨len, loop_leave ?_⟩
        rw [hread]
        exact congrArg _ (if_neg (not_not.2 hzero))
      · rw [loop_again (len + 1)]
        · exact ih (len + 1) (by omega) (by omega)
        · rw [hread]
          exact congrArg _ (if_pos hzero)

theorem strlen_eq {fuel : Nat} {str : CStr} {l : List UInt8} (h : str.Is l)
    (hf : l.length < fuel) : strlen fuel str = .ok l.length := by
  rw [strlen, if_neg h.nonnull]
  refine loop_trace (fun len => len) (fun len hlen => ?_) ?_ hf
  · rw [h.char hlen.le]
    exact congrArg _ (if_pos (getD_append_zero_ne h.holds.2 hlen))
  · rw [h.char le_rfl, getD_append_zero_length]
    rfl

/-- `strlen` has read a string of the length it returns. -/
theorem strlen_is {fuel r : Nat} {str : CStr} (h : strlen fuel str = .ok r) :
    ∃ l, l.length = r ∧ str.Is l := by
  unfold strlen at h
  split_ifs at h with hnull
  -- the bytes passed so far are none of them the terminator
  suffices ∀ n (l : List UInt8), str.view.Holds str.ptr l → 0 ∉ l →
      loop .outOfFuel (fun len => do
        let c ← str.char len
        return if c ≠ 0 then .inl (len + 1) else .inr len) n l.length = (.ok r : Result Nat) →
      ∃ l, l.length = r ∧ str.Is l from
    this fuel [] trivial List.not_mem_nil h
  intro n
  induction n with
  | zero =>
    intro l _ _ hrun
    cases hrun
  | succ n ih =>
    intro l hl hzero hrun
    cases hchar : str.view (str.ptr + l.length) with
    | none =>
      rw [loop_fail (e := .unmapped)] at hrun
      · cases hrun
      · rw [CStr.char, byteAt, hchar]
        rfl
    | some c =>
      have hread : str.char l.length = .ok c := by rw [CStr.char, byteAt, hchar]
      by_cases hc : c = 0
      · rw [loop_leave (r := l.length)] at hrun
        · subst hc
          exact ⟨l, Except.ok.inj hrun, hnull, View.holds_append.2 ⟨hl, hchar, trivial⟩, hzero⟩
        · rw [hread]
          exact congrArg _ (if_neg (not_not.2 hc))
      · rw [loop_again (l.length + 1)] at hrun
        · refine ih (l ++ [c]) (View.holds_append.2 ⟨hl, hchar, trivial⟩) ?_ (by simpa using hrun)
          rw [List.mem_append, List.mem_singleton, not_or]
          exact ⟨hzero, Ne.symm hc⟩
        · rw [hread]
          exact congrArg _ (if_pos hc)

/-! ## Where two strings part -/

/-- The index of the first byte in which the strings differ, their terminators included, or else of
the terminator they share. -/
def divergesAt : List UInt8 → List UInt8 → Nat
  | [], _ => 0
  | _ :: _, [] => 0
  | b :: s, c :: t => if b = c then divergesAt s t + 1 else 0

theorem divergesAt_le (s t : List UInt8) :
    divergesAt s t ≤ s.length ∧ divergesAt s t ≤ t.length := by
  fun_induction divergesAt s t with
  | case1 t => simp
  | case2 b s => simp
  | case3 b s t ih => simpa using ih
  | case4 b s c t hne => simp

theorem divergesAt_self (s : List UInt8) : divergesAt s s = s.length := by
  induction s with
  | nil => rfl
  | cons b s ih => rw [divergesAt, if_pos rfl, ih, List.length_cons]

/-- Before it the strings agree. -/
theorem getD_eq_of_lt_divergesAt {s t : List UInt8} {i : Nat} (h : i < divergesAt s t) :
    (s ++ [0]).getD i 0 = (t ++ [0]).getD i 0 := by
  fun_induction divergesAt s t generalizing i with
  | case1 t => omega
  | case2 b s => omega
  | case3 b s t ih =>
    cases i with
    | zero => rfl
    | succ i => exact ih (by omega)
  | case4 b s c t hne => omega

/-- At it they agree only when they are equal. -/
theorem getD_divergesAt_eq_iff {s t : List UInt8} (hs : 0 ∉ s) (ht : 0 ∉ t) :
    (s ++ [0]).getD (divergesAt s t) 0 = (t ++ [0]).getD (divergesAt s t) 0 ↔ s = t := by
  fun_induction divergesAt s t with
  | case1 t =>
    cases t with
    | nil => simp
    | cons c t => simpa using (List.ne_and_not_mem_of_not_mem_cons ht).1
  | case2 b s => simpa using (List.ne_and_not_mem_of_not_mem_cons hs).1.symm
  | case3 b s t ih =>
    rw [List.mem_cons, not_or] at hs ht
    simpa using ih hs.2 ht.2
  | case4 b s c t hne => simp [hne]

/-- The first bytes of `str`, up to the one at `k`, are those of the terminated string `s`. -/
structure CStr.Begins (str : CStr) (s : List UInt8) (k : Nat) : Prop where
  nonnull : str.ptr ≠ NULL
  char_eq : ∀ i ≤ k, str.char i = .ok ((s ++ [0]).getD i 0)

theorem CStr.Is.begins {str : CStr} {s : List UInt8} {k : Nat} (h : str.Is s) (hk : k ≤ s.length) :
    str.Begins s k :=
  ⟨h.nonnull, fun _ hi => h.char (hi.trans hk)⟩

/-- `strcmp` returns the difference of the bytes in which the strings part. -/
theorem strcmp_eq {fuel : Nat} {lhs rhs : CStr} {s t : List UInt8} (hs : 0 ∉ s) (ht : 0 ∉ t)
    (hl : lhs.Begins s (divergesAt s t)) (hr : rhs.Begins t (divergesAt s t))
    (hf : divergesAt s t < fuel) :
    strcmp fuel lhs rhs = .ok ((((s ++ [0]).getD (divergesAt s t) 0).toNat : Int) -
      ((t ++ [0]).getD (divergesAt s t) 0).toNat) := by
  rw [strcmp, if_neg (not_or.2 ⟨hl.nonnull, hr.nonnull⟩)]
  refine loop_trace (fun i => i) (fun i hi => ?_) ?_ hf
  · have hlt := hi.trans_le (divergesAt_le s t).1
    rw [hl.char_eq i hi.le, hr.char_eq i hi.le]
    exact congrArg _ (if_pos ⟨getD_eq_of_lt_divergesAt hi, getD_append_zero_ne hs hlt⟩)
  · rw [hl.char_eq _ le_rfl, hr.char_eq _ le_rfl]
    refine congrArg _ (if_neg ?_)
    rintro ⟨heq, hne⟩
    obtain rfl := (getD_divergesAt_eq_iff hs ht).1 heq
    rw [divergesAt_self] at hne
    exact hne (getD_append_zero_length s)

/-- `strcmp` returns, and returns `0` exactly on equal strings. -/
theorem strcmp_spec {fuel : Nat} {lhs rhs : CStr} {s t : List UInt8} (hs : lhs.Is s)
    (ht : rhs.Is t) (hf : t.length < fuel) :
    ∃ r, strcmp fuel lhs rhs = .ok r ∧ (r = 0 ↔ s = t) := by
  have hle := divergesAt_le s t
  refine ⟨_, strcmp_eq hs.holds.2 ht.holds.2 (hs.begins hle.1) (ht.begins hle.2) (by omega), ?_⟩
  rw [← getD_divergesAt_eq_iff hs.holds.2 ht.holds.2, ← UInt8.toNat_inj]
  omega

/-- `memcmp` returns `0` exactly on equal bytes. -/
theorem memcmp_spec {lhs rhs : CStr} {s t : List UInt8} (hl : lhs.ptr ≠ NULL) (hr : rhs.ptr ≠ NULL)
    (hs : lhs.view.Holds lhs.ptr s) (ht : rhs.view.Holds rhs.ptr t) (hlen : s.length = t.length) :
    ∃ r, memcmp lhs rhs s.length = .ok r ∧ (r = 0 ↔ s = t) := by
  rw [memcmp, if_neg (not_or.2 ⟨hl, hr⟩)]
  -- the bytes still to be compared are `s` and `t`, at offset `i`
  suffices ∀ i, lhs.view.Holds (lhs.ptr + i) s → rhs.view.Holds (rhs.ptr + i) t →
      ∃ r, memcmpFrom lhs rhs i s.length = .ok r ∧ (r = 0 ↔ s = t) from this 0 hs ht
  clear hs ht
  induction s generalizing t with
  | nil =>
    intro i _ _
    exact ⟨0, rfl, by simpa using (List.length_eq_zero_iff.1 hlen.symm).symm⟩
  | cons b s ih =>
    intro i hs ht
    cases t with
    | nil => cases hlen
    | cons c t =>
      simp only [memcmpFrom, CStr.char, byteAt, hs.1, ht.1, List.length_cons]
      by_cases hbc : b < c
      · refine ⟨-1, if_pos hbc, ?_⟩
        have hne : b ≠ c := fun h => UInt8.lt_irrefl c (h ▸ hbc)
        simp [hne]
      by_cases hcb : c < b
      · refine ⟨1, ?_, ?_⟩
        · simp only [bind, Except.bind, if_neg hbc, if_pos hcb]
          rfl
        · have hne : b ≠ c := fun h => UInt8.lt_irrefl c (h ▸ hcb)
          simp [hne]
      · obtain rfl : b = c := UInt8.le_antisymm (UInt8.not_lt.1 hcb) (UInt8.not_lt.1 hbc)
        obtain ⟨r, hr, hiff⟩ := ih (by simpa using hlen) (i + 1) hs.2 ht.2
        exact ⟨r, by simpa [bind, Except.bind] using hr, by simpa using hiff⟩

end RiscyOs
