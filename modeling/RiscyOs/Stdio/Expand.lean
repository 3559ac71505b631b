import RiscyOs.Stdio.Printf

/-!
# What a format string stands for

`parse` cuts a format string into directives, and `expand` is the text they and the values of the
arguments stand for. A pointer is written with sixteen hexadecimal digits (`hexDigits_spec`).
-/

namespace RiscyOs

/-- A part of a format string. -/
inductive Directive where
  | literal (c : UInt8)
  /-- `%%` -/
  | percent
  /-- `%c` -/
  | char
  /-- `%s` -/
  | string
  /-- `%p` -/
  | pointer
  | unknown (k : UInt8)
  /-- A `%` at the end of the format string. -/
  | lone
  deriving Repr, DecidableEq

/-- What `k` stands for after a `%`. -/
def Directive.of (k : UInt8) : Directive :=
  if k = chr '%' then .percent
  else if k = chr 'c' then .char
  else if k = chr 's' then .string
  else if k = chr 'p' then .pointer
  else .unknown k

def parse : List UInt8 → List Directive
  | [] => []
  | [c] => if c = chr '%' then [.lone] else [.literal c]
  | c :: k :: fmt => if c = chr '%' then .of k :: parse fmt else .literal c :: parse (k :: fmt)

/-- The value of an argument. -/
inductive Value where
  | char (c : UInt8)
  | string (s : List UInt8)
  | pointer (p : Nat)
  deriving Repr, DecidableEq

/-- The directive that takes the value. -/
def Value.directive : Value → Directive
  | .char _ => .char
  | .string _ => .string
  | .pointer _ => .pointer

/-- The directive takes an argument. -/
def Directive.Takes (d : Directive) : Prop := d = .char ∨ d = .string ∨ d = .pointer

instance (d : Directive) : Decidable d.Takes := inferInstanceAs (Decidable (_ ∨ _))

/-- The values are those the directives take, in order. -/
def Matching (ds : List Directive) (vs : List Value) : Prop :=
  vs.map Value.directive = ds.filter (·.Takes)

instance (ds : List Directive) (vs : List Value) : Decidable (Matching ds vs) :=
  inferInstanceAs (Decidable (_ = _))

/-- The last `n` hexadecimal digits of `p`. -/
def hexDigits : Nat → Nat → List UInt8
  | 0, _ => []
  | n + 1, p => hexDigits n (p / 16) ++ [(ascii "0123456789ABCDEF").getD (p % 16) 0]

/-- The text of the directives for the values. -/
def expand : List Directive → List Value → List UInt8
  | .literal c :: ds, vs => c :: expand ds vs
  | .percent :: ds, vs => chr '%' :: expand ds vs
  | .char :: ds, .char c :: vs => c :: expand ds vs
  | .string :: ds, .string s :: vs => s ++ expand ds vs
  | .pointer :: ds, .pointer p :: vs => ascii "0x" ++ hexDigits 16 p ++ expand ds vs
  | .unknown k :: ds, vs => chr '%' :: k :: expand ds vs
  | _, _ => []

@[simp] theorem expand_nil (vs : List Value) : expand [] vs = [] := by
  cases vs <;> rfl

@[simp] theorem expand_lone (vs : List Value) : expand [.lone] vs = [] := by
  cases vs <;> rfl

/-! ## Parsing -/

variable {c k : UInt8} {fmt : List UInt8}

@[simp] theorem parse_nil : parse [] = [] := rfl

@[simp] theorem parse_percent : parse (chr '%' :: k :: fmt) = .of k :: parse fmt := if_pos rfl

theorem parse_literal (h : c ≠ chr '%') : parse (c :: fmt) = .literal c :: parse fmt := by
  cases fmt with
  | nil => exact if_neg h
  | cons k fmt => exact if_neg h

/-! ## Matching arguments -/

variable {d : Directive} {ds : List Directive} {vs : List Value}

/-- A directive that takes an argument takes the first one. -/
theorem Matching.cons_takes (h : Matching (d :: ds) vs) (hd : d.Takes) :
    ∃ v vs', vs = v :: vs' ∧ v.directive = d ∧ Matching ds vs' := by
  rw [Matching, List.filter_cons_of_pos (by simpa using hd)] at h
  obtain ⟨v, vs', rfl, hv, hvs⟩ := List.map_eq_cons_iff.1 h
  exact ⟨v, vs', rfl, hv, hvs⟩

theorem Matching.cons_skips (h : Matching (d :: ds) vs) (hd : ¬ d.Takes) : Matching ds vs := by
  rwa [Matching, List.filter_cons_of_neg (by simpa using hd)] at h

/-! ## Hexadecimal digits -/

/-- The number that hexadecimal digits stand for. -/
def hexValue (ds : List UInt8) : Nat :=
  ds.foldl (fun acc d => 16 * acc + (ascii "0123456789ABCDEF").idxOf d) 0

/-- Sixteen capital digits with the value `p`. -/
structure PointerDigits (p : Nat) (digits : List UInt8) : Prop where
  length : digits.length = 16
  capital : ∀ d ∈ digits, d ∈ ascii "0123456789ABCDEF"
  value : hexValue digits = p

theorem idxOf_hexDigit {d : Nat} (h : d < 16) :
    (ascii "0123456789ABCDEF").idxOf ((ascii "0123456789ABCDEF").getD d 0) = d := by
  decide +revert

/-- The digits are capital, and have the value of a number that fits. -/
theorem hexDigits_spec (n p : Nat) :
    (hexDigits n p).length = n ∧ (∀ d ∈ hexDigits n p, d ∈ ascii "0123456789ABCDEF") ∧
      (p < 16 ^ n → hexValue (hexDigits n p) = p) := by
  induction n generalizing p with
  | zero =>
    refine ⟨rfl, fun d hd => absurd hd List.not_mem_nil, fun hp => ?_⟩
    rw [Nat.pow_zero, Nat.lt_one_iff] at hp
    rw [hp]
    rfl
  | succ n ih =>
    obtain ⟨hlen, hmem, hvalue⟩ := ih (p / 16)
    have hmod := Nat.mod_lt p (show 0 < 16 by norm_num)
    refine ⟨by rw [hexDigits, List.length_append, hlen, List.length_singleton], ?_, fun hp => ?_⟩
    · intro d hd
      rcases List.mem_append.1 hd with hd | hd
      · exact hmem d hd
      · rw [List.mem_singleton.1 hd]
        rw [List.getD_eq_getElem _ _ (by simpa [ascii] using hmod)]
        exact List.getElem_mem _
    · have hdiv : p / 16 < 16 ^ n := by
        rw [Nat.pow_succ] at hp
        omega
      rw [hexDigits, hexValue, List.foldl_append, ← hexValue, hvalue hdiv, List.foldl_cons,
        List.foldl_nil, idxOf_hexDigit hmod]
      exact Nat.div_add_mod p 16

theorem hexDigits_pointer {p : Nat} (h : p < 2 ^ 64) : PointerDigits p (hexDigits 16 p) :=
  have hspec := hexDigits_spec 16 p
  ⟨hspec.1, hspec.2.1, hspec.2.2 (h.trans_eq (by norm_num))⟩

theorem zero_notMem_hexDigits (n p : Nat) : 0 ∉ hexDigits n p := by
  intro h
  exact absurd ((hexDigits_spec n p).2.1 0 h) (by decide)

/-! ## `NUL`s -/

theorem not_takes_literal (c : UInt8) : ¬ (Directive.literal c).Takes := by simp [Directive.Takes]

theorem not_takes_unknown (k : UInt8) : ¬ (Directive.unknown k).Takes := by simp [Directive.Takes]

/-- The `NUL`s of the text are the `NUL`s among the characters of `%c`. -/
theorem count_zero_expand (hfmt : 0 ∉ fmt) (h : Matching (parse fmt) vs)
    (hstr : ∀ s, .string s ∈ vs → 0 ∉ s) :
    (expand (parse fmt) vs).count 0 = vs.count (.char 0) := by
  induction fmt using parse.induct generalizing vs with
  | case1 =>
    obtain rfl : vs = [] := List.map_eq_nil_iff.1 h
    rfl
  | case2 =>
    obtain rfl : vs = [] := List.map_eq_nil_iff.1 h
    rfl
  | case3 c hc =>
    rw [parse_literal hc] at h ⊢
    obtain rfl : vs = [] := List.map_eq_nil_iff.1 (h.cons_skips (not_takes_literal c))
    rw [List.mem_singleton] at hfmt
    rw [expand, List.count_cons_of_ne (Ne.symm hfmt)]
    rfl
  | case4 k fmt ih =>
    rw [List.mem_cons, List.mem_cons, not_or, not_or] at hfmt
    rw [parse_percent, Directive.of] at h ⊢
    split_ifs at h ⊢
    · rw [expand, List.count_cons_of_ne (by decide)]
      exact ih hfmt.2.2 (h.cons_skips (by decide)) hstr
    · obtain ⟨v, vs, rfl, hv, hmatch⟩ := h.cons_takes (.inl rfl)
      cases v with
      | char c =>
        have hrest := ih hfmt.2.2 hmatch fun s hs => hstr s (List.mem_cons_of_mem _ hs)
        rw [expand, List.count_cons, List.count_cons, hrest]
        simp
      | string s => cases hv
      | pointer p => cases hv
    · obtain ⟨v, vs, rfl, hv, hmatch⟩ := h.cons_takes (.inr (.inl rfl))
      cases v with
      | char c => cases hv
      | string s =>
        have hzero := hstr s List.mem_cons_self
        rw [expand, List.count_append, List.count_eq_zero.2 hzero, Nat.zero_add,
          List.count_cons_of_ne (by simp)]
        exact ih hfmt.2.2 hmatch fun s hs => hstr s (List.mem_cons_of_mem _ hs)
      | pointer p => cases hv
    · obtain ⟨v, vs, rfl, hv, hmatch⟩ := h.cons_takes (.inr (.inr rfl))
      cases v with
      | char c => cases hv
      | string s => cases hv
      | pointer p =>
        have hmark : (ascii "0x").count 0 = 0 := by decide
        have hzero := List.count_eq_zero.2 (zero_notMem_hexDigits 16 p)
        rw [expand, List.count_append, List.count_append, hmark, hzero, Nat.zero_add,
          List.count_cons_of_ne (by simp)]
        exact ih hfmt.2.2 hmatch fun s hs => hstr s (List.mem_cons_of_mem _ hs)
    · rw [expand, List.count_cons_of_ne (by decide), List.count_cons_of_ne (Ne.symm hfmt.2.1)]
      exact ih hfmt.2.2 (h.cons_skips (not_takes_unknown k)) hstr
  | case5 c k fmt hc ih =>
    rw [List.mem_cons, not_or] at hfmt
    rw [parse_literal hc] at h ⊢
    rw [expand, List.count_cons_of_ne (Ne.symm hfmt.1)]
    exact ih hfmt.2 (h.cons_skips (not_takes_literal c)) hstr

end RiscyOs
