import RiscyOs.Stdio.Chunks

/-!
# The end of the format string

The loop of `formatted_print` advances before it looks for the terminator: it passes the terminator
of an empty format string, and it leaves with the escape pending when the last character is a `%`,
so that the `'\0'` case is not reached (`formattedPrint_inside_iff`).
-/

namespace RiscyOs

open ByteMemory FuelLoop

variable {fuel : Nat} {fmt : CStr} {f : List UInt8} {args : List Arg} {vs : List Value}

/-! ## A `%` at the end -/

/-- The lone `%` is the last directive. -/
theorem parse_of_lone (h : .lone ∈ parse f) :
    ∃ p, f = p ++ [chr '%'] ∧ parse f = parse p ++ [.lone] := by
  induction f using parse.induct with
  | case1 => cases h
  | case2 => exact ⟨[], rfl, rfl⟩
  | case3 c hc =>
    rw [parse_literal hc, parse_nil, List.mem_singleton] at h
    cases h
  | case4 k f ih =>
    have hk : Directive.lone ≠ .of k := by
      unfold Directive.of
      split_ifs <;> exact Directive.noConfusion
    rw [parse_percent] at h
    obtain ⟨p, rfl, hp⟩ := ih ((List.mem_cons.1 h).resolve_left hk)
    exact ⟨chr '%' :: k :: p, rfl, by rw [parse_percent, hp, parse_percent, List.cons_append]⟩
  | case5 c k f hc ih =>
    rw [parse_literal hc] at h
    obtain ⟨p, hsplit, hp⟩ := ih ((List.mem_cons.1 h).resolve_left Directive.noConfusion)
    refine ⟨c :: p, congrArg (c :: ·) hsplit, ?_⟩
    rw [parse_literal hc, hp, parse_literal hc, List.cons_append]

/-- It stands for nothing. -/
theorem expand_append_lone (ds : List Directive) (vs : List Value) :
    expand (ds ++ [.lone]) vs = expand ds vs := by
  induction ds generalizing vs with
  | nil => rw [List.nil_append, expand_lone, expand_nil]
  | cons d ds ih =>
    cases d with
    | literal c => rw [List.cons_append, expand, expand, ih]
    | percent => rw [List.cons_append, expand, expand, ih]
    | unknown k => rw [List.cons_append, expand, expand, ih]
    | lone => cases vs <;> rfl
    | char =>
      rcases vs with _ | ⟨v, vs⟩
      · rfl
      cases v with
      | char c => rw [List.cons_append, expand, expand, ih]
      | string s => rfl
      | pointer p => rfl
    | string =>
      rcases vs with _ | ⟨v, vs⟩
      · rfl
      cases v with
      | char c => rfl
      | string s => rw [List.cons_append, expand, expand, ih]
      | pointer p => rfl
    | pointer =>
      rcases vs with _ | ⟨v, vs⟩
      · rfl
      cases v with
      | char c => rfl
      | string s => rfl
      | pointer p => rw [List.cons_append, expand, expand, ih]

/-! ## What is read and printed -/

/-- The run reads no character after the terminator, and a `%` at the end is printed after the
output for what is before it. -/
def PrintsInside (fuel : Nat) (fmt : CStr) (f : List UInt8) (args : List Arg) (vs : List Value) :
    Prop :=
  ∃ out n strs,
    formattedPrint fuel ⟨fmt.view.only fmt.ptr (f.length + 1), fmt.ptr⟩ args = .ok (out, n) ∧
    List.Forall₂ CStr.Is out strs ∧
    ∀ p, f = p ++ [chr '%'] → .lone ∈ parse f →
      strs.flatten = delivered (expand (parse p) vs) ++ [chr '%']

theorem CStr.Is.only (h : fmt.Is f) :
    CStr.Is ⟨fmt.view.only fmt.ptr (f.length + 1), fmt.ptr⟩ f := by
  refine ⟨h.nonnull, ?_, h.holds.2⟩
  have := h.holds.1.only
  rwa [List.length_append, List.length_singleton] at this

/-- One string stands at a pointer. -/
theorem CStr.Is.unique {out : List CStr} {strs strs' : List (List UInt8)}
    (h : List.Forall₂ CStr.Is out strs) (h' : List.Forall₂ CStr.Is out strs') : strs = strs' :=
  List.right_unique_forall₂' (fun _ _ _ hl hl' => hl.holds.unique hl'.holds) h h'

/-- The empty format string is read past its terminator. -/
theorem formattedPrint_empty (h : fmt.Is []) (hfuel : 0 < fuel) :
    formattedPrint fuel ⟨fmt.view.only fmt.ptr 1, fmt.ptr⟩ args = .error .unmapped := by
  obtain ⟨buf, hbuf, -⟩ := CharArray.write_spec
    (show bufLen < (CharArray.uninit (bufLen + 1)).cells.length by decide) 0
  obtain ⟨fuel, rfl⟩ : ∃ n, fuel = n + 1 := ⟨fuel - 1, by omega⟩
  have hfirst : CStr.char ⟨fmt.view.only fmt.ptr 1, fmt.ptr⟩ 0 = .ok 0 := h.only.char le_rfl
  have hnext : CStr.char ⟨fmt.view.only fmt.ptr 1, fmt.ptr⟩ (0 + 1) = .error .unmapped := by
    simp only [CStr.char, byteAt, View.only]
    rw [if_neg (by omega)]
  have hstep : formattedStep (fuel + 1) ⟨fmt.view.only fmt.ptr 1, fmt.ptr⟩
      ⟨0, args, buf, 0, 0, false, []⟩ = .error .unmapped := by
    simp only [formattedStep, PrintState.pass, PrintState.literal, hfirst, ok_bind, if_true,
      if_neg Bool.false_ne_true, pure_eq_ok, hnext]
    rfl
  simp only [formattedPrint, hbuf, ok_bind, loop_fail hstep]
  rfl

theorem PrintsInside.ne_nil (h : PrintsInside fuel fmt f args vs) (hfmt : fmt.Is f)
    (hfuel : 0 < fuel) : f ≠ [] := by
  rintro rfl
  obtain ⟨out, n, strs, hrun, -⟩ := h
  have hfault : formattedPrint fuel ⟨fmt.view.only fmt.ptr 1, fmt.ptr⟩ args = .ok (out, n) := hrun
  rw [formattedPrint_empty hfmt hfuel] at hfault
  cases hfault

/-- A lone `%` is not printed. -/
theorem PrintsInside.lone_notMem (h : PrintsInside fuel fmt f args vs) (hfmt : fmt.Is f)
    (hargs : List.Forall₂ Arg.Has args vs) (hmatch : Matching (parse f) vs)
    (hfuel : f.length < fuel) (hstr : ∀ s, .string s ∈ vs → s.length < fuel) :
    .lone ∉ parse f := by
  intro hlone
  have hne := h.ne_nil hfmt (Nat.zero_lt_of_lt hfuel)
  obtain ⟨out, n, strs, hrun, hout, hpercent⟩ := h
  obtain ⟨out', strs', hrun', hout', htext⟩ :=
    formattedPrint_delivers hfmt.only hne hargs hmatch hfuel hstr
  obtain ⟨rfl, -⟩ := Prod.mk.inj (Except.ok.inj (hrun.symm.trans hrun'))
  obtain ⟨p, hsplit, hparse⟩ := parse_of_lone hlone
  have hsame := hpercent p hsplit hlone
  rw [CStr.Is.unique hout hout', htext, hparse, expand_append_lone] at hsame
  exact absurd hsame (by simp)

/-- **When `formatted_print` stops at the terminator and prints a final `%`**: the format string is
not empty, and does not end in a lone `%`. -/
theorem formattedPrint_inside_iff (hfmt : fmt.Is f) (hargs : List.Forall₂ Arg.Has args vs)
    (hmatch : Matching (parse f) vs) (hfuel : f.length < fuel)
    (hstr : ∀ s, .string s ∈ vs → s.length < fuel) :
    PrintsInside fuel fmt f args vs ↔ f ≠ [] ∧ .lone ∉ parse f := by
  constructor
  · intro h
    exact ⟨h.ne_nil hfmt (Nat.zero_lt_of_lt hfuel),
      h.lone_notMem hfmt hargs hmatch hfuel hstr⟩
  · rintro ⟨hne, hlone⟩
    obtain ⟨out, strs, hrun, hout, -⟩ :=
      formattedPrint_delivers hfmt.only hne hargs hmatch hfuel hstr
    exact ⟨out, _, strs, hrun, hout, fun p _ h => absurd h hlone⟩

/-- An escaped `%` at the end is no lone one. -/
theorem formattedPrint_inside_iff_percent :
    PrintsInside 8 (.lit (ascii "%c%%")) (ascii "%c%%") [.int 0] [.char 0] ↔
      ascii "%c%%" ≠ [] ∧ .lone ∉ parse (ascii "%c%%") := by
  have hargs : List.Forall₂ Arg.Has [.int 0] [.char (toChar 0)] := .cons (.char 0) .nil
  exact formattedPrint_inside_iff (CStr.lit_is (by decide)) hargs (by decide) (by decide) (by simp)

/-- The empty format string is read past its terminator, and of `100%` the `%` is missing. -/
theorem percent_notPrinted :
    ¬ PrintsInside 8 (.lit []) [] [] [] ∧
      ¬ PrintsInside 8 (.lit (ascii "100%")) (ascii "100%") [] [] := by
  constructor
  · intro h
    exact h.ne_nil (CStr.lit_is List.not_mem_nil) (by decide) rfl
  · intro h
    exact h.lone_notMem (CStr.lit_is (by decide)) .nil (by decide) (by decide) (by simp)
      (by decide)

end RiscyOs
