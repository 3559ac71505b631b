import RiscyOs.Stdio.Count

/-!
# Printing in the kernel

`printk` is `printf`, and no caller looks at its result. A function that prints takes the calls of
the callbacks so far and returns them with its own behind (`Calls`).

* `printk_eq`: a `printk` sends the text of its format string.
* `receivedBy_sent`: every registered callback gets that text.
-/

namespace RiscyOs

/-- The calls of the callbacks, in order. -/
abbrev Calls := List (Nat × UInt8)

/-- `printk(fmt, …)` with a string literal, after the calls `out`. -/
def printk (fuel : Nat) (t : PutcharArray) (fmt : List UInt8) (args : List Arg) (out : Calls) :
    Result Calls := do
  let (calls, _) ← printf fuel t (.lit fmt) args
  return out ++ calls

/-- The calls for a text. -/
def sent (t : PutcharArray) (text : List UInt8) : Calls := text.flatMap (earlyPutchar t)

variable {fuel cb : Nat} {t : PutcharArray} {S : Finset Nat} {f text : List UInt8}
  {args : List Arg} {vs : List Value}

@[simp] theorem sent_nil (t : PutcharArray) : sent t [] = [] := rfl

theorem sent_append (t : PutcharArray) (text text' : List UInt8) :
    sent t (text ++ text') = sent t text ++ sent t text' := List.flatMap_append

/-- A registered callback gets the text. -/
theorem receivedBy_sent (h : Holds t S) (hcb : cb ∈ S) (text : List UInt8) :
    receivedBy cb (sent t text) = text := receivedBy_text h hcb text

/-! ## The text of a format string -/

/-- Text without a `%` stands for itself. -/
theorem expand_literal {l : List UInt8} (h : chr '%' ∉ l) (f : List UInt8) (vs : List Value) :
    expand (parse (l ++ f)) vs = l ++ expand (parse f) vs := by
  induction l with
  | nil => rfl
  | cons c l ih =>
    rw [List.mem_cons, not_or] at h
    rw [List.cons_append, parse_literal (Ne.symm h.1), expand, ih h.2, List.cons_append]

theorem expand_pointer (f : List UInt8) (p : Nat) (vs : List Value) :
    expand (parse (ascii "%p" ++ f)) (.pointer p :: vs) =
      ascii "0x" ++ hexDigits 16 p ++ expand (parse f) vs := rfl

theorem expand_string (f s : List UInt8) (vs : List Value) :
    expand (parse (ascii "%s" ++ f)) (.string s :: vs) = s ++ expand (parse f) vs := rfl

theorem expand_char (f : List UInt8) (c : UInt8) (vs : List Value) :
    expand (parse (ascii "%c" ++ f)) (.char c :: vs) = c :: expand (parse f) vs := rfl

/-! ## `printk` -/

/-- **`printk` sends the text of its format string**, without the `NUL`s of `%c`. -/
theorem printk_eq (hzero : 0 ∉ f) (hne : f ≠ []) (hargs : List.Forall₂ Arg.Has args vs)
    (hmatch : Matching (parse f) vs) (hfuel : f.length < fuel)
    (hstr : ∀ s, .string s ∈ vs → s.length < fuel) (htext : (expand (parse f) vs).length < fuel)
    (out : Calls) :
    printk fuel t f args out = .ok (out ++ sent t (delivered (expand (parse f) vs))) := by
  rw [printk, printf_eq (CStr.lit_is hzero) hne hargs hmatch hfuel hstr htext]
  rfl

/-- A `printk` of constant text. -/
theorem printk_plain (hzero : 0 ∉ f) (hne : f ≠ []) (hplain : chr '%' ∉ f)
    (hmatch : Matching (parse f) []) (hfuel : f.length < fuel) (out : Calls) :
    printk fuel t f [] out = .ok (out ++ sent t f) := by
  have htext := expand_literal hplain [] []
  rw [List.append_nil, parse_nil, expand_nil, List.append_nil] at htext
  rw [printk_eq hzero hne .nil hmatch hfuel (by simp) (htext.symm ▸ hfuel), htext,
    delivered_of_notMem hzero]

/-- Text without a `%` takes no argument. -/
theorem matching_literal {l : List UInt8} (h : chr '%' ∉ l) (f : List UInt8) (vs : List Value) :
    Matching (parse (l ++ f)) vs ↔ Matching (parse f) vs := by
  induction l with
  | nil => rfl
  | cons c l ih =>
    rw [List.mem_cons, not_or] at h
    rw [List.cons_append, parse_literal (Ne.symm h.1), Matching,
      List.filter_cons_of_neg (by simp [Directive.Takes])]
    exact ih h.2

/-- A `printk` of one pointer. -/
theorem printk_pointer {pre post : List UInt8} {p : Nat}
    (hplain : chr '%' ∉ pre ∧ chr '%' ∉ post) (hzero : 0 ∉ pre ∧ 0 ∉ post) (hp : p < 2 ^ 64)
    (hfuel : pre.length + post.length + 18 < fuel) (out : Calls) :
    printk fuel t (pre ++ (ascii "%p" ++ post)) [.ptr p] out =
      .ok (out ++ sent t (pre ++ (ascii "0x" ++ (hexDigits 16 p ++ post)))) := by
  have htext : expand (parse (pre ++ (ascii "%p" ++ post))) [.pointer p] =
      pre ++ (ascii "0x" ++ (hexDigits 16 p ++ post)) := by
    have hrest := expand_literal hplain.2 [] []
    rw [List.append_nil, parse_nil, expand_nil, List.append_nil] at hrest
    rw [expand_literal hplain.1, expand_pointer, hrest, List.append_assoc]
  have hmatch : Matching (parse (pre ++ (ascii "%p" ++ post))) [.pointer p] := by
    rw [matching_literal hplain.1]
    have hrest : Matching (parse post) [] := by
      have hnone := (matching_literal hplain.2 [] []).2 rfl
      rwa [List.append_nil] at hnone
    exact congrArg (Directive.pointer :: ·) hrest
  have hnul : 0 ∉ pre ++ (ascii "0x" ++ (hexDigits 16 p ++ post)) := by
    simp only [List.mem_append, not_or]
    exact ⟨hzero.1, by decide, zero_notMem_hexDigits 16 p, hzero.2⟩
  have hfmt : 0 ∉ pre ++ (ascii "%p" ++ post) := by
    simp only [List.mem_append, not_or]
    exact ⟨hzero.1, by decide, hzero.2⟩
  have hlen : (pre ++ (ascii "%p" ++ post)).length < fuel := by
    simp only [List.length_append, (by decide : (ascii "%p").length = 2)]
    omega
  have hroom : (expand (parse (pre ++ (ascii "%p" ++ post))) [.pointer p]).length < fuel := by
    rw [htext]
    simp only [List.length_append, (hexDigits_spec 16 p).1, (by decide : (ascii "0x").length = 2)]
    omega
  have hne : pre ++ (ascii "%p" ++ post) ≠ [] := by simp [ascii]
  rw [printk_eq hfmt hne (.cons (.pointer hp) .nil) hmatch hlen (by simp) hroom, htext,
    delivered_of_notMem hnul]

end RiscyOs
