import RiscyOs.EarlyOutput
import RiscyOs.Stdio.Chunks

/-!
# What `printf` returns in the kernel

The strings of `formatted_print` go to the callbacks of early output. Every character that reaches
a callback is counted, and so is the `NUL` of a `%c`, which ends the string that `early_puts` gets
(`printf_counts_iff`).
-/

namespace RiscyOs

open ByteMemory

/-- `printk_puts` -/
def printkPuts (fuel : Nat) (t : PutcharArray) (s : CStr) : Result (List (Nat × UInt8)) :=
  earlyPuts fuel t s

/-- `printf` with `KERNEL`: the calls of the callbacks, and the result. -/
def printf (fuel : Nat) (t : PutcharArray) (fmt : CStr) (args : List Arg) :
    Result (List (Nat × UInt8) × Int) := do
  let (out, numChars) ← formattedPrint fuel fmt args
  let calls ← out.mapM (printkPuts fuel t)
  return (calls.flatten, numChars)

/-- The characters that the callback gets. -/
def receivedBy (cb : Nat) (calls : List (Nat × UInt8)) : List UInt8 :=
  (calls.filter (·.1 = cb)).map (·.2)

variable {fuel : Nat} {t : PutcharArray} {S : Finset Nat} {fmt : CStr} {f : List UInt8}
  {args : List Arg} {vs : List Value}

/-! ## What the callbacks get -/

theorem receivedBy_append (cb : Nat) (calls calls' : List (Nat × UInt8)) :
    receivedBy cb (calls ++ calls') = receivedBy cb calls ++ receivedBy cb calls' := by
  rw [receivedBy, List.filter_append, List.map_append]
  rfl

/-- A registered callback gets every character once. -/
theorem receivedBy_earlyPutchar {cb : Nat} (h : Holds t S) (hcb : cb ∈ S) (c : UInt8) :
    receivedBy cb (earlyPutchar t c) = [c] := by
  have hone : t.registered.count cb = 1 :=
    List.count_eq_one_of_mem h.nodup ((h.mem_iff cb).2 hcb)
  have hfilter : t.registered.filter (· = cb) = [cb] := by
    have hreplicate : t.registered.filter (· == cb) = List.replicate (t.registered.count cb) cb :=
      List.filter_beq cb
    rw [hone] at hreplicate
    exact hreplicate
  rw [receivedBy, earlyPutchar_eq, List.filter_map]
  exact congrArg (fun l => (l.map fun cb => (cb, c)).map Prod.snd) hfilter

/-- It gets a text as it is. -/
theorem receivedBy_text {cb : Nat} (h : Holds t S) (hcb : cb ∈ S) (text : List UInt8) :
    receivedBy cb (text.flatMap (earlyPutchar t)) = text := by
  induction text with
  | nil => rfl
  | cons c text ih =>
    rw [List.flatMap_cons, receivedBy_append, receivedBy_earlyPutchar h hcb, ih]
    rfl

/-- The strings are passed on one after the other. -/
theorem printkPuts_mapM {out : List CStr} {strs : List (List UInt8)}
    (h : List.Forall₂ CStr.Is out strs) (hfuel : strs.flatten.length < fuel) :
    out.mapM (printkPuts fuel t) = .ok (strs.map fun l => l.flatMap (earlyPutchar t)) := by
  induction h with
  | nil => rfl
  | @cons s l out strs hs _ ih =>
    rw [List.flatten_cons, List.length_append] at hfuel
    have hfirst : printkPuts fuel t s = .ok (l.flatMap (earlyPutchar t)) :=
      earlyPuts_eq hs (by omega)
    rw [List.mapM_cons, hfirst, ok_bind, ih (by omega)]
    rfl

/-- **`printf` in the kernel**: the calls for the text without its `NUL`s, and the number of
characters of the text with them. -/
theorem printf_eq (hfmt : fmt.Is f) (hne : f ≠ []) (hargs : List.Forall₂ Arg.Has args vs)
    (hmatch : Matching (parse f) vs) (hfuel : f.length < fuel)
    (hstr : ∀ s, .string s ∈ vs → s.length < fuel)
    (htext : (expand (parse f) vs).length < fuel) :
    printf fuel t fmt args = .ok ((delivered (expand (parse f) vs)).flatMap (earlyPutchar t),
      int32 (expand (parse f) vs).length) := by
  obtain ⟨out, strs, hrun, hout, hflatten⟩ :=
    formattedPrint_delivers hfmt hne hargs hmatch hfuel hstr
  have hroom : strs.flatten.length < fuel := by
    rw [hflatten]
    exact (List.length_filter_le _ _).trans_lt htext
  rw [printf, hrun, ok_bind]
  simp only [printkPuts_mapM hout hroom, ok_bind, pure_eq_ok]
  rw [← hflatten, List.flatMap_def, List.map_flatten, List.flatten_flatten, List.map_map]
  rfl

/-! ## The result -/

theorem length_delivered (text : List UInt8) :
    (delivered text).length + text.count 0 = text.length := by
  rw [delivered, ← List.countP_eq_length_filter, List.count_eq_countP]
  rw [List.length_eq_countP_add_countP (· == 0) (l := text), Nat.add_comm]
  congr 2
  ext c
  simp

/-- The result is the number of characters each callback gets. -/
def PrintfCounts (fuel : Nat) (t : PutcharArray) (S : Finset Nat) (fmt : CStr) (args : List Arg) :
    Prop :=
  ∃ calls n, printf fuel t fmt args = .ok (calls, n) ∧
    ∀ cb ∈ S, n = (receivedBy cb calls).length

/-- **When `printf` returns the number of characters that each callback gets**: there is no
callback, or no `%c` prints a `NUL` (up to the wrap of an `int`), and the others are fewer than
`2 ^ 31`. -/
theorem printf_counts_iff (h : Holds t S) (hfmt : fmt.Is f) (hne : f ≠ [])
    (hargs : List.Forall₂ Arg.Has args vs) (hmatch : Matching (parse f) vs)
    (hfuel : f.length < fuel) (hstr : ∀ s, .string s ∈ vs → s.length < fuel)
    (htext : (expand (parse f) vs).length < fuel) :
    PrintfCounts fuel t S fmt args ↔
      S = ∅ ∨ 2 ^ 32 ∣ vs.count (.char 0) ∧
        (expand (parse f) vs).length < 2 ^ 31 + vs.count (.char 0) := by
  have hrun : printf fuel t fmt args = .ok (_, _) :=
    printf_eq hfmt hne hargs hmatch hfuel hstr htext
  have hzeros := count_zero_expand hfmt.holds.2 hmatch fun s => zero_notMem_string hargs
  have hlen := length_delivered (expand (parse f) vs)
  rw [hzeros] at hlen
  have hcount : PrintfCounts fuel t S fmt args ↔ ∀ cb ∈ S,
      int32 (expand (parse f) vs).length = (delivered (expand (parse f) vs)).length := by
    constructor
    · rintro ⟨calls, n, hrun', hall⟩ cb hcb
      obtain ⟨rfl, rfl⟩ := Prod.mk.inj (Except.ok.inj (hrun.symm.trans hrun'))
      rw [hall cb hcb, receivedBy_text h hcb]
    · intro hall
      refine ⟨_, _, hrun, fun cb hcb => ?_⟩
      rw [hall cb hcb, receivedBy_text h hcb]
  -- in an `int`, the counts differ by the number of `NUL`s
  have hint : int32 (expand (parse f) vs).length = (delivered (expand (parse f) vs)).length ↔
      2 ^ 32 ∣ vs.count (.char 0) ∧
        (expand (parse f) vs).length < 2 ^ 31 + vs.count (.char 0) := by
    unfold int32
    omega
  rw [hcount, hint]
  constructor
  · intro hall
    rcases S.eq_empty_or_nonempty with hS | ⟨cb, hcb⟩
    · exact .inl hS
    · exact .inr (hall cb hcb)
  · rintro (rfl | hsmall) cb hcb
    · exact absurd hcb (Finset.notMem_empty cb)
    · exact hsmall

/-- A table with one callback. -/
theorem holds_singleton : Holds ⟨1 :: List.replicate 7 NULL, rfl⟩ {1} := by
  refine ⟨by decide, fun x => ?_⟩
  rw [PutcharArray.registered, show List.filter _ _ = [1] from rfl]
  simp

/-- A string and a character for one callback. -/
theorem printf_counts_iff_one :
    PrintfCounts 8 ⟨1 :: List.replicate 7 NULL, rfl⟩ {1} (.lit (ascii "%s%c"))
        [.str (.lit (ascii "ab")), .int 0x41] ↔
      ({1} : Finset Nat) = ∅ ∨
        2 ^ 32 ∣ [Value.string (ascii "ab"), .char 0x41].count (.char 0) ∧
        (expand (parse (ascii "%s%c")) [.string (ascii "ab"), .char 0x41]).length <
          2 ^ 31 + [Value.string (ascii "ab"), .char 0x41].count (.char 0) := by
  have hargs : List.Forall₂ Arg.Has [.str (.lit (ascii "ab")), .int 0x41]
      [.string (ascii "ab"), .char (toChar 0x41)] :=
    .cons (.string (CStr.lit_is (by decide))) (.cons (.char 0x41) .nil)
  have hstr : ∀ s, .string s ∈ [Value.string (ascii "ab"), .char 0x41] → s.length < 8 := by
    intro s hs
    rcases List.mem_cons.1 hs with heq | hs
    · rw [Value.string.inj heq]
      decide
    · cases List.mem_singleton.1 hs
  exact printf_counts_iff holds_singleton (CStr.lit_is (by decide)) (by decide) hargs (by decide)
    (by decide) hstr (by decide)

/-- The `NUL` of a `%c` is counted, and no callback gets it. -/
theorem nul_counted :
    ¬ PrintfCounts 4 ⟨1 :: List.replicate 7 NULL, rfl⟩ {1} (.lit (ascii "%c")) [.int 0] := by
  rintro ⟨calls, n, hrun, hall⟩
  have hargs : List.Forall₂ Arg.Has [.int 0] [.char (toChar 0)] := .cons (.char 0) .nil
  have hprintf : printf 4 ⟨1 :: List.replicate 7 NULL, rfl⟩ (.lit (ascii "%c")) [.int 0] =
      .ok ((delivered [0]).flatMap (earlyPutchar _), int32 [(0 : UInt8)].length) :=
    printf_eq (CStr.lit_is (by decide)) (by decide) hargs (by decide) (by decide) (by simp)
      (by decide)
  obtain ⟨rfl, rfl⟩ := Prod.mk.inj (Except.ok.inj (hrun.symm.trans hprintf))
  exact absurd (hall 1 (Finset.mem_singleton_self 1)) (by decide)

end RiscyOs
