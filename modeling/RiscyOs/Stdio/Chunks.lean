import Mathlib.Data.List.Forall2
import RiscyOs.Stdio.Expand

/-!
# What `formatted_print` passes to `puts`

`Inv st done`: the strings passed to `puts`, followed by what is pending in the buffer, are `done`.
A pass of the loop keeps `Ready`, which adds that what is left of the format string expands to the
rest of the text, and that the text is counted. A `NUL` is counted, but ends the string that `puts`
gets.

* `flush_spec`, `putChars_spec`, `literal_spec`, `convert_spec`: the parts of a pass.
* `pointerPrint_spec`: the digit loop, for every pointer.
* `formattedPrint_delivers`: what is passed to `puts`, and what is counted.
* `formattedPrint_expand`: the strings concatenate to the expansion of the format string.
-/

namespace RiscyOs

open ByteMemory FuelLoop

/-! ## Writing to the buffer -/

namespace CharArray

variable {buf : CharArray} {i : Nat} {c : UInt8} {cs : List UInt8}

theorem write_spec (hi : i < buf.cells.length) (c : UInt8) :
    ∃ buf', buf.write i c = .ok buf' ∧ buf'.cells.length = buf.cells.length ∧
      buf'.str.view (1 + i) = some c ∧ ∀ a, a ≠ 1 + i → buf'.str.view a = buf.str.view a := by
  refine ⟨⟨buf.cells.set i (some c)⟩, if_pos hi, List.length_set .., ?_, ?_⟩
  · simp [str, hi]
  · intro a ha
    simp only [str]
    by_cases hpos : 1 ≤ a
    · rw [if_pos hpos, if_pos hpos, List.getElem?_set_ne (by omega)]
    · rw [if_neg hpos, if_neg hpos]

theorem writeAll_spec (hi : i + cs.length ≤ buf.cells.length) :
    ∃ buf', buf.writeAll i cs = .ok buf' ∧ buf'.cells.length = buf.cells.length ∧
      buf'.str.view.Holds (1 + i) cs ∧
      ∀ a, a < 1 + i ∨ 1 + i + cs.length ≤ a → buf'.str.view a = buf.str.view a := by
  induction cs generalizing i buf with
  | nil => exact ⟨buf, rfl, rfl, trivial, fun a _ => rfl⟩
  | cons c cs ih =>
    rw [List.length_cons] at hi
    obtain ⟨buf₁, h₁, hlen₁, hc₁, hframe₁⟩ := write_spec (show i < buf.cells.length by omega) c
    obtain ⟨buf₂, h₂, hlen₂, hholds₂, hframe₂⟩ :=
      ih (show i + 1 + cs.length ≤ buf₁.cells.length by omega)
    refine ⟨buf₂, ?_, hlen₂.trans hlen₁, ⟨?_, hholds₂⟩, ?_⟩
    · simp only [writeAll, h₁, ok_bind, h₂]
    · rw [hframe₂ _ (.inl (by omega)), hc₁]
    · intro a ha
      rw [List.length_cons] at ha
      rw [hframe₂ a (by omega), hframe₁ a (by omega)]

/-- A buffer that holds characters and a terminator is a string. -/
theorem str_is (h : buf.str.view.Holds 1 (cs ++ [0])) (h0 : 0 ∉ cs) : buf.str.Is cs :=
  ⟨one_ne_zero, h, h0⟩

end CharArray

/-! ## Pointers -/

theorem hexDigit_eq {d : Nat} (h : d < 16) :
    hexDigit (UInt8.ofNat d) = (ascii "0123456789ABCDEF").getD d 0 := by
  decide +revert

/-- The digit loop writes the last `n` digits, whether they are zeros or not. -/
theorem pointerDigits_spec {n : Nat} {buf : CharArray} (hn : n + 2 ≤ buf.cells.length) (ip : Nat) :
    ∃ buf', pointerDigits n ip buf = .ok buf' ∧ buf'.cells.length = buf.cells.length ∧
      buf'.str.view.Holds 3 (hexDigits n ip) ∧
      ∀ a, a < 3 ∨ 3 + n ≤ a → buf'.str.view a = buf.str.view a := by
  induction n generalizing ip buf with
  | zero => exact ⟨buf, rfl, rfl, trivial, fun a _ => rfl⟩
  | succ n ih =>
    obtain ⟨buf₁, h₁, hlen₁, hd₁, hframe₁⟩ := CharArray.write_spec
      (show n + 2 < buf.cells.length by omega) ((ascii "0123456789ABCDEF").getD (ip % 16) 0)
    have hroom : n + 2 ≤ buf₁.cells.length := by omega
    obtain ⟨buf₂, h₂, hlen₂, hholds₂, hframe₂⟩ := ih hroom (ip / 16)
    have hstep : pointerDigits (n + 1) ip buf = pointerDigits n (ip / 16) buf₁ := by
      rw [pointerDigits]
      by_cases hip : ip > 0
      · have hmask : ip &&& 0xF = ip % 16 := Nat.and_two_pow_sub_one_eq_mod ip 4
        have hshift : ip >>> 4 = ip / 16 := Nat.shiftRight_eq_div_pow ip 4
        rw [if_pos hip, hmask, hshift, hexDigit_eq (Nat.mod_lt ip (by norm_num)), h₁, ok_bind]
      · obtain rfl : ip = 0 := by omega
        have hzero : chr '0' = (ascii "0123456789ABCDEF").getD (0 % 16) 0 := by decide
        rw [if_neg hip, hzero, h₁, ok_bind]
    refine ⟨buf₂, hstep.trans h₂, hlen₂.trans hlen₁, ?_, ?_⟩
    · rw [hexDigits, View.holds_append, (hexDigits_spec n _).1]
      refine ⟨hholds₂, ?_, trivial⟩
      rw [hframe₂ _ (.inr le_rfl), show 3 + n = 1 + (n + 2) by omega, hd₁]
    · intro a ha
      rw [hframe₂ a (by omega), hframe₁ a (by omega)]

/-- **`pointer_print`** passes `0x` and sixteen digits. -/
theorem pointerPrint_spec (p : Nat) :
    ∃ s, pointerPrint p = .ok (s, 18) ∧ s.Is (ascii "0x" ++ hexDigits 16 p) := by
  have hlen : (CharArray.uninit 19).cells.length = 19 := by decide
  have hroom : 16 + 2 ≤ (CharArray.uninit 19).cells.length := by omega
  have hloop : ∃ buf', pointerDigits 16 p (.uninit 19) = .ok buf' ∧ _ := pointerDigits_spec hroom p
  have hdlen := (hexDigits_spec 16 p).1
  have hzero := zero_notMem_hexDigits 16 p
  generalize hexDigits 16 p = ds at hloop hdlen hzero ⊢
  obtain ⟨buf₁, h₁, hlen₁, hdigits, -⟩ := hloop
  obtain ⟨buf₂, h₂, hlen₂, hc₂, hframe₂⟩ :=
    CharArray.write_spec (show 0 < buf₁.cells.length by omega) (chr '0')
  obtain ⟨buf₃, h₃, hlen₃, hc₃, hframe₃⟩ :=
    CharArray.write_spec (show 1 < buf₂.cells.length by omega) (chr 'x')
  obtain ⟨buf₄, h₄, -, hc₄, hframe₄⟩ :=
    CharArray.write_spec (show 18 < buf₃.cells.length by omega) 0
  have hmark : ascii "0x" = [chr '0', chr 'x'] := by decide
  rw [hmark]
  have hdigits₄ : buf₄.str.view.Holds 3 ds := by
    refine hdigits.of_agrees fun a ha ha' => ?_
    rw [hdlen] at ha'
    rw [hframe₄ a (by omega), hframe₃ a (by omega), hframe₂ a (by omega)]
  refine ⟨buf₄.str, ?_, CharArray.str_is ?_ ?_⟩
  · simp only [pointerPrint, h₁, h₂, h₃, h₄, ok_bind, pure_eq_ok]
  · refine View.holds_append.2 ⟨View.holds_append.2 ⟨⟨?_, ?_, trivial⟩, hdigits₄⟩, ?_, trivial⟩
    · rw [hframe₄ 1 (by omega), hframe₃ 1 (by omega)]
      exact hc₂
    · rw [hframe₄ (1 + 1) (by omega)]
      exact hc₃
    · rw [List.length_append, hdlen]
      exact hc₄
  · rw [List.mem_append, not_or]
    exact ⟨by decide, hzero⟩

/-! ## Counting -/

theorem iadd_int32 (a b : Int) : iadd (int32 a) b = int32 (a + b) := by
  unfold iadd int32
  omega

theorem iadd_int32_right (a b : Int) : iadd a (int32 b) = iadd a b := by
  unfold iadd int32
  omega

/-- What is pending is not counted yet. -/
def PrintState.Counts (st : PrintState) (k : Nat) : Prop :=
  st.numChars = int32 (k - st.bufHead)

theorem PrintState.Counts.add {st st' : PrintState} {k k' : Nat} {m : Int} (h : st.Counts k)
    (hnum : st'.numChars = iadd st.numChars m)
    (hhead : (k' : Int) - st'.bufHead = k - st.bufHead + m) : st'.Counts k' := by
  rw [Counts] at h ⊢
  rw [hnum, h, iadd_int32, hhead]

/-! ## The buffer between passes -/

/-- The strings passed to `puts`, followed by the pending characters, are `done`. -/
structure PrintState.Inv (st : PrintState) (done : List UInt8) : Prop where
  length : st.buf.cells.length = bufLen + 1
  /-- The backup terminator. -/
  backup : st.buf.str.view (1 + bufLen) = some 0
  head_lt : st.bufHead < bufLen
  text : ∃ strs pending, List.Forall₂ CStr.Is st.puts strs ∧ st.buf.str.view.Holds 1 pending ∧
    pending.length = st.bufHead ∧ 0 ∉ pending ∧ strs.flatten ++ pending = done

variable {st : PrintState} {done : List UInt8} {fuel : Nat}

/-- A string passed to `puts` when nothing is pending. -/
theorem forall₂_snoc {out : List CStr} {strs : List (List UInt8)} {s : CStr} {l : List UInt8}
    (h : List.Forall₂ CStr.Is out strs) (hs : s.Is l) :
    List.Forall₂ CStr.Is (out ++ [s]) (strs ++ [l]) := by
  induction h with
  | nil => exact .cons hs .nil
  | cons hhead _ ih => exact .cons hhead ih

/-- Flushing passes what is pending to `puts`. -/
theorem PrintState.flush_spec (h : st.Inv done) :
    ∃ st', st.flush = .ok st' ∧ st'.Inv done ∧ st'.bufHead = 0 ∧ st'.fmt = st.fmt ∧
      st'.args = st.args ∧ st'.escaped = st.escaped ∧ ∀ k, st.Counts k → st'.Counts k := by
  obtain ⟨hlen, hbackup, hlt, strs, pending, hputs, hholds, hpending, hzero, hdone⟩ := h
  by_cases hhead : st.bufHead > 0
  · obtain ⟨buf, hbuf, hlen', hterm, hframe⟩ :=
      CharArray.write_spec (show st.bufHead < st.buf.cells.length by omega) 0
    have hstr : buf.str.Is pending := by
      refine CharArray.str_is (View.holds_append.2 ⟨hholds.of_agrees ?_, ?_, trivial⟩) hzero
      · intro a _ ha
        exact hframe a (by omega)
      · rw [hpending]
        exact hterm
    refine ⟨{ st with
        buf := buf
        puts := st.puts ++ [buf.str]
        numChars := iadd st.numChars st.bufHead
        bufHead := 0 }, ?_, ⟨hlen'.trans hlen, ?_, Nat.zero_lt_succ _, strs ++ [pending], [],
      forall₂_snoc hputs hstr, trivial, rfl, List.not_mem_nil, ?_⟩, rfl, rfl, rfl, rfl, ?_⟩
    · simp only [flush, if_pos hhead, hbuf, ok_bind, pure_eq_ok]
    · rw [hframe _ (by omega)]
      exact hbackup
    · rw [← hdone, List.flatten_append, List.flatten_singleton, List.append_nil]
    · intro k hk
      refine hk.add rfl ?_
      dsimp only
      omega
  · exact ⟨st, if_neg hhead, ⟨hlen, hbackup, hlt, strs, pending, hputs, hholds, hpending, hzero,
      hdone⟩, by omega, rfl, rfl, rfl, fun k hk => hk⟩

/-- The characters of a conversion go to `puts` on their own, up to a `NUL`. -/
theorem PrintState.putChars_spec (cs : List UInt8) {text more : List UInt8} (h : st.Inv done)
    (hhead : st.bufHead = 0) (hroom : cs.length + 1 ≤ bufLen)
    (hcs : cs ++ [0] = text ++ 0 :: more) (hzero : 0 ∉ text) :
    ∃ st', st.putChars cs = .ok st' ∧ st'.Inv (done ++ text) ∧ st'.fmt = st.fmt ∧
      st'.args = st.args ∧ st'.escaped = false ∧ ∀ k, st.Counts k → st'.Counts (k + cs.length) := by
  obtain ⟨hlen, hbackup, -, strs, pending, hputs, -, hpending, -, hdone⟩ := h
  obtain rfl : pending = [] := List.length_eq_zero_iff.1 (hpending.trans hhead)
  have hroom : (cs ++ [0]).length ≤ bufLen := by rwa [List.length_append]
  obtain ⟨buf, hbuf, hlen', hholds, hframe⟩ :=
    CharArray.writeAll_spec (show 0 + (cs ++ [0]).length ≤ st.buf.cells.length by omega)
  have hstr : buf.str.Is text := by
    rw [hcs, List.append_cons, View.holds_append] at hholds
    exact CharArray.str_is hholds.1 hzero
  refine ⟨{ st with
      buf := buf
      puts := st.puts ++ [buf.str]
      numChars := iadd st.numChars cs.length
      escaped := false }, ?_, ⟨hlen'.trans hlen, ?_, ?_, strs ++ [text], [],
    forall₂_snoc hputs hstr, trivial, hhead.symm, List.not_mem_nil, ?_⟩, rfl, rfl, rfl, ?_⟩
  · simp only [putChars, hbuf, ok_bind, pure_eq_ok]
  · rw [hframe _ (.inr (by omega))]
    exact hbackup
  · rw [hhead]
    exact Nat.zero_lt_succ _
  · rw [← hdone, List.flatten_append, List.flatten_singleton, List.append_nil, List.append_nil]
  · intro k hk
    refine hk.add rfl ?_
    dsimp only
    omega

/-- A string that is passed to `puts` as it is. -/
theorem PrintState.Inv.putStr {s : CStr} {l : List UInt8} (h : st.Inv done)
    (hhead : st.bufHead = 0) (hs : s.Is l) (args : List Arg) (n : Int) :
    PrintState.Inv { st with
      args := args, puts := st.puts ++ [s], numChars := n, escaped := false } (done ++ l) := by
  obtain ⟨hlen, hbackup, hlt, strs, pending, hputs, -, hpending, -, hdone⟩ := h
  obtain rfl : pending = [] := List.length_eq_zero_iff.1 (hpending.trans hhead)
  refine ⟨hlen, hbackup, hlt, strs ++ [l], [], forall₂_snoc hputs hs, trivial, hpending,
    List.not_mem_nil, ?_⟩
  rw [← hdone, List.flatten_append, List.flatten_singleton, List.append_nil, List.append_nil]

theorem PrintState.Counts.putStr {k len : Nat} {m : Int} {puts : List CStr} {args : List Arg}
    (h : st.Counts k) (hn : iadd st.numChars m = iadd st.numChars len) :
    PrintState.Counts { st with
      args := args, puts := puts, numChars := iadd st.numChars m, escaped := false } (k + len) := by
  refine h.add hn ?_
  dsimp only
  omega

/-- A literal character becomes pending, and the thirty-second flushes the buffer. -/
theorem PrintState.literal_spec {c : UInt8} (h : st.Inv done) (hzero : c ≠ 0)
    (hpercent : c ≠ chr '%') :
    ∃ st', st.literal c = .ok st' ∧ st'.Inv (done ++ [c]) ∧ st'.fmt = st.fmt ∧
      st'.args = st.args ∧ st'.escaped = st.escaped ∧ ∀ k, st.Counts k → st'.Counts (k + 1) := by
  obtain ⟨hlen, hbackup, hlt, strs, pending, hputs, hholds, hpending, hnonzero, hdone⟩ := h
  obtain ⟨buf, hbuf, hlen', hc, hframe⟩ :=
    CharArray.write_spec (show st.bufHead < st.buf.cells.length by omega) c
  have hpending' : buf.str.view.Holds 1 (pending ++ [c]) := by
    refine View.holds_append.2 ⟨hholds.of_agrees ?_, ?_, trivial⟩
    · intro a _ ha
      exact hframe a (by omega)
    · rw [hpending]
      exact hc
  have hbackup' : buf.str.view (1 + bufLen) = some 0 := by
    rw [hframe _ (by omega)]
    exact hbackup
  have hlength : (pending ++ [c]).length = st.bufHead + 1 := by
    rw [List.length_append, hpending, List.length_singleton]
  have hnonzero' : 0 ∉ pending ++ [c] := by
    rw [List.mem_append, List.mem_singleton, not_or]
    exact ⟨hnonzero, Ne.symm hzero⟩
  by_cases hfull : st.bufHead + 1 = bufLen
  · -- the backup terminator ends the string
    have hstr : buf.str.Is (pending ++ [c]) := by
      refine CharArray.str_is (View.holds_append.2 ⟨hpending', ?_, trivial⟩) hnonzero'
      rw [hlength, hfull]
      exact hbackup'
    refine ⟨{ st with
        buf := buf
        puts := st.puts ++ [buf.str]
        numChars := iadd st.numChars bufLen
        bufHead := 0 }, ?_,
      ⟨hlen'.trans hlen, hbackup', Nat.zero_lt_succ _, strs ++ [pending ++ [c]], [],
        forall₂_snoc hputs hstr, trivial, rfl, List.not_mem_nil, ?_⟩, rfl, rfl, rfl, ?_⟩
    · simp only [literal, if_neg hzero, if_neg hpercent, hbuf, ok_bind, if_pos hfull, pure_eq_ok]
    · rw [← hdone, List.flatten_append, List.flatten_singleton, List.append_nil, List.append_assoc]
    · intro k hk
      refine hk.add rfl ?_
      dsimp only
      omega
  · refine ⟨{ st with buf := buf, bufHead := st.bufHead + 1 }, ?_,
      ⟨hlen'.trans hlen, hbackup', ?_, strs, pending ++ [c], hputs, hpending', hlength, hnonzero',
        ?_⟩, rfl, rfl, rfl, ?_⟩
    · simp only [literal, if_neg hzero, if_neg hpercent, hbuf, ok_bind, if_neg hfull, pure_eq_ok]
    · exact lt_of_le_of_ne hlt hfull
    · rw [← hdone, List.append_assoc]
    · intro k hk
      rw [Counts] at hk ⊢
      dsimp only
      rw [hk]
      congr 1
      omega

/-! ## Conversions -/

/-- What `puts` gets of a text that is put together from strings: everything but its `NUL`s. -/
def delivered (text : List UInt8) : List UInt8 := text.filter (· ≠ 0)

theorem delivered_append (xs ys : List UInt8) :
    delivered (xs ++ ys) = delivered xs ++ delivered ys := List.filter_append _ _

theorem delivered_of_notMem {text : List UInt8} (h : 0 ∉ text) : delivered text = text :=
  List.filter_eq_self.2 fun _ hc => decide_eq_true fun h0 => h (h0 ▸ hc)

/-- The argument has the value; a string is terminated. -/
inductive Arg.Has : Arg → Value → Prop
  | char (x : Int) : Arg.Has (.int x) (.char (toChar x))
  | string {s : CStr} {l : List UInt8} : s.Is l → Arg.Has (.str s) (.string l)
  | pointer {p : Nat} : p < 2 ^ 64 → Arg.Has (.ptr p) (.pointer p)

/-- The argument has the value; a character is not `NUL`, and a string is terminated. -/
inductive Arg.Is : Arg → Value → Prop
  | char {x : Int} : toChar x ≠ 0 → Arg.Is (.int x) (.char (toChar x))
  | string {s : CStr} {l : List UInt8} : s.Is l → Arg.Is (.str s) (.string l)
  | pointer {p : Nat} : p < 2 ^ 64 → Arg.Is (.ptr p) (.pointer p)

theorem Arg.Is.has {a : Arg} {v : Value} (h : Arg.Is a v) : Arg.Has a v := by
  cases h with
  | char _ => exact .char _
  | string hs => exact .string hs
  | pointer hp => exact .pointer hp

/-- What is left of the format string, with the `%` when it has been read. -/
def directivesLeft (escaped : Bool) (rest : List UInt8) : List Directive :=
  parse (if escaped then chr '%' :: rest else rest)

/-- What is left of the format string and of the arguments expands to the rest of the text, and the
text that is done is counted. -/
structure PrintState.Ready (fuel : Nat) (st : PrintState) (rest total : List UInt8)
    (done : List UInt8) (vs : List Value) : Prop where
  inv : st.Inv (delivered done)
  count : st.Counts done.length
  args : List.Forall₂ Arg.Has st.args vs
  fuel : ∀ s, .string s ∈ vs → s.length < fuel
  matching : Matching (directivesLeft st.escaped rest) vs
  text : done ++ expand (directivesLeft st.escaped rest) vs = total

variable {c : UInt8} {rest total : List UInt8} {vs : List Value}

/-- After the escape, with the text `cs` of the directive done. -/
theorem PrintState.ready_of_inv {text cs : List UInt8} (hinv : st.Inv (delivered done ++ text))
    (hdelivered : delivered cs = text) (hcount : st.Counts (done.length + cs.length))
    (hescaped : st.escaped = false) (hargs : List.Forall₂ Arg.Has st.args vs)
    (hfuel : ∀ s, .string s ∈ vs → s.length < fuel)
    (hmatch : Matching (parse rest) vs)
    (htext : done ++ (cs ++ expand (parse rest) vs) = total) :
    st.Ready fuel rest total (done ++ cs) vs := by
  have hleft : directivesLeft st.escaped rest = parse rest := by
    rw [directivesLeft, hescaped, if_neg Bool.false_ne_true]
  rw [← hdelivered, ← delivered_append] at hinv
  rw [← List.length_append] at hcount
  refine ⟨hinv, hcount, hargs, hfuel, hleft ▸ hmatch, ?_⟩
  rw [hleft, List.append_assoc]
  exact htext

/-- Characters without a `NUL` are delivered as they are, and `%c` of a `NUL` delivers nothing. -/
theorem exists_delivered (cs : List UInt8) (h : 0 ∉ cs ∨ cs = [0]) :
    ∃ more, cs ++ [0] = delivered cs ++ 0 :: more := by
  rcases h with h | rfl
  · exact ⟨[], by rw [delivered_of_notMem h]⟩
  · exact ⟨[0], rfl⟩

theorem zero_notMem_delivered (cs : List UInt8) : 0 ∉ delivered cs := by
  intro h
  exact of_decide_eq_true (List.mem_filter.1 h).2 rfl

/-- The characters `cs` of a directive, of which `puts` gets those before a `NUL`. -/
theorem PrintState.putChars_ready (cs : List UInt8) (hinv : st.Inv (delivered done))
    (hcount : st.Counts done.length) (hhead : st.bufHead = 0) (hroom : cs.length + 1 ≤ bufLen)
    (hnul : 0 ∉ cs ∨ cs = [0]) (hargs : List.Forall₂ Arg.Has st.args vs)
    (hfuel : ∀ s, .string s ∈ vs → s.length < fuel) (hmatch : Matching (parse rest) vs)
    (htext : done ++ (cs ++ expand (parse rest) vs) = total) :
    ∃ st' done' vs', st.putChars cs = .ok st' ∧ st'.fmt = st.fmt ∧
      st'.Ready fuel rest total done' vs' := by
  obtain ⟨more, hmore⟩ := exists_delivered cs hnul
  obtain ⟨st', hst', hinv', hfmt, hargs', hesc, hcounts⟩ :=
    putChars_spec cs hinv hhead hroom hmore (zero_notMem_delivered cs)
  exact ⟨st', _, vs, hst', hfmt,
    ready_of_inv hinv' rfl (hcounts _ hcount) hesc (hargs' ▸ hargs) hfuel hmatch htext⟩

/-- The conversion of `c` is the directive that `c` stands for. -/
theorem PrintState.convert_spec (h : st.Ready fuel (c :: rest) total done vs)
    (hescaped : st.escaped = true) (hhead : st.bufHead = 0) (hzero : c ≠ 0) :
    ∃ st' done' vs', st.convert fuel c = .ok st' ∧ st'.fmt = st.fmt ∧
      st'.Ready fuel rest total done' vs' := by
  obtain ⟨hinv, hcount, hargs, hfuel, hmatch, htext⟩ := h
  have hleft : directivesLeft st.escaped (c :: rest) = .of c :: parse rest := by
    rw [directivesLeft, hescaped, if_pos rfl, parse_percent]
  rw [hleft] at hmatch htext
  rw [Directive.of] at hmatch htext
  by_cases hpercent : c = chr '%'
  · rw [if_pos hpercent] at hmatch htext
    rw [convert, if_pos (.inr hpercent)]
    exact putChars_ready [chr '%'] hinv hcount hhead (by decide) (.inl (by decide)) hargs hfuel
      (hmatch.cons_skips (by decide)) htext
  rw [if_neg hpercent] at hmatch htext
  rw [convert, if_neg (not_or.2 ⟨hzero, hpercent⟩)]
  by_cases hchar : c = chr 'c'
  · rw [if_pos hchar] at hmatch htext
    obtain ⟨v, vs', rfl, hv, hmatch'⟩ := hmatch.cons_takes (.inl rfl)
    obtain ⟨a, args, ha, hargs', heq⟩ := List.forall₂_cons_right_iff.1 hargs
    cases ha with
    | char x =>
      have hinv₁ : PrintState.Inv { st with args := args } (delivered done) :=
        ⟨hinv.length, hinv.backup, hinv.head_lt, hinv.text⟩
      have hnul : 0 ∉ [toChar x] ∨ [toChar x] = [0] := by
        rw [List.mem_singleton, List.cons.injEq, eq_comm]
        exact (em _).symm.imp_right fun h => ⟨h, rfl⟩
      rw [if_pos hchar, heq, vaInt, ok_bind]
      exact putChars_ready [toChar x] hinv₁ hcount hhead (by simp [bufLen]) hnul hargs'
        (fun s hs => hfuel s (List.mem_cons_of_mem _ hs)) hmatch' htext
    | string => cases hv
    | pointer => cases hv
  rw [if_neg hchar] at hmatch htext
  rw [if_neg hchar]
  by_cases hstring : c = chr 's'
  · rw [if_pos hstring] at hmatch htext
    obtain ⟨v, vs', rfl, hv, hmatch'⟩ := hmatch.cons_takes (.inr (.inl rfl))
    obtain ⟨a, args, ha, hargs', heq⟩ := List.forall₂_cons_right_iff.1 hargs
    cases ha with
    | @string s l hs =>
      have hlen := strlen_eq hs (hfuel _ List.mem_cons_self)
      have hinv' := hinv.putStr hhead hs args (iadd st.numChars (int32 l.length))
      refine ⟨_, _, vs', ?_, ?_, ready_of_inv hinv' (delivered_of_notMem hs.holds.2)
        (hcount.putStr (iadd_int32_right _ _)) rfl hargs'
        (fun s hs => hfuel s (List.mem_cons_of_mem _ hs)) hmatch' htext⟩
      · simp only [if_pos hstring, heq, vaStr, ok_bind, hlen, pure_eq_ok]
      · rfl
    | char => cases hv
    | pointer => cases hv
  rw [if_neg hstring] at hmatch htext
  rw [if_neg hstring]
  by_cases hpointer : c = chr 'p'
  · rw [if_pos hpointer] at hmatch htext
    obtain ⟨v, vs', rfl, hv, hmatch'⟩ := hmatch.cons_takes (.inr (.inr rfl))
    obtain ⟨a, args, ha, hargs', heq⟩ := List.forall₂_cons_right_iff.1 hargs
    cases ha with
    | @pointer p hp =>
      obtain ⟨s, hs, his⟩ := pointerPrint_spec p
      have hlen : (ascii "0x" ++ hexDigits 16 p).length = 18 := by
        rw [List.length_append, (hexDigits_spec 16 p).1]
        rfl
      have htext' : done ++ (ascii "0x" ++ hexDigits 16 p ++ expand (parse rest) vs') = total :=
        htext
      generalize ascii "0x" ++ hexDigits 16 p = cs at his hlen htext'
      have hinv' := hinv.putStr hhead his args (iadd st.numChars 18)
      have hcount' : iadd st.numChars 18 = iadd st.numChars cs.length := by
        rw [hlen, Nat.cast_ofNat]
      refine ⟨_, _, vs', ?_, ?_, ready_of_inv hinv' (delivered_of_notMem his.holds.2)
        (hcount.putStr hcount') rfl hargs' (fun s hs => hfuel s (List.mem_cons_of_mem _ hs))
        hmatch' htext'⟩
      · simp only [if_pos hpointer, heq, vaPtr, ok_bind, hs, pure_eq_ok]
      · rfl
    | char => cases hv
    | string => cases hv
  rw [if_neg hpointer] at hmatch htext
  have hzeros : 0 ∉ [chr '%', c] := by
    rw [List.mem_cons, List.mem_singleton, not_or]
    exact ⟨by decide, Ne.symm hzero⟩
  rw [if_neg hpointer]
  exact putChars_ready [chr '%', c] hinv hcount hhead (by simp [bufLen]) (.inl hzeros) hargs hfuel
    (hmatch.cons_skips (not_takes_unknown c)) htext

/-! ## The loop -/

/-- **One pass keeps the expansion and the count.** -/
theorem PrintState.pass_spec {fmt : CStr} (h : st.Ready fuel (c :: rest) total done vs)
    (hchar : fmt.char st.fmt = .ok c) (hzero : c ≠ 0) :
    ∃ st' done' vs', st.pass fuel fmt = .ok st' ∧ st'.fmt = st.fmt ∧
      st'.Ready fuel rest total done' vs' := by
  by_cases hescaped : st.escaped = true
  · obtain ⟨st₁, h₁, hinv₁, hhead, hfmt, hargs, hesc, hcounts⟩ := flush_spec h.inv
    have hready : st₁.Ready fuel (c :: rest) total done vs :=
      ⟨hinv₁, hcounts _ h.count, hargs ▸ h.args, h.fuel, hesc ▸ h.matching, hesc ▸ h.text⟩
    obtain ⟨st₂, done', vs', h₂, hfmt₂, hready₂⟩ :=
      convert_spec hready (hesc.trans hescaped) hhead hzero
    refine ⟨st₂, done', vs', ?_, hfmt₂.trans hfmt, hready₂⟩
    simp only [pass, hchar, ok_bind, if_pos hescaped, h₁, h₂]
  · have hesc : st.escaped = false := Bool.eq_false_of_not_eq_true hescaped
    obtain ⟨hinv, hcount, hargs, hfuel, hmatch, htext⟩ := h
    have hpass : st.pass fuel fmt = st.literal c := by
      simp only [pass, hchar, ok_bind, if_neg hescaped]
    rw [directivesLeft, if_neg hescaped] at hmatch htext
    by_cases hpercent : c = chr '%'
    · refine ⟨{ st with escaped := true }, done, vs, ?_, rfl,
        ⟨hinv.length, hinv.backup, hinv.head_lt, hinv.text⟩, hcount, hargs, hfuel, ?_, ?_⟩
      · simp only [hpass, literal, if_neg hzero, if_pos hpercent, pure_eq_ok]
      · rwa [directivesLeft, if_pos rfl, ← hpercent]
      · rwa [directivesLeft, if_pos rfl, ← hpercent]
    · rw [parse_literal hpercent] at hmatch htext
      obtain ⟨st', hst', hinv', hfmt, hargs', hesc', hcounts⟩ := literal_spec hinv hzero hpercent
      have hdelivered : delivered [c] = [c] :=
        delivered_of_notMem (List.mem_singleton.not.2 (Ne.symm hzero))
      exact ⟨st', _, vs, hpass.trans hst', hfmt, ready_of_inv hinv' hdelivered (hcounts _ hcount)
        (hesc'.trans hesc) (hargs' ▸ hargs) hfuel (hmatch.cons_skips (not_takes_literal c)) htext⟩

theorem PrintState.Ready.advance (h : st.Ready fuel rest total done vs) :
    PrintState.Ready fuel { st with fmt := st.fmt + 1 } rest total done vs :=
  ⟨⟨h.inv.length, h.inv.backup, h.inv.head_lt, h.inv.text⟩, h.count, h.args, h.fuel, h.matching,
    h.text⟩

/-- The character after `pre`, or the terminator. -/
theorem CStr.Is.char_append {s : CStr} {pre l : List UInt8} (h : s.Is (pre ++ l)) :
    s.char pre.length = .ok (l.headD 0) := by
  rw [h.char (by simp)]
  cases l with
  | nil => simp
  | cons c l => simp

/-- The loop reads the rest of the format string, and all of the text is done. -/
theorem formattedLoop_spec {fmt : CStr} {pre : List UInt8} {n : Nat}
    (hfmt : fmt.Is (pre ++ c :: rest)) (hpos : st.fmt = pre.length)
    (h : st.Ready fuel (c :: rest) total done vs) (hn : rest.length < n) :
    ∃ st' done' vs', loop .outOfFuel (formattedStep fuel fmt) n st = .ok st' ∧
      st'.Ready fuel [] total done' vs' := by
  have hmem : ∀ k ∈ c :: rest, k ≠ 0 := by
    intro k hk hzero
    exact hfmt.holds.2 (List.mem_append_right pre (hzero ▸ hk))
  induction rest generalizing c pre st done vs n with
  | nil =>
    obtain ⟨n, rfl⟩ : ∃ m, n = m + 1 := ⟨n - 1, by omega⟩
    obtain ⟨st', done', vs', hpass, hpos', hready⟩ :=
      PrintState.pass_spec h (hpos ▸ hfmt.char_append) (hmem c List.mem_cons_self)
    have hend : fmt.char (st'.fmt + 1) = .ok 0 := by
      rw [← List.append_nil (pre ++ [c])] at hfmt
      have := hfmt.char_append
      rwa [List.length_append, List.length_singleton, ← hpos, ← hpos'] at this
    refine ⟨_, done', vs', loop_leave ?_, hready.advance⟩
    simp only [formattedStep, hpass, ok_bind, hend, ne_eq, not_true_eq_false, if_false, pure_eq_ok]
  | cons k rest ih =>
    obtain ⟨n, rfl⟩ : ∃ m, n = m + 1 := ⟨n - 1, by omega⟩
    obtain ⟨st', done', vs', hpass, hpos', hready⟩ :=
      PrintState.pass_spec h (hpos ▸ hfmt.char_append) (hmem c List.mem_cons_self)
    have hk : k ≠ 0 := hmem k (by simp)
    rw [List.append_cons] at hfmt
    have hnext : fmt.char (st'.fmt + 1) = .ok k := by
      have := hfmt.char_append
      rwa [List.length_append, List.length_singleton, ← hpos, ← hpos'] at this
    have hlen : st'.fmt + 1 = (pre ++ [c]).length := by
      rw [List.length_append, List.length_singleton, ← hpos, hpos']
    rw [loop_again { st' with fmt := st'.fmt + 1 }]
    · exact ih hfmt hlen hready.advance (by simpa using hn)
        fun x hx => hmem x (List.mem_cons_of_mem c hx)
    · simp only [formattedStep, hpass, ok_bind, hnext, if_pos hk, pure_eq_ok]

/-- **What `formatted_print` passes to `puts`, and what it counts**: the text without its `NUL`s,
and the length of the text with them. -/
theorem formattedPrint_delivers {fmt : CStr} {f : List UInt8} {args : List Arg}
    (hfmt : fmt.Is f) (hne : f ≠ []) (hargs : List.Forall₂ Arg.Has args vs)
    (hmatch : Matching (parse f) vs) (hfuel : f.length < fuel)
    (hstr : ∀ s, .string s ∈ vs → s.length < fuel) :
    ∃ out strs, formattedPrint fuel fmt args = .ok (out, int32 (expand (parse f) vs).length) ∧
      List.Forall₂ CStr.Is out strs ∧ strs.flatten = delivered (expand (parse f) vs) := by
  obtain ⟨buf, hbuf, hlen, hbackup, -⟩ := CharArray.write_spec
    (show bufLen < (CharArray.uninit (bufLen + 1)).cells.length by decide) 0
  have hleft : directivesLeft false f = parse f := by
    rw [directivesLeft, if_neg Bool.false_ne_true]
  obtain ⟨c, rest, rfl⟩ := List.exists_cons_of_ne_nil hne
  have hready : PrintState.Ready fuel ⟨0, args, buf, 0, 0, false, []⟩ (c :: rest)
      (expand (parse (c :: rest)) vs) [] vs :=
    ⟨⟨hlen, hbackup, Nat.zero_lt_succ _, [], [], .nil, trivial, rfl, List.not_mem_nil, rfl⟩, rfl,
      hargs, hstr, hleft ▸ hmatch, by rw [hleft, List.nil_append]⟩
  rw [List.length_cons] at hfuel
  obtain ⟨st, done, vs', hloop, hend⟩ := formattedLoop_spec
    (show fmt.Is ([] ++ c :: rest) from hfmt) rfl hready (Nat.lt_of_succ_lt hfuel)
  obtain ⟨st', hflush, hinv, hhead, -, -, -, hcounts⟩ := PrintState.flush_spec hend.inv
  obtain ⟨-, -, -, strs, pending, hputs, -, hpending, -, hdone⟩ := hinv
  obtain rfl : pending = [] := List.length_eq_zero_iff.1 (hpending.trans hhead)
  -- a `%` at the end stands for nothing
  have hdone' : done = expand (parse (c :: rest)) vs := by
    have htext := hend.text
    have hnone : expand (directivesLeft st.escaped []) vs' = [] := by
      cases st.escaped with
      | false => exact expand_nil vs'
      | true => exact expand_lone vs'
    rwa [hnone, List.append_nil] at htext
  have hcount := hcounts _ hend.count
  rw [PrintState.Counts, hhead, hdone', Nat.cast_zero, sub_zero] at hcount
  refine ⟨st'.puts, strs, ?_, hputs, ?_⟩
  · simp only [formattedPrint, hbuf, ok_bind, hloop, hflush, hcount, pure_eq_ok]
  · rw [← hdone', ← hdone, List.append_nil]

/-- The strings among the arguments are terminated by their only `NUL`. -/
theorem zero_notMem_string {args : List Arg} (h : List.Forall₂ Arg.Has args vs) {s : List UInt8}
    (hs : .string s ∈ vs) : 0 ∉ s := by
  induction h with
  | nil => cases hs
  | cons harg _ ih =>
    rcases List.mem_cons.1 hs with rfl | hs
    · cases harg with
      | string his => exact his.holds.2
    · exact ih hs

/-- No `%c` prints a `NUL`. -/
theorem nul_notMem {args : List Arg} (h : List.Forall₂ Arg.Is args vs) : .char 0 ∉ vs := by
  induction h with
  | nil => exact List.not_mem_nil
  | cons harg _ ih =>
    rw [List.mem_cons, not_or]
    refine ⟨fun heq => ?_, ih⟩
    cases harg with
    | char hx => exact hx (Value.char.inj heq).symm
    | string _ => cases heq
    | pointer _ => cases heq

theorem pointer_lt {args : List Arg} {p : Nat} (h : List.Forall₂ Arg.Is args vs)
    (hp : .pointer p ∈ vs) : p < 2 ^ 64 := by
  induction h with
  | nil => cases hp
  | cons harg _ ih =>
    rcases List.mem_cons.1 hp with rfl | hp
    · cases harg with
      | pointer hlt => exact hlt
    · exact ih hp

/-- **`formatted_print` passes the expansion to `puts`**, and never leaves its buffer. A lone `%` at
the end expands to nothing. -/
theorem formattedPrint_expand {fmt : CStr} {f : List UInt8} {args : List Arg}
    (hfmt : fmt.Is f) (hne : f ≠ []) (hargs : List.Forall₂ Arg.Is args vs)
    (hmatch : Matching (parse f) vs) (hfuel : f.length < fuel)
    (hstr : ∀ s, .string s ∈ vs → s.length < fuel) :
    ∃ out n strs, formattedPrint fuel fmt args = .ok (out, n) ∧
      List.Forall₂ CStr.Is out strs ∧ strs.flatten = expand (parse f) vs ∧
      ∀ p, .pointer p ∈ vs → PointerDigits p (hexDigits 16 p) := by
  have hhas := hargs.imp fun _ _ => Arg.Is.has
  obtain ⟨out, strs, hrun, hout, htext⟩ := formattedPrint_delivers hfmt hne hhas hmatch hfuel hstr
  refine ⟨out, _, strs, hrun, hout, ?_, fun p hp => hexDigits_pointer (pointer_lt hargs hp)⟩
  rw [htext]
  apply delivered_of_notMem
  rw [← List.count_eq_zero, count_zero_expand hfmt.holds.2 hmatch fun s => zero_notMem_string hhas]
  exact List.count_eq_zero.2 (nul_notMem hargs)

/-- A format string longer than the buffer, with a conversion in the middle. -/
theorem formattedPrint_expand_long :
    ∃ out n strs, formattedPrint 60 (.lit (ascii "a line of more than thirty-two characters: %c%%"))
        [.int 0x41] = .ok (out, n) ∧
      List.Forall₂ CStr.Is out strs ∧ strs.flatten =
        expand (parse (ascii "a line of more than thirty-two characters: %c%%")) [.char 0x41] ∧
      ∀ p, .pointer p ∈ [Value.char 0x41] → PointerDigits p (hexDigits 16 p) := by
  have hargs : List.Forall₂ Arg.Is [.int 0x41] [.char (toChar 0x41)] :=
    .cons (.char (by decide)) .nil
  exact formattedPrint_expand (CStr.lit_is (by decide)) (by decide) hargs (by decide) (by decide)
    (by simp)

end RiscyOs
