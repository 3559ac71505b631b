import Mathlib.Data.Nat.Bitwise
import RiscyOs.Fdt.Encode

/-!
# Going from token to token

`Follows` says where the next token stands, from what is written at a token; `fdt_next_token` goes
there, or returns `NULL` when this is outside the structure block (`fdtNextTokenIn_eq`).

On a structure block that is a sequence of tokens (`Stream`) it steps from each token to the one
after it (`Stream.nextToken_eq`), whatever names and values stand in between. So a token loop of the
source is a recursion over the tokens that remain, `scan` (`Stream.tokenLoop_eq`).
-/

namespace RiscyOs

open ByteMemory FuelLoop

/-! ## One token -/

/-- `fdt_next_token` with the header read through `hdr`. -/
def fdtNextTokenIn (fuel : Nat) (hdr v : View) (fdt token : Nat) : Result Nat := do
  if token = NULL then .error .nullDeref
  let val ← be32 v token
  let next ←
    if val = FDT_NOP ∨ val = FDT_END_NODE then pure (wadd token 4)
    else if val = FDT_BEGIN_NODE then do
      let len ← strlen fuel ⟨v, token + 4⟩
      pure (wadd (wadd token 4) (wmul 4 (cellLen (wadd len 1))))
    else if val = FDT_PROP then do
      let len ← fdtPropValLen v token
      pure (wadd (wadd token 4) (wmul 4 (wadd 2 (cellLen len))))
    else pure NULL
  let invalid ← fdtStructPtrInvalid hdr fdt next
  return if invalid then NULL else next

theorem fdtNextTokenIn_self (fuel : Nat) (v : View) (fdt token : Nat) :
    fdtNextTokenIn fuel v v fdt token = fdtNextToken fuel v fdt token := rfl

/-- The token at `a` has the given word, and the token after it stands at the given address. -/
inductive Follows (v : View) (a : Nat) : Nat → Nat → Prop
  | nop : be32 v a = .ok FDT_NOP → Follows v a FDT_NOP (a + 4)
  | endNode : be32 v a = .ok FDT_END_NODE → Follows v a FDT_END_NODE (a + 4)
  | beginNode {name : List UInt8} : be32 v a = .ok FDT_BEGIN_NODE → v.HoldsStr (a + 4) name →
      Follows v a FDT_BEGIN_NODE (a + 4 + Token.padded (name.length + 1))
  | prop {len : Nat} : be32 v a = .ok FDT_PROP → fdtPropValLen v a = .ok len →
      Follows v a FDT_PROP (a + 12 + Token.padded len)

/-- The header says that the structure block is `[start, stop)`. -/
structure BlockAt (hdr : View) (fdt start stop : Nat) : Prop where
  tokenBegin_eq : fdtTokenBegin hdr fdt = .ok start
  invalid_eq : ∀ ptr, fdtStructPtrInvalid hdr fdt ptr = .ok (decide (ptr < start ∨ ptr ≥ stop))
  pos : 0 < start
  le : start ≤ stop
  stop_lt : stop < 2 ^ 64
  short : stop < start + 2 ^ 32

theorem cellLen_eq (len : Nat) : 4 * cellLen len = Token.padded len := by
  have hand : len &&& 3 = len % 4 := Nat.and_two_pow_sub_one_eq_mod len 2
  rw [cellLen, Token.padded, Nat.shiftRight_eq_div_pow, hand]
  split_ifs <;> omega

section

variable {hdr v : View} {fdt start stop fuel a word next : Nat}

theorem blockAt_of_header {off size : Nat} (hfdt : 0 < fdt)
    (hoff : Fdt.offDtStruct hdr fdt = .ok off) (hsize : Fdt.sizeDtStruct hdr fdt = .ok size)
    (hwrap : fdt + off + size < 2 ^ 64) : BlockAt hdr fdt (fdt + off) (fdt + off + size) := by
  have hstart : wadd fdt off = fdt + off := wadd_eq (by omega)
  have hstop : wadd (fdt + off) size = fdt + off + size := wadd_eq hwrap
  have hshort : size < 2 ^ 32 := be32_lt hsize
  refine ⟨?_, ?_, by omega, by omega, hwrap, by omega⟩
  · simp only [fdtTokenBegin, hoff, ok_bind, hstart, pure_eq_ok]
  · intro ptr
    simp only [fdtStructPtrInvalid, hoff, hsize, ok_bind, hstart, hstop, pure_eq_ok]

theorem Follows.word_eq (h : Follows v a word next) : be32 v a = .ok word := by
  cases h <;> assumption

theorem Follows.le (h : Follows v a word next) : a + 4 ≤ next := by
  cases h <;> omega

/-- Where `fdt_next_token` goes. A sum that wraps is below the block. -/
theorem fdtNextTokenIn_eq (hb : BlockAt hdr fdt start stop) (ha : start ≤ a)
    (h : Follows v a word next) (hnext : next < 2 ^ 64 + start)
    (hfuel : word = FDT_BEGIN_NODE → next < a + 4 + fuel) :
    fdtNextTokenIn fuel hdr v fdt a = .ok (if next < stop then next else NULL) := by
  have hpos := hb.pos
  have hstop := hb.stop_lt
  -- from the machine's sum to the answer
  have hlast : ∀ x, x = next % 2 ^ 64 → (do
      let invalid ← fdtStructPtrInvalid hdr fdt x
      return if invalid then NULL else x) =
        (.ok (if next < stop then next else NULL) : Result Nat) := by
    rintro x rfl
    have hle := h.le
    rw [hb.invalid_eq, ok_bind, pure_eq_ok]
    by_cases hin : next < stop
    · have hvalid : ¬ (next < start ∨ next ≥ stop) := by omega
      rw [Nat.mod_eq_of_lt (hin.trans hstop), decide_eq_false hvalid, if_pos hin]
      rfl
    · have hinvalid : next % 2 ^ 64 < start ∨ next % 2 ^ 64 ≥ stop := by omega
      rw [decide_eq_true hinvalid, if_neg hin]
      rfl
  rw [fdtNextTokenIn, if_neg (hpos.trans_le ha).ne', h.word_eq, ok_bind]
  cases h with
  | nop _ =>
    rw [if_pos (.inl rfl)]
    exact hlast _ rfl
  | endNode _ =>
    rw [if_pos (.inr rfl)]
    exact hlast _ rfl
  | @beginNode name _ hname =>
    have hlen := Token.length_le_padded (name.length + 1)
    have hfuel := hfuel rfl
    have hstr : strlen fuel ⟨v, a + 4⟩ = .ok name.length := strlen_eq ⟨by simp, hname⟩ (by omega)
    have hcells := cellLen_eq (name.length + 1)
    rw [if_neg (by decide), if_pos rfl, hstr]
    apply hlast
    rw [wadd_eq (show name.length + 1 < 2 ^ 64 by omega), wmul, hcells, wadd, wadd]
    omega
  | @prop len _ hlen =>
    have hcells := cellLen_eq len
    have hlt : len < 2 ^ 32 := be32_lt hlen
    rw [if_neg (by decide), if_neg (by decide), if_pos rfl, hlen]
    apply hlast
    rw [wadd_eq (show 2 + cellLen len < 2 ^ 64 by unfold Token.padded at hcells; omega), wmul, wadd,
      wadd]
    omega

/-- At any other word it stops. -/
theorem fdtNextTokenIn_stop (hb : BlockAt hdr fdt start stop) (ha : a ≠ NULL)
    (hword : be32 v a = .ok word) (hnop : word ≠ FDT_NOP) (hend : word ≠ FDT_END_NODE)
    (hbegin : word ≠ FDT_BEGIN_NODE) (hprop : word ≠ FDT_PROP) :
    fdtNextTokenIn fuel hdr v fdt a = .ok NULL := by
  rw [fdtNextTokenIn, if_neg ha, hword, ok_bind, if_neg (not_or.2 ⟨hnop, hend⟩), if_neg hbegin,
    if_neg hprop]
  show (fdtStructPtrInvalid hdr fdt NULL >>= fun invalid => pure (if invalid then NULL else NULL)) =
    (.ok NULL : Result Nat)
  rw [hb.invalid_eq, ok_bind, ite_self]
  rfl

/-- A well-formed token is followed by what comes after it. -/
theorem Token.At.follows {t : Token} (h : t.At v a) (ht : t ≠ .fdtEnd) :
    Follows v a t.word (a + t.size) := by
  obtain ⟨hword, hbody⟩ := h
  cases t with
  | beginNode name => exact Nat.add_assoc a 4 _ ▸ .beginNode hword hbody
  | endNode => exact .endNode hword
  | prop nameOff value => exact Nat.add_assoc a 12 _ ▸ .prop hword hbody.1
  | nop => exact .nop hword
  | fdtEnd => exact absurd rfl ht

end

/-! ## Sequences of tokens -/

/-- The address of the first token, or `NULL`. -/
def headAddr : List (Nat × Token) → Nat
  | [] => NULL
  | (a, _) :: _ => a

section
variable {σ ρ : Type}

/-- A token loop as a recursion over the tokens. -/
def scan (visit : Nat → Nat → σ → σ ⊕ ρ) (none : σ → ρ) : List (Nat × Token) → σ → ρ
  | [], s => none s
  | (a, t) :: rest, s =>
    match visit t.word a s with
    | .inl s' => scan visit none rest s'
    | .inr r => r

end

/-- The structure block `[start, stop)` starts with the tokens `ts`, and these are what
`fdt_next_token` goes over: they fill the block, or the last one is the first `FDT_END`. -/
structure Stream (v : View) (fdt start stop : Nat) (ts : List (Nat × Token)) : Prop where
  block : BlockAt v fdt start stop
  laid : ∃ q, q ≤ stop ∧ Laid v start ts q ∧ (q = stop ∨ ∃ pre a, ts = pre ++ [(a, .fdtEnd)])
  rest_of_fdtEnd : ∀ pre a rest, ts = pre ++ (a, .fdtEnd) :: rest → rest = []

namespace Stream

variable {v : View} {fdt start stop fuel a : Nat} {t : Token} {ts pre rest : List (Nat × Token)}

theorem token_at (h : Stream v fdt start stop ts) (htok : ts = pre ++ (a, t) :: rest) :
    start ≤ a ∧ t.At v a ∧ ∃ q, q ≤ stop ∧ Laid v (a + t.size) rest q := by
  obtain ⟨q, hq, hlaid, -⟩ := h.laid
  rw [htok] at hlaid
  obtain ⟨mid, hpre, rfl, ht, hrest⟩ := laid_append.1 hlaid
  exact ⟨hpre.le, ht, q, hq, hrest⟩

theorem token_pos (h : Stream v fdt start stop ts) (htok : ts = pre ++ (a, t) :: rest) : 0 < a :=
  h.block.pos.trans_le (h.token_at htok).1

/-- There are fewer tokens than bytes. -/
theorem length_tokens (h : Stream v fdt start stop ts) : start + 4 * ts.length ≤ stop := by
  obtain ⟨q, hq, hlaid, -⟩ := h.laid
  exact hlaid.length_le.trans hq

/-- There is fuel for the tokens that remain, and some to spare. -/
theorem rest_lt (h : Stream v fdt start stop ts) (hfuel : stop < start + fuel)
    (htok : ts = pre ++ (a, t) :: rest) : rest.length + 2 < fuel := by
  have hlen := h.length_tokens
  rw [htok, List.length_append, List.length_cons] at hlen
  omega

/-- The last token ends the stream. -/
theorem end_of_last (h : Stream v fdt start stop ts) (htok : ts = pre ++ [(a, t)])
    (ht : t ≠ .fdtEnd) : a + t.size = stop := by
  obtain ⟨q, -, hlaid, hq⟩ := h.laid
  rw [htok] at hlaid hq
  obtain ⟨mid, -, rfl, -, hend⟩ := laid_append.1 hlaid
  rcases hq with rfl | ⟨pre', a', heq⟩
  · exact hend
  · have hlast := List.append_inj_right' heq rfl
    simp only [List.cons.injEq, Prod.mk.injEq, and_true] at hlast
    exact absurd hlast.2 ht

/-- **`fdt_next_token` goes to the next token**, over names and values of any length. -/
theorem nextToken_eq (h : Stream v fdt start stop ts) (hfuel : stop < start + fuel)
    (htok : ts = pre ++ (a, t) :: rest) : fdtNextToken fuel v fdt a = .ok (headAddr rest) := by
  obtain ⟨hlo, hat, q, hq, hrest⟩ := h.token_at htok
  have hstop := h.block.stop_lt
  have hend := hrest.length_le
  rw [← fdtNextTokenIn_self]
  by_cases ht : t = .fdtEnd
  · subst ht
    obtain rfl := h.rest_of_fdtEnd pre a rest htok
    exact fdtNextTokenIn_stop h.block (h.token_pos htok).ne' hat.1 (by decide) (by decide)
      (by decide) (by decide)
  · rw [fdtNextTokenIn_eq h.block hlo (hat.follows ht) (by omega) fun _ => by omega]
    cases rest with
    | nil => rw [h.end_of_last htok ht, if_neg (lt_irrefl stop), headAddr]
    | cons y ys =>
      obtain ⟨hy, -, -⟩ := hrest
      rw [List.length_cons] at hend
      rw [if_pos (by omega), ← hy, headAddr]

theorem tokenBegin_eq (h : Stream v fdt start stop ts) (hne : ts ≠ []) :
    fdtTokenBegin v fdt = .ok (headAddr ts) := by
  obtain ⟨q, -, hlaid, -⟩ := h.laid
  rw [h.block.tokenBegin_eq]
  cases ts with
  | nil => exact absurd rfl hne
  | cons x xs => rw [headAddr, hlaid.1]

variable {σ ρ : Type}

/-- **A token loop is a scan** of the tokens that remain. -/
theorem tokenLoop_eq (h : Stream v fdt start stop ts) (hfuel : stop < start + fuel)
    (visit : Nat → Nat → σ → σ ⊕ ρ) (none : σ → ρ) (htok : ts = pre ++ rest) (s : σ) :
    tokenLoop fuel v fdt visit none (headAddr rest) s = .ok (scan visit none rest s) := by
  have hlen : rest.length < fuel := by
    have := h.length_tokens
    have := congrArg List.length htok
    rw [List.length_append] at this
    omega
  rw [tokenLoop]
  -- one unit of fuel for each token left
  suffices ∀ n pre rest s, ts = pre ++ rest → rest.length < n →
      loop .outOfFuel (tokenStep fuel v fdt visit none) n (headAddr rest, s) =
        .ok (scan visit none rest s) from this fuel pre rest s htok hlen
  intro n
  induction n with
  | zero => intro _ _ _ _ hlen; omega
  | succ n ih =>
    intro pre rest s htok hlen
    cases rest with
    | nil => exact loop_leave rfl
    | cons x rest =>
      obtain ⟨a, t⟩ := x
      have hpos := h.token_pos htok
      obtain ⟨-, ⟨hword, -⟩, -⟩ := h.token_at htok
      cases hvisit : visit t.word a s with
      | inl s' =>
        rw [loop_again (headAddr rest, s'), scan, hvisit]
        · exact ih (pre ++ [(a, t)]) rest s' (by simpa using htok) (by simpa using hlen)
        · simp only [tokenStep, headAddr, if_neg hpos.ne', hword, ok_bind, hvisit,
            h.nextToken_eq hfuel htok, pure_eq_ok]
      | inr r =>
        rw [loop_leave (r := r), scan, hvisit]
        simp only [tokenStep, headAddr, if_neg hpos.ne', hword, ok_bind, hvisit, pure_eq_ok]

end Stream

/-! ## Blobs -/

namespace Blob

variable {b : Blob} {v : View} {fuel a : Nat} {t : Token} {pre rest : List (Nat × Token)}

/-- `FDT_END` is not in the body. -/
theorem fdtEnd_not_mem (F : Forest Node) : (a, Token.fdtEnd) ∉ flatten F := by
  induction F with
  | nil => simp [flatten]
  | cons n ch sib ihc ihs => simp [flatten, PropNode.token, ihc, ihs]

/-- Nothing comes after `FDT_END`. -/
theorem rest_of_fdtEnd (h : b.tokens = pre ++ (a, .fdtEnd) :: rest) : rest = [] := by
  rcases List.eq_nil_or_concat' rest with rfl | ⟨rest', x, rfl⟩
  · rfl
  · have hbody : b.body = pre ++ (a, .fdtEnd) :: rest' := by
      rw [tokens, ← List.cons_append, ← List.append_assoc] at h
      exact (List.append_inj' h rfl).1
    have hmem : (a, Token.fdtEnd) ∈ b.body.filter significant := by
      rw [hbody]
      simp [significant]
    rw [b.body_eq] at hmem
    exact absurd hmem (fdtEnd_not_mem b.tree)

theorem tokens_ne_nil (b : Blob) : b.tokens ≠ [] := by
  rw [tokens]
  exact List.append_ne_nil_of_right_ne_nil _ (List.cons_ne_nil _ _)

namespace StructIn

/-- A blob has a structure block. -/
theorem stream (h : b.StructIn v) :
    Stream v b.fdt b.structStart (b.structStart + b.sizeStruct) b.tokens := by
  have hwrap := b.noWrap
  have hle := b.struct_le
  exact
    { block := blockAt_of_header b.fdt_pos h.offDtStruct h.sizeDtStruct (by omega)
      laid := ⟨_, le_rfl, h.laid, .inl rfl⟩
      rest_of_fdtEnd := fun _ _ _ => rest_of_fdtEnd }

theorem fuel_lt (_ : b.StructIn v) (hfuel : b.sizeStruct < fuel) :
    b.structStart + b.sizeStruct < b.structStart + fuel := Nat.add_lt_add_left hfuel _

/-- Where a token of the structure block stands. -/
theorem token_at (h : b.StructIn v) (htok : b.tokens = pre ++ (a, t) :: rest) :
    b.structStart ≤ a ∧ t.At v a ∧ Laid v (a + t.size) rest (b.structStart + b.sizeStruct) := by
  have hlaid := h.laid
  rw [htok] at hlaid
  obtain ⟨mid, hpre, rfl, ht, hrest⟩ := laid_append.1 hlaid
  exact ⟨hpre.le, ht, hrest⟩

theorem token_pos (h : b.StructIn v) (htok : b.tokens = pre ++ (a, t) :: rest) : 0 < a :=
  h.stream.token_pos htok

/-- There are fewer tokens than bytes. -/
theorem length_tokens (h : b.StructIn v) : 4 * b.tokens.length ≤ b.sizeStruct := by
  have := h.laid.length_le
  omega

theorem rest_lt (h : b.StructIn v) (hfuel : b.sizeStruct < fuel)
    (htok : b.tokens = pre ++ (a, t) :: rest) : rest.length + 2 < fuel :=
  h.stream.rest_lt (h.fuel_lt hfuel) htok

theorem nextToken_eq (h : b.StructIn v) (hfuel : b.sizeStruct < fuel)
    (htok : b.tokens = pre ++ (a, t) :: rest) :
    fdtNextToken fuel v b.fdt a = .ok (headAddr rest) :=
  h.stream.nextToken_eq (h.fuel_lt hfuel) htok

theorem tokenLoop_eq (h : b.StructIn v) (hfuel : b.sizeStruct < fuel) {σ ρ : Type}
    (visit : Nat → Nat → σ → σ ⊕ ρ) (none : σ → ρ) (htok : b.tokens = pre ++ rest) (s : σ) :
    tokenLoop fuel v b.fdt visit none (headAddr rest) s = .ok (scan visit none rest s) :=
  h.stream.tokenLoop_eq (h.fuel_lt hfuel) visit none htok s

end StructIn

end Blob

end RiscyOs
