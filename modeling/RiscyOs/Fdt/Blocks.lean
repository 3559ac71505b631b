import RiscyOs.Fdt.Registers

/-!
# Reading register blocks

The pointer to a block is advanced by its number of cells where the bound check, and the encoding,
advance by its number of bytes. At the index `0` both are the start of `reg`; after it the code
reads other bytes, and the check no longer says that they are in `reg`.

* `getRegisterBlockIn` is the code with the bytes of the block read through a view of their own.
* `Blob.In.registerBlock_zero_eq`: the block with the index `0` is `firstBlock`.
* `registerBlock_decodes_iff`: a block is decoded when the bytes the code takes are the block's.
* `registerBlock_checked_iff`: when the code reads only `reg`, and nothing after the last block.
-/

namespace RiscyOs

open ByteMemory FuelLoop

/-! ## The code, with its two kinds of reads apart -/

/-- The address and the size at `addressPtr`; `none` is the error exit. -/
def readBlock (w : View) (addressCells sizeCells addressPtr : Nat) :
    Result (Option (Nat × Nat)) := do
  let sizePtr := wadd addressPtr (wmul addressCells 4)
  match ← readCells w addressCells addressPtr with
  | none => return none
  | some address =>
    match ← readCells w sizeCells sizePtr with
    | none => return none
    | some size => return some (address, size)

/-- `fdtNodeGetRegisterBlock` with the block itself read through `w`; `none` is the error exit. -/
def getRegisterBlockIn (fuel : Nat) (v w : View) (fdt node index : Nat) :
    Result (Option (Nat × Nat)) := do
  let reg ← fdtGetPropByName fuel v fdt node NULL (CStr.lit (ascii "reg"))
  if reg = NULL then return none
  let addressCells ← fdtNodeGetAddressCells fuel v fdt node
  let sizeCells ← fdtNodeGetSizeCells fuel v fdt node
  let cells := regBlockCells addressCells sizeCells
  let rawRegLen ← fdtPropValLen v reg
  if rawRegLen < wmul (wmul index cells) 4 then return none
  readBlock w addressCells sizeCells (wadd (fdtPropVal reg) (wmul index cells))

/-- Decode all blocks in order. -/
def fdtRegisterBlocks (fuel : Nat) (v : View) (fdt node : Nat) : Result (List (Nat × Nat)) := do
  let count ← fdtNodeNumRegisterBlocks fuel v fdt node
  (List.range count).mapM (fdtNodeGetRegisterBlock fuel v fdt node)

theorem bind_map {α β γ : Type} (x : Result α) (f : α → Result β) (g : β → γ) :
    (x >>= f).map g = x >>= fun a => (f a).map g := by
  cases x <;> rfl

/-- The error exit leaves a null pointer and no bytes. -/
theorem fdtNodeGetRegisterBlock_eq (fuel : Nat) (v : View) (fdt node index : Nat) :
    fdtNodeGetRegisterBlock fuel v fdt node index =
      (getRegisterBlockIn fuel v v fdt node index).map fun r => r.getD (NULL, 0) := by
  rw [fdtNodeGetRegisterBlock, getRegisterBlockIn, bind_map]
  refine bind_congr fun reg => ?_
  split
  · rfl
  · simp only [bind_map]
    refine bind_congr fun A => bind_congr fun S => bind_congr fun len => ?_
    split
    · rfl
    · rw [readBlock, bind_map]
      refine bind_congr fun address => ?_
      cases address with
      | none => rfl
      | some address =>
        dsimp only
        rw [bind_map]
        refine bind_congr fun size => ?_
        cases size <;> rfl

/-! ## Reading a block -/

/-- The two numbers in the bytes of a block. -/
def pairOf (address : Nat) (bytes : List UInt8) : Nat × Nat :=
  (beNat (bytes.take (4 * address)), beNat (bytes.drop (4 * address)))

/-- The bytes of a block of `cells` cells, from the byte `off` on. -/
def blockBytes (value : List UInt8) (off cells : Nat) : List UInt8 :=
  (value.drop off).take (4 * cells)

theorem length_blockBytes {value : List UInt8} {off cells : Nat}
    (h : off + 4 * cells ≤ value.length) : (blockBytes value off cells).length = 4 * cells := by
  rw [blockBytes, List.length_take, List.length_drop]
  omega

theorem blockAt_eq (value : List UInt8) (A S i : Nat) :
    blockAt value A S i = pairOf A (blockBytes value (4 * (i * (A + S))) (A + S)) := by
  have hA : min (4 * A) (4 * (A + S)) = 4 * A := by omega
  have hS : 4 * (A + S) - 4 * A = 4 * S := by omega
  have hoff : 4 * (i * (A + S)) + 4 * A = 4 * (i * (A + S) + A) := by omega
  rw [blockAt, pairOf, blockBytes, List.take_take, hA, List.drop_take, hS, List.drop_drop, hoff]
  rfl

/-- A block of a given length is its numbers. -/
theorem pairOf_inj {A : Nat} {xs ys : List UInt8} (h : xs.length = ys.length) :
    pairOf A xs = pairOf A ys ↔ xs = ys := by
  constructor
  · intro heq
    obtain ⟨haddress, hsize⟩ := Prod.mk.inj heq
    rw [beNat_inj (by simp [h])] at haddress hsize
    rw [← List.take_append_drop (4 * A) xs, haddress, hsize, List.take_append_drop]
  · rintro rfl
    rfl

variable {v w : View} {a A S off : Nat} {value : List UInt8}

theorem wmul_four {cells : Nat} (h : Readable cells) : wmul cells 4 = 4 * cells := by
  unfold Readable at h
  unfold wmul
  omega

/-- A number of one or two cells inside a value, from any of its bytes on. -/
theorem readCells_slice {cells : Nat} (hv : v.Holds a value)
    (hcells : Readable cells) (hle : off + 4 * cells ≤ value.length) :
    readCells v cells (a + off) = .ok (some (beNat ((value.drop off).take (4 * cells)))) := by
  unfold readCells
  rcases hcells with rfl | rfl
  · rw [if_pos rfl, be32_slice hv hle]
    rfl
  · rw [if_neg (by decide), if_pos rfl, be64_slice hv hle]
    rfl

theorem readCells_of_not_readable {cells : Nat} (h : ¬ Readable cells) (ptr : Nat) :
    readCells v cells ptr = .ok none := by
  unfold Readable at h
  unfold readCells
  rw [if_neg fun h1 => h (.inl h1), if_neg fun h2 => h (.inr h2)]

theorem readCells_total (hv : v.Total) {cells : Nat} (h : Readable cells) (ptr : Nat) :
    ∃ x, readCells v cells ptr = .ok (some x) := by
  unfold readCells
  rcases h with rfl | rfl
  · obtain ⟨x, hx⟩ := be32_total hv ptr
    exact ⟨x, by rw [if_pos rfl, hx]; rfl⟩
  · obtain ⟨x, hx⟩ := be64_total hv ptr
    exact ⟨x, by rw [if_neg (by decide), if_pos rfl, hx]; rfl⟩

/-- A block inside a value. -/
theorem readBlock_eq (hw : w.Holds a value) (hwrap : a + value.length < 2 ^ 64) (hA : Readable A)
    (hS : Readable S) (hle : off + 4 * (A + S) ≤ value.length) :
    readBlock w A S (wadd a off) = .ok (some (pairOf A (blockBytes value off (A + S)))) := by
  have hbytes : 4 * (A + S) = 4 * A + 4 * S := by omega
  have hmin : min (4 * A) (4 * (A + S)) = 4 * A := by omega
  have hsub : 4 * (A + S) - 4 * A = 4 * S := by omega
  have haddr : wadd a off = a + off := wadd_eq (by omega)
  have hsize : wadd (a + off) (4 * A) = a + (off + 4 * A) := by
    rw [wadd_eq (by omega), Nat.add_assoc]
  rw [readBlock, wmul_four hA, haddr, hsize, readCells_slice hw hA (by omega), ok_bind]
  dsimp only
  rw [readCells_slice hw hS (by omega), pairOf, blockBytes, List.take_take, hmin,
    List.drop_take, hsub, List.drop_drop]
  rfl

/-- A number that is read in a part of a view lies in that part. -/
theorem readCells_of_only {n cells ptr : Nat} {x : Option Nat}
    (h : readCells (v.only a n) cells ptr = .ok x) :
    readCells v cells ptr = .ok x ∧ (Readable cells → a ≤ ptr ∧ ptr + 4 * cells ≤ a + n) := by
  by_cases hcells : Readable cells
  · unfold readCells at h ⊢
    rcases hcells with rfl | rfl
    · rw [if_pos rfl] at h ⊢
      cases hread : be32 (v.only a n) ptr with
      | error e => rw [hread] at h; cases h
      | ok y =>
        obtain ⟨hv, hin⟩ := be32_of_only hread
        rw [hread] at h
        rw [hv]
        exact ⟨h, fun _ => hin⟩
    · rw [if_neg (by decide), if_pos rfl] at h ⊢
      cases hread : be64 (v.only a n) ptr with
      | error e => rw [hread] at h; cases h
      | ok y =>
        obtain ⟨hv, hin⟩ := be64_of_only hread
        rw [hread] at h
        rw [hv]
        exact ⟨h, fun _ => hin⟩
  · rw [readCells_of_not_readable hcells] at h ⊢
    exact ⟨h, fun hr => absurd hr hcells⟩

theorem readBlock_of_only {n ptr : Nat} {r : Option (Nat × Nat)}
    (h : readBlock (v.only a n) A S ptr = .ok r) : readBlock v A S ptr = .ok r := by
  unfold readBlock at h ⊢
  cases haddr : readCells (v.only a n) A ptr with
  | error e => rw [haddr] at h; cases h
  | ok x =>
    rw [haddr] at h
    rw [(readCells_of_only haddr).1]
    cases x with
    | none => exact h
    | some address =>
      simp only [ok_bind] at h ⊢
      cases hsize : readCells (v.only a n) S (wadd ptr (wmul A 4)) with
      | error e => rw [hsize] at h; cases h
      | ok y =>
        rw [hsize] at h
        rw [(readCells_of_only hsize).1]
        exact h

/-- A count of cells the code cannot read is the error exit; nothing is read of the block when it
is the address's. -/
theorem readBlock_of_not_address (hA : ¬ Readable A) (ptr : Nat) :
    readBlock w A S ptr = .ok none := by
  rw [readBlock, readCells_of_not_readable hA]
  rfl

theorem readBlock_of_not_size (hw : w.Holds a value) (hA : Readable A) (hS : ¬ Readable S)
    (hle : off + 4 * A ≤ value.length) (hwrap : a + value.length < 2 ^ 64) :
    readBlock w A S (wadd a off) = .ok none := by
  have haddr : wadd a off = a + off := wadd_eq (by omega)
  rw [readBlock, haddr, readCells_slice hw hA hle, ok_bind]
  dsimp only
  rw [readCells_of_not_readable hS]
  rfl

theorem readCells_ne_none {cells : Nat} (h : Readable cells) (ptr : Nat) :
    readCells w cells ptr ≠ .ok none := by
  intro heq
  unfold readCells at heq
  rcases h with rfl | rfl
  · rw [if_pos rfl] at heq
    cases hread : be32 w ptr <;> rw [hread] at heq <;> cases heq
  · rw [if_neg (by decide), if_pos rfl] at heq
    cases hread : be64 w ptr <;> rw [hread] at heq <;> cases heq

/-- A run in a part of a view that succeeds has read the address there; with a size there is a
block. -/
theorem of_readBlock_only {n : Nat} {r : Option (Nat × Nat)} (hoff : off < 2 ^ 64)
    (hA : Readable A)
    (h : readBlock (v.only a n) A S (wadd a off) = .ok r) :
    off + 4 * A ≤ n ∧ (Readable S → r ≠ none) := by
  unfold readBlock at h
  cases haddr : readCells (v.only a n) A (wadd a off) with
  | error e => rw [haddr] at h; cases h
  | ok x =>
    obtain ⟨hlo, hhi⟩ := (readCells_of_only haddr).2 hA
    have hle : off + 4 * A ≤ n := by
      unfold wadd at hlo hhi
      omega
    refine ⟨hle, ?_⟩
    rintro hS rfl
    rw [haddr] at h
    cases x with
    | none => exact readCells_ne_none hA _ haddr
    | some address =>
      simp only [ok_bind] at h
      cases hsize : readCells (v.only a n) S (wadd (wadd a off) (wmul A 4)) with
      | error e => rw [hsize] at h; cases h
      | ok y =>
        cases y with
        | none => exact readCells_ne_none hS _ hsize
        | some size => rw [hsize] at h; cases h

/-! ## Every index -/

/-- The blocks a value encodes. -/
def encodedBlocks (value : List UInt8) (address size : Nat) : List (Nat × Nat) :=
  (List.range (value.length / 4 / (address + size))).map (blockAt value address size)

/-- The bytes the code takes for the block with the index `i` are the bytes of the block. -/
def InPlace (value : List UInt8) (cells i : Nat) : Prop :=
  blockBytes value (i * cells) cells = blockBytes value (4 * (i * cells)) cells

instance (value : List UInt8) (cells i : Nat) : Decidable (InPlace value cells i) :=
  inferInstanceAs (Decidable (_ = _))

/-- The bytes of `reg`, and nothing else. -/
def regView (v : View) (n : Node) : View :=
  match n.prop? (ascii "reg") with
  | none => fun _ => none
  | some reg => v.only (reg.addr + 12) reg.value.length

/-- The code reads only bytes of `reg`, and takes the error exit after the last block. -/
def BlockChecked (fuel : Nat) (v : View) (fdt : Nat) (n : Node) (i : Nat) : Prop :=
  ∃ r count, getRegisterBlockIn fuel v (regView v n) fdt n.addr i = .ok r ∧
    fdtNodeGetRegisterBlock fuel v fdt n.addr i = .ok (r.getD (NULL, 0)) ∧
    fdtNodeNumRegisterBlocks fuel v fdt n.addr = .ok count ∧ (count ≤ i → r = none)

/-- What keeps the code inside a `reg` of `len` bytes: the check on the product, counts it cannot
read, or that the block is there. -/
def Stops (len address size i : Nat) : Prop :=
  len < wmul (wmul i (regBlockCells address size)) 4 ∨ ¬ Readable address ∨
    (¬ Readable size ∧ wmul i (regBlockCells address size) + 4 * address ≤ len) ∨
    (Readable size ∧ i < len / 4 / regBlockCells address size)

instance (len address size i : Nat) : Decidable (Stops len address size i) :=
  inferInstanceAs (Decidable (_ ∨ _ ∨ _ ∨ _))

/-- An index before the last block, in machine arithmetic. -/
theorem mul_le_of_lt_count {len c i : Nat} (h : i < len / 4 / c) : 4 * (i * c) + 4 * c ≤ len := by
  have hc : 0 < c := by
    rcases Nat.eq_zero_or_pos c with rfl | hc
    · simp at h
    · exact hc
  have hle : (i + 1) * c ≤ len / 4 := (Nat.le_div_iff_mul_le hc).1 h
  rw [Nat.add_mul, Nat.one_mul] at hle
  omega

namespace Blob.In

variable {b : Blob} {fuel : Nat} {n : Node} {anc : List Node} {reg : PropNode}

theorem getRegisterBlockIn_eq (h : b.In v) (hfuel : b.totalsize < fuel)
    (hmem : (n, anc) ∈ b.paths) (hp : n.prop? (ascii "reg") = some reg)
    (hA : addressCells (n :: anc) = A) (hS : sizeCells (n :: anc) = S) (w : View) (i : Nat) :
    getRegisterBlockIn fuel v w b.fdt n.addr i =
      if reg.value.length < wmul (wmul i (regBlockCells A S)) 4 then .ok none
      else readBlock w A S (wadd (reg.addr + 12) (wmul i (regBlockCells A S))) := by
  have hn := b.mem_nodes_of_mem_paths hmem n List.mem_cons_self
  have hreg := mem_props_of_prop? hp
  rw [getRegisterBlockIn, h.getReg_eq hfuel hmem, hp, ok_bind, if_neg (h.propPtr_ne hn hreg),
    h.getAddressCells_eq hfuel hmem, ok_bind, h.getSizeCells_eq hfuel hmem, ok_bind, hA, hS,
    propPtr, (h.prop_at hn hreg).2.2.1, ok_bind]
  rfl

theorem getRegisterBlockIn_none (h : b.In v) (hfuel : b.totalsize < fuel)
    (hmem : (n, anc) ∈ b.paths) (hp : n.prop? (ascii "reg") = none) (w : View) (i : Nat) :
    getRegisterBlockIn fuel v w b.fdt n.addr i = .ok none := by
  rw [getRegisterBlockIn, h.getReg_eq hfuel hmem, hp]
  rfl

/-- What the code reads at the index of a block. -/
theorem getRegisterBlockIn_of_lt (h : b.In v) (hfuel : b.totalsize < fuel)
    (hmem : (n, anc) ∈ b.paths) (hp : n.prop? (ascii "reg") = some reg)
    (hA : addressCells (n :: anc) = A) (hS : sizeCells (n :: anc) = S) (hAr : Readable A)
    (hSr : Readable S) (hw : w.Holds (reg.addr + 12) reg.value) {i : Nat}
    (hi : i < reg.value.length / 4 / (A + S)) :
    getRegisterBlockIn fuel v w b.fdt n.addr i =
      .ok (some (pairOf A (blockBytes reg.value (i * (A + S)) (A + S)))) := by
  have hn := b.mem_nodes_of_mem_paths hmem n List.mem_cons_self
  obtain ⟨-, hwrap, -, -⟩ := h.prop_at hn (mem_props_of_prop? hp)
  have hlen := h.length_value_lt hn (mem_props_of_prop? hp)
  have hroom := mul_le_of_lt_count hi
  have hprod : wmul i (A + S) = i * (A + S) := Nat.mod_eq_of_lt (by omega)
  have hbytes : wmul (i * (A + S)) 4 = i * (A + S) * 4 := Nat.mod_eq_of_lt (by omega)
  rw [h.getRegisterBlockIn_eq hfuel hmem hp hA hS, regBlockCells_eq hAr hSr, hprod, hbytes,
    if_neg (by omega)]
  exact readBlock_eq hw hwrap hAr hSr (by omega)

/-- **The block with the index `0`.** The code reads it when there is one; with a size it cannot
read it may still read an address, past the end of `reg` if the cell counts overflow. -/
theorem registerBlock_zero_eq (h : b.In v) (hv : v.Total) (hfuel : b.totalsize < fuel)
    (hmem : (n, anc) ∈ b.paths) (hcount : 0 < blockCount n anc) :
    fdtNodeGetRegisterBlock fuel v b.fdt n.addr 0 = .ok (firstBlock n anc) := by
  have hn := b.mem_nodes_of_mem_paths hmem n List.mem_cons_self
  rw [fdtNodeGetRegisterBlock_eq, firstBlock]
  cases hp : n.prop? (ascii "reg") with
  | none =>
    rw [h.getRegisterBlockIn_none hfuel hmem hp]
    rfl
  | some reg =>
    simp only [blockCount, hp] at hcount
    generalize hA : addressCells (n :: anc) = A at hcount ⊢
    generalize hS : sizeCells (n :: anc) = S at hcount ⊢
    have hrun := h.getRegisterBlockIn_eq hfuel hmem hp hA hS v 0
    dsimp only
    by_cases hAr : Readable A
    · by_cases hSr : Readable S
      · rw [regBlockCells_eq hAr hSr] at hcount
        have hvalue := (h.prop_at hn (mem_props_of_prop? hp)).2.2.2
        rw [h.getRegisterBlockIn_of_lt hfuel hmem hp hA hS hAr hSr hvalue hcount,
          if_pos ⟨hAr, hSr⟩, blockAt_eq, Nat.zero_mul, Nat.mul_zero]
        rfl
      · obtain ⟨x, hx⟩ := readCells_total hv hAr
          (wadd (reg.addr + 12) (wmul 0 (regBlockCells A S)))
        rw [readBlock, hx, ok_bind] at hrun
        dsimp only at hrun
        rw [readCells_of_not_readable hSr, ok_bind, pure_eq_ok, ite_self] at hrun
        rw [hrun, if_neg fun hboth => hSr hboth.2]
        rfl
    · rw [readBlock_of_not_address hAr, ite_self] at hrun
      rw [hrun, if_neg fun hboth => hAr hboth.1]
      rfl

theorem regView_eq (v : View) (hp : n.prop? (ascii "reg") = some reg) :
    regView v n = v.only (reg.addr + 12) reg.value.length := by
  simp only [regView, hp]

/-- What the code gives with only the bytes of `reg` it gives with all of memory. -/
theorem getRegisterBlock_of_regView (h : b.In v) (hfuel : b.totalsize < fuel)
    (hmem : (n, anc) ∈ b.paths) {i : Nat} {r : Option (Nat × Nat)}
    (hr : getRegisterBlockIn fuel v (regView v n) b.fdt n.addr i = .ok r) :
    fdtNodeGetRegisterBlock fuel v b.fdt n.addr i = .ok (r.getD (NULL, 0)) := by
  rw [fdtNodeGetRegisterBlock_eq]
  cases hp : n.prop? (ascii "reg") with
  | none =>
    have hrun := fun w => h.getRegisterBlockIn_none hfuel hmem hp w i
    rw [hrun, Except.ok.injEq] at hr
    rw [hrun, ← hr]
    rfl
  | some reg =>
    have hrun := fun w => h.getRegisterBlockIn_eq hfuel hmem hp rfl rfl w i
    rw [hrun, regView_eq v hp] at hr
    rw [hrun]
    split at hr
    · rename_i hguard
      rw [if_pos hguard, ← Except.ok.inj hr]
      rfl
    · rename_i hguard
      rw [if_neg hguard, readBlock_of_only hr]
      rfl

theorem stops_of_regView (h : b.In v) (hfuel : b.totalsize < fuel) (hmem : (n, anc) ∈ b.paths)
    (hp : n.prop? (ascii "reg") = some reg) (hA : addressCells (n :: anc) = A)
    (hS : sizeCells (n :: anc) = S) {i : Nat} {r : Option (Nat × Nat)}
    (hr : getRegisterBlockIn fuel v (regView v n) b.fdt n.addr i = .ok r)
    (hexit : blockCount n anc ≤ i → r = none) : Stops reg.value.length A S i := by
  rw [h.getRegisterBlockIn_eq hfuel hmem hp hA hS, regView_eq v hp] at hr
  simp only [blockCount, hp, hA, hS] at hexit
  by_cases hguard : reg.value.length < wmul (wmul i (regBlockCells A S)) 4
  · exact .inl hguard
  rw [if_neg hguard] at hr
  by_cases hAr : Readable A
  · obtain ⟨hle, hblock⟩ := of_readBlock_only (Nat.mod_lt _ (by norm_num)) hAr hr
    by_cases hSr : Readable S
    · refine .inr (.inr (.inr ⟨hSr, ?_⟩))
      by_contra hlast
      exact hblock hSr (hexit (not_lt.1 hlast))
    · exact .inr (.inr (.inl ⟨hSr, hle⟩))
  · exact .inr (.inl hAr)

theorem regView_of_stops (h : b.In v) (hfuel : b.totalsize < fuel) (hmem : (n, anc) ∈ b.paths)
    (hp : n.prop? (ascii "reg") = some reg) (hA : addressCells (n :: anc) = A)
    (hS : sizeCells (n :: anc) = S) {i : Nat} (hstops : Stops reg.value.length A S i) :
    ∃ r, getRegisterBlockIn fuel v (regView v n) b.fdt n.addr i = .ok r ∧
      (blockCount n anc ≤ i → r = none) := by
  have hn := b.mem_nodes_of_mem_paths hmem n List.mem_cons_self
  obtain ⟨-, hwrap, -, hvalue⟩ := h.prop_at hn (mem_props_of_prop? hp)
  have hrun := h.getRegisterBlockIn_eq hfuel hmem hp hA hS (regView v n) i
  have hheld : (regView v n).Holds (reg.addr + 12) reg.value := by
    rw [regView_eq v hp]
    exact hvalue.only
  by_cases hAr : Readable A
  · rcases hstops with hguard | hA' | ⟨hSr, hle⟩ | ⟨hSr, hi⟩
    · rw [if_pos hguard] at hrun
      exact ⟨none, hrun, fun _ => rfl⟩
    · exact absurd hAr hA'
    · rw [readBlock_of_not_size hheld hAr hSr hle hwrap, ite_self] at hrun
      exact ⟨none, hrun, fun _ => rfl⟩
    · have hcount : blockCount n anc = reg.value.length / 4 / regBlockCells A S := by
        simp only [blockCount, hp, hA, hS]
      rw [← hcount] at hi
      rw [regBlockCells_eq hAr hSr] at hcount
      refine ⟨_, h.getRegisterBlockIn_of_lt hfuel hmem hp hA hS hAr hSr hheld (hcount ▸ hi), ?_⟩
      intro hlast
      exact absurd hi (not_lt.2 hlast)
  · rw [readBlock_of_not_address hAr, ite_self] at hrun
    exact ⟨none, hrun, fun _ => rfl⟩

end Blob.In

variable {b : Blob} {fuel : Nat} {n : Node} {reg : PropNode}

/-! ## The first memory node of `board` -/

def boardReg : PropNode :=
  ⟨0x10a0, 39, ascii "reg", regBytes [(0x80000000, 0x1000), (0x90000000, 0x2000)]⟩

theorem boardMemory0_path : (boardMemory0, [boardRoot]) ∈ boardBlob.paths := by decide

theorem boardMemory0_mem : boardMemory0 ∈ boardBlob.nodes :=
  boardBlob.mem_nodes_of_mem_paths boardMemory0_path _ List.mem_cons_self

theorem boardMemory0_reg : boardMemory0.prop? (ascii "reg") = some boardReg := by decide

theorem boardMemory0_addressCells : addressCells [boardMemory0, boardRoot] = 2 := by decide

theorem boardMemory0_sizeCells : sizeCells [boardMemory0, boardRoot] = 2 := by decide

theorem boardMemory0_getAddressCells :
    fdtNodeGetAddressCells 1000 boardView boardBlob.fdt boardMemory0.addr = .ok 2 := by
  rw [← boardMemory0_addressCells]
  exact board_in.getAddressCells_eq board_fuel boardMemory0_path

theorem boardMemory0_getSizeCells :
    fdtNodeGetSizeCells 1000 boardView boardBlob.fdt boardMemory0.addr = .ok 2 := by
  rw [← boardMemory0_sizeCells]
  exact board_in.getSizeCells_eq board_fuel boardMemory0_path

theorem boardMemory0_count :
    fdtNodeNumRegisterBlocks 1000 boardView boardBlob.fdt boardMemory0.addr = .ok 2 := by
  have hcount : blockCount boardMemory0 [boardRoot] = 2 := by decide
  rw [← hcount]
  exact board_in.numRegisterBlocks_eq board_fuel boardMemory0_path

/-- The code reads a block at the byte `4 * i` of `reg`, where the block is at `16 * i`. -/
theorem boardMemory0_getRegisterBlockIn (w : View) (i : Nat) :
    getRegisterBlockIn 1000 boardView w boardBlob.fdt boardMemory0.addr i =
      if 32 < wmul (wmul i 4) 4 then .ok none else readBlock w 2 2 (wadd 0x10ac (wmul i 4)) :=
  board_in.getRegisterBlockIn_eq board_fuel boardMemory0_path boardMemory0_reg
    boardMemory0_addressCells boardMemory0_sizeCells w i

/-- **A register block is decoded exactly when the bytes at `index * (A + S)` are those at
`4 * index * (A + S)`**, and all of them are when that is so at every index. -/
theorem registerBlock_decodes_iff (h : b.In v) (hfuel : b.totalsize < fuel) (hn : n ∈ b.nodes)
    (hp : n.prop? (ascii "reg") = some reg)
    (hA : fdtNodeGetAddressCells fuel v b.fdt n.addr = .ok A)
    (hS : fdtNodeGetSizeCells fuel v b.fdt n.addr = .ok S) (hAr : Readable A) (hSr : Readable S) :
    (∀ count i, fdtNodeNumRegisterBlocks fuel v b.fdt n.addr = .ok count → i < count →
      (fdtNodeGetRegisterBlock fuel v b.fdt n.addr i = .ok (blockAt reg.value A S i) ↔
        InPlace reg.value (A + S) i)) ∧
      (fdtRegisterBlocks fuel v b.fdt n.addr = .ok (encodedBlocks reg.value A S) ↔
        ∀ i < reg.value.length / 4 / (A + S), InPlace reg.value (A + S) i) := by
  obtain ⟨anc, hmem⟩ := b.exists_mem_paths hn
  rw [h.getAddressCells_eq hfuel hmem, Except.ok.injEq] at hA
  rw [h.getSizeCells_eq hfuel hmem, Except.ok.injEq] at hS
  have hcount : fdtNodeNumRegisterBlocks fuel v b.fdt n.addr =
      .ok (reg.value.length / 4 / (A + S)) := by
    rw [h.numRegisterBlocks_eq hfuel hmem, blockCount, hp, hA, hS, ← regBlockCells_eq hAr hSr]
  have hvalue := (h.prop_at hn (mem_props_of_prop? hp)).2.2.2
  have hget : ∀ i < reg.value.length / 4 / (A + S),
      fdtNodeGetRegisterBlock fuel v b.fdt n.addr i =
        .ok (pairOf A (blockBytes reg.value (i * (A + S)) (A + S))) := by
    intro i hi
    rw [fdtNodeGetRegisterBlock_eq,
      h.getRegisterBlockIn_of_lt hfuel hmem hp hA hS hAr hSr hvalue hi]
    rfl
  have hblock : ∀ i < reg.value.length / 4 / (A + S),
      pairOf A (blockBytes reg.value (i * (A + S)) (A + S)) = blockAt reg.value A S i ↔
        InPlace reg.value (A + S) i := by
    intro i hi
    have hroom := mul_le_of_lt_count hi
    rw [blockAt_eq, InPlace]
    apply pairOf_inj
    rw [length_blockBytes (by omega), length_blockBytes (by omega)]
  constructor
  · intro count i hnum hi
    rw [hcount, Except.ok.injEq] at hnum
    rw [← hnum] at hi
    rw [hget i hi, Except.ok.injEq]
    exact hblock i hi
  · have hall : (List.range (reg.value.length / 4 / (A + S))).mapM
        (fdtNodeGetRegisterBlock fuel v b.fdt n.addr) = _ :=
      mapM_eq_ok fun i hi => hget i (List.mem_range.1 hi)
    rw [fdtRegisterBlocks, hcount, ok_bind, hall, Except.ok.injEq, encodedBlocks,
      List.map_inj_left]
    constructor
    · intro heq i hi
      exact (hblock i hi).1 (heq i (List.mem_range.2 hi))
    · intro hin i hi
      exact (hblock i (List.mem_range.1 hi)).2 (hin i (List.mem_range.1 hi))

/-- The second block of the node lies behind the bytes the code takes for it. -/
theorem boardMemory0_not_decoded :
    boardBlob.In boardView ∧ boardMemory0 ∈ boardBlob.nodes ∧
      boardMemory0.prop? (ascii "reg") = some boardReg ∧
      fdtNodeGetAddressCells 1000 boardView boardBlob.fdt boardMemory0.addr = .ok 2 ∧
      fdtNodeGetSizeCells 1000 boardView boardBlob.fdt boardMemory0.addr = .ok 2 ∧
      fdtNodeNumRegisterBlocks 1000 boardView boardBlob.fdt boardMemory0.addr = .ok 2 ∧
      blockAt boardReg.value 2 2 1 = (0x90000000, 0x2000) ∧
      fdtNodeGetRegisterBlock 1000 boardView boardBlob.fdt boardMemory0.addr 1 =
        .ok (0x8000000000000000, 0x100000000000) ∧
      fdtRegisterBlocks 1000 boardView boardBlob.fdt boardMemory0.addr ≠
        .ok (encodedBlocks boardReg.value 2 2) := by
  have hrun : ∀ i < 2, fdtNodeGetRegisterBlock 1000 boardView boardBlob.fdt boardMemory0.addr i =
      .ok ([(0x80000000, 0x1000), (0x8000000000000000, 0x100000000000)].getD i (NULL, 0)) := by
    intro i hi
    rw [fdtNodeGetRegisterBlock_eq, boardMemory0_getRegisterBlockIn]
    rcases (show i = 0 ∨ i = 1 by omega) with rfl | rfl <;> decide
  refine ⟨board_in, boardMemory0_mem, boardMemory0_reg, boardMemory0_getAddressCells,
    boardMemory0_getSizeCells, boardMemory0_count, by decide, hrun 1 (by decide), ?_⟩
  have hall : (List.range 2).mapM
      (fdtNodeGetRegisterBlock 1000 boardView boardBlob.fdt boardMemory0.addr) = _ :=
    mapM_eq_ok fun i hi => hrun i (List.mem_range.1 hi)
  rw [fdtRegisterBlocks, boardMemory0_count, ok_bind, hall]
  decide

/-- The first block is decoded, the second is not. -/
theorem registerBlock_decodes_iff_board :
    (fdtNodeGetRegisterBlock 1000 boardView boardBlob.fdt boardMemory0.addr 0 =
        .ok (blockAt boardReg.value 2 2 0) ∧
      fdtNodeGetRegisterBlock 1000 boardView boardBlob.fdt boardMemory0.addr 1 ≠
        .ok (blockAt boardReg.value 2 2 1)) ∧
      fdtRegisterBlocks 1000 boardView boardBlob.fdt boardMemory0.addr ≠
        .ok (encodedBlocks boardReg.value 2 2) := by
  have hsecond : ¬ InPlace boardReg.value 4 1 := by decide
  obtain ⟨hone, hall⟩ :=
    registerBlock_decodes_iff board_in board_fuel boardMemory0_mem boardMemory0_reg
      boardMemory0_getAddressCells boardMemory0_getSizeCells (.inr rfl) (.inr rfl)
  refine ⟨⟨(hone 2 0 boardMemory0_count (by decide)).2 rfl, ?_⟩, ?_⟩
  · intro heq
    exact hsecond ((hone 2 1 boardMemory0_count (by decide)).1 heq)
  · intro heq
    exact hsecond (hall.1 heq 1 (by decide))

/-- **The code stays inside `reg` exactly when one of its exits comes in time**, or there is a
block with the index. -/
theorem registerBlock_checked_iff (h : b.In v) (hfuel : b.totalsize < fuel) (hn : n ∈ b.nodes)
    (hA : fdtNodeGetAddressCells fuel v b.fdt n.addr = .ok A)
    (hS : fdtNodeGetSizeCells fuel v b.fdt n.addr = .ok S) (i : Nat) :
    BlockChecked fuel v b.fdt n i ↔
      ∀ reg, n.prop? (ascii "reg") = some reg → Stops reg.value.length A S i := by
  obtain ⟨anc, hmem⟩ := b.exists_mem_paths hn
  rw [h.getAddressCells_eq hfuel hmem, Except.ok.injEq] at hA
  rw [h.getSizeCells_eq hfuel hmem, Except.ok.injEq] at hS
  have hnum := h.numRegisterBlocks_eq hfuel hmem
  constructor
  · rintro ⟨r, count, hr, -, hcount, hexit⟩ reg hp
    rw [hnum, Except.ok.injEq] at hcount
    rw [← hcount] at hexit
    exact h.stops_of_regView hfuel hmem hp hA hS hr hexit
  · intro hstops
    suffices hrun : ∃ r, getRegisterBlockIn fuel v (regView v n) b.fdt n.addr i = .ok r ∧
        (blockCount n anc ≤ i → r = none) by
      obtain ⟨r, hr, hexit⟩ := hrun
      exact ⟨r, _, hr, h.getRegisterBlock_of_regView hfuel hmem hr, hnum, hexit⟩
    cases hp : n.prop? (ascii "reg") with
    | none => exact ⟨none, h.getRegisterBlockIn_none hfuel hmem hp _ i, fun _ => rfl⟩
    | some reg => exact h.regView_of_stops hfuel hmem hp hA hS (hstops reg hp)

/-- There are two blocks, and the code gives a third. -/
theorem boardMemory0_past_last :
    boardBlob.In boardView ∧ boardMemory0 ∈ boardBlob.nodes ∧
      fdtNodeNumRegisterBlocks 1000 boardView boardBlob.fdt boardMemory0.addr = .ok 2 ∧
      fdtNodeGetRegisterBlock 1000 boardView boardBlob.fdt boardMemory0.addr 2 =
        .ok (0x1000, 0x90000000) ∧
      ¬ BlockChecked 1000 boardView boardBlob.fdt boardMemory0 2 := by
  have hthird : fdtNodeGetRegisterBlock 1000 boardView boardBlob.fdt boardMemory0.addr 2 =
      .ok (0x1000, 0x90000000) := by
    rw [fdtNodeGetRegisterBlock_eq, boardMemory0_getRegisterBlockIn]
    decide
  refine ⟨board_in, boardMemory0_mem, boardMemory0_count, hthird, ?_⟩
  rintro ⟨r, count, -, hrun, hcount, hexit⟩
  obtain rfl := Except.ok.inj (boardMemory0_count.symm.trans hcount)
  obtain rfl := hexit le_rfl
  have hnull := Except.ok.inj (hthird.symm.trans hrun)
  exact absurd hnull (by decide)

/-- At the next index the check takes the error exit. -/
theorem registerBlock_checked_iff_board :
    BlockChecked 1000 boardView boardBlob.fdt boardMemory0 3 := by
  refine (registerBlock_checked_iff board_in board_fuel boardMemory0_mem
    boardMemory0_getAddressCells boardMemory0_getSizeCells 3).2 ?_
  intro reg hreg
  obtain rfl := Option.some.inj (boardMemory0_reg.symm.trans hreg)
  exact .inl (by decide)

end RiscyOs
