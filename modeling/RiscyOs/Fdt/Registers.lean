import RiscyOs.Fdt.Ancestors
import RiscyOs.Fdt.Props

/-!
# Register blocks

The cell counts in force at a node are the closest definitions of `#address-cells` and
`#size-cells`, its own first. They are for the `reg` of its children: `registerBlocks` lists the
pairs of address and size in `reg` with the counts of the parent. The code reads `reg` with the
counts of the node itself. `ownBlocks` are the pairs it sees then, and `blockCount` and `firstBlock`
what it makes of them.

* `ownBlocks_eq`: the code sees the register blocks when the counts agree.
* `Blob.In.getProp_eq`, `Blob.In.getInheritedProp_eq`: the property functions look at the first
  property with the name.
* `Blob.In.numRegisterBlocks_eq`: the number of blocks is `blockCount`.
-/

namespace RiscyOs

open ByteMemory FuelLoop

/-! ## Properties of a node and its ancestors -/

/-- The first property with the name `l`. -/
def Node.prop? (n : Node) (l : List UInt8) : Option PropNode := (named l n.props).head?

/-- The closest definition of a property along a list of nodes. -/
def inheritedProp (l : List UInt8) : List Node → Option PropNode
  | [] => none
  | n :: ns => (n.prop? l).or (inheritedProp l ns)

/-- The pointer to a property, or `NULL`. -/
def propPtr : Option PropNode → Nat
  | none => NULL
  | some p => p.addr

theorem mem_props_of_prop? {n : Node} {l : List UInt8} {p : PropNode} (h : n.prop? l = some p) :
    p ∈ n.props := (List.mem_filter.1 (List.mem_of_head? h)).1

theorem exists_of_inheritedProp {l : List UInt8} {chain : List Node} {p : PropNode}
    (h : inheritedProp l chain = some p) : ∃ n ∈ chain, p ∈ n.props := by
  induction chain with
  | nil => cases h
  | cons n ns ih =>
    rw [inheritedProp, Option.or_eq_some_iff] at h
    rcases h with h | ⟨-, h⟩
    · exact ⟨n, List.mem_cons_self, mem_props_of_prop? h⟩
    · obtain ⟨m, hm, hp⟩ := ih h
      exact ⟨m, List.mem_cons_of_mem n hm, hp⟩

theorem Blob.exists_of_mem_props {b : Blob} {n : Node} (hn : n ∈ b.nodes) {p : PropNode}
    (hp : p ∈ n.props) : ∃ pre rest, b.tokens = pre ++ p.token :: rest := by
  obtain ⟨pre, rest, htok, x, tail, hfilter, -⟩ := b.propsAhead_of_mem hn
  have hmem : p.token ∈ rest.filter significant := by
    rw [hfilter]
    exact List.mem_append_left _ (List.mem_map_of_mem hp)
  refine List.append_of_mem ?_
  rw [htok]
  exact List.mem_append_right _ (List.mem_cons_of_mem _ (List.mem_of_mem_filter hmem))

/-! ## Numbers in a value -/

/-- The number in `cells` cells of a value, from the cell `i` on. -/
def cellsAt (value : List UInt8) (i cells : Nat) : Nat :=
  beNat ((value.drop (4 * i)).take (4 * cells))

theorem cellsAt_lt (value : List UInt8) (i cells : Nat) :
    cellsAt value i cells < 2 ^ (32 * cells) := by
  have hlen : ((value.drop (4 * i)).take (4 * cells)).length ≤ 4 * cells := List.length_take_le _ _
  calc cellsAt value i cells < 256 ^ ((value.drop (4 * i)).take (4 * cells)).length := beNat_lt _
    _ ≤ 256 ^ (4 * cells) := Nat.pow_le_pow_right (by decide) hlen
    _ = 2 ^ (32 * cells) := by
      rw [show (256 : Nat) = 2 ^ 8 by rfl, ← pow_mul]
      congr 1
      omega

/-- The cell of a property that is one cell, four bytes. -/
def Node.oneCell (n : Node) (l : List UInt8) : Option Nat :=
  match n.prop? l with
  | none => none
  | some p => if p.value.length = 4 then some (cellsAt p.value 0 1) else none

/-- The cell of a property that the code takes for one cell. It counts whole cells, and up to three
bytes that are left over do not matter. -/
def Node.countedCell (n : Node) (l : List UInt8) : Option Nat :=
  match n.prop? l with
  | none => none
  | some p => if p.value.length / 4 = 1 then some (cellsAt p.value 0 1) else none

theorem Node.countedCell_of_oneCell {n : Node} {l : List UInt8} {x : Nat}
    (h : n.oneCell l = some x) : n.countedCell l = some x := by
  unfold Node.oneCell at h
  unfold Node.countedCell
  cases hp : n.prop? l with
  | none =>
    rw [hp] at h
    cases h
  | some p =>
    rw [hp] at h
    dsimp only at h ⊢
    split_ifs at h with hlen
    rw [if_pos (by omega), h]

/-- The first cell of the closest definition: `default` when there is none, `0` when it is empty. -/
def cellCount (l : List UInt8) (default : Nat) (chain : List Node) : Nat :=
  match inheritedProp l chain with
  | none => default
  | some p => if p.value.length / 4 = 0 then 0 else cellsAt p.value 0 1

def addressCells (chain : List Node) : Nat := cellCount (ascii "#address-cells") 2 chain

def sizeCells (chain : List Node) : Nat := cellCount (ascii "#size-cells") 1 chain

/-- The block with the index `i` in the value of `reg`. -/
def blockAt (value : List UInt8) (address size i : Nat) : Nat × Nat :=
  (cellsAt value (i * (address + size)) address,
    cellsAt value (i * (address + size) + address) size)

/-- The blocks in the `reg` of a node, with the cell counts in force along `chain`. -/
def blocksWith (chain : List Node) (n : Node) : List (Nat × Nat) :=
  match n.prop? (ascii "reg") with
  | none => []
  | some reg =>
    (List.range (reg.value.length / 4 / (addressCells chain + sizeCells chain))).map
      (blockAt reg.value (addressCells chain) (sizeCells chain))

/-- The register blocks of a node with the ancestors `anc`: the counts are those of the parent, and
the defaults at the root. -/
def registerBlocks (n : Node) (anc : List Node) : List (Nat × Nat) := blocksWith anc n

/-- The blocks the code sees: it asks for the counts of the node, which are the ones that the node
declares for its children if it does. -/
def ownBlocks (n : Node) (anc : List Node) : List (Nat × Nat) := blocksWith (n :: anc) n

/-- The node declares no cell counts, or those of its parent. -/
def CountsAgree (n : Node) (anc : List Node) : Prop :=
  addressCells (n :: anc) = addressCells anc ∧ sizeCells (n :: anc) = sizeCells anc

instance (n : Node) (anc : List Node) : Decidable (CountsAgree n anc) :=
  inferInstanceAs (Decidable (_ ∧ _))

theorem ownBlocks_eq {n : Node} {anc : List Node} (h : CountsAgree n anc) :
    ownBlocks n anc = registerBlocks n anc := by
  unfold ownBlocks registerBlocks blocksWith
  rw [h.1, h.2]

/-- The number of blocks the code finds; the sum of the cell counts is a `uint32_t`. -/
def blockCount (n : Node) (anc : List Node) : Nat :=
  match n.prop? (ascii "reg") with
  | none => 0
  | some reg =>
    reg.value.length / 4 / regBlockCells (addressCells (n :: anc)) (sizeCells (n :: anc))

/-- The numbers of cells the code can read a number of. -/
def Readable (cells : Nat) : Prop := cells = 1 ∨ cells = 2

instance (cells : Nat) : Decidable (Readable cells) := inferInstanceAs (Decidable (_ ∨ _))

theorem regBlockCells_eq {A S : Nat} (hA : Readable A) (hS : Readable S) :
    regBlockCells A S = A + S := by
  unfold Readable at hA hS
  unfold regBlockCells
  omega

/-- The block the code reads at the index `0`. -/
def firstBlock (n : Node) (anc : List Node) : Nat × Nat :=
  match n.prop? (ascii "reg") with
  | none => (NULL, 0)
  | some reg =>
    if Readable (addressCells (n :: anc)) ∧ Readable (sizeCells (n :: anc)) then
      blockAt reg.value (addressCells (n :: anc)) (sizeCells (n :: anc)) 0
    else (NULL, 0)

/-- It can be read, so its address and its size are words. -/
theorem firstBlock_lt (n : Node) (anc : List Node) :
    (firstBlock n anc).1 < 2 ^ 64 ∧ (firstBlock n anc).2 < 2 ^ 64 := by
  have hcells : ∀ (value : List UInt8) (i : Nat) {cells : Nat}, Readable cells →
      cellsAt value i cells < 2 ^ 64 := by
    intro value i cells hread
    refine (cellsAt_lt value i cells).trans_le (Nat.pow_le_pow_right (by decide) ?_)
    rcases hread with h | h <;> omega
  unfold firstBlock
  cases n.prop? (ascii "reg") with
  | none => exact ⟨Nat.two_pow_pos 64, Nat.two_pow_pos 64⟩
  | some reg =>
    dsimp only
    split
    · rename_i hread
      exact ⟨hcells _ _ hread.1, hcells _ _ hread.2⟩
    · exact ⟨Nat.two_pow_pos 64, Nat.two_pow_pos 64⟩

/-- A block that is not empty is the first one the code sees. -/
theorem ownBlocks_head {n : Node} {anc : List Node} (hcount : 0 < blockCount n anc)
    (hsize : 0 < (firstBlock n anc).2) :
    (ownBlocks n anc).head? = some (firstBlock n anc) := by
  unfold blockCount at hcount
  unfold firstBlock at hsize ⊢
  unfold ownBlocks blocksWith
  cases hp : n.prop? (ascii "reg") with
  | none =>
    rw [hp] at hcount
    exact absurd hcount (lt_irrefl 0)
  | some reg =>
    simp only [hp] at hcount hsize ⊢
    split at hsize
    · rename_i hread
      rw [regBlockCells_eq hread.1 hread.2] at hcount
      rw [if_pos hread, List.head?_map, List.head?_range, if_neg hcount.ne']
      rfl
    · exact absurd hsize (lt_irrefl 0)

namespace Blob.In

variable {b : Blob} {v : View} {fuel : Nat} {n : Node} {anc : List Node} {name : CStr}
  {l : List UInt8} {p : PropNode}

/-- The fields of a property, and the room it has. -/
theorem prop_at (h : b.In v) (hn : n ∈ b.nodes) (hp : p ∈ n.props) :
    0 < p.addr ∧ p.addr + 12 + p.value.length < 2 ^ 64 ∧
      fdtPropValLen v p.addr = .ok p.value.length ∧ v.Holds (p.addr + 12) p.value := by
  obtain ⟨pre, rest, htok⟩ := b.exists_of_mem_props hn hp
  obtain ⟨-, ⟨-, hlen, -, hvalue⟩, hlaid⟩ := h.token_at htok
  have hle := hlaid.le
  have hpad := Token.length_le_padded p.value.length
  have := b.struct_le
  have := b.noWrap
  simp only [Token.size, structStart] at hle
  exact ⟨h.token_pos htok, by omega, hlen, hvalue⟩

theorem addr_ne (h : b.In v) (hn : n ∈ b.nodes) : n.addr ≠ NULL := by
  obtain ⟨pre, rest, htok, -⟩ := b.propsAhead_of_mem hn
  exact (h.token_pos htok).ne'

/-- The length of a value is a word. -/
theorem length_value_lt (h : b.In v) (hn : n ∈ b.nodes) (hp : p ∈ n.props) :
    p.value.length < 2 ^ 32 := be32_lt (h.prop_at hn hp).2.2.1

theorem propPtr_ne (h : b.In v) (hn : n ∈ b.nodes) (hp : p ∈ n.props) :
    propPtr (some p) ≠ NULL := (h.prop_at hn hp).1.ne'

theorem getProp_eq (h : b.In v) (hfuel : b.totalsize < fuel) (hn : n ∈ b.nodes)
    (hname : name.Is l) :
    fdtGetPropByName fuel v b.fdt n.addr NULL name = .ok (propPtr (n.prop? l)) := by
  obtain ⟨pre, rest, htok, hps⟩ := b.propsAhead_of_mem hn
  rw [h.getPropByName_begin hfuel hname htok hps (h.names n hn), Node.prop?]
  cases named l n.props with
  | nil => rfl
  | cons p ps => rfl

theorem firstProp_eq (h : b.In v) (hfuel : b.totalsize < fuel) (hname : name.Is l)
    {chain : List Node} (hchain : ∀ m ∈ chain, m ∈ b.nodes) :
    firstProp fuel v b.fdt name (chain.map Node.addr) = .ok (propPtr (inheritedProp l chain)) := by
  induction chain with
  | nil => rfl
  | cons m ms ih =>
    have hm := hchain m List.mem_cons_self
    rw [List.map_cons, firstProp, h.getProp_eq hfuel hm hname, ok_bind, inheritedProp]
    cases hp : m.prop? l with
    | none => exact ih fun m' hm' => hchain m' (List.mem_cons_of_mem m hm')
    | some p =>
      rw [if_pos (h.propPtr_ne hm (mem_props_of_prop? hp))]
      rfl

/-- **The closest definition of a property**, the node's own first. -/
theorem getInheritedProp_eq (h : b.In v) (hfuel : b.totalsize < fuel) (hmem : (n, anc) ∈ b.paths)
    (hname : name.Is l) :
    fdtNodeGetInheritedProp fuel v b.fdt n.addr name =
      .ok (propPtr (inheritedProp l (n :: anc))) := by
  have hstruct := b.sizeStruct_lt hfuel
  have hnodes := b.mem_nodes_of_mem_paths hmem
  have hn := hnodes n List.mem_cons_self
  rw [fdtNodeGetInheritedProp, h.getProp_eq hfuel hn hname, ok_bind, inheritedProp]
  cases hp : n.prop? l with
  | none =>
    rw [if_neg (by simp [propPtr]), h.maxDepth_eq hstruct, ok_bind, if_neg (by omega),
      ofSigned_natCast h.height_lt, h.getParents_eq hstruct hmem, ok_bind]
    exact h.firstProp_eq hfuel hname fun m hm => hnodes m (List.mem_cons_of_mem n hm)
  | some p =>
    rw [if_pos (h.propPtr_ne hn (mem_props_of_prop? hp))]
    rfl

/-! ## Cells -/

theorem propNumCells_eq (h : b.In v) (hn : n ∈ b.nodes) (hp : p ∈ n.props) :
    fdtPropNumCells v p.addr = .ok (p.value.length / 4) := by
  rw [fdtPropNumCells, (h.prop_at hn hp).2.2.1]
  rfl

theorem propGetCell_zero (h : b.In v) (hn : n ∈ b.nodes) (hp : p ∈ n.props)
    (hlen : p.value.length / 4 ≠ 0) : fdtPropGetCell v p.addr 0 = .ok (cellsAt p.value 0 1) := by
  obtain ⟨-, hwrap, -, hvalue⟩ := h.prop_at hn hp
  have hptr : wadd (fdtPropVal p.addr) (wmul 4 0) = p.addr + 12 + 0 :=
    wadd_eq (show p.addr + 12 + 0 < 2 ^ 64 by omega)
  have hcell : be32 v (p.addr + 12 + 0) = .ok (cellsAt p.value 0 1) :=
    be32_slice hvalue (by omega)
  rw [fdtPropGetCell, h.propNumCells_eq hn hp, ok_bind, if_neg (by omega), hptr, hcell]

theorem inheritedCell_eq (h : b.In v) (hfuel : b.totalsize < fuel) (hmem : (n, anc) ∈ b.paths)
    (hname : name.Is l) (default : Nat) :
    inheritedCell fuel v b.fdt name default n.addr = .ok (cellCount l default (n :: anc)) := by
  rw [inheritedCell, h.getInheritedProp_eq hfuel hmem hname, ok_bind, cellCount]
  cases hp : inheritedProp l (n :: anc) with
  | none => rfl
  | some p =>
    obtain ⟨m, hm, hpm⟩ := exists_of_inheritedProp hp
    have hm := b.mem_nodes_of_mem_paths hmem m hm
    rw [if_neg (h.propPtr_ne hm hpm), propPtr, h.propNumCells_eq hm hpm, ok_bind]
    by_cases hlen : p.value.length / 4 = 0
    · simp only [if_pos hlen]
      rfl
    · simp only [if_neg hlen]
      exact h.propGetCell_zero hm hpm hlen

theorem getAddressCells_eq (h : b.In v) (hfuel : b.totalsize < fuel) (hmem : (n, anc) ∈ b.paths) :
    fdtNodeGetAddressCells fuel v b.fdt n.addr = .ok (addressCells (n :: anc)) :=
  h.inheritedCell_eq hfuel hmem (CStr.lit_is (by decide)) 2

theorem getSizeCells_eq (h : b.In v) (hfuel : b.totalsize < fuel) (hmem : (n, anc) ∈ b.paths) :
    fdtNodeGetSizeCells fuel v b.fdt n.addr = .ok (sizeCells (n :: anc)) :=
  h.inheritedCell_eq hfuel hmem (CStr.lit_is (by decide)) 1

/-! ## Blocks -/

theorem getReg_eq (h : b.In v) (hfuel : b.totalsize < fuel) (hmem : (n, anc) ∈ b.paths) :
    fdtGetPropByName fuel v b.fdt n.addr NULL (CStr.lit (ascii "reg")) =
      .ok (propPtr (n.prop? (ascii "reg"))) :=
  h.getProp_eq hfuel (b.mem_nodes_of_mem_paths hmem n List.mem_cons_self)
    (CStr.lit_is (by decide))

theorem numRegisterBlocks_eq (h : b.In v) (hfuel : b.totalsize < fuel)
    (hmem : (n, anc) ∈ b.paths) :
    fdtNodeNumRegisterBlocks fuel v b.fdt n.addr = .ok (blockCount n anc) := by
  have hn := b.mem_nodes_of_mem_paths hmem n List.mem_cons_self
  rw [fdtNodeNumRegisterBlocks, h.getReg_eq hfuel hmem, ok_bind, blockCount]
  cases hp : n.prop? (ascii "reg") with
  | none => rfl
  | some reg =>
    have hreg := mem_props_of_prop? hp
    rw [if_neg (h.propPtr_ne hn hreg), h.getAddressCells_eq hfuel hmem, ok_bind,
      h.getSizeCells_eq hfuel hmem, ok_bind]
    dsimp only
    by_cases hcells : regBlockCells (addressCells (n :: anc)) (sizeCells (n :: anc)) = 0
    · rw [if_pos hcells, hcells, Nat.div_zero]
      rfl
    · rw [if_neg hcells, propPtr, h.propNumCells_eq hn hreg]
      rfl

end Blob.In

end RiscyOs
