import RiscyOs.Fdt.Blocks

/-!
# What a node has from its ancestors

The ancestors of a node come out of one forward scan, and an inherited property is the first one
along them. The cell counts that `reg` is read with are inherited too, but from the node itself
on: a bus that declares counts for its children has its own `reg` read with these.

* `parents_and_inherited`: the ancestors, and the closest definition of a property.
* `registerBlocks_parent_iff`: when `reg` is read as the counts of the parent say.
-/

namespace RiscyOs

open ByteMemory FuelLoop

variable {b : Blob} {v w : View} {fuel A S A' S' : Nat} {n parent : Node} {anc : List Node}
  {reg : PropNode}

/-! ## Ancestors -/

/-- **The ancestors of a node, nearest first, as many as there is room for, and the closest
definition of a property, the node's own first.** -/
theorem parents_and_inherited (h : b.In v) (hfuel : b.totalsize < fuel)
    (hmem : (n, anc) ∈ b.paths) :
    (∀ len, ∃ parents, fdtNodeGetParents fuel v b.fdt n.addr len = .ok parents ∧
      parents.length = min len anc.length ∧ parents = (anc.take len).map Node.addr) ∧
    ∀ name l, CStr.Is name l → fdtNodeGetInheritedProp fuel v b.fdt n.addr name =
      .ok (propPtr (inheritedProp l (n :: anc))) := by
  constructor
  · intro len
    exact ⟨_, h.getParents_take (b.sizeStruct_lt hfuel) hmem len, by simp, rfl⟩
  · intro name l hname
    exact h.getInheritedProp_eq hfuel hmem hname

/-- The deepest node of `board`. -/
theorem parents_and_inherited_board :
    (∀ len, ∃ parents,
      fdtNodeGetParents 1000 boardView boardBlob.fdt boardUart.addr len = .ok parents ∧
      parents.length = min len 2 ∧ parents = ([boardSoc, boardRoot].take len).map Node.addr) ∧
    ∀ name l, CStr.Is name l →
      fdtNodeGetInheritedProp 1000 boardView boardBlob.fdt boardUart.addr name =
        .ok (propPtr (inheritedProp l [boardUart, boardSoc, boardRoot])) :=
  parents_and_inherited board_in board_fuel
    (show (boardUart, [boardSoc, boardRoot]) ∈ boardBlob.paths by decide)

/-! ## The code after the cell counts -/

/-- `fdt_node_num_register_blocks` with the cell counts `addressCells` and `sizeCells`. -/
def numRegisterBlocksWith (v : View) (reg addressCells sizeCells : Nat) : Result Nat := do
  let cells := regBlockCells addressCells sizeCells
  if cells = 0 then return 0
  let regCellLen ← fdtPropNumCells v reg
  return regCellLen / cells

/-- `fdt_node_get_register_block` with the cell counts `addressCells` and `sizeCells`, and the block
itself read through `w`; `none` is the error exit. -/
def getRegisterBlockWith (v w : View) (reg addressCells sizeCells index : Nat) :
    Result (Option (Nat × Nat)) := do
  let cells := regBlockCells addressCells sizeCells
  let rawRegLen ← fdtPropValLen v reg
  if rawRegLen < wmul (wmul index cells) 4 then return none
  readBlock w addressCells sizeCells (wadd (fdtPropVal reg) (wmul index cells))

/-- `reg` is decoded with the given cell counts, whatever memory it is read from. -/
structure DecodedWith (fuel : Nat) (v : View) (fdt node reg addressCells sizeCells : Nat) :
    Prop where
  count : fdtNodeNumRegisterBlocks fuel v fdt node =
    numRegisterBlocksWith v reg addressCells sizeCells
  block : ∀ (m : Mem) (index : Nat), getRegisterBlockIn fuel v m.view fdt node index =
    getRegisterBlockWith v m.view reg addressCells sizeCells index

/-- The code decodes `reg` with the counts of the node. -/
theorem Blob.In.decodedWith_own (h : b.In v) (hfuel : b.totalsize < fuel)
    (hmem : (n, anc) ∈ b.paths) (hreg : n.prop? (ascii "reg") = some reg)
    (hA : fdtNodeGetAddressCells fuel v b.fdt n.addr = .ok A)
    (hS : fdtNodeGetSizeCells fuel v b.fdt n.addr = .ok S) :
    DecodedWith fuel v b.fdt n.addr reg.addr A S := by
  have hn := b.mem_nodes_of_mem_paths hmem n List.mem_cons_self
  have hptr := h.propPtr_ne hn (mem_props_of_prop? hreg)
  constructor
  · rw [fdtNodeNumRegisterBlocks, h.getReg_eq hfuel hmem, hreg, ok_bind, if_neg hptr, hA, ok_bind,
      hS]
    rfl
  · intro m index
    rw [getRegisterBlockIn, h.getReg_eq hfuel hmem, hreg, ok_bind, if_neg hptr, hA, ok_bind, hS]
    rfl

/-! ## Telling counts apart -/

/-- Counts the code cannot read give the error exit. -/
theorem readBlock_unreadable (hw : w.Total) (h : ¬ (Readable A ∧ Readable S)) (ptr : Nat) :
    readBlock w A S ptr = .ok none := by
  by_cases hA : Readable A
  · obtain ⟨x, hx⟩ := readCells_total hw hA ptr
    have hS : ¬ Readable S := fun hS => h ⟨hA, hS⟩
    rw [readBlock, hx, ok_bind]
    dsimp only
    rw [readCells_of_not_readable hS]
    rfl
  · exact readBlock_of_not_address hA ptr

/-- Memory full of ones. -/
def onesMem : Mem := fun _ => 1

/-- The number in `cells` cells of it. -/
def onesNumber (cells : Nat) : Nat := if cells = 1 then 0x01010101 else 0x0101010101010101

theorem readCells_ones (hA : Readable A) (ptr : Nat) :
    readCells onesMem.view A ptr = .ok (some (onesNumber A)) := by
  unfold readCells
  rcases hA with rfl | rfl
  · have hword : be32 onesMem.view ptr = .ok 0x01010101 :=
      be32_of_holds (by decide) ⟨rfl, rfl, rfl, rfl, trivial⟩
    rw [if_pos rfl, hword]
    rfl
  · have hword : be64 onesMem.view ptr = .ok 0x0101010101010101 :=
      be64_of_holds (by decide) ⟨rfl, rfl, rfl, rfl, rfl, rfl, rfl, rfl, trivial⟩
    rw [if_neg (by decide), if_pos rfl, hword]
    rfl

theorem onesNumber_inj (hA : Readable A) (hA' : Readable A') (h : onesNumber A = onesNumber A') :
    A = A' := by
  unfold onesNumber at h
  rcases hA with rfl | rfl <;> rcases hA' with rfl | rfl <;> simp_all

theorem readBlock_ones (hA : Readable A) (hS : Readable S) (ptr : Nat) :
    readBlock onesMem.view A S ptr = .ok (some (onesNumber A, onesNumber S)) := by
  rw [readBlock, readCells_ones hA, ok_bind]
  dsimp only
  rw [readCells_ones hS]
  rfl

/-- Memory full of ones tells counts apart, as far as the code can read them. -/
theorem eq_of_readBlock_ones {ptr : Nat}
    (h : readBlock onesMem.view A S ptr = readBlock onesMem.view A' S' ptr) :
    A = A' ∧ S = S' ∨ ¬ (Readable A ∧ Readable S) ∧ ¬ (Readable A' ∧ Readable S') := by
  have htotal := Mem.view_total onesMem
  by_cases hr : Readable A ∧ Readable S
  · rw [readBlock_ones hr.1 hr.2] at h
    by_cases hr' : Readable A' ∧ Readable S'
    · rw [readBlock_ones hr'.1 hr'.2, Except.ok.injEq, Option.some.injEq, Prod.mk.injEq] at h
      exact .inl ⟨onesNumber_inj hr.1 hr'.1 h.1, onesNumber_inj hr.2 hr'.2 h.2⟩
    · rw [readBlock_unreadable htotal hr'] at h
      cases h
  · by_cases hr' : Readable A' ∧ Readable S'
    · rw [readBlock_unreadable htotal hr, readBlock_ones hr'.1 hr'.2] at h
      cases h
    · exact .inr ⟨hr, hr'⟩

/-! ## The counts of the parent -/

theorem numRegisterBlocksWith_eq (hlen : fdtPropValLen v reg.addr = .ok reg.value.length) :
    numRegisterBlocksWith v reg.addr A S =
      .ok (reg.value.length / 4 / regBlockCells A S) := by
  unfold numRegisterBlocksWith fdtPropNumCells
  by_cases hcells : regBlockCells A S = 0
  · rw [if_pos hcells, hcells, Nat.div_zero]
    rfl
  · rw [if_neg hcells, hlen]
    rfl

theorem getRegisterBlockWith_eq (hlen : fdtPropValLen v reg.addr = .ok reg.value.length)
    (w : View) (index : Nat) :
    getRegisterBlockWith v w reg.addr A S index =
      if reg.value.length < wmul (wmul index (regBlockCells A S)) 4 then .ok none
      else readBlock w A S (wadd (reg.addr + 12) (wmul index (regBlockCells A S))) := by
  rw [getRegisterBlockWith, hlen]
  rfl

/-- The parent of a node is a node, with the rest of its ancestors. -/
theorem Blob.mem_paths_parent (hmem : (n, parent :: anc) ∈ b.paths) :
    (parent, anc) ∈ b.paths :=
  (Forest.mem_paths_parent hmem).resolve_right (by simp)

/-- **When `reg` is read with the cell counts of the parent.** -/
theorem registerBlocks_parent_iff (h : b.In v) (hfuel : b.totalsize < fuel)
    (hmem : (n, parent :: anc) ∈ b.paths) (hreg : n.prop? (ascii "reg") = some reg)
    (hA : fdtNodeGetAddressCells fuel v b.fdt parent.addr = .ok A)
    (hS : fdtNodeGetSizeCells fuel v b.fdt parent.addr = .ok S)
    (hA' : fdtNodeGetAddressCells fuel v b.fdt n.addr = .ok A')
    (hS' : fdtNodeGetSizeCells fuel v b.fdt n.addr = .ok S') :
    DecodedWith fuel v b.fdt n.addr reg.addr A S ↔
      A' = A ∧ S' = S ∨
        ¬ (Readable A' ∧ Readable S') ∧ ¬ (Readable A ∧ Readable S) ∧
          reg.value.length / 4 / regBlockCells A' S' =
            reg.value.length / 4 / regBlockCells A S := by
  have hn := b.mem_nodes_of_mem_paths hmem n List.mem_cons_self
  have hlen := (h.prop_at hn (mem_props_of_prop? hreg)).2.2.1
  obtain ⟨hcount, hblock⟩ := h.decodedWith_own hfuel hmem hreg hA' hS'
  constructor
  · intro ⟨hcount', hblock'⟩
    rw [hcount, numRegisterBlocksWith_eq hlen, numRegisterBlocksWith_eq hlen,
      Except.ok.injEq] at hcount'
    -- the block with the index `0` is always looked at
    have hfirst := (hblock onesMem 0).symm.trans (hblock' onesMem 0)
    have hzero : ∀ c, wmul 0 c = 0 := by simp [wmul]
    simp only [getRegisterBlockWith_eq hlen, hzero, Nat.not_lt_zero, if_false] at hfirst
    exact (eq_of_readBlock_ones hfirst).imp_right fun hun => ⟨hun.1, hun.2, hcount'⟩
  · rintro (⟨rfl, rfl⟩ | ⟨hun, hun', hcells⟩)
    · exact ⟨hcount, hblock⟩
    · constructor
      · rw [hcount, numRegisterBlocksWith_eq hlen, numRegisterBlocksWith_eq hlen, hcells]
      · intro m index
        have htotal := Mem.view_total m
        rw [hblock, getRegisterBlockWith_eq hlen, getRegisterBlockWith_eq hlen,
          readBlock_unreadable htotal hun, readBlock_unreadable htotal hun', ite_self, ite_self]

/-! ## A bus -/

/-- A root with two cells for addresses and for sizes, and a bus below it that has three cells in
the addresses of its own children. -/
def pciBus : Source where
  reserve := []
  tokens :=
    [.beginNode [], .prop 0 (beBytes 4 2), .prop 15 (beBytes 4 2),
      .beginNode (ascii "pci@30000000"), .prop 27 (regBytes [(0x30000000, 0x10000000)]),
      .prop 15 (beBytes 4 2), .prop 0 (beBytes 4 3), .endNode, .endNode]
  strings := ascii "#address-cells" ++ 0 :: ascii "#size-cells" ++ 0 :: ascii "reg" ++ [0]

def pciRoot : Node :=
  ⟨0x1038, [], [⟨0x1040, 0, ascii "#address-cells", beBytes 4 2⟩,
    ⟨0x1050, 15, ascii "#size-cells", beBytes 4 2⟩], 0x10b4⟩

def pciReg : PropNode := ⟨0x1074, 27, ascii "reg", regBytes [(0x30000000, 0x10000000)]⟩

def pciNode : Node :=
  ⟨0x1060, ascii "pci@30000000", [pciReg, ⟨0x1090, 15, ascii "#size-cells", beBytes 4 2⟩,
    ⟨0x10a0, 0, ascii "#address-cells", beBytes 4 3⟩], 0x10b0⟩

theorem pciBus_fits : pciBus.Fits 0x1000 (.cons pciRoot (.cons pciNode .nil .nil) .nil) :=
  ⟨by decide, by decide +kernel, by decide +kernel, by decide, by decide, by decide, by decide⟩

def pciView : View := View.ofList 0x1000 pciBus.encode

def pciBlob : Blob := Source.blob pciBus_fits

theorem pci_in : pciBlob.In pciView := Source.in_of_holds pciBus_fits (View.ofList_holds _ _)

theorem pci_fuel : pciBlob.totalsize < 1000 := by decide +kernel

theorem pci_path : (pciNode, [pciRoot]) ∈ pciBlob.paths := by decide

/-- The counts of the root and of the bus. -/
theorem pci_counts :
    fdtNodeGetAddressCells 1000 pciView pciBlob.fdt pciRoot.addr = .ok 2 ∧
      fdtNodeGetSizeCells 1000 pciView pciBlob.fdt pciRoot.addr = .ok 2 ∧
      fdtNodeGetAddressCells 1000 pciView pciBlob.fdt pciNode.addr = .ok 3 ∧
      fdtNodeGetSizeCells 1000 pciView pciBlob.fdt pciNode.addr = .ok 2 := by
  have hroot := Blob.mem_paths_parent pci_path
  refine ⟨?_, ?_, ?_, ?_⟩
  · exact pci_in.getAddressCells_eq pci_fuel hroot
  · exact pci_in.getSizeCells_eq pci_fuel hroot
  · exact pci_in.getAddressCells_eq pci_fuel pci_path
  · exact pci_in.getSizeCells_eq pci_fuel pci_path

/-- With the counts of the root there is one block, of `0x10000000` bytes at `0x30000000`; the code
finds none, and reads a null one. -/
theorem pciNode_not_decoded :
    pciBlob.In pciView ∧ (pciNode, [pciRoot]) ∈ pciBlob.paths ∧
      numRegisterBlocksWith pciView pciReg.addr 2 2 = .ok 1 ∧
      getRegisterBlockWith pciView pciView pciReg.addr 2 2 0 =
        .ok (some (0x30000000, 0x10000000)) ∧
      fdtNodeNumRegisterBlocks 1000 pciView pciBlob.fdt pciNode.addr = .ok 0 ∧
      fdtNodeGetRegisterBlock 1000 pciView pciBlob.fdt pciNode.addr 0 = .ok (NULL, 0) ∧
      ¬ DecodedWith 1000 pciView pciBlob.fdt pciNode.addr pciReg.addr 2 2 := by
  have hnum : fdtNodeNumRegisterBlocks 1000 pciView pciBlob.fdt pciNode.addr = .ok 0 :=
    pci_in.numRegisterBlocks_eq pci_fuel pci_path
  have hone : numRegisterBlocksWith pciView pciReg.addr 2 2 = .ok 1 := by decide
  refine ⟨pci_in, pci_path, hone, by decide, hnum, ?_, ?_⟩
  · have hreg : pciNode.prop? (ascii "reg") = some pciReg := rfl
    rw [fdtNodeGetRegisterBlock_eq, pci_in.getRegisterBlockIn_eq pci_fuel pci_path hreg rfl rfl]
    decide
  · intro h
    have hcount := h.count
    rw [hnum, hone] at hcount
    cases hcount

/-- The counts of the bus and of the root differ, and the code can read those of the root. -/
theorem registerBlocks_parent_iff_pci :
    DecodedWith 1000 pciView pciBlob.fdt pciNode.addr pciReg.addr 2 2 ↔
      3 = 2 ∧ 2 = 2 ∨ ¬ (Readable 3 ∧ Readable 2) ∧ ¬ (Readable 2 ∧ Readable 2) ∧
        pciReg.value.length / 4 / regBlockCells 3 2 =
          pciReg.value.length / 4 / regBlockCells 2 2 :=
  have hcounts := pci_counts
  registerBlocks_parent_iff pci_in pci_fuel pci_path rfl hcounts.1 hcounts.2.1 hcounts.2.2.1
    hcounts.2.2.2

end RiscyOs
