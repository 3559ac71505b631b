import Mathlib.Data.List.Nodup
import RiscyOs.Fdt.Blocks
import RiscyOs.Fdt.Phandle
import RiscyOs.Syscon.Model

/-!
# Where the register of an action lies

The end of the register is compared with the size of the register block as a `uint32_t`. When the
sum wraps, an offset just below `2 ^ 32` passes the check of a small block, and the register lies
far outside. The block itself is the right one only when the code decodes the tree as it should: the
cells it reads are one cell, and the syscon declares no cell counts of its own.

* `InitCall.Refers` names the nodes the tree of a call refers to, `InitCall.Finds` those the code
  gets its data from.
* `init_eq`: what a call returns is `initOutcome` of these nodes.
* `sysconRun_sound`: in a run of regular calls every state is sound exactly when no call wraps.
-/

namespace RiscyOs

open ByteMemory

/-! ## Words in a block -/

/-- The four bytes from `reg` on are bytes of the block. -/
def InBlock (block : Nat × Nat) (reg : Nat) : Prop :=
  ∀ k < 4, ∃ j < block.2, (reg + k) % 2 ^ 64 = (block.1 + j) % 2 ^ 64

/-- In a block that does not wrap these are the bytes between two addresses. -/
theorem inBlock_iff_of_noWrap {block : Nat × Nat} {reg : Nat} (hsize : block.2 < 2 ^ 64)
    (hend : block.1 + block.2 ≤ 2 ^ 64) (hreg : reg < 2 ^ 64) :
    InBlock block reg ↔ block.1 ≤ reg ∧ reg + 4 ≤ block.1 + block.2 := by
  constructor
  · intro h
    obtain ⟨j₀, hj₀, h₀⟩ := h 0 (by decide)
    obtain ⟨j₁, hj₁, h₁⟩ := h 1 (by decide)
    obtain ⟨j₂, hj₂, h₂⟩ := h 2 (by decide)
    obtain ⟨j₃, hj₃, h₃⟩ := h 3 (by decide)
    omega
  · rintro ⟨hlo, hhi⟩ k hk
    exact ⟨reg + k - block.1, by omega, by congr 1; omega⟩

theorem inBlock_iff {address size offset : Nat} (hsize : size < 2 ^ 64) (hoff : offset < 2 ^ 32) :
    InBlock (address, size) (wadd address offset) ↔ offset + 4 ≤ size := by
  unfold wadd
  constructor
  · intro h
    obtain ⟨j, hj, hbyte⟩ := h 3 (by decide)
    dsimp only at hj hbyte
    omega
  · intro hle k hk
    refine ⟨offset + k, ?_, ?_⟩ <;> dsimp only <;> omega

/-! ## What a call gets its data from -/

/-- The node of the action, the node its `regmap` refers to, and the ancestors of that; `cell` reads
the cell of a property. -/
structure InitCall.RefersBy (c : InitCall) (cell : Node → List UInt8 → Option Nat)
    (node syscon : Node) (anc : List Node) : Prop where
  compatible : fdtFindCompatibleNode c.fuel (Mem.view c.mem) c.tree.fdt NULL c.kind.compat =
    .ok node.addr
  node_mem : node ∈ c.tree.nodes
  regmap : ∃ phandle, cell node (ascii "regmap") = some phandle ∧
    (c.tree.nodes.filter fun n => cell n (ascii "phandle") = some phandle).head? = some syscon
  ancestors : (syscon, anc) ∈ c.tree.paths

/-- The nodes the tree refers to. -/
abbrev InitCall.Refers (c : InitCall) (node syscon : Node) (anc : List Node) : Prop :=
  c.RefersBy Node.oneCell node syscon anc

/-- The nodes the code finds. -/
abbrev InitCall.Finds (c : InitCall) (node syscon : Node) (anc : List Node) : Prop :=
  c.RefersBy Node.countedCell node syscon anc

/-- The register lies in the first block of the syscon. -/
def InitCall.Inside (c : InitCall) (reg : Nat) : Prop :=
  ∃ node syscon anc block, c.Refers node syscon anc ∧
    (registerBlocks syscon anc).head? = some block ∧ InBlock block reg

/-- The tree passes all checks of the code. -/
structure InitCall.Accepts (c : InitCall) (node syscon : Node) (anc : List Node) (offset : Nat) :
    Prop where
  finds : c.Finds node syscon anc
  count : 0 < blockCount syscon anc
  size : 0 < (firstBlock syscon anc).2
  cell : node.countedCell (ascii "offset") = some offset
  end_le : (offset + 4) % 2 ^ 32 ≤ (firstBlock syscon anc).2
  bits : node.countedCell (ascii "mask") ≠ none ∨ node.countedCell (ascii "value") ≠ none

/-- Where the code takes a block from the tree, it takes the right one: `regmap` and the `phandle`
are one cell, and the cell counts of the syscon are those of its parent. -/
def InitCall.Regular (c : InitCall) : Prop :=
  ∀ node syscon anc offset, c.Accepts node syscon anc offset →
    node.oneCell (ascii "regmap") ≠ none ∧ syscon.oneCell (ascii "phandle") ≠ none ∧
      CountsAgree syscon anc

/-- The end of the register wraps to a number in the block, and nothing else is wrong. -/
def InitCall.Wraps (c : InitCall) : Prop :=
  ∃ node syscon anc offset, c.Accepts node syscon anc offset ∧
    (firstBlock syscon anc).2 < offset + 4

theorem InitCall.RefersBy.unique {c : InitCall} {cell : Node → List UInt8 → Option Nat}
    {node node' syscon syscon' : Node} {anc anc' : List Node}
    (h : c.RefersBy cell node syscon anc) (h' : c.RefersBy cell node' syscon' anc') :
    node = node' ∧ syscon = syscon' ∧ anc = anc' := by
  have hnodup := c.holds.addrs_nodup
  have hnode : node = node' :=
    List.inj_on_of_nodup_map hnodup h.node_mem h'.node_mem
      (Except.ok.inj (h.compatible.symm.trans h'.compatible))
  subst hnode
  obtain ⟨phandle, hcell, hhead⟩ := h.regmap
  obtain ⟨phandle', hcell', hhead'⟩ := h'.regmap
  obtain rfl := Option.some.inj (hcell.symm.trans hcell')
  obtain rfl := Option.some.inj (hhead.symm.trans hhead')
  have hpaths : (c.tree.paths.map Prod.fst).Nodup := by
    rw [c.tree.paths_map_fst]
    exact List.Nodup.of_map _ hnodup
  have hpair := List.inj_on_of_nodup_map hpaths h.ancestors h'.ancestors rfl
  exact ⟨rfl, rfl, (Prod.mk.inj hpair).2⟩

/-- The first of some elements is also the first of those among them that meet a condition, if it
meets that itself. -/
theorem head?_filter_of_imp {α : Type} {p q : α → Bool} {xs : List α} {x : α}
    (h : (xs.filter p).head? = some x) (hx : q x = true) (himp : ∀ y, q y = true → p y = true) :
    (xs.filter q).head? = some x := by
  rw [List.head?_filter, List.find?_eq_some_iff_append] at h ⊢
  obtain ⟨-, before, after, rfl, hbefore⟩ := h
  refine ⟨hx, before, after, rfl, fun y hy => ?_⟩
  by_contra hq
  simp only [Bool.not_eq_true, Bool.not_eq_false'] at hq
  exact absurd (himp y hq) (by simpa using hbefore y hy)

/-- **The code finds what the tree refers to**, when the cells it has used are one cell. -/
theorem InitCall.Finds.refers {c : InitCall} {node syscon : Node} {anc : List Node}
    (h : c.Finds node syscon anc) (hnode : node.oneCell (ascii "regmap") ≠ none)
    (hsyscon : syscon.oneCell (ascii "phandle") ≠ none) : c.Refers node syscon anc := by
  obtain ⟨phandle, hcell, hhead⟩ := h.regmap
  obtain ⟨x, hx⟩ := Option.ne_none_iff_exists'.1 hnode
  obtain ⟨y, hy⟩ := Option.ne_none_iff_exists'.1 hsyscon
  obtain rfl := Option.some.inj ((node.countedCell_of_oneCell hx).symm.trans hcell)
  have hfound := List.of_mem_filter (List.mem_of_head? hhead)
  have hcounted := of_decide_eq_true hfound
  obtain rfl := Option.some.inj ((syscon.countedCell_of_oneCell hy).symm.trans hcounted)
  refine ⟨h.compatible, h.node_mem, ⟨y, hx, ?_⟩, h.ancestors⟩
  refine head?_filter_of_imp hhead (decide_eq_true hy) ?_
  intro n hn
  exact decide_eq_true (n.countedCell_of_oneCell (of_decide_eq_true hn))

theorem countedCell_lt {n : Node} {l : List UInt8} {x : Nat} (h : n.countedCell l = some x) :
    x < 2 ^ 32 := by
  unfold Node.countedCell at h
  cases hp : n.prop? l with
  | none => rw [hp] at h; cases h
  | some p =>
    simp only [hp] at h
    split at h
    · rw [← Option.some.inj h]
      exact cellsAt_lt p.value 0 1
    · cases h

/-! ## What a call returns -/

/-- What `sysconInitGenericAction` makes of its nodes. -/
def initOutcome (action : GenericSysconAction) (node : Node) (count : Nat) (block : Nat × Nat) :
    KError × GenericSysconAction :=
  let action := { action with found := false }
  if count < 1 ∨ block.2 = 0 then (.invalid, action)
  else
    match node.countedCell (ascii "offset") with
    | none => (.invalid, action)
    | some offset =>
      if endOutside offset block.2 then (.invalid, action)
      else setAction action (wadd block.1 offset) (node.countedCell (ascii "mask"))
        (node.countedCell (ascii "value"))

theorem setAction_found (action : GenericSysconAction) (h : action.found = false) (reg : Nat)
    (mask value : Option Nat) :
    (setAction action reg mask value).2.found = true ↔
      (setAction action reg mask value).1 = .success := by
  cases mask <;> cases value <;> simp [setAction, h]

theorem setAction_success {action : GenericSysconAction} {reg : Nat} {mask value : Option Nat} :
    (setAction action reg mask value).1 = .success ↔ mask ≠ none ∨ value ≠ none := by
  cases mask <;> cases value <;> simp [setAction]

theorem setAction_reg (action : GenericSysconAction) (reg : Nat) (mask value : Option Nat) :
    (setAction action reg mask value).2.reg = reg := by
  cases mask <;> cases value <;> rfl

/-- What a call has checked when it returns no error. -/
theorem initOutcome_success {action : GenericSysconAction} {node : Node} {count : Nat}
    {block : Nat × Nat} :
    (initOutcome action node count block).1 = .success ↔
      0 < count ∧ 0 < block.2 ∧ ∃ offset, node.countedCell (ascii "offset") = some offset ∧
        (offset + 4) % 2 ^ 32 ≤ block.2 ∧
        (node.countedCell (ascii "mask") ≠ none ∨ node.countedCell (ascii "value") ≠ none) := by
  unfold initOutcome
  dsimp only
  by_cases hblock : count < 1 ∨ block.2 = 0
  · rw [if_pos hblock]
    constructor
    · intro herr
      cases herr
    · rintro ⟨hcount, hsize, -⟩
      omega
  · rw [if_neg hblock]
    have hcount : 0 < count := by omega
    have hsize : 0 < block.2 := by omega
    cases hoff : node.countedCell (ascii "offset") with
    | none => simp
    | some offset =>
      by_cases hend : endOutside offset block.2 = true
      · have hlt : block.2 < (offset + 4) % 2 ^ 32 := of_decide_eq_true hend
        simp only [if_pos hend]
        constructor
        · intro herr
          cases herr
        · rintro ⟨-, -, offset', hoff', hle, -⟩
          cases hoff'
          omega
      · have hle : (offset + 4) % 2 ^ 32 ≤ block.2 := not_lt.1 fun hlt => hend (decide_eq_true hlt)
        simp only [if_neg hend, setAction_success]
        constructor
        · intro hcell
          exact ⟨hcount, hsize, offset, rfl, hle, hcell⟩
        · rintro ⟨-, -, -, -, -, hcell⟩
          exact hcell

theorem initOutcome_reg {action : GenericSysconAction} {node : Node} {count offset : Nat}
    {block : Nat × Nat}
    (h : (initOutcome action node count block).1 = .success)
    (hoff : node.countedCell (ascii "offset") = some offset) :
    (initOutcome action node count block).2.reg = wadd block.1 offset := by
  unfold initOutcome at h ⊢
  simp only [hoff] at h ⊢
  split at h
  · cases h
  · rename_i hblock
    rw [if_neg hblock]
    split at h
    · cases h
    · rename_i hend
      rw [if_neg hend, setAction_reg]

namespace Blob.In

variable {b : Blob} {v : View} {fuel : Nat} {n : Node}

theorem oneCellProp_eq (h : b.In v) (hfuel : b.totalsize < fuel) (hn : n ∈ b.nodes)
    {l : List UInt8} (hl : 0 ∉ l) :
    oneCellProp fuel v b.fdt n.addr l = .ok (n.countedCell l) := by
  rw [oneCellProp, h.getProp_eq hfuel hn (CStr.lit_is hl), ok_bind, Node.countedCell]
  cases hp : n.prop? l with
  | none => rfl
  | some p =>
    have hmem := mem_props_of_prop? hp
    rw [if_neg (h.propPtr_ne hn hmem), propPtr, h.propNumCells_eq hn hmem, ok_bind]
    by_cases hcells : p.value.length / 4 = 1
    · rw [if_neg (not_not.2 hcells), h.propGetCell_zero hn hmem (by omega)]
      simp only [if_pos hcells]
      rfl
    · rw [if_pos hcells]
      simp only [if_neg hcells]
      rfl

end Blob.In

/-- **What a call returns is the outcome of its nodes**, when the search for the phandle ends. -/
theorem init_eq {c : InitCall} {node syscon : Node} {anc : List Node} {phandle found : Nat}
    (h : c.Finds node syscon anc) (hregmap : node.countedCell (ascii "regmap") = some phandle)
    (hsearch : phandleSearch phandle c.tree.nodes = .ok found) (action : GenericSysconAction) :
    sysconInitGenericAction c.fuel (Mem.view c.mem) c.tree.fdt c.kind.compat action =
      .ok (initOutcome action node (blockCount syscon anc) (firstBlock syscon anc)) := by
  have hin := c.holds
  have hn := h.node_mem
  obtain ⟨phandle', hregmap', hhead⟩ := h.regmap
  obtain rfl := Option.some.inj (hregmap.symm.trans hregmap')
  have hsyscon := c.tree.mem_nodes_of_mem_paths h.ancestors syscon List.mem_cons_self
  have hcell := fun l hl => hin.oneCellProp_eq (l := l) c.enough hn hl
  obtain rfl : found = syscon.addr :=
    (eq_of_phandleSearch hsearch).trans (nodesPtr_of_head? hhead)
  rw [sysconInitGenericAction, h.compatible, ok_bind, if_neg (hin.addr_ne hn),
    hcell _ (by decide), ok_bind, hregmap]
  dsimp only
  rw [hin.findNodeByPhandle_eq c.enough (.inl ⟨rfl, rfl⟩), hsearch, ok_bind,
    if_neg (hin.addr_ne hsyscon), hin.numRegisterBlocks_eq c.enough h.ancestors, ok_bind]
  unfold initOutcome
  dsimp only
  by_cases hcount : blockCount syscon anc < 1
  · rw [if_pos hcount, if_pos (.inl hcount)]
    rfl
  rw [if_neg hcount, hin.registerBlock_zero_eq (Mem.view_total c.mem) c.enough h.ancestors
    (by omega), ok_bind]
  by_cases hsize : (firstBlock syscon anc).2 = 0
  · rw [if_pos hsize, if_pos (.inr hsize)]
    rfl
  rw [if_neg hsize, if_neg (not_or.2 ⟨hcount, hsize⟩), hcell _ (by decide), ok_bind]
  cases hoff : node.countedCell (ascii "offset") with
  | none => rfl
  | some offset =>
    dsimp only
    by_cases hend : endOutside offset (firstBlock syscon anc).2 = true
    · rw [if_pos hend, if_pos hend]
      rfl
    · rw [if_neg hend, if_neg hend, hcell _ (by decide), ok_bind, hcell _ (by decide), ok_bind]
      rfl

theorem init_of_finds {c : InitCall} {node syscon : Node} {anc : List Node}
    {action action' : GenericSysconAction} {err : KError} (h : c.Finds node syscon anc)
    (hrun : sysconInitGenericAction c.fuel (Mem.view c.mem) c.tree.fdt c.kind.compat action =
      .ok (err, action')) :
    (err, action') =
      initOutcome action node (blockCount syscon anc) (firstBlock syscon anc) := by
  have hin := c.holds
  obtain ⟨phandle, hregmap, -⟩ := h.regmap
  have hsearch : ∃ found, phandleSearch phandle c.tree.nodes = .ok found := by
    rw [sysconInitGenericAction, h.compatible, ok_bind, if_neg (hin.addr_ne h.node_mem),
      hin.oneCellProp_eq c.enough h.node_mem (by decide), ok_bind, hregmap] at hrun
    obtain ⟨found, hfound, -⟩ := bind_eq_ok.1 hrun
    rw [hin.findNodeByPhandle_eq c.enough (.inl ⟨rfl, rfl⟩)] at hfound
    exact ⟨found, hfound⟩
  obtain ⟨found, hfound⟩ := hsearch
  exact Except.ok.inj (hrun.symm.trans (init_eq h hregmap hfound action))

/-- A call that returns no error has found its nodes. -/
theorem exists_finds {c : InitCall} {action action' : GenericSysconAction}
    (hrun : sysconInitGenericAction c.fuel (Mem.view c.mem) c.tree.fdt c.kind.compat action =
      .ok (.success, action')) : ∃ node syscon anc, c.Finds node syscon anc := by
  have hin := c.holds
  have hafter : c.tree.After NULL c.tree.nodes := .inl ⟨rfl, rfl⟩
  obtain ⟨found, hfound, hrun⟩ := bind_eq_ok.1 hrun
  rcases hin.findCompatible_mem c.enough hafter hfound with rfl | ⟨node, hnode, rfl⟩
  · cases hrun
  rw [if_neg (hin.addr_ne hnode), hin.oneCellProp_eq c.enough hnode (by decide), ok_bind]
    at hrun
  cases hregmap : node.countedCell (ascii "regmap") with
  | none =>
    rw [hregmap] at hrun
    cases hrun
  | some phandle =>
    rw [hregmap] at hrun
    obtain ⟨found, hphandle, hrun⟩ := bind_eq_ok.1 hrun
    rw [hin.findNodeByPhandle_eq c.enough hafter] at hphandle
    obtain rfl := eq_of_phandleSearch hphandle
    cases hnodes : c.tree.nodes.filter fun n => n.countsPhandle phandle with
    | nil =>
      rw [hnodes] at hrun
      cases hrun
    | cons syscon rest =>
      have hsyscon : syscon ∈ c.tree.nodes := by
        apply List.mem_of_mem_filter (p := fun n => n.countsPhandle phandle)
        rw [hnodes]
        exact List.mem_cons_self
      obtain ⟨anc, hanc⟩ := c.tree.exists_mem_paths hsyscon
      have hhead : (c.tree.nodes.filter fun n => n.countsPhandle phandle).head? = some syscon := by
        rw [hnodes]
        rfl
      exact ⟨node, syscon, anc, hfound, hnode, ⟨phandle, hregmap, hhead⟩, hanc⟩

theorem init_found {fuel fdt : Nat} {v : View} {compat : CStr}
    {action action' : GenericSysconAction} {err : KError}
    (hrun : sysconInitGenericAction fuel v fdt compat action = .ok (err, action')) :
    action'.found = true ↔ err = .success := by
  obtain ⟨node, -, hrun⟩ := bind_eq_ok.1 hrun
  split at hrun
  · cases hrun
    simp
  obtain ⟨regmap, -, hrun⟩ := bind_eq_ok.1 hrun
  cases regmap with
  | none =>
    cases hrun
    simp
  | some phandle =>
    obtain ⟨syscon, -, hrun⟩ := bind_eq_ok.1 hrun
    split at hrun
    · cases hrun
      simp
    obtain ⟨count, -, hrun⟩ := bind_eq_ok.1 hrun
    split at hrun
    · cases hrun
      simp
    obtain ⟨⟨address, size⟩, -, hrun⟩ := bind_eq_ok.1 hrun
    dsimp only at hrun
    split at hrun
    · cases hrun
      simp
    obtain ⟨offset, -, hrun⟩ := bind_eq_ok.1 hrun
    cases offset with
    | none =>
      cases hrun
      simp
    | some offset =>
      dsimp only at hrun
      split at hrun
      · cases hrun
        simp
      obtain ⟨mask, -, hrun⟩ := bind_eq_ok.1 hrun
      obtain ⟨value, -, hrun⟩ := bind_eq_ok.1 hrun
      have hset := setAction_found { action with found := false } rfl (wadd address offset) mask
        value
      rw [pure_eq_ok, Except.ok.injEq] at hrun
      rwa [hrun] at hset

/-- **A call that returns no error has a tree that passes the checks**, and has set the register. -/
theorem exists_accepts {c : InitCall} {action action' : GenericSysconAction}
    (hrun : sysconInitGenericAction c.fuel (Mem.view c.mem) c.tree.fdt c.kind.compat action =
      .ok (.success, action')) :
    ∃ node syscon anc offset, c.Accepts node syscon anc offset ∧
      (.success, action') =
        initOutcome action node (blockCount syscon anc) (firstBlock syscon anc) := by
  obtain ⟨node, syscon, anc, hfinds⟩ := exists_finds hrun
  have heq := init_of_finds hfinds hrun
  have herr : (initOutcome action node (blockCount syscon anc) (firstBlock syscon anc)).1 =
      .success := by rw [← heq]
  obtain ⟨hcount, hsize, offset, hoff, hle, hcell⟩ := initOutcome_success.1 herr
  exact ⟨node, syscon, anc, offset, ⟨hfinds, hcount, hsize, hoff, hle, hcell⟩, heq⟩

/-- The outcome of a tree that passes the checks. -/
theorem InitCall.Accepts.outcome {c : InitCall} {node syscon : Node} {anc : List Node}
    {offset : Nat} (h : c.Accepts node syscon anc offset) (action : GenericSysconAction) :
    (initOutcome action node (blockCount syscon anc) (firstBlock syscon anc)).1 = .success ∧
      (initOutcome action node (blockCount syscon anc) (firstBlock syscon anc)).2.reg =
        wadd (firstBlock syscon anc).1 offset := by
  have herr : (initOutcome action node (blockCount syscon anc) (firstBlock syscon anc)).1 =
      .success := initOutcome_success.2 ⟨h.count, h.size, offset, h.cell, h.end_le, h.bits⟩
  exact ⟨herr, initOutcome_reg herr h.cell⟩

/-- Where the register lies when the block is the right one. -/
theorem InitCall.Accepts.inside_iff {c : InitCall} {node syscon : Node} {anc : List Node}
    {offset : Nat} (h : c.Accepts node syscon anc offset) (hregular : c.Regular) :
    c.Inside (wadd (firstBlock syscon anc).1 offset) ↔ offset + 4 ≤ (firstBlock syscon anc).2 := by
  obtain ⟨hregmap, hphandle, hcounts⟩ := hregular node syscon anc offset h
  have hrefers := h.finds.refers hregmap hphandle
  have hhead := ownBlocks_head h.count h.size
  rw [ownBlocks_eq hcounts] at hhead
  rw [← inBlock_iff (firstBlock_lt syscon anc).2 (countedCell_lt h.cell)]
  constructor
  · rintro ⟨node', syscon', anc', block, hrefers', hblock, hin⟩
    obtain ⟨rfl, rfl, rfl⟩ := hrefers.unique hrefers'
    obtain rfl := Option.some.inj (hblock.symm.trans hhead)
    exact hin
  · intro hin
    exact ⟨node, syscon, anc, _, hrefers, hhead, hin⟩

/-- **A regular call leaves a register outside its block exactly when it wraps**; it returns no
error then. -/
theorem init_wraps_iff {c : InitCall} {action action' : GenericSysconAction} {err : KError}
    (hregular : c.Regular)
    (hrun : sysconInitGenericAction c.fuel (Mem.view c.mem) c.tree.fdt c.kind.compat action =
      .ok (err, action')) : c.Wraps ↔ err = .success ∧ ¬ c.Inside action'.reg := by
  constructor
  · rintro ⟨node, syscon, anc, offset, haccepts, hlt⟩
    obtain ⟨herr, hreg⟩ := haccepts.outcome action
    rw [← init_of_finds haccepts.finds hrun] at herr hreg
    refine ⟨herr, ?_⟩
    rw [hreg, haccepts.inside_iff hregular]
    exact not_le.2 hlt
  · rintro ⟨rfl, hout⟩
    obtain ⟨node, syscon, anc, offset, haccepts, heq⟩ := exists_accepts hrun
    have hreg := (haccepts.outcome action).2
    rw [← heq] at hreg
    rw [hreg, haccepts.inside_iff hregular] at hout
    exact ⟨node, syscon, anc, offset, haccepts, not_le.1 hout⟩

/-! ## Runs -/

/-- The state says what the last calls did: an action is found when the last call for it returned
no error, and its register lies in the block of the tree of that call. -/
structure SysconSound (past : List (InitCall × KError)) (s : SysconState) : Prop where
  found : ∀ kind, (s.action kind).found = true ↔ ∃ c, lastInit kind past = some (c, .success)
  inside : ∀ kind, (s.action kind).found = true →
    ∃ c err, lastInit kind past = some (c, err) ∧ c.Inside (s.action kind).reg

/-- A call sets its own action and no other. -/
theorem InitCall.run_eq {c : InitCall} {s s' : SysconState} {err : KError}
    (hrun : c.run s = .ok (err, s')) :
    sysconInitGenericAction c.fuel (Mem.view c.mem) c.tree.fdt c.kind.compat (s.action c.kind) =
        .ok (err, s'.action c.kind) ∧
      ∀ kind, c.kind ≠ kind → s'.action kind = s.action kind := by
  unfold InitCall.run at hrun
  cases hkind : c.kind with
  | shutdown =>
    rw [hkind] at hrun
    obtain ⟨⟨err', action⟩, hinit, hret⟩ := bind_eq_ok.1 hrun
    cases hret
    refine ⟨hinit, ?_⟩
    intro kind hne
    cases kind with
    | shutdown => exact absurd rfl hne
    | reboot => rfl
  | reboot =>
    rw [hkind] at hrun
    obtain ⟨⟨err', action⟩, hinit, hret⟩ := bind_eq_ok.1 hrun
    cases hret
    refine ⟨hinit, ?_⟩
    intro kind hne
    cases kind with
    | shutdown => rfl
    | reboot => exact absurd rfl hne

/-- A regular call keeps a state sound exactly when it does not wrap. -/
theorem sound_call_iff {past : List (InitCall × KError)} {s s' : SysconState} {c : InitCall}
    {err : KError} (hregular : c.Regular) (hs : SysconSound past s)
    (hrun : c.run s = .ok (err, s')) :
    SysconSound ((c, err) :: past) s' ↔ ¬ c.Wraps := by
  obtain ⟨hinit, hother⟩ := InitCall.run_eq hrun
  have hfound := init_found hinit
  have hlast : lastInit c.kind ((c, err) :: past) = some (c, err) := by simp [lastInit]
  constructor
  · intro hs' hwraps
    obtain ⟨hnone, hout⟩ := (init_wraps_iff hregular hinit).1 hwraps
    obtain ⟨c', err', hc', hin⟩ := hs'.inside c.kind (hfound.2 hnone)
    rw [hlast] at hc'
    cases hc'
    exact hout hin
  · intro hwraps
    have hskip : ∀ kind, c.kind ≠ kind →
        lastInit kind ((c, err) :: past) = lastInit kind past := by
      intro kind hne
      simp [lastInit, hne]
    constructor
    · intro kind
      by_cases hkind : c.kind = kind
      · subst hkind
        rw [hlast, hfound]
        constructor
        · rintro rfl
          exact ⟨c, rfl⟩
        · rintro ⟨c', heq⟩
          exact (Prod.mk.inj (Option.some.inj heq)).2
      · rw [hother kind hkind, hskip kind hkind]
        exact hs.found kind
    · intro kind hf
      by_cases hkind : c.kind = kind
      · subst hkind
        refine ⟨c, err, hlast, ?_⟩
        by_contra hout
        exact hwraps ((init_wraps_iff hregular hinit).2 ⟨hfound.1 hf, hout⟩)
      · rw [hother kind hkind] at hf ⊢
        rw [hskip kind hkind]
        exact hs.inside kind hf

theorem sound_initial : SysconSound [] SysconState.initial := by
  constructor
  · intro kind
    cases kind <;> simp [SysconState.action, SysconState.initial, lastInit]
  · intro kind hf
    cases kind <;> cases hf

/-- All states of a run of regular calls that do not wrap are sound. -/
theorem sound_of_regular {past : List (InitCall × KError)} {s : SysconState}
    (hrun : SysconRun past s) (hall : ∀ x ∈ past, x.1.Regular ∧ ¬ x.1.Wraps) :
    SysconSound past s := by
  induction hrun with
  | initial => exact sound_initial
  | call hpast hcall ih =>
    obtain ⟨hregular, hwraps⟩ := hall _ List.mem_cons_self
    have hs := ih fun x hx => hall x (List.mem_cons_of_mem _ hx)
    exact (sound_call_iff hregular hs hcall).2 hwraps

/-- What is left of a run without its last calls. -/
theorem exists_before {past before later : List (InitCall × KError)} {s : SysconState}
    (hrun : SysconRun past s) (hsplit : past = later ++ before) : ∃ s', SysconRun before s' := by
  subst hsplit
  induction later generalizing s with
  | nil => exact ⟨s, hrun⟩
  | cons x later ih =>
    cases hrun with
    | call hpast hcall => exact ih hpast

/-- **A run of regular calls that do not wrap goes through sound states only**, and where a regular
call wraps there is one that is not sound. -/
theorem sysconRun_sound {past : List (InitCall × KError)} {s : SysconState}
    (hrun : SysconRun past s) :
    ((∀ x ∈ past, x.1.Regular ∧ ¬ x.1.Wraps) →
      ∀ later before s', past = later ++ before → SysconRun before s' → SysconSound before s') ∧
    ((∀ x ∈ past, x.1.Regular) →
      (∀ later before s', past = later ++ before → SysconRun before s' → SysconSound before s') →
      ∀ x ∈ past, ¬ x.1.Wraps) := by
  constructor
  · rintro hall later before s' rfl hbefore
    exact sound_of_regular hbefore fun x hx => hall x (List.mem_append_right later hx)
  · intro hregular hsound x hx
    obtain ⟨later, before, rfl⟩ := List.append_of_mem hx
    obtain ⟨s', hcall⟩ := exists_before hrun rfl
    cases hcall with
    | call hpast hcall =>
      have hs := hsound (later ++ [(_, _)]) _ _ (List.append_cons _ _ _) hpast
      exact (sound_call_iff (hregular _ hx) hs hcall).1 (hsound later _ _ rfl (.call hpast hcall))

/-! ## A poweroff node -/

/-- A poweroff node that writes `0x5555` to the register of `test` at `offset`. -/
def poweroff (offset : Nat) : Source where
  reserve := []
  tokens :=
    [.beginNode [], .beginNode (ascii "poweroff"), .prop 0 (ascii "syscon-poweroff" ++ [0]),
      .prop 11 (beBytes 4 1), .prop 18 (beBytes 4 offset), .prop 25 (beBytes 4 0x5555), .endNode,
      .beginNode (ascii "test"), .prop 31 (beBytes 4 1),
      .prop 39 (beBytes 8 0x100000 ++ beBytes 4 0x1000), .endNode, .endNode]
  strings := ascii "compatible" ++ 0 :: ascii "regmap" ++ 0 :: ascii "offset" ++ 0 ::
    ascii "value" ++ 0 :: ascii "phandle" ++ 0 :: ascii "reg" ++ [0]

def poweroffRoot : Node := ⟨0x1038, [], [], 0x10d8⟩

def poweroffNode (offset : Nat) : Node :=
  ⟨0x1040, ascii "poweroff",
    [⟨0x1050, 0, ascii "compatible", ascii "syscon-poweroff" ++ [0]⟩,
      ⟨0x106c, 11, ascii "regmap", beBytes 4 1⟩, ⟨0x107c, 18, ascii "offset", beBytes 4 offset⟩,
      ⟨0x108c, 25, ascii "value", beBytes 4 0x5555⟩], 0x109c⟩

def poweroffTest : Node :=
  ⟨0x10a0, ascii "test", [⟨0x10ac, 31, ascii "phandle", beBytes 4 1⟩,
    ⟨0x10bc, 39, ascii "reg", beBytes 8 0x100000 ++ beBytes 4 0x1000⟩], 0x10d4⟩

def poweroffTree (offset : Nat) : Forest Node :=
  .cons poweroffRoot (.cons (poweroffNode offset) .nil (.cons poweroffTest .nil .nil)) .nil

theorem poweroff_zero_fits : (poweroff 0).Fits 0x1000 (poweroffTree 0) :=
  ⟨by decide, by decide +kernel, by decide +kernel, by decide, by decide,
    by decide, by decide⟩

theorem poweroff_wrap_fits : (poweroff 0xfffffffc).Fits 0x1000 (poweroffTree 0xfffffffc) :=
  ⟨by decide, by decide +kernel, by decide +kernel, by decide, by decide,
    by decide, by decide⟩

/-- A call of `syscon_shutdown_init` with memory that holds a source at `0x1000`. -/
def shutdownCall {src : Source} {tree : Forest Node} (h : src.Fits 0x1000 tree)
    (henough : src.totalsize < 1000) : InitCall where
  kind := .shutdown
  mem := (View.ofList 0x1000 src.encode).fill
  tree := Source.blob h
  fuel := 1000
  holds := Source.in_of_holds h (View.ofList_holds _ _).fill
  enough := henough

def zeroCall : InitCall := shutdownCall poweroff_zero_fits (by decide +kernel)

def wrapCall : InitCall := shutdownCall poweroff_wrap_fits (by decide +kernel)

/-- The state after a call that sets `reg`. -/
def shutdownState (reg : Nat) : SysconState :=
  ⟨⟨true, reg, 0xffffffff, 0x5555⟩, ⟨false, NULL, 0, 0⟩⟩

theorem zeroCall_finds : zeroCall.Finds (poweroffNode 0) poweroffTest [poweroffRoot] where
  compatible := by decide +kernel
  node_mem := by decide
  regmap := ⟨1, by decide, by decide⟩
  ancestors := by decide

theorem wrapCall_finds :
    wrapCall.Finds (poweroffNode 0xfffffffc) poweroffTest [poweroffRoot] where
  compatible := by decide +kernel
  node_mem := by decide
  regmap := ⟨1, by decide, by decide⟩
  ancestors := by decide

theorem zeroCall_regular : zeroCall.Regular := by
  intro node syscon anc offset haccepts
  obtain ⟨rfl, rfl, rfl⟩ := zeroCall_finds.unique haccepts.finds
  decide

theorem zeroCall_not_wraps : ¬ zeroCall.Wraps := by
  rintro ⟨node, syscon, anc, offset, haccepts, hlt⟩
  obtain ⟨rfl, rfl, rfl⟩ := zeroCall_finds.unique haccepts.finds
  have hzero : (poweroffNode 0).countedCell (ascii "offset") = some 0 := by decide
  obtain rfl := Option.some.inj (hzero.symm.trans haccepts.cell)
  revert hlt
  decide

theorem InitCall.run_shutdown {c : InitCall} {s : SysconState} {err : KError}
    {action : GenericSysconAction} (hkind : c.kind = .shutdown)
    (h : sysconInitGenericAction c.fuel (Mem.view c.mem) c.tree.fdt c.kind.compat
      s.shutdownAction = .ok (err, action)) :
    c.run s = .ok (err, { s with shutdownAction := action }) := by
  rw [hkind, SysconKind.compat] at h
  simp only [run, hkind, sysconShutdownInit, h, ok_bind, pure_eq_ok]

theorem zeroCall_run :
    zeroCall.run SysconState.initial = .ok (.success, shutdownState 0x100000) := by
  have hsearch : phandleSearch 1 zeroCall.tree.nodes = .ok poweroffTest.addr := by decide
  exact InitCall.run_shutdown rfl (init_eq zeroCall_finds (by decide) hsearch _)

theorem wrapCall_run :
    wrapCall.run SysconState.initial = .ok (.success, shutdownState 0x1000ffffc) := by
  have hsearch : phandleSearch 1 wrapCall.tree.nodes = .ok poweroffTest.addr := by decide
  exact InitCall.run_shutdown rfl (init_eq wrapCall_finds (by decide) hsearch _)

/-- With the offset `0xfffffffc` the sum is `0`, and the register lies far behind the end of the
block `[0x100000, 0x101000)`. -/
theorem wrapCall_not_sound :
    SysconRun [(wrapCall, .success)] (shutdownState 0x1000ffffc) ∧
      (registerBlocks poweroffTest [poweroffRoot]).head? = some (0x100000, 0x1000) ∧
      ¬ SysconSound [(wrapCall, .success)] (shutdownState 0x1000ffffc) := by
  have hhead : (registerBlocks poweroffTest [poweroffRoot]).head? = some (0x100000, 0x1000) := by
    decide
  refine ⟨.call .initial wrapCall_run, hhead, ?_⟩
  intro hsound
  obtain ⟨c, err, hlast, node, syscon, anc, block, hrefers, hblock, hin⟩ :=
    hsound.inside .shutdown rfl
  cases hlast
  obtain ⟨rfl, rfl, rfl⟩ := (wrapCall_finds.refers (by decide) (by decide)).unique hrefers
  obtain rfl := Option.some.inj (hhead.symm.trans hblock)
  have hreg : ((shutdownState 0x1000ffffc).action .shutdown).reg = 0x1000ffffc := rfl
  rw [hreg, inBlock_iff_of_noWrap (by decide) (by decide) (by decide)] at hin
  exact absurd hin.2 (by decide)

/-- With the offset `0` the state is sound. -/
theorem sysconRun_sound_zero :
    SysconSound [(zeroCall, .success)] (shutdownState 0x100000) := by
  have hrun : SysconRun [(zeroCall, .success)] (shutdownState 0x100000) :=
    .call .initial zeroCall_run
  refine (sysconRun_sound hrun).1 ?_ [] _ _ rfl hrun
  intro x hx
  obtain rfl := List.mem_singleton.1 hx
  exact ⟨zeroCall_regular, zeroCall_not_wraps⟩

end RiscyOs
