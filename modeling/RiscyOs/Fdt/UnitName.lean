import Mathlib.Data.List.Nodup
import RiscyOs.Fdt.Compatible

/-!
# Names of nodes

`fdt_node_name` shows a debug name for a node that has none, and `fdt_find_node_by_unit_name`
compares with what is shown: it finds no node by the empty name, and it finds the nodes without a
name by the debug name.

* `fdtNodeName_is`: the name that is shown.
* `fdtNodesByUnitName_spec`: the nodes that resumed searches find one after the other.
-/

namespace RiscyOs

open ByteMemory FuelLoop

/-- `fdt_node_name`, with `FDT_DEBUG_DEBUG_NAMELESS_NODES`. -/
def fdtNodeName (v : View) (node : Nat) : Result CStr := do
  let c ← byteAt v (node + 4)
  return if c ≠ 0 then ⟨v, node + 4⟩ else .lit (ascii "\x7bDEBUG: Nameless Node\x7d")

/-- Does `fdt_node_name` return `name` for the node? -/
def nodeNamed (fuel : Nat) (v : View) (name : CStr) (node : Nat) : Result Bool := do
  let nodeName ← fdtNodeName v node
  let order ← strcmp fuel name nodeName
  return order = 0

def fdtFindNodeByUnitName (fuel : Nat) (v : View) (fdt start : Nat) (name : CStr) :
    Result Nat := do
  let node ← findNodeBegin fuel v fdt start
  loop .outOfFuel (findNodeStep fuel v fdt (nodeNamed fuel v name)) fuel node

/-- The nodes `fdt_find_node_by_unit_name` finds, resumed until it finds no more. -/
def fdtNodesByUnitName (fuel : Nat) (v : View) (fdt : Nat) (name : CStr) : Result (List Nat) :=
  findAllFrom (fun start => fdtFindNodeByUnitName fuel v fdt start name) fuel NULL

/-! ## The name that is shown -/

/-- What `fdt_node_name` shows for a node of that name. -/
def shownName (name : List UInt8) : List UInt8 :=
  if name = [] then ascii "\x7bDEBUG: Nameless Node\x7d" else name

variable {v : View} {fuel a : Nat} {name l : List UInt8} {b : Blob} {n : Node}

theorem fdtNodeName_is (h : v.HoldsStr (a + 4) name) (hwrap : a + 4 ≠ NULL) :
    ∃ s, fdtNodeName v a = .ok s ∧ s.Is (shownName name) := by
  cases name with
  | nil =>
    have hc : byteAt v (a + 4) = .ok 0 := by rw [byteAt, h.1.1]
    exact ⟨_, by rw [fdtNodeName, hc]; rfl, CStr.lit_is (by decide)⟩
  | cons c cs =>
    have hc : byteAt v (a + 4) = .ok c := by rw [byteAt, h.1.1]
    have hne : c ≠ 0 := fun h0 => h.2 (h0 ▸ List.mem_cons_self)
    refine ⟨⟨v, a + 4⟩, ?_, hwrap, h⟩
    rw [fdtNodeName, hc, ok_bind, if_pos hne]
    rfl

/-! ## The search -/

/-- A node and its name. -/
theorem Blob.In.nodeName_is (h : b.In v) (hn : n ∈ b.nodes) :
    ∃ s, fdtNodeName v n.addr = .ok s ∧ s.Is (shownName n.name) := by
  obtain ⟨pre, rest, htok, -⟩ := b.propsAhead_of_mem hn
  exact fdtNodeName_is (h.token_at htok).2.1.2 (by simp only [NULL]; omega)

theorem Blob.In.length_shownName_lt (h : b.In v) (hfuel : b.totalsize < fuel) (hroom : 32 < fuel)
    (hn : n ∈ b.nodes) : (shownName n.name).length < fuel := by
  unfold shownName
  split_ifs
  · exact (by decide : (ascii "\x7bDEBUG: Nameless Node\x7d").length < 32).trans hroom
  · obtain ⟨pre, rest, htok, -⟩ := b.propsAhead_of_mem hn
    obtain ⟨hlo, -, hlaid⟩ := h.token_at htok
    have hle := hlaid.le
    have hpad := Token.length_le_padded (n.name.length + 1)
    have := b.struct_le
    simp only [Token.size, Blob.structStart] at hle hlo
    omega

theorem Blob.In.nodeNamed_eq (h : b.In v) (hfuel : b.totalsize < fuel) (hroom : 32 < fuel)
    {s : CStr} (hs : s.Is l) (hn : n ∈ b.nodes) :
    nodeNamed fuel v s n.addr = .ok (decide (shownName n.name = l)) := by
  obtain ⟨nodeName, hname, his⟩ := h.nodeName_is hn
  obtain ⟨r, hr, hiff⟩ := strcmp_spec hs his (h.length_shownName_lt hfuel hroom hn)
  rw [nodeNamed, hname, ok_bind, hr]
  refine congrArg Except.ok (decide_eq_decide.2 ?_)
  rw [hiff, eq_comm]

theorem Blob.In.findUnitName_after (h : b.In v) (hfuel : b.totalsize < fuel) (hroom : 32 < fuel)
    {s : CStr} (hs : s.Is l) {start : Nat} {todo : List Node} (hafter : b.After start todo) :
    fdtFindNodeByUnitName fuel v b.fdt start s =
      .ok (nodesPtr (todo.filter fun n => shownName n.name = l)) := by
  obtain ⟨hbegin, hlen, hahead⟩ := h.findNodeBegin_eq hfuel hafter
  rw [fdtFindNodeByUnitName, hbegin, ok_bind]
  exact h.findNode_loop_eq hfuel (fun n hn => h.nodeNamed_eq hfuel hroom hs hn) hafter.mem hahead
    hlen

/-- **A search by name that is resumed** finds every node of that name once, in preorder; it finds
the nodes without a name by the debug name, and no node by the empty name. -/
theorem fdtNodesByUnitName_spec {s : CStr} (h : b.In v) (hfuel : b.totalsize < fuel)
    (hroom : 32 < fuel) (hs : s.Is l) :
    ∃ found, fdtNodesByUnitName fuel v b.fdt s = .ok found ∧
      found.Sublist (b.nodes.map Node.addr) ∧ found.Nodup ∧
      ∀ n ∈ b.nodes, n.addr ∈ found ↔
        if n.name = [] then l = ascii "\x7bDEBUG: Nameless Node\x7d" else n.name = l := by
  have hfound : fdtNodesByUnitName fuel v b.fdt s =
      .ok ((b.nodes.filter fun n => shownName n.name = l).map Node.addr) :=
    findAllFrom_eq h (fun start todo => h.findUnitName_after hfuel hroom hs) (.inl ⟨rfl, rfl⟩)
      (h.length_nodes_lt hfuel)
  have hsub : ((b.nodes.filter fun n => shownName n.name = l).map Node.addr).Sublist
      (b.nodes.map Node.addr) := List.filter_sublist.map _
  refine ⟨_, hfound, hsub, h.addrs_nodup.sublist hsub, fun n hn => ?_⟩
  have hmem : n.addr ∈ (b.nodes.filter fun n => shownName n.name = l).map Node.addr ↔
      shownName n.name = l := by
    constructor
    · intro hin
      obtain ⟨m, hm, heq⟩ := List.mem_map.1 hin
      obtain ⟨hmem, hname⟩ := List.mem_filter.1 hm
      -- two nodes at one address are one
      rw [← List.inj_on_of_nodup_map h.addrs_nodup hmem hn heq]
      exact of_decide_eq_true hname
    · intro hname
      exact List.mem_map_of_mem (List.mem_filter.2 ⟨hn, decide_eq_true hname⟩)
  rw [hmem, shownName]
  split_ifs
  · exact eq_comm
  · exact Iff.rfl

/-- The debug name finds the root of `board`. -/
theorem fdtNodesByUnitName_spec_board :
    ∃ found, fdtNodesByUnitName 1000 boardView boardBlob.fdt
        (.lit (ascii "\x7bDEBUG: Nameless Node\x7d")) = .ok found ∧
      found.Sublist (boardBlob.nodes.map Node.addr) ∧ found.Nodup ∧
      ∀ n ∈ boardBlob.nodes, n.addr ∈ found ↔
        if n.name = [] then ascii "\x7bDEBUG: Nameless Node\x7d" =
          ascii "\x7bDEBUG: Nameless Node\x7d"
        else n.name = ascii "\x7bDEBUG: Nameless Node\x7d" :=
  fdtNodesByUnitName_spec board_in board_fuel (by decide) (CStr.lit_is (by decide))

end RiscyOs
