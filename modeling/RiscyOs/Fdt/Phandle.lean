import RiscyOs.Fdt.Search

/-!
# Searching nodes by phandle

The code counts the cells of a `phandle` and does not mind bytes that are left over. At a node whose
`phandle` it does not count as one cell the loop goes round without moving on. `phandleSearch` says
what the loop does, node by node. It is the search for the first node whose `phandle` is one cell,
of four bytes, unless one of the others comes before.

* `Blob.In.findNodeByPhandle_eq`: the code is `phandleSearch`.
* `findNodeByPhandle_iff`: when the search returns the first node with the phandle.
-/

namespace RiscyOs

open ByteMemory FuelLoop

/-- Has the node a `phandle` of one cell, and is it `phandle`? -/
def Node.hasPhandle (n : Node) (phandle : Nat) : Bool :=
  n.oneCell (ascii "phandle") = some phandle

/-- Does the code take the node for one with this phandle? -/
def Node.countsPhandle (n : Node) (phandle : Nat) : Bool :=
  n.countedCell (ascii "phandle") = some phandle

/-- Has the node a `phandle` that the code does not count as one cell? -/
def Node.badPhandle (n : Node) : Bool :=
  (n.prop? (ascii "phandle")).isSome ∧ n.countedCell (ascii "phandle") = none

/-- The search from the first of the nodes on. -/
def phandleSearch (phandle : Nat) : List Node → Result Nat
  | [] => .ok NULL
  | n :: ns =>
    if n.badPhandle then .error .outOfFuel
    else if n.countsPhandle phandle then .ok n.addr
    else phandleSearch phandle ns

/-- The nodes before the first one with the phandle. -/
def beforePhandle (phandle : Nat) (ns : List Node) : List Node :=
  ns.takeWhile fun n => ¬ n.hasPhandle phandle

/-- The nodes before the first one that the code takes for it. -/
def beforeCounted (phandle : Nat) (ns : List Node) : List Node :=
  ns.takeWhile fun n => ¬ n.countsPhandle phandle

theorem countsPhandle_of_badPhandle {n : Node} (h : n.badPhandle = true) (phandle : Nat) :
    n.countsPhandle phandle = false := by
  obtain ⟨-, hcell⟩ := of_decide_eq_true h
  rw [Node.countsPhandle, hcell]
  rfl

/-- A `phandle` of one cell is counted as one. -/
theorem countsPhandle_of_hasPhandle {n : Node} {phandle : Nat} (h : n.hasPhandle phandle = true) :
    n.countsPhandle phandle = true :=
  decide_eq_true (n.countedCell_of_oneCell (of_decide_eq_true h))

/-- The search finds the first node that the code takes for one with the phandle unless it meets a
bad one before. -/
theorem phandleSearch_eq (phandle : Nat) (ns : List Node) :
    phandleSearch phandle ns =
      if ∀ n ∈ beforeCounted phandle ns, n.badPhandle = false then
        .ok (nodesPtr (ns.filter fun n => n.countsPhandle phandle))
      else .error .outOfFuel := by
  induction ns with
  | nil => rfl
  | cons n ns ih =>
    rw [phandleSearch, beforeCounted, List.takeWhile_cons, ← beforeCounted]
    cases hbad : n.badPhandle with
    | true =>
      rw [if_pos rfl, countsPhandle_of_badPhandle hbad]
      simp [hbad]
    | false =>
      cases hfound : n.countsPhandle phandle with
      | true => simp [hfound, nodesPtr]
      | false =>
        rw [if_neg (by simp), if_neg (by simp), ih]
        simp [hbad, hfound]

/-- Whatever a search returns is the first node the code takes for one with the phandle. -/
theorem eq_of_phandleSearch {phandle r : Nat} {ns : List Node}
    (h : phandleSearch phandle ns = .ok r) :
    r = nodesPtr (ns.filter fun n => n.countsPhandle phandle) := by
  rw [phandleSearch_eq] at h
  split at h
  · exact (Except.ok.inj h).symm
  · cases h

/-- The pointer to the first of some nodes points to none of the others. -/
theorem nodesPtr_filter_ne {n : Node} {ns : List Node} (hnull : n.addr ≠ NULL)
    (hnodup : ((n :: ns).map Node.addr).Nodup) (f : Node → Bool) :
    nodesPtr (ns.filter f) ≠ n.addr := by
  cases hfound : ns.filter f with
  | nil => exact hnull.symm
  | cons m ms =>
    have hm : m ∈ ns := List.mem_of_mem_filter (p := f) (hfound ▸ List.mem_cons_self)
    intro heq
    have heq : m.addr = n.addr := heq
    rw [List.map_cons, List.nodup_cons] at hnodup
    exact hnodup.1 (heq ▸ List.mem_map_of_mem hm)

/-- **The search finds the first node with the phandle exactly when none before it is bad or taken
for it.** -/
theorem phandleSearch_iff {phandle : Nat} {ns : List Node} (hnull : ∀ n ∈ ns, n.addr ≠ NULL)
    (hnodup : (ns.map Node.addr).Nodup) :
    phandleSearch phandle ns = .ok (nodesPtr (ns.filter fun n => n.hasPhandle phandle)) ↔
      ∀ n ∈ beforePhandle phandle ns, n.badPhandle = false ∧ n.countsPhandle phandle = false := by
  induction ns with
  | nil => simp [phandleSearch, beforePhandle, nodesPtr]
  | cons n ns ih =>
    have hrest : (ns.map Node.addr).Nodup := (List.nodup_cons.1 hnodup).2
    rw [phandleSearch, beforePhandle, List.takeWhile_cons, ← beforePhandle]
    cases hhas : n.hasPhandle phandle with
    | true =>
      have hcounts := countsPhandle_of_hasPhandle hhas
      cases hbad : n.badPhandle with
      | true => exact absurd (countsPhandle_of_badPhandle hbad phandle) (by simp [hcounts])
      | false => simp [hhas, hcounts, nodesPtr]
    | false =>
      have hfilter : (n :: ns).filter (fun n => n.hasPhandle phandle) =
          ns.filter fun n => n.hasPhandle phandle := List.filter_cons_of_neg (by simp [hhas])
      rw [hfilter]
      cases hbad : n.badPhandle with
      | true => simp [hbad]
      | false =>
        cases hcounts : n.countsPhandle phandle with
        | true =>
          -- the code stops at this node, and the first one with the phandle is another
          have hne := nodesPtr_filter_ne (hnull n List.mem_cons_self) hnodup
            fun n => n.hasPhandle phandle
          simp [hcounts, hne.symm]
        | false =>
          simp [hbad, hcounts, ih (fun m hm => hnull m (List.mem_cons_of_mem n hm)) hrest]

namespace Blob.In

variable {b : Blob} {v : View} {fuel : Nat} {phandle start : Nat} {todo : List Node}

/-- What a pass does at a node that is ahead. -/
theorem findPhandleStep_eq (h : b.In v) (hfuel : b.totalsize < fuel) {n : Node} {ns : List Node}
    (hn : n ∈ b.nodes) (hahead : b.Ahead (n :: ns)) (phandle : Nat) :
    findPhandleStep fuel v b.fdt phandle n.addr =
      .ok (if n.badPhandle then .inl n.addr
        else if n.countsPhandle phandle then .inr n.addr else .inl (nodesPtr ns)) := by
  have hlit : (CStr.lit (ascii "phandle")).Is (ascii "phandle") := CStr.lit_is (by decide)
  obtain ⟨hpos, hnext, -⟩ := h.ahead_cons hfuel hahead
  rw [findPhandleStep, if_neg hpos, h.getProp_eq hfuel hn hlit, Node.badPhandle, Node.countsPhandle,
    Node.countedCell]
  cases hp : n.prop? (ascii "phandle") with
  | none =>
    simp only [propPtr, ok_bind, hnext]
    rfl
  | some p =>
    have hmem := mem_props_of_prop? hp
    have hptr : p.addr ≠ NULL := h.propPtr_ne hn hmem
    simp only [ok_bind, propPtr, h.propNumCells_eq hn hmem]
    by_cases hcells : p.value.length / 4 = 1
    · have hcell := h.propGetCell_zero hn hmem (by omega)
      by_cases hfound : cellsAt p.value 0 1 = phandle
      · simp [hptr, hcells, hcell, hfound, ok_bind, pure_eq_ok]
      · simp [hptr, hcells, hcell, hfound, ok_bind, pure_eq_ok, hnext]
    · simp [hptr, hcells, pure_eq_ok]

/-- The loop is the search through the nodes that are still ahead. -/
theorem findPhandle_loop_eq (h : b.In v) (hfuel : b.totalsize < fuel)
    (htodo : ∀ m ∈ todo, m ∈ b.nodes) (hahead : b.Ahead todo) {n : Nat} (hn : todo.length < n) :
    loop .outOfFuel (findPhandleStep fuel v b.fdt phandle) n (nodesPtr todo) =
      phandleSearch phandle todo := by
  induction todo generalizing n with
  | nil =>
    obtain ⟨k, rfl⟩ : ∃ k, n = k + 1 := ⟨n - 1, by omega⟩
    exact loop_leave rfl
  | cons m ms ih =>
    obtain ⟨k, rfl⟩ : ∃ k, n = k + 1 := ⟨n - 1, by omega⟩
    have hstep := h.findPhandleStep_eq hfuel (htodo m List.mem_cons_self) hahead phandle
    have hptr : nodesPtr (m :: ms) = m.addr := rfl
    rw [hptr, phandleSearch]
    cases hbad : m.badPhandle with
    | true =>
      rw [hbad, if_pos rfl] at hstep
      rw [loop_stuck hstep, if_pos rfl]
    | false =>
      rw [hbad, if_neg Bool.false_ne_true] at hstep
      rw [if_neg Bool.false_ne_true]
      cases hfound : m.countsPhandle phandle with
      | true =>
        rw [hfound, if_pos rfl] at hstep
        rw [loop_leave hstep, if_pos rfl]
      | false =>
        rw [hfound, if_neg Bool.false_ne_true] at hstep
        rw [loop_again _ hstep, if_neg Bool.false_ne_true]
        exact ih (fun m' hm' => htodo m' (List.mem_cons_of_mem m hm'))
          (h.ahead_cons hfuel hahead).2.2 (by simpa using hn)

/-- **The code is the search**, from any start. -/
theorem findNodeByPhandle_eq (h : b.In v) (hfuel : b.totalsize < fuel)
    (hafter : b.After start todo) (phandle : Nat) :
    fdtFindNodeByPhandle fuel v b.fdt start phandle = phandleSearch phandle todo := by
  obtain ⟨hbegin, hlen, hahead⟩ := h.findNodeBegin_eq hfuel hafter
  rw [fdtFindNodeByPhandle, hbegin, ok_bind]
  exact h.findPhandle_loop_eq hfuel hafter.mem hahead hlen

end Blob.In

variable {b : Blob} {v : View} {start : Nat} {todo : List Node}

/-- The nodes of a search start at different addresses. -/
theorem Blob.In.todo_nodup (h : b.In v) (hafter : b.After start todo) :
    (todo.map Node.addr).Nodup := by
  rcases hafter with ⟨-, rfl⟩ | ⟨before, m, hnodes, -⟩
  · exact h.addrs_nodup
  · have hsub : List.Sublist todo b.nodes := by
      rw [hnodes]
      exact (List.sublist_cons_self m todo).trans (List.sublist_append_right before _)
    exact h.addrs_nodup.sublist (hsub.map Node.addr)

/-- **The search returns the first node with the phandle exactly when no node before it has a bad
`phandle` or one the code takes for it**; at a bad one it goes round for ever. -/
theorem findNodeByPhandle_iff (h : b.In v) (hafter : b.After start todo) (phandle : Nat) :
    ((∀ fuel, b.totalsize < fuel → fdtFindNodeByPhandle fuel v b.fdt start phandle =
        .ok (nodesPtr (todo.filter fun n => n.hasPhandle phandle))) ↔
      ∀ n ∈ beforePhandle phandle todo, n.badPhandle = false ∧ n.countsPhandle phandle = false) ∧
      ((∃ n ∈ beforeCounted phandle todo, n.badPhandle = true) → ∀ fuel, b.totalsize < fuel →
        fdtFindNodeByPhandle fuel v b.fdt start phandle = .error .outOfFuel) := by
  have hrun : ∀ fuel, b.totalsize < fuel → fdtFindNodeByPhandle fuel v b.fdt start phandle =
      phandleSearch phandle todo := fun fuel hfuel => h.findNodeByPhandle_eq hfuel hafter phandle
  have hiff : phandleSearch phandle todo = _ ↔ _ :=
    phandleSearch_iff (fun n hn => h.addr_ne (hafter.mem n hn)) (h.todo_nodup hafter)
  constructor
  · constructor
    · intro hall
      have hfound := hall (b.totalsize + 1) (Nat.lt_succ_self _)
      rw [hrun _ (Nat.lt_succ_self _)] at hfound
      exact hiff.1 hfound
    · intro hgood fuel hfuel
      rw [hrun fuel hfuel]
      exact hiff.2 hgood
  · rintro ⟨n, hn, hbad⟩ fuel hfuel
    rw [hrun fuel hfuel, phandleSearch_eq, if_neg]
    intro hgood
    rw [hgood n hn] at hbad
    cases hbad

/-! ## A board with a bad `phandle` -/

/-- The first child of the root has a `phandle` of two cells, the second one of one cell. -/
def badPhandle : Source where
  reserve := []
  tokens :=
    [.beginNode [], .beginNode (ascii "cpu"), .prop 0 (beBytes 8 1), .endNode,
      .beginNode (ascii "intc"), .prop 0 (beBytes 4 1), .endNode, .endNode]
  strings := ascii "phandle" ++ [0]

def badPhandleCpu : Node :=
  ⟨0x1040, ascii "cpu", [⟨0x1048, 0, ascii "phandle", beBytes 8 1⟩], 0x105c⟩

def badPhandleIntc : Node :=
  ⟨0x1060, ascii "intc", [⟨0x106c, 0, ascii "phandle", beBytes 4 1⟩], 0x107c⟩

def badPhandleTree : Forest Node :=
  .cons ⟨0x1038, [], [], 0x1080⟩ (.cons badPhandleCpu .nil (.cons badPhandleIntc .nil .nil)) .nil

theorem badPhandle_fits : badPhandle.Fits 0x1000 badPhandleTree :=
  ⟨by decide, by decide, by decide, by decide, by decide,
    by decide, by decide⟩

def badPhandleBlob : Blob := Source.blob badPhandle_fits

def badPhandleView : View := View.ofList 0x1000 badPhandle.encode

theorem badPhandle_in : badPhandleBlob.In badPhandleView :=
  Source.in_of_holds badPhandle_fits (View.ofList_holds _ _)

/-- A search for the second child from the root on is caught at the first. -/
theorem badPhandle_caught :
    badPhandleBlob.In badPhandleView ∧ badPhandleBlob.After NULL badPhandleBlob.nodes ∧
      badPhandleBlob.nodes.filter (fun n => n.hasPhandle 1) = [badPhandleIntc] ∧
      ∀ fuel, badPhandleBlob.totalsize < fuel →
        fdtFindNodeByPhandle fuel badPhandleView badPhandleBlob.fdt NULL 1 =
          .error .outOfFuel := by
  have hafter : badPhandleBlob.After NULL badPhandleBlob.nodes := .inl ⟨rfl, rfl⟩
  have hsearch : phandleSearch 1 badPhandleBlob.nodes = .error .outOfFuel := by decide
  refine ⟨badPhandle_in, hafter, by decide, ?_⟩
  intro fuel hfuel
  rw [badPhandle_in.findNodeByPhandle_eq hfuel hafter, hsearch]

/-- A search that starts after the first child finds the second. -/
theorem findNodeByPhandle_iff_afterCpu :
    fdtFindNodeByPhandle 1000 badPhandleView badPhandleBlob.fdt 0x1040 1 = .ok 0x1060 := by
  have hnodes : badPhandleBlob.nodes =
      [⟨0x1038, [], [], 0x1080⟩] ++ badPhandleCpu :: [badPhandleIntc] := by decide
  have hafter : badPhandleBlob.After 0x1040 [badPhandleIntc] :=
    .inr ⟨_, badPhandleCpu, hnodes, rfl⟩
  have hgood : ∀ n ∈ beforePhandle 1 [badPhandleIntc],
      n.badPhandle = false ∧ n.countsPhandle 1 = false := by decide
  have hfound : nodesPtr ([badPhandleIntc].filter fun n => n.hasPhandle 1) = 0x1060 := by
    decide
  have h := (findNodeByPhandle_iff badPhandle_in hafter 1).1.2 hgood 1000 (by decide)
  rwa [hfound] at h

end RiscyOs
