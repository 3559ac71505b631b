import RiscyOs.Fdt.Token

/-!
# Walking over the children of a node

`fdt_node_subnode_begin` and `fdt_node_next_subnode` look for the next node entered before the
parent is left. The latter first skips the subnode it is given, by balancing `FDT_BEGIN_NODE` and
`FDT_END_NODE` (`Blob.StructIn.afterNode_eq`).

* `fdtSubnodes_eq`: the iteration returns the direct children of a node, each once and in order.
-/

namespace RiscyOs

open ByteMemory FuelLoop

/-- `fdt_node_next_subnode` until there are no more subnodes. -/
def subnodesFrom (fuel : Nat) (v : View) (fdt : Nat) : Nat → Nat → Result (List Nat)
  | 0, _ => .error .outOfFuel
  | n + 1, subnode =>
    if subnode = NULL then .ok [] else do
      let next ← fdtNodeNextSubnode fuel v fdt subnode
      let rest ← subnodesFrom fuel v fdt n next
      return subnode :: rest

def fdtSubnodes (fuel : Nat) (v : View) (fdt node : Nat) : Result (List Nat) := do
  let first ← fdtNodeSubnodeBegin fuel v fdt node
  subnodesFrom fuel v fdt fuel first

/-! ## Events of what remains -/

/-- The node entered next, unless one is left first. -/
def firstChild : List (Event Nat) → Nat
  | .enter a :: _ => a
  | _ => NULL

/-- Where an entered node stands among the tokens. -/
theorem exists_of_events_eq {a : Nat} {before after : List (Event Nat)}
    {rest : List (Nat × Token)} (h : events rest = before ++ .enter a :: after) :
    ∃ mid name rest', rest = mid ++ (a, .beginNode name) :: rest' ∧ events rest' = after := by
  obtain ⟨xs, ys, rfl, -, hys⟩ := List.filterMap_eq_append_iff.1 h
  obtain ⟨zs, ⟨c, t⟩, rest', rfl, -, ht, hrest⟩ := List.filterMap_eq_cons_iff.1 hys
  cases t with
  | beginNode name =>
    cases ht
    exact ⟨xs ++ zs, name, rest', by simp, hrest⟩
  | endNode => cases ht
  | prop nameOff value => cases ht
  | nop => cases ht
  | fdtEnd => cases ht

theorem scan_subnode {rest : List (Nat × Token)}
    (hend : ∀ mid c post, rest = mid ++ (c, .fdtEnd) :: post → post = []) :
    scan subnodeVisit (fun _ => NULL) rest () = firstChild (events rest) := by
  induction rest with
  | nil => rfl
  | cons x rest ih =>
    obtain ⟨a, t⟩ := x
    have ih := ih fun mid c post h => hend ((a, t) :: mid) c post (by rw [h]; rfl)
    cases t with
    | beginNode name => rfl
    | endNode => rfl
    | prop nameOff value => exact ih
    | nop => exact ih
    | fdtEnd =>
      obtain rfl := hend [] a rest rfl
      rfl

namespace Blob.StructIn

variable {b : Blob} {v : View} {fuel a : Nat} {t : Token} {name : List UInt8}
  {pre rest : List (Nat × Token)}

theorem subnodeLoop_eq (h : b.StructIn v) (hfuel : b.sizeStruct < fuel)
    (htok : b.tokens = pre ++ rest) :
    tokenLoop fuel v b.fdt subnodeVisit (fun _ => NULL) (headAddr rest) () =
      .ok (firstChild (events rest)) := by
  rw [h.tokenLoop_eq hfuel _ _ htok, scan_subnode]
  intro mid c post hrest
  have hend : b.tokens = (pre ++ mid) ++ (c, .fdtEnd) :: post := by
    rw [htok, hrest, List.append_assoc]
  exact Blob.rest_of_fdtEnd hend

theorem subnodeBegin_eq (h : b.StructIn v) (hfuel : b.sizeStruct < fuel)
    (htok : b.tokens = pre ++ (a, t) :: rest) :
    fdtNodeSubnodeBegin fuel v b.fdt a = .ok (firstChild (events rest)) := by
  have hrest : b.tokens = (pre ++ [(a, t)]) ++ rest := by simpa using htok
  rw [fdtNodeSubnodeBegin, h.nextToken_eq hfuel htok, ok_bind, h.subnodeLoop_eq hfuel hrest]

/-! ## Skipping a node -/

theorem afterNodeStep_eq (h : b.StructIn v) (hfuel : b.sizeStruct < fuel)
    (htok : b.tokens = pre ++ (a, t) :: rest) (depth : Int) :
    afterNodeStep fuel v b.fdt (a, depth) =
      .ok (if headAddr rest = NULL then .inr NULL
        else if depthAfter t.word depth > 0 then .inl (headAddr rest, depthAfter t.word depth)
        else .inr (headAddr rest)) := by
  obtain ⟨-, ⟨hword, -⟩, -⟩ := h.token_at htok
  simp only [afterNodeStep, hword, ok_bind, h.nextToken_eq hfuel htok, pure_eq_ok]
  split_ifs <;> rfl

/-- With `d + 1` nodes open, the loop stops right after the last of them is left. -/
theorem afterNode_loop_eq (h : b.StructIn v) (hfuel : b.sizeStruct < fuel) {n d : Nat}
    (htok : b.tokens = pre ++ (a, t) :: rest) (hn : rest.length < n) :
    ∃ mid rest', (a, t) :: rest = mid ++ rest' ∧
      events rest' = Forest.skip (d + 1) (events ((a, t) :: rest)) ∧
      loop .outOfFuel (afterNodeStep fuel v b.fdt) n (a, ((d + 1 : Nat) : Int)) =
        .ok (headAddr rest') := by
  induction n generalizing pre a t rest d with
  | zero => omega
  | succ n ih =>
    have hstep := h.afterNodeStep_eq hfuel htok ((d + 1 : Nat) : Int)
    cases rest with
    | nil =>
      refine ⟨[(a, t)], [], rfl, ?_, loop_leave hstep⟩
      cases t with
      | endNode => exact (Forest.skip_nil d).symm
      | _ => rfl
    | cons x rest =>
      obtain ⟨c, t'⟩ := x
      have htok' : b.tokens = (pre ++ [(a, t)]) ++ (c, t') :: rest := by simpa using htok
      have hlen : rest.length < n := by simpa using hn
      rw [if_neg (show headAddr ((c, t') :: rest) ≠ NULL from (h.token_pos htok').ne')] at hstep
      -- the depth after `t`, and what is left to skip with it
      have hgo : ∀ k : Nat, depthAfter t.word ((d + 1 : Nat) : Int) = ((k + 1 : Nat) : Int) →
          Forest.skip (d + 1) (events ((a, t) :: (c, t') :: rest)) =
            Forest.skip (k + 1) (events ((c, t') :: rest)) →
          ∃ mid rest', (a, t) :: (c, t') :: rest = mid ++ rest' ∧
            events rest' = Forest.skip (d + 1) (events ((a, t) :: (c, t') :: rest)) ∧
            loop .outOfFuel (afterNodeStep fuel v b.fdt) (n + 1) (a, ((d + 1 : Nat) : Int)) =
              .ok (headAddr rest') := by
        intro k hdepth hskip
        obtain ⟨mid, rest', hrest, hev, hrun⟩ := ih (d := k) htok' hlen
        refine ⟨(a, t) :: mid, rest', by rw [hrest]; rfl, hev.trans hskip.symm, ?_⟩
        rw [hdepth, if_pos (by omega)] at hstep
        rw [loop_again _ hstep]
        exact hrun
      cases t with
      | beginNode name => exact hgo (d + 1) rfl rfl
      | endNode =>
        cases d with
        | zero =>
          refine ⟨[(a, .endNode)], (c, t') :: rest, rfl, (Forest.skip_zero _).symm, ?_⟩
          rw [loop_leave (hstep.trans (congrArg _ (if_neg (by decide))))]
        | succ k =>
          have hdepth : ((k + 1 + 1 : Nat) : Int) - 1 = ((k + 1 : Nat) : Int) := by omega
          exact hgo k hdepth rfl
      | prop nameOff value => exact hgo d rfl rfl
      | nop => exact hgo d rfl rfl
      | fdtEnd => exact hgo d rfl rfl

/-- **`fdt_next_token_after_node` skips the node**, whatever is nested in it. -/
theorem afterNode_eq (h : b.StructIn v) (hfuel : b.sizeStruct < fuel)
    (htok : b.tokens = pre ++ (a, .beginNode name) :: rest) :
    ∃ mid rest', rest = mid ++ rest' ∧ events rest' = Forest.skip 1 (events rest) ∧
      fdtNextTokenAfterNode fuel v b.fdt a = .ok (headAddr rest') := by
  have hlen := h.rest_lt hfuel htok
  have hrun : fdtNextTokenAfterNode fuel v b.fdt a =
      loop .outOfFuel (afterNodeStep fuel v b.fdt) fuel (a, 0) := if_neg (h.token_pos htok).ne'
  have hstep := h.afterNodeStep_eq hfuel htok 0
  obtain ⟨n, rfl⟩ : ∃ n, fuel = n + 1 := ⟨fuel - 1, by omega⟩
  rw [hrun]
  cases rest with
  | nil => exact ⟨[], [], rfl, rfl, loop_leave hstep⟩
  | cons x rest =>
    obtain ⟨c, t'⟩ := x
    have htok' : b.tokens = (pre ++ [(a, .beginNode name)]) ++ (c, t') :: rest := by
      simpa using htok
    obtain ⟨mid, rest', hrest, hev, hloop⟩ :=
      h.afterNode_loop_eq (n := n) (d := 0) hfuel htok' (by rw [List.length_cons] at hlen; omega)
    rw [if_neg (show headAddr ((c, t') :: rest) ≠ NULL from (h.token_pos htok').ne'),
      if_pos (show depthAfter (Token.beginNode name).word 0 > 0 from Int.one_pos)] at hstep
    exact ⟨mid, rest', hrest, hev, (loop_again _ hstep).trans hloop⟩

theorem nextSubnode_eq (h : b.StructIn v) (hfuel : b.sizeStruct < fuel)
    (htok : b.tokens = pre ++ (a, .beginNode name) :: rest) :
    ∃ mid rest', rest = mid ++ rest' ∧ events rest' = Forest.skip 1 (events rest) ∧
      fdtNodeNextSubnode fuel v b.fdt a = .ok (firstChild (events rest')) := by
  obtain ⟨mid, rest', hrest, hev, hafter⟩ := h.afterNode_eq hfuel htok
  refine ⟨mid, rest', hrest, hev, ?_⟩
  have htok' : b.tokens = (pre ++ (a, .beginNode name) :: mid) ++ rest' := by
    rw [htok, hrest]
    simp
  rw [fdtNodeNextSubnode, hafter, ok_bind, h.subnodeLoop_eq hfuel htok']

/-! ## The whole iteration -/

/-- From a subnode on, the iteration lists its following siblings. -/
theorem subnodesFrom_eq (h : b.StructIn v) (hfuel : b.sizeStruct < fuel) {n : Nat}
    {ch sib : Forest Nat} {after : List (Event Nat)}
    (htok : b.tokens = pre ++ (a, .beginNode name) :: rest)
    (hev : events rest = ch.tour ++ .leave :: (sib.tour ++ .leave :: after))
    (hn : sib.roots.length + 1 < n) :
    subnodesFrom fuel v b.fdt n a = .ok (a :: sib.roots) := by
  induction n generalizing pre a name rest ch sib with
  | zero => omega
  | succ n ih =>
    obtain ⟨mid, rest', hrest, hev', hnext⟩ := h.nextSubnode_eq hfuel htok
    rw [hev, Forest.skip_tour, Forest.skip, Forest.skip] at hev'
    rw [subnodesFrom, if_neg (h.token_pos htok).ne', hnext, ok_bind, hev']
    cases sib with
    | nil =>
      obtain ⟨k, rfl⟩ : ∃ k, n = k + 1 := ⟨n - 1, by omega⟩
      rfl
    | cons a' ch' sib' =>
      have henter : events rest' =
          [] ++ .enter a' :: (ch'.tour ++ .leave :: (sib'.tour ++ .leave :: after)) := by
        simpa [Forest.tour] using hev'
      obtain ⟨mid', name', rest'', hrest'', hev''⟩ := exists_of_events_eq henter
      have htok' : b.tokens = (pre ++ (a, .beginNode name) :: (mid ++ mid')) ++
          (a', .beginNode name') :: rest'' := by
        rw [htok, hrest, hrest'']
        simp
      have hsib := ih htok' hev'' (by simpa [Forest.roots] using hn)
      simp only [Forest.tour, List.cons_append, firstChild, hsib, ok_bind, pure_eq_ok, Forest.roots]

end Blob.StructIn

theorem Forest.length_roots_le {α : Type} (F : Forest α) : F.roots.length ≤ F.tour.length := by
  induction F with
  | nil => exact le_rfl
  | cons a ch sib ihc ihs =>
    simp only [Forest.roots, Forest.tour, List.length_cons, List.length_append]
    omega

/-- **The iteration over subnodes returns the children of the node**, each once and in order. -/
theorem fdtSubnodes_eq {b : Blob} {v : View} {fuel : Nat} {n : Node} {ch : Forest Node}
    (h : b.StructIn v) (hfuel : b.sizeStruct < fuel) (hmem : (n, ch) ∈ b.tree.subtrees) :
    fdtSubnodes fuel v b.fdt n.addr = .ok (ch.roots.map Node.addr) := by
  have hsub : (n.addr, ch.map Node.addr) ∈ (b.tree.map Node.addr).subtrees := by
    rw [Forest.subtrees_map]
    exact List.mem_map_of_mem (f := fun p => (p.1.addr, p.2.map Node.addr)) hmem
  obtain ⟨before, after, htour⟩ := Forest.tour_of_mem_subtrees hsub
  rw [← b.events_tokens] at htour
  obtain ⟨pre, name, rest, htok, hev⟩ := exists_of_events_eq htour
  rw [fdtSubnodes, h.subnodeBegin_eq hfuel htok, ok_bind, hev, ← Forest.roots_map]
  have hlen : (ch.map Node.addr).roots.length + 2 < fuel := by
    have hevents : (events rest).length ≤ rest.length := List.length_filterMap_le _ _
    have hroots := Forest.length_roots_le (ch.map Node.addr)
    have hrest := h.rest_lt hfuel htok
    rw [hev, List.length_append, List.length_cons] at hevents
    omega
  cases hch : ch.map Node.addr with
  | nil =>
    obtain ⟨k, rfl⟩ : ∃ k, fuel = k + 1 := ⟨fuel - 1, by omega⟩
    rfl
  | cons a ch' sib =>
    rw [hch] at hev hlen
    have henter : events rest =
        [] ++ .enter a :: (ch'.tour ++ .leave :: (sib.tour ++ .leave :: after)) := by
      simpa [Forest.tour] using hev
    obtain ⟨mid, name', rest', hrest, hev'⟩ := exists_of_events_eq henter
    have htok' : b.tokens = (pre ++ (n.addr, .beginNode name) :: mid) ++
        (a, .beginNode name') :: rest' := by
      rw [htok, hrest]
      simp
    rw [Forest.roots, List.length_cons] at hlen
    exact h.subnodesFrom_eq hfuel htok' hev' (by omega)

/-- The children of the root of `board`. -/
theorem fdtSubnodes_board :
    fdtSubnodes 1000 boardView 0x1000 0x1048 = .ok [0x1074, 0x10d4, 0x111c] := by
  have hmem : (boardRoot, boardChildren) ∈ boardBlob.tree.subtrees := List.mem_cons_self
  have hroots : boardChildren.roots.map Node.addr = [0x1074, 0x10d4, 0x111c] := by decide
  have h := fdtSubnodes_eq board_in.toStructIn (boardBlob.sizeStruct_lt board_fuel) hmem
  rwa [hroots] at h

end RiscyOs
