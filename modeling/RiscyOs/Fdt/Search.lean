import RiscyOs.Fdt.Registers

/-!
# Searching nodes by device type

A search is resumed after the node it found last. Whatever it looks for, the nodes it finds one
after the other are those that match, in preorder.

* `Blob.After` says which nodes a search from a start node goes through, `Blob.Ahead` which nodes
  are still ahead of it; `Blob.In.ahead_cons` is one step.
* `Blob.In.hasDeviceType_eq`: the device type may leave out its terminator.
* `Blob.In.findNode_begin`, `Blob.In.findNode_next`: what a search finds first, and after a node.
-/

namespace RiscyOs

open ByteMemory FuelLoop

/-- Is `l`, with or without a terminator, the device type of the node? -/
def Node.hasType (n : Node) (l : List UInt8) : Bool :=
  match n.prop? (ascii "device_type") with
  | none => false
  | some p => p.value = l ++ [0] ∨ p.value = l

/-- The pointer to the first of the nodes, or `NULL`. -/
def nodesPtr (ns : List Node) : Nat := (ns.map Node.addr).headD NULL

theorem nodesPtr_of_head? {ns : List Node} {n : Node} (h : ns.head? = some n) :
    nodesPtr ns = n.addr := by
  cases ns with
  | nil => cases h
  | cons m ms =>
    cases h
    rfl

/-- The nodes `todo` are those a search from `start` goes through. -/
def Blob.After (b : Blob) (start : Nat) (todo : List Node) : Prop :=
  (start = NULL ∧ todo = b.nodes) ∨ ∃ before m, b.nodes = before ++ m :: todo ∧ start = m.addr

theorem Blob.After.mem {b : Blob} {start : Nat} {todo : List Node} (hafter : b.After start todo) :
    ∀ m ∈ todo, m ∈ b.nodes := by
  intro m hm
  rcases hafter with ⟨-, rfl⟩ | ⟨before, m', hnodes, -⟩
  · exact hm
  · rw [hnodes]
    exact List.mem_append_right _ (List.mem_cons_of_mem m' hm)

/-- Where a node stands among the tokens, by what is entered before and after it. -/
theorem exists_of_entered_eq_append {a : Nat} {before after : List Nat}
    {rest : List (Nat × Token)} (h : Forest.entered (events rest) = before ++ a :: after) :
    ∃ mid name rest', rest = mid ++ (a, .beginNode name) :: rest' ∧
      Forest.entered (events rest') = after := by
  induction before generalizing rest with
  | nil =>
    obtain ⟨mid, name, rest', hrest, hafter⟩ := exists_of_entered_eq_cons h
    exact ⟨mid, name, rest', hrest, hafter.symm⟩
  | cons c before ih =>
    obtain ⟨mid, name, rest', rfl, hc⟩ := exists_of_entered_eq_cons h
    obtain ⟨mid', name', rest'', rfl, hafter⟩ := ih hc.symm
    exact ⟨mid ++ (c, .beginNode name) :: mid', name', rest'', by simp, hafter⟩

/-- The nodes `todo` are all that are entered from some token on. -/
def Blob.Ahead (b : Blob) (todo : List Node) : Prop :=
  ∃ pre rest, b.tokens = pre ++ rest ∧ Forest.entered (events rest) = todo.map Node.addr

namespace Blob.In

variable {b : Blob} {v : View} {fuel : Nat} {type : CStr} {l : List UInt8}

/-- The first node that is ahead, and what comes after it. -/
theorem ahead_cons (h : b.In v) (hfuel : b.totalsize < fuel) {m : Node} {ms : List Node}
    (hahead : b.Ahead (m :: ms)) :
    m.addr ≠ NULL ∧ fdtNextNode fuel v b.fdt m.addr none = .ok (nodesPtr ms, none) ∧
      b.Ahead ms := by
  obtain ⟨pre, rest, htok, hentered⟩ := hahead
  obtain ⟨mid, name, rest', rfl, hrest⟩ := exists_of_entered_eq_cons hentered
  have htok' : b.tokens = (pre ++ mid) ++ (m.addr, .beginNode name) :: rest' := by
    simpa using htok
  have hnext := h.nextNode_none_eq (b.sizeStruct_lt hfuel) htok'
  rw [← hrest] at hnext
  exact ⟨(h.token_pos htok').ne', hnext, pre ++ mid ++ [(m.addr, .beginNode name)], rest',
    by simpa using htok', hrest.symm⟩

theorem hasDeviceType_eq (h : b.In v) (hfuel : b.totalsize < fuel) {n : Node} (hn : n ∈ b.nodes)
    (htype : type.Is l) (hl : l.length + 1 < 2 ^ 64) :
    hasDeviceType fuel v b.fdt type l.length n.addr = .ok (n.hasType l) := by
  have hlit : (CStr.lit (ascii "device_type")).Is (ascii "device_type") :=
    CStr.lit_is (by decide)
  rw [hasDeviceType, h.getProp_eq hfuel hn hlit, ok_bind, Node.hasType]
  cases hp : n.prop? (ascii "device_type") with
  | none => rfl
  | some p =>
    have hmem := mem_props_of_prop? hp
    obtain ⟨hpos, -, hlen, hvalue⟩ := h.prop_at hn hmem
    have hcmp : ∀ s : List UInt8, s.length = p.value.length → type.view.Holds type.ptr s →
        ∃ r, memcmp type ⟨v, p.addr + 12⟩ p.value.length = .ok r ∧ (r = 0 ↔ s = p.value) := by
      intro s hs hheld
      have hptr : p.addr + 12 ≠ NULL := by
        show p.addr + 12 ≠ 0
        omega
      rw [← hs]
      exact memcmp_spec htype.nonnull hptr hheld hvalue hs
    rw [if_neg (h.propPtr_ne hn hmem), propPtr, hlen, ok_bind, wadd_eq hl]
    dsimp only [fdtPropVal]
    have hheld := View.holds_append.1 htype.holds.1
    by_cases hfull : p.value.length = l.length + 1
    · obtain ⟨r, hr, hiff⟩ := hcmp (l ++ [0]) (by simp [hfull]) htype.holds.1
      have hne : p.value ≠ l := by
        intro heq
        rw [heq] at hfull
        omega
      rw [if_pos (.inl hfull), hr, ok_bind, pure_eq_ok]
      refine congrArg Except.ok (decide_eq_decide.2 ?_)
      rw [hiff, eq_comm]
      exact (or_iff_left hne).symm
    · by_cases hbare : p.value.length = l.length
      · obtain ⟨r, hr, hiff⟩ := hcmp l hbare.symm hheld.1
        have hne : p.value ≠ l ++ [0] := by
          intro heq
          rw [heq, List.length_append] at hbare
          simp at hbare
        rw [if_pos (.inr hbare), hr, ok_bind, pure_eq_ok]
        refine congrArg Except.ok (decide_eq_decide.2 ?_)
        rw [hiff, eq_comm]
        exact (or_iff_right hne).symm
      · have hne : ¬ (p.value = l ++ [0] ∨ p.value = l) := by
          intro heq
          rcases heq with heq | heq
          · exact hfull (by rw [heq]; simp)
          · exact hbare (by rw [heq])
        rw [if_neg (not_or.2 ⟨hfull, hbare⟩), pure_eq_ok]
        exact congrArg Except.ok (decide_eq_false hne).symm

/-- What a pass does at a node that is ahead. -/
theorem findNodeStep_eq (h : b.In v) (hfuel : b.totalsize < fuel) {wanted : Nat → Result Bool}
    {m : Node} {ms : List Node} (hahead : b.Ahead (m :: ms)) {found : Bool}
    (hw : wanted m.addr = .ok found) :
    findNodeStep fuel v b.fdt wanted m.addr =
      .ok (if found then .inr m.addr else .inl (nodesPtr ms)) := by
  obtain ⟨hpos, hnext, -⟩ := h.ahead_cons hfuel hahead
  rw [findNodeStep, if_neg hpos, hw, ok_bind]
  cases found with
  | true => rfl
  | false =>
    rw [if_neg Bool.false_ne_true, hnext]
    rfl

/-- The search goes through the nodes that are still ahead. -/
theorem findNode_loop_eq (h : b.In v) (hfuel : b.totalsize < fuel) {wanted : Nat → Result Bool}
    {p : Node → Bool} (hw : ∀ m ∈ b.nodes, wanted m.addr = .ok (p m)) {todo : List Node}
    (htodo : ∀ m ∈ todo, m ∈ b.nodes) (hahead : b.Ahead todo) {n : Nat} (hn : todo.length < n) :
    loop .outOfFuel (findNodeStep fuel v b.fdt wanted) n (nodesPtr todo) =
      .ok (nodesPtr (todo.filter p)) := by
  induction todo generalizing n with
  | nil =>
    obtain ⟨k, rfl⟩ : ∃ k, n = k + 1 := ⟨n - 1, by omega⟩
    exact loop_leave rfl
  | cons m ms ih =>
    obtain ⟨k, rfl⟩ : ∃ k, n = k + 1 := ⟨n - 1, by omega⟩
    have hstep := h.findNodeStep_eq hfuel hahead (hw m (htodo m List.mem_cons_self))
    have hptr : nodesPtr (m :: ms) = m.addr := rfl
    rw [hptr]
    by_cases hpm : p m = true
    · rw [if_pos hpm] at hstep
      rw [List.filter_cons_of_pos hpm, loop_leave hstep]
      rfl
    · rw [if_neg hpm] at hstep
      rw [List.filter_cons_of_neg hpm, loop_again _ hstep]
      exact ih (fun m' hm' => htodo m' (List.mem_cons_of_mem m hm')) (h.ahead_cons hfuel hahead).2.2
        (by simpa using hn)

theorem length_nodes_lt (h : b.In v) (hfuel : b.totalsize < fuel) : b.nodes.length < fuel := by
  have hsub := (entered_sublist b.tokens).length_le
  rw [b.entered_tokens, List.length_map, List.length_map] at hsub
  have := h.length_tokens
  have := b.sizeStruct_lt hfuel
  omega

/-- A search begins at the first of the nodes it goes through. -/
theorem findNodeBegin_eq (h : b.In v) (hfuel : b.totalsize < fuel) {start : Nat}
    {todo : List Node} (hafter : b.After start todo) :
    findNodeBegin fuel v b.fdt start = .ok (nodesPtr todo) ∧ todo.length < fuel ∧
      b.Ahead todo := by
  have hlen := h.length_nodes_lt hfuel
  rcases hafter with ⟨rfl, rfl⟩ | ⟨before, m, hnodes, rfl⟩
  · have hbegin := h.nodeBegin_eq (b.sizeStruct_lt hfuel)
    rw [b.entered_tokens] at hbegin
    refine ⟨?_, hlen, [], b.tokens, (List.nil_append b.tokens).symm, b.entered_tokens⟩
    rw [findNodeBegin, if_neg (by simp)]
    exact hbegin
  · have hentered := b.entered_tokens
    rw [hnodes, List.map_append, List.map_cons] at hentered
    obtain ⟨pre, name, rest, htok, hahead⟩ := exists_of_entered_eq_append hentered
    have hnext := h.nextNode_none_eq (b.sizeStruct_lt hfuel) htok
    rw [hahead] at hnext
    rw [hnodes, List.length_append, List.length_cons] at hlen
    refine ⟨?_, by omega, pre ++ [(m.addr, .beginNode name)], rest, by simpa using htok, hahead⟩
    rw [findNodeBegin, if_pos (h.token_pos htok).ne', hnext]
    rfl

/-- Whatever a search looks for, what it finds is one of the nodes it goes through. -/
theorem findNode_loop_mem (h : b.In v) (hfuel : b.totalsize < fuel) {wanted : Nat → Result Bool}
    {todo : List Node} (hahead : b.Ahead todo) {n r : Nat}
    (hr : loop .outOfFuel (findNodeStep fuel v b.fdt wanted) n (nodesPtr todo) = .ok r) :
    r = NULL ∨ ∃ m ∈ todo, r = m.addr := by
  induction todo generalizing n with
  | nil =>
    cases n with
    | zero => cases hr
    | succ n =>
      rw [loop_leave rfl] at hr
      exact .inl (Except.ok.inj hr).symm
  | cons m ms ih =>
    cases n with
    | zero => cases hr
    | succ n =>
      obtain ⟨hpos, -, hrest⟩ := h.ahead_cons hfuel hahead
      have hptr : nodesPtr (m :: ms) = m.addr := rfl
      rw [hptr] at hr
      cases hm : wanted m.addr with
      | error e =>
        have hstep : findNodeStep fuel v b.fdt wanted m.addr = .error e := by
          rw [findNodeStep, if_neg hpos, hm]
          rfl
        rw [loop_fail hstep] at hr
        cases hr
      | ok found =>
        have hstep := h.findNodeStep_eq hfuel hahead hm
        cases found with
        | true =>
          rw [loop_leave hstep] at hr
          exact .inr ⟨m, List.mem_cons_self, (Except.ok.inj hr).symm⟩
        | false =>
          rw [loop_again _ hstep] at hr
          rcases ih hrest hr with hnull | ⟨m', hm', hfound⟩
          · exact .inl hnull
          · exact .inr ⟨m', List.mem_cons_of_mem m hm', hfound⟩

theorem findCompatible_mem (h : b.In v) (hfuel : b.totalsize < fuel) {start r : Nat} {compat : CStr}
    {todo : List Node} (hafter : b.After start todo)
    (hr : fdtFindCompatibleNode fuel v b.fdt start compat = .ok r) :
    r = NULL ∨ ∃ m ∈ todo, r = m.addr := by
  obtain ⟨hbegin, -, hahead⟩ := h.findNodeBegin_eq hfuel hafter
  rw [fdtFindCompatibleNode, hbegin, ok_bind] at hr
  exact h.findNode_loop_mem hfuel hahead hr

/-- A search finds the first node that matches. -/
theorem findNode_after (h : b.In v) (hfuel : b.totalsize < fuel) (htype : type.Is l)
    (hl : l.length < fuel) (hl' : l.length + 1 < 2 ^ 64) {start : Nat} {todo : List Node}
    (hafter : b.After start todo) :
    fdtFindNodeByDeviceType fuel v b.fdt start type =
      .ok (nodesPtr (todo.filter fun n => n.hasType l)) := by
  obtain ⟨hbegin, hlen, hahead⟩ := h.findNodeBegin_eq hfuel hafter
  rw [fdtFindNodeByDeviceType, hbegin, ok_bind, strlen_eq htype hl, ok_bind]
  exact h.findNode_loop_eq hfuel (fun m hm => h.hasDeviceType_eq hfuel hm htype hl')
    hafter.mem hahead hlen

/-- A search from the start finds the first node that matches. -/
theorem findNode_begin (h : b.In v) (hfuel : b.totalsize < fuel) (htype : type.Is l)
    (hl : l.length < fuel) (hl' : l.length + 1 < 2 ^ 64) :
    fdtFindNodeByDeviceType fuel v b.fdt NULL type =
      .ok (nodesPtr (b.nodes.filter fun n => n.hasType l)) :=
  h.findNode_after hfuel htype hl hl' (.inl ⟨rfl, rfl⟩)

/-- A search that is resumed finds the next node that matches. -/
theorem findNode_next (h : b.In v) (hfuel : b.totalsize < fuel) (htype : type.Is l)
    (hl : l.length < fuel) (hl' : l.length + 1 < 2 ^ 64) {before todo : List Node} {m : Node}
    (hnodes : b.nodes = before ++ m :: todo) :
    fdtFindNodeByDeviceType fuel v b.fdt m.addr type =
      .ok (nodesPtr (todo.filter fun n => n.hasType l)) :=
  h.findNode_after hfuel htype hl hl' (.inr ⟨before, m, hnodes, rfl⟩)

end Blob.In

end RiscyOs
