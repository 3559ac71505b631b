import RiscyOs.Fdt.Walk

/-!
# The parents of a node

`fdt_node_get_parents` walks over the nodes until it meets the given one, and keeps the branch that
leads to the current node in an array: the entry at a node's depth is overwritten when the walk
gets to the node.

* `Blob.StructIn.addrs_nodup`: no two nodes start at the same address.
* `Blob.StructIn.getParents_take`: the result is the list of the node's ancestors, nearest first,
  cut to the length of the array.
-/

namespace RiscyOs

open ByteMemory FuelLoop

/-! ## Addresses -/

theorem Laid.le_of_mem {v : View} {p q : Nat} {xs : List (Nat × Token)} (h : Laid v p xs q)
    {x : Nat × Token} (hx : x ∈ xs) : p ≤ x.1 := by
  induction xs generalizing p with
  | nil => cases hx
  | cons y xs ih =>
    obtain ⟨ha, -, hrest⟩ := h
    rcases List.mem_cons.1 hx with rfl | hx
    · exact ha.ge
    · exact (Nat.le_add_right p _).trans (ih hrest hx)

/-- Tokens follow each other. -/
theorem Laid.pairwise {v : View} {p q : Nat} {xs : List (Nat × Token)} (h : Laid v p xs q) :
    xs.Pairwise fun x y => x.1 < y.1 := by
  induction xs generalizing p with
  | nil => exact .nil
  | cons x xs ih =>
    obtain ⟨ha, -, hrest⟩ := h
    refine List.pairwise_cons.2 ⟨fun y hy => ?_, ih hrest⟩
    have := hrest.le_of_mem hy
    have := x.2.four_le_size
    omega

/-- The nodes entered are among the tokens, in order. -/
theorem entered_sublist (ts : List (Nat × Token)) :
    (Forest.entered (events ts)).Sublist (ts.map Prod.fst) := by
  induction ts with
  | nil => exact .slnil
  | cons x ts ih =>
    obtain ⟨a, t⟩ := x
    cases t with
    | beginNode name => exact ih.cons_cons a
    | endNode => exact ih.cons a
    | prop nameOff value => exact ih.cons a
    | nop => exact ih.cons a
    | fdtEnd => exact ih.cons a

namespace Blob

/-- The nodes with their ancestors, nearest first, in preorder. -/
def paths (b : Blob) : List (Node × List Node) := b.tree.paths []

theorem paths_map_fst (b : Blob) : b.paths.map Prod.fst = b.nodes := b.tree.paths_map_fst []

theorem exists_mem_paths (b : Blob) {n : Node} (hn : n ∈ b.nodes) :
    ∃ anc, (n, anc) ∈ b.paths := by
  rw [← b.paths_map_fst, List.mem_map] at hn
  obtain ⟨⟨m, anc⟩, hmem, rfl⟩ := hn
  exact ⟨anc, hmem⟩

theorem mem_nodes_of_mem_paths {b : Blob} {n : Node} {anc : List Node} (h : (n, anc) ∈ b.paths) :
    ∀ m ∈ n :: anc, m ∈ b.nodes := by
  intro m hm
  rcases List.mem_cons.1 hm with rfl | hm
  · rw [← b.paths_map_fst]
    exact List.mem_map_of_mem (f := Prod.fst) h
  · exact (Forest.mem_labels_of_mem_paths h hm).resolve_right List.not_mem_nil

theorem entered_tokens (b : Blob) :
    Forest.entered (events b.tokens) = b.nodes.map Node.addr := by
  rw [b.events_tokens, Forest.entered_tour, Forest.labels_map]
  rfl

theorem ancestry_tokens (b : Blob) : Forest.ancestry [] (events b.tokens) =
    b.paths.map fun p => (p.1.addr, p.2.map Node.addr) := by
  have htour := Forest.ancestry_tour (b.tree.map Node.addr) [] []
  rw [List.append_nil, Forest.ancestry, List.append_nil] at htour
  rw [b.events_tokens, htour]
  exact Forest.paths_map Node.addr b.tree []

/-- The depth of a node is the number of its ancestors. -/
theorem depths_eq_ancestry (b : Blob) : Forest.depths 0 (events b.tokens) =
    (Forest.ancestry [] (events b.tokens)).map fun p => (p.1, (p.2.length : Int)) := by
  have hvisits : b.tree.visits 0 = b.paths.map fun p => (p.1, p.2.length) :=
    b.tree.visits_eq_paths []
  rw [b.depths_tokens, b.ancestry_tokens, visits, hvisits, List.map_map, List.map_map]
  apply List.map_congr_left
  intro p _
  simp

end Blob

/-- Where the node entered next stands, and what the stack and the depth are there. -/
theorem exists_of_ancestry_eq_cons {a : Nat} {stk stk' : List Nat} {L : List (Nat × List Nat)}
    {rest : List (Nat × Token)} (h : Forest.ancestry stk (events rest) = (a, stk') :: L) :
    stk' <:+ stk ∧ ∃ mid name rest', rest = mid ++ (a, .beginNode name) :: rest' ∧
      L = Forest.ancestry (a :: stk') (events rest') ∧
      ∀ d, ∃ d',
        Forest.depths d (events rest) = (a, d') :: Forest.depths (d' + 1) (events rest') := by
  induction rest generalizing stk with
  | nil => cases h
  | cons x rest ih =>
    obtain ⟨c, t⟩ := x
    cases t with
    | beginNode name =>
      obtain ⟨hhead, rfl⟩ := List.cons.inj h
      obtain ⟨rfl, rfl⟩ := Prod.mk.inj hhead
      exact ⟨List.suffix_refl stk, [], name, rest, rfl, rfl, fun d => ⟨d, rfl⟩⟩
    | endNode =>
      obtain ⟨hsuf, mid, name, rest', rfl, hL, hd⟩ :=
        ih (show Forest.ancestry stk.tail (events rest) = (a, stk') :: L from h)
      exact ⟨hsuf.trans (List.tail_suffix stk), (c, .endNode) :: mid, name, rest', rfl, hL,
        fun d => hd (d - 1)⟩
    | prop nameOff value =>
      obtain ⟨hsuf, mid, name, rest', rfl, hL, hd⟩ := ih h
      exact ⟨hsuf, (c, .prop nameOff value) :: mid, name, rest', rfl, hL, hd⟩
    | nop =>
      obtain ⟨hsuf, mid, name, rest', rfl, hL, hd⟩ := ih h
      exact ⟨hsuf, (c, .nop) :: mid, name, rest', rfl, hL, hd⟩
    | fdtEnd =>
      obtain ⟨hsuf, mid, name, rest', rfl, hL, hd⟩ := ih h
      exact ⟨hsuf, (c, .fdtEnd) :: mid, name, rest', rfl, hL, hd⟩

/-! ## The branch -/

/-- The array holds the stack, the root first. -/
def Branch (arr : PtrArray) (stk : List Nat) : Prop := stk.reverse.map some <+: arr

theorem Branch.suffix {arr : PtrArray} {stk stk' : List Nat} (h : Branch arr stk)
    (hsuf : stk' <:+ stk) : Branch arr stk' :=
  ((List.reverse_prefix.2 hsuf).map some).trans h

/-- Writing a node at its depth puts it on the branch. -/
theorem Branch.set {arr : PtrArray} {stk : List Nat} (h : Branch arr stk) (a : Nat)
    (hlen : stk.length < arr.length) :
    ∃ arr', PtrArray.set arr stk.length a = .ok arr' ∧ Branch arr' (a :: stk) ∧
      arr'.length = arr.length := by
  obtain ⟨more, rfl⟩ := h
  have hpre : (stk.reverse.map some).length = stk.length := by simp
  cases more with
  | nil => simp at hlen
  | cons old more =>
    refine ⟨stk.reverse.map some ++ some a :: more, ?_, ⟨more, by simp⟩, by simp⟩
    have hrange : (0 : Int) ≤ stk.length ∧
        (stk.length : Int) < (stk.reverse.map some ++ old :: more).length := by
      omega
    rw [PtrArray.set, if_pos hrange, Int.toNat_natCast]
    congr 1
    rw [List.set_append_right _ _ hpre.le, hpre, Nat.sub_self, List.set_cons_zero]

theorem Branch.get {arr : PtrArray} {stk : List Nat} (h : Branch arr stk) {i : Nat}
    (hi : i < stk.length) :
    PtrArray.get arr ((stk.length : Int) - (i + 1)) = .ok (stk.getD i NULL) := by
  obtain ⟨more, rfl⟩ := h
  have hidx : ((stk.length : Int) - (i + 1)) = ((stk.length - 1 - i : Nat) : Int) := by omega
  have hlt : stk.length - 1 - i < (stk.reverse.map some).length := by simp; omega
  have hval : (stk.reverse.map some ++ more)[stk.length - 1 - i]? = some (some stk[i]) := by
    rw [List.getElem?_append_left hlt, List.getElem?_map, List.getElem?_reverse (by omega)]
    have hback : stk.length - 1 - (stk.length - 1 - i) = i := by omega
    rw [hback, List.getElem?_eq_getElem hi]
    rfl
  rw [hidx, PtrArray.get, if_pos (Int.natCast_nonneg _), Int.toNat_natCast, hval]
  simp [List.getD_eq_getElem?_getD, List.getElem?_eq_getElem hi]

theorem mapM_eq_ok {α β : Type} {f : α → Result β} {g : α → β} {xs : List α}
    (h : ∀ x ∈ xs, f x = .ok (g x)) : xs.mapM f = .ok (xs.map g) := by
  induction xs with
  | nil => rfl
  | cons x xs ih =>
    rw [List.mapM_cons, h x List.mem_cons_self, ok_bind,
      ih fun y hy => h y (List.mem_cons_of_mem x hy), ok_bind]
    rfl

theorem ofSigned_natCast {n : Nat} (h : n < 2 ^ 64) : ofSigned n = n := by
  unfold ofSigned
  omega

namespace Stream

variable {v : View} {fdt start stop fuel a c : Nat} {t : Token} {ts pre rest : List (Nat × Token)}
  {d : Int} {arr arr' : PtrArray}

/-- The walk stops at the node. -/
theorem parentsStep_self (h : Stream v fdt start stop ts) (htok : ts = pre ++ (a, t) :: rest) :
    parentsStep fuel v fdt a (a, d, arr) = .ok (.inr (d, arr)) := by
  simp only [parentsStep, if_neg (h.token_pos htok).ne', if_true, pure_eq_ok]

/-- At another node it writes the branch, and goes on to the node entered next. -/
theorem parentsStep_eq (h : Stream v fdt start stop ts) (hfuel : stop < start + fuel)
    (htok : ts = pre ++ (a, t) :: rest) (hac : a ≠ c) (hset : PtrArray.set arr d a = .ok arr') :
    parentsStep fuel v fdt c (a, d, arr) =
      .ok (.inl ((firstVisit d (Forest.depths (d + 1) (events rest))).1,
        (firstVisit d (Forest.depths (d + 1) (events rest))).2, arr')) := by
  simp only [parentsStep, if_neg (h.token_pos htok).ne', if_neg hac, hset, ok_bind,
    h.nextNode_eq hfuel htok]
  rfl

end Stream

namespace Blob.StructIn

variable {b : Blob} {v : View} {fuel a : Nat} {name : List UInt8} {pre rest : List (Nat × Token)}

theorem addrs_nodup (h : b.StructIn v) : (b.nodes.map Node.addr).Nodup := by
  have hsorted : (b.tokens.map Prod.fst).Pairwise (· < ·) :=
    List.pairwise_map.2 h.laid.pairwise
  rw [← b.entered_tokens]
  exact (hsorted.sublist (entered_sublist b.tokens)).imp ne_of_lt

/-- The height of the tree is an address at most. -/
theorem height_lt (h : b.StructIn v) : b.tree.height < 2 ^ 64 := by
  have hle : b.tree.height ≤ b.tokens.length := by
    have hlevels := b.tree.levels_le_length_labels
    have hsub := (entered_sublist b.tokens).length_le
    rw [b.entered_tokens, List.length_map, List.length_map] at hsub
    unfold Forest.height
    exact (Nat.sub_le _ 1).trans (hlevels.trans hsub)
  have := h.length_tokens
  have := b.struct_le
  have := b.noWrap
  omega

/-- The walk stops at the node `c`, with the ancestors of `c` on the branch. -/
theorem parents_loop_eq (h : b.StructIn v) (hfuel : b.sizeStruct < fuel) {n c : Nat}
    (stk : List Nat) {anc : List Nat} (arr : PtrArray)
    (htok : b.tokens = pre ++ (a, .beginNode name) :: rest)
    (hdepth : Forest.depths (stk.length + 1) (events rest) =
      (Forest.ancestry (a :: stk) (events rest)).map fun p => (p.1, (p.2.length : Int)))
    (hroom : ∀ p ∈ (a, stk) :: Forest.ancestry (a :: stk) (events rest), p.2.length < arr.length)
    (hnodup : (((a, stk) :: Forest.ancestry (a :: stk) (events rest)).map Prod.fst).Nodup)
    (hc : (c, anc) ∈ (a, stk) :: Forest.ancestry (a :: stk) (events rest)) (harr : Branch arr stk)
    (hn : (Forest.ancestry (a :: stk) (events rest)).length + 1 < n) :
    ∃ arr', loop .outOfFuel (parentsStep fuel v b.fdt c) n (a, (stk.length : Int), arr) =
      .ok ((anc.length : Int), arr') ∧ Branch arr' anc := by
  induction n generalizing pre a name rest stk arr with
  | zero => omega
  | succ n ih =>
    by_cases hac : a = c
    · subst hac
      have hanc : anc = stk := by
        rcases List.mem_cons.1 hc with heq | hmem
        · exact (Prod.mk.inj heq).2
        · rw [List.map_cons, List.nodup_cons] at hnodup
          exact absurd (List.mem_map_of_mem (f := Prod.fst) hmem) hnodup.1
      subst hanc
      exact ⟨arr, loop_leave (h.stream.parentsStep_self htok), harr⟩
    · have hc' : (c, anc) ∈ Forest.ancestry (a :: stk) (events rest) := by
        rcases List.mem_cons.1 hc with heq | hmem
        · exact absurd (Prod.mk.inj heq).1.symm hac
        · exact hmem
      obtain ⟨arr', hset, hbranch, hlen⟩ := harr.set a (hroom _ List.mem_cons_self)
      cases hL : Forest.ancestry (a :: stk) (events rest) with
      | nil =>
        rw [hL] at hc'
        cases hc'
      | cons p L =>
        obtain ⟨a', stk'⟩ := p
        obtain ⟨hsuf, mid, name', rest', hrest, hL', hnext⟩ := exists_of_ancestry_eq_cons hL
        obtain ⟨d', hd'⟩ := hnext (stk.length + 1)
        rw [hL, List.map_cons] at hdepth
        obtain ⟨hhead, htail⟩ := List.cons.inj (hd'.symm.trans hdepth)
        obtain rfl : d' = stk'.length := (Prod.mk.inj hhead).2
        have hstep := h.stream.parentsStep_eq (h.fuel_lt hfuel) htok hac hset
        rw [hd'] at hstep
        rw [loop_again (a', (stk'.length : Int), arr') hstep]
        have htok' : b.tokens = (pre ++ (a, .beginNode name) :: mid) ++
            (a', .beginNode name') :: rest' := by
          rw [htok, hrest]
          simp
        rw [hL, hL'] at hroom hnodup
        rw [hL, hL'] at hc'
        rw [hL, hL', List.length_cons] at hn
        refine ih stk' arr' htok' (by rw [htail, hL']) ?_ ?_ hc' (hbranch.suffix hsuf) (by omega)
        · intro p hp
          rw [hlen]
          exact hroom p (List.mem_cons_of_mem _ hp)
        · rw [List.map_cons, List.nodup_cons] at hnodup
          exact hnodup.2

/-- **`fdt_node_get_parents` returns the ancestors of a node, nearest first**, as many as the array
has room for. -/
theorem getParents_take (h : b.StructIn v) (hfuel : b.sizeStruct < fuel) {n : Node}
    {anc : List Node} (hmem : (n, anc) ∈ b.paths) (len : Nat) :
    fdtNodeGetParents fuel v b.fdt n.addr len = .ok ((anc.take len).map Node.addr) := by
  have hheight := h.height_lt
  have hlen : ∀ p ∈ b.paths, p.2.length ≤ b.tree.height := fun p hp => Forest.length_le_height hp
  have hc : (n.addr, anc.map Node.addr) ∈ Forest.ancestry [] (events b.tokens) := by
    rw [b.ancestry_tokens]
    exact List.mem_map_of_mem (f := fun p : Node × List Node => (p.1.addr, p.2.map Node.addr)) hmem
  cases hL : Forest.ancestry [] (events b.tokens) with
  | nil =>
    rw [hL] at hc
    cases hc
  | cons p L =>
    obtain ⟨a, stk⟩ := p
    obtain ⟨hsuf, mid, name, rest, htok, hL', hnext⟩ := exists_of_ancestry_eq_cons hL
    obtain rfl : stk = [] := List.suffix_nil.1 hsuf
    obtain ⟨d', hd'⟩ := hnext 0
    have hdepth := b.depths_eq_ancestry
    rw [hL, List.map_cons, hd'] at hdepth
    obtain ⟨hhead, htail⟩ := List.cons.inj hdepth
    obtain rfl : d' = 0 := (Prod.mk.inj hhead).2
    have hbegin : fdtNodeBegin fuel v b.fdt = .ok a := by
      rw [h.nodeBegin_eq hfuel, ← Forest.ancestry_map_fst [], hL]
      rfl
    rw [hL'] at hL htail
    have harr : (List.replicate ((b.tree.height : Int) + 1).toNat (none : Option Nat)).length =
        b.tree.height + 1 := by
      rw [List.length_replicate]
      omega
    obtain ⟨arr', hloop, hbranch⟩ := h.parents_loop_eq (n := fuel) (c := n.addr) hfuel []
      (List.replicate ((b.tree.height : Int) + 1).toNat none) htok htail
      (by
        rw [← hL, b.ancestry_tokens, harr]
        intro p hp
        obtain ⟨q, hq, rfl⟩ := List.mem_map.1 hp
        rw [List.length_map]
        exact Nat.lt_succ_of_le (hlen q hq))
      (by
        rw [← hL, Forest.ancestry_map_fst, b.entered_tokens]
        exact h.addrs_nodup)
      (by rwa [← hL]) List.nil_prefix
      (by
        have hle := (entered_sublist rest).length_le
        have hlt := h.rest_lt hfuel htok
        rw [← Forest.ancestry_map_fst [a], List.length_map, List.length_map] at hle
        omega)
    have hanc : anc.length ≤ b.tree.height := hlen _ hmem
    rw [List.length_map] at hloop
    unfold fdtNodeGetParents
    rw [h.maxDepth_eq hfuel, ok_bind, if_neg (by omega), hbegin, ok_bind]
    dsimp only
    have hzero : (([] : List Nat).length : Int) = 0 := rfl
    rw [hzero] at hloop
    rw [hloop, ok_bind]
    dsimp only
    rw [ofSigned_natCast (by omega : anc.length < 2 ^ 64)]
    have hnum : (if len < anc.length then len else anc.length) = (anc.take len).length := by
      rw [List.length_take]
      split_ifs <;> omega
    rw [hnum, mapM_eq_ok (g := fun i => (anc.map Node.addr).getD i NULL)]
    · congr 1
      refine List.ext_getElem (by simp) fun i hi hi' => ?_
      simp only [List.length_map, List.length_take] at hi'
      have hlt : i < anc.length := by omega
      simp [List.getD_eq_getElem?_getD, hlt]
    · intro i hi
      have hlt : i < anc.length := by
        rw [List.mem_range, List.length_take] at hi
        omega
      have := hbranch.get (i := i) (by simpa using hlt)
      rwa [List.length_map] at this

theorem getParents_eq (h : b.StructIn v) (hfuel : b.sizeStruct < fuel) {n : Node}
    {anc : List Node} (hmem : (n, anc) ∈ b.paths) :
    fdtNodeGetParents fuel v b.fdt n.addr b.tree.height = .ok (anc.map Node.addr) := by
  rw [h.getParents_take hfuel hmem, List.take_of_length_le (Forest.length_le_height hmem)]

end Blob.StructIn

end RiscyOs
