import RiscyOs.Fdt.Token

/-!
# Walking over all nodes

* `Stream.nodeBegin_cases`, `Stream.nextNode_eq`: one step of the walk goes to the next node
  entered, whatever tokens stand in between, and the depth goes up by one less the nodes left.
* `Stream.maxDepth_eq`: the walk over any sequence of tokens, balanced or not.
* `fdtWalk_eq`: the walk visits every node once, in preorder, with its depth, and `fdt_max_depth`
  is the height of the tree.
-/

namespace RiscyOs

open ByteMemory FuelLoop

/-- `fdt_node_begin`, then `fdt_next_node` with a depth counter, until there are no more nodes. -/
def walkFrom (fuel : Nat) (v : View) (fdt : Nat) : Nat → Nat → Int → Result (List (Nat × Int))
  | 0, _, _ => .error .outOfFuel
  | n + 1, node, depth =>
    if node = NULL then .ok [] else do
      let (next, depth') ← fdtNextNode fuel v fdt node (some depth)
      let rest ← walkFrom fuel v fdt n next (depth'.getD depth)
      return (node, depth) :: rest

def fdtWalk (fuel : Nat) (v : View) (fdt : Nat) : Result (List (Nat × Int)) := do
  let node ← fdtNodeBegin fuel v fdt
  walkFrom fuel v fdt fuel node 0

/-! ## Scanning for the next node -/

/-- The first node of a list of visits, or `NULL` and the depth `d`. -/
def firstVisit (d : Int) : List (Nat × Int) → Nat × Int
  | [] => (NULL, d)
  | p :: _ => p

/-- The running maximum of `fdt_max_depth`. -/
def deeper (maxDepth : Int) (p : Nat × Int) : Int := if p.2 > maxDepth then p.2 else maxDepth

theorem scan_nextNode (d inc : Int) (rest : List (Nat × Token)) :
    scan (nextNodeVisit (some d)) (fun _ => (NULL, some d)) rest inc =
      ((firstVisit d (Forest.depths (d + inc) (events rest))).1,
        some (firstVisit d (Forest.depths (d + inc) (events rest))).2) := by
  induction rest generalizing inc with
  | nil => rfl
  | cons x rest ih =>
    obtain ⟨a, t⟩ := x
    cases t with
    | beginNode name => rfl
    | endNode =>
      have hback : d + (inc - 1) = d + inc - 1 := by omega
      exact (ih (inc - 1)).trans (by rw [hback]; rfl)
    | prop nameOff value => exact ih inc
    | nop => exact ih inc
    | fdtEnd => exact ih inc

theorem scan_nextNode_none (inc : Int) (rest : List (Nat × Token)) :
    scan (nextNodeVisit none) (fun _ => (NULL, none)) rest inc =
      ((Forest.entered (events rest)).headD NULL, none) := by
  induction rest generalizing inc with
  | nil => rfl
  | cons x rest ih =>
    obtain ⟨a, t⟩ := x
    cases t with
    | beginNode name => rfl
    | endNode => exact ih (inc - 1)
    | prop nameOff value => exact ih inc
    | nop => exact ih inc
    | fdtEnd => exact ih inc

theorem scan_nodeBegin (rest : List (Nat × Token)) :
    scan (fun token ptr _ => if token = FDT_BEGIN_NODE then .inr ptr else .inl ()) (fun _ => NULL)
      rest () = (Forest.entered (events rest)).headD NULL := by
  induction rest with
  | nil => rfl
  | cons x rest ih =>
    obtain ⟨a, t⟩ := x
    cases t with
    | beginNode name => rfl
    | endNode => exact ih
    | prop nameOff value => exact ih
    | nop => exact ih
    | fdtEnd => exact ih

/-- Where the next node stands among the tokens. -/
theorem exists_of_depths_eq_cons {d da : Int} {a : Nat} {L : List (Nat × Int)}
    {rest : List (Nat × Token)} (h : Forest.depths d (events rest) = (a, da) :: L) :
    ∃ mid name rest', rest = mid ++ (a, .beginNode name) :: rest' ∧
      L = Forest.depths (da + 1) (events rest') := by
  induction rest generalizing d with
  | nil => cases h
  | cons x rest ih =>
    obtain ⟨c, t⟩ := x
    cases t with
    | beginNode name =>
      have h : (c, d) :: Forest.depths (d + 1) (events rest) = (a, da) :: L := h
      obtain ⟨hhead, rfl⟩ := List.cons.inj h
      obtain ⟨rfl, rfl⟩ := Prod.mk.inj hhead
      exact ⟨[], name, rest, rfl, rfl⟩
    | endNode =>
      obtain ⟨mid, name, rest', rfl, hL⟩ := ih (d := d - 1) h
      exact ⟨(c, .endNode) :: mid, name, rest', rfl, hL⟩
    | prop nameOff value =>
      obtain ⟨mid, name, rest', rfl, hL⟩ := ih h
      exact ⟨(c, .prop nameOff value) :: mid, name, rest', rfl, hL⟩
    | nop =>
      obtain ⟨mid, name, rest', rfl, hL⟩ := ih h
      exact ⟨(c, .nop) :: mid, name, rest', rfl, hL⟩
    | fdtEnd =>
      obtain ⟨mid, name, rest', rfl, hL⟩ := ih h
      exact ⟨(c, .fdtEnd) :: mid, name, rest', rfl, hL⟩

theorem exists_of_entered_eq_cons {a : Nat} {L : List Nat} {rest : List (Nat × Token)}
    (h : Forest.entered (events rest) = a :: L) :
    ∃ mid name rest', rest = mid ++ (a, .beginNode name) :: rest' ∧
      L = Forest.entered (events rest') := by
  rw [← Forest.depths_map_fst 0] at h
  obtain ⟨⟨a', da⟩, L', hdepths, rfl, rfl⟩ := List.map_eq_cons_iff.1 h
  obtain ⟨mid, name, rest', hrest, rfl⟩ := exists_of_depths_eq_cons hdepths
  exact ⟨mid, name, rest', hrest, Forest.depths_map_fst _ _⟩

/-- The nodes entered along a run of tokens, with their depths. The first node is at depth `0`,
whatever nodes are left before it. -/
def nodeVisits : List (Nat × Token) → List (Nat × Int)
  | [] => []
  | (a, .beginNode _) :: rest => (a, 0) :: Forest.depths 1 (events rest)
  | _ :: rest => nodeVisits rest

/-- Where the first node stands among the tokens. -/
theorem nodeVisits_cases (ts : List (Nat × Token)) :
    nodeVisits ts = [] ∧ Forest.entered (events ts) = [] ∨
    ∃ mid a name rest, ts = mid ++ (a, .beginNode name) :: rest ∧
      nodeVisits ts = (a, 0) :: Forest.depths 1 (events rest) ∧
      Forest.entered (events ts) = a :: Forest.entered (events rest) := by
  induction ts with
  | nil => exact .inl ⟨rfl, rfl⟩
  | cons x ts ih =>
    obtain ⟨c, t⟩ := x
    cases t with
    | beginNode name => exact .inr ⟨[], c, name, ts, rfl, rfl, rfl⟩
    | endNode =>
      exact ih.imp id fun ⟨mid, a, name, rest, hts, h⟩ =>
        ⟨(c, .endNode) :: mid, a, name, rest, congrArg _ hts, h⟩
    | prop nameOff value =>
      exact ih.imp id fun ⟨mid, a, name, rest, hts, h⟩ =>
        ⟨(c, .prop nameOff value) :: mid, a, name, rest, congrArg _ hts, h⟩
    | nop =>
      exact ih.imp id fun ⟨mid, a, name, rest, hts, h⟩ =>
        ⟨(c, .nop) :: mid, a, name, rest, congrArg _ hts, h⟩
    | fdtEnd =>
      exact ih.imp id fun ⟨mid, a, name, rest, hts, h⟩ =>
        ⟨(c, .fdtEnd) :: mid, a, name, rest, congrArg _ hts, h⟩

theorem nodeVisits_eq_depths {ts : List (Nat × Token)} (h : ∀ es, events ts ≠ .leave :: es) :
    nodeVisits ts = Forest.depths 0 (events ts) := by
  induction ts with
  | nil => rfl
  | cons x ts ih =>
    obtain ⟨a, t⟩ := x
    cases t with
    | beginNode name => rfl
    | endNode => exact absurd rfl (h (events ts))
    | prop nameOff value => exact ih h
    | nop => exact ih h
    | fdtEnd => exact ih h

namespace Stream

variable {v : View} {fdt start stop fuel a : Nat} {t : Token} {name : List UInt8}
  {ts pre rest : List (Nat × Token)}

theorem nodeBegin_eq (h : Stream v fdt start stop ts) (hfuel : stop < start + fuel)
    (hne : ts ≠ []) :
    fdtNodeBegin fuel v fdt = .ok ((Forest.entered (events ts)).headD NULL) := by
  rw [fdtNodeBegin, h.tokenBegin_eq hne, ok_bind,
    h.tokenLoop_eq hfuel _ _ (List.nil_append ts).symm, scan_nodeBegin]

/-- **One step of the walk.** -/
theorem nextNode_eq (h : Stream v fdt start stop ts) (hfuel : stop < start + fuel)
    (htok : ts = pre ++ (a, t) :: rest) (d : Int) :
    fdtNextNode fuel v fdt a (some d) =
      .ok ((firstVisit d (Forest.depths (d + 1) (events rest))).1,
        some (firstVisit d (Forest.depths (d + 1) (events rest))).2) := by
  have hrest : ts = (pre ++ [(a, t)]) ++ rest := by simpa using htok
  rw [fdtNextNode, h.nextToken_eq hfuel htok, ok_bind, h.tokenLoop_eq hfuel _ _ hrest,
    scan_nextNode]

/-- One step of the walk without a depth counter. -/
theorem nextNode_none_eq (h : Stream v fdt start stop ts) (hfuel : stop < start + fuel)
    (htok : ts = pre ++ (a, t) :: rest) :
    fdtNextNode fuel v fdt a none = .ok ((Forest.entered (events rest)).headD NULL, none) := by
  have hrest : ts = (pre ++ [(a, t)]) ++ rest := by simpa using htok
  rw [fdtNextNode, h.nextToken_eq hfuel htok, ok_bind, h.tokenLoop_eq hfuel _ _ hrest,
    scan_nextNode_none]

/-- There are fewer nodes to visit than tokens. -/
theorem length_depths_lt (h : Stream v fdt start stop ts) (hfuel : stop < start + fuel)
    (htok : ts = pre ++ (a, t) :: rest) (d : Int) :
    (Forest.depths d (events rest)).length + 1 < fuel := by
  have hrest := h.rest_lt hfuel htok
  have hlen : (Forest.depths d (events rest)).length ≤ rest.length := by
    have hentered : ∀ es : List (Event Nat), (Forest.depths d es).length ≤ es.length := by
      intro es
      induction es generalizing d with
      | nil => exact le_rfl
      | cons e es ih => cases e <;> simp [Forest.depths, ih, Nat.le_succ_of_le]
    exact (hentered _).trans (List.length_filterMap_le _ _)
  omega

/-! ## The whole walk -/

/-- From a node on, the walk lists the nodes entered with a running depth. -/
theorem walkFrom_eq (h : Stream v fdt start stop ts) (hfuel : stop < start + fuel) {n : Nat}
    {d : Int} (htok : ts = pre ++ (a, .beginNode name) :: rest)
    (hn : (Forest.depths (d + 1) (events rest)).length + 1 < n) :
    walkFrom fuel v fdt n a d = .ok ((a, d) :: Forest.depths (d + 1) (events rest)) := by
  induction n generalizing pre a name rest d with
  | zero => omega
  | succ n ih =>
    rw [walkFrom, if_neg (h.token_pos htok).ne', h.nextNode_eq hfuel htok, ok_bind]
    cases hL : Forest.depths (d + 1) (events rest) with
    | nil =>
      obtain ⟨k, rfl⟩ : ∃ k, n = k + 1 := ⟨n - 1, by omega⟩
      rfl
    | cons p L =>
      obtain ⟨a', d'⟩ := p
      obtain ⟨mid, name', rest', rfl, rfl⟩ := exists_of_depths_eq_cons hL
      have htok' : ts = (pre ++ (a, .beginNode name) :: mid) ++
          (a', .beginNode name') :: rest' := by simpa using htok
      rw [hL, List.length_cons] at hn
      have hnext := ih (d := d') htok' (by omega)
      simp only [firstVisit, Option.getD_some, hnext, ok_bind, pure_eq_ok]

theorem maxDepth_loop_eq (h : Stream v fdt start stop ts) (hfuel : stop < start + fuel) {n : Nat}
    {d m : Int} (htok : ts = pre ++ (a, .beginNode name) :: rest)
    (hn : (Forest.depths (d + 1) (events rest)).length + 1 < n) :
    loop .outOfFuel (maxDepthStep fuel v fdt) n (a, d, m) =
      .ok (((a, d) :: Forest.depths (d + 1) (events rest)).foldl deeper m) := by
  induction n generalizing pre a name rest d m with
  | zero => omega
  | succ n ih =>
    have hstep := h.nextNode_eq hfuel htok d
    have hpos := h.token_pos htok
    cases hL : Forest.depths (d + 1) (events rest) with
    | nil =>
      obtain ⟨k, rfl⟩ : ∃ k, n = k + 1 := ⟨n - 1, by omega⟩
      rw [hL] at hstep
      rw [loop_again (NULL, d, deeper m (a, d))]
      · exact loop_leave rfl
      · simp only [maxDepthStep, if_neg hpos.ne', hstep, ok_bind]
        rfl
    | cons p L =>
      obtain ⟨a', d'⟩ := p
      obtain ⟨mid, name', rest', rfl, rfl⟩ := exists_of_depths_eq_cons hL
      have htok' : ts = (pre ++ (a, .beginNode name) :: mid) ++
          (a', .beginNode name') :: rest' := by simpa using htok
      rw [hL] at hstep
      rw [hL, List.length_cons] at hn
      rw [loop_again (a', d', deeper m (a, d))]
      · exact ih htok' (by omega)
      · simp only [maxDepthStep, if_neg hpos.ne', hstep, ok_bind]
        rfl

/-- The first node, where there is one, stands at depth `0`. -/
theorem nodeBegin_cases (h : Stream v fdt start stop ts) (hfuel : stop < start + fuel)
    (hne : ts ≠ []) :
    (nodeVisits ts = [] ∧ fdtNodeBegin fuel v fdt = .ok NULL) ∨
    ∃ mid a name rest, ts = mid ++ (a, .beginNode name) :: rest ∧
      nodeVisits ts = (a, 0) :: Forest.depths (0 + 1) (events rest) ∧
      fdtNodeBegin fuel v fdt = .ok a := by
  have hbegin := h.nodeBegin_eq hfuel hne
  rcases nodeVisits_cases ts with ⟨hnone, hentered⟩ | ⟨mid, a, name, rest, htok, hvisits, hentered⟩
  · rw [hentered] at hbegin
    exact .inl ⟨hnone, hbegin⟩
  · rw [hentered] at hbegin
    exact .inr ⟨mid, a, name, rest, htok, hvisits, hbegin⟩

theorem walk_eq (h : Stream v fdt start stop ts) (hfuel : stop < start + fuel) (hne : ts ≠ []) :
    fdtWalk fuel v fdt = .ok (nodeVisits ts) := by
  unfold fdtWalk
  rcases h.nodeBegin_cases hfuel hne with
    ⟨hnone, hbegin⟩ | ⟨mid, a, name, rest, htok, hvisits, hbegin⟩
  · obtain ⟨k, rfl⟩ : ∃ k, fuel = k + 1 := ⟨fuel - 1, by have := h.block.le; omega⟩
    rw [hbegin, ok_bind, hnone]
    rfl
  · rw [hbegin, ok_bind, hvisits]
    exact h.walkFrom_eq hfuel htok (h.length_depths_lt hfuel htok (0 + 1))

theorem maxDepth_eq (h : Stream v fdt start stop ts) (hfuel : stop < start + fuel) (hne : ts ≠ []) :
    fdtMaxDepth fuel v fdt = .ok ((nodeVisits ts).foldl deeper 0) := by
  unfold fdtMaxDepth
  rcases h.nodeBegin_cases hfuel hne with
    ⟨hnone, hbegin⟩ | ⟨mid, a, name, rest, htok, hvisits, hbegin⟩
  · obtain ⟨k, rfl⟩ : ∃ k, fuel = k + 1 := ⟨fuel - 1, by have := h.block.le; omega⟩
    rw [hbegin, ok_bind, hnone]
    exact loop_leave rfl
  · rw [hbegin, ok_bind, hvisits]
    exact h.maxDepth_loop_eq hfuel htok (h.length_depths_lt hfuel htok (0 + 1))

end Stream

/-! ## Blobs -/

/-- The nodes of the tree with their depths, as the walk reports them. -/
def Blob.visits (b : Blob) : List (Nat × Int) :=
  (b.tree.visits 0).map fun p => (p.1.addr, (p.2 : Int))

theorem Blob.depths_tokens (b : Blob) : Forest.depths 0 (events b.tokens) = b.visits := by
  have htour := Forest.depths_tour (b.tree.map Node.addr) 0 []
  rw [List.append_nil, Forest.depths, List.append_nil, Forest.visits_map, List.map_map] at htour
  rw [b.events_tokens]
  exact htour

/-- In a blob no node is left before the root is entered. -/
theorem Blob.nodeVisits_tokens (b : Blob) : nodeVisits b.tokens = b.visits := by
  have htour : ∀ es, events b.tokens ≠ .leave :: es := by
    intro es hes
    rw [b.events_tokens] at hes
    cases htree : b.tree with
    | nil =>
      rw [htree] at hes
      cases hes
    | cons root ch sib =>
      rw [htree] at hes
      cases hes
  rw [nodeVisits_eq_depths htour, b.depths_tokens]

theorem foldl_deeper (ps : List (Node × Nat)) (m : Nat) :
    (ps.map fun p => (p.1.addr, (p.2 : Int))).foldl deeper m =
      (ps.foldl (fun acc p => max acc p.2) m : Nat) := by
  induction ps generalizing m with
  | nil => rfl
  | cons p ps ih =>
    have hmax : deeper m (p.1.addr, (p.2 : Int)) = (max m p.2 : Nat) := by
      simp only [deeper]
      split_ifs <;> omega
    rw [List.map_cons, List.foldl_cons, List.foldl_cons, hmax, ih]

namespace Blob.StructIn

variable {b : Blob} {v : View} {fuel a : Nat} {t : Token} {pre rest : List (Nat × Token)}

theorem nodeBegin_eq (h : b.StructIn v) (hfuel : b.sizeStruct < fuel) :
    fdtNodeBegin fuel v b.fdt = .ok ((Forest.entered (events b.tokens)).headD NULL) :=
  h.stream.nodeBegin_eq (h.fuel_lt hfuel) b.tokens_ne_nil

theorem nextNode_none_eq (h : b.StructIn v) (hfuel : b.sizeStruct < fuel)
    (htok : b.tokens = pre ++ (a, t) :: rest) :
    fdtNextNode fuel v b.fdt a none = .ok ((Forest.entered (events rest)).headD NULL, none) :=
  h.stream.nextNode_none_eq (h.fuel_lt hfuel) htok

theorem walk_eq (h : b.StructIn v) (hfuel : b.sizeStruct < fuel) :
    fdtWalk fuel v b.fdt = .ok b.visits := by
  rw [h.stream.walk_eq (h.fuel_lt hfuel) b.tokens_ne_nil, b.nodeVisits_tokens]

theorem maxDepth_eq (h : b.StructIn v) (hfuel : b.sizeStruct < fuel) :
    fdtMaxDepth fuel v b.fdt = .ok (b.tree.height : Int) := by
  have hheight := Forest.foldl_max_visits b.tree 0 0
  rw [Nat.zero_add, Nat.zero_max] at hheight
  have hmax : b.visits.foldl deeper (0 : Nat) = (b.tree.height : Int) := by
    rw [Blob.visits, foldl_deeper, hheight]
    split_ifs with hnone
    · simp [Forest.height, hnone]
    · rfl
  rw [h.stream.maxDepth_eq (h.fuel_lt hfuel) b.tokens_ne_nil, b.nodeVisits_tokens]
  exact congrArg _ hmax

end Blob.StructIn

/-- **The walk visits every node once, in preorder, with its depth**, and `fdt_max_depth` is the
height of the tree. -/
theorem fdtWalk_eq {b : Blob} {v : View} {fuel : Nat} (h : b.StructIn v)
    (hfuel : b.sizeStruct < fuel) :
    fdtWalk fuel v b.fdt = .ok b.visits ∧ fdtMaxDepth fuel v b.fdt = .ok (b.tree.height : Int) :=
  ⟨h.walk_eq hfuel, h.maxDepth_eq hfuel⟩

/-- The walk over `board`. -/
theorem fdtWalk_board :
    fdtWalk 1000 boardView 0x1000 =
        .ok [(0x1048, 0), (0x1074, 1), (0x10d4, 1), (0x111c, 1), (0x1134, 2)] ∧
      fdtMaxDepth 1000 boardView 0x1000 = .ok 2 := by
  have hvisits : boardBlob.visits =
      [(0x1048, 0), (0x1074, 1), (0x10d4, 1), (0x111c, 1), (0x1134, 2)] := by decide
  have hheight : boardBlob.tree.height = 2 := by decide
  have h := fdtWalk_eq board_in.toStructIn (boardBlob.sizeStruct_lt board_fuel)
  rwa [hvisits, hheight] at h

end RiscyOs
