import RiscyOs.Fdt.Search

/-!
# Compatible nodes

The value of `compatible` is a list of terminated strings. `stringsOf` are the ones that end inside
a value, and `tailOf` is what is left of it after the last terminator. The loop of
`fdt_node_is_compatible` takes the strings off one by one; a tail has no terminator, and there it
runs out of the value.

* `isCompatible_iff`: when the loop looks at the value only, and finds what it should.
* `findAll_eq`: the nodes that resumed searches find one after the other.
-/

namespace RiscyOs

open ByteMemory FuelLoop

/-! ## Strings in a value -/

/-- The terminated strings of a value. -/
def stringsOf (value : List UInt8) : List (List UInt8) := (value.splitOn 0).dropLast

/-- What comes after the last terminator. -/
def tailOf (value : List UInt8) : List UInt8 := (value.splitOn 0).getLastD []

section Strings

variable {value s rest : List UInt8}

theorem strings_of_not_mem (h : 0 ∉ value) : stringsOf value = [] ∧ tailOf value = value := by
  rw [stringsOf, tailOf, List.splitOn_eq_singleton h]
  exact ⟨rfl, rfl⟩

/-- The first string, and the value after its terminator. -/
theorem strings_append (h : 0 ∉ s) :
    stringsOf (s ++ 0 :: rest) = s :: stringsOf rest ∧ tailOf (s ++ 0 :: rest) = tailOf rest := by
  have hsplit : (s ++ 0 :: rest).splitOn 0 = s :: rest.splitOn 0 := by
    rw [List.splitOn_append_cons_of_beq _ _ (by rfl), List.splitOn_eq_singleton h]
    rfl
  have hne := List.splitOn_ne_nil (0 : UInt8) rest
  obtain ⟨t, ts, hts⟩ := List.exists_cons_of_ne_nil hne
  rw [stringsOf, tailOf, stringsOf, tailOf, hsplit, hts]
  exact ⟨rfl, rfl⟩

theorem tailOf_nil : tailOf [] = [] := rfl

theorem exists_of_zero_mem (h : 0 ∈ value) : ∃ s rest, value = s ++ 0 :: rest ∧ 0 ∉ s :=
  List.eq_append_cons_of_mem h

end Strings

/-! ## The loop -/

variable {w : View} {fuel a n : Nat} {compat : CStr} {value l : List UInt8}

/-- `strlen` does not end inside bytes without a terminator. -/
theorem strlen_unterminated (hw : w.Holds a value) (hzero : 0 ∉ value)
    (hend : w (a + value.length) = none) (r : Nat) : strlen fuel ⟨w, a⟩ ≠ .ok r := by
  intro hrun
  obtain ⟨s, -, hs⟩ := strlen_is hrun
  have hheld : w.Holds a (s ++ [0]) := hs.holds.1
  rcases Nat.lt_or_ge s.length value.length with hlt | hge
  · have hlast := hheld.get (i := s.length) (by simp)
    rw [hw.get hlt, Option.some.injEq] at hlast
    exact hzero ((by simpa using hlast : value[s.length] = 0) ▸ List.getElem_mem hlt)
  · have hin := hheld.get (i := value.length) (by simp; omega)
    rw [hend] at hin
    cases hin

/-- One pass takes the first string off the value. -/
theorem compatibleStep_append {s rest : List UInt8} (hcompat : compat.Is l) (hl : l.length < fuel)
    (ha : 0 < a) (hw : w.Holds a (s ++ 0 :: rest)) (hs : 0 ∉ s)
    (hwrap : a + (s ++ 0 :: rest).length < 2 ^ 64) (hfuel : (s ++ 0 :: rest).length < fuel) :
    w.Holds (a + (s.length + 1)) rest ∧
      compatibleStep fuel w compat (a, (s ++ 0 :: rest).length) =
        .ok (if s = l then .inr true else .inl (a + (s.length + 1), rest.length)) := by
  rw [List.append_cons, View.holds_append, List.length_append, List.length_singleton] at hw
  have hlen : (s ++ 0 :: rest).length = s.length + 1 + rest.length := by
    rw [List.length_append, List.length_cons]
    omega
  have his : CStr.Is ⟨w, a⟩ s := ⟨ha.ne', hw.1, hs⟩
  obtain ⟨r, hr, hzero⟩ := strcmp_spec his hcompat hl
  rw [hlen] at hwrap hfuel ⊢
  have hlen' := strlen_eq his (show s.length < fuel by omega)
  have hcurr : wadd s.length 1 = s.length + 1 := wadd_eq (by omega)
  have hptr : wadd a (s.length + 1) = a + (s.length + 1) := wadd_eq (by omega)
  have hsub : wsub (s.length + 1 + rest.length) (s.length + 1) = rest.length := by
    rw [wsub_eq (Nat.le_add_right _ _) (by omega), Nat.add_sub_cancel_left]
  have hpos : s.length + 1 + rest.length ≠ 0 := by omega
  refine ⟨hw.2, ?_⟩
  simp only [compatibleStep, if_neg hpos, hlen', ok_bind, hr, hcurr, hptr, hsub, hzero]
  by_cases heq : s = l
  · rw [if_pos heq, if_pos heq]
    rfl
  · rw [if_neg heq, if_neg heq]
    rfl

/-- The loop looks at the strings in order, and never goes on to a tail. -/
theorem compatible_loop_eq (hcompat : compat.Is l) (hl : l.length < fuel) (ha : 0 < a)
    (hw : w.Holds a value) (hwrap : a + value.length < 2 ^ 64) (hfuel : value.length < fuel)
    (hok : tailOf value = [] ∨ l ∈ stringsOf value) (hn : value.length < n) :
    loop .outOfFuel (compatibleStep fuel w compat) n (a, value.length) =
      .ok (decide (l ∈ stringsOf value)) := by
  induction n generalizing a value with
  | zero => omega
  | succ n ih =>
    by_cases hzero : 0 ∈ value
    · obtain ⟨s, rest, rfl, hs⟩ := exists_of_zero_mem hzero
      obtain ⟨hrest, hstep⟩ := compatibleStep_append hcompat hl ha hw hs hwrap hfuel
      rw [List.length_append, List.length_cons] at hwrap hfuel hn
      rw [(strings_append hs).1, (strings_append hs).2] at hok
      rw [(strings_append hs).1]
      by_cases heq : s = l
      · rw [if_pos heq] at hstep
        rw [loop_leave hstep, heq]
        simp
      · rw [if_neg heq] at hstep
        have hmem : l ∈ s :: stringsOf rest ↔ l ∈ stringsOf rest := by simp [Ne.symm heq]
        rw [hmem] at hok
        rw [loop_again _ hstep, ih (by omega) hrest (by omega) (by omega) hok (by omega)]
        exact congrArg Except.ok (decide_eq_decide.2 hmem.symm)
    · obtain ⟨hstrings, htail⟩ := strings_of_not_mem hzero
      rw [hstrings, htail] at hok
      obtain rfl : value = [] := hok.resolve_right List.not_mem_nil
      exact loop_leave rfl

/-- Without the string before it, the loop goes on to a tail, and out of the value. -/
theorem compatible_loop_leaves (hcompat : compat.Is l) (hl : l.length < fuel) (ha : 0 < a)
    (hw : w.Holds a value) (hend : w (a + value.length) = none)
    (hwrap : a + value.length < 2 ^ 64) (hfuel : value.length < fuel) (htail : tailOf value ≠ [])
    (hnot : l ∉ stringsOf value) (r : Bool) :
    loop .outOfFuel (compatibleStep fuel w compat) n (a, value.length) ≠ .ok r := by
  induction n generalizing a value with
  | zero =>
    intro hrun
    cases hrun
  | succ n ih =>
    by_cases hzero : 0 ∈ value
    · obtain ⟨s, rest, rfl, hs⟩ := exists_of_zero_mem hzero
      obtain ⟨hrest, hstep⟩ := compatibleStep_append hcompat hl ha hw hs hwrap hfuel
      rw [(strings_append hs).1, List.mem_cons, not_or] at hnot
      rw [(strings_append hs).2] at htail
      rw [if_neg (Ne.symm hnot.1)] at hstep
      rw [loop_again _ hstep]
      rw [List.length_append, List.length_cons] at hwrap hfuel hend
      have hstop : a + (s.length + 1) + rest.length = a + (s.length + (rest.length + 1)) := by omega
      refine ih (by omega) hrest ?_ (by omega) (by omega) htail hnot.2
      rw [hstop, hend]
    · have hlen : value.length ≠ 0 := by
        intro hnil
        rw [List.length_eq_zero_iff] at hnil
        exact htail (hnil ▸ tailOf_nil)
      intro hrun
      cases hstr : strlen fuel ⟨w, a⟩ with
      | ok len => exact strlen_unterminated hw hzero hend len hstr
      | error e =>
        rw [loop_fail (e := e)] at hrun
        · cases hrun
        · rw [compatibleStep, if_neg hlen, hstr]
          rfl

/-! ## One node -/

/-- `fdtNodeIsCompatible` with the value of the property read through `w`. -/
def isCompatibleIn (fuel : Nat) (v w : View) (fdt : Nat) (compat : CStr) (node : Nat) :
    Result Bool := do
  let prop ← fdtGetPropByName fuel v fdt node NULL (CStr.lit (ascii "compatible"))
  if prop = NULL then return false
  let stringsLen ← fdtPropValLen v prop
  loop .outOfFuel (compatibleStep fuel w compat) fuel (fdtPropVal prop, stringsLen)

theorem isCompatibleIn_self (fuel : Nat) (v : View) (fdt : Nat) (compat : CStr) (node : Nat) :
    isCompatibleIn fuel v v fdt compat node = fdtNodeIsCompatible fuel v fdt compat node := rfl

/-- Is `l` one of the strings in the first `compatible` of the node? -/
def Node.compatibleWith (n : Node) (l : List UInt8) : Bool :=
  match n.prop? (ascii "compatible") with
  | none => false
  | some p => l ∈ stringsOf p.value

section Node

variable {b : Blob} {v : View} {m : Node} {p : PropNode}

theorem Blob.In.isCompatibleIn_eq (h : b.In v) (hfuel : b.totalsize < fuel) (hm : m ∈ b.nodes)
    (hp : m.prop? (ascii "compatible") = some p) :
    isCompatibleIn fuel v w b.fdt compat m.addr =
      loop .outOfFuel (compatibleStep fuel w compat) fuel (p.addr + 12, p.value.length) := by
  have hmem := mem_props_of_prop? hp
  rw [isCompatibleIn, h.getProp_eq hfuel hm (CStr.lit_is (by decide)), hp, ok_bind,
    if_neg (h.propPtr_ne hm hmem), propPtr, (h.prop_at hm hmem).2.2.1]
  rfl

theorem Blob.In.length_value_lt_fuel (h : b.In v) (hfuel : b.totalsize < fuel) (hm : m ∈ b.nodes)
    (hp : p ∈ m.props) : p.value.length < fuel := by
  obtain ⟨pre, rest, htok⟩ := b.exists_of_mem_props hm hp
  obtain ⟨-, -, hlaid⟩ := h.token_at htok
  have hle := hlaid.le
  have hpad := Token.length_le_padded p.value.length
  have hstart := (h.laid).le_of_mem (x := p.token) (by rw [htok]; simp)
  have := b.struct_le
  simp only [Token.size, PropNode.token, structStart] at hle hstart
  omega

/-- **When the strings of a node are looked at as they should**: the run takes no byte outside the
value and finds the string exactly when it is there, and so does the run in all of the memory. -/
theorem isCompatible_iff (h : b.In v) (hfuel : b.totalsize < fuel) (hm : m ∈ b.nodes)
    (hp : m.prop? (ascii "compatible") = some p) (hcompat : compat.Is l) (hl : l.length < fuel) :
    (isCompatibleIn fuel v (v.only (p.addr + 12) p.value.length) b.fdt compat m.addr =
        .ok (decide (l ∈ stringsOf p.value)) ∧
      fdtNodeIsCompatible fuel v b.fdt compat m.addr = .ok (decide (l ∈ stringsOf p.value))) ↔
      tailOf p.value = [] ∨ l ∈ stringsOf p.value := by
  have hmem := mem_props_of_prop? hp
  obtain ⟨hpos, hwrap, -, hvalue⟩ := h.prop_at hm hmem
  have hlen := h.length_value_lt_fuel hfuel hm hmem
  rw [← isCompatibleIn_self, h.isCompatibleIn_eq hfuel hm hp, h.isCompatibleIn_eq hfuel hm hp]
  constructor
  · rintro ⟨hrun, -⟩
    by_contra hnot
    rw [not_or] at hnot
    have hend : v.only (p.addr + 12) p.value.length (p.addr + 12 + p.value.length) = none :=
      if_neg (by omega)
    exact compatible_loop_leaves hcompat hl (by omega) hvalue.only hend hwrap hlen hnot.1 hnot.2 _
      hrun
  · intro hok
    exact ⟨compatible_loop_eq hcompat hl (by omega) hvalue.only hwrap hlen hok hlen,
      compatible_loop_eq hcompat hl (by omega) hvalue hwrap hlen hok hlen⟩

theorem Blob.In.isCompatible_eq (h : b.In v) (hfuel : b.totalsize < fuel) (hm : m ∈ b.nodes)
    (hcompat : compat.Is l) (hl : l.length < fuel)
    (hlist : ∀ p, m.prop? (ascii "compatible") = some p → tailOf p.value = []) :
    fdtNodeIsCompatible fuel v b.fdt compat m.addr = .ok (m.compatibleWith l) := by
  rw [Node.compatibleWith]
  cases hp : m.prop? (ascii "compatible") with
  | none =>
    rw [fdtNodeIsCompatible, h.getProp_eq hfuel hm (CStr.lit_is (by decide)), hp]
    rfl
  | some p =>
    have hmem := mem_props_of_prop? hp
    obtain ⟨hpos, hwrap, -, hvalue⟩ := h.prop_at hm hmem
    have hlen := h.length_value_lt_fuel hfuel hm hmem
    rw [← isCompatibleIn_self, h.isCompatibleIn_eq hfuel hm hp]
    exact compatible_loop_eq hcompat hl (by omega) hvalue hwrap hlen (.inl (hlist p hp)) hlen

end Node

/-! ## Lists and a bare string -/

/-- Two nodes with lists of compatible strings. -/
def devices : Source where
  reserve := []
  tokens :=
    [.beginNode [], .beginNode (ascii "test"),
      .prop 0 (ascii "sifive,test0" ++ 0 :: ascii "syscon" ++ [0]), .endNode,
      .beginNode (ascii "reboot"), .prop 0 (ascii "syscon" ++ [0]), .endNode, .endNode]
  strings := ascii "compatible" ++ [0]

def testStrings : PropNode :=
  ⟨0x104c, 0, ascii "compatible", ascii "sifive,test0" ++ 0 :: ascii "syscon" ++ [0]⟩

def testNode : Node := ⟨0x1040, ascii "test", [testStrings], 0x106c⟩

def rebootNode : Node :=
  ⟨0x1070, ascii "reboot", [⟨0x107c, 0, ascii "compatible", ascii "syscon" ++ [0]⟩], 0x1090⟩

theorem devices_fits : devices.Fits 0x1000
    (.cons ⟨0x1038, [], [], 0x1094⟩ (.cons testNode .nil (.cons rebootNode .nil .nil)) .nil) :=
  ⟨by decide, by decide, by decide, by decide, by decide, by decide, by decide⟩

def devicesView : View := View.ofList 0x1000 devices.encode

def devicesBlob : Blob := Source.blob devices_fits

theorem devices_in : devicesBlob.In devicesView :=
  Source.in_of_holds devices_fits (View.ofList_holds _ _)

/-- A node whose only compatible string is not terminated. -/
def bareString : Source where
  reserve := []
  tokens := [.beginNode [], .prop 0 (ascii "uart"), .endNode]
  strings := ascii "compatible" ++ [0]

def bareUart : PropNode := ⟨0x1040, 0, ascii "compatible", ascii "uart"⟩

def bareNode : Node := ⟨0x1038, [], [bareUart], 0x1050⟩

theorem bareString_fits : bareString.Fits 0x1000 (.cons bareNode .nil .nil) :=
  ⟨by decide, by decide, by decide, by decide, by decide, by decide, by decide⟩

def bareView : View := View.ofList 0x1000 bareString.encode

def bareBlob : Blob := Source.blob bareString_fits

theorem bare_in : bareBlob.In bareView :=
  Source.in_of_holds bareString_fits (View.ofList_holds _ _)

/-- The value has no terminated string, and the code finds one: a byte of the next token ends it. -/
theorem bareNode_compatible :
    bareBlob.In bareView ∧ bareNode ∈ bareBlob.nodes ∧
      bareNode.prop? (ascii "compatible") = some bareUart ∧ stringsOf bareUart.value = [] ∧
      fdtNodeIsCompatible 1000 bareView bareBlob.fdt (.lit (ascii "uart")) bareNode.addr =
        .ok true := by
  have hmem : bareNode ∈ bareBlob.nodes := by decide
  refine ⟨bare_in, hmem, rfl, by decide, ?_⟩
  rw [← isCompatibleIn_self, bare_in.isCompatibleIn_eq (p := bareUart) (by decide) hmem rfl]
  exact loop_leave (by decide)

/-- The second of two terminated strings. -/
theorem isCompatible_iff_test :
    (isCompatibleIn 1000 devicesView
          (devicesView.only (testStrings.addr + 12) testStrings.value.length)
          devicesBlob.fdt (.lit (ascii "syscon")) testNode.addr =
        .ok (decide (ascii "syscon" ∈ stringsOf testStrings.value)) ∧
      fdtNodeIsCompatible 1000 devicesView devicesBlob.fdt (.lit (ascii "syscon")) testNode.addr =
        .ok (decide (ascii "syscon" ∈ stringsOf testStrings.value))) ↔
      tailOf testStrings.value = [] ∨ ascii "syscon" ∈ stringsOf testStrings.value :=
  isCompatible_iff devices_in (by decide) (by decide) rfl (CStr.lit_is (by decide)) (by decide)

/-! ## All nodes that match -/

/-- Call `find` with `start`, then with what it found last, until it finds nothing. -/
def findAllFrom (find : Nat → Result Nat) : Nat → Nat → Result (List Nat)
  | 0, _ => .error .outOfFuel
  | fuel + 1, start => do
    let node ← find start
    if node = NULL then return []
    let nodes ← findAllFrom find fuel node
    return node :: nodes

/-- The nodes `fdt_find_node_by_device_type` finds, resumed until it finds no more. -/
def fdtNodesByDeviceType (fuel : Nat) (v : View) (fdt : Nat) (type : CStr) : Result (List Nat) :=
  findAllFrom (fun start => fdtFindNodeByDeviceType fuel v fdt start type) fuel NULL

/-- The nodes `fdt_find_compatible_node` finds, resumed until it finds no more. -/
def fdtCompatibleNodes (fuel : Nat) (v : View) (fdt : Nat) (compat : CStr) : Result (List Nat) :=
  findAllFrom (fun start => fdtFindCompatibleNode fuel v fdt start compat) fuel NULL

section FindAll

variable {b : Blob} {v : View} {find : Nat → Result Nat} {p : Node → Bool} {start : Nat}
  {todo : List Node}

/-- What a search for matching nodes goes through after a node it found. -/
theorem Blob.After.next {before ms : List Node} {m : Node} (hafter : b.After start todo)
    (htodo : todo = before ++ m :: ms) : b.After m.addr ms := by
  rcases hafter with ⟨-, rfl⟩ | ⟨before', m', hnodes, -⟩
  · exact .inr ⟨before, m, htodo, rfl⟩
  · exact .inr ⟨before' ++ m' :: before, m, by rw [hnodes, htodo]; simp, rfl⟩

/-- A search that finds the first match finds them all when it is resumed. -/
theorem findAllFrom_eq (h : b.In v) (hfind : ∀ start todo, b.After start todo →
      find start = .ok (nodesPtr (todo.filter p)))
    (hafter : b.After start todo) (hn : todo.length < n) :
    findAllFrom find n start = .ok ((todo.filter p).map Node.addr) := by
  induction n generalizing start todo with
  | zero => omega
  | succ n ih =>
    rw [findAllFrom, hfind start todo hafter, ok_bind]
    cases hmatch : todo.filter p with
    | nil => exact if_pos rfl
    | cons m ms =>
      -- the first match, and what comes after it
      obtain ⟨before, rest, htodo, -, -, hrest⟩ := List.filter_eq_cons_iff.1 hmatch
      have hm : m ∈ b.nodes := hafter.mem m (by rw [htodo]; simp)
      have hlen : rest.length < n := by
        rw [htodo, List.length_append, List.length_cons] at hn
        omega
      have hptr : nodesPtr (m :: ms) = m.addr := rfl
      rw [hptr, if_neg (h.addr_ne hm), ih (hafter.next htodo) hlen, hrest]
      rfl

theorem Blob.In.findCompatible_after (h : b.In v) (hfuel : b.totalsize < fuel)
    (hcompat : compat.Is l) (hl : l.length < fuel)
    (hlist : ∀ m ∈ b.nodes, ∀ p, m.prop? (ascii "compatible") = some p → tailOf p.value = [])
    (hafter : b.After start todo) :
    fdtFindCompatibleNode fuel v b.fdt start compat =
      .ok (nodesPtr (todo.filter fun m => m.compatibleWith l)) := by
  obtain ⟨hbegin, hlen, hahead⟩ := h.findNodeBegin_eq hfuel hafter
  rw [fdtFindCompatibleNode, hbegin, ok_bind]
  exact h.findNode_loop_eq hfuel
    (fun m hm => h.isCompatible_eq hfuel hm hcompat hl (hlist m hm)) hafter.mem hahead hlen

/-- **A search that is resumed visits every match once, in preorder**: by device type in any blob,
and by compatible string when the compatible strings of every node are terminated. -/
theorem findAll_eq {s : CStr} (h : b.In v) (hfuel : b.totalsize < fuel) (hs : s.Is l)
    (hl : l.length < fuel) (hl' : l.length + 1 < 2 ^ 64) :
    (b.nodes.map Node.addr).Nodup ∧
      fdtNodesByDeviceType fuel v b.fdt s =
        .ok ((b.nodes.filter fun m => m.hasType l).map Node.addr) ∧
      ((∀ m ∈ b.nodes, ∀ p, m.prop? (ascii "compatible") = some p → tailOf p.value = []) →
        fdtCompatibleNodes fuel v b.fdt s =
          .ok ((b.nodes.filter fun m => m.compatibleWith l).map Node.addr)) := by
  have hafter : b.After NULL b.nodes := .inl ⟨rfl, rfl⟩
  have hlen := h.length_nodes_lt hfuel
  refine ⟨h.addrs_nodup, ?_, ?_⟩
  · exact findAllFrom_eq h (fun start todo => h.findNode_after hfuel hs hl hl') hafter hlen
  · intro hlist
    exact findAllFrom_eq h (fun start todo => h.findCompatible_after hfuel hs hl hlist) hafter hlen

/-- Two nodes are compatible with `syscon`. -/
theorem findAll_eq_devices :
    (devicesBlob.nodes.map Node.addr).Nodup ∧
      fdtNodesByDeviceType 1000 devicesView devicesBlob.fdt (.lit (ascii "syscon")) = .ok [] ∧
      fdtCompatibleNodes 1000 devicesView devicesBlob.fdt (.lit (ascii "syscon")) =
        .ok [testNode.addr, rebootNode.addr] := by
  obtain ⟨hnodup, htype, hcompat⟩ := findAll_eq devices_in (by decide : _ < 1000)
    (CStr.lit_is (s := ascii "syscon") (by decide)) (by decide) (by decide)
  have hlist : ∀ m ∈ devicesBlob.nodes,
      (m.prop? (ascii "compatible")).all (fun p => tailOf p.value = []) = true := by decide
  refine ⟨hnodup, htype, hcompat ?_⟩
  intro m hm p hp
  have hall := hlist m hm
  rw [hp] at hall
  exact of_decide_eq_true hall

end FindAll

end RiscyOs
