import RiscyOs.Fdt.UnitName
import RiscyOs.FdtMem.Carve
import RiscyOs.Lib.Outline

/-!
# Reading a whole blob

`readDeviceTree` goes through a blob with the functions of `fdt.c` and takes down all they show: the
reserve entries, and for every node its depth, its name, and the names and values of its
properties. The depths give the tree.

* `readDeviceTree_eq`: what is read is what the blob says.
-/

namespace RiscyOs

open ByteMemory FuelLoop Outline

/-- What a node says. -/
structure Label where
  name : List UInt8
  props : List (List UInt8 × List UInt8)
  deriving Repr, DecidableEq

/-- What a blob says. -/
structure DeviceTree where
  reserve : List (Nat × Nat)
  tree : Forest Label
  deriving Repr, DecidableEq

/-! ## Reading -/

section
variable (fuel : Nat) (v : View) (fdt : Nat)

/-- `fdt_next_reserve_entry` until there are no more entries. -/
def reserveFrom : Nat → Nat → Result (List (Nat × Nat))
  | 0, _ => .error .outOfFuel
  | n + 1, entry =>
    if entry = NULL then .ok [] else do
      let address ← fdtReserveEntryAddress v entry
      let size ← fdtReserveEntrySize v entry
      let next ← fdtNextReserveEntry v fdt entry
      let rest ← reserveFrom n next
      return (address, size) :: rest

def fdtReserveEntries : Result (List (Nat × Nat)) := do
  let first ← fdtReserveEntryBegin v fdt
  reserveFrom v fdt fuel first

/-- The characters before the terminator. -/
def readString (s : CStr) : Result (List UInt8) := do
  let len ← strlen fuel s
  match s.view.bytes s.ptr len with
  | some chars => return chars
  | none => throw .unmapped

/-- The name and the value. -/
def readProp (prop : Nat) : Result (List UInt8 × List UInt8) := do
  let ptr ← fdtPropName v fdt prop
  let name ← readString fuel ⟨v, ptr⟩
  let len ← fdtPropValLen v prop
  match v.bytes (fdtPropVal prop) len with
  | some value => return (name, value)
  | none => throw .unmapped

/-- A node and its depth. -/
def readNode (visit : Nat × Int) : Result (Label × Nat) := do
  let name ← fdtNodeName v visit.1
  let name ← readString fuel name
  let props ← fdtProps fuel v fdt visit.1
  let props ← props.mapM (readProp fuel v fdt)
  return (⟨name, props⟩, visit.2.toNat)

def readDeviceTree : Result DeviceTree := do
  let reserve ← fdtReserveEntries fuel v fdt
  let visits ← fdtWalk fuel v fdt
  let labels ← visits.mapM (readNode fuel v fdt)
  return ⟨reserve, siblings labels 0⟩

end

/-! ## What there is to read -/

/-- What the node says; a node without a name shows the debug name. -/
def Node.label (n : Node) : Label := ⟨shownName n.name, n.props.map fun p => (p.name, p.value)⟩

def Blob.deviceTree (b : Blob) : DeviceTree := ⟨b.reserve, b.tree.map Node.label⟩

variable {b : Blob} {v : View} {fuel : Nat} {n : Node} {p : PropNode}

theorem readString_is {s : CStr} {l : List UInt8} (h : s.Is l) (hfuel : l.length < fuel) :
    readString fuel s = .ok l := by
  have hbytes : s.view.bytes s.ptr l.length = some l :=
    View.bytes_eq_of_holds (View.holds_append.1 h.holds.1).1
  rw [readString, strlen_eq h hfuel, ok_bind, hbytes]
  rfl

/-- The entries that are left. -/
theorem reserveFrom_eq (hb : b.MapIn v) {a k : Nat} {es : List (Nat × Nat)}
    (h : b.RestOfMap v a es) (hk : es.length < k) :
    reserveFrom v b.fdt k (entryPtr a es) = .ok es := by
  induction es generalizing a k with
  | nil =>
    obtain ⟨k, rfl⟩ := Nat.exists_eq_add_of_lt hk
    rfl
  | cons e es ih =>
    obtain ⟨k, rfl⟩ : ∃ k', k = k' + 1 := ⟨k - 1, by omega⟩
    have hptr : entryPtr a (e :: es) = a := rfl
    have hne : a ≠ NULL := by
      have := h.lower
      have := b.fdt_pos
      simp only [NULL]
      omega
    rw [List.length_cons] at hk
    rw [hptr, reserveFrom, if_neg hne, fdtReserveEntryAddress, fdtReserveEntrySize, h.mapAt.1,
      h.mapAt.2.1]
    have hrest : reserveFrom v b.fdt k (entryPtr (a + 16) es) = .ok es := ih h.tail (by omega)
    simp only [ok_bind, nextReserveEntry_eq hb h, hrest]
    rfl

theorem fdtReserveEntries_eq (h : b.MapIn v) (hfuel : b.reserve.length < fuel) :
    fdtReserveEntries fuel v b.fdt = .ok b.reserve := by
  have hwrap : b.fdt + b.offRsvmap < 2 ^ 64 := by
    have := b.noWrap
    have := b.struct_le
    have := b.rsvmap_le
    omega
  rw [fdtReserveEntries, fdtReserveEntryBegin, h.offMemRsvmap]
  simp only [ok_bind]
  rw [wadd_eq hwrap, entryOrEnd_eq h.rsvmap b.reserve_ne, ok_bind]
  exact reserveFrom_eq h h.restOfMap hfuel

namespace Blob.In

/-- A property is read with its name from the strings block. -/
theorem readProp_eq (h : b.In v) (hfuel : b.totalsize < fuel) (hn : n ∈ b.nodes)
    (hp : p ∈ n.props) : readProp fuel v b.fdt p.addr = .ok (p.name, p.value) := by
  obtain ⟨pre, rest, htok⟩ := b.exists_of_mem_props hn hp
  have hname := h.names n hn p hp
  obtain ⟨-, -, hlen, hvalue⟩ := h.prop_at hn hp
  have hptr : b.fdt + b.offStrings + p.nameOff ≠ NULL := by
    have := b.fdt_pos
    simp only [NULL]
    omega
  have hstr : CStr.Is ⟨v, b.fdt + b.offStrings + p.nameOff⟩ p.name := ⟨hptr, hname.2⟩
  have hroom : p.name.length < fuel := by
    have := hname.1
    have := b.strings_le
    omega
  have hbytes : v.bytes (fdtPropVal p.addr) p.value.length = some p.value :=
    View.bytes_eq_of_holds hvalue
  rw [readProp, h.propName_eq htok hname, ok_bind, readString_is hstr hroom, ok_bind, hlen, ok_bind,
    hbytes]
  rfl

theorem readNode_eq (h : b.In v) (hfuel : b.totalsize < fuel) (hn : n ∈ b.nodes) (depth : Nat) :
    readNode fuel v b.fdt (n.addr, (depth : Int)) = .ok (n.label, depth) := by
  have hstruct := b.sizeStruct_lt hfuel
  have hroom : 32 < fuel := by
    have := b.header_le
    omega
  obtain ⟨s, hname, his⟩ := h.nodeName_is hn
  have hread := readString_is his (h.length_shownName_lt hfuel hroom hn)
  obtain ⟨pre, rest, htok, hps⟩ := b.propsAhead_of_mem hn
  have htok' : b.tokens = (pre ++ [(n.addr, .beginNode n.name)]) ++ rest := by simpa using htok
  have hlen := hps.length_le
  have hlt := h.rest_lt hstruct htok
  have hprops : fdtProps fuel v b.fdt n.addr = .ok (n.props.map PropNode.addr) := by
    rw [fdtProps, h.propBegin_eq hstruct htok hps, ok_bind]
    exact h.propsFrom_eq hstruct htok' hps (by omega)
  have hvalues : (n.props.map PropNode.addr).mapM (readProp fuel v b.fdt) =
      .ok (n.props.map fun p => (p.name, p.value)) := by
    rw [List.mapM_map]
    exact mapM_eq_ok fun p hp => h.readProp_eq hfuel hn hp
  rw [readNode, hname, ok_bind, hread, ok_bind, hprops, ok_bind, hvalues]
  rfl

end Blob.In

/-- **What is read is what the blob says**, all of it and in order. -/
theorem readDeviceTree_eq (h : b.In v) (hfuel : b.totalsize < fuel) :
    readDeviceTree fuel v b.fdt = .ok b.deviceTree := by
  have hreserve : fdtReserveEntries fuel v b.fdt = .ok b.reserve := by
    refine fdtReserveEntries_eq h.toMapIn ?_
    have := b.rsvmap_le
    have := b.struct_le
    omega
  have hlabels : b.visits.mapM (readNode fuel v b.fdt) =
      .ok ((b.tree.map Node.label).visits 0) := by
    rw [Blob.visits, List.mapM_map, Forest.visits_map]
    exact mapM_eq_ok fun x hx => h.readNode_eq hfuel (mem_labels_of_mem_visits hx) x.2
  rw [readDeviceTree, hreserve, ok_bind, h.walk_eq (b.sizeStruct_lt hfuel), ok_bind, hlabels,
    ok_bind, siblings_visits]
  rfl

end RiscyOs
