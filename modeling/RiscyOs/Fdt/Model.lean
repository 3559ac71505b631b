import RiscyOs.CString

/-!
# Reading a flattened device tree: `kernel/of/fdt.c`

Nodes, properties and reserve entries are pointers into the blob; a function that returns `NULL`
returns the address `0`. The blob is read through a view, so a run that reads outside the view
stops with `Fault.unmapped`.

Every traversal of the source is a loop over tokens that looks at one token word and goes on with
`fdt_next_token`. That loop is `tokenLoop`; a traversal is the function it applies to each token.
-/

namespace RiscyOs

open ByteMemory FuelLoop

/-! ## Header -/

namespace Fdt

variable (v : View) (fdt : Nat)

def magic : Result Nat := be32 v fdt

def totalsize : Result Nat := be32 v (fdt + 4)

def offDtStruct : Result Nat := be32 v (fdt + 8)

def offDtStrings : Result Nat := be32 v (fdt + 12)

def offMemRsvmap : Result Nat := be32 v (fdt + 16)

def lastCompVersion : Result Nat := be32 v (fdt + 24)

def sizeDtStrings : Result Nat := be32 v (fdt + 32)

def sizeDtStruct : Result Nat := be32 v (fdt + 36)

end Fdt

def FDT_HEADER_MAGIC : Nat := 0xd00dfeed

def FDT_COMPAT_VERSION : Nat := 17

def FDT_BEGIN_NODE : Nat := 1

def FDT_END_NODE : Nat := 2

def FDT_PROP : Nat := 3

def FDT_NOP : Nat := 4

def FDT_END : Nat := 9

variable (fuel : Nat) (v : View) (fdt : Nat)

/-- `enum fdt_error` -/
inductive FdtError where
  | valid | badMagic | incompatible
  deriving Repr, DecidableEq

def fdtVerify : Result FdtError := do
  let magic ← Fdt.magic v fdt
  if magic ≠ FDT_HEADER_MAGIC then return .badMagic
  let lastCompVersion ← Fdt.lastCompVersion v fdt
  if lastCompVersion > FDT_COMPAT_VERSION then return .incompatible
  return .valid

def fdtSize : Result Nat := Fdt.totalsize v fdt

/-! ## Tokens -/

def fdtStructPtrInvalid (ptr : Nat) : Result Bool := do
  let off ← Fdt.offDtStruct v fdt
  let start := wadd fdt off
  let size ← Fdt.sizeDtStruct v fdt
  let stop := wadd start size
  return ptr < start ∨ ptr ≥ stop

def fdtMemrsvPtrInvalid (ptr : Nat) : Result Bool := do
  let off ← Fdt.offMemRsvmap v fdt
  let start := wadd fdt off
  -- the map has no size of its own: it must not run into the structure block
  let offStruct ← Fdt.offDtStruct v fdt
  let stop := wadd fdt offStruct
  return ptr < start ∨ ptr ≥ stop

def fdtTokenBegin : Result Nat := do
  let off ← Fdt.offDtStruct v fdt
  return wadd fdt off

/-- The number of 4-byte cells that hold `len` bytes. -/
def cellLen (len : Nat) : Nat := (len >>> 2) + if len &&& 3 ≠ 0 then 1 else 0

/-- The length field of the property `prop`. -/
def fdtPropValLen (prop : Nat) : Result Nat := be32 v (prop + 4)

def fdtPropVal (prop : Nat) : Nat := prop + 12

def fdtPropNameOffset (prop : Nat) : Result Nat := be32 v (prop + 8)

def fdtNextToken (token : Nat) : Result Nat := do
  if token = NULL then .error .nullDeref
  let val ← be32 v token
  let next ←
    if val = FDT_NOP ∨ val = FDT_END_NODE then pure (wadd token 4)
    else if val = FDT_BEGIN_NODE then do
      let len ← strlen fuel ⟨v, token + 4⟩
      pure (wadd (wadd token 4) (wmul 4 (cellLen (wadd len 1))))
    else if val = FDT_PROP then do
      let len ← fdtPropValLen v token
      -- the extra 2 is for the length and name offset fields
      pure (wadd (wadd token 4) (wmul 4 (wadd 2 (cellLen len))))
    else pure NULL
  let invalid ← fdtStructPtrInvalid v fdt next
  return if invalid then NULL else next

/-- The depth `fdt_next_token_after_node` has after a token. -/
def depthAfter (val : Nat) (depth : Int) : Int :=
  if val = FDT_BEGIN_NODE then depth + 1 else if val = FDT_END_NODE then depth - 1 else depth

/-- One pass of the loop of `fdt_next_token_after_node`. -/
def afterNodeStep : Nat × Int → Result ((Nat × Int) ⊕ Nat) := fun (tokenPtr, depth) => do
  let token ← be32 v tokenPtr
  let depth := depthAfter token depth
  let tokenPtr ← fdtNextToken fuel v fdt tokenPtr
  -- premature ending
  if tokenPtr = NULL then return .inr NULL
  if depth > 0 then return .inl (tokenPtr, depth)
  return .inr tokenPtr

def fdtNextTokenAfterNode (node : Nat) : Result Nat :=
  if node = NULL then .ok NULL
  else loop .outOfFuel (afterNodeStep fuel v fdt) fuel (node, 0)

section
variable {σ ρ : Type}

/-- One pass of a token loop: `visit` gets the token word and its address, and goes on or returns.
`none` is the result when the tokens run out. -/
def tokenStep (visit : Nat → Nat → σ → σ ⊕ ρ) (none : σ → ρ) :
    Nat × σ → Result ((Nat × σ) ⊕ ρ) := fun (tokenPtr, s) => do
  if tokenPtr = NULL then return .inr (none s)
  let token ← be32 v tokenPtr
  match visit token tokenPtr s with
  | .inr r => return .inr r
  | .inl s =>
    let tokenPtr ← fdtNextToken fuel v fdt tokenPtr
    return .inl (tokenPtr, s)

/-- Look at the tokens from `token` on. -/
def tokenLoop (visit : Nat → Nat → σ → σ ⊕ ρ) (none : σ → ρ) (token : Nat) (s : σ) : Result ρ :=
  loop .outOfFuel (tokenStep fuel v fdt visit none) fuel (token, s)

end

/-! ## Nodes -/

def fdtNodeBegin : Result Nat := do
  let token ← fdtTokenBegin v fdt
  tokenLoop fuel v fdt
    (fun token ptr _ => if token = FDT_BEGIN_NODE then .inr ptr else .inl ()) (fun _ => NULL)
    token ()

/-- What `fdt_next_node` does at a token; the state is its `depth_increase`. -/
def nextNodeVisit (depth : Option Int) (token ptr : Nat) (increase : Int) :
    Int ⊕ (Nat × Option Int) :=
  let increase := if token = FDT_END_NODE then increase - 1 else increase
  if token = FDT_BEGIN_NODE then .inr (ptr, depth.map (· + increase)) else .inl increase

/-- `depth` is `none` where the source passes `NULL`; the result is the node and the depth
afterwards. -/
def fdtNextNode (node : Nat) (depth : Option Int) : Result (Nat × Option Int) := do
  let token ← fdtNextToken fuel v fdt node
  tokenLoop fuel v fdt (nextNodeVisit depth) (fun _ => (NULL, depth)) token 1

/-- One pass of the loop of `fdt_max_depth`. -/
def maxDepthStep : Nat × Int × Int → Result ((Nat × Int × Int) ⊕ Int) :=
  fun (node, depth, maxDepth) => do
    if node = NULL then return .inr maxDepth
    let maxDepth := if depth > maxDepth then depth else maxDepth
    let (node, depth') ← fdtNextNode fuel v fdt node (some depth)
    return .inl (node, depth'.getD depth, maxDepth)

def fdtMaxDepth : Result Int := do
  let node ← fdtNodeBegin fuel v fdt
  loop .outOfFuel (maxDepthStep fuel v fdt) fuel (node, 0, 0)

/-- What `fdt_node_prop_begin` and `fdt_node_next_prop` do at a token. -/
def propVisit (token ptr : Nat) (_ : Unit) : Unit ⊕ Nat :=
  if token = FDT_PROP then .inr ptr else if token = FDT_NOP then .inl () else .inr NULL

def fdtNodePropBegin (node : Nat) : Result Nat := do
  let token ← fdtNextToken fuel v fdt node
  tokenLoop fuel v fdt propVisit (fun _ => NULL) token ()

def fdtNodeNextProp (prop : Nat) : Result Nat := do
  let token ← fdtNextToken fuel v fdt prop
  tokenLoop fuel v fdt propVisit (fun _ => NULL) token ()

/-- What `fdt_node_subnode_begin` and `fdt_node_next_subnode` do at a token. -/
def subnodeVisit (token ptr : Nat) (_ : Unit) : Unit ⊕ Nat :=
  if token = FDT_BEGIN_NODE then .inr ptr
  else if token = FDT_NOP ∨ token = FDT_PROP then .inl ()
  else .inr NULL

def fdtNodeSubnodeBegin (node : Nat) : Result Nat := do
  let token ← fdtNextToken fuel v fdt node
  tokenLoop fuel v fdt subnodeVisit (fun _ => NULL) token ()

def fdtNodeNextSubnode (subnode : Nat) : Result Nat := do
  let token ← fdtNextTokenAfterNode fuel v fdt subnode
  tokenLoop fuel v fdt subnodeVisit (fun _ => NULL) token ()

/-! ## Ancestors -/

/-- A local array of pointers, written at run time; an entry is `none` until it is written. -/
abbrev PtrArray := List (Option Nat)

def PtrArray.set (arr : PtrArray) (i : Int) (x : Nat) : Result PtrArray :=
  if 0 ≤ i ∧ i < arr.length then .ok (List.set arr i.toNat (some x)) else .error .outOfBounds

def PtrArray.get (arr : PtrArray) (i : Int) : Result Nat :=
  match if 0 ≤ i then arr[i.toNat]? else none with
  | some (some x) => .ok x
  | _ => .error .outOfBounds

/-- One pass of the loop of `fdt_node_get_parents`, over the node, its depth and the branch that
leads to it. -/
def parentsStep (node : Nat) :
    Nat × Int × PtrArray → Result ((Nat × Int × PtrArray) ⊕ (Int × PtrArray)) :=
  fun (curr, depth, branch) => do
    if curr = NULL then return .inr (depth, branch)
    if curr = node then return .inr (depth, branch)
    let branch ← PtrArray.set branch depth curr
    let (curr, depth') ← fdtNextNode fuel v fdt curr (some depth)
    return .inl (curr, depth'.getD depth, branch)

/-- The part of `parents` that is filled in. -/
def fdtNodeGetParents (node parentsLen : Nat) : Result (List Nat) := do
  let maxDepth ← fdtMaxDepth fuel v fdt
  if maxDepth < 0 then return []
  let curr ← fdtNodeBegin fuel v fdt
  let branch : PtrArray := List.replicate (maxDepth + 1).toNat none
  let (depth, branch) ← loop .outOfFuel (parentsStep fuel v fdt node) fuel (curr, 0, branch)
  let numToReturn := if parentsLen < ofSigned depth then parentsLen else ofSigned depth
  (List.range numToReturn).mapM fun i : Nat => PtrArray.get branch (depth - (i + 1))

/-! ## Names -/

def fdtStringFromOffset (offset : Nat) : Result Nat := do
  let off ← Fdt.offDtStrings v fdt
  let stringsStart := wadd fdt off
  let size ← Fdt.sizeDtStrings v fdt
  let stringsEnd := wadd stringsStart size
  let s := wadd stringsStart offset
  return if s < stringsStart ∨ s ≥ stringsEnd then NULL else s

def fdtPropName (prop : Nat) : Result Nat := do
  let offset ← fdtPropNameOffset v prop
  fdtStringFromOffset v fdt offset

/-- Is `name` the name of the property? -/
def propNamed (name : CStr) (prop : Nat) : Result Bool := do
  let propName ← fdtPropName v fdt prop
  if propName = NULL then return false
  let order ← strcmp fuel name ⟨v, propName⟩
  return order = 0

/-- One pass of the loop of `fdt_get_prop_by_name`. -/
def propByNameStep (name : CStr) (prop : Nat) : Result (Nat ⊕ Nat) := do
  if prop = NULL then return .inr NULL
  let found ← propNamed fuel v fdt name prop
  if found then return .inr prop
  let prop ← fdtNodeNextProp fuel v fdt prop
  return .inl prop

def fdtGetPropByName (node start : Nat) (name : CStr) : Result Nat := do
  let prop ←
    if start ≠ NULL then fdtNodeNextProp fuel v fdt start else fdtNodePropBegin fuel v fdt node
  loop .outOfFuel (propByNameStep fuel v fdt name) fuel prop

/-- One pass of the loop of `fdt_node_is_compatible`, over the string and the bytes left. -/
def compatibleStep (compat : CStr) : Nat × Nat → Result ((Nat × Nat) ⊕ Bool) :=
  fun (strings, stringsLen) => do
    if stringsLen = 0 then return .inr false
    let len ← strlen fuel ⟨v, strings⟩
    let currLen := wadd len 1
    let order ← strcmp fuel ⟨v, strings⟩ compat
    if order = 0 then return .inr true
    return .inl (wadd strings currLen, wsub stringsLen currLen)

def fdtNodeIsCompatible (compat : CStr) (node : Nat) : Result Bool := do
  let prop ← fdtGetPropByName fuel v fdt node NULL (CStr.lit (ascii "compatible"))
  if prop = NULL then return false
  let stringsLen ← fdtPropValLen v prop
  loop .outOfFuel (compatibleStep fuel v compat) fuel (fdtPropVal prop, stringsLen)

/-- Is `type`, of length `len`, the device type of the node? -/
def hasDeviceType (type : CStr) (len node : Nat) : Result Bool := do
  let prop ← fdtGetPropByName fuel v fdt node NULL (CStr.lit (ascii "device_type"))
  if prop = NULL then return false
  let propLen ← fdtPropValLen v prop
  -- equal even if the terminator is omitted in the property
  if propLen = wadd len 1 ∨ propLen = len then
    let order ← memcmp type ⟨v, fdtPropVal prop⟩ propLen
    return order = 0
  else return false

/-- One pass of a search over nodes for the first one that is `wanted`. -/
def findNodeStep (wanted : Nat → Result Bool) (node : Nat) : Result (Nat ⊕ Nat) := do
  if node = NULL then return .inr NULL
  let found ← wanted node
  if found then return .inr node
  let (node, _) ← fdtNextNode fuel v fdt node none
  return .inl node

/-- Where a search over nodes starts: after `start`, or at the first node when it is `NULL`. -/
def findNodeBegin (start : Nat) : Result Nat :=
  if start ≠ NULL then do
    let (node, _) ← fdtNextNode fuel v fdt start none
    return node
  else fdtNodeBegin fuel v fdt

def fdtFindCompatibleNode (start : Nat) (compat : CStr) : Result Nat := do
  let node ← findNodeBegin fuel v fdt start
  loop .outOfFuel (findNodeStep fuel v fdt (fdtNodeIsCompatible fuel v fdt compat)) fuel node

def fdtFindNodeByDeviceType (start : Nat) (type : CStr) : Result Nat := do
  let node ← findNodeBegin fuel v fdt start
  let len ← strlen fuel type
  loop .outOfFuel (findNodeStep fuel v fdt (hasDeviceType fuel v fdt type len)) fuel node

/-! ## Cells and register blocks -/

/-- The first of `nodes` that has a property `propName`. -/
def firstProp (propName : CStr) : List Nat → Result Nat
  | [] => .ok NULL
  | node :: nodes => do
    let prop ← fdtGetPropByName fuel v fdt node NULL propName
    if prop ≠ NULL then return prop else firstProp propName nodes

def fdtNodeGetInheritedProp (node : Nat) (propName : CStr) : Result Nat := do
  let prop ← fdtGetPropByName fuel v fdt node NULL propName
  if prop ≠ NULL then return prop
  let maxDepth ← fdtMaxDepth fuel v fdt
  if maxDepth < 0 then return NULL
  let parents ← fdtNodeGetParents fuel v fdt node (ofSigned maxDepth)
  firstProp fuel v fdt propName parents

def fdtPropNumCells (prop : Nat) : Result Nat := do
  let len ← fdtPropValLen v prop
  return len / 4

def fdtPropGetCell (prop index : Nat) : Result Nat := do
  let numCells ← fdtPropNumCells v prop
  if index ≥ numCells then return 0
  be32 v (wadd (fdtPropVal prop) (wmul 4 index))

/-- One pass of the loop of `fdt_find_node_by_phandle`. -/
def findPhandleStep (phandle node : Nat) : Result (Nat ⊕ Nat) := do
  if node = NULL then return .inr NULL
  let phandleProp ← fdtGetPropByName fuel v fdt node NULL (CStr.lit (ascii "phandle"))
  if phandleProp ≠ NULL then
    let numCells ← fdtPropNumCells v phandleProp
    -- an incorrect property: `continue` goes round with the same node
    if numCells ≠ 1 then return .inl node
    let cell ← fdtPropGetCell v phandleProp 0
    if cell = phandle then return .inr node
  let (node, _) ← fdtNextNode fuel v fdt node none
  return .inl node

def fdtFindNodeByPhandle (start phandle : Nat) : Result Nat := do
  let node ← findNodeBegin fuel v fdt start
  loop .outOfFuel (findPhandleStep fuel v fdt phandle) fuel node

/-- The first cell of an inherited property, `default` when nobody has the property, and `0` when
it is empty. -/
def inheritedCell (name : CStr) (default node : Nat) : Result Nat := do
  let prop ← fdtNodeGetInheritedProp fuel v fdt node name
  if prop = NULL then return default
  let numCells ← fdtPropNumCells v prop
  if numCells = 0 then return 0
  fdtPropGetCell v prop 0

def fdtNodeGetAddressCells (node : Nat) : Result Nat :=
  inheritedCell fuel v fdt (CStr.lit (ascii "#address-cells")) 2 node

def fdtNodeGetSizeCells (node : Nat) : Result Nat :=
  inheritedCell fuel v fdt (CStr.lit (ascii "#size-cells")) 1 node

/-- `address_cells + size_cells`, both of type `uint32_t`. -/
def regBlockCells (addressCells sizeCells : Nat) : Nat := (addressCells + sizeCells) % 2 ^ 32

def fdtNodeNumRegisterBlocks (node : Nat) : Result Nat := do
  let reg ← fdtGetPropByName fuel v fdt node NULL (CStr.lit (ascii "reg"))
  if reg = NULL then return 0
  let addressCells ← fdtNodeGetAddressCells fuel v fdt node
  let sizeCells ← fdtNodeGetSizeCells fuel v fdt node
  let cells := regBlockCells addressCells sizeCells
  if cells = 0 then return 0
  let regCellLen ← fdtPropNumCells v reg
  return regCellLen / cells

/-- Read a number of one or two cells; other counts are an error, `none`. -/
def readCells (cells ptr : Nat) : Result (Option Nat) :=
  if cells = 1 then do
    let x ← be32 v ptr
    return some x
  else if cells = 2 then do
    let x ← be64 v ptr
    return some x
  else .ok none

/-- The address and the size. The address pointer is advanced by `index * reg_block_cells` bytes,
without the factor 4 that the bound has. -/
def fdtNodeGetRegisterBlock (node index : Nat) : Result (Nat × Nat) := do
  let reg ← fdtGetPropByName fuel v fdt node NULL (CStr.lit (ascii "reg"))
  if reg = NULL then return (NULL, 0)
  let addressCells ← fdtNodeGetAddressCells fuel v fdt node
  let sizeCells ← fdtNodeGetSizeCells fuel v fdt node
  let cells := regBlockCells addressCells sizeCells
  let rawReg := fdtPropVal reg
  let rawRegLen ← fdtPropValLen v reg
  let minSizeForIndex := wmul (wmul index cells) 4
  if rawRegLen < minSizeForIndex then return (NULL, 0)
  let addressPtr := wadd rawReg (wmul index cells)
  let sizePtr := wadd addressPtr (wmul addressCells 4)
  match ← readCells v addressCells addressPtr with
  | none => return (NULL, 0)
  | some address =>
    match ← readCells v sizeCells sizePtr with
    | none => return (NULL, 0)
    | some size => return (address, size)

/-! ## Reserve entries -/

def fdtReserveEntryAddress (entry : Nat) : Result Nat := be64 v entry

def fdtReserveEntrySize (entry : Nat) : Result Nat := be64 v (entry + 8)

/-- The entry, or `NULL` when it is the terminator. -/
def entryOrEnd (entry : Nat) : Result Nat := do
  let address ← fdtReserveEntryAddress v entry
  if address = 0 then
    let size ← fdtReserveEntrySize v entry
    return if size = 0 then NULL else entry
  else return entry

def fdtReserveEntryBegin : Result Nat := do
  let off ← Fdt.offMemRsvmap v fdt
  entryOrEnd v (wadd fdt off)

def fdtNextReserveEntry (entry : Nat) : Result Nat := do
  let entry := wadd entry 16
  let invalid ← fdtMemrsvPtrInvalid v fdt (wadd entry 15)
  if invalid then return NULL
  entryOrEnd v entry

end RiscyOs
