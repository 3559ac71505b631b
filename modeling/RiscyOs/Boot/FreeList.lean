import RiscyOs.Machine

/-!
# The boot allocator: `kernel/mem/boot/free_list.c`

The free regions of physical memory form a doubly linked list; the node of a region,
`struct boot_free_region { next; prev; size }`, stands at the start of the region itself. The
state is the memory and the static variable `boot_free_list`.

Every field access goes through a pointer that may be `NULL`, and stops with `Fault.nullDeref`
when it is.
-/

namespace RiscyOs

open ByteMemory FuelLoop

/-- Memory and the static variable `boot_free_list`. -/
structure Machine where
  mem : Mem
  bootFreeList : Nat

/-- `sizeof(struct boot_free_region)` -/
abbrev regionHeader : Nat := 24

/-! ## Fields of a list node -/

namespace Machine

/-- Read the field at offset `off` of the node `p`. -/
def getField (s : Machine) (off p : Nat) : Result Nat :=
  if p = NULL then .error .nullDeref else .ok (loadLE s.mem (p + off) 8)

/-- Write the field at offset `off` of the node `p`. -/
def setField (s : Machine) (off p x : Nat) : Result Machine :=
  if p = NULL then .error .nullDeref else .ok { s with mem := storeLE s.mem (p + off) 8 x }

def next (s : Machine) (p : Nat) : Result Nat := s.getField 0 p

def prev (s : Machine) (p : Nat) : Result Nat := s.getField 8 p

def size (s : Machine) (p : Nat) : Result Nat := s.getField 16 p

def setNext (s : Machine) (p x : Nat) : Result Machine := s.setField 0 p x

def setPrev (s : Machine) (p x : Nat) : Result Machine := s.setField 8 p x

def setSize (s : Machine) (p x : Nat) : Result Machine := s.setField 16 p x

end Machine

def bootFreeListBegin (s : Machine) : Nat := s.bootFreeList

def bootFreeListNext (s : Machine) (region : Nat) : Result Nat := s.next region

/-! ## Allocation -/

/-- `(1ull << alignment) - 1ull` -/
def alignmentMask (alignment : Nat) : Nat := wsub (2 ^ alignment % 2 ^ 64) 1

def allocAfterUnalignment (s : Machine) (region size alignment : Nat) : Result Nat := do
  let regionSize ← s.size region
  let stop := wadd region regionSize
  return wsub stop size &&& alignmentMask alignment

def allocBeforeUnalignment (region alignment : Nat) : Nat :=
  wsub (2 ^ alignment % 2 ^ 64) (region &&& alignmentMask alignment)

/-- How big will the region be if we allocate from the end? -/
def regionSizeAllocAfter (s : Machine) (region size alignment : Nat) : Result Int := do
  let unalignment ← allocAfterUnalignment s region size alignment
  let regionSize ← s.size region
  return ssub (toSigned regionSize) (toSigned (wadd size unalignment))

/-- How big will the region be if we allocate from the start? -/
def regionSizeAllocBefore (s : Machine) (region size alignment : Nat) : Result Int := do
  let unalignment := allocBeforeUnalignment region alignment
  let regionSize ← s.size region
  return ssub (toSigned regionSize) (toSigned (wadd size unalignment))

/-- The node before `region` (the list head, if there is none) now points at `x`. -/
def relinkPrev (s : Machine) (region prev x : Nat) : Result Machine :=
  if prev ≠ NULL then s.setNext prev x
  else if s.bootFreeList = region then .ok { s with bootFreeList := x }
  else .error .abort

/-- The node `next`, if there is one, now points back at `x`. -/
def relinkNext (s : Machine) (next x : Nat) : Result Machine :=
  if next ≠ NULL then s.setPrev next x else .ok s

/-- Take `region` off the list, as both `alloc_after` and `alloc_before` do. -/
def unlinkRegion (s : Machine) (region : Nat) : Result Machine := do
  let prev ← s.prev region
  let next ← s.next region
  let s ← relinkPrev s region prev next
  let next ← s.next region
  let prev ← s.prev region
  relinkNext s next prev

def allocAfter (s : Machine) (region size alignment : Nat) : Result (Nat × Machine) := do
  let unalignment ← allocAfterUnalignment s region size alignment
  let regionSize ← s.size region
  let s ← s.setSize region (wsub regionSize (wadd size unalignment))
  let regionSize ← s.size region
  let s ← if regionSize < regionHeader then unlinkRegion s region else pure s
  let regionSize ← s.size region
  return (wadd region regionSize, s)

/-- Move the node of `region` up by `size + unalignment` bytes, where it describes `newSize`
bytes. Its links are read before the new node is written, because the two may overlap. -/
def moveRegion (s : Machine) (region offset newSize : Nat) : Result Machine := do
  let prev ← s.prev region
  let next ← s.next region
  let newRegion := wadd region offset
  let s ← s.setSize newRegion newSize
  let s ← s.setPrev newRegion prev
  let s ← s.setNext newRegion next
  let s ← relinkPrev s region prev newRegion
  relinkNext s next newRegion

def allocBefore (s : Machine) (region size alignment : Nat) : Result (Nat × Machine) := do
  let unalignment := allocBeforeUnalignment region alignment
  let regionSize ← s.size region
  let newSize := wsub regionSize (wadd size unalignment)
  let s ←
    if newSize < regionHeader then unlinkRegion s region
    else moveRegion s region (wadd size unalignment) newSize
  return (wadd region unalignment, s)

/-- The locals of `boot_alloc` that survive a pass of its loop. -/
structure Fit where
  smallestFitting : Nat
  smallestFit : Nat
  shouldAllocBefore : Bool
  deriving Repr, DecidableEq

/-- What one region does to the best fit so far, given what either placement leaves of it. -/
def Fit.consider (fit : Fit) (curr : Nat) (after before : Int) : Fit :=
  let greater := if after > before then after else before
  -- this allocation is possible, and leaves less than the best one so far
  if greater ≥ 0 ∧ fit.smallestFit > ofSigned greater then
    { smallestFit := ofSigned greater
      smallestFitting := curr
      shouldAllocBefore := after ≠ greater }
  else fit

/-- The loop of `boot_alloc` over the regions from `curr` on. -/
def bootAllocScan (fuel : Nat) (s : Machine) (size alignment curr : Nat) (fit : Fit) :
    Result Fit :=
  loop .outOfFuel (fun (curr, fit) => do
    if curr = NULL then return .inr fit
    let after ← regionSizeAllocAfter s curr size alignment
    let before ← regionSizeAllocBefore s curr size alignment
    let next ← bootFreeListNext s curr
    return .inl (next, fit.consider curr after before)) fuel (curr, fit)

/-- The result is `NULL` when the allocation failed. -/
def bootAlloc (fuel : Nat) (s : Machine) (size alignment : Nat) : Result (Nat × Machine) := do
  let fit ← bootAllocScan fuel s size alignment (bootFreeListBegin s)
    { smallestFitting := NULL, smallestFit := 2 ^ 64 - 1, shouldAllocBefore := false }
  if fit.smallestFitting = NULL then return (NULL, s)
  if fit.shouldAllocBefore then allocBefore s fit.smallestFitting size alignment
  else allocAfter s fit.smallestFitting size alignment

/-! ## Freeing -/

/-- The end of loop body of `boot_free` that merges with the region `curr` before `start`. -/
def mergeBefore (s : Machine) (curr size stop : Nat) : Result (KError × Machine) := do
  let next ← bootFreeListNext s curr
  if next ≠ NULL ∧ next = stop then
    -- merge both before and after
    let currSize ← s.size curr
    let nextSize ← s.size next
    let s ← s.setSize curr (wadd currSize (wadd size nextSize))
    let nextNext ← s.next next
    let s ← s.setNext curr nextNext
    let currNext ← s.next curr
    if currNext ≠ NULL then
      let nextPrev ← s.prev next
      let s ← s.setPrev currNext nextPrev
      return (.success, s)
    else return (.success, s)
  else if next = NULL ∨ next > stop then
    let currSize ← s.size curr
    let s ← s.setSize curr (wadd currSize size)
    return (.success, s)
  else return (.exist, s)

/-- Link the node `region` between `fullyBefore` and `fullyAfter`; neither is checked. -/
def insertRegion (s : Machine) (region size fullyBefore fullyAfter : Nat) :
    Result (KError × Machine) := do
  let s ← s.setPrev region fullyBefore
  let s ← s.setNext region fullyAfter
  let s ← s.setPrev fullyAfter region
  let s ← s.setNext fullyBefore region
  let s ← s.setSize region size
  return (.success, s)

/-- `boot_free`. Every path through the body of its `while` leaves the loop: the branch of a
region before `start` falls through to the overlap error, and `curr` is never advanced. So only
the first region is looked at, and `fully_before` is still `NULL` when the loop is left by the
`break`. The end of `curr` is computed as `curr + curr->size` on a node pointer, which scales the
size by `sizeof(struct boot_free_region)`. -/
def bootFree (s : Machine) (start size : Nat) : Result (KError × Machine) := do
  let stop := wadd start size
  if s.bootFreeList = NULL then
    if size < regionHeader then return (.empty, s)
    let s ← s.setPrev start NULL
    let s ← s.setNext start NULL
    let s ← s.setSize start size
    return (.success, { s with bootFreeList := start })
  let curr := bootFreeListBegin s
  let currSize ← s.size curr
  let currEnd := wadd curr (wmul regionHeader currSize)
  if currEnd = start then mergeBefore s curr size stop
  else if currEnd < start then return (.exist, s)
  else if curr > stop then insertRegion s start size NULL curr
  else return (.exist, s)

end RiscyOs
