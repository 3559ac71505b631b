import RiscyOs.Boot.FreeList
import RiscyOs.Fdt.Model

/-!
# Handing memory to the allocator: `kernel/of/fdt_mem.c`

`boot_free` is a parameter, `free`, that works on a state `σ`; `view` is the memory the blob is
read from in that state. The kernel runs this with `Machine` and `bootFree`. The linker symbol
`__kernel_end` is the parameter `kernelEnd`. The loops of `fdt_boot_mem_init` have the whole of
`try_boot_free_region` as a parameter, `tryFree`.

The report of `fdt_boot_mem_init` has the totals it prints, and the ranges it handed to
`try_boot_free_region`, which the source does not keep. What it prints for each node is left out.
-/

namespace RiscyOs

open ByteMemory FuelLoop

/-! ## Trimming and splitting -/

/-- The region, or the two regions, that `trim_or_split_around_reserved` leaves. -/
inductive Trimmed where
  | one (start size : Nat)
  | two (start size splitStart splitSize : Nat)
  deriving Repr, DecidableEq

def trimOrSplitAroundReserved (start size resvStart resvSize : Nat) : Trimmed :=
  let stop := wadd start size
  let resvEnd := wadd resvStart resvSize
  -- no overlap with this reserve entry
  if resvEnd ≤ start ∨ resvStart > stop then .one start size
  else if resvStart ≤ start then
    -- fully covering, or trim from below
    if resvEnd ≥ stop then .one NULL 0 else .one resvEnd (wsub stop resvEnd)
  -- split into two, or trim from above
  else if resvEnd < stop then .two start (wsub resvStart start) resvEnd (wsub stop resvEnd)
  else .one start (wsub resvStart start)

/-- What a region comes to after one look at all reserved ranges. -/
inductive Carving where
  | gone
  | whole (start size : Nat)
  | split (start size splitStart splitSize : Nat)
  deriving Repr, DecidableEq

/-- One pass of the loop of `try_boot_free_region` over the reserve entries. -/
def carveStep (v : View) (fdt : Nat) :
    Nat × Nat × Nat → Result ((Nat × Nat × Nat) ⊕ Carving) := fun (entry, start, size) => do
  if entry = NULL then return .inr (.whole start size)
  let resvStart ← fdtReserveEntryAddress v entry
  let resvSize ← fdtReserveEntrySize v entry
  match trimOrSplitAroundReserved start size resvStart resvSize with
  | .two start size splitStart splitSize => return .inr (.split start size splitStart splitSize)
  | .one start size =>
    if size = 0 then return .inr .gone
    let entry ← fdtNextReserveEntry v fdt entry
    return .inl (entry, start, size)

/-- The part of `try_boot_free_region` between the kernel and `boot_free`. -/
def carve (fuel : Nat) (v : View) (fdt start size : Nat) : Result Carving := do
  let entry ← fdtReserveEntryBegin v fdt
  match ← loop .outOfFuel (carveStep v fdt) fuel (entry, start, size) with
  | .gone => return .gone
  | .split start size splitStart splitSize => return .split start size splitStart splitSize
  | .whole start size =>
    -- do not free the blob itself
    let fdtResvSize ← fdtSize v fdt
    match trimOrSplitAroundReserved start size fdt fdtResvSize with
    | .two start size splitStart splitSize => return .split start size splitStart splitSize
    | .one start size => return if size = 0 then .gone else .whole start size

section
variable {σ : Type} (view : σ → View) (free : σ → Nat → Nat → Result (KError × σ))
  (kernelEnd fuel fdt : Nat)

/-- The number of bytes freed. The recursion has its own fuel, the first argument after the
parameters. -/
def tryBootFreeRegion : Nat → σ → Nat → Nat → Result (Nat × σ)
  | 0, _, _, _ => .error .outOfFuel
  | n + 1, s, start, size => do
    if size = 0 then return (0, s)
    let stop := wadd start size
    -- entirely before the kernel
    if start < kernelEnd ∧ stop ≤ kernelEnd then return (0, s)
    let (start, size) :=
      if start < kernelEnd then (kernelEnd, wsub stop kernelEnd) else (start, size)
    match ← carve fuel (view s) fdt start size with
    | .gone => return (0, s)
    | .split start size splitStart splitSize =>
      let (freed, s) ← tryBootFreeRegion n s start size
      let (splitFreed, s) ← tryBootFreeRegion n s splitStart splitSize
      return (wadd freed splitFreed, s)
    | .whole start size =>
      let (code, s) ← free s start size
      return (if code = .success then size else 0, s)

end

/-! ## All memory nodes -/

/-- The totals, and the ranges handed to `try_boot_free_region` so far. -/
structure Report where
  handed : List (Nat × Nat)
  totalMemSeen : Nat
  totalMemFreed : Nat
  deriving Repr, DecidableEq

/-- The string the source looks for. -/
def memoryType : CStr := CStr.lit (ascii "memory")

section
variable {σ : Type} (view : σ → View) (tryFree : σ → Nat → Nat → Result (Nat × σ)) (fuel fdt : Nat)

/-- The body of the inner loop: it asks for register block `0` whatever `i` is. -/
def handBlock (memNode : Nat) (_i : Nat) :
    Report × σ → Result (Report × σ) := fun (report, s) => do
  let (address, size) ← fdtNodeGetRegisterBlock fuel (view s) fdt memNode 0
  let (freed, s) ← tryFree s address size
  return ({ handed := report.handed ++ [(address, size)]
            totalMemSeen := wadd report.totalMemSeen size
            totalMemFreed := wadd report.totalMemFreed freed }, s)

/-- What the outer loop does for a memory node: the inner loop. -/
def handBlocks (memNode : Nat) : Report × σ → Result (Report × σ) := fun (report, s) => do
  let numRegisterBlocks ← fdtNodeNumRegisterBlocks fuel (view s) fdt memNode
  forLoop (handBlock view tryFree fuel fdt memNode) 0 numRegisterBlocks (report, s)

/-- One pass of the outer loop of `fdt_boot_mem_init`. -/
def memInitStep : Nat × Report × σ → Result ((Nat × Report × σ) ⊕ (Report × σ)) :=
  fun (memNode, report, s) => do
    if memNode = NULL then return .inr (report, s)
    let (report, s) ← handBlocks view tryFree fuel fdt memNode (report, s)
    let memNode ← fdtFindNodeByDeviceType fuel (view s) fdt memNode memoryType
    return .inl (memNode, report, s)

/-- `fdt_boot_mem_init` with any `try_boot_free_region`. -/
def fdtBootMemInitWith (s : σ) : Result (Report × σ) := do
  let memNode ← fdtFindNodeByDeviceType fuel (view s) fdt NULL memoryType
  loop .outOfFuel (memInitStep view tryFree fuel fdt) fuel (memNode, ⟨[], 0, 0⟩, s)

end

/-- The return value is always `KERR_SUCCESS`. -/
def fdtBootMemInit {σ : Type} (view : σ → View) (free : σ → Nat → Nat → Result (KError × σ))
    (kernelEnd fuel fdt : Nat) (s : σ) : Result (Report × σ) :=
  fdtBootMemInitWith view (tryBootFreeRegion view free kernelEnd fuel fdt fuel) fuel fdt s

/-- The kernel's own `fdt_boot_mem_init`, on the memory and free list of the machine. -/
def kernelMemInit (kernelEnd fuel fdt : Nat) (s : Machine) : Result (Report × Machine) :=
  fdtBootMemInit (fun s : Machine => Mem.view s.mem) bootFree kernelEnd fuel fdt s

end RiscyOs
