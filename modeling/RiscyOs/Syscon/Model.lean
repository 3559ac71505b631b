import RiscyOs.Fdt.Model
import RiscyOs.Fdt.Blob

/-!
# Shutdown and reboot through a syscon: `drivers/syscon/syscon.c`

A poweroff or reboot node refers by its `regmap` to the node of a syscon, and names one of its
32-bit registers by an offset into the first register block. The two init functions look all this
up and leave it in a static variable, `shutdown_action` or `reboot_action`.

A run is a sequence of init calls, each with a device tree of its own.
-/

namespace RiscyOs

open ByteMemory

/-- `struct generic_syscon_action` -/
structure GenericSysconAction where
  found : Bool
  reg : Nat
  mask : Nat
  value : Nat
  deriving Repr, DecidableEq

variable (fuel : Nat) (v : View) (fdt : Nat)

/-- The cell of a property; `none` when the property is missing or is not one cell. -/
def oneCellProp (node : Nat) (name : List UInt8) : Result (Option Nat) := do
  let prop ← fdtGetPropByName fuel v fdt node NULL (CStr.lit name)
  if prop = NULL then return none
  let cells ← fdtPropNumCells v prop
  if cells ≠ 1 then return none
  let cell ← fdtPropGetCell v prop 0
  return some cell

/-- `offset + 4 > syscon_size`: the sum is a `uint32_t`. -/
def endOutside (offset size : Nat) : Bool := (offset + 4) % 2 ^ 32 > size

/-- The last part of `syscon_init_generic_action`, from where `reg` is set. -/
def setAction (action : GenericSysconAction) (reg : Nat) (mask value : Option Nat) :
    KError × GenericSysconAction :=
  let action := { action with reg := reg }
  -- all ones is no mask
  let action := { action with mask := mask.getD 0xffffffff }
  match mask, value with
  | none, none => (.invalid, action)
  | _, some value => (.success, { action with value := value, found := true })
  -- the mask is the value
  | some _, none => (.success, { action with value := action.mask, found := true })

def sysconInitGenericAction (compat : CStr) (action : GenericSysconAction) :
    Result (KError × GenericSysconAction) := do
  let action := { action with found := false }
  let node ← fdtFindCompatibleNode fuel v fdt NULL compat
  if node = NULL then return (.noExist, action)
  let regmap ← oneCellProp fuel v fdt node (ascii "regmap")
  match regmap with
  | none => return (.invalid, action)
  | some sysconPhandle =>
    let syscon ← fdtFindNodeByPhandle fuel v fdt NULL sysconPhandle
    if syscon = NULL then return (.invalid, action)
    let sysconRegBlockCount ← fdtNodeNumRegisterBlocks fuel v fdt syscon
    if sysconRegBlockCount < 1 then return (.invalid, action)
    let (sysconAddress, sysconSize) ← fdtNodeGetRegisterBlock fuel v fdt syscon 0
    if sysconSize = 0 then return (.invalid, action)
    let offset ← oneCellProp fuel v fdt node (ascii "offset")
    match offset with
    | none => return (.invalid, action)
    | some offset =>
      if endOutside offset sysconSize then return (.invalid, action)
      let mask ← oneCellProp fuel v fdt node (ascii "mask")
      let value ← oneCellProp fuel v fdt node (ascii "value")
      return setAction action (wadd sysconAddress offset) mask value

/-! ## The two actions -/

/-- The static variables. -/
structure SysconState where
  shutdownAction : GenericSysconAction
  rebootAction : GenericSysconAction
  deriving Repr, DecidableEq

def SysconState.initial : SysconState :=
  ⟨⟨false, NULL, 0, 0⟩, ⟨false, NULL, 0, 0⟩⟩

def sysconShutdownInit (s : SysconState) : Result (KError × SysconState) := do
  let (err, action) ←
    sysconInitGenericAction fuel v fdt (CStr.lit (ascii "syscon-poweroff")) s.shutdownAction
  return (err, { s with shutdownAction := action })

def sysconRebootInit (s : SysconState) : Result (KError × SysconState) := do
  let (err, action) ←
    sysconInitGenericAction fuel v fdt (CStr.lit (ascii "syscon-reboot")) s.rebootAction
  return (err, { s with rebootAction := action })

/-! ## Runs -/

inductive SysconKind where
  | shutdown
  | reboot
  deriving Repr, DecidableEq

def SysconKind.compat : SysconKind → CStr
  | shutdown => CStr.lit (ascii "syscon-poweroff")
  | reboot => CStr.lit (ascii "syscon-reboot")

def SysconState.action (s : SysconState) : SysconKind → GenericSysconAction
  | .shutdown => s.shutdownAction
  | .reboot => s.rebootAction

/-- A call of one of the init functions, with memory that holds a well-formed tree. -/
structure InitCall where
  kind : SysconKind
  mem : Mem
  tree : Blob
  fuel : Nat
  holds : tree.In (Mem.view mem)
  enough : tree.totalsize < fuel

def InitCall.run (c : InitCall) (s : SysconState) : Result (KError × SysconState) :=
  match c.kind with
  | .shutdown => sysconShutdownInit c.fuel (Mem.view c.mem) c.tree.fdt s
  | .reboot => sysconRebootInit c.fuel (Mem.view c.mem) c.tree.fdt s

/-- `SysconRun past s`: the calls in `past`, the last one first, returned what stands beside them
and left the state `s`. -/
inductive SysconRun : List (InitCall × KError) → SysconState → Prop
  | initial : SysconRun [] SysconState.initial
  | call {past : List (InitCall × KError)} {s s' : SysconState} {c : InitCall} {err : KError} :
      SysconRun past s → c.run s = .ok (err, s') → SysconRun ((c, err) :: past) s'

/-- The last call for an action, and what it returned. -/
def lastInit (kind : SysconKind) (past : List (InitCall × KError)) : Option (InitCall × KError) :=
  past.find? fun x => x.1.kind = kind

end RiscyOs
