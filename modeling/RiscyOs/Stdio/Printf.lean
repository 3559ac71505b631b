import RiscyOs.CString

/-!
# `formatted_print`: `libc/src/stdio/printf.c`

The literal characters of a format string are collected in a buffer and passed to `puts` 32 at a
time, or when a conversion comes up; a conversion writes to the same buffer. The model returns the
strings passed to `puts`, in order, with the number of characters the code counts.

A local array faults on a write outside its bounds (`Fault.outOfBounds`), and so does `va_arg` when
the next argument is not there or has another type.
-/

namespace RiscyOs

open ByteMemory FuelLoop

/-- A character constant. -/
def chr (c : Char) : UInt8 := UInt8.ofNat c.toNat

/-- The value of an `int`, in two's complement. -/
def int32 (i : Int) : Int := (i + 2 ^ 31) % 2 ^ 32 - 2 ^ 31

def iadd (a b : Int) : Int := int32 (a + b)

/-! ## Local arrays -/

/-- A local `char` array: `none` is a byte that was never written. -/
structure CharArray where
  cells : List (Option UInt8)

namespace CharArray

def uninit (n : Nat) : CharArray := ⟨List.replicate n none⟩

/-- Write `buf[i]`. -/
def write (buf : CharArray) (i : Nat) (c : UInt8) : Result CharArray :=
  if i < buf.cells.length then .ok ⟨buf.cells.set i (some c)⟩ else .error .outOfBounds

/-- Write `buf[i]`, `buf[i + 1]`, … -/
def writeAll (buf : CharArray) : Nat → List UInt8 → Result CharArray
  | _, [] => .ok buf
  | i, c :: cs => do
    let buf ← buf.write i c
    buf.writeAll (i + 1) cs

/-- The array as a `const char*`, with what it holds now. -/
def str (buf : CharArray) : CStr := ⟨fun a => if 1 ≤ a then (buf.cells[a - 1]?).join else none, 1⟩

end CharArray

/-! ## Arguments -/

/-- An argument of `printf`. -/
inductive Arg where
  | int (x : Int)
  | str (s : CStr)
  | ptr (p : Nat)

/-- `va_arg(args, int)` -/
def vaInt : List Arg → Result (Int × List Arg)
  | .int x :: args => .ok (x, args)
  | _ => .error .outOfBounds

/-- `va_arg(args, char*)` -/
def vaStr : List Arg → Result (CStr × List Arg)
  | .str s :: args => .ok (s, args)
  | _ => .error .outOfBounds

/-- `va_arg(args, void*)` -/
def vaPtr : List Arg → Result (Nat × List Arg)
  | .ptr p :: args => .ok (p, args)
  | _ => .error .outOfBounds

/-- The cast from `int` to `char`. -/
def toChar (x : Int) : UInt8 := UInt8.ofNat (x % 256).toNat

/-! ## `pointer_print` -/

/-- A digit below `16`, with capital letters (`POINTERS_USE_CAPTIAL_HEX`). -/
def hexDigit (digit : UInt8) : UInt8 :=
  if digit < 10 then digit + chr '0' else digit - 10 + chr 'A'

/-- The loop of `pointer_print` for `i = n + 1`, …, `2`. -/
def pointerDigits : Nat → Nat → CharArray → Result CharArray
  | 0, _, buf => .ok buf
  | n + 1, ip, buf => do
    if ip > 0 then
      let buf ← buf.write (n + 2) (hexDigit (UInt8.ofNat (ip &&& 0xF)))
      pointerDigits n (ip >>> 4) buf
    else
      let buf ← buf.write (n + 2) (chr '0')
      pointerDigits n ip buf

/-- The string passed to `puts`, and the number of characters. -/
def pointerPrint (p : Nat) : Result (CStr × Int) := do
  let buf ← pointerDigits 16 p (.uninit 19)
  let buf ← buf.write 0 (chr '0')
  let buf ← buf.write 1 (chr 'x')
  let buf ← buf.write 18 0
  return (buf.str, 18)

/-! ## `formatted_print` -/

/-- `BUF_LEN` -/
abbrev bufLen : Nat := 32

/-- The locals of `formatted_print`, and the strings passed to `puts` so far. -/
structure PrintState where
  /-- How far `fmt` has advanced. -/
  fmt : Nat
  args : List Arg
  buf : CharArray
  bufHead : Nat
  numChars : Int
  escaped : Bool
  puts : List CStr

namespace PrintState

/-- Flush the buffer. -/
def flush (st : PrintState) : Result PrintState := do
  if st.bufHead > 0 then
    let buf ← st.buf.write st.bufHead 0
    return { st with
      buf := buf
      puts := st.puts ++ [buf.str]
      numChars := iadd st.numChars st.bufHead
      bufHead := 0 }
  else return st

/-- Write `cs` and a terminator to the start of the buffer, pass it to `puts`, and leave the
escape. -/
def putChars (st : PrintState) (cs : List UInt8) : Result PrintState := do
  let buf ← st.buf.writeAll 0 (cs ++ [0])
  return { st with
    buf := buf
    puts := st.puts ++ [buf.str]
    numChars := iadd st.numChars cs.length
    escaped := false }

/-- The `switch` on the character after a `%`. -/
def convert (fuel : Nat) (st : PrintState) (c : UInt8) : Result PrintState := do
  if c = 0 ∨ c = chr '%' then st.putChars [chr '%']
  else if c = chr 'c' then
    let (x, args) ← vaInt st.args
    { st with args := args }.putChars [toChar x]
  else if c = chr 's' then
    let (s, args) ← vaStr st.args
    let len ← strlen fuel s
    return { st with
      args := args
      puts := st.puts ++ [s]
      numChars := iadd st.numChars (int32 len)
      escaped := false }
  else if c = chr 'p' then
    let (p, args) ← vaPtr st.args
    let (s, n) ← pointerPrint p
    return { st with
      args := args
      puts := st.puts ++ [s]
      numChars := iadd st.numChars n
      escaped := false }
  else st.putChars [chr '%', c]

/-- A character outside an escape. -/
def literal (st : PrintState) (c : UInt8) : Result PrintState := do
  if c = 0 then return st
  else if c = chr '%' then return { st with escaped := true }
  else
    let buf ← st.buf.write st.bufHead c
    if st.bufHead + 1 = bufLen then
      return { st with
        buf := buf
        puts := st.puts ++ [buf.str]
        numChars := iadd st.numChars bufLen
        bufHead := 0 }
    else return { st with buf := buf, bufHead := st.bufHead + 1 }

/-- One pass of the loop, up to `fmt++`. -/
def pass (fuel : Nat) (fmt : CStr) (st : PrintState) : Result PrintState := do
  let c ← fmt.char st.fmt
  if st.escaped then
    let st ← st.flush
    st.convert fuel c
  else st.literal c

end PrintState

/-- One pass and the test of the `do … while`. -/
def formattedStep (fuel : Nat) (fmt : CStr) (st : PrintState) :
    Result (PrintState ⊕ PrintState) := do
  let st ← st.pass fuel fmt
  let st := { st with fmt := st.fmt + 1 }
  let c ← fmt.char st.fmt
  return if c ≠ 0 then .inl st else .inr st

/-- The strings passed to `puts`, and the result. -/
def formattedPrint (fuel : Nat) (fmt : CStr) (args : List Arg) : Result (List CStr × Int) := do
  -- the backup terminator
  let buf ← (CharArray.uninit (bufLen + 1)).write bufLen 0
  let st ← loop .outOfFuel (formattedStep fuel fmt) fuel ⟨0, args, buf, 0, 0, false, []⟩
  let st ← st.flush
  return (st.puts, st.numChars)

end RiscyOs
