import Mathlib.Data.Nat.Bitwise
import RiscyOs.Lib.ByteOrder
import RiscyOs.Machine

/-!
# `kernel/endian.h`

The byte swaps are the portable ones, of which the builtins are faster versions. The conversions
ask at run time for the byte order of the system when the configuration leaves it open.

* `toh_roundTrip`: whatever the order of the system, the conversions give the big-endian and the
  little-endian value of the bytes that were loaded, and take it back to them.
* `be32_eq`, `be64_eq`: the reads of the device tree are conversions of loads.
-/

namespace RiscyOs

open ByteMemory

/-! ## The system -/

/-- The order in which the system stores the bytes of an integer. -/
inductive ByteOrder where
  | little
  | big
  deriving Repr, DecidableEq

/-- The integer that is loaded from the bytes. -/
def ByteOrder.word : ByteOrder → List UInt8 → Nat
  | little, bs => leNat bs
  | big, bs => beNat bs

/-- The `n` bytes that are stored for an integer. -/
def ByteOrder.bytes : ByteOrder → Nat → Nat → List UInt8
  | little, n, x => (beBytes n x).reverse
  | big, n, x => beBytes n x

/-- `CONFIG_LITTLE_ENDIAN`, `CONFIG_BIG_ENDIAN` and `CONFIG_VARIABLE_ENDIAN` -/
inductive EndianConfig where
  | littleEndian
  | bigEndian
  | variableEndian
  deriving Repr, DecidableEq

/-- A fixed order is the one the system has. -/
def EndianConfig.Suits : EndianConfig → ByteOrder → Prop
  | littleEndian, order => order = .little
  | bigEndian, order => order = .big
  | variableEndian, _ => True

/-! ## The code -/

section
variable (config : EndianConfig) (order : ByteOrder)

def sysLittleEndian : Bool :=
  match config with
  | .littleEndian => true
  | .bigEndian => false
  -- `uint16_t x = 1; return *(uint8_t*)&x;`
  | .variableEndian => (order.bytes 2 1).headD 0 ≠ 0

def sysBigEndian : Bool := !sysLittleEndian config order

/-- The low `k` bits of `x`, with `mask` for them, and the high ones: each through `half`, and
exchanged. -/
def swapHalves (half : Nat → Nat) (k mask x : Nat) : Nat :=
  ((half (x &&& mask)) <<< k) % 2 ^ (k + k) ||| (half ((x >>> k) % 2 ^ k) &&& mask)

def bswap16 : Nat → Nat := swapHalves id 8 0xff

def bswap32 : Nat → Nat := swapHalves bswap16 16 0xffff

def bswap64 : Nat → Nat := swapHalves bswap32 32 0xffffffff

/-- The unsigned integer types with a swap. -/
inductive Width where
  | w16
  | w32
  | w64
  deriving Repr, DecidableEq

def Width.size : Width → Nat
  | w16 => 2
  | w32 => 4
  | w64 => 8

def bswap : Width → Nat → Nat
  | .w16 => bswap16
  | .w32 => bswap32
  | .w64 => bswap64

def betoh (w : Width) (x : Nat) : Nat := if sysLittleEndian config order then bswap w x else x

def letoh (w : Width) (x : Nat) : Nat := if sysBigEndian config order then bswap w x else x

def be16toh : Nat → Nat := betoh config order .w16

def be32toh : Nat → Nat := betoh config order .w32

def be64toh : Nat → Nat := betoh config order .w64

def le16toh : Nat → Nat := letoh config order .w16

def le32toh : Nat → Nat := letoh config order .w32

def le64toh : Nat → Nat := letoh config order .w64

end

/-! ## The swaps -/

variable {config : EndianConfig} {order : ByteOrder}

/-- A swap of halves that are `n` bytes long. -/
theorem reverses_swapHalves {half : Nat → Nat} {n k mask : Nat} (h : Reverses n half)
    (hk : 2 ^ k = 256 ^ n) (hmask : mask = 2 ^ k - 1) :
    Reverses (n + n) (swapHalves half k mask) := by
  have hbound : ∀ x, half (x % 256 ^ n) < 256 ^ n := by
    intro x
    obtain ⟨bs, hlen, hbs⟩ := exists_beNat (Nat.mod_lt x (Nat.pow_pos (by norm_num) : 256 ^ n > 0))
    rw [← hbs, h bs hlen, ← hlen]
    exact leNat_lt bs
  refine h.join fun x => ?_
  have hlow := hbound x
  have hhigh := hbound (x / 256 ^ n)
  have hfits : half (x % 256 ^ n) * 2 ^ k < 2 ^ (k + k) := by
    rw [Nat.pow_add, hk]
    exact Nat.mul_lt_mul_of_pos_right hlow (Nat.pow_pos (by norm_num))
  rw [swapHalves, hmask, Nat.and_two_pow_sub_one_eq_mod, Nat.and_two_pow_sub_one_eq_mod,
    Nat.shiftRight_eq_div_pow, Nat.shiftLeft_eq, hk, Nat.mod_eq_of_lt hhigh, ← hk,
    Nat.mod_eq_of_lt (hk ▸ hfits), ← Nat.shiftLeft_eq, ← Nat.shiftLeft_add_eq_or_of_lt,
    Nat.shiftLeft_eq]
  exact hk ▸ hhigh

theorem reverses_bswap16 : Reverses 2 bswap16 :=
  reverses_swapHalves reverses_one (by norm_num) rfl

theorem reverses_bswap32 : Reverses 4 bswap32 :=
  reverses_swapHalves reverses_bswap16 (by norm_num) rfl

theorem reverses_bswap64 : Reverses 8 bswap64 :=
  reverses_swapHalves reverses_bswap32 (by norm_num) rfl

theorem reverses_bswap (w : Width) : Reverses w.size (bswap w) := by
  cases w
  · exact reverses_bswap16
  · exact reverses_bswap32
  · exact reverses_bswap64

/-! ## The conversions -/

/-- The test finds the order of the system. -/
theorem sysLittleEndian_iff (h : config.Suits order) :
    sysLittleEndian config order = true ↔ order = .little := by
  cases config <;> cases order <;> first | decide | cases h

theorem sysBigEndian_iff (h : config.Suits order) :
    sysBigEndian config order = true ↔ order = .big := by
  cases config <;> cases order <;> first | decide | cases h

/-- **The conversions do not depend on the order of the system**: of a word that was loaded, one
gives the big-endian and the other the little-endian value of its bytes. -/
theorem toh_word (h : config.Suits order) (w : Width) {bs : List UInt8}
    (hlen : bs.length = w.size) :
    betoh config order w (order.word bs) = beNat bs ∧
      letoh config order w (order.word bs) = leNat bs := by
  have hlittle := sysLittleEndian_iff h
  have hbig := sysBigEndian_iff h
  have hrev := reverses_bswap w
  unfold betoh letoh
  cases order with
  | little =>
    have hnot : ¬ sysBigEndian config .little = true := fun hb => by cases hbig.1 hb
    rw [if_pos (hlittle.2 rfl), if_neg hnot]
    exact ⟨hrev.back hlen, rfl⟩
  | big =>
    have hnot : ¬ sysLittleEndian config .big = true := fun hl => by cases hlittle.1 hl
    rw [if_neg hnot, if_pos (hbig.2 rfl)]
    exact ⟨rfl, hrev bs hlen⟩

/-- Both conversions undo themselves. -/
theorem toh_twice (w : Width) {x : Nat} (hx : x < 256 ^ w.size) :
    betoh config order w (betoh config order w x) = x ∧
      letoh config order w (letoh config order w x) = x := by
  have htwice := (reverses_bswap w).twice hx
  unfold betoh letoh
  constructor <;> split_ifs
  · exact htwice
  · rfl
  · exact htwice
  · rfl

/-- What is stored for a word that was loaded are its bytes. -/
theorem ByteOrder.bytes_word (order : ByteOrder) (bs : List UInt8) :
    order.bytes bs.length (order.word bs) = bs := by
  cases order with
  | little =>
    have hback := beBytes_beNat bs.reverse
    rw [List.length_reverse] at hback
    rw [bytes, word, leNat, hback, List.reverse_reverse]
  | big => exact beBytes_beNat bs

theorem ByteOrder.word_lt (order : ByteOrder) (bs : List UInt8) :
    order.word bs < 256 ^ bs.length := by
  cases order with
  | little => exact leNat_lt bs
  | big => exact beNat_lt bs

/-- **The conversions go both ways.** A word that is loaded is converted to the value of its bytes,
in the order that is asked for, and the converted value is stored as the bytes. -/
theorem toh_roundTrip (h : config.Suits order) (w : Width) {bs : List UInt8}
    (hlen : bs.length = w.size) :
    (betoh config order w (order.word bs) = beNat bs ∧
        order.bytes w.size (betoh config order w (beNat bs)) = bs) ∧
      letoh config order w (order.word bs) = leNat bs ∧
        order.bytes w.size (letoh config order w (leNat bs)) = bs := by
  obtain ⟨hbe, hle⟩ := toh_word h w hlen
  obtain ⟨hbe', hle'⟩ := toh_twice w
    (hlen ▸ order.word_lt bs : order.word bs < 256 ^ w.size)
  have hstore := order.bytes_word bs
  rw [hlen] at hstore
  rw [hbe] at hbe'
  rw [hle] at hle'
  exact ⟨⟨hbe, by rw [hbe', hstore]⟩, hle, by rw [hle', hstore]⟩

/-- The magic number, on a system that finds its order at run time. -/
theorem toh_roundTrip_magic :
    (betoh .variableEndian .little .w32 (ByteOrder.little.word [0xd0, 0x0d, 0xfe, 0xed]) =
        0xd00dfeed ∧
      ByteOrder.little.bytes 4 (betoh .variableEndian .little .w32 0xd00dfeed) =
        [0xd0, 0x0d, 0xfe, 0xed]) ∧
    letoh .variableEndian .little .w32 (ByteOrder.little.word [0xd0, 0x0d, 0xfe, 0xed]) =
        0xedfe0dd0 ∧
      ByteOrder.little.bytes 4 (letoh .variableEndian .little .w32 0xedfe0dd0) =
        [0xd0, 0x0d, 0xfe, 0xed] :=
  have hsuits : EndianConfig.variableEndian.Suits .little := trivial
  toh_roundTrip hsuits .w32 (rfl : ([0xd0, 0x0d, 0xfe, 0xed] : List UInt8).length = Width.w32.size)

/-! ## The reads of the device tree -/

/-- The big-endian load is the conversion of a load. -/
theorem be32_eq (h : config.Suits order) (v : View) (a : Nat) :
    be32 v a = match v.bytes a 4 with
      | some bs => .ok (be32toh config order (order.word bs))
      | none => .error .unmapped := by
  rw [be32, View.loadBE]
  cases hbs : v.bytes a 4 with
  | none => rfl
  | some bs =>
    dsimp only [Option.map]
    rw [be32toh, (toh_word h .w32 (View.length_of_bytes hbs)).1]

theorem be64_eq (h : config.Suits order) (v : View) (a : Nat) :
    be64 v a = match v.bytes a 8 with
      | some bs => .ok (be64toh config order (order.word bs))
      | none => .error .unmapped := by
  rw [be64, View.loadBE]
  cases hbs : v.bytes a 8 with
  | none => rfl
  | some bs =>
    dsimp only [Option.map]
    rw [be64toh, (toh_word h .w64 (View.length_of_bytes hbs)).1]

end RiscyOs
