import RiscyOs.Lib.ByteMemory

/-!
# Byte orders

A list of bytes has a value in each order: the highest byte first (`beNat`), or the lowest first
(`leNat`). A function reverses `n` bytes when it takes the one value to the other.

* `Reverses.join`: functions that reverse the two halves make one that reverses the whole.
* `Reverses.twice`: reversing twice changes nothing.
-/

namespace ByteMemory

/-- The little-endian value of a list of bytes. -/
def leNat (bs : List UInt8) : Nat := beNat bs.reverse

theorem leNat_reverse (bs : List UInt8) : leNat bs.reverse = beNat bs := by
  rw [leNat, List.reverse_reverse]

theorem leNat_lt (bs : List UInt8) : leNat bs < 256 ^ bs.length := by
  rw [← List.length_reverse]
  exact beNat_lt bs.reverse

theorem beNat_append (bs cs : List UInt8) :
    beNat (bs ++ cs) = beNat bs * 256 ^ cs.length + beNat cs := by
  induction cs using List.reverseRecOn with
  | nil => rw [List.append_nil, List.length_nil, pow_zero, Nat.mul_one]; rfl
  | append_singleton cs c ih =>
    rw [← List.append_assoc, beNat_concat, beNat_concat, ih, List.length_append,
      List.length_singleton, pow_succ]
    ring

theorem leNat_append (bs cs : List UInt8) :
    leNat (bs ++ cs) = leNat cs * 256 ^ bs.length + leNat bs := by
  rw [leNat, List.reverse_append, beNat_append, List.length_reverse]
  rfl

/-- Every number that fits is the value of some bytes. -/
theorem exists_beNat {n x : Nat} (h : x < 256 ^ n) :
    ∃ bs : List UInt8, bs.length = n ∧ beNat bs = x :=
  ⟨beBytes n x, length_beBytes n x, beNat_beBytes h⟩

/-- The bytes of the value are the bytes. -/
theorem beBytes_beNat (bs : List UInt8) : beBytes bs.length (beNat bs) = bs :=
  (beNat_inj (length_beBytes _ _)).1 (beNat_beBytes (beNat_lt bs))

/-! ## Reversing -/

/-- `f` reverses `n` bytes. -/
def Reverses (n : Nat) (f : Nat → Nat) : Prop :=
  ∀ bs : List UInt8, bs.length = n → f (beNat bs) = leNat bs

variable {n k : Nat} {f g : Nat → Nat}

/-- It takes the bytes back as well. -/
theorem Reverses.back (h : Reverses n f) {bs : List UInt8} (hlen : bs.length = n) :
    f (leNat bs) = beNat bs := by
  rw [leNat, h _ (by rw [List.length_reverse, hlen]), leNat_reverse]

/-- **Reversing twice changes nothing.** -/
theorem Reverses.twice (h : Reverses n f) {x : Nat} (hx : x < 256 ^ n) : f (f x) = x := by
  obtain ⟨bs, hlen, rfl⟩ := exists_beNat hx
  rw [h bs hlen, h.back hlen]

/-- One byte is its own reverse. -/
theorem reverses_one : Reverses 1 id := by
  intro bs hlen
  obtain ⟨b, rfl⟩ := List.length_eq_one_iff.1 hlen
  rfl

/-- The two halves of a value. -/
theorem halves_eq {hi lo : List UInt8} :
    beNat (hi ++ lo) % 256 ^ lo.length = beNat lo ∧
      beNat (hi ++ lo) / 256 ^ lo.length = beNat hi := by
  have hlo := beNat_lt lo
  rw [beNat_append, Nat.mul_comm]
  constructor
  · rw [Nat.mul_add_mod, Nat.mod_eq_of_lt hlo]
  · rw [Nat.mul_add_div (Nat.pow_pos (by norm_num)), Nat.div_eq_of_lt hlo, Nat.add_zero]

/-- **The halves reversed, and exchanged, are the whole reversed.** -/
theorem Reverses.join (hf : Reverses n f)
    (hg : ∀ x, g x = f (x % 256 ^ n) * 256 ^ n + f (x / 256 ^ n % 256 ^ n)) :
    Reverses (n + n) g := by
  intro bs hlen
  obtain ⟨hi, lo, rfl, hhi, hlo⟩ : ∃ hi lo, bs = hi ++ lo ∧ hi.length = n ∧ lo.length = n :=
    ⟨bs.take n, bs.drop n, (List.take_append_drop n bs).symm,
      by rw [List.length_take]; omega, by rw [List.length_drop]; omega⟩
  obtain ⟨hmod, hdiv⟩ := @halves_eq hi lo
  have hsmall : beNat hi < 256 ^ n := hhi ▸ beNat_lt hi
  rw [hlo] at hmod hdiv
  rw [hg, hmod, hdiv, Nat.mod_eq_of_lt hsmall, hf lo hlo, hf hi hhi, leNat_append, hhi]

end ByteMemory
