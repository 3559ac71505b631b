import Mathlib.Data.List.Basic
import Mathlib.Data.List.Induction
import Mathlib.Algebra.Order.Ring.Nat
import Mathlib.Tactic.Ring

/-!
# Byte-addressed memory

Two kinds of memory, both indexed by natural addresses:

* `Mem` is total, and is read and written in little-endian words (`loadLE`, `storeLE`);
* `View` is partial: the bytes a reader may look at. A read that succeeds in a view has touched
  only bytes the view has, so a result proved in a small view is also a bound on what was read.

Every lemma about a word is a fact about the bytes `[a, a + n)` it occupies.
-/

namespace ByteMemory

/-! ## Total memory, little-endian words -/

abbrev Mem := Nat → UInt8

/-- The little-endian value of the `n` bytes at `a`. -/
def loadLE (m : Mem) (a : Nat) : Nat → Nat
  | 0 => 0
  | n + 1 => (m a).toNat + 256 * loadLE m (a + 1) n

/-- Write the low `n` bytes of `x` at `a`, lowest byte first. -/
def storeLE (m : Mem) (a n x : Nat) : Mem :=
  fun b => if a ≤ b ∧ b < a + n then UInt8.ofNat (x / 256 ^ (b - a)) else m b

theorem loadLE_lt (m : Mem) (a n : Nat) : loadLE m a n < 256 ^ n := by
  induction n generalizing a with
  | zero => simp [loadLE]
  | succ n ih =>
    have hb : (m a).toNat < 256 := (m a).toNat_lt
    have hr := ih (a + 1)
    rw [loadLE, pow_succ]
    omega

/-- A word is its bytes. -/
theorem loadLE_congr {m m' : Mem} {a n : Nat} (h : ∀ b, a ≤ b → b < a + n → m' b = m b) :
    loadLE m' a n = loadLE m a n := by
  induction n generalizing a with
  | zero => rfl
  | succ n ih =>
    rw [loadLE, loadLE, h a le_rfl (by omega), ih fun b hb hb' => h b (by omega) (by omega)]

theorem storeLE_outside {m : Mem} {a n x b : Nat} (h : b < a ∨ a + n ≤ b) :
    storeLE m a n x b = m b := by
  rw [storeLE, if_neg (by omega)]

theorem loadLE_storeLE_disjoint {m : Mem} {a n x b k : Nat} (h : b + k ≤ a ∨ a + n ≤ b) :
    loadLE (storeLE m a n x) b k = loadLE m b k :=
  loadLE_congr fun c hc hc' => storeLE_outside (by omega)

/-- Reading past the first byte of a store is reading the store of the higher bytes. -/
theorem loadLE_storeLE_shift (m : Mem) (a n x : Nat) :
    loadLE (storeLE m a (n + 1) x) (a + 1) n =
      loadLE (storeLE m (a + 1) n (x / 256)) (a + 1) n := by
  refine loadLE_congr fun b hb hb' => ?_
  have hexp : b - a = (b - (a + 1)) + 1 := by omega
  rw [storeLE, storeLE, if_pos (by omega), if_pos (by omega), hexp, pow_succ,
    Nat.mul_comm, ← Nat.div_div_eq_div_mul]

theorem loadLE_storeLE_self (m : Mem) (a n x : Nat) :
    loadLE (storeLE m a n x) a n = x % 256 ^ n := by
  induction n generalizing a x with
  | zero => simp [loadLE, Nat.mod_one]
  | succ n ih =>
    have hbyte : (storeLE m a (n + 1) x a).toNat = x % 256 := by simp [storeLE]
    rw [loadLE, loadLE_storeLE_shift, ih, hbyte, pow_succ, Nat.mul_comm (256 ^ n), Nat.mod_mul]

theorem storeLE_zero (m : Mem) (a n b : Nat) :
    storeLE m a n 0 b = if a ≤ b ∧ b < a + n then 0 else m b := by
  rw [storeLE, Nat.zero_div]
  rfl

/-- A word of zeros. -/
theorem loadLE_eq_zero {m : Mem} {a n : Nat} (h : ∀ b, a ≤ b → b < a + n → m b = 0) :
    loadLE m a n = 0 := by
  induction n generalizing a with
  | zero => rfl
  | succ n ih =>
    rw [loadLE, h a le_rfl (by omega), ih fun b hb hb' => h b (by omega) (by omega)]
    rfl

/-! ## Partial memory, big-endian words -/

/-- The bytes a reader may look at. -/
abbrev View := Nat → Option UInt8

/-- All of a memory may be looked at. -/
def Mem.view (m : Mem) : View := fun a => some (m a)

namespace View

/-- The `n` bytes at `a`, if the view has them all. -/
def bytes (v : View) (a : Nat) : Nat → Option (List UInt8)
  | 0 => some []
  | n + 1 => (v a).bind fun b => (bytes v (a + 1) n).map (b :: ·)

/-- The view holds `bs` at `a`. -/
def Holds (v : View) (a : Nat) : List UInt8 → Prop
  | [] => True
  | b :: bs => v a = some b ∧ Holds v (a + 1) bs

instance Holds.decidable (v : View) : (a : Nat) → (bs : List UInt8) → Decidable (v.Holds a bs)
  | _, [] => inferInstanceAs (Decidable True)
  | a, b :: bs =>
    have := Holds.decidable v (a + 1) bs
    inferInstanceAs (Decidable (v a = some b ∧ v.Holds (a + 1) bs))

/-- Only the bytes `bs`, at `base`. -/
def ofList (base : Nat) (bs : List UInt8) : View :=
  fun a => if base ≤ a then bs[a - base]? else none

/-- A memory with the bytes of the view, and zeros elsewhere. -/
def fill (v : View) : Mem := fun a => (v a).getD 0

/-- Every byte may be looked at. -/
def Total (v : View) : Prop := ∀ a, ∃ b, v a = some b

/-- The bytes of `v` in `[a, a + n)`, and no others. -/
def only (v : View) (a n : Nat) : View := fun b => if a ≤ b ∧ b < a + n then v b else none

/-- `v'` has the bytes `v` has in `[lo, hi)`. -/
def Agrees (v v' : View) (lo hi : Nat) : Prop := ∀ a, lo ≤ a → a < hi → v' a = v a

theorem Agrees.mono {v v' : View} {lo hi lo' hi' : Nat} (h : Agrees v v' lo hi)
    (hlo : lo ≤ lo') (hhi : hi' ≤ hi) : Agrees v v' lo' hi' :=
  fun a ha ha' => h a (by omega) (by omega)

theorem holds_of_get {v : View} {a : Nat} {bs : List UInt8}
    (h : ∀ i (hi : i < bs.length), v (a + i) = some bs[i]) : v.Holds a bs := by
  induction bs generalizing a with
  | nil => trivial
  | cons b bs ih =>
    refine ⟨h 0 (Nat.succ_pos _), ih ?_⟩
    intro i hi
    rw [show a + 1 + i = a + (i + 1) by omega]
    exact h (i + 1) (Nat.succ_lt_succ hi)

theorem ofList_holds (base : Nat) (bs : List UInt8) : (ofList base bs).Holds base bs := by
  apply holds_of_get
  intro i hi
  rw [ofList, if_pos (Nat.le_add_right base i), Nat.add_sub_cancel_left,
    List.getElem?_eq_getElem hi]

theorem Holds.fill {v : View} {a : Nat} {bs : List UInt8} (h : v.Holds a bs) :
    (Mem.view v.fill).Holds a bs := by
  induction bs generalizing a with
  | nil => trivial
  | cons b bs ih => exact ⟨by simp [Mem.view, View.fill, h.1], ih h.2⟩

theorem bytes_eq_of_holds {v : View} {a : Nat} {bs : List UInt8} (h : v.Holds a bs) :
    v.bytes a bs.length = some bs := by
  induction bs generalizing a with
  | nil => rfl
  | cons b bs ih => simp [bytes, h.1, ih h.2]

theorem holds_append {v : View} {a : Nat} {bs cs : List UInt8} :
    v.Holds a (bs ++ cs) ↔ v.Holds a bs ∧ v.Holds (a + bs.length) cs := by
  induction bs generalizing a with
  | nil => simp [Holds]
  | cons b bs ih =>
    rw [List.cons_append, Holds, Holds, ih, and_assoc, List.length_cons,
      show a + (bs.length + 1) = a + 1 + bs.length by omega]

theorem Holds.get {v : View} {a : Nat} {bs : List UInt8} (h : v.Holds a bs) {i : Nat}
    (hi : i < bs.length) : v (a + i) = some bs[i] := by
  induction bs generalizing a i with
  | nil => simp at hi
  | cons b bs ih =>
    cases i with
    | zero => exact h.1
    | succ i =>
      rw [show a + (i + 1) = a + 1 + i by omega]
      exact ih h.2 (by simpa using hi)

theorem Holds.of_agrees {v v' : View} {a : Nat} {bs : List UInt8} (h : v.Holds a bs)
    (hag : Agrees v v' a (a + bs.length)) : v'.Holds a bs := by
  induction bs generalizing a with
  | nil => trivial
  | cons b bs ih =>
    have hlen : (b :: bs).length = bs.length + 1 := rfl
    refine ⟨(hag a le_rfl (by omega)).trans h.1, ih h.2 fun c hc hc' => hag c ?_ ?_⟩ <;> omega

theorem bytes_of_agrees {v v' : View} {a n : Nat} (hag : Agrees v v' a (a + n)) :
    v'.bytes a n = v.bytes a n := by
  induction n generalizing a with
  | zero => rfl
  | succ n ih =>
    rw [bytes, bytes, hag a le_rfl (by omega),
      ih fun c hc hc' => hag c (by omega) (by omega)]

theorem agrees_only (v : View) (a n : Nat) : Agrees v (v.only a n) a (a + n) := by
  intro b hb hb'
  rw [View.only, if_pos ⟨hb, hb'⟩]

theorem Holds.only {v : View} {a : Nat} {bs : List UInt8} (h : v.Holds a bs) :
    (v.only a bs.length).Holds a bs :=
  h.of_agrees (v.agrees_only a bs.length)

theorem of_only {v : View} {a n b : Nat} {x : UInt8} (h : v.only a n b = some x) :
    v b = some x ∧ a ≤ b ∧ b < a + n := by
  rw [View.only] at h
  split at h
  · exact ⟨h, ‹a ≤ b ∧ b < a + n›⟩
  · cases h

/-- Bytes that a part of a view holds are in all of it. -/
theorem Holds.of_only {v : View} {a n b : Nat} {bs : List UInt8} (h : (v.only a n).Holds b bs) :
    v.Holds b bs := by
  induction bs generalizing b with
  | nil => trivial
  | cons x xs ih => exact ⟨(View.of_only h.1).1, ih h.2⟩

/-- What is read there is read in all of the view. -/
theorem bytes_of_only {v : View} {a n b k : Nat} {bs : List UInt8}
    (h : (v.only a n).bytes b k = some bs) : v.bytes b k = some bs := by
  induction k generalizing b bs with
  | zero => exact h
  | succ k ih =>
    simp only [bytes, Option.bind_eq_some_iff, Option.map_eq_some_iff] at h ⊢
    obtain ⟨x, hx, xs, hxs, rfl⟩ := h
    exact ⟨x, (of_only hx).1, xs, ih hxs, rfl⟩

/-- Nothing is read outside. -/
theorem le_of_bytes_only {v : View} {a n b k : Nat} {bs : List UInt8}
    (h : (v.only a n).bytes b (k + 1) = some bs) : a ≤ b ∧ b + (k + 1) ≤ a + n := by
  induction k generalizing b bs with
  | zero =>
    simp only [bytes, Option.bind_eq_some_iff] at h
    obtain ⟨x, hx, -⟩ := h
    exact (of_only hx).2
  | succ k ih =>
    rw [bytes, Option.bind_eq_some_iff] at h
    obtain ⟨x, hx, h⟩ := h
    obtain ⟨xs, hxs, -⟩ := Option.map_eq_some_iff.1 h
    have hfirst := (of_only hx).2
    have hrest := ih hxs
    omega

end View

/-- The big-endian value of a list of bytes. -/
def beNat (bs : List UInt8) : Nat := bs.foldl (fun acc b => 256 * acc + b.toNat) 0

/-- The low `n` bytes of `x`, highest byte first. -/
def beBytes : Nat → Nat → List UInt8
  | 0, _ => []
  | n + 1, x => UInt8.ofNat (x / 256 ^ n) :: beBytes n x

theorem length_beBytes (n x : Nat) : (beBytes n x).length = n := by
  induction n with
  | zero => rfl
  | succ n ih => rw [beBytes, List.length_cons, ih]

/-- The bytes of a number have its value. -/
theorem beNat_beBytes {n x : Nat} (h : x < 256 ^ n) : beNat (beBytes n x) = x := by
  suffices ∀ acc, (beBytes n x).foldl (fun acc b => 256 * acc + b.toNat) acc =
      acc * 256 ^ n + x % 256 ^ n by
    rw [beNat, this, Nat.zero_mul, Nat.zero_add, Nat.mod_eq_of_lt h]
  clear h
  induction n with
  | zero => simp [beBytes, Nat.mod_one]
  | succ n ih =>
    intro acc
    have hbyte : (UInt8.ofNat (x / 256 ^ n)).toNat = x / 256 ^ n % 256 := by simp
    have hmod : x % 256 ^ (n + 1) = x % 256 ^ n + 256 ^ n * (x / 256 ^ n % 256) := by
      rw [pow_succ, Nat.mod_mul]
    rw [beBytes, List.foldl_cons, ih, hbyte, hmod, pow_succ]
    ring

theorem beNat_lt (bs : List UInt8) : beNat bs < 256 ^ bs.length := by
  suffices ∀ acc, bs.foldl (fun acc b => 256 * acc + b.toNat) acc < (acc + 1) * 256 ^ bs.length by
    have := this 0
    rwa [Nat.zero_add, Nat.one_mul] at this
  induction bs with
  | nil => simp
  | cons b bs ih =>
    intro acc
    have hb : b.toNat < 256 := b.toNat_lt
    calc bs.foldl (fun acc b => 256 * acc + b.toNat) (256 * acc + b.toNat)
        < (256 * acc + b.toNat + 1) * 256 ^ bs.length := ih _
      _ ≤ ((acc + 1) * 256) * 256 ^ bs.length := Nat.mul_le_mul_right _ (by omega)
      _ = (acc + 1) * 256 ^ (b :: bs).length := by rw [List.length_cons, pow_succ]; ring

theorem beNat_concat (bs : List UInt8) (b : UInt8) :
    beNat (bs ++ [b]) = 256 * beNat bs + b.toNat := by
  rw [beNat, List.foldl_append]
  rfl

/-- Lists of one length are their values. -/
theorem beNat_inj {bs cs : List UInt8} (hlen : bs.length = cs.length) :
    beNat bs = beNat cs ↔ bs = cs := by
  constructor
  · intro heq
    induction bs using List.reverseRecOn generalizing cs with
    | nil => exact (List.length_eq_zero_iff.1 hlen.symm).symm
    | append_singleton bs b ih =>
      rcases List.eq_nil_or_concat' cs with rfl | ⟨cs, c, rfl⟩
      · simp at hlen
      · rw [beNat_concat, beNat_concat] at heq
        have hb := b.toNat_lt
        have hc := c.toNat_lt
        have hlast : b = c := UInt8.toNat_inj.1 (by omega)
        have hinit : bs = cs := ih (by simpa using hlen) (by omega)
        rw [hinit, hlast]
  · rintro rfl
    rfl

/-- The big-endian value of the `n` bytes at `a`. -/
def View.loadBE (v : View) (a n : Nat) : Option Nat := (v.bytes a n).map beNat

theorem View.loadBE_eq_of_holds {v : View} {a : Nat} {bs : List UInt8} (h : v.Holds a bs) :
    v.loadBE a bs.length = some (beNat bs) := by
  simp [loadBE, bytes_eq_of_holds h]

theorem View.length_of_bytes {v : View} {a n : Nat} {bs : List UInt8} (h : v.bytes a n = some bs) :
    bs.length = n := by
  induction n generalizing a bs with
  | zero =>
    cases h
    rfl
  | succ n ih =>
    rw [View.bytes, Option.bind_eq_some_iff] at h
    obtain ⟨b, -, hrest⟩ := h
    obtain ⟨bs', hbs', rfl⟩ := Option.map_eq_some_iff.1 hrest
    rw [List.length_cons, ih hbs']

theorem View.loadBE_lt {v : View} {a n x : Nat} (h : v.loadBE a n = some x) : x < 256 ^ n := by
  obtain ⟨bs, hbs, rfl⟩ := Option.map_eq_some_iff.1 h
  rw [← View.length_of_bytes hbs]
  exact beNat_lt bs

/-- Reading inside held bytes is reading the list. -/
theorem View.loadBE_slice {v : View} {a off n : Nat} {bs : List UInt8} (h : v.Holds a bs)
    (hle : off + n ≤ bs.length) :
    v.loadBE (a + off) n = some (beNat ((bs.drop off).take n)) := by
  have hsplit : bs.take off ++ ((bs.drop off).take n ++ (bs.drop off).drop n) = bs := by
    rw [List.take_append_drop, List.take_append_drop]
  rw [← hsplit, View.holds_append, View.holds_append, List.length_take, Nat.min_eq_left (by omega)]
    at h
  have hload := View.loadBE_eq_of_holds h.2.1
  rwa [List.length_take, List.length_drop, Nat.min_eq_left (by omega)] at hload

theorem View.Total.loadBE {v : View} (h : v.Total) (a n : Nat) : ∃ x, v.loadBE a n = some x := by
  have hbytes : ∃ bs, v.bytes a n = some bs := by
    induction n generalizing a with
    | zero => exact ⟨[], rfl⟩
    | succ n ih =>
      obtain ⟨b, hb⟩ := h a
      obtain ⟨bs, hbs⟩ := ih (a + 1)
      exact ⟨b :: bs, by simp [View.bytes, hb, hbs]⟩
  obtain ⟨bs, hbs⟩ := hbytes
  exact ⟨beNat bs, by simp [View.loadBE, hbs]⟩

theorem Mem.view_total (m : Mem) : (Mem.view m).Total := fun a => ⟨m a, rfl⟩

theorem View.loadBE_of_agrees {v v' : View} {a n : Nat} (hag : Agrees v v' a (a + n)) :
    v'.loadBE a n = v.loadBE a n := by
  rw [loadBE, loadBE, bytes_of_agrees hag]

end ByteMemory
