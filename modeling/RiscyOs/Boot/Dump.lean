import RiscyOs.Boot.Layout
import RiscyOs.Lib.Outline
import RiscyOs.Stdio.Printk

/-!
# `boot_mem_dump`

The dump has one line for each node of the free list, between a head line and a foot line. Every
line holds three pointers of sixteen digits, so the list can be read back from the dump, whether
its regions wrap, overlap or are out of order.

* `bootMemDump_eq`: what is printed for a list of nodes.
* `bootMemDump_readDump`: a callback can read the list back from what it gets.
-/

namespace RiscyOs

open ByteMemory FuelLoop Outline

/-- One pass of the loop of `boot_mem_dump`. -/
def bootMemDumpStep (fuel : Nat) (t : PutcharArray) (s : Machine) :
    Nat × Calls → Result ((Nat × Calls) ⊕ Calls) := fun (curr, out) => do
  if curr = NULL then return .inr out
  let size ← s.size curr
  let stop := wadd curr size
  let out ← printk fuel t (ascii "[%p - %p] size = (%p bytes)\n")
    [.ptr curr, .ptr stop, .ptr size] out
  let curr ← bootFreeListNext s curr
  return .inl (curr, out)

def bootMemDump (fuel : Nat) (t : PutcharArray) (s : Machine) (out : Calls) :
    Result (KError × Calls) := do
  let out ← printk fuel t (ascii "--- BOOT ALLOC FREE REGIONS ---\n") [] out
  let out ← loop .outOfFuel (bootMemDumpStep fuel t s) fuel (bootFreeListBegin s, out)
  let out ← printk fuel t (ascii "-------------------------------\n") [] out
  return (.success, out)

/-! ## The text -/

/-- The line of a region; the end it shows is a machine sum. -/
def regionLine (r : Region) : List UInt8 :=
  ascii "[0x" ++ (hexDigits 16 r.addr ++ (ascii " - 0x" ++ (hexDigits 16 (wadd r.addr r.size) ++
    (ascii "] size = (0x" ++ (hexDigits 16 r.size ++ ascii " bytes)")))))

def dumpText (rs : List Region) : List UInt8 :=
  unlines (chr '\n') (ascii "--- BOOT ALLOC FREE REGIONS ---" ::
    (rs.map regionLine ++ [ascii "-------------------------------"]))

/-- The region of a line: its address and its size. -/
def readRegion (line : List UInt8) : Region :=
  ⟨hexValue ((line.drop 3).take 16), hexValue ((line.drop 52).take 16)⟩

/-- The regions of the lines between the first and the last one. -/
def readDump (text : List UInt8) : List Region :=
  (lines (chr '\n') text).tail.dropLast.map readRegion

/-- The free list of the machine has the nodes `rs`, anywhere but at `NULL`. -/
structure HasNodes (s : Machine) (rs : List Region) : Prop where
  head_lt : s.bootFreeList < 2 ^ 64
  linked : Seg s.mem NULL s.bootFreeList rs NULL
  nonnull : ∀ r ∈ rs, 0 < r.addr

variable {s : Machine} {t : PutcharArray} {S : Finset Nat} {r : Region} {rs : List Region}
  {fuel cb : Nat}

theorem Represents.hasNodes {fl : FreeList} (h : Represents s fl) : HasNodes s fl.regions := by
  refine ⟨?_, h, fl.layout.nonnull⟩
  unfold Represents at h
  cases hrs : fl.regions with
  | nil =>
    rw [hrs] at h
    rw [show s.bootFreeList = NULL from h]
    exact Nat.two_pow_pos 64
  | cons r rs =>
    rw [hrs] at h
    rw [h.1]
    exact (Nat.le_add_right r.addr r.size).trans_lt (fl.layout.noWrap r (hrs ▸ List.mem_cons_self))

theorem expand_regionLine (r : Region) :
    expand (parse (ascii "[%p - %p] size = (%p bytes)\n"))
        [.pointer r.addr, .pointer (wadd r.addr r.size), .pointer r.size] =
      regionLine r ++ [chr '\n'] := by
  have hfmt : ascii "[%p - %p] size = (%p bytes)\n" = ascii "[" ++ (ascii "%p" ++ (ascii " - " ++
      (ascii "%p" ++ (ascii "] size = (" ++ (ascii "%p" ++ (ascii " bytes)\n" ++ [])))))) := by
    decide
  rw [hfmt, expand_literal (by decide), expand_pointer, expand_literal (by decide), expand_pointer,
    expand_literal (by decide), expand_pointer, expand_literal (by decide), parse_nil, expand_nil]
  simp only [regionLine, List.append_assoc, List.append_nil]
  rfl

theorem length_hexDigits (p : Nat) : (hexDigits 16 p).length = 16 := (hexDigits_spec 16 p).1

theorem length_regionLine (r : Region) : (regionLine r).length = 75 := by
  simp only [regionLine, List.length_append, length_hexDigits]
  decide

/-- A character that is no digit stands in no pointer. -/
theorem notMem_hexDigits {c : UInt8} (h : c ∉ ascii "0123456789ABCDEF") (p : Nat) :
    c ∉ hexDigits 16 p := fun hc => h ((hexDigits_spec 16 p).2.1 c hc)

theorem notMem_regionLine {c : UInt8} (hdigit : c ∉ ascii "0123456789ABCDEF")
    (hrest : c ∉ ascii "[0x" ++ ascii " - 0x" ++ ascii "] size = (0x" ++ ascii " bytes)") :
    c ∉ regionLine r := by
  have hnot := fun p => notMem_hexDigits hdigit p
  simp only [List.mem_append, not_or] at hrest
  simp only [regionLine, List.mem_append, hnot, hrest, or_self, not_false_eq_true]

/-- The line of a region prints as it is. -/
theorem printk_region (haddr : r.addr < 2 ^ 64) (hsize : r.size < 2 ^ 64) (hfuel : 76 < fuel)
    (out : Calls) :
    printk fuel t (ascii "[%p - %p] size = (%p bytes)\n")
        [.ptr r.addr, .ptr (wadd r.addr r.size), .ptr r.size] out =
      .ok (out ++ sent t (regionLine r ++ [chr '\n'])) := by
  have hargs : List.Forall₂ Arg.Has [.ptr r.addr, .ptr (wadd r.addr r.size), .ptr r.size]
      [.pointer r.addr, .pointer (wadd r.addr r.size), .pointer r.size] :=
    .cons (.pointer haddr) (.cons (.pointer (wadd_lt _ _)) (.cons (.pointer hsize) .nil))
  have hmatch : Matching (parse (ascii "[%p - %p] size = (%p bytes)\n"))
      [.pointer r.addr, .pointer (wadd r.addr r.size), .pointer r.size] :=
    (by decide : [Directive.pointer, .pointer, .pointer] = _)
  have hzero : 0 ∉ regionLine r ++ [chr '\n'] := by
    rw [List.mem_append, not_or]
    exact ⟨notMem_regionLine (by decide) (by decide), by decide⟩
  have hroom : (expand (parse (ascii "[%p - %p] size = (%p bytes)\n"))
      [.pointer r.addr, .pointer (wadd r.addr r.size), .pointer r.size]).length < fuel := by
    rw [expand_regionLine, List.length_append, length_regionLine]
    exact hfuel
  have hfmt : (ascii "[%p - %p] size = (%p bytes)\n").length < fuel :=
    (by decide : (ascii "[%p - %p] size = (%p bytes)\n").length < 76).trans hfuel
  have hnul : ∀ s, .string s ∈
      [Value.pointer r.addr, .pointer (wadd r.addr r.size), .pointer r.size] →
      s.length < fuel := by simp
  rw [printk_eq (by decide) (by decide) hargs hmatch hfmt hnul hroom, expand_regionLine,
    delivered_of_notMem hzero]

/-! ## The dump -/

theorem bootMemDump_loop {a p n : Nat} (hseg : Seg s.mem a p rs NULL) (hp : p < 2 ^ 64)
    (hpos : ∀ r ∈ rs, 0 < r.addr) (hfuel : 76 < fuel) (hn : rs.length < n) (out : Calls) :
    loop .outOfFuel (bootMemDumpStep fuel t s) n (p, out) =
      .ok (out ++ sent t (unlines (chr '\n') (rs.map regionLine))) := by
  induction rs generalizing a p n out with
  | nil =>
    obtain ⟨k, rfl⟩ : ∃ k, n = k + 1 := ⟨n - 1, by simp at hn; omega⟩
    rw [List.map_nil, show unlines (chr '\n') [] = [] from rfl, sent_nil, List.append_nil]
    exact loop_leave (if_pos hseg)
  | cons r rs ih =>
    obtain ⟨k, rfl⟩ : ∃ k, n = k + 1 := ⟨n - 1, by simp at hn; omega⟩
    obtain ⟨rfl, -, hsize, hrest⟩ := hseg
    have hr : 0 < r.addr := hpos r List.mem_cons_self
    have hline := printk_region (t := t) hp (hsize ▸ loadLE_lt s.mem (r.addr + 16) 8) hfuel out
    have htail := ih hrest (loadLE_lt s.mem r.addr 8)
      (fun r' hr' => hpos r' (List.mem_cons_of_mem r hr')) (by simpa using hn)
      (out ++ sent t (regionLine r ++ [chr '\n']))
    rw [loop_again (loadLE s.mem r.addr 8, out ++ sent t (regionLine r ++ [chr '\n'])), htail,
      List.append_assoc, ← sent_append]
    · rfl
    · simp only [bootMemDumpStep, if_neg hr.ne', Machine.size_eq hr, hsize, ok_bind, hline,
        bootFreeListNext, Machine.next_eq hr, pure_eq_ok]

/-- **What `boot_mem_dump` prints**: a line for each node, in order. The list is only read. -/
theorem bootMemDump_eq (h : HasNodes s rs) (hfuel : 76 < fuel) (hn : rs.length < fuel)
    (out : Calls) :
    bootMemDump fuel t s out = .ok (.success, out ++ sent t (dumpText rs)) := by
  have hhead := printk_plain (t := t) (f := ascii "--- BOOT ALLOC FREE REGIONS ---\n") (by decide)
    (by decide) (by decide) (by decide)
    ((by decide : (ascii "--- BOOT ALLOC FREE REGIONS ---\n").length < 76).trans hfuel) out
  have hfoot := fun out => printk_plain (t := t) (f := ascii "-------------------------------\n")
    (by decide) (by decide) (by decide) (by decide)
    ((by decide : (ascii "-------------------------------\n").length < 76).trans hfuel) out
  rw [bootMemDump, hhead, ok_bind, bootFreeListBegin,
    bootMemDump_loop h.linked h.head_lt h.nonnull hfuel hn, ok_bind, hfoot, ok_bind, pure_eq_ok,
    List.append_assoc, List.append_assoc, ← sent_append, ← sent_append]
  have htext : dumpText rs = ascii "--- BOOT ALLOC FREE REGIONS ---\n" ++
      (unlines (chr '\n') (rs.map regionLine) ++ ascii "-------------------------------\n") := by
    rw [dumpText, ← List.singleton_append, unlines_append, unlines_append]
    rfl
  rw [htext]

/-! ## Reading the dump -/

theorem readRegion_regionLine (haddr : r.addr < 2 ^ 64) (hsize : r.size < 2 ^ 64) :
    readRegion (regionLine r) = r := by
  have hfirst : ((regionLine r).drop 3).take 16 = hexDigits 16 r.addr := by
    rw [regionLine, List.drop_left' (by decide), List.take_left' (length_hexDigits r.addr)]
  have hthird : ((regionLine r).drop 52).take 16 = hexDigits 16 r.size := by
    have hsplit : regionLine r = (ascii "[0x" ++ hexDigits 16 r.addr ++ ascii " - 0x" ++
        hexDigits 16 (wadd r.addr r.size) ++ ascii "] size = (0x") ++
          (hexDigits 16 r.size ++ ascii " bytes)") := by
      simp only [regionLine, List.append_assoc]
    have hlen : (ascii "[0x" ++ hexDigits 16 r.addr ++ ascii " - 0x" ++
        hexDigits 16 (wadd r.addr r.size) ++ ascii "] size = (0x").length = 52 := by
      simp only [List.length_append, length_hexDigits]
      decide
    rw [hsplit, List.drop_left' hlen, List.take_left' (length_hexDigits r.size)]
  rw [readRegion, hfirst, hthird, (hexDigits_pointer haddr).value, (hexDigits_pointer hsize).value]

theorem readDump_dumpText (h : ∀ r ∈ rs, r.addr < 2 ^ 64 ∧ r.size < 2 ^ 64) :
    readDump (dumpText rs) = rs := by
  have hlines : ∀ l ∈ ascii "--- BOOT ALLOC FREE REGIONS ---" ::
      (rs.map regionLine ++ [ascii "-------------------------------"]), chr '\n' ∉ l := by
    intro l hl
    rw [List.mem_cons, List.mem_append, List.mem_map, List.mem_singleton] at hl
    rcases hl with rfl | ⟨r, -, rfl⟩ | rfl
    · decide
    · exact notMem_regionLine (by decide) (by decide)
    · decide
  have hread : ∀ r ∈ rs, (readRegion ∘ regionLine) r = r :=
    fun r hr => readRegion_regionLine (h r hr).1 (h r hr).2
  rw [readDump, dumpText, lines_unlines hlines, List.tail_cons, List.dropLast_concat, List.map_map,
    List.map_congr_left hread, List.map_id']

/-- The fields of the nodes are words. -/
theorem Seg.words {m : Mem} {a p : Nat} (h : Seg m a p rs NULL) (hp : p < 2 ^ 64) :
    ∀ r ∈ rs, r.addr < 2 ^ 64 ∧ r.size < 2 ^ 64 := by
  induction rs generalizing a p with
  | nil => simp
  | cons r rs ih =>
    obtain ⟨rfl, -, hsize, hrest⟩ := h
    intro r' hr'
    rcases List.mem_cons.1 hr' with rfl | hr'
    · exact ⟨hp, hsize ▸ loadLE_lt m _ 8⟩
    · exact ih hrest (loadLE_lt m _ 8) r' hr'

/-- **The list can be read back** from what any registered callback gets. -/
theorem bootMemDump_readDump (h : HasNodes s rs) (ht : Holds t S) (hcb : cb ∈ S)
    (hfuel : 76 < fuel) (hn : rs.length < fuel) :
    ∃ calls, bootMemDump fuel t s [] = .ok (.success, calls) ∧
      readDump (receivedBy cb calls) = rs := by
  refine ⟨sent t (dumpText rs), bootMemDump_eq h hfuel hn [], ?_⟩
  rw [receivedBy_sent ht hcb, readDump_dumpText (h.linked.words h.head_lt)]

/-- Two pages, dumped to one callback. -/
theorem bootMemDump_readDump_twoPages :
    ∃ calls, bootMemDump 128 ⟨1 :: List.replicate 7 NULL, rfl⟩ twoPages.machine [] =
      .ok (.success, calls) ∧ readDump (receivedBy 1 calls) = twoPages.regions :=
  bootMemDump_readDump (represents_machine twoPages).hasNodes holds_singleton
    (Finset.mem_singleton_self 1) (by decide) (by decide)

end RiscyOs
