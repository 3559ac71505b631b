import RiscyOs.Boot.Dump
import RiscyOs.Boot.Single
import RiscyOs.Fdt.Dump
import RiscyOs.FdtMem.Report
import RiscyOs.Syscon.Tree

/-!
# The boot: `kmain` of `arch/riscv/kernel.c` and `arch/arm64/kernel.c`

`kmain` checks the blob, dumps it, hands the memory to the allocator, takes a page from it, and
looks up the two syscon actions. The two architectures differ in the line for the hart. What
follows, the constructors and the console, is in `RiscyOs.Kmain`.

All this is a function of the tree, `Blob.boot`: it works on the one region the free list can have,
and on no memory at all.

* `kmainSetup_boot`: the kernel does what this function says, and the callback gets its text.
* `kmainSetup_panics`: what is printed for a blob that is not accepted.
* `kmainSetup_memory_safe`: when nothing is merged into the region, the kernel writes to no byte of
  the memory that it may not have, and neither the list nor the page has one.
-/

namespace RiscyOs

open ByteMemory FuelLoop Ranges Outline Simulation

/-! ## The code -/

/-- The global state of the kernel, and the calls of the callbacks so far. -/
structure KernelState where
  machine : Machine
  putchars : PutcharArray
  syscon : SysconState
  out : Calls

/-- How far the boot comes: the constructors, with the two flags of `kmain`, or `kernel_panic`. -/
inductive SetupEnd where
  | panic (out : Calls)
  | up (sysconRebootOk sysconShutdownOk : Bool) (st : KernelState)

/-- `if (err)`, and the message. -/
def printError (fuel : Nat) (t : PutcharArray) (err : KError) (msg : List UInt8) (out : Calls) :
    Result Calls :=
  if err = .success then .ok out else printk fuel t msg [] out

/-- `kmain` from `fdt_verify` on. -/
def kmainFrom (fuel kernelEnd : Nat) (t : PutcharArray) (fdt : Nat) (s : Machine) (out : Calls) :
    Result SetupEnd := do
  let verified ← fdtVerify (Mem.view s.mem) fdt
  if verified ≠ .valid then
    let out ← printk fuel t (ascii "Cannot Read the FDT!\n") [] out
    -- `kernel_panic` is `abort`
    let out ← printk fuel t (ascii "KERNEL PANIC\n") [] out
    return .panic out
  let out ← fdtDump fuel t (Mem.view s.mem) fdt out
  let ((_, s), out) ← kernelMemInitOut kernelEnd fuel t fdt s out
  let (_, out) ← bootMemDump fuel t s out
  let (alloc, s) ← bootAlloc fuel s 0x1000 4
  let out ← printk fuel t (ascii "alloc = %p\n") [.ptr alloc] out
  let (_, out) ← bootMemDump fuel t s out
  let (rebootErr, syscon) ← sysconRebootInit fuel (Mem.view s.mem) fdt .initial
  let out ← printError fuel t rebootErr (ascii "Error setting up syscon reboot\n") out
  let (shutdownErr, syscon) ← sysconShutdownInit fuel (Mem.view s.mem) fdt syscon
  let out ← printError fuel t shutdownErr (ascii "Error setting up syscon shutdown\n") out
  return .up (rebootErr = .success) (shutdownErr = .success) ⟨s, t, syscon, out⟩

/-- `kmain` of RISC-V up to the constructors; `uart` is the address of `dead_simple_uart_putchar`.
-/
def kmainSetupRiscv (fuel kernelEnd uart hartid fdt : Nat) (s : Machine) : Result SetupEnd := do
  let (_, t) ← registerEarlyPutchar .initial uart
  -- `(char)hartid + '0'`
  let out ← printk fuel t (ascii "Running on hart (%c)\n") [.int ((hartid % 256 : Nat) + 48)] []
  kmainFrom fuel kernelEnd t fdt s out

/-- The same of ARM64. -/
def kmainSetupArm64 (fuel kernelEnd uart fdt : Nat) (s : Machine) : Result SetupEnd := do
  let (_, t) ← registerEarlyPutchar .initial uart
  kmainFrom fuel kernelEnd t fdt s []

/-- The architecture, with the number of the hart where `kmain` gets it. -/
inductive Arch where
  | riscv (hartid : Nat)
  | arm64
  deriving Repr, DecidableEq

def kmainSetup (arch : Arch) (fuel kernelEnd uart fdt : Nat) (s : Machine) : Result SetupEnd :=
  match arch with
  | .riscv hartid => kmainSetupRiscv fuel kernelEnd uart hartid fdt s
  | .arm64 => kmainSetupArm64 fuel kernelEnd uart fdt s

/-! ## The boot of a tree -/

/-- The line for the hart. A `NUL` prints nothing. -/
def Arch.text : Arch → List UInt8
  | riscv hartid => ascii "Running on hart (" ++
      (delivered [toChar ((hartid % 256 : Nat) + 48)] ++ ascii ")\n")
  | arm64 => []

/-- What a boot comes to: what is printed, what is taken, what is free, and what is known of the
syscon. -/
structure Booted where
  text : List UInt8
  page : Nat
  list : Option Region
  syscon : SysconState
  rebootOk : Bool
  shutdownOk : Bool

/-- The line for the page. -/
def allocLine (p : Nat) : List UInt8 := ascii "alloc = " ++ (ascii "0x" ++ (hexDigits 16 p ++
  ascii "\n"))

/-- The message for an init function that returned `err`. -/
def errorText (err : KError) (msg : List UInt8) : List UInt8 := if err = .success then [] else msg

def Blob.boot (b : Blob) (kernelEnd : Nat) : Result Booted := do
  let (freed, list) ← freeAll OneRegion.free none (b.handedPieces kernelEnd)
  let report := Report.after ⟨[], 0, 0⟩ b.handedBlocks freed
  let (page, list') ← OneRegion.alloc list 0x1000 4
  let (rebootErr, syscon) ← b.sysconCall .reboot .initial
  let (shutdownErr, syscon) ← b.sysconCall .shutdown syscon
  return {
    text := fdtDumpText b.fdt (outline (chr '\t') b.shownTree) ++
      (unlines (chr '\n') (b.reportLines report) ++ (dumpText list.toList ++ (allocLine page ++
        (dumpText list'.toList ++
          (errorText rebootErr (ascii "Error setting up syscon reboot\n") ++
            errorText shutdownErr (ascii "Error setting up syscon shutdown\n"))))))
    page
    list := list'
    syscon
    rebootOk := rebootErr = .success
    shutdownOk := shutdownErr = .success }

namespace Blob

/-- The bytes of the pieces, and of the region the allocator makes of them. -/
def Given (b : Blob) (kernelEnd x : Nat) : Prop :=
  Covers (b.handedPieces kernelEnd) x ∨
    ∃ freed r, freeAll OneRegion.free none (b.handedPieces kernelEnd) = .ok (freed, some r) ∧
      x ∈ r.bytes

/-- The region the allocator keeps is well formed, and apart from the blob. -/
def Apart (b : Blob) (kernelEnd : Nat) : Prop :=
  ∀ freed r, freeAll OneRegion.free none (b.handedPieces kernelEnd) = .ok (freed, some r) →
    Layout [r] ∧ Misses (b.fdt, b.totalsize) (r.addr, r.size)

/-- The kernel starts with the blob in memory and nothing in its list; the tree is one it can
read, and none of its ranges wraps. -/
structure Bootable (b : Blob) (kernelEnd : Nat) (s : Machine) : Prop where
  holds : b.In (Mem.view s.mem)
  valid : fdtVerify (Mem.view s.mem) b.fdt = .ok .valid
  empty : s.bootFreeList = NULL
  noWrap : b.HandedNoWrap
  lists : b.TerminatedLists
  apart : b.Apart kernelEnd

end Blob

/-! ## The stages -/

variable {b : Blob} {kernelEnd fuel : Nat} {s s' : Machine} {o : Option Region} {t : PutcharArray}

/-- A run of `boot_free` answers as the allocator with one region does. -/
theorem freeAll_agrees (h : ListIs s o) {ps : List (Nat × Nat)} (hps : ∀ p ∈ ps, p.2 < 2 ^ 64) :
    Agrees ListIs (freeAll bootFree s ps) (freeAll OneRegion.free o ps) := by
  induction ps generalizing s o with
  | nil => exact ⟨rfl, h⟩
  | cons p ps ih =>
    have hcall : Agrees ListIs (bootFree s p.1 p.2) (OneRegion.free o p.1 p.2) :=
      soleFree_agrees h (hps p List.mem_cons_self)
    rw [freeAll, freeAll]
    cases hone : OneRegion.free o p.1 p.2 with
    | error e =>
      rw [hcall.error hone]
      rfl
    | ok x =>
      obtain ⟨code, o₁⟩ := x
      obtain ⟨s₁, hs₁, hlist⟩ := hcall.symm_ok hone
      have hrest := ih hlist fun q hq => hps q (List.mem_cons_of_mem p hq)
      rw [hs₁]
      simp only [ok_bind]
      cases hones : freeAll OneRegion.free o₁ ps with
      | error e =>
        rw [hrest.error hones]
        rfl
      | ok y =>
        obtain ⟨freed, o₂⟩ := y
        obtain ⟨s₂, hs₂, hlist₂⟩ := hrest.symm_ok hones
        rw [hs₂]
        exact ⟨rfl, hlist₂⟩

/-- A node starts the region it was in, or the range that is freed. -/
theorem OneRegion.free_header {o' : Option Region} {code : KError} {start size x : Nat}
    (h : OneRegion.free o start size = .ok (code, o')) (hx : x ∈ headersOf o'.toList) :
    x ∈ headersOf o.toList ∨ x ∈ Region.bytes ⟨start, size⟩ := by
  cases o with
  | none =>
    simp only [OneRegion.free] at h
    split_ifs at h with hsmall <;> cases h
    · exact .inl hx
    · obtain ⟨hlo, hhi⟩ := mem_headersOf_some.1 hx
      exact .inr ⟨hlo, hhi.trans_le (Nat.add_le_add_left (not_lt.1 hsmall) start)⟩
  | some r =>
    simp only [OneRegion.free] at h
    split_ifs at h <;> cases h
    · have hin := mem_headersOf_some.1 hx
      exact .inl (mem_headersOf_some.2 hin)
    · exact .inl hx
    · exact .inl hx

/-- A run of `boot_free` writes to the ranges that are freed, and to the node it starts with. -/
theorem freeAll_frame (h : ListIs s o) {ps : List (Nat × Nat)} (hps : ∀ p ∈ ps, p.2 < 2 ^ 64)
    {freed x : Nat} (hrun : freeAll bootFree s ps = .ok (freed, s'))
    (ho : x ∉ headersOf o.toList) (hx : ¬ Covers ps x) : s'.mem x = s.mem x := by
  induction ps generalizing s o freed with
  | nil =>
    cases hrun
    rfl
  | cons p ps ih =>
    obtain ⟨code, s₁, rest, hcall, hrest⟩ := freeAll_cons_ok bootFree hrun
    obtain ⟨o₁, hone, hlist⟩ := (soleFree_agrees h (hps p List.mem_cons_self)).ok hcall
    have hp : x ∉ Region.bytes ⟨p.1, p.2⟩ := fun hin => hx ⟨p, List.mem_cons_self, hin⟩
    have ho₁ : x ∉ headersOf o₁.toList := fun hin => (OneRegion.free_header hone hin).elim ho hp
    have hstep : s₁.mem x = s.mem x := soleFree_frame h hcall ho hp
    exact (ih hlist (fun q hq => hps q (List.mem_cons_of_mem p hq)) hrest ho₁
      fun ⟨q, hq, hxq⟩ => hx ⟨q, List.mem_cons_of_mem p hq, hxq⟩).trans hstep

/-- The pieces have sizes that are words. -/
theorem Blob.HandedNoWrap.pieces_lt (h : b.HandedNoWrap) :
    ∀ p ∈ b.handedPieces kernelEnd, p.2 < 2 ^ 64 := by
  intro p hp
  have hsum := (Blob.allowed_of_mem_flatMap h.handed p hp).noWrap
  omega

/-- `fdt_boot_mem_init`: the list is the one region, and only the pieces are written to. -/
theorem kernelMemInit_oneRegion (kernelEnd : Nat) (hin : b.In (Mem.view s.mem))
    (hnil : s.bootFreeList = NULL) (hwrap : b.HandedNoWrap) (hfuel : b.totalsize < fuel) :
    (∀ e, freeAll OneRegion.free none (b.handedPieces kernelEnd) = .error e →
      kernelMemInit kernelEnd fuel b.fdt s = .error e) ∧
    ∀ freed o, freeAll OneRegion.free none (b.handedPieces kernelEnd) = .ok (freed, o) →
      ∃ s', kernelMemInit kernelEnd fuel b.fdt s =
        .ok (Report.after ⟨[], 0, 0⟩ b.handedBlocks freed, s') ∧ ListIs s' o ∧
        ∀ x, ¬ Covers (b.handedPieces kernelEnd) x → s'.mem x = s.mem x := by
  have hk : KeepsBlob bootFree b kernelEnd (fun s : Machine => Mem.view s.mem)
      (fun s' => ∃ k, Keeping b s.mem s' k) := bootFree_keepsBlob hin
  have hstart : ∃ k, Keeping b s.mem s k :=
    ⟨none, hnil, fun r hr => (by cases hr), fun x _ _ => rfl⟩
  have hrun : kernelMemInit kernelEnd fuel b.fdt s = _ :=
    fdtBootMemInit_eq hk hfuel hwrap.reserve hwrap.handed hstart
  have hagree : Agrees ListIs (freeAll bootFree s (b.handedPieces kernelEnd)) _ :=
    freeAll_agrees (listIs_none.2 hnil) hwrap.pieces_lt
  rw [hrun]
  constructor
  · intro e he
    rw [hagree.error he]
    rfl
  · intro freed o ho
    obtain ⟨s', hs', hlist⟩ := hagree.symm_ok ho
    have hnode : ∀ x, x ∉ headersOf (none : Option Region).toList := by
      rintro x ⟨r, hr, -⟩
      cases hr
    have hframe := fun x => freeAll_frame (listIs_none.2 hnil) hwrap.pieces_lt hs' (hnode x)
    rw [hs']
    exact ⟨s', rfl, hlist, hframe⟩

/-- The one region is a list of nodes. -/
theorem ListIs.hasNodes (h : ListIs s o) (hlt : ∀ r ∈ o, r.addr < 2 ^ 64) :
    HasNodes s o.toList := by
  refine ⟨?_, h.1, fun r hr => h.2 r (Option.mem_toList.1 hr)⟩
  cases o with
  | none =>
    rw [listIs_none.1 h]
    exact Nat.two_pow_pos 64
  | some r =>
    rw [(listIs_some.1 h).2.1]
    exact hlt r rfl

/-- The dump of the one region. -/
theorem bootMemDump_one (h : ListIs s o) (hlt : ∀ r ∈ o, r.addr < 2 ^ 64) (hfuel : 76 < fuel)
    (out : Calls) :
    bootMemDump fuel t s out = .ok (.success, out ++ sent t (dumpText o.toList)) := by
  refine bootMemDump_eq (h.hasNodes hlt) hfuel ?_ out
  have hlen := Option.length_toList_le (o := o)
  omega

/-- What is left of a region has a word for its address. -/
theorem OneRegion.alloc_addr_lt {size alignment p : Nat} {o' : Option Region}
    (h : OneRegion.alloc o size alignment = .ok (p, o')) (hlt : ∀ r ∈ o, r.addr < 2 ^ 64) :
    p < 2 ^ 64 ∧ ∀ r ∈ o', r.addr < 2 ^ 64 := by
  cases o with
  | none =>
    cases h
    exact ⟨Nat.two_pow_pos 64, hlt⟩
  | some r =>
    have hr := hlt r rfl
    rw [OneRegion.alloc] at h
    split_ifs at h <;> cases h
    · exact ⟨Nat.two_pow_pos 64, hlt⟩
    · exact ⟨wadd_lt _ _, by simp⟩
    · exact ⟨wadd_lt _ _, by rintro _ ⟨⟩; exact wadd_lt _ _⟩
    · exact ⟨wadd_lt _ _, by simp⟩
    · exact ⟨wadd_lt _ _, by rintro _ ⟨⟩; exact hr⟩

/-- A region stays as it is when nothing that is freed starts at its scaled end. -/
theorem OneRegion.freeAll_some {r : Region} {ps : List (Nat × Nat)} {freed : Nat}
    (hne : ∀ q ∈ ps, scaledStop (r.addr, r.size) ≠ q.1)
    (h : freeAll OneRegion.free (some r) ps = .ok (freed, o)) : o = some r := by
  induction ps generalizing freed with
  | nil =>
    cases h
    rfl
  | cons q ps ih =>
    obtain ⟨code, o₁, rest, hcall, hrest⟩ := freeAll_cons_ok _ h
    have hq : wadd r.addr (wmul regionHeader r.size) ≠ q.1 := hne q List.mem_cons_self
    have ho₁ : o₁ = some r := by
      simp only [OneRegion.free, if_neg hq] at hcall
      split_ifs at hcall <;> cases hcall <;> rfl
    rw [ho₁] at hrest
    exact ih (fun q' hq' => hne q' (List.mem_cons_of_mem q hq')) hrest

/-- The region is the first piece with room for its node. -/
theorem OneRegion.freeAll_none {r : Region} {ps : List (Nat × Nat)} {freed : Nat}
    (hunmerged : Unmerged ps) (h : freeAll OneRegion.free none ps = .ok (freed, some r)) :
    (r.addr, r.size) ∈ ps ∧ regionHeader ≤ r.size ∧ 0 < r.addr := by
  induction ps generalizing freed with
  | nil => cases h
  | cons p ps ih =>
    obtain ⟨code, o₁, rest, hcall, hrest⟩ := freeAll_cons_ok _ h
    rw [OneRegion.free] at hcall
    split_ifs at hcall with hsmall hnull
    · cases hcall
      have hrec := ih (hunmerged.of_small hsmall) hrest
      exact ⟨List.mem_cons_of_mem p hrec.1, hrec.2⟩
    · cases hcall
      have hsame := freeAll_some (hunmerged.of_room hsmall) hrest
      cases hsame
      exact ⟨List.mem_cons_self, not_lt.1 hsmall, Nat.pos_of_ne_zero hnull⟩

/-- **The region is apart from the blob when nothing is merged into it.** -/
theorem Blob.apart_of_unmerged (hwrap : b.HandedNoWrap)
    (hunmerged : Unmerged (b.handedPieces kernelEnd)) : b.Apart kernelEnd := by
  intro freed r h
  obtain ⟨hmem, hroom, hpos⟩ := OneRegion.freeAll_none hunmerged h
  have hallowed := Blob.allowed_of_mem_flatMap hwrap.handed _ hmem
  refine ⟨⟨List.pairwise_singleton _ r, ?_, ?_, ?_⟩, hallowed.blob_misses⟩ <;>
    rintro _ (_ | ⟨_, ⟨⟩⟩)
  · exact hroom
  · exact hallowed.noWrap
  · exact hpos

/-- The page is taken from the one region. -/
theorem bootAlloc_page {p : Nat} {o' : Option Region} (h : ListIs s o) (hL : ∀ r ∈ o, Layout [r])
    (hfuel : 1 < fuel) (hone : OneRegion.alloc o 0x1000 4 = .ok (p, o')) :
    ∃ s', bootAlloc fuel s 0x1000 4 = .ok (p, s') ∧ ListIs s' o' ∧
      ∀ x, (∀ r ∈ o, x ∉ r.bytes) → s'.mem x = s.mem x := by
  have hagree : Agrees ListIs (bootAlloc fuel s 0x1000 4) (OneRegion.alloc o 0x1000 4) :=
    soleAlloc_agrees h (by decide) (by decide) hfuel
  obtain ⟨s', hs', hlist⟩ := hagree.symm_ok hone
  exact ⟨s', hs', hlist, fun x hx => soleAlloc_frame h hL (by decide) hfuel hs' hx⟩

/-- The blob is not given away. -/
theorem Blob.not_given (hwrap : b.HandedNoWrap) (hapart : b.Apart kernelEnd) {x : Nat}
    (hlo : b.fdt ≤ x) (hhi : x < b.fdt + b.totalsize) : ¬ b.Given kernelEnd x := by
  rintro (⟨p, hp, hge, hlt⟩ | ⟨freed, r, hfree, hge, hlt⟩)
  · have hmiss := (Blob.allowed_of_mem_flatMap hwrap.handed p hp).blob_misses
    simp only [Misses] at hmiss
    omega
  · have hmiss := (hapart freed r hfree).2
    simp only [Misses, Region.stop] at hmiss hlt
    omega

theorem Blob.In.of_frame (hin : b.In (Mem.view s.mem)) (hwrap : b.HandedNoWrap)
    (hapart : b.Apart kernelEnd) (hframe : ∀ x, ¬ b.Given kernelEnd x → s'.mem x = s.mem x) :
    b.In (Mem.view s'.mem) :=
  hin.of_agrees fun x hlo hhi => congrArg some (hframe x (Blob.not_given hwrap hapart hlo hhi))

/-- The init functions leave what the tree says. -/
theorem sysconInits_eq (hin : b.In (Mem.view s.mem)) (hlists : b.TerminatedLists)
    (hfuel : b.totalsize < fuel) (st : SysconState) :
    sysconRebootInit fuel (Mem.view s.mem) b.fdt st = b.sysconCall .reboot st ∧
      sysconShutdownInit fuel (Mem.view s.mem) b.fdt st = b.sysconCall .shutdown st :=
  ⟨InitCall.run_eq_tree (c := ⟨.reboot, s.mem, b, fuel, hin, hfuel⟩) hlists st,
    InitCall.run_eq_tree (c := ⟨.shutdown, s.mem, b, fuel, hin, hfuel⟩) hlists st⟩

theorem printError_eq {msg : List UInt8} (hzero : 0 ∉ msg) (hne : msg ≠ [])
    (hplain : chr '%' ∉ msg) (hmatch : Matching (parse msg) []) (hfuel : msg.length < fuel)
    (err : KError) (out : Calls) :
    printError fuel t err msg out = .ok (out ++ sent t (errorText err msg)) := by
  unfold printError errorText
  split_ifs
  · rw [sent_nil, List.append_nil]
  · exact printk_plain hzero hne hplain hmatch hfuel out

/-- The line for the page. -/
theorem printAlloc_eq {p : Nat} (hp : p < 2 ^ 64) (hfuel : 64 < fuel) (out : Calls) :
    printk fuel t (ascii "alloc = %p\n") [.ptr p] out = .ok (out ++ sent t (allocLine p)) := by
  have hfmt : ascii "alloc = %p\n" = ascii "alloc = " ++ (ascii "%p" ++ ascii "\n") := by decide
  have hlen : (ascii "alloc = ").length + (ascii "\n").length + 18 < fuel :=
    (by decide : (ascii "alloc = ").length + (ascii "\n").length + 18 < 64).trans hfuel
  rw [hfmt, printk_pointer ⟨by decide, by decide⟩ ⟨by decide, by decide⟩ hp hlen, allocLine]

/-! ## The whole boot -/

/-- The kernel stops with the fault of the boot, or comes up with its flags, list and actions,
having printed its text and written to what it was given. -/
def BootsAs (b : Blob) (kernelEnd : Nat) (s : Machine) (t : PutcharArray) (out : Calls)
    (run : Result SetupEnd) : Result Booted → Prop
  | .error e => run = .error e
  | .ok done => ∃ s', run = .ok (.up done.rebootOk done.shutdownOk
      ⟨s', t, done.syscon, out ++ sent t done.text⟩) ∧
    ListIs s' done.list ∧ ∀ x, ¬ b.Given kernelEnd x → s'.mem x = s.mem x

/-- **From the check of the blob on, the kernel does what the boot of the tree says.** -/
theorem kmainFrom_boot (h : b.Bootable kernelEnd s) (hfuel : b.totalsize + 128 < fuel)
    (out : Calls) :
    BootsAs b kernelEnd s t out (kmainFrom fuel kernelEnd t b.fdt s out) (b.boot kernelEnd) := by
  have hin := h.holds
  have hsize : b.totalsize < fuel := by omega
  have hone : 1 < fuel := by omega
  have hroom : ∀ msg : List UInt8, msg.length < 64 → msg.length < fuel := by omega
  have hdump := fun out => fdtDump_eq (t := t) hin.toStructIn (b.sizeStruct_lt hsize)
    (by omega : 64 < fuel) out
  have hmemOut := fun out => kernelMemInitOut_eq (t := t) kernelEnd hin h.empty h.noWrap hfuel out
  obtain ⟨hmemErr, hmemOk⟩ := kernelMemInit_oneRegion kernelEnd hin h.empty h.noWrap hsize
  unfold kmainFrom Blob.boot
  simp only [h.valid, ok_bind, ne_eq, not_true_eq_false, if_false, hdump, hmemOut]
  cases hfree : freeAll OneRegion.free none (b.handedPieces kernelEnd) with
  | error e =>
    rw [hmemErr e hfree]
    rfl
  | ok x =>
    obtain ⟨freed, o⟩ := x
    obtain ⟨s₁, hs₁, hlist₁, hframe₁⟩ := hmemOk freed o hfree
    have hlayout : ∀ r ∈ o, Layout [r] := by
      rintro r ⟨⟩
      exact (h.apart freed r hfree).1
    have hlt₁ : ∀ r ∈ o, r.addr < 2 ^ 64 := fun r hr =>
      (Nat.le_add_right r.addr r.size).trans_lt ((hlayout r hr).noWrap r List.mem_cons_self)
    have hdump₁ := fun out => bootMemDump_one (t := t) hlist₁ hlt₁ (by omega : 76 < fuel) out
    simp only [hs₁, Except.map, ok_bind, hdump₁]
    cases halloc : OneRegion.alloc o 0x1000 4 with
    | error e =>
      have hagree : Agrees ListIs (bootAlloc fuel s₁ 0x1000 4) (OneRegion.alloc o 0x1000 4) :=
        soleAlloc_agrees hlist₁ (by decide) (by decide) hone
      rw [hagree.error halloc]
      rfl
    | ok y =>
      obtain ⟨page, o'⟩ := y
      obtain ⟨s₂, hs₂, hlist₂, hframe₂⟩ := bootAlloc_page hlist₁ hlayout hone halloc
      have hframe : ∀ x, ¬ b.Given kernelEnd x → s₂.mem x = s.mem x := by
        intro x hx
        refine (hframe₂ x ?_).trans (hframe₁ x fun hcov => hx (.inl hcov))
        rintro r ⟨⟩ hin
        exact hx (.inr ⟨freed, r, hfree, hin⟩)
      have hin₂ := hin.of_frame h.noWrap h.apart hframe
      obtain ⟨hpage, hlt₂⟩ := OneRegion.alloc_addr_lt halloc hlt₁
      have hline := fun out => printAlloc_eq (t := t) hpage (by omega : 64 < fuel) out
      have hdump₂ := fun out => bootMemDump_one (t := t) hlist₂ hlt₂ (by omega : 76 < fuel) out
      have hinits := sysconInits_eq hin₂ h.lists hsize
      simp only [hs₂, ok_bind, hline, hdump₂, (hinits _).1]
      cases hinit : b.sysconCall .reboot .initial with
      | error e => rfl
      | ok z =>
        obtain ⟨rebootErr, st⟩ := z
        have hmsgReboot := fun out => printError_eq (t := t) (by decide) (by decide) (by decide)
          (by decide) (hroom (ascii "Error setting up syscon reboot\n") (by decide)) rebootErr out
        simp only [ok_bind, hmsgReboot, (hinits _).2]
        cases hinit' : b.sysconCall .shutdown st with
        | error e => rfl
        | ok z' =>
          obtain ⟨shutdownErr, st'⟩ := z'
          have hmsgShutdown := fun out => printError_eq (t := t) (by decide) (by decide) (by decide)
            (by decide) (hroom (ascii "Error setting up syscon shutdown\n") (by decide)) shutdownErr
            out
          simp only [ok_bind, hmsgShutdown, pure_eq_ok]
          refine ⟨s₂, ?_, hlist₂, hframe⟩
          simp only [sent_append, List.append_assoc]

/-- Before the blob is looked at, the callback is registered and gets the line for the hart. -/
theorem kmainSetup_eq (arch : Arch) {uart : Nat} (huart : uart ≠ NULL) (hroom : 64 < fuel) :
    ∃ t out, Holds t {uart} ∧ receivedBy uart out = arch.text ∧
      ∀ kernelEnd fdt s,
        kmainSetup arch fuel kernelEnd uart fdt s = kmainFrom fuel kernelEnd t fdt s out := by
  obtain ⟨t, ht, hholds, -⟩ := registerEarlyPutchar_spec holds_initial huart (.inr (by decide))
  have hset : (setStep ∅ (.register uart)).2 = {uart} := rfl
  rw [hset] at hholds
  cases arch with
  | arm64 =>
    refine ⟨t, [], hholds, rfl, fun kernelEnd fdt s => ?_⟩
    rw [kmainSetup, kmainSetupArm64, ht, ok_bind]
  | riscv hartid =>
    have hfmt : ascii "Running on hart (%c)\n" =
        ascii "Running on hart (" ++ (ascii "%c" ++ (ascii ")\n" ++ [])) := by decide
    have htext : ∀ c, expand (parse (ascii "Running on hart (%c)\n")) [.char c] =
        ascii "Running on hart (" ++ ([c] ++ ascii ")\n") := by
      intro c
      rw [hfmt, expand_literal (by decide), expand_char, expand_literal (by decide), parse_nil,
        expand_nil, List.append_nil, List.singleton_append]
    have hlen : ∀ c, (expand (parse (ascii "Running on hart (%c)\n")) [.char c]).length < fuel := by
      intro c
      rw [htext, List.length_append, List.length_append]
      exact (by decide : (ascii "Running on hart (").length + (1 + (ascii ")\n").length) < 64).trans
        hroom
    have hline := printk_eq (t := t) (f := ascii "Running on hart (%c)\n") (by decide) (by decide)
      (.cons (.char ((hartid % 256 : Nat) + 48)) .nil) (by decide : [Directive.char] = _)
      ((by decide : (ascii "Running on hart (%c)\n").length < 64).trans hroom) (by simp) (hlen _) []
    have hconst : delivered (ascii "Running on hart (") = ascii "Running on hart (" ∧
        delivered (ascii ")\n") = ascii ")\n" := by decide
    rw [htext, delivered_append, delivered_append, hconst.1, hconst.2, List.nil_append] at hline
    refine ⟨t, sent t (Arch.riscv hartid).text, hholds,
      receivedBy_sent hholds (Finset.mem_singleton_self uart) _, fun kernelEnd fdt s => ?_⟩
    rw [kmainSetup, kmainSetupRiscv, ht, ok_bind]
    dsimp only
    rw [hline, ok_bind]
    rfl

/-- The same from the start of `kmain`, for what the callback gets. -/
theorem kmainSetup_bootsAs (h : b.Bootable kernelEnd s) (hfuel : b.totalsize + 128 < fuel)
    (arch : Arch) {uart : Nat} (huart : uart ≠ NULL) :
    ∃ t out, (∀ text, receivedBy uart (out ++ sent t text) = arch.text ++ text) ∧
      BootsAs b kernelEnd s t out (kmainSetup arch fuel kernelEnd uart b.fdt s)
        (b.boot kernelEnd) := by
  obtain ⟨t, out, hholds, hout, hrun⟩ := kmainSetup_eq arch huart (by omega : 64 < fuel)
  refine ⟨t, out, fun text => ?_, ?_⟩
  · rw [receivedBy_append, hout, receivedBy_sent hholds (Finset.mem_singleton_self uart)]
  · rw [hrun]
    exact kmainFrom_boot h hfuel out

/-- **The boot.** The kernel stops with the fault of `Blob.boot`, or comes up as it says: the
callback has got its text, the free list is its region, the two actions are its actions, and the
blob is as it was. -/
theorem kmainSetup_boot (h : b.Bootable kernelEnd s) (hfuel : b.totalsize + 128 < fuel)
    (arch : Arch) {uart : Nat} (huart : uart ≠ NULL) :
    (∀ e, b.boot kernelEnd = .error e → kmainSetup arch fuel kernelEnd uart b.fdt s = .error e) ∧
    ∀ done, b.boot kernelEnd = .ok done →
      ∃ st, kmainSetup arch fuel kernelEnd uart b.fdt s =
          .ok (.up done.rebootOk done.shutdownOk st) ∧
        receivedBy uart st.out = arch.text ++ done.text ∧
        ListIs st.machine done.list ∧
        st.syscon = done.syscon ∧
        b.In (Mem.view st.machine.mem) := by
  obtain ⟨t, out, hout, hboot⟩ := kmainSetup_bootsAs h hfuel arch huart
  constructor
  · intro e he
    rw [he] at hboot
    exact hboot
  · intro done hdone
    rw [hdone] at hboot
    obtain ⟨s', hs', hlist, hframe⟩ := hboot
    exact ⟨_, hs', hout done.text, hlist, rfl, h.holds.of_frame h.noWrap h.apart hframe⟩

theorem kmainSetup_comesUp (h : b.Bootable kernelEnd s) (hfuel : b.totalsize + 128 < fuel)
    (arch : Arch) {uart : Nat} (huart : uart ≠ NULL) (hok : (b.boot kernelEnd).toBool) :
    ∃ rebootOk shutdownOk st,
      kmainSetup arch fuel kernelEnd uart b.fdt s = .ok (.up rebootOk shutdownOk st) := by
  obtain ⟨t, out, -, hboot⟩ := kmainSetup_bootsAs h hfuel arch huart
  cases hdone : b.boot kernelEnd with
  | error e =>
    rw [hdone] at hok
    cases hok
  | ok done =>
    rw [hdone] at hboot
    obtain ⟨s', hrun, -⟩ := hboot
    exact ⟨_, _, _, hrun⟩

/-- A blob that is not accepted ends the boot. -/
theorem kmainSetup_panics {fdt : Nat} {verified : FdtError}
    (h : fdtVerify (Mem.view s.mem) fdt = .ok verified) (hne : verified ≠ .valid)
    (hroom : 64 < fuel) (arch : Arch) {uart : Nat} (huart : uart ≠ NULL) :
    ∃ out, kmainSetup arch fuel kernelEnd uart fdt s = .ok (.panic out) ∧
      receivedBy uart out =
        arch.text ++ (ascii "Cannot Read the FDT!\n" ++ ascii "KERNEL PANIC\n") := by
  obtain ⟨t, out, hholds, hout, hrun⟩ := kmainSetup_eq arch huart hroom
  have hread : ∀ out, printk fuel t (ascii "Cannot Read the FDT!\n") [] out = _ :=
    printk_plain (by decide) (by decide) (by decide) (by decide)
      ((by decide : (ascii "Cannot Read the FDT!\n").length < 64).trans hroom)
  have hpanic : ∀ out, printk fuel t (ascii "KERNEL PANIC\n") [] out = _ :=
    printk_plain (by decide) (by decide) (by decide) (by decide)
      ((by decide : (ascii "KERNEL PANIC\n").length < 64).trans hroom)
  refine ⟨out ++ sent t (ascii "Cannot Read the FDT!\n") ++ sent t (ascii "KERNEL PANIC\n"),
    ?_, ?_⟩
  · rw [hrun, kmainFrom, h, ok_bind, if_pos hne, hread, ok_bind, hpanic]
    rfl
  · rw [List.append_assoc, ← sent_append, receivedBy_append, hout,
      receivedBy_sent hholds (Finset.mem_singleton_self uart)]

/-! ## Memory safety -/

/-- The free bytes are those of the region. -/
theorem ListIs.freeBytes_eq (h : ListIs s o) (hL : Layout o.toList) :
    s.freeBytes = bytesOf o.toList := by
  have hrep : Represents s ⟨o.toList, hL⟩ := h.1
  exact hrep.freeBytes_eq

/-- When nothing is merged into the region, all that is given away is safe. -/
theorem Blob.Given.safe (hcounts : b.MemoryCounts) (hunmerged : Unmerged (b.handedPieces kernelEnd))
    {x : Nat} (h : b.Given kernelEnd x) : b.Safe kernelEnd x := by
  obtain ⟨p, hp, hx⟩ | ⟨freed, r, hfree, hx⟩ := h
  · exact safe_of_mem_handedPieces hcounts hp hx
  · exact safe_of_mem_handedPieces hcounts (OneRegion.freeAll_none hunmerged hfree).1 hx

/-- The page and the list of a boot are those of the allocator with one region, and the flags and
the actions those of the two calls. -/
theorem Blob.boot_ok {done : Booted} (h : b.boot kernelEnd = .ok done) :
    (∃ freed o, freeAll OneRegion.free none (b.handedPieces kernelEnd) = .ok (freed, o) ∧
      OneRegion.alloc o 0x1000 4 = .ok (done.page, done.list)) ∧
    ∃ rebootErr syscon shutdownErr, b.sysconCall .reboot .initial = .ok (rebootErr, syscon) ∧
      b.sysconCall .shutdown syscon = .ok (shutdownErr, done.syscon) ∧
      (done.rebootOk = true ↔ rebootErr = .success) ∧
      (done.shutdownOk = true ↔ shutdownErr = .success) := by
  obtain ⟨⟨freed, o⟩, hfree, h⟩ := bind_eq_ok.1 h
  obtain ⟨⟨page, o'⟩, halloc, h⟩ := bind_eq_ok.1 h
  obtain ⟨⟨rebootErr, syscon⟩, hreboot, h⟩ := bind_eq_ok.1 h
  obtain ⟨⟨shutdownErr, syscon'⟩, hshutdown, h⟩ := bind_eq_ok.1 h
  cases h
  exact ⟨⟨freed, o, hfree, halloc⟩, rebootErr, syscon, shutdownErr, hreboot, hshutdown,
    decide_eq_true_iff, decide_eq_true_iff⟩

/-- The page and the list are parts of the region, and apart from each other. -/
theorem Blob.boot_within (hapart : b.Apart kernelEnd) {done : Booted}
    (h : b.boot kernelEnd = .ok done) :
    Layout done.list.toList ∧ (∀ x ∈ bytesOf done.list.toList, b.Given kernelEnd x) ∧
      (done.page ≠ NULL → 2 ^ 4 ∣ done.page ∧ ∀ x, Has (done.page, 0x1000) x →
        b.Given kernelEnd x ∧ x ∉ bytesOf done.list.toList) := by
  obtain ⟨⟨freed, o, hfree, halloc⟩, -⟩ := Blob.boot_ok h
  cases o with
  | none =>
    obtain ⟨hpage, hlist⟩ := Prod.mk.inj (Except.ok.inj halloc)
    rw [← hlist, ← hpage]
    exact ⟨.nil, by simp, fun hp => absurd rfl hp⟩
  | some r =>
    have hL := (hapart freed r hfree).1
    have hgiven : ∀ x ∈ r.bytes, b.Given kernelEnd x := fun x hx => .inr ⟨freed, r, hfree, hx⟩
    obtain ⟨hpage, hlist⟩ | ⟨hdvd, hlo, hhi, hL', hrest⟩ :=
      OneRegion.alloc_within hL (by decide) halloc
    · rw [hpage, hlist]
      refine ⟨hL, ?_, fun hp => absurd rfl hp⟩
      rintro x ⟨r', hr', hx⟩
      obtain rfl := List.mem_singleton.1 hr'
      exact hgiven x hx
    · refine ⟨hL', ?_, fun _ => ⟨hdvd, fun x hx => ⟨?_, ?_⟩⟩⟩
      · rintro x ⟨r', hr', hge, hlt⟩
        obtain ⟨hlo', hhi', -⟩ := hrest r' (Option.mem_toList.1 hr')
        exact hgiven x ⟨hlo'.trans hge, hlt.trans_le hhi'⟩
      · exact hgiven x ⟨hlo.trans hx.1, hx.2.trans_le hhi⟩
      · rintro ⟨r', hr', hge, hlt⟩
        obtain ⟨-, -, hmiss⟩ := hrest r' (Option.mem_toList.1 hr')
        obtain ⟨hge', hlt'⟩ := hx
        dsimp only at hge' hlt'
        omega

theorem board_freeAll : freeAll OneRegion.free none (boardBlob.handedPieces 0x80000000) =
    .ok (0x1400, some ⟨0x80000000, 0x1400⟩) := by decide +kernel

theorem board_lists : boardBlob.TerminatedLists := by
  have hall : ∀ n ∈ boardBlob.nodes,
      (n.prop? (ascii "compatible")).all (fun p => tailOf p.value = []) = true := by decide
  intro n hn p hp
  have hp' := hall n hn
  rw [hp] at hp'
  exact of_decide_eq_true hp'

theorem board_valid : fdtVerify (Mem.view boardMachine.mem) boardBlob.fdt = .ok .valid := by decide

theorem board_bootable (hapart : boardBlob.Apart kernelEnd) :
    boardBlob.Bootable kernelEnd boardMachine where
  holds := boardMachine_in
  valid := board_valid
  empty := rfl
  noWrap := board_handedNoWrap
  lists := board_lists
  apart := hapart

/-- The pieces of the board are merged wrongly, but not with the blob. -/
theorem board_apart : boardBlob.Apart 0x80000000 := by
  intro freed r h
  rw [board_freeAll] at h
  cases h
  refine ⟨⟨List.pairwise_singleton _ _, by decide, by decide, by decide⟩, .inl ?_⟩
  decide +kernel

/-- The boot on the board: there is no syscon, and the page is the upper end of the region. -/
theorem kmainSetup_boot_board :
    ∃ done, boardBlob.boot 0x80000000 = .ok done ∧
      done.list = some ⟨0x80000000, 0x400⟩ ∧ done.rebootOk = false ∧
      ∃ st, kmainSetup (.riscv 0) 1000 0x80000000 0x10000000 boardBlob.fdt boardMachine =
          .ok (.up done.rebootOk done.shutdownOk st) ∧
        receivedBy 0x10000000 st.out = (Arch.riscv 0).text ++ done.text ∧
        ListIs st.machine done.list ∧
        st.syscon = done.syscon ∧
        boardBlob.In (Mem.view st.machine.mem) := by
  obtain ⟨done, hdone, hlist, hok⟩ : ∃ done, boardBlob.boot 0x80000000 = .ok done ∧
      done.list = some ⟨0x80000000, 0x400⟩ ∧ done.rebootOk = false := by
    have hlast : (boardBlob.boot 0x80000000).map (fun done => (done.list, done.rebootOk)) =
        .ok (some ⟨0x80000000, 0x400⟩, false) := by decide +kernel
    cases hboot : boardBlob.boot 0x80000000 with
    | error e =>
      rw [hboot] at hlast
      cases hlast
    | ok done =>
      rw [hboot] at hlast
      obtain ⟨hlist, hok⟩ := Prod.mk.inj (Except.ok.inj hlast)
      exact ⟨done, rfl, hlist, hok⟩
  have hfuel : boardBlob.totalsize + 128 < 1000 := by decide +kernel
  exact ⟨done, hdone, hlist, hok,
    (kmainSetup_boot (board_bootable board_apart) hfuel (.riscv 0) (by decide)).2 done hdone⟩

end RiscyOs
