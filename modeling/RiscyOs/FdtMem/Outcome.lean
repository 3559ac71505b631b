import RiscyOs.FdtMem.Kernel

/-!
# What comes of a run of `fdt_boot_mem_init`

The kernel calls `fdt_boot_mem_init` with an empty free list. Three faults of the code decide what
comes of the run: the inner loop asks for the first block of a node again and again, `reg` is read
with the cell counts of the node itself, and `boot_free` merges a piece into a region that it does
not touch.

* `fdtBootMemInit_hands_iff`: when the run hands on all register blocks.
* `kernelMemInit_take`: the run reports the blocks the code hands on, and leaves the region kept of
  their pieces.
* `kernelMemInit_safe_of_unmerged`: the list is inside the memory that may be freed when nothing is
  merged and the counts of the memory nodes are those of their parents.
-/

namespace RiscyOs

open ByteMemory FuelLoop Ranges

/-! ## Blocks and bytes -/

namespace Blob

/-- No range of the device tree wraps. An end at `2 ^ 64` is wrapped: as a word it is `0`. -/
structure NoWrap (b : Blob) : Prop where
  reserve : ∀ e ∈ b.reserve, e.1 + e.2 < 2 ^ 64
  blocks : ∀ r ∈ b.memoryBlocks, r.1 + r.2 < 2 ^ 64

/-- No reserve entry wraps, and none of the blocks the code hands on. -/
structure HandedNoWrap (b : Blob) : Prop where
  reserve : ∀ e ∈ b.reserve, e.1 + e.2 < 2 ^ 64
  handed : ∀ r ∈ b.handedBlocks, r.1 + r.2 < 2 ^ 64

/-- A memory node the code has bytes from declares no cell counts but those of its parent. -/
def MemoryCounts (b : Blob) : Prop :=
  ∀ x ∈ b.memoryNodes, 0 < blockCount x.1 x.2 → 0 < (firstBlock x.1 x.2).2 → CountsAgree x.1 x.2

instance (b : Blob) : Decidable b.MemoryCounts :=
  inferInstanceAs (Decidable (∀ x ∈ b.memoryNodes, _ → _ → CountsAgree x.1 x.2))

/-- The byte is in a register block of a memory node, above the kernel, in no reserve entry and not
in the blob. -/
def Safe (b : Blob) (kernelEnd x : Nat) : Prop :=
  Covers b.memoryBlocks x ∧ kernelEnd ≤ x ∧ ¬ Covers b.reserve x ∧ ¬ Has (b.fdt, b.totalsize) x

variable {b : Blob} {kernelEnd : Nat}

/-- A block that is handed on and not empty is a register block. -/
theorem MemoryCounts.mem_memoryBlocks (h : b.MemoryCounts) {r : Nat × Nat}
    (hr : r ∈ b.handedBlocks) (hpos : 0 < r.2) : r ∈ b.memoryBlocks := by
  obtain ⟨x, hx, hcode⟩ := List.mem_flatMap.1 hr
  obtain ⟨hcount, rfl⟩ := List.mem_replicate.1 hcode
  have hcount := Nat.pos_of_ne_zero hcount
  have hhead := ownBlocks_head hcount hpos
  rw [ownBlocks_eq (h x hx hcount hpos)] at hhead
  exact List.mem_flatMap.2 ⟨x, hx, List.mem_of_head? hhead⟩

/-- An empty block lies at a word, and does not wrap either. -/
theorem NoWrap.handed (h : b.NoWrap) (hcounts : b.MemoryCounts) : b.HandedNoWrap where
  reserve := h.reserve
  handed := by
    intro r hr
    by_cases hpos : 0 < r.2
    · exact h.blocks r (hcounts.mem_memoryBlocks hr hpos)
    · obtain ⟨x, hx, hcode⟩ := List.mem_flatMap.1 hr
      obtain ⟨-, rfl⟩ := List.mem_replicate.1 hcode
      have hlt := (firstBlock_lt x.1 x.2).1
      omega

/-- The pieces are safe. -/
theorem safe_of_mem_handedPieces (hcounts : b.MemoryCounts) {p : Nat × Nat}
    (hp : p ∈ b.handedPieces kernelEnd) {x : Nat} (hx : Has p x) : b.Safe kernelEnd x := by
  obtain ⟨r, hr, hpr⟩ := List.mem_flatMap.1 hp
  obtain ⟨hrx, hrest⟩ := covers_pieces.1 ⟨p, hpr, hx⟩
  have hpos : 0 < r.2 := by
    have := hrx.1
    have := hrx.2
    omega
  exact ⟨⟨r, hcounts.mem_memoryBlocks hr hpos, hrx⟩, hrest⟩

end Blob

/-! ## The run -/

variable {b : Blob} {s : Machine} {kernelEnd fuel : Nat}

/-- **A run from the empty list.** -/
theorem kernelMemInit_take (kernelEnd : Nat) (hin : b.In (Mem.view s.mem))
    (hnil : s.bootFreeList = NULL) (hwrap : b.HandedNoWrap) (hfuel : b.totalsize < fuel) :
    (∀ e, Kept.takeAll none (b.handedPieces kernelEnd) = .error e →
      kernelMemInit kernelEnd fuel b.fdt s = .error e) ∧
    ∀ k, Kept.takeAll none (b.handedPieces kernelEnd) = .ok k →
      ∃ freed s', kernelMemInit kernelEnd fuel b.fdt s =
        .ok (Report.after ⟨[], 0, 0⟩ b.handedBlocks freed, s') ∧ Keeping b s.mem s' k := by
  have hstart : Keeping b s.mem s none := ⟨hnil, fun r hr => (by cases hr), fun x _ _ => rfl⟩
  have hrun : kernelMemInit kernelEnd fuel b.fdt s = _ :=
    fdtBootMemInit_eq (bootFree_keepsBlob hin) hfuel hwrap.reserve hwrap.handed ⟨none, hstart⟩
  have htakes : Simulates b s.mem (freeAll bootFree s (b.handedPieces kernelEnd))
      (Kept.takeAll none (b.handedPieces kernelEnd)) :=
    freeAll_takeAll hstart (Blob.allowed_of_mem_flatMap hwrap.handed)
  rw [hrun]
  constructor
  · intro e he
    rw [he] at htakes
    rw [show freeAll bootFree s (b.handedPieces kernelEnd) = .error e from htakes]
    rfl
  · intro k hk
    rw [hk] at htakes
    obtain ⟨freed, s', hfree, hkeeping⟩ := htakes
    rw [hfree]
    exact ⟨freed, s', rfl, hkeeping⟩

/-! ## The board -/

/-- The board as it boots, with the blob in memory and an empty list. -/
def boardMachine : Machine := ⟨boardView.fill, NULL⟩

theorem boardMachine_in : boardBlob.In (Mem.view boardMachine.mem) :=
  Source.in_of_holds board_fits (View.ofList_holds _ _).fill

theorem board_noWrap : boardBlob.NoWrap := ⟨by decide, by decide⟩

theorem board_memoryCounts : boardBlob.MemoryCounts := by decide

theorem board_handedNoWrap : boardBlob.HandedNoWrap := board_noWrap.handed board_memoryCounts

theorem board_handedBlocks : boardBlob.handedBlocks =
    [(0x80000000, 0x1000), (0x80000000, 0x1000), (0x80006000, 0x1000)] := by decide

theorem board_memoryBlocks : boardBlob.memoryBlocks =
    [(0x80000000, 0x1000), (0x90000000, 0x2000), (0x80006000, 0x1000)] := by decide

/-- The region kept begins with the `0x400` bytes below the reserve entry, and grows by the whole
second memory node, which starts at its scaled end. -/
theorem board_takeAll : Kept.takeAll none (boardBlob.handedPieces 0x80000000) =
    .ok (some (0x80000000, 0x1400)) := by decide +kernel

/-! ## All register blocks -/

/-- Remember the region, and free as much of it as `freed` says. -/
def remember (freed : Nat × Nat → Nat) (calls : List (Nat × Nat)) (start size : Nat) :
    Result (Nat × List (Nat × Nat)) := .ok (freed (start, size), calls ++ [(start, size)])

section
variable {m : Mem}

theorem serves_remember (hin : b.In (Mem.view m)) (freed : Nat × Nat → Nat) :
    Serves (remember freed) b (fun _ => Mem.view m) (fun _ => True) (fun _ => True) :=
  ⟨fun _ => hin, fun _ => Mem.view_total m, fun _ _ _ => trivial⟩

/-- The blocks handed on are remembered, and their sizes added up. -/
theorem handAll_remember (freed : Nat × Nat → Nat) (rs : List (Nat × Nat)) (report : Report)
    (calls : List (Nat × Nat)) :
    ∃ report', rs.foldlM (hand (remember freed)) (report, calls) = .ok (report', calls ++ rs) ∧
      report'.totalMemSeen % 2 ^ 64 =
        (report.totalMemSeen + (rs.map Prod.snd).sum) % 2 ^ 64 ∧
      (report.Words → report'.Words) := by
  induction rs generalizing report calls with
  | nil => exact ⟨report, by rw [List.append_nil]; rfl, by simp, id⟩
  | cons r rs ih =>
    obtain ⟨report', hrest, hseen, hwords⟩ := ih ⟨report.handed ++ [r],
      wadd report.totalMemSeen r.2, wadd report.totalMemFreed (freed r)⟩ (calls ++ [r])
    refine ⟨report', ?_, ?_, fun _ => hwords ⟨wadd_lt _ _, wadd_lt _ _⟩⟩
    · rw [List.foldlM_cons, List.append_cons]
      exact hrest
    · rw [hseen, List.map_cons, List.sum_cons, wadd, Nat.mod_add_mod, Nat.add_assoc]

/-- **When the run hands on all register blocks**, those of each memory node in order, and reports
the sum of their sizes: the first block of each memory node stands for all its blocks, and the sum
is a word. Whatever `try_boot_free_region` frees does not matter. -/
theorem fdtBootMemInit_hands_iff (hin : b.In (Mem.view m)) (hfuel : b.totalsize < fuel)
    (freed : Nat × Nat → Nat) :
    ((∀ x ∈ b.memoryNodes, ∀ report calls, ∃ report',
        handBlocks (fun _ => Mem.view m) (remember freed) fuel b.fdt x.1.addr (report, calls) =
          .ok (report', calls ++ registerBlocks x.1 x.2)) ∧
      ∃ report, fdtBootMemInitWith (fun _ => Mem.view m) (remember freed) fuel b.fdt [] =
          .ok (report, b.memoryBlocks) ∧
        report.totalMemSeen = (b.memoryBlocks.map Prod.snd).sum) ↔
      (∀ x ∈ b.memoryNodes, FirstForAll x.1 x.2) ∧
        (b.memoryBlocks.map Prod.snd).sum < 2 ^ 64 := by
  have hserves := serves_remember hin freed
  have hnode : ∀ x ∈ b.memoryNodes, ∀ report calls,
      handBlocks (fun _ => Mem.view m) (remember freed) fuel b.fdt x.1.addr (report, calls) =
        (codeBlocks x.1 x.2).foldlM (hand (remember freed)) (report, calls) :=
    fun x hx report calls => handBlocks_eq (x := (report, calls)) hserves hfuel
      (List.mem_filter.1 hx).1 (fun _ _ => trivial) trivial
  have hrun : fdtBootMemInitWith (fun _ => Mem.view m) (remember freed) fuel b.fdt [] =
      b.handedBlocks.foldlM (hand (remember freed)) (⟨[], 0, 0⟩, []) :=
    fdtBootMemInitWith_eq hserves hfuel (fun _ _ => trivial) trivial
  have hstart : (⟨[], 0, 0⟩ : Report).Words := ⟨by norm_num, by norm_num⟩
  obtain ⟨last, hlast, hseen, hwords⟩ := handAll_remember freed b.handedBlocks ⟨[], 0, 0⟩ []
  constructor
  · rintro ⟨hblocks, report, hreport, htotal⟩
    constructor
    · intro x hx
      obtain ⟨report', hcalls⟩ := hblocks x hx ⟨[], 0, 0⟩ []
      obtain ⟨report'', hcalls', -⟩ := handAll_remember freed (codeBlocks x.1 x.2) ⟨[], 0, 0⟩ []
      rw [hnode x hx, hcalls'] at hcalls
      exact (codeBlocks_eq_iff x.1 x.2).1 (Prod.mk.inj (Except.ok.inj hcalls)).2
    · rw [hrun, hlast] at hreport
      rw [← htotal, ← (Prod.mk.inj (Except.ok.inj hreport)).1]
      exact (hwords hstart).1
  · rintro ⟨hfirst, hsum⟩
    have hcode : ∀ x ∈ b.memoryNodes, codeBlocks x.1 x.2 = registerBlocks x.1 x.2 :=
      fun x hx => (codeBlocks_eq_iff x.1 x.2).2 (hfirst x hx)
    have hhanded : b.handedBlocks = b.memoryBlocks := List.flatMap_congr hcode
    constructor
    · intro x hx report calls
      obtain ⟨report', hcalls, -⟩ := handAll_remember freed (codeBlocks x.1 x.2) report calls
      rw [hcode x hx] at hcalls
      exact ⟨report', by rw [hnode x hx, hcode x hx, hcalls]⟩
    · rw [hhanded] at hlast hrun hseen
      refine ⟨last, hrun.trans hlast, ?_⟩
      rwa [Nat.mod_eq_of_lt (hwords hstart).1, Nat.zero_add, Nat.mod_eq_of_lt hsum] at hseen

end

/-- The second block of the first memory node of `board` is not handed on, and the first is handed
on twice. -/
theorem fdtBootMemInit_board_hands :
    boardBlob.In (Mem.view boardMachine.mem) ∧
      boardBlob.memoryBlocks =
        [(0x80000000, 0x1000), (0x90000000, 0x2000), (0x80006000, 0x1000)] ∧
      (boardBlob.memoryBlocks.map Prod.snd).sum = 0x4000 ∧
      ∃ report, fdtBootMemInitWith (fun _ => Mem.view boardMachine.mem) (remember fun _ => 0) 1000
          0x1000 [] =
          .ok (report, [(0x80000000, 0x1000), (0x80000000, 0x1000), (0x80006000, 0x1000)]) ∧
        report.totalMemSeen = 0x3000 := by
  have hrun := fdtBootMemInitWith_eq (serves_remember boardMachine_in fun _ => 0)
    board_fuel (fun _ _ => trivial) (s := []) trivial
  have hcalls : boardBlob.handedBlocks.foldlM (hand (remember fun _ => 0)) (⟨[], 0, 0⟩, []) =
      .ok (⟨boardBlob.handedBlocks, 0x3000, 0⟩, boardBlob.handedBlocks) := by
    rw [board_handedBlocks]
    rfl
  rw [hcalls, board_handedBlocks] at hrun
  refine ⟨boardMachine_in, board_memoryBlocks, ?_, _, hrun, rfl⟩
  rw [board_memoryBlocks]
  rfl

theorem fdtBootMemInit_hands_iff_board :
    ((∀ x ∈ boardBlob.memoryNodes, ∀ report calls, ∃ report',
        handBlocks (fun _ => Mem.view boardMachine.mem) (remember fun _ => 0) 1000 boardBlob.fdt
            x.1.addr (report, calls) =
          .ok (report', calls ++ registerBlocks x.1 x.2)) ∧
      ∃ report, fdtBootMemInitWith (fun _ => Mem.view boardMachine.mem) (remember fun _ => 0) 1000
            boardBlob.fdt [] = .ok (report, boardBlob.memoryBlocks) ∧
        report.totalMemSeen = (boardBlob.memoryBlocks.map Prod.snd).sum) ↔
      (∀ x ∈ boardBlob.memoryNodes, FirstForAll x.1 x.2) ∧
        (boardBlob.memoryBlocks.map Prod.snd).sum < 2 ^ 64 :=
  fdtBootMemInit_hands_iff boardMachine_in board_fuel fun _ => 0

/-! ## The list afterwards -/

/-- **No merge, no unsafe byte.** The region that is kept is a piece of a block, when nothing starts
at its scaled end; and the blocks are register blocks, when no memory node declares cell counts. -/
theorem kernelMemInit_safe_of_unmerged (hin : b.In (Mem.view s.mem))
    (hnil : s.bootFreeList = NULL) (hwrap : b.NoWrap) (hfuel : b.totalsize < fuel)
    (hcounts : b.MemoryCounts) (hunmerged : Unmerged (b.handedPieces kernelEnd))
    {report : Report} {s' : Machine}
    (hrun : kernelMemInit kernelEnd fuel b.fdt s = .ok (report, s')) :
    ∀ x ∈ s'.freeBytes, b.Safe kernelEnd x := by
  obtain ⟨herr, hok⟩ := kernelMemInit_take kernelEnd hin hnil (hwrap.handed hcounts) hfuel
  intro x hx
  cases htake : Kept.takeAll none (b.handedPieces kernelEnd) with
  | error e =>
    rw [herr e htake] at hrun
    cases hrun
  | ok k =>
    obtain ⟨freed, s₁, hrun', hkeeping⟩ := hok k htake
    rw [hrun'] at hrun
    obtain rfl := (Prod.mk.inj (Except.ok.inj hrun)).2
    obtain ⟨r, rfl, hr⟩ := hkeeping.lists.freeBytes_eq.1 hx
    exact Blob.safe_of_mem_handedPieces hcounts (Kept.takeAll_none hunmerged htake) hr

/-- On `board` the reserved byte `0x80000400` ends up on the list. -/
theorem kernelMemInit_board_unsafe :
    boardBlob.In (Mem.view boardMachine.mem) ∧ boardMachine.bootFreeList = NULL ∧
      boardBlob.NoWrap ∧
      ∃ report s', kernelMemInit 0x80000000 1000 0x1000 boardMachine = .ok (report, s') ∧
        0x80000400 ∈ s'.freeBytes ∧ Covers boardBlob.reserve 0x80000400 := by
  obtain ⟨-, hok⟩ := kernelMemInit_take 0x80000000 boardMachine_in rfl board_handedNoWrap
    board_fuel
  obtain ⟨freed, s', hrun, hkeeping⟩ := hok _ board_takeAll
  refine ⟨boardMachine_in, rfl, board_noWrap, _, s', hrun, ?_, ?_⟩
  · exact hkeeping.lists.freeBytes_eq.2 ⟨_, rfl, by decide, by decide⟩
  · exact ⟨(0x80000400, 0x100), List.mem_cons_self, by decide, by decide⟩

theorem board_unmerged : Unmerged (boardBlob.handedPieces 0x80005000) := by decide +kernel

/-- Above `0x80005000` the board has one page, and it is safe. -/
theorem kernelMemInit_safe_of_unmerged_board :
    ∃ report s', kernelMemInit 0x80005000 1000 boardBlob.fdt boardMachine = .ok (report, s') ∧
      0x80006000 ∈ s'.freeBytes ∧ ∀ x ∈ s'.freeBytes, boardBlob.Safe 0x80005000 x := by
  have htake : Kept.takeAll none (boardBlob.handedPieces 0x80005000) =
      .ok (some (0x80006000, 0x1000)) := by decide +kernel
  obtain ⟨-, hok⟩ := kernelMemInit_take 0x80005000 boardMachine_in rfl board_handedNoWrap
    board_fuel
  obtain ⟨freed, s', hrun, hkeeping⟩ := hok _ htake
  have hfirst : (0x80006000 : Nat) ∈ s'.freeBytes :=
    hkeeping.lists.freeBytes_eq.2 ⟨(0x80006000, 0x1000), rfl, le_rfl, by decide⟩
  refine ⟨_, s', hrun, hfirst, ?_⟩
  exact kernelMemInit_safe_of_unmerged boardMachine_in rfl board_noWrap board_fuel
    board_memoryCounts board_unmerged hrun

end RiscyOs
