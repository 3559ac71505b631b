import RiscyOs.Fdt.Blocks
import RiscyOs.Fdt.Search
import RiscyOs.FdtMem.Region

/-!
# A run of `fdt_boot_mem_init`

`Blob.memoryNodes` are the nodes whose device type is `memory`. For each of them the code hands
on `codeBlocks`, its first block as often as it has blocks.

* `codeBlocks_eq_iff`: when these are the register blocks of the node.
* `fdtBootMemInitWith_eq`: with any `try_boot_free_region` that leaves the blob alone the run hands
  it these blocks, for all memory nodes in order.
* `fdtBootMemInit_eq`: with the one of the source it is one run of `boot_free` over the pieces of
  the blocks.
-/

namespace RiscyOs

open ByteMemory FuelLoop Ranges

/-! ## The blocks handed on -/

/-- The blocks the code hands on for a node with the ancestors `anc`. -/
def codeBlocks (n : Node) (anc : List Node) : List (Nat × Nat) :=
  List.replicate (blockCount n anc) (firstBlock n anc)

/-- Is it a node the code looks for? -/
def Node.isMemory (n : Node) : Bool := n.hasType (ascii "memory")

namespace Blob

/-- The memory nodes with their ancestors, in preorder. -/
def memoryNodes (b : Blob) : List (Node × List Node) :=
  b.paths.filter fun x => x.1.isMemory

/-- The register blocks of all memory nodes. -/
def memoryBlocks (b : Blob) : List (Nat × Nat) :=
  b.memoryNodes.flatMap fun x => registerBlocks x.1 x.2

/-- The blocks the code hands on. -/
def handedBlocks (b : Blob) : List (Nat × Nat) :=
  b.memoryNodes.flatMap fun x => codeBlocks x.1 x.2

/-- The pieces of the blocks the code hands on. -/
def handedPieces (b : Blob) (kernelEnd : Nat) : List (Nat × Nat) :=
  b.handedBlocks.flatMap (b.pieces kernelEnd)

end Blob

/-- The first block stands for all blocks of the node. When the node declares no cell counts but
those of its parent, and the code can read these, the other blocks are equal to it. Otherwise the
code finds the right number of blocks by chance, and they are all what it takes for the first
one. -/
def FirstForAll (n : Node) (anc : List Node) : Prop :=
  match n.prop? (ascii "reg") with
  | none => True
  | some reg =>
    let address := addressCells anc
    let size := sizeCells anc
    let count := reg.value.length / 4 / (address + size)
    if CountsAgree n anc ∧ Readable address ∧ Readable size then
      ∀ i < count, blockAt reg.value address size i = blockAt reg.value address size 0
    else blockCount n anc = count ∧
      ∀ i < count, blockAt reg.value address size i = firstBlock n anc

/-- A list is a constant when all its entries are. -/
theorem replicate_eq_map_range {α : Type} {k count : Nat} {x : α} {f : Nat → α} :
    List.replicate k x = (List.range count).map f ↔ k = count ∧ ∀ i < count, f i = x := by
  constructor
  · intro h
    have hlen : k = count := by simpa using congrArg List.length h
    refine ⟨hlen, ?_⟩
    intro i hi
    have hmem : f i ∈ List.replicate k x := by
      rw [h]
      exact List.mem_map_of_mem (List.mem_range.2 hi)
    exact (List.mem_replicate.1 hmem).2
  · intro ⟨hk, hall⟩
    refine (List.eq_replicate_iff.2 ⟨by simp [hk], ?_⟩).symm
    intro y hy
    obtain ⟨i, hi, rfl⟩ := List.mem_map.1 hy
    exact hall i (List.mem_range.1 hi)

/-- **When the code hands on the register blocks of a node.** -/
theorem codeBlocks_eq_iff (n : Node) (anc : List Node) :
    codeBlocks n anc = registerBlocks n anc ↔ FirstForAll n anc := by
  unfold codeBlocks registerBlocks blocksWith FirstForAll
  cases hp : n.prop? (ascii "reg") with
  | none => simp [blockCount, hp]
  | some reg =>
    dsimp only
    rw [replicate_eq_map_range]
    by_cases hgood : CountsAgree n anc ∧ Readable (addressCells anc) ∧ Readable (sizeCells anc)
    · obtain ⟨hcounts, hA, hS⟩ := hgood
      have hcount : blockCount n anc =
          reg.value.length / 4 / (addressCells anc + sizeCells anc) := by
        unfold blockCount
        rw [hp, hcounts.1, hcounts.2, regBlockCells_eq hA hS]
      have hfirst : firstBlock n anc =
          blockAt reg.value (addressCells anc) (sizeCells anc) 0 := by
        unfold firstBlock
        rw [hp, hcounts.1, hcounts.2]
        exact if_pos ⟨hA, hS⟩
      rw [if_pos ⟨hcounts, hA, hS⟩, hfirst]
      exact and_iff_right hcount
    · rw [if_neg hgood]

/-! ## The report -/

namespace Report

/-- The report after the ranges `rs` were handed on, of which `freed` bytes were freed. -/
def after (report : Report) (rs : List (Nat × Nat)) (freed : Nat) : Report where
  handed := report.handed ++ rs
  totalMemSeen := (report.totalMemSeen + (rs.map Prod.snd).sum) % 2 ^ 64
  totalMemFreed := wadd report.totalMemFreed freed

/-- The totals are words. -/
def Words (report : Report) : Prop :=
  report.totalMemSeen < 2 ^ 64 ∧ report.totalMemFreed < 2 ^ 64

theorem words_after (report : Report) (rs : List (Nat × Nat)) (freed : Nat) :
    (report.after rs freed).Words :=
  ⟨Nat.mod_lt _ (by norm_num), wadd_lt _ _⟩

theorem after_nil {report : Report} (h : report.Words) : report.after [] 0 = report := by
  obtain ⟨handed, seen, freed⟩ := report
  obtain ⟨hseen, hfreed⟩ := h
  simp only [after, List.append_nil, List.map_nil, List.sum_nil, Nat.add_zero,
    Nat.mod_eq_of_lt hseen, wadd_zero hfreed]

theorem after_after (report : Report) (rs rs' : List (Nat × Nat)) (freed freed' : Nat) :
    (report.after rs freed).after rs' freed' = report.after (rs ++ rs') (wadd freed freed') := by
  simp only [after, List.append_assoc, Nat.mod_add_mod, Nat.add_assoc, List.map_append,
    List.sum_append, wadd_assoc]

end Report

/-! ## Handing on -/

section
variable {σ : Type} (tryFree : σ → Nat → Nat → Result (Nat × σ))

/-- Hand a block to `try_boot_free_region`, and report it. -/
def hand (x : Report × σ) (block : Nat × Nat) : Result (Report × σ) := do
  let (freed, s) ← tryFree x.2 block.1 block.2
  return ({ handed := x.1.handed ++ [block]
            totalMemSeen := wadd x.1.totalMemSeen block.2
            totalMemFreed := wadd x.1.totalMemFreed freed }, s)

/-- The blob stays in memory, all of which can be read, while blocks with `P` are handed on. -/
structure Serves (b : Blob) (view : σ → View) (P : Nat × Nat → Prop) (Inv : σ → Prop) : Prop where
  blobIn : ∀ {s : σ}, Inv s → b.In (view s)
  total : ∀ {s : σ}, Inv s → (view s).Total
  serve : ∀ {s s' : σ} {r : Nat × Nat} {freed : Nat}, Inv s → P r →
    tryFree s r.1 r.2 = .ok (freed, s') → Inv s'

variable {tryFree} {b : Blob} {view : σ → View} {P : Nat × Nat → Prop} {Inv : σ → Prop}
  {fuel : Nat} {n : Node} {anc : List Node} {x x' : Report × σ}

theorem Serves.hand (hk : Serves tryFree b view P Inv) {r : Nat × Nat} (hr : P r) (hx : Inv x.2)
    (h : hand tryFree x r = .ok x') : Inv x'.2 := by
  obtain ⟨⟨freed, s⟩, htry, hret⟩ := bind_eq_ok.1 h
  cases hret
  exact hk.serve hx hr htry

theorem Serves.handAll (hk : Serves tryFree b view P Inv) {rs : List (Nat × Nat)}
    (hrs : ∀ r ∈ rs, P r) (hx : Inv x.2) (h : rs.foldlM (RiscyOs.hand tryFree) x = .ok x') :
    Inv x'.2 := by
  induction rs generalizing x with
  | nil =>
    cases h
    exact hx
  | cons r rs ih =>
    rw [List.foldlM_cons] at h
    obtain ⟨y, hfirst, hrest⟩ := bind_eq_ok.1 h
    exact ih (fun q hq => hrs q (List.mem_cons_of_mem r hq))
      (hk.hand (hrs r List.mem_cons_self) hx hfirst) hrest

/-- The totals of a run are words. -/
theorem handAll_words {rs : List (Nat × Nat)} (hx : x.1.Words)
    (h : rs.foldlM (RiscyOs.hand tryFree) x = .ok x') : x'.1.Words := by
  induction rs generalizing x with
  | nil =>
    cases h
    exact hx
  | cons r rs ih =>
    rw [List.foldlM_cons] at h
    obtain ⟨y, hfirst, hrest⟩ := bind_eq_ok.1 h
    obtain ⟨⟨freed, s⟩, -, hret⟩ := bind_eq_ok.1 hfirst
    cases hret
    exact ih ⟨wadd_lt _ _, wadd_lt _ _⟩ hrest

/-! ## The loops -/

/-- One pass of the inner loop. -/
theorem handBlock_eq (hk : Serves tryFree b view P Inv) (hfuel : b.totalsize < fuel)
    (hmem : (n, anc) ∈ b.paths) (hcount : 0 < blockCount n anc) (i : Nat) (hx : Inv x.2) :
    handBlock view tryFree fuel b.fdt n.addr i x = hand tryFree x (firstBlock n anc) := by
  unfold handBlock
  dsimp only
  rw [(hk.blobIn hx).registerBlock_zero_eq (hk.total hx) hfuel hmem hcount, ok_bind]
  rfl

/-- The inner loop hands on the first block again and again. -/
theorem handBlock_loop_eq (hk : Serves tryFree b view P Inv) (hfuel : b.totalsize < fuel)
    (hmem : (n, anc) ∈ b.paths) (hcount : 0 < blockCount n anc) (hfirst : P (firstBlock n anc))
    (i count : Nat) (hx : Inv x.2) :
    forLoop (handBlock view tryFree fuel b.fdt n.addr) i count x =
      (List.replicate count (firstBlock n anc)).foldlM (hand tryFree) x := by
  induction count generalizing i x with
  | zero => rfl
  | succ count ih =>
    rw [forLoop, handBlock_eq hk hfuel hmem hcount i hx, List.replicate_succ, List.foldlM_cons]
    cases hpass : hand tryFree x (firstBlock n anc) with
    | error e => rfl
    | ok y => exact ih (i + 1) (hk.hand hfirst hx hpass)

/-- **What the code hands on for a node.** -/
theorem handBlocks_eq (hk : Serves tryFree b view P Inv) (hfuel : b.totalsize < fuel)
    (hmem : (n, anc) ∈ b.paths) (hP : ∀ r ∈ codeBlocks n anc, P r) (hx : Inv x.2) :
    handBlocks view tryFree fuel b.fdt n.addr x = (codeBlocks n anc).foldlM (hand tryFree) x := by
  unfold handBlocks
  dsimp only
  rw [(hk.blobIn hx).numRegisterBlocks_eq hfuel hmem, ok_bind]
  by_cases hcount : 0 < blockCount n anc
  · have hfirst := hP (firstBlock n anc) (List.mem_replicate.2 ⟨hcount.ne', rfl⟩)
    exact handBlock_loop_eq hk hfuel hmem hcount hfirst 0 _ hx
  · have hzero : blockCount n anc = 0 := Nat.eq_zero_of_not_pos hcount
    rw [codeBlocks, hzero]
    rfl

/-- The string the source looks for, and the room there is for it. -/
theorem memoryType_is : memoryType.Is (ascii "memory") := CStr.lit_is (by decide)

theorem length_memoryType : (ascii "memory").length = 6 := by decide

theorem Blob.length_memoryType_lt (b : Blob) (hfuel : b.totalsize < fuel) :
    (ascii "memory").length < fuel := by
  have := b.header_le
  rw [length_memoryType]
  omega

/-- One pass of the outer loop: the blocks of a memory node, and the next memory node. -/
theorem memInitStep_eq (hk : Serves tryFree b view P Inv) (hfuel : b.totalsize < fuel)
    {done todo : List (Node × List Node)} (hpaths : b.paths = done ++ (n, anc) :: todo)
    (hP : ∀ r ∈ codeBlocks n anc, P r) (hx : Inv x.2) :
    memInitStep view tryFree fuel b.fdt (n.addr, x) = do
      let x ← (codeBlocks n anc).foldlM (hand tryFree) x
      return .inl (nodesPtr ((todo.map Prod.fst).filter Node.isMemory), x) := by
  have hin := hk.blobIn hx
  have hmem : (n, anc) ∈ b.paths := by
    rw [hpaths]
    exact List.mem_append_right _ List.mem_cons_self
  have hnodes : b.nodes = done.map Prod.fst ++ n :: todo.map Prod.fst := by
    rw [← b.paths_map_fst, hpaths, List.map_append, List.map_cons]
  have hpos := hin.addr_ne (b.mem_nodes_of_mem_paths hmem n List.mem_cons_self)
  unfold memInitStep
  dsimp only
  rw [if_neg hpos, handBlocks_eq hk hfuel hmem hP hx]
  cases hall : (codeBlocks n anc).foldlM (hand tryFree) x with
  | error e => rfl
  | ok y =>
    have hnext : fdtFindNodeByDeviceType fuel (view y.2) b.fdt n.addr memoryType =
        .ok (nodesPtr ((todo.map Prod.fst).filter Node.isMemory)) :=
      (hk.blobIn (hk.handAll hP hx hall)).findNode_next hfuel memoryType_is
        (b.length_memoryType_lt hfuel) (by rw [length_memoryType]; decide) hnodes
    simp only [ok_bind, pure_eq_ok, hnext]

/-- The outer loop goes through the memory nodes. -/
theorem memInit_loop_eq (hk : Serves tryFree b view P Inv) (hfuel : b.totalsize < fuel)
    {done todo : List (Node × List Node)} (hpaths : b.paths = done ++ todo)
    (hP : ∀ x ∈ todo.filter (fun x => x.1.isMemory), ∀ r ∈ codeBlocks x.1 x.2, P r)
    {k : Nat} (hlen : todo.length < k) (hx : Inv x.2) :
    loop .outOfFuel (memInitStep view tryFree fuel b.fdt) k
        (nodesPtr ((todo.map Prod.fst).filter Node.isMemory), x) =
      ((todo.filter fun x => x.1.isMemory).flatMap fun x => codeBlocks x.1 x.2).foldlM
        (hand tryFree) x := by
  induction todo generalizing done k x with
  | nil =>
    obtain ⟨k, rfl⟩ : ∃ j, k = j + 1 := ⟨k - 1, by omega⟩
    exact loop_leave rfl
  | cons y todo ih =>
    obtain ⟨m, anc⟩ := y
    have hpaths' : b.paths = (done ++ [(m, anc)]) ++ todo := by simpa using hpaths
    rw [List.length_cons] at hlen
    by_cases hm : m.isMemory = true
    · obtain ⟨k, rfl⟩ : ∃ j, k = j + 1 := ⟨k - 1, by omega⟩
      have hfilter : ((m, anc) :: todo).filter (fun x => x.1.isMemory) =
          (m, anc) :: todo.filter (fun x => x.1.isMemory) :=
        List.filter_cons_of_pos hm
      have hptr : nodesPtr ((((m, anc) :: todo).map Prod.fst).filter Node.isMemory) = m.addr := by
        rw [List.map_cons, List.filter_cons_of_pos hm]
        rfl
      rw [hfilter] at hP ⊢
      have hPm : ∀ r ∈ codeBlocks m anc, P r := hP (m, anc) List.mem_cons_self
      have hstep := memInitStep_eq hk hfuel hpaths hPm hx
      -- the blocks of this node, then those of the nodes that are left
      rw [hptr, List.flatMap_cons, List.foldlM_append]
      cases hall : (codeBlocks m anc).foldlM (hand tryFree) x with
      | error e =>
        rw [hall] at hstep
        exact loop_fail hstep
      | ok y =>
        rw [hall, ok_bind, pure_eq_ok] at hstep
        rw [loop_again _ hstep, ok_bind]
        exact ih hpaths' (fun x hx => hP x (List.mem_cons_of_mem _ hx)) (by omega)
          (hk.handAll hPm hx hall)
    · have hfilter : ((m, anc) :: todo).filter (fun x => x.1.isMemory) =
          todo.filter (fun x => x.1.isMemory) := List.filter_cons_of_neg hm
      have hptr : nodesPtr ((((m, anc) :: todo).map Prod.fst).filter Node.isMemory) =
          nodesPtr ((todo.map Prod.fst).filter Node.isMemory) := by
        rw [List.map_cons, List.filter_cons_of_neg hm]
      rw [hfilter] at hP ⊢
      rw [hptr]
      exact ih hpaths' hP (by omega) hx

/-- **A run hands on the blocks of all memory nodes**, in order. -/
theorem fdtBootMemInitWith_eq (hk : Serves tryFree b view P Inv) (hfuel : b.totalsize < fuel)
    (hP : ∀ r ∈ b.handedBlocks, P r) {s : σ} (hs : Inv s) :
    fdtBootMemInitWith view tryFree fuel b.fdt s =
      b.handedBlocks.foldlM (hand tryFree) (⟨[], 0, 0⟩, s) := by
  have hin := hk.blobIn hs
  have hlen : b.paths.length < fuel := by
    have := hin.length_nodes_lt hfuel
    rwa [← b.paths_map_fst, List.length_map] at this
  unfold fdtBootMemInitWith
  rw [hin.findNode_begin hfuel memoryType_is (b.length_memoryType_lt hfuel)
    (by rw [length_memoryType]; decide), ok_bind, ← b.paths_map_fst]
  exact memInit_loop_eq hk hfuel (List.nil_append b.paths).symm
    (fun x hx r hr => hP r (List.mem_flatMap.2 ⟨x, hx, hr⟩)) hlen hs

end

/-! ## One run of `boot_free` -/

section
variable {σ : Type} {view : σ → View} {free : σ → Nat → Nat → Result (KError × σ)}
  {Inv : σ → Prop} {b : Blob} {kernelEnd fuel : Nat}

/-- The blob stays in memory, all of which can be read. -/
structure KeepsBlob (free : σ → Nat → Nat → Result (KError × σ)) (b : Blob) (kernelEnd : Nat)
    (view : σ → View) (Inv : σ → Prop) : Prop extends Keeps free b kernelEnd view Inv where
  blobIn : ∀ {s : σ}, Inv s → b.In (view s)
  total : ∀ {s : σ}, Inv s → (view s).Total

theorem Blob.reserve_lt_fuel (b : Blob) (hfuel : b.totalsize < fuel) :
    b.reserve.length + 1 < fuel := by
  have := b.rsvmap_le
  have := b.struct_le
  omega

theorem Blob.allowed_of_mem_flatMap {rs : List (Nat × Nat)}
    (hwrap : ∀ r ∈ rs, r.1 + r.2 < 2 ^ 64) :
    ∀ p ∈ rs.flatMap (b.pieces kernelEnd), b.Allowed kernelEnd p := by
  intro p hp
  obtain ⟨r, hr, hpr⟩ := List.mem_flatMap.1 hp
  exact Blob.allowed_of_mem (hwrap r hr) hpr

/-- A block that does not wrap is passed to `boot_free` in pieces. -/
theorem KeepsBlob.tryFree_eq (hk : KeepsBlob free b kernelEnd view Inv) (hfuel : b.totalsize < fuel)
    (hreserve : ∀ e ∈ b.reserve, e.1 + e.2 < 2 ^ 64) {r : Nat × Nat} (hr : r.1 + r.2 < 2 ^ 64)
    {s : σ} (hs : Inv s) :
    tryBootFreeRegion view free kernelEnd fuel b.fdt fuel s r.1 r.2 =
      freeAll free s (b.pieces kernelEnd r) := by
  have hlen := b.reserve_lt_fuel hfuel
  exact tryBootFreeRegion_eq hk.toKeeps (Nat.lt_of_succ_lt hlen) hreserve hlen hr hs

/-- The `try_boot_free_region` of the source leaves the blob alone when `boot_free` does. -/
theorem KeepsBlob.serves (hk : KeepsBlob free b kernelEnd view Inv) (hfuel : b.totalsize < fuel)
    (hreserve : ∀ e ∈ b.reserve, e.1 + e.2 < 2 ^ 64) :
    Serves (tryBootFreeRegion view free kernelEnd fuel b.fdt fuel) b view
      (fun r => r.1 + r.2 < 2 ^ 64) Inv where
  blobIn := hk.blobIn
  total := hk.total
  serve := by
    intro s s' r freed hs hr htry
    rw [hk.tryFree_eq hfuel hreserve hr hs] at htry
    exact hk.toKeeps.freeAll hs (fun p hp => Blob.allowed_of_mem hr hp) htry

/-- Blocks that are handed on are one run of `boot_free` over their pieces. -/
theorem KeepsBlob.handAll_eq (hk : KeepsBlob free b kernelEnd view Inv)
    (hfuel : b.totalsize < fuel) (hreserve : ∀ e ∈ b.reserve, e.1 + e.2 < 2 ^ 64)
    {rs : List (Nat × Nat)} (hwrap : ∀ r ∈ rs, r.1 + r.2 < 2 ^ 64) {report : Report}
    (hreport : report.Words) {s : σ} (hs : Inv s) :
    rs.foldlM (hand (tryBootFreeRegion view free kernelEnd fuel b.fdt fuel)) (report, s) = do
      let (freed, s) ← freeAll free s (rs.flatMap (b.pieces kernelEnd))
      return (report.after rs freed, s) := by
  induction rs generalizing report s with
  | nil =>
    simp only [List.foldlM_nil, List.flatMap_nil, freeAll, ok_bind, Report.after_nil hreport]
  | cons r rs ih =>
    have hr := hwrap r List.mem_cons_self
    have hpass : hand (tryBootFreeRegion view free kernelEnd fuel b.fdt fuel) (report, s) r = do
        let (freed, s) ← freeAll free s (b.pieces kernelEnd r)
        return (report.after [r] freed, s) := by
      rw [hand, hk.tryFree_eq hfuel hreserve hr hs]
      cases freeAll free s (b.pieces kernelEnd r) with
      | error e => rfl
      | ok y => simp [Report.after, wadd]
    rw [List.foldlM_cons, hpass, List.flatMap_cons, freeAll_append]
    cases hfirst : freeAll free s (b.pieces kernelEnd r) with
    | error e => rfl
    | ok y =>
      have hinv : Inv y.2 := hk.toKeeps.freeAll hs (fun p hp => Blob.allowed_of_mem hr hp)
        (show freeAll free s (b.pieces kernelEnd r) = .ok (y.1, y.2) from hfirst)
      simp only [ok_bind, pure_eq_ok]
      rw [ih (fun q hq => hwrap q (List.mem_cons_of_mem r hq)) (report.words_after _ _) hinv]
      cases freeAll free y.2 (rs.flatMap (b.pieces kernelEnd)) with
      | error e => rfl
      | ok z =>
        simp only [ok_bind, pure_eq_ok, Report.after_after]
        rfl

/-- **A run of `fdt_boot_mem_init` is one run of `boot_free`** over the pieces of the blocks the
code hands on. -/
theorem fdtBootMemInit_eq (hk : KeepsBlob free b kernelEnd view Inv) (hfuel : b.totalsize < fuel)
    (hreserve : ∀ e ∈ b.reserve, e.1 + e.2 < 2 ^ 64)
    (hwrap : ∀ r ∈ b.handedBlocks, r.1 + r.2 < 2 ^ 64) {s : σ} (hs : Inv s) :
    fdtBootMemInit view free kernelEnd fuel b.fdt s = do
      let (freed, s) ← freeAll free s (b.handedPieces kernelEnd)
      return (Report.after ⟨[], 0, 0⟩ b.handedBlocks freed, s) := by
  rw [fdtBootMemInit, fdtBootMemInitWith_eq (hk.serves hfuel hreserve) hfuel hwrap hs]
  exact hk.handAll_eq hfuel hreserve hwrap ⟨by norm_num, by norm_num⟩ hs

end

end RiscyOs
