import RiscyOs.Fdt.UnitName
import RiscyOs.FdtMem.Outcome
import RiscyOs.Lib.Output
import RiscyOs.Lib.Outline
import RiscyOs.Stdio.Printk

/-!
# What `fdt_boot_mem_init` prints

The inner loop prints a line for each block it hands on, and the function ends with the totals.
`fdtBootMemInitOut` is the function with this output.

* `fdtBootMemInitOutWith_eq`: it does what `fdtBootMemInit` does, whatever `try_boot_free_region`
  is, and prints a text that only depends on the blob and the report. The line of a block has the
  first block of the node, and a number that goes round at 256.
* `kernelMemInit_readReport`: a callback can read the report back from what it gets.
-/

namespace RiscyOs

open ByteMemory FuelLoop Ranges Outline

section
variable {σ : Type} (view : σ → View) (tryFree : σ → Nat → Nat → Result (Nat × σ))
  (fuel : Nat) (t : PutcharArray) (fdt : Nat)

/-- `handBlock` with the line it prints. -/
def handBlockOut (memNode : Nat) (i : Nat) :
    (Report × σ) × Calls → Result ((Report × σ) × Calls) := fun ((report, s), out) => do
  let (address, size) ← fdtNodeGetRegisterBlock fuel (view s) fdt memNode 0
  let totalMemSeen := wadd report.totalMemSeen size
  let name ← fdtNodeName (view s) memNode
  -- `'0' + (unsigned char)i`
  let out ← printk fuel t (ascii "memory_node: (%s)[%c] \x7baddr = %p, size = %p\x7d\n")
    [.str name, .int (48 + (i % 256 : Nat)), .ptr address, .ptr size] out
  let (freed, s) ← tryFree s address size
  return (({ handed := report.handed ++ [(address, size)]
             totalMemSeen := totalMemSeen
             totalMemFreed := wadd report.totalMemFreed freed }, s), out)

/-- `handBlocks` with its output. -/
def handBlocksOut (memNode : Nat) :
    (Report × σ) × Calls → Result ((Report × σ) × Calls) := fun ((report, s), out) => do
  let numRegisterBlocks ← fdtNodeNumRegisterBlocks fuel (view s) fdt memNode
  forLoop (handBlockOut view tryFree fuel t fdt memNode) 0 numRegisterBlocks ((report, s), out)

/-- `memInitStep` with its output. -/
def memInitStepOut : (Nat × Report × σ) × Calls →
    Result (((Nat × Report × σ) × Calls) ⊕ ((Report × σ) × Calls)) :=
  fun ((memNode, report, s), out) => do
    if memNode = NULL then return .inr ((report, s), out)
    let ((report, s), out) ← handBlocksOut view tryFree fuel t fdt memNode ((report, s), out)
    let memNode ← fdtFindNodeByDeviceType fuel (view s) fdt memNode memoryType
    return .inl ((memNode, report, s), out)

/-- `fdtBootMemInitWith` with its output. -/
def fdtBootMemInitOutWith (s : σ) (out : Calls) : Result ((Report × σ) × Calls) := do
  let memNode ← fdtFindNodeByDeviceType fuel (view s) fdt NULL memoryType
  let ((report, s), out) ← loop .outOfFuel (memInitStepOut view tryFree fuel t fdt) fuel
    ((memNode, ⟨[], 0, 0⟩, s), out)
  let out ← printk fuel t (ascii "[FDT] Freed Memory Regions:\n") [] out
  let out ← printk fuel t (ascii "[FDT] \tTotal Memory = (%p bytes)\n")
    [.ptr report.totalMemSeen] out
  let out ← printk fuel t (ascii "[FDT] \tFreed Memory = (%p bytes)\n")
    [.ptr report.totalMemFreed] out
  return ((report, s), out)

end

/-- `fdt_boot_mem_init` with its output. -/
def fdtBootMemInitOut {σ : Type} (view : σ → View) (free : σ → Nat → Nat → Result (KError × σ))
    (kernelEnd fuel : Nat) (t : PutcharArray) (fdt : Nat) (s : σ) (out : Calls) :
    Result ((Report × σ) × Calls) :=
  fdtBootMemInitOutWith view (tryBootFreeRegion view free kernelEnd fuel fdt fuel) fuel t fdt s out

/-! ## The text -/

/-- The character printed for the block with the index `i`. -/
def blockDigit (i : Nat) : UInt8 := toChar (48 + (i % 256 : Nat))

/-- The line for a block of a node. A `NUL` prints nothing. -/
def blockLine (n : Node) (block : Nat × Nat) (i : Nat) : List UInt8 :=
  ascii "memory_node: (" ++ (shownName n.name ++ (ascii ")[" ++ (delivered [blockDigit i] ++
    (ascii "] \x7baddr = 0x" ++ (hexDigits 16 block.1 ++ (ascii ", size = 0x" ++
      (hexDigits 16 block.2 ++ ascii "\x7d")))))))

/-- The lines for a node with the ancestors `anc`. -/
def nodeLines (n : Node) (anc : List Node) : List (List UInt8) :=
  (List.range (blockCount n anc)).map (blockLine n (firstBlock n anc))

/-- The line of a total. -/
def totalLine (what : List UInt8) (total : Nat) : List UInt8 :=
  ascii "[FDT] \t" ++ (what ++ (ascii " Memory = (0x" ++ (hexDigits 16 total ++ ascii " bytes)")))

def Blob.reportLines (b : Blob) (report : Report) : List (List UInt8) :=
  (b.memoryNodes.flatMap fun x => nodeLines x.1 x.2) ++
    [ascii "[FDT] Freed Memory Regions:", totalLine (ascii "Total") report.totalMemSeen,
      totalLine (ascii "Freed") report.totalMemFreed]

/-! ## Lines -/

variable {fuel : Nat} {t : PutcharArray} {n : Node} {block : Nat × Nat}

theorem expand_blockLine (name : List UInt8) (c : UInt8) (address size : Nat) :
    expand (parse (ascii "memory_node: (%s)[%c] \x7baddr = %p, size = %p\x7d\n"))
        [.string name, .char c, .pointer address, .pointer size] =
      ascii "memory_node: (" ++ (name ++ (ascii ")[" ++ ([c] ++ (ascii "] \x7baddr = 0x" ++
        (hexDigits 16 address ++ (ascii ", size = 0x" ++ (hexDigits 16 size ++
          ascii "\x7d\n"))))))) := by
  have hfmt : ascii "memory_node: (%s)[%c] \x7baddr = %p, size = %p\x7d\n" =
      ascii "memory_node: (" ++ (ascii "%s" ++ (ascii ")[" ++ (ascii "%c" ++
        (ascii "] \x7baddr = " ++ (ascii "%p" ++ (ascii ", size = " ++ (ascii "%p" ++
          (ascii "\x7d\n" ++ [])))))))) := by decide
  rw [hfmt, expand_literal (by decide), expand_string, expand_literal (by decide), expand_char,
    expand_literal (by decide), expand_pointer, expand_literal (by decide), expand_pointer,
    expand_literal (by decide), parse_nil, expand_nil]
  simp only [List.append_assoc, List.append_nil]
  rfl

/-- The line of a block is printed. -/
theorem printk_block {name : CStr} (hname : name.Is (shownName n.name)) (h1 : block.1 < 2 ^ 64)
    (h2 : block.2 < 2 ^ 64) (hlen : (shownName n.name).length + 96 < fuel) (i : Nat)
    (out : Calls) :
    printk fuel t (ascii "memory_node: (%s)[%c] \x7baddr = %p, size = %p\x7d\n")
        [.str name, .int (48 + (i % 256 : Nat)), .ptr block.1, .ptr block.2] out =
      .ok (out ++ sent t (blockLine n block i ++ [chr '\n'])) := by
  have hargs : List.Forall₂ Arg.Has
      [.str name, .int (48 + (i % 256 : Nat)), .ptr block.1, .ptr block.2]
      [.string (shownName n.name), .char (blockDigit i), .pointer block.1, .pointer block.2] :=
    .cons (.string hname) (.cons (.char _) (.cons (.pointer h1) (.cons (.pointer h2) .nil)))
  have hmatch : Matching (parse (ascii "memory_node: (%s)[%c] \x7baddr = %p, size = %p\x7d\n"))
      [.string (shownName n.name), .char (blockDigit i), .pointer block.1, .pointer block.2] :=
    (by decide : [Directive.string, .char, .pointer, .pointer] = _)
  have hfmt : (ascii "memory_node: (%s)[%c] \x7baddr = %p, size = %p\x7d\n").length < fuel :=
    (by decide : (ascii "memory_node: (%s)[%c] \x7baddr = %p, size = %p\x7d\n").length < 96).trans
      (by omega)
  have hnul : ∀ s, .string s ∈ [Value.string (shownName n.name), .char (blockDigit i),
      .pointer block.1, .pointer block.2] → s.length < fuel := by
    intro s hs
    simp only [List.mem_cons, Value.string.injEq, reduceCtorEq, List.not_mem_nil, or_false] at hs
    rw [hs]
    omega
  have hroom : (expand (parse (ascii "memory_node: (%s)[%c] \x7baddr = %p, size = %p\x7d\n"))
      [.string (shownName n.name), .char (blockDigit i), .pointer block.1,
        .pointer block.2]).length < fuel := by
    have hfixed : (ascii "memory_node: (").length + (ascii ")[").length + 1 +
        (ascii "] \x7baddr = 0x").length + 16 + (ascii ", size = 0x").length + 16 +
        (ascii "\x7d\n").length < 96 := by decide
    rw [expand_blockLine]
    simp only [List.length_append, (hexDigits_spec 16 _).1, List.length_singleton]
    omega
  have hzero := hname.holds.2
  have hdigits := zero_notMem_hexDigits 16
  rw [printk_eq (by decide) (by decide) hargs hmatch hfmt hnul hroom, expand_blockLine]
  simp only [delivered_append, delivered_of_notMem hzero, delivered_of_notMem (hdigits _)]
  have hconst : delivered (ascii "memory_node: (") = ascii "memory_node: (" ∧
      delivered (ascii ")[") = ascii ")[" ∧
      delivered (ascii "] \x7baddr = 0x") = ascii "] \x7baddr = 0x" ∧
      delivered (ascii ", size = 0x") = ascii ", size = 0x" ∧
      delivered (ascii "\x7d\n") = ascii "\x7d" ++ [chr '\n'] := by decide
  rw [hconst.1, hconst.2.1, hconst.2.2.1, hconst.2.2.2.1, hconst.2.2.2.2]
  simp only [blockLine, List.append_assoc]

/-- The line of a total is printed. -/
theorem printk_total {what : List UInt8} {total : Nat} (hplain : chr '%' ∉ what)
    (hzero : 0 ∉ what) (hlen : what.length ≤ 8) (htotal : total < 2 ^ 64) (hroom : 96 < fuel)
    (out : Calls) :
    printk fuel t ((ascii "[FDT] \t" ++ (what ++ ascii " Memory = (")) ++
        (ascii "%p" ++ ascii " bytes)\n")) [.ptr total] out =
      .ok (out ++ sent t (totalLine what total ++ [chr '\n'])) := by
  have hplain' : chr '%' ∉ ascii "[FDT] \t" ++ (what ++ ascii " Memory = (") := by
    simp only [List.mem_append, not_or]
    exact ⟨by decide, hplain, by decide⟩
  have hzero' : 0 ∉ ascii "[FDT] \t" ++ (what ++ ascii " Memory = (") := by
    simp only [List.mem_append, not_or]
    exact ⟨by decide, hzero, by decide⟩
  have hfuel : (ascii "[FDT] \t" ++ (what ++ ascii " Memory = (")).length +
      (ascii " bytes)\n").length + 18 < fuel := by
    have hfixed : (ascii "[FDT] \t").length + 8 + (ascii " Memory = (").length +
        (ascii " bytes)\n").length + 18 < 96 := by decide
    simp only [List.length_append]
    omega
  have hpre : ascii " Memory = (0x" = ascii " Memory = (" ++ ascii "0x" := by decide
  have hpost : ascii " bytes)\n" = ascii " bytes)" ++ [chr '\n'] := by decide
  rw [printk_pointer ⟨hplain', by decide⟩ ⟨hzero', by decide⟩ htotal hfuel, totalLine, hpre, hpost]
  simp only [List.append_assoc]

/-! ## The loops -/

section
variable {σ : Type} {view : σ → View} {tryFree : σ → Nat → Nat → Result (Nat × σ)}
  {P : Nat × Nat → Prop} {Inv : σ → Prop} {b : Blob} {anc : List Node}

/-- A line, as calls of the callbacks. -/
def sentLine (t : PutcharArray) (line : List UInt8) : Calls := sent t (line ++ [chr '\n'])

theorem sent_unlines (t : PutcharArray) (ls : List (List UInt8)) :
    sent t (unlines (chr '\n') ls) = ls.flatMap (sentLine t) := by
  induction ls with
  | nil => rfl
  | cons l ls ih =>
    rw [List.flatMap_cons, ← ih, sentLine, ← sent_append]
    rfl

/-- One pass of the inner loop. -/
theorem handBlockOut_eq (hk : Serves tryFree b view P Inv) (hfuel : b.totalsize + 128 < fuel)
    (hmem : (n, anc) ∈ b.paths) (hcount : 0 < blockCount n anc) (i : Nat) (x : Report × σ)
    (out : Calls) (hx : Inv x.2) :
    handBlockOut view tryFree fuel t b.fdt n.addr i (x, out) =
      (handBlock view tryFree fuel b.fdt n.addr i x).map
        fun x' => (x', out ++ sentLine t (blockLine n (firstBlock n anc) i)) := by
  obtain ⟨report, s⟩ := x
  have hin := hk.blobIn hx
  have hsize : b.totalsize < fuel := by omega
  have hn := b.mem_nodes_of_mem_paths hmem n List.mem_cons_self
  obtain ⟨name, hname, his⟩ := hin.nodeName_is hn
  have hlen : (shownName n.name).length + 96 < fuel := by
    have hless : (shownName n.name).length < fuel - 96 :=
      hin.length_shownName_lt (by omega) (by omega) hn
    omega
  obtain ⟨h1, h2⟩ := firstBlock_lt n anc
  have hline := printk_block (t := t) his h1 h2 hlen i out
  unfold handBlockOut handBlock
  simp only [hin.registerBlock_zero_eq (hk.total hx) hsize hmem hcount, ok_bind, hname, hline]
  cases tryFree s (firstBlock n anc).1 (firstBlock n anc).2 with
  | error e => rfl
  | ok y => rfl

/-- The inner loop. -/
theorem handBlocksOut_eq (hk : Serves tryFree b view P Inv) (hfuel : b.totalsize + 128 < fuel)
    (hmem : (n, anc) ∈ b.paths) (hP : ∀ r ∈ codeBlocks n anc, P r) {x : Report × σ}
    (hx : Inv x.2) (out : Calls) :
    handBlocksOut view tryFree fuel t b.fdt n.addr (x, out) =
      (handBlocks view tryFree fuel b.fdt n.addr x).map
        fun x' => (x', out ++ (nodeLines n anc).flatMap (sentLine t)) := by
  have hsize : b.totalsize < fuel := by omega
  unfold handBlocksOut handBlocks
  dsimp only
  rw [(hk.blobIn hx).numRegisterBlocks_eq hsize hmem, ok_bind, ok_bind]
  rcases Nat.eq_zero_or_pos (blockCount n anc) with hzero | hcount
  · simp [hzero, nodeLines, forLoop, Except.map]
  · have hfirst := hP (firstBlock n anc) (List.mem_replicate.2 ⟨hcount.ne', rfl⟩)
    have hkeep : ∀ i x x', Inv x.2 →
        handBlock view tryFree fuel b.fdt n.addr i x = .ok x' → Inv x'.2 := by
      intro i x x' hs hrun
      rw [handBlock_eq hk hsize hmem hcount i hs] at hrun
      exact hk.hand hfirst hs hrun
    rw [forLoop_writes (I := fun x : Report × σ => Inv x.2)
      (fun i x out hs => handBlockOut_eq hk hfuel hmem hcount i x out hs) hkeep hx,
      nodeLines, List.flatMap_map, List.range_eq_range']

/-- What a pass of the outer loop does beside its output. -/
def withOut (out : Calls) :
    (Nat × Report × σ) ⊕ (Report × σ) → ((Nat × Report × σ) × Calls) ⊕ ((Report × σ) × Calls)
  | .inl x => .inl (x, out)
  | .inr x => .inr (x, out)

/-- One pass of the outer loop. -/
theorem memInitStepOut_eq (hk : Serves tryFree b view P Inv) (hfuel : b.totalsize + 128 < fuel)
    (hmem : (n, anc) ∈ b.paths) (hP : ∀ r ∈ codeBlocks n anc, P r) {x : Report × σ}
    (hx : Inv x.2) (out : Calls) :
    memInitStepOut view tryFree fuel t b.fdt ((n.addr, x), out) =
      (memInitStep view tryFree fuel b.fdt (n.addr, x)).map
        (withOut (out ++ (nodeLines n anc).flatMap (sentLine t))) := by
  have hpos := (hk.blobIn hx).addr_ne (b.mem_nodes_of_mem_paths hmem n List.mem_cons_self)
  have hloop := handBlocksOut_eq (t := t) hk hfuel hmem hP hx out
  unfold memInitStepOut memInitStep
  dsimp only
  rw [if_neg hpos, if_neg hpos, hloop]
  cases handBlocks view tryFree fuel b.fdt n.addr x with
  | error e => rfl
  | ok y =>
    simp only [Except.map, ok_bind]
    cases fdtFindNodeByDeviceType fuel (view y.2) b.fdt n.addr memoryType with
    | error e => rfl
    | ok node => rfl

/-- From this state of the outer loop on the nodes `todo` are left. -/
structure MemNodesLeft (b : Blob) (Inv : σ → Prop) (t : PutcharArray) (x : Nat × Report × σ)
    (l : Calls) (done todo : List (Node × List Node)) : Prop where
  paths : b.paths = done ++ todo
  node : x.1 = nodesPtr ((todo.map Prod.fst).filter Node.isMemory)
  inv : Inv x.2.2
  text : l = ((todo.filter fun x => x.1.isMemory).flatMap fun x => nodeLines x.1 x.2).flatMap
    (sentLine t)

/-- The nodes up to the first memory node are passed over. -/
theorem MemNodesLeft.cases {x : Nat × Report × σ} {l : Calls}
    {done todo : List (Node × List Node)} (h : MemNodesLeft b Inv t x l done todo) :
    x.1 = NULL ∧ l = [] ∨
    ∃ done' m anc todo', b.paths = done' ++ (m, anc) :: todo' ∧ m.isMemory = true ∧
      x.1 = m.addr ∧
      l = (nodeLines m anc).flatMap (sentLine t) ++
        ((todo'.filter fun x => x.1.isMemory).flatMap fun x => nodeLines x.1 x.2).flatMap
          (sentLine t) := by
  obtain ⟨hpaths, hnode, -, htext⟩ := h
  induction todo generalizing done with
  | nil => exact .inl ⟨hnode, htext⟩
  | cons y todo ih =>
    obtain ⟨m, anc⟩ := y
    by_cases hm : m.isMemory = true
    · have hfilter : ((m, anc) :: todo).filter (fun x => x.1.isMemory) =
          (m, anc) :: todo.filter (fun x => x.1.isMemory) := List.filter_cons_of_pos hm
      refine .inr ⟨done, m, anc, todo, hpaths, hm, ?_, ?_⟩
      · rw [hnode, List.map_cons, List.filter_cons_of_pos hm]
        rfl
      · rw [htext, hfilter, List.flatMap_cons, List.flatMap_append]
    · have hfilter : ((m, anc) :: todo).filter (fun x => x.1.isMemory) =
          todo.filter (fun x => x.1.isMemory) := List.filter_cons_of_neg hm
      have hpaths' : b.paths = (done ++ [(m, anc)]) ++ todo := by simpa using hpaths
      refine ih hpaths' ?_ ?_
      · rw [hnode, List.map_cons, List.filter_cons_of_neg hm]
      · rw [htext, hfilter]

/-- The outer loop. -/
theorem memInitOut_loop_eq (hk : Serves tryFree b view P Inv) (hfuel : b.totalsize + 128 < fuel)
    (hP : ∀ r ∈ b.handedBlocks, P r) {s : σ} (hs : Inv s) (k : Nat) (out : Calls) :
    loop .outOfFuel (memInitStepOut view tryFree fuel t b.fdt) k
        ((nodesPtr (b.nodes.filter Node.isMemory), ⟨[], 0, 0⟩, s), out) =
      (loop .outOfFuel (memInitStep view tryFree fuel b.fdt) k
        (nodesPtr (b.nodes.filter Node.isMemory), ⟨[], 0, 0⟩, s)).map fun x =>
          (x, out ++ (b.memoryNodes.flatMap fun x => nodeLines x.1 x.2).flatMap (sentLine t)) := by
  have hsize : b.totalsize < fuel := by omega
  refine loop_writes (fun x l => ∃ done todo, MemNodesLeft b Inv t x l done todo) ?_ ?_ k out
  · rintro ⟨node, x⟩ out l ⟨done, todo, h⟩
    rcases h.cases with ⟨hnull, rfl⟩ | ⟨done', m, anc, todo', hpaths, hm, hnode, rfl⟩
    · obtain rfl : node = NULL := hnull
      have hleave : memInitStep view tryFree fuel b.fdt (NULL, x) = .ok (.inr x) := rfl
      have hleaveOut : memInitStepOut view tryFree fuel t b.fdt ((NULL, x), out) =
          .ok (.inr (x, out)) := rfl
      rw [hleave, hleaveOut, WritesPass, List.append_nil]
    · obtain rfl : node = m.addr := hnode
      have hmem : (m, anc) ∈ b.paths := by
        rw [hpaths]
        simp
      have hPm : ∀ r ∈ codeBlocks m anc, P r := fun r hr =>
        hP r (List.mem_flatMap.2 ⟨(m, anc), List.mem_filter.2 ⟨hmem, hm⟩, hr⟩)
      rw [memInitStepOut_eq hk hfuel hmem hPm h.inv]
      have hstep := memInitStep_eq (x := x) hk hsize hpaths hPm h.inv
      cases hrun : memInitStep view tryFree fuel b.fdt (m.addr, x) with
      | error e => rfl
      | ok y =>
        rw [hrun] at hstep
        obtain ⟨z, hall, hret⟩ := bind_eq_ok.1 hstep.symm
        cases hret
        exact ⟨_, _, rfl, ⟨done' ++ [(m, anc)], todo', by simpa using hpaths, rfl,
          hk.handAll hPm h.inv hall, rfl⟩, rfl⟩
  · refine ⟨[], b.paths, rfl, ?_, hs, rfl⟩
    rw [b.paths_map_fst]

/-- **`fdt_boot_mem_init` does the same with its output**, and prints the lines of the report. -/
theorem fdtBootMemInitOutWith_eq (hk : Serves tryFree b view P Inv)
    (hfuel : b.totalsize + 128 < fuel) (hP : ∀ r ∈ b.handedBlocks, P r) {s : σ} (hs : Inv s)
    (out : Calls) :
    fdtBootMemInitOutWith view tryFree fuel t b.fdt s out =
      (fdtBootMemInitWith view tryFree fuel b.fdt s).map fun x =>
        (x, out ++ sent t (unlines (chr '\n') (b.reportLines x.1))) := by
  have hin := hk.blobIn hs
  have hsize : b.totalsize < fuel := by omega
  have hbegin := hin.findNode_begin hsize memoryType_is (b.length_memoryType_lt hsize)
    (by rw [length_memoryType]; decide)
  have hrun := fdtBootMemInitWith_eq hk hsize hP hs
  unfold fdtBootMemInitWith at hrun ⊢
  unfold fdtBootMemInitOutWith
  have hfilter : (b.nodes.filter fun n => n.hasType (ascii "memory")) =
      b.nodes.filter Node.isMemory := rfl
  rw [hbegin, ok_bind, hfilter] at hrun ⊢
  rw [ok_bind, memInitOut_loop_eq hk hfuel hP hs]
  cases hloop : loop .outOfFuel (memInitStep view tryFree fuel b.fdt) fuel
      (nodesPtr (b.nodes.filter Node.isMemory), ⟨[], 0, 0⟩, s) with
  | error e => rfl
  | ok x =>
    obtain ⟨report, s'⟩ := x
    rw [hloop] at hrun
    have hwords : report.Words := handAll_words ⟨by norm_num, by norm_num⟩ hrun.symm
    have htotal : ascii "[FDT] \tTotal Memory = (%p bytes)\n" =
        (ascii "[FDT] \t" ++ (ascii "Total" ++ ascii " Memory = (")) ++
          (ascii "%p" ++ ascii " bytes)\n") := by decide
    have hfreed : ascii "[FDT] \tFreed Memory = (%p bytes)\n" =
        (ascii "[FDT] \t" ++ (ascii "Freed" ++ ascii " Memory = (")) ++
          (ascii "%p" ++ ascii " bytes)\n") := by decide
    have hroom : (ascii "[FDT] Freed Memory Regions:\n").length < fuel :=
      (by decide : (ascii "[FDT] Freed Memory Regions:\n").length < 128).trans (by omega)
    have hhead := fun out => printk_plain (t := t) (f := ascii "[FDT] Freed Memory Regions:\n")
      (by decide) (by decide) (by decide) (by decide) hroom out
    simp only [Except.map, ok_bind, hhead, htotal, hfreed]
    rw [printk_total (by decide) (by decide) (by decide) hwords.1 (by omega), ok_bind,
      printk_total (by decide) (by decide) (by decide) hwords.2 (by omega), ok_bind, pure_eq_ok]
    have hline : ascii "[FDT] Freed Memory Regions:\n" =
        ascii "[FDT] Freed Memory Regions:" ++ [chr '\n'] := by decide
    simp only [sent_unlines, Blob.reportLines, List.flatMap_append, List.flatMap_cons,
      List.flatMap_nil, List.append_nil, List.append_assoc, sentLine, hline]

end

/-! ## Reading the report -/

/-- The block of a line: the numbers stand at its end. -/
def shownBlock (line : List UInt8) : Nat × Nat :=
  (hexValue ((line.drop (line.length - 44)).take 16),
    hexValue ((line.drop (line.length - 17)).take 16))

/-- The blocks handed on, and the two totals. -/
def readReport (text : List UInt8) : List (Nat × Nat) × List Nat :=
  let ls := lines (chr '\n') text
  ((ls.take (ls.length - 3)).map shownBlock,
    (ls.drop (ls.length - 2)).map fun l => hexValue ((l.drop 25).take 16))

theorem shownBlock_blockLine {n : Node} (h1 : block.1 < 2 ^ 64) (h2 : block.2 < 2 ^ 64) (i : Nat) :
    shownBlock (blockLine n block i) = block := by
  have hsize : (hexDigits 16 block.2 ++ ascii "\x7d").length = 17 := by
    rw [List.length_append, (hexDigits_spec 16 block.2).1]
    decide
  have haddr : (hexDigits 16 block.1 ++ (ascii ", size = 0x" ++
      (hexDigits 16 block.2 ++ ascii "\x7d"))).length = 44 := by
    rw [List.length_append, List.length_append, hsize, (hexDigits_spec 16 block.1).1]
    decide
  have hfirst : ∃ pre, blockLine n block i = pre ++ (hexDigits 16 block.1 ++
      (ascii ", size = 0x" ++ (hexDigits 16 block.2 ++ ascii "\x7d"))) :=
    ⟨ascii "memory_node: (" ++ (shownName n.name ++ (ascii ")[" ++ (delivered [blockDigit i] ++
      ascii "] \x7baddr = 0x"))), by simp only [blockLine, List.append_assoc]⟩
  have hsecond : ∃ pre, blockLine n block i = pre ++ (hexDigits 16 block.2 ++ ascii "\x7d") := by
    obtain ⟨pre, hpre⟩ := hfirst
    exact ⟨pre ++ (hexDigits 16 block.1 ++ ascii ", size = 0x"), by
      rw [hpre]; simp only [List.append_assoc]⟩
  have hread1 : ((blockLine n block i).drop ((blockLine n block i).length - 44)).take 16 =
      hexDigits 16 block.1 := by
    obtain ⟨pre, hpre⟩ := hfirst
    rw [hpre, List.length_append, haddr, Nat.add_sub_cancel, List.drop_left,
      List.take_left' (hexDigits_spec 16 block.1).1]
  have hread2 : ((blockLine n block i).drop ((blockLine n block i).length - 17)).take 16 =
      hexDigits 16 block.2 := by
    obtain ⟨pre, hpre⟩ := hsecond
    rw [hpre, List.length_append, hsize, Nat.add_sub_cancel, List.drop_left,
      List.take_left' (hexDigits_spec 16 block.2).1]
  rw [shownBlock, hread1, hread2, (hexDigits_pointer h1).value, (hexDigits_pointer h2).value]

theorem readTotal_totalLine {what : List UInt8} {total : Nat} (hwhat : what.length = 5)
    (htotal : total < 2 ^ 64) : hexValue (((totalLine what total).drop 25).take 16) = total := by
  have hlen : (ascii "[FDT] \t" ++ (what ++ ascii " Memory = (0x")).length = 25 := by
    rw [List.length_append, List.length_append, hwhat]
    decide
  have hsplit : totalLine what total = (ascii "[FDT] \t" ++ (what ++ ascii " Memory = (0x")) ++
      (hexDigits 16 total ++ ascii " bytes)") := by
    simp only [totalLine, List.append_assoc]
  rw [hsplit, List.drop_left' hlen, List.take_left' (hexDigits_spec 16 total).1,
    (hexDigits_pointer htotal).value]

variable {b : Blob} {report : Report} {S : Finset Nat} {cb : Nat}

/-- The lines for the nodes have the blocks that are handed on. -/
theorem map_shownBlock_nodeLines :
    (b.memoryNodes.flatMap fun x => nodeLines x.1 x.2).map shownBlock = b.handedBlocks := by
  rw [Blob.handedBlocks, List.map_flatMap]
  refine List.flatMap_congr fun x hx => ?_
  rw [nodeLines, List.map_map, codeBlocks, eq_comm, replicate_eq_map_range]
  refine ⟨rfl, fun i hi => ?_⟩
  obtain ⟨h1, h2⟩ := firstBlock_lt x.1 x.2
  exact shownBlock_blockLine h1 h2 i

/-- The block with the index 218 is printed with a newline for its number. -/
theorem newline_notMem_blockDigit {i : Nat} (h : i < 218) :
    chr '\n' ∉ delivered [blockDigit i] := by
  have hval : (blockDigit i).toNat = (48 + i) % 256 := by
    simp only [blockDigit, toChar]
    have hmod : (48 + ((i % 256 : Nat) : Int)) % 256 = ((48 + i) % 256 : Nat) := by omega
    rw [hmod, Int.toNat_natCast, UInt8.toNat_ofNat']
    omega
  intro hmem
  have heq : chr '\n' = blockDigit i := List.mem_singleton.1 (List.mem_of_mem_filter hmem)
  have hten := congrArg UInt8.toNat heq
  rw [hval, show (chr '\n').toNat = 10 from rfl] at hten
  omega

/-- No line of the report has a newline in it, when no name has and no node has too many blocks. -/
theorem newline_notMem_reportLines (hplain : ∀ n ∈ b.nodes, chr '\n' ∉ n.name)
    (hfew : ∀ x ∈ b.memoryNodes, blockCount x.1 x.2 ≤ 218) :
    ∀ l ∈ b.reportLines report, chr '\n' ∉ l := by
  have hdigits : ∀ p, chr '\n' ∉ hexDigits 16 p :=
    fun p hc => absurd ((hexDigits_spec 16 p).2.1 _ hc) (by decide)
  intro l hl
  rcases List.mem_append.1 hl with hl | hl
  · obtain ⟨x, hx, hl⟩ := List.mem_flatMap.1 hl
    obtain ⟨i, hi, rfl⟩ := List.mem_map.1 hl
    have hpath : (x.1, x.2) ∈ b.paths := (List.mem_filter.1 hx).1
    have hn := b.mem_nodes_of_mem_paths hpath x.1 List.mem_cons_self
    have hname : chr '\n' ∉ shownName x.1.name := by
      unfold shownName
      split_ifs
      · decide
      · exact hplain x.1 hn
    have hdigit := newline_notMem_blockDigit ((List.mem_range.1 hi).trans_le (hfew x hx))
    simp only [blockLine, List.mem_append, not_or]
    exact ⟨by decide, hname, by decide, hdigit, by decide, hdigits _, by decide, hdigits _,
      by decide⟩
  · simp only [List.mem_cons, List.not_mem_nil, or_false] at hl
    rcases hl with rfl | rfl | rfl
    · decide
    · simp only [totalLine, List.mem_append, not_or]
      exact ⟨by decide, by decide, by decide, hdigits _, by decide⟩
    · simp only [totalLine, List.mem_append, not_or]
      exact ⟨by decide, by decide, by decide, hdigits _, by decide⟩

theorem readReport_reportLines (hwords : report.Words) (hplain : ∀ n ∈ b.nodes, chr '\n' ∉ n.name)
    (hfew : ∀ x ∈ b.memoryNodes, blockCount x.1 x.2 ≤ 218) :
    readReport (unlines (chr '\n') (b.reportLines report)) =
      (b.handedBlocks, [report.totalMemSeen, report.totalMemFreed]) := by
  have hlast : ∀ ls : List (List UInt8), ∀ x y z,
      (ls ++ [x, y, z]).take ((ls ++ [x, y, z]).length - 3) = ls ∧
        (ls ++ [x, y, z]).drop ((ls ++ [x, y, z]).length - 2) = [y, z] := by
    intro ls x y z
    have hlen : (ls ++ [x, y, z]).length = ls.length + 3 := by simp
    have hsplit : ls ++ [x, y, z] = (ls ++ [x]) ++ [y, z] := by simp
    rw [hlen, Nat.add_sub_cancel, List.take_left]
    exact ⟨rfl, by rw [hsplit, List.drop_left' (by simp)]⟩
  rw [readReport, lines_unlines (newline_notMem_reportLines hplain hfew)]
  rw [Blob.reportLines, (hlast _ _ _ _).1, (hlast _ _ _ _).2, map_shownBlock_nodeLines]
  have htotal := readTotal_totalLine (by decide : (ascii "Total").length = 5) hwords.1
  have hfreed := readTotal_totalLine (by decide : (ascii "Freed").length = 5) hwords.2
  simp only [List.map_cons, List.map_nil, htotal, hfreed]

/-! ## The kernel's own run -/

/-- `kernelMemInit` with its output. -/
def kernelMemInitOut (kernelEnd fuel : Nat) (t : PutcharArray) (fdt : Nat) (s : Machine)
    (out : Calls) : Result ((Report × Machine) × Calls) :=
  fdtBootMemInitOut (fun s : Machine => Mem.view s.mem) bootFree kernelEnd fuel t fdt s out

variable {s : Machine}

theorem kernelMemInitOut_eq (kernelEnd : Nat) (hin : b.In (Mem.view s.mem))
    (hnil : s.bootFreeList = NULL) (hwrap : b.HandedNoWrap) (hfuel : b.totalsize + 128 < fuel)
    (out : Calls) :
    kernelMemInitOut kernelEnd fuel t b.fdt s out =
      (kernelMemInit kernelEnd fuel b.fdt s).map fun x =>
        (x, out ++ sent t (unlines (chr '\n') (b.reportLines x.1))) := by
  have hstart : Keeping b s.mem s none := ⟨hnil, fun r hr => (by cases hr), fun x _ _ => rfl⟩
  have hk : KeepsBlob bootFree b kernelEnd (fun s : Machine => Mem.view s.mem)
      (fun s' => ∃ k, Keeping b s.mem s' k) := bootFree_keepsBlob hin
  have hserves := hk.serves (by omega : b.totalsize < fuel) hwrap.reserve
  exact fdtBootMemInitOutWith_eq hserves hfuel hwrap.handed ⟨none, hstart⟩ out

/-- **The report can be read back** from what any registered callback gets, and printing it
changes nothing else about the run. -/
theorem kernelMemInit_readReport (kernelEnd : Nat) (hin : b.In (Mem.view s.mem))
    (hnil : s.bootFreeList = NULL) (hwrap : b.HandedNoWrap) (hfuel : b.totalsize + 128 < fuel)
    (hplain : ∀ n ∈ b.nodes, chr '\n' ∉ n.name)
    (hfew : ∀ x ∈ b.memoryNodes, blockCount x.1 x.2 ≤ 218) (ht : Holds t S) (hcb : cb ∈ S) :
    (∀ e, kernelMemInit kernelEnd fuel b.fdt s = .error e →
      kernelMemInitOut kernelEnd fuel t b.fdt s [] = .error e) ∧
    ∀ report s', kernelMemInit kernelEnd fuel b.fdt s = .ok (report, s') →
      ∃ calls, kernelMemInitOut kernelEnd fuel t b.fdt s [] = .ok ((report, s'), calls) ∧
        readReport (receivedBy cb calls) =
          (report.handed, [report.totalMemSeen, report.totalMemFreed]) := by
  have hout := kernelMemInitOut_eq (t := t) kernelEnd hin hnil hwrap hfuel []
  constructor
  · intro e he
    rw [hout, he]
    rfl
  · intro report s' hrun
    obtain ⟨herr, hok⟩ := kernelMemInit_take kernelEnd hin hnil hwrap (by omega : _ < fuel)
    have hreport : ∃ freed, report = Report.after ⟨[], 0, 0⟩ b.handedBlocks freed := by
      cases htake : Kept.takeAll none (b.handedPieces kernelEnd) with
      | error e =>
        rw [herr e htake] at hrun
        cases hrun
      | ok k =>
        obtain ⟨freed, s₁, hrun', -⟩ := hok k htake
        rw [hrun'] at hrun
        exact ⟨freed, (Prod.mk.inj (Except.ok.inj hrun)).1.symm⟩
    obtain ⟨freed, rfl⟩ := hreport
    rw [hout, hrun]
    refine ⟨_, rfl, ?_⟩
    rw [List.nil_append, receivedBy_sent ht hcb,
      readReport_reportLines (Report.words_after _ _ _) hplain hfew]
    rfl

/-- The report of `board`, for one callback. -/
theorem kernelMemInit_readReport_board :
    ∃ report s' calls, kernelMemInitOut 0x80000000 1000 ⟨1 :: List.replicate 7 NULL, rfl⟩ 0x1000
        boardMachine [] = .ok ((report, s'), calls) ∧
      readReport (receivedBy 1 calls) =
        (report.handed, [report.totalMemSeen, report.totalMemFreed]) := by
  obtain ⟨-, hok⟩ := kernelMemInit_take 0x80000000 boardMachine_in rfl board_handedNoWrap board_fuel
  obtain ⟨freed, s', hrun, -⟩ := hok _ board_takeAll
  have hfuel : boardBlob.totalsize + 128 < 1000 := by decide +kernel
  have hplain : ∀ n ∈ boardBlob.nodes, chr '\n' ∉ n.name := by decide
  have hfew : ∀ x ∈ boardBlob.memoryNodes, blockCount x.1 x.2 ≤ 218 := by decide
  have h := kernelMemInit_readReport 0x80000000 boardMachine_in rfl board_handedNoWrap hfuel
    hplain hfew holds_singleton (Finset.mem_singleton_self 1)
  obtain ⟨calls, hcalls⟩ := h.2 _ s' hrun
  exact ⟨_, s', calls, hcalls⟩

end RiscyOs
