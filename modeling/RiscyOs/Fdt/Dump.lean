import Mathlib.Data.List.TakeWhile
import RiscyOs.Fdt.UnitName
import RiscyOs.Lib.Outline
import RiscyOs.Stdio.Printk

/-!
# `fdt_dump`: `arch/riscv/kernel.c`

The kernel prints one line for each node, in the order of the walk, indented by the depth. The
loop stops at a node of negative depth, which only an unbalanced structure block has.

* `Stream.dump_eq`: what is printed for any sequence of tokens.
* `fdtDump_eq`: for a blob this is the outline of its tree.
* `fdtDump_readTree`: a callback can read the tree of names back from what it gets.
-/

namespace RiscyOs

open ByteMemory FuelLoop Outline

/-- One pass of the loop of `fdt_dump`, over the node, its depth and the calls so far. -/
def fdtDumpStep (fuel : Nat) (t : PutcharArray) (v : View) (fdt : Nat) :
    Nat × Int × Calls → Result ((Nat × Int × Calls) ⊕ Calls) := fun (node, depth, out) => do
  if node = NULL ∨ depth < 0 then return .inr out
  let out ← forLoop (fun _ out => printk fuel t (ascii "\t") [] out) 0 depth.toNat out
  let name ← fdtNodeName v node
  let out ← printk fuel t (ascii "%s\n") [.str name] out
  let (node, depth') ← fdtNextNode fuel v fdt node (some depth)
  return .inl (node, depth'.getD depth, out)

def fdtDump (fuel : Nat) (t : PutcharArray) (v : View) (fdt : Nat) (out : Calls) :
    Result Calls := do
  let node ← fdtNodeBegin fuel v fdt
  let out ← printk fuel t (ascii "FDT = (%p) \x7b\n") [.ptr fdt] out
  let out ← loop .outOfFuel (fdtDumpStep fuel t v fdt) fuel (node, 0, out)
  printk fuel t (ascii "\x7d\n") [] out

variable {v : View} {t : PutcharArray} {S : Finset Nat} {fuel cb a : Nat} {name : List UInt8}

/-! ## Lines -/

/-- The nodes entered along a run of tokens, by their names, with a running depth. -/
def namedVisits (d : Int) : List (Nat × Token) → List (List UInt8 × Int)
  | [] => []
  | (_, .beginNode name) :: rest => (name, d) :: namedVisits (d + 1) rest
  | (_, .endNode) :: rest => namedVisits (d - 1) rest
  | _ :: rest => namedVisits d rest

/-- The line of a node. -/
def nodeLine (p : List UInt8 × Int) : List UInt8 := indent (chr '\t') (shownName p.1) p.2.toNat

/-- The nodes entered along a run of tokens. The first node is at depth `0`, whatever nodes are left
before it. -/
def firstVisits : List (Nat × Token) → List (List UInt8 × Int)
  | [] => []
  | (_, .beginNode name) :: rest => (name, 0) :: namedVisits 1 rest
  | _ :: rest => firstVisits rest

/-- The dump, from its lines. -/
def fdtDumpText (fdt : Nat) (ls : List (List UInt8)) : List UInt8 :=
  unlines (chr '\n') ((ascii "FDT = (0x" ++ hexDigits 16 fdt ++ ascii ") \x7b") ::
    (ls ++ [ascii "\x7d"]))

/-- The lines of the dump: up to a node of negative depth. -/
def dumpLines (vs : List (List UInt8 × Int)) : List (List UInt8) :=
  (vs.takeWhile fun p => 0 ≤ p.2).map nodeLine

/-- The tabs are printed one by one. -/
theorem printTabs_eq (hfuel : 1 < fuel) (i n : Nat) (out : Calls) :
    forLoop (fun _ out => printk fuel t (ascii "\t") [] out) i n out =
      .ok (out ++ sent t (List.replicate n (chr '\t'))) := by
  induction n generalizing i out with
  | zero => rw [List.replicate_zero, sent_nil, List.append_nil]; rfl
  | succ n ih =>
    have htab := printk_plain (t := t) (f := ascii "\t") (by decide) (by decide) (by decide)
      (by decide) hfuel out
    rw [forLoop, htab]
    dsimp only
    rw [ih, List.append_assoc, ← sent_append]
    rfl

theorem printName_eq {s : CStr} (hs : s.Is name) (hfuel : name.length + 1 < fuel)
    (hroom : 3 < fuel) (out : Calls) :
    printk fuel t (ascii "%s\n") [.str s] out = .ok (out ++ sent t (name ++ [chr '\n'])) := by
  have htext : expand (parse (ascii "%s\n")) [.string name] = name ++ [chr '\n'] := rfl
  have hnul : ∀ s', .string s' ∈ [Value.string name] → s'.length < fuel := by
    intro s' hs'
    rw [Value.string.inj (List.mem_singleton.1 hs')]
    omega
  have hlen : (expand (parse (ascii "%s\n")) [.string name]).length < fuel := by
    rwa [htext, List.length_append]
  have hzero : 0 ∉ name ++ [chr '\n'] := by
    rw [List.mem_append, not_or]
    exact ⟨hs.holds.2, by decide⟩
  rw [printk_eq (by decide) (by decide) (.cons (.string hs) .nil)
    (by decide : [Directive.string] = _) hroom hnul hlen, htext, delivered_of_notMem hzero]

/-- The next node of the walk, by its address and by its name. -/
theorem namedVisits_cases (d : Int) (ts : List (Nat × Token)) :
    Forest.depths d (events ts) = [] ∧ namedVisits d ts = [] ∨
    ∃ mid a name d' rest, ts = mid ++ (a, .beginNode name) :: rest ∧
      Forest.depths d (events ts) = (a, d') :: Forest.depths (d' + 1) (events rest) ∧
      namedVisits d ts = (name, d') :: namedVisits (d' + 1) rest := by
  induction ts generalizing d with
  | nil => exact .inl ⟨rfl, rfl⟩
  | cons x ts ih =>
    obtain ⟨c, tok⟩ := x
    cases tok with
    | beginNode name => exact .inr ⟨[], c, name, d, ts, rfl, rfl, rfl⟩
    | endNode =>
      exact (ih (d - 1)).imp id fun ⟨mid, a, name, d', rest, hts, h⟩ =>
        ⟨(c, .endNode) :: mid, a, name, d', rest, congrArg _ hts, h⟩
    | prop nameOff value =>
      exact (ih d).imp id fun ⟨mid, a, name, d', rest, hts, h⟩ =>
        ⟨(c, .prop nameOff value) :: mid, a, name, d', rest, congrArg _ hts, h⟩
    | nop =>
      exact (ih d).imp id fun ⟨mid, a, name, d', rest, hts, h⟩ =>
        ⟨(c, .nop) :: mid, a, name, d', rest, congrArg _ hts, h⟩
    | fdtEnd =>
      exact (ih d).imp id fun ⟨mid, a, name, d', rest, hts, h⟩ =>
        ⟨(c, .fdtEnd) :: mid, a, name, d', rest, congrArg _ hts, h⟩

/-- The first node, by its address and by its name. -/
theorem firstVisits_cases (ts : List (Nat × Token)) :
    Forest.entered (events ts) = [] ∧ firstVisits ts = [] ∨
    ∃ mid a name rest, ts = mid ++ (a, .beginNode name) :: rest ∧
      Forest.entered (events ts) = a :: Forest.entered (events rest) ∧
      firstVisits ts = (name, 0) :: namedVisits (0 + 1) rest := by
  induction ts with
  | nil => exact .inl ⟨rfl, rfl⟩
  | cons x ts ih =>
    obtain ⟨c, tok⟩ := x
    cases tok with
    | beginNode name => exact .inr ⟨[], c, name, ts, rfl, rfl, rfl⟩
    | endNode =>
      exact ih.imp id fun ⟨mid, a, name, rest, hts, h⟩ =>
        ⟨(c, .endNode) :: mid, a, name, rest, congrArg _ hts, h⟩
    | prop nameOff value =>
      exact ih.imp id fun ⟨mid, a, name, rest, hts, h⟩ =>
        ⟨(c, .prop nameOff value) :: mid, a, name, rest, congrArg _ hts, h⟩
    | nop =>
      exact ih.imp id fun ⟨mid, a, name, rest, hts, h⟩ =>
        ⟨(c, .nop) :: mid, a, name, rest, congrArg _ hts, h⟩
    | fdtEnd =>
      exact ih.imp id fun ⟨mid, a, name, rest, hts, h⟩ =>
        ⟨(c, .fdtEnd) :: mid, a, name, rest, congrArg _ hts, h⟩

/-- The first line of the dump. -/
theorem printHead_eq {fdt : Nat} (hfdt : fdt < 2 ^ 64) (hroom : 64 < fuel) (out : Calls) :
    printk fuel t (ascii "FDT = (%p) \x7b\n") [.ptr fdt] out =
      .ok (out ++ sent t (ascii "FDT = (0x" ++ hexDigits 16 fdt ++ ascii ") \x7b\n")) := by
  have hfmt : ascii "FDT = (%p) \x7b\n" = ascii "FDT = (" ++ (ascii "%p" ++ ascii ") \x7b\n") := by
    decide
  have hlen : (ascii "FDT = (").length + (ascii ") \x7b\n").length + 18 < fuel :=
    (by decide : (ascii "FDT = (").length + (ascii ") \x7b\n").length + 18 < 64).trans hroom
  have hhead : ascii "FDT = (0x" = ascii "FDT = (" ++ ascii "0x" := by decide
  rw [hfmt, printk_pointer ⟨by decide, by decide⟩ ⟨by decide, by decide⟩ hfdt hlen, hhead]
  simp only [List.append_assoc]

theorem fdtDump_leave {fdt node k : Nat} {d : Int} (h : node = NULL ∨ d < 0) (out : Calls) :
    loop .outOfFuel (fdtDumpStep fuel t v fdt) (k + 1) (node, d, out) = .ok out :=
  loop_leave (if_pos h)

namespace Stream

variable {fdt start stop : Nat} {tok : Token} {ts pre rest : List (Nat × Token)}

/-- A name takes up less than the structure block. -/
theorem length_name_lt (h : Stream v fdt start stop ts) (hfuel : stop < start + fuel)
    (htok : ts = pre ++ (a, .beginNode name) :: rest) : name.length + 1 < fuel := by
  obtain ⟨hlo, -, q, hq, hlaid⟩ := h.token_at htok
  have hle := hlaid.le
  have hpad := Token.length_le_padded (name.length + 1)
  simp only [Token.size] at hle
  omega

/-- One node of the dump. -/
theorem dumpStep_eq (h : Stream v fdt start stop ts) (hfuel : stop < start + fuel)
    (hroom : 32 < fuel) (htok : ts = pre ++ (a, .beginNode name) :: rest) {d : Int} (hd : 0 ≤ d)
    (out : Calls) :
    fdtDumpStep fuel t v fdt (a, d, out) =
      .ok (.inl ((firstVisit d (Forest.depths (d + 1) (events rest))).1,
        (firstVisit d (Forest.depths (d + 1) (events rest))).2,
        out ++ sent t (nodeLine (name, d) ++ [chr '\n']))) := by
  have hstep := h.nextNode_eq hfuel htok d
  have hpos := h.token_pos htok
  obtain ⟨s, hs, his⟩ := fdtNodeName_is (h.token_at htok).2.1.2 (by simp only [NULL]; omega)
  have hlen : (shownName name).length + 1 < fuel := by
    unfold shownName
    split_ifs
    · exact (by decide : (ascii "\x7bDEBUG: Nameless Node\x7d").length + 1 < 32).trans hroom
    · exact h.length_name_lt hfuel htok
  have hname := printName_eq (t := t) his hlen (by omega)
    (out ++ sent t (List.replicate d.toNat (chr '\t')))
  have hgo : ¬ (a = NULL ∨ d < 0) := not_or.2 ⟨hpos.ne', not_lt.2 hd⟩
  simp only [fdtDumpStep, if_neg hgo, printTabs_eq (by omega : 1 < fuel), ok_bind, hs, hname, hstep,
    Option.getD_some, pure_eq_ok, nodeLine, indent, sent_append, List.append_assoc]

theorem dump_loop_eq (h : Stream v fdt start stop ts) (hfuel : stop < start + fuel)
    (hroom : 32 < fuel) {n : Nat} {d : Int} (htok : ts = pre ++ (a, .beginNode name) :: rest)
    (hd : 0 ≤ d) (hn : (Forest.depths (d + 1) (events rest)).length + 1 < n) (out : Calls) :
    loop .outOfFuel (fdtDumpStep fuel t v fdt) n (a, d, out) =
      .ok (out ++ sent t (unlines (chr '\n')
        (dumpLines ((name, d) :: namedVisits (d + 1) rest)))) := by
  induction n generalizing pre a name rest d out with
  | zero => omega
  | succ n ih =>
    have hstep := h.dumpStep_eq (t := t) hfuel hroom htok hd out
    have hlines : dumpLines ((name, d) :: namedVisits (d + 1) rest) =
        nodeLine (name, d) :: dumpLines (namedVisits (d + 1) rest) := by
      rw [dumpLines, List.takeWhile_cons_of_pos (by simpa using hd)]
      rfl
    have htext : unlines (chr '\n') (nodeLine (name, d) :: dumpLines (namedVisits (d + 1) rest)) =
        (nodeLine (name, d) ++ [chr '\n']) ++
          unlines (chr '\n') (dumpLines (namedVisits (d + 1) rest)) := rfl
    obtain ⟨k, rfl⟩ : ∃ k, n = k + 1 := ⟨n - 1, by omega⟩
    rw [hlines, htext, sent_append, ← List.append_assoc, loop_again _ hstep]
    rcases namedVisits_cases (d + 1) rest with
      ⟨hnone, hnames⟩ | ⟨mid, a', name', d', rest', rfl, hdepths, hnames⟩
    · rw [hnone, hnames]
      exact (fdtDump_leave (.inl rfl) _).trans (congrArg Except.ok (List.append_nil _).symm)
    · have htok' : ts = (pre ++ (a, .beginNode name) :: mid) ++
          (a', .beginNode name') :: rest' := by simpa using htok
      rw [hdepths, List.length_cons] at hn
      rw [hdepths, hnames]
      by_cases hneg : 0 ≤ d'
      · exact ih htok' hneg (by omega) _
      · -- the loop stops at a node of negative depth
        have hstop : dumpLines ((name', d') :: namedVisits (d' + 1) rest') = [] := by
          rw [dumpLines, List.takeWhile_cons_of_neg (by simpa using hneg)]
          rfl
        rw [hstop]
        exact (fdtDump_leave (.inr (not_le.1 hneg)) _).trans
          (congrArg Except.ok (List.append_nil _).symm)

/-- **What `fdt_dump` prints for any sequence of tokens**: a line for each node entered, up to one
of negative depth. The first node is at depth `0`, whatever nodes are left before it. -/
theorem dump_eq (h : Stream v fdt start stop ts) (hfuel : stop < start + fuel) (hroom : 64 < fuel)
    (hne : ts ≠ []) (hfdt : fdt < 2 ^ 64) (out : Calls) :
    fdtDump fuel t v fdt out =
      .ok (out ++ sent t (fdtDumpText fdt (dumpLines (firstVisits ts)))) := by
  have hfoot := fun out => printk_plain (t := t) (f := ascii "\x7d\n") (by decide) (by decide)
    (by decide) (by decide)
    ((by decide : (ascii "\x7d\n").length < 64).trans hroom) out
  have hloop : ∀ out, loop .outOfFuel (fdtDumpStep fuel t v fdt) fuel
      ((Forest.entered (events ts)).headD NULL, 0, out) =
      .ok (out ++ sent t (unlines (chr '\n') (dumpLines (firstVisits ts)))) := by
    intro out
    rcases firstVisits_cases ts with ⟨hnone, hnames⟩ | ⟨mid, a, name, rest, htok, hsome, hnames⟩
    · obtain ⟨k, rfl⟩ : ∃ k, fuel = k + 1 := ⟨fuel - 1, by omega⟩
      rw [hnone, hnames]
      exact (fdtDump_leave (.inl rfl) _).trans (congrArg Except.ok (List.append_nil _).symm)
    · rw [hsome, hnames]
      exact h.dump_loop_eq hfuel (by omega) htok le_rfl (h.length_depths_lt hfuel htok (0 + 1)) out
  have htext : fdtDumpText fdt (dumpLines (firstVisits ts)) =
      ascii "FDT = (0x" ++ hexDigits 16 fdt ++ ascii ") \x7b\n" ++
        unlines (chr '\n') (dumpLines (firstVisits ts)) ++ ascii "\x7d\n" := by
    rw [fdtDumpText, ← List.singleton_append, unlines_append, unlines_append, ← List.append_assoc]
    have hline : ascii ") \x7b\n" = ascii ") \x7b" ++ [chr '\n'] := by decide
    rw [hline, ← List.append_assoc]
    simp only [unlines, List.flatMap_cons, List.flatMap_nil, List.append_nil]
    rfl
  rw [fdtDump, h.nodeBegin_eq hfuel hne, ok_bind, printHead_eq hfdt hroom, ok_bind, hloop, ok_bind,
    hfoot, htext]
  simp only [sent_append, List.append_assoc]

end Stream

/-! ## Blobs -/

theorem firstVisits_eq_named {ts : List (Nat × Token)} (h : ∀ es, events ts ≠ .leave :: es) :
    firstVisits ts = namedVisits 0 ts := by
  induction ts with
  | nil => rfl
  | cons x ts ih =>
    obtain ⟨a, tok⟩ := x
    cases tok with
    | beginNode name => rfl
    | endNode => exact absurd rfl (h (events ts))
    | prop nameOff value => exact ih h
    | nop => exact ih h
    | fdtEnd => exact ih h

theorem namedVisits_filter (d : Int) (ts : List (Nat × Token)) :
    namedVisits d (ts.filter significant) = namedVisits d ts := by
  induction ts generalizing d with
  | nil => rfl
  | cons x ts ih =>
    obtain ⟨a, tok⟩ := x
    cases tok <;> simp [significant, namedVisits, ih]

theorem namedVisits_props (d : Int) (ps : List PropNode) (rest : List (Nat × Token)) :
    namedVisits d (ps.map PropNode.token ++ rest) = namedVisits d rest := by
  induction ps with
  | nil => rfl
  | cons p ps ih => exact ih

/-- The encoding of a tree visits its nodes. -/
theorem namedVisits_flatten (F : Forest Node) (d : Nat) (rest : List (Nat × Token)) :
    namedVisits d (flatten F ++ rest) =
      (F.visits d).map (fun p => (p.1.name, (p.2 : Int))) ++ namedVisits d rest := by
  induction F generalizing d rest with
  | nil => rfl
  | cons n ch sib ihc ihs =>
    have hback : ((d + 1 : Nat) : Int) - 1 = d := by omega
    have hch := ihc (d + 1) ((n.endAddr, .endNode) :: (flatten sib ++ rest))
    rw [namedVisits, hback, ihs] at hch
    simp only [flatten, Forest.visits, List.cons_append, List.append_assoc, namedVisits,
      namedVisits_props, List.map_cons, List.map_append]
    exact congrArg _ hch

/-- The tree of the names that the dump shows. -/
def Blob.shownTree (b : Blob) : Forest (List UInt8) := b.tree.map fun n => shownName n.name

theorem Blob.dumpLines_tokens (b : Blob) :
    dumpLines (firstVisits b.tokens) = outline (chr '\t') b.shownTree := by
  have hfirst : ∀ es, events b.tokens ≠ .leave :: es := by
    intro es hes
    rw [b.events_tokens] at hes
    cases htree : b.tree with
    | nil =>
      rw [htree] at hes
      cases hes
    | cons root ch sib =>
      rw [htree] at hes
      cases hes
  have hnamed : namedVisits 0 b.tokens =
      (b.tree.visits 0).map fun p => (p.1.name, (p.2 : Int)) := by
    have hend : [(b.endAddr, Token.fdtEnd)].filter significant = [(b.endAddr, .fdtEnd)] := rfl
    rw [tokens, ← namedVisits_filter, List.filter_append, b.body_eq, hend]
    exact (namedVisits_flatten b.tree 0 _).trans (List.append_nil _)
  have hall : ∀ p ∈ namedVisits 0 b.tokens, decide (0 ≤ p.2) = true := by
    rw [hnamed]
    intro p hp
    obtain ⟨q, -, rfl⟩ := List.mem_map.1 hp
    exact decide_eq_true (Int.natCast_nonneg q.2)
  rw [firstVisits_eq_named hfirst, dumpLines, List.takeWhile_eq_self_iff.2 hall, hnamed, outline,
    shownTree, Forest.visits_map, List.map_map, List.map_map]
  rfl

/-- **`fdt_dump` prints the outline of the tree.** -/
theorem fdtDump_eq {b : Blob} (h : b.StructIn v) (hfuel : b.sizeStruct < fuel) (hroom : 64 < fuel)
    (out : Calls) :
    fdtDump fuel t v b.fdt out =
      .ok (out ++ sent t (fdtDumpText b.fdt (outline (chr '\t') b.shownTree))) := by
  have hfdt : b.fdt < 2 ^ 64 := (Nat.le_add_right _ _).trans_lt b.noWrap
  rw [h.stream.dump_eq (h.fuel_lt hfuel) hroom b.tokens_ne_nil hfdt, b.dumpLines_tokens]

/-! ## Reading the dump -/

/-- The tree of the lines between the first and the last one. -/
def readTree (text : List UInt8) : Forest (List UInt8) :=
  readOutline (chr '\t') (lines (chr '\n') text).tail.dropLast

/-- A name that takes up one line of the dump, and is not mistaken for a part of the indentation. -/
def PlainName (name : List UInt8) : Prop := name.head? ≠ some (chr '\t') ∧ chr '\n' ∉ name

theorem plainName_shownName (h : PlainName name) : PlainName (shownName name) := by
  unfold shownName
  split_ifs
  · exact ⟨by decide, by decide⟩
  · exact h

/-- **The tree can be read back** from what any registered callback gets, for any depth and any
number of nodes. -/
theorem fdtDump_readTree {b : Blob} (h : b.StructIn v) (hfuel : b.sizeStruct < fuel)
    (hroom : 64 < fuel) (hplain : ∀ n ∈ b.nodes, PlainName n.name) (ht : Holds t S)
    (hcb : cb ∈ S) :
    ∃ calls, fdtDump fuel t v b.fdt [] = .ok calls ∧
      readTree (receivedBy cb calls) = b.shownTree := by
  have hlabels : ∀ label ∈ b.shownTree.labels, PlainName label := by
    intro label hlabel
    rw [Blob.shownTree, Forest.labels_map] at hlabel
    obtain ⟨n, hn, rfl⟩ := List.mem_map.1 hlabel
    exact plainName_shownName (hplain n hn)
  have hlines : ∀ l ∈ (ascii "FDT = (0x" ++ hexDigits 16 b.fdt ++ ascii ") \x7b") ::
      (outline (chr '\t') b.shownTree ++ [ascii "\x7d"]), chr '\n' ∉ l := by
    intro l hl
    rw [List.mem_cons, List.mem_append, List.mem_singleton] at hl
    rcases hl with rfl | hl | rfl
    · simp only [List.mem_append, not_or]
      exact ⟨⟨by decide, fun hc => absurd ((hexDigits_spec 16 b.fdt).2.1 _ hc) (by decide)⟩,
        by decide⟩
    · exact notMem_outline (by decide) (fun label hlabel => (hlabels label hlabel).2) l hl
    · decide
  refine ⟨_, fdtDump_eq h hfuel hroom [], ?_⟩
  rw [List.nil_append, receivedBy_sent ht hcb, readTree, fdtDumpText, lines_unlines hlines,
    List.tail_cons, List.dropLast_concat]
  exact readOutline_outline fun label hlabel => (hlabels label hlabel).1

instance (name : List UInt8) : Decidable (PlainName name) := inferInstanceAs (Decidable (_ ∧ _))

/-- The dump of `board`, for one callback. -/
theorem fdtDump_readTree_board :
    ∃ calls, fdtDump 1000 ⟨1 :: List.replicate 7 NULL, rfl⟩ boardView 0x1000 [] = .ok calls ∧
      readTree (receivedBy 1 calls) = boardBlob.shownTree := by
  have hplain : ∀ n ∈ boardBlob.nodes, PlainName n.name := by decide
  have hfuel := boardBlob.sizeStruct_lt board_fuel
  have h := fdtDump_readTree board_in.toStructIn hfuel (by decide) hplain holds_singleton
    (Finset.mem_singleton_self 1)
  exact h

end RiscyOs
