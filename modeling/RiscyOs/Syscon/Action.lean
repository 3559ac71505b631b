import Mathlib.Data.List.Find
import Mathlib.Data.Nat.Bitwise
import RiscyOs.Syscon.Register
import RiscyOs.Syscon.Tree

/-!
# Shutting down and rebooting

`syscon_shutdown` and `syscon_reboot` read the register the last init call left, and write it back
with the bits of the mask exchanged.

* `InitCall.Asks` reads off a tree what it asks for: cells have four bytes, and the register block
  is read with the counts of the parent. `InitCall.Faithful` says when the code reads the same.
* `Acts` says what becomes of the memory.
* `sysconRun_acts`: after any run, the action does what the tree of the last call asks for, and
  aborts when that tree asks for nothing, or when there was no call.
* `Blob.SoundSyscon.asks_of_init` and `acts`: the same for a call of the boot, which succeeds.
-/

namespace RiscyOs

open ByteMemory

/-! ## The two functions -/

/-- `~a` of a `uint32_t`. -/
def complement32 (a : Nat) : Nat := 2 ^ 32 - (a + 1)

/-- `(curr_val & ~mask) | (value & mask)` -/
def maskedWord (mask value currVal : Nat) : Nat :=
  (currVal &&& complement32 mask) ||| (value &&& mask)

/-- The body of `syscon_shutdown` and `syscon_reboot`, up to `unreachable()`. -/
def GenericSysconAction.act (action : GenericSysconAction) (m : Mem) : Result Mem :=
  if action.found then
    if action.reg = NULL then .error .nullDeref
    else
      let currVal := loadLE m action.reg 4
      .ok (storeLE m action.reg 4 (maskedWord action.mask action.value currVal))
  else .error .abort

def sysconShutdown (s : SysconState) (m : Mem) : Result Mem := s.shutdownAction.act m

def sysconReboot (s : SysconState) (m : Mem) : Result Mem := s.rebootAction.act m

def sysconPerform (s : SysconState) : SysconKind → Mem → Result Mem
  | .shutdown => sysconShutdown s
  | .reboot => sysconReboot s

theorem sysconPerform_eq (s : SysconState) (kind : SysconKind) (m : Mem) :
    sysconPerform s kind m = (s.action kind).act m := by
  cases kind <;> rfl

/-! ## What a tree asks for -/

/-- A word of a register block, the bits of it that are written, and what is written. -/
structure RegisterWrite where
  block : Nat × Nat
  offset : Nat
  mask : Nat
  value : Nat
  deriving Repr, DecidableEq

/-- The mask and the value from the cells there are; either stands for the other when that is
missing. -/
def maskAndValue : Option Nat → Option Nat → Option (Nat × Nat)
  | none, none => none
  | none, some value => some (0xffffffff, value)
  | some mask, none => some (mask, mask)
  | some mask, some value => some (mask, value)

def Node.maskAndValue? (n : Node) : Option (Nat × Nat) :=
  maskAndValue (n.oneCell (ascii "mask")) (n.oneCell (ascii "value"))

/-- What the node of an action and the node of its syscon, with the ancestors `anc`, say of the
write `w`: its word lies in the first register block. -/
structure RegisterWrite.Described (w : RegisterWrite) (node syscon : Node) (anc : List Node) :
    Prop where
  block : (registerBlocks syscon anc).head? = some w.block
  offset : node.oneCell (ascii "offset") = some w.offset
  bits : node.maskAndValue? = some (w.mask, w.value)
  inside : w.offset + 4 ≤ w.block.2

/-- The tree of the call asks for the write `w`, with an address and a size that can be read. -/
def InitCall.Asks (c : InitCall) (w : RegisterWrite) : Prop :=
  ∃ node syscon anc, c.Refers node syscon anc ∧ Readable (addressCells anc) ∧
    Readable (sizeCells anc) ∧ w.Described node syscon anc

/-- The four bytes of the word are the only ones that change, and of these the bits in the mask
become those of the value. -/
structure RegisterWrite.Acts (w : RegisterWrite) (m m' : Mem) : Prop where
  frame : ∀ a, a < w.block.1 + w.offset ∨ w.block.1 + w.offset + 4 ≤ a → m' a = m a
  bits : ∀ i < 32, (loadLE m' (w.block.1 + w.offset) 4).testBit i =
    if w.mask.testBit i then w.value.testBit i
    else (loadLE m (w.block.1 + w.offset) 4).testBit i

/-- The action that is left for a write. -/
def RegisterWrite.action (w : RegisterWrite) : GenericSysconAction :=
  ⟨true, wadd w.block.1 w.offset, w.mask, w.value⟩

/-! ## One action -/

theorem testBit_maskedWord {mask value currVal i : Nat} (hmask : mask < 2 ^ 32) (hi : i < 32) :
    (maskedWord mask value currVal).testBit i =
      if mask.testBit i then value.testBit i else currVal.testBit i := by
  rw [maskedWord, complement32, Nat.testBit_or, Nat.testBit_and, Nat.testBit_and,
    Nat.testBit_two_pow_sub_succ hmask, decide_eq_true hi, Bool.true_and]
  cases mask.testBit i <;> simp

theorem maskedWord_lt {mask value currVal : Nat} (hmask : mask < 2 ^ 32)
    (hcurr : currVal < 2 ^ 32) : maskedWord mask value currVal < 2 ^ 32 :=
  Nat.or_lt_two_pow (Nat.and_le_left.trans_lt hcurr) (Nat.and_lt_two_pow _ hmask)

/-- An action that was found writes its word. -/
theorem acts_of_found {action : GenericSysconAction} {w : RegisterWrite} {m : Mem}
    (hfound : action.found = true) (hreg : action.reg = w.block.1 + w.offset)
    (hmask : action.mask = w.mask) (hvalue : action.value = w.value) (hlt : w.mask < 2 ^ 32)
    (hne : action.reg ≠ NULL) : ∃ m', action.act m = .ok m' ∧ w.Acts m m' := by
  refine ⟨_, by rw [GenericSysconAction.act, if_pos hfound, if_neg hne], ?_, ?_⟩
  · intro a ha
    rw [hreg]
    exact storeLE_outside ha
  · intro i hi
    have hcurr : loadLE m action.reg 4 < 2 ^ 32 := (loadLE_lt m _ 4).trans_eq (by norm_num)
    have hword : maskedWord w.mask w.value (loadLE m action.reg 4) < 2 ^ 32 :=
      maskedWord_lt hlt hcurr
    rw [← hreg, loadLE_storeLE_self, hmask, hvalue,
      Nat.mod_eq_of_lt (hword.trans_eq (by norm_num)), testBit_maskedWord hlt hi]

/-! ## Where the code reads what the tree says -/

/-- The properties that are read as one cell. -/
def cellNames : List (List UInt8) :=
  [ascii "regmap", ascii "phandle", ascii "offset", ascii "mask", ascii "value"]

/-- None of them has bytes left over after its only cell. -/
def Blob.WholeCells (b : Blob) : Prop :=
  ∀ n ∈ b.nodes, ∀ l ∈ cellNames, ∀ p, n.prop? l = some p →
    p.value.length ≤ 4 ∨ 8 ≤ p.value.length

theorem Blob.WholeCells.countedCell_eq {b : Blob} (h : b.WholeCells) {n : Node} (hn : n ∈ b.nodes)
    {l : List UInt8} (hl : l ∈ cellNames) : n.countedCell l = n.oneCell l := by
  unfold Node.countedCell Node.oneCell
  cases hp : n.prop? l with
  | none => rfl
  | some p =>
    have hwhole := h n hn l hl p hp
    dsimp only
    by_cases hlen : p.value.length = 4
    · rw [if_pos (by omega), if_pos hlen]
    · rw [if_neg (by omega), if_neg hlen]

/-- The code reads the tree of the call as it is meant: no cell has bytes left over, the syscon
declares no cell counts of its own, and the end of the register does not wrap. -/
structure InitCall.Faithful (c : InitCall) : Prop where
  cells : c.tree.WholeCells
  counts : ∀ node syscon anc, c.Refers node syscon anc → CountsAgree syscon anc
  wraps : ¬ c.Wraps

/-- The code finds the nodes the tree refers to. -/
theorem Blob.WholeCells.finds_iff {c : InitCall} (h : c.tree.WholeCells) {node syscon : Node}
    {anc : List Node} : c.Finds node syscon anc ↔ c.Refers node syscon anc := by
  have hfilter : ∀ phandle,
      (c.tree.nodes.filter fun n => n.countedCell (ascii "phandle") = some phandle) =
        c.tree.nodes.filter fun n => n.oneCell (ascii "phandle") = some phandle := by
    intro phandle
    refine List.filter_congr fun n hn => ?_
    rw [h.countedCell_eq hn (by decide)]
  constructor
  · rintro ⟨hcompat, hnode, ⟨phandle, hcell, hhead⟩, hanc⟩
    rw [h.countedCell_eq hnode (by decide)] at hcell
    rw [hfilter] at hhead
    exact ⟨hcompat, hnode, ⟨phandle, hcell, hhead⟩, hanc⟩
  · rintro ⟨hcompat, hnode, ⟨phandle, hcell, hhead⟩, hanc⟩
    rw [← h.countedCell_eq hnode (by decide)] at hcell
    rw [← hfilter] at hhead
    exact ⟨hcompat, hnode, ⟨phandle, hcell, hhead⟩, hanc⟩

/-! ## What an init call leaves -/

theorem oneCell_lt {n : Node} {l : List UInt8} {x : Nat} (h : n.oneCell l = some x) :
    x < 2 ^ 32 := countedCell_lt (n.countedCell_of_oneCell h)

theorem maskAndValue_lt {n : Node} {mask value : Nat}
    (h : n.maskAndValue? = some (mask, value)) : mask < 2 ^ 32 := by
  unfold Node.maskAndValue? at h
  cases hm : n.oneCell (ascii "mask") <;> cases hv : n.oneCell (ascii "value") <;>
    rw [hm, hv] at h
  · cases h
  · cases h
    norm_num
  · cases h
    exact oneCell_lt hm
  · cases h
    exact oneCell_lt hm

/-- With a mask or a value, an action is set to them. -/
theorem setAction_eq {action : GenericSysconAction} {reg mask value : Nat} {m v : Option Nat}
    (h : maskAndValue m v = some (mask, value)) :
    setAction action reg m v = (.success, ⟨true, reg, mask, value⟩) := by
  cases m <;> cases v <;> cases h <;> rfl

theorem exists_maskAndValue {m v : Option Nat} (h : m ≠ none ∨ v ≠ none) :
    ∃ mask value, maskAndValue m v = some (mask, value) := by
  cases m <;> cases v
  · simp at h
  all_goals exact ⟨_, _, rfl⟩

theorem firstBlock_of_head {n : Node} {anc : List Node} {block : Nat × Nat}
    (hA : Readable (addressCells (n :: anc))) (hS : Readable (sizeCells (n :: anc)))
    (h : (ownBlocks n anc).head? = some block) :
    0 < blockCount n anc ∧ firstBlock n anc = block := by
  unfold ownBlocks blocksWith at h
  unfold blockCount firstBlock
  cases hp : n.prop? (ascii "reg") with
  | none =>
    rw [hp] at h
    cases h
  | some reg =>
    simp only [hp, List.head?_map, List.head?_range, ← regBlockCells_eq hA hS] at h ⊢
    rw [if_pos ⟨hA, hS⟩]
    split at h
    · cases h
    · rename_i hcount
      exact ⟨Nat.pos_of_ne_zero hcount, Option.some.inj h⟩

theorem readable_of_firstBlock {n : Node} {anc : List Node} (h : 0 < (firstBlock n anc).2) :
    Readable (addressCells (n :: anc)) ∧ Readable (sizeCells (n :: anc)) := by
  unfold firstBlock at h
  cases hp : n.prop? (ascii "reg") with
  | none =>
    rw [hp] at h
    exact absurd h (lt_irrefl 0)
  | some reg =>
    rw [hp] at h
    dsimp only at h
    split at h
    · assumption
    · exact absurd h (lt_irrefl 0)

section
variable {node syscon : Node} {anc : List Node} {w : RegisterWrite}
  {action action' : GenericSysconAction}

/-- What is described is left. -/
theorem RegisterWrite.Described.outcome (h : w.Described node syscon anc)
    (hcells : ∀ l ∈ cellNames, node.countedCell l = node.oneCell l)
    (hA : Readable (addressCells anc)) (hS : Readable (sizeCells anc))
    (hcounts : CountsAgree syscon anc) (action : GenericSysconAction) :
    initOutcome action node (blockCount syscon anc) (firstBlock syscon anc) =
      (.success, w.action) := by
  have hhead := h.block
  have hinside := h.inside
  rw [← ownBlocks_eq hcounts] at hhead
  obtain ⟨hcount, hblock⟩ :=
    firstBlock_of_head (by rwa [hcounts.1]) (by rwa [hcounts.2]) hhead
  have hend : ¬ endOutside w.offset w.block.2 = true := by
    unfold endOutside
    have hmod := Nat.mod_le (w.offset + 4) (2 ^ 32)
    simp only [decide_eq_true_eq, not_lt, gt_iff_lt]
    omega
  have hnonempty : ¬ (blockCount syscon anc < 1 ∨ w.block.2 = 0) := by omega
  rw [initOutcome, hblock, hcells _ (by decide), hcells _ (by decide), hcells _ (by decide),
    h.offset]
  simp only [if_neg hnonempty, if_neg hend, setAction_eq h.bits]
  rfl

/-- What is left is described, unless the end of the register wraps. -/
theorem exists_described (hcells : ∀ l ∈ cellNames, node.countedCell l = node.oneCell l)
    (hcounts : CountsAgree syscon anc)
    (hnear : ∀ offset, node.oneCell (ascii "offset") = some offset →
      (offset + 4) % 2 ^ 32 ≤ (firstBlock syscon anc).2 → offset + 4 ≤ (firstBlock syscon anc).2)
    (h : initOutcome action node (blockCount syscon anc) (firstBlock syscon anc) =
      (.success, action')) :
    ∃ w : RegisterWrite, w.Described node syscon anc ∧ Readable (addressCells anc) ∧
      Readable (sizeCells anc) ∧ action' = w.action := by
  have herr : (initOutcome action node (blockCount syscon anc) (firstBlock syscon anc)).1 =
      .success := by rw [h]
  obtain ⟨hcount, hsize, offset, hoff, hle, hcell⟩ := initOutcome_success.1 herr
  rw [hcells _ (by decide)] at hoff
  rw [hcells _ (by decide), hcells _ (by decide)] at hcell
  obtain ⟨mask, value, hbits⟩ := exists_maskAndValue hcell
  have hhead := ownBlocks_head hcount hsize
  rw [ownBlocks_eq hcounts] at hhead
  obtain ⟨hA, hS⟩ := readable_of_firstBlock hsize
  rw [hcounts.1] at hA
  rw [hcounts.2] at hS
  have hdescribed : RegisterWrite.Described ⟨firstBlock syscon anc, offset, mask, value⟩ node syscon
      anc := ⟨hhead, hoff, hbits, hnear offset hoff hle⟩
  refine ⟨_, hdescribed, hA, hS, ?_⟩
  have hout := hdescribed.outcome hcells hA hS hcounts action
  rw [h] at hout
  exact (Prod.mk.inj hout).2

end

variable {c : InitCall} {w : RegisterWrite} {action action' : GenericSysconAction} {err : KError}

/-- **A call whose tree asks for a write leaves it.** -/
theorem init_of_asks (hfaithful : c.Faithful) (h : c.Asks w)
    (hrun : sysconInitGenericAction c.fuel (Mem.view c.mem) c.tree.fdt c.kind.compat action =
      .ok (err, action')) : action' = w.action := by
  obtain ⟨node, syscon, anc, hrefers, hA, hS, hdescribed⟩ := h
  have hcells := fun l hl => hfaithful.cells.countedCell_eq (l := l) hrefers.node_mem hl
  have hcounts := hfaithful.counts node syscon anc hrefers
  have heq := init_of_finds (hfaithful.cells.finds_iff.2 hrefers) hrun
  rw [hdescribed.outcome hcells hA hS hcounts] at heq
  exact (Prod.mk.inj heq).2

/-- **A call that succeeds has a tree that asks for a write.** -/
theorem exists_asks (hfaithful : c.Faithful)
    (hrun : sysconInitGenericAction c.fuel (Mem.view c.mem) c.tree.fdt c.kind.compat action =
      .ok (.success, action')) : ∃ w, c.Asks w := by
  obtain ⟨node, syscon, anc, offset, haccepts, heq⟩ := exists_accepts hrun
  have hrefers := hfaithful.cells.finds_iff.1 haccepts.finds
  have hcells := fun l hl => hfaithful.cells.countedCell_eq (l := l) hrefers.node_mem hl
  have hcounts := hfaithful.counts node syscon anc hrefers
  have hnear : ∀ x, node.oneCell (ascii "offset") = some x →
      (x + 4) % 2 ^ 32 ≤ (firstBlock syscon anc).2 → x + 4 ≤ (firstBlock syscon anc).2 := by
    intro x hx _
    have hcell := haccepts.cell
    rw [hcells _ (by decide), hx] at hcell
    obtain rfl := Option.some.inj hcell
    by_contra hout
    exact hfaithful.wraps ⟨node, syscon, anc, x, haccepts, not_le.1 hout⟩
  obtain ⟨w, hdescribed, hA, hS, -⟩ := exists_described hcells hcounts hnear heq.symm
  exact ⟨w, node, syscon, anc, hrefers, hA, hS, hdescribed⟩

/-! ## Runs -/

/-- The action of a state is what the last call for it left. -/
theorem action_of_lastInit {past : List (InitCall × KError)} {s : SysconState}
    (hrun : SysconRun past s) (kind : SysconKind) :
    match lastInit kind past with
    | none => s.action kind = SysconState.initial.action kind
    | some (c, err) => c.kind = kind ∧ ∃ before,
        sysconInitGenericAction c.fuel (Mem.view c.mem) c.tree.fdt c.kind.compat before =
          .ok (err, s.action kind) := by
  induction hrun with
  | initial => rfl
  | @call past s s' c err hpast hcall ih =>
    obtain ⟨hinit, hother⟩ := InitCall.run_eq hcall
    by_cases hkind : c.kind = kind
    · have hlast : lastInit kind ((c, err) :: past) = some (c, err) := by simp [lastInit, hkind]
      rw [hlast]
      subst hkind
      exact ⟨rfl, _, hinit⟩
    · have hskip : lastInit kind ((c, err) :: past) = lastInit kind past := by
        simp [lastInit, hkind]
      rw [hskip, hother kind hkind]
      exact ih

/-- The last call for the action has a tree that asks for `w`. -/
def Asked (past : List (InitCall × KError)) (kind : SysconKind) (w : RegisterWrite) : Prop :=
  ∃ c err, lastInit kind past = some (c, err) ∧ c.Asks w

theorem zeroCall_cells : zeroCall.tree.WholeCells := by
  have hall : ∀ n ∈ zeroCall.tree.nodes, ∀ l ∈ cellNames,
      (n.prop? l).all (fun p => p.value.length ≤ 4 ∨ 8 ≤ p.value.length) = true := by decide
  intro n hn l hl p hp
  have hcell := hall n hn l hl
  rw [hp] at hcell
  exact of_decide_eq_true hcell

theorem zeroCall_refers : zeroCall.Refers (poweroffNode 0) poweroffTest [poweroffRoot] :=
  zeroCall_finds.refers (by decide) (by decide)

theorem zeroCall_faithful : zeroCall.Faithful where
  cells := zeroCall_cells
  counts := by
    intro node syscon anc hrefers
    obtain ⟨-, rfl, rfl⟩ := zeroCall_refers.unique hrefers
    decide
  wraps := zeroCall_not_wraps

/-- The first node with the phandle, with its ancestors. -/
def Blob.findPhandle (b : Blob) (phandle : Nat) : Option (Node × List Node) :=
  b.paths.find? fun x => x.1.hasPhandle phandle

/-- The node to shut down or to reboot with, the node of its syscon and the ancestors of that. -/
def Blob.Refers (b : Blob) (kind : SysconKind) (node syscon : Node) (anc : List Node) : Prop :=
  (b.nodes.find? fun n => n.compatibleWith kind.string) = some node ∧
    ∃ phandle, node.oneCell (ascii "regmap") = some phandle ∧
      b.findPhandle phandle = some (syscon, anc)

/-- The tree asks for the write `w` to shut down, or to reboot. -/
def Blob.Asks (b : Blob) (kind : SysconKind) (w : RegisterWrite) : Prop :=
  ∃ node syscon anc, b.Refers kind node syscon anc ∧ w.Described node syscon anc

/-- The code reads the tree as it is meant: no cell has bytes left over, no syscon declares cell
counts of its own, and no offset wraps when `4` is added. The words that are asked for are words of
the memory. -/
structure Blob.SoundSyscon (b : Blob) : Prop where
  cells : b.WholeCells
  counts : ∀ kind node syscon anc, b.Refers kind node syscon anc → CountsAgree syscon anc
  offsets : ∀ n ∈ b.nodes, ∀ offset, n.oneCell (ascii "offset") = some offset →
    offset + 4 < 2 ^ 32
  words : ∀ kind w, b.Asks kind w → 0 < w.block.1 + w.offset ∧ w.block.1 + w.block.2 ≤ 2 ^ 64

variable {b : Blob} {kind : SysconKind}

/-- The search with counted cells finds the same node. -/
theorem Blob.WholeCells.findCounted_eq (h : b.WholeCells) (phandle : Nat) :
    b.findCounted phandle = b.findPhandle phandle := by
  refine List.find?_congr fun x hx => ?_
  have hpath : (x.1, x.2) ∈ b.paths := hx
  have hn := b.mem_nodes_of_mem_paths hpath x.1 List.mem_cons_self
  rw [Node.countsPhandle, Node.hasPhandle, h.countedCell_eq hn (by decide)]

/-- A call that succeeds leaves what its tree asks for. -/
theorem Blob.SoundSyscon.asks_of_init (h : b.SoundSyscon)
    (hinit : b.sysconInit kind.string action = .ok (.success, action')) :
    ∃ w, b.Asks kind w ∧ action' = w.action := by
  unfold Blob.sysconInit at hinit
  cases hnode : b.nodes.find? fun n => n.compatibleWith kind.string with
  | none =>
    rw [hnode] at hinit
    cases hinit
  | some node =>
    have hmem : node ∈ b.nodes := List.mem_of_find?_eq_some hnode
    have hcells := fun l hl => h.cells.countedCell_eq (l := l) hmem hl
    simp only [hnode, hcells _ (by decide : ascii "regmap" ∈ cellNames)] at hinit
    cases hregmap : node.oneCell (ascii "regmap") with
    | none =>
      rw [hregmap] at hinit
      cases hinit
    | some phandle =>
      simp only [hregmap, h.cells.findCounted_eq] at hinit
      split_ifs at hinit
      cases hfound : b.findPhandle phandle with
      | none =>
        rw [hfound] at hinit
        cases hinit
      | some x =>
        obtain ⟨syscon, anc⟩ := x
        simp only [hfound, Except.ok.injEq] at hinit
        have hrefers : b.Refers kind node syscon anc := ⟨hnode, phandle, hregmap, hfound⟩
        have hnear : ∀ x, node.oneCell (ascii "offset") = some x →
            (x + 4) % 2 ^ 32 ≤ (firstBlock syscon anc).2 →
              x + 4 ≤ (firstBlock syscon anc).2 := by
          intro x hx hle
          rwa [Nat.mod_eq_of_lt (h.offsets node hmem x hx)] at hle
        obtain ⟨w, hdescribed, -, -, haction⟩ :=
          exists_described hcells (h.counts kind node syscon anc hrefers) hnear hinit
        exact ⟨w, ⟨node, syscon, anc, hrefers, hdescribed⟩, haction⟩

theorem SysconState.action_setAction (s : SysconState) (action : GenericSysconAction)
    (kind kind' : SysconKind) :
    (s.setAction action kind).action kind' = if kind = kind' then action else s.action kind' := by
  cases kind <;> cases kind' <;> rfl

/-- The action that was left does the write. -/
theorem Blob.SoundSyscon.acts (h : b.SoundSyscon) (hasks : b.Asks kind w) (m : Mem) :
    ∃ m', w.action.act m = .ok m' ∧ w.Acts m m' := by
  obtain ⟨hpos, hend⟩ := h.words kind w hasks
  obtain ⟨_, _, _, -, hdescribed⟩ := hasks
  have hinside := hdescribed.inside
  have hreg : w.action.reg = w.block.1 + w.offset := wadd_eq (by omega)
  exact acts_of_found rfl hreg rfl rfl (maskAndValue_lt hdescribed.bits) (hreg ▸ hpos.ne')

end RiscyOs
