import RiscyOs.Fdt.Model
import RiscyOs.Lib.OrderedForest

/-!
# Well-formed blobs

A `Blob` is a version 17 flattened device tree with every part of it where it stands: the tokens
of the structure block with their addresses, and the tree of nodes they encode. `Blob.In` says
that a view holds the blob.

* `Token.At` is one token in memory, `Laid` a run of tokens that follow each other.
* `flatten` is the encoding of a tree; the structure block is this with `FDT_NOP`s anywhere.
* `Blob.events_tokens`: the nodes entered and left along the structure block are the tour of the tree.
-/

namespace RiscyOs

open ByteMemory

/-! ## Tokens -/

/-- A token of the structure block, with what follows its word. -/
inductive Token where
  | beginNode (name : List UInt8)
  | endNode
  | prop (nameOff : Nat) (value : List UInt8)
  | nop
  | fdtEnd
  deriving Repr, DecidableEq

namespace Token

def word : Token → Nat
  | beginNode _ => FDT_BEGIN_NODE
  | endNode => FDT_END_NODE
  | prop _ _ => FDT_PROP
  | nop => FDT_NOP
  | fdtEnd => FDT_END

/-- `len` rounded up to whole cells. -/
def padded (len : Nat) : Nat := (len + 3) / 4 * 4

/-- The bytes a token takes up, padding included. -/
def size : Token → Nat
  | beginNode name => 4 + padded (name.length + 1)
  | prop _ value => 12 + padded value.length
  | _ => 4

/-- What follows the word of the token at `a`. -/
def Body (v : View) (a : Nat) : Token → Prop
  | beginNode name => v.HoldsStr (a + 4) name
  | prop nameOff value =>
    be32 v (a + 4) = .ok value.length ∧ be32 v (a + 8) = .ok nameOff ∧ v.Holds (a + 12) value
  | _ => True

/-- The token stands at `a`; its padding is arbitrary. -/
def At (v : View) (a : Nat) (t : Token) : Prop := be32 v a = .ok t.word ∧ t.Body v a

theorem four_le_size (t : Token) : 4 ≤ t.size := by
  cases t <;> simp only [size] <;> omega

theorem length_le_padded (len : Nat) : len ≤ padded len := by
  unfold padded
  omega

/-- A token is its bytes. -/
theorem At.of_agrees {v v' : View} {a : Nat} {t : Token} (h : t.At v a)
    (hag : View.Agrees v v' a (a + t.size)) : t.At v' a := by
  obtain ⟨hword, hbody⟩ := h
  refine ⟨(be32_of_agrees (hag.mono le_rfl ?_)).trans hword, ?_⟩
  · have := t.four_le_size
    omega
  cases t with
  | beginNode name =>
    have := length_le_padded (name.length + 1)
    have hend : a + 4 + (name.length + 1) ≤ a + (Token.beginNode name).size := by
      simp only [size]
      omega
    exact View.HoldsStr.of_agrees hbody (hag.mono (Nat.le_add_right a 4) hend)
  | prop nameOff value =>
    obtain ⟨hlen, hoff, hvalue⟩ := hbody
    have := length_le_padded value.length
    refine ⟨(be32_of_agrees (hag.mono (Nat.le_add_right a 4) ?_)).trans hlen,
      (be32_of_agrees (hag.mono (Nat.le_add_right a 8) ?_)).trans hoff,
      hvalue.of_agrees (hag.mono (Nat.le_add_right a 12) ?_)⟩
    all_goals
      simp only [size]
      omega
  | endNode => trivial
  | nop => trivial
  | fdtEnd => trivial

end Token

/-- The tokens stand one after the other in `[p, q)`. -/
def Laid (v : View) : Nat → List (Nat × Token) → Nat → Prop
  | p, [], q => p = q
  | p, (a, t) :: rest, q => a = p ∧ t.At v a ∧ Laid v (p + t.size) rest q

theorem laid_append {v : View} {p q : Nat} {xs ys : List (Nat × Token)} :
    Laid v p (xs ++ ys) q ↔ ∃ mid, Laid v p xs mid ∧ Laid v mid ys q := by
  induction xs generalizing p with
  | nil => simp [Laid]
  | cons x xs ih =>
    simp only [List.cons_append, Laid, ih]
    constructor
    · rintro ⟨ha, ht, mid, hxs, hys⟩
      exact ⟨mid, ⟨ha, ht, hxs⟩, hys⟩
    · rintro ⟨mid, ⟨ha, ht, hxs⟩, hys⟩
      exact ⟨ha, ht, mid, hxs, hys⟩

theorem Laid.length_le {v : View} {p q : Nat} {xs : List (Nat × Token)} (h : Laid v p xs q) :
    p + 4 * xs.length ≤ q := by
  induction xs generalizing p with
  | nil =>
    obtain rfl : p = q := h
    simp
  | cons x xs ih =>
    have := ih h.2.2
    have := x.2.four_le_size
    rw [List.length_cons]
    omega

theorem Laid.le {v : View} {p q : Nat} {xs : List (Nat × Token)} (h : Laid v p xs q) : p ≤ q :=
  (Nat.le_add_right p _).trans h.length_le

theorem Laid.of_agrees {v v' : View} {p q : Nat} {xs : List (Nat × Token)} (h : Laid v p xs q)
    (hag : View.Agrees v v' p q) : Laid v' p xs q := by
  induction xs generalizing p with
  | nil => exact h
  | cons x xs ih =>
    obtain ⟨ha, ht, hrest⟩ := h
    have hle := hrest.le
    exact ⟨ha, ha ▸ (ha ▸ ht : x.2.At v p).of_agrees (hag.mono le_rfl hle),
      ih hrest (hag.mono (Nat.le_add_right p _) le_rfl)⟩

/-! ## Trees -/

/-- A property, and where it stands. -/
structure PropNode where
  addr : Nat
  nameOff : Nat
  name : List UInt8
  value : List UInt8
  deriving Repr, DecidableEq

/-- A node, where it starts and where it ends. -/
structure Node where
  addr : Nat
  name : List UInt8
  props : List PropNode
  endAddr : Nat
  deriving Repr, DecidableEq

def PropNode.token (p : PropNode) : Nat × Token := (p.addr, .prop p.nameOff p.value)

/-- The encoding of a tree: properties come before subnodes. -/
def flatten : Forest Node → List (Nat × Token)
  | .nil => []
  | .cons n ch sib =>
    (n.addr, .beginNode n.name) ::
      (n.props.map PropNode.token ++ (flatten ch ++ (n.endAddr, .endNode) :: flatten sib))

/-- Everything but the `FDT_NOP`s. -/
def significant (x : Nat × Token) : Bool := x.2 ≠ .nop

/-! ## Blobs -/

/-- A blob, and where its parts stand. -/
structure Blob where
  fdt : Nat
  totalsize : Nat
  offStruct : Nat
  sizeStruct : Nat
  offStrings : Nat
  sizeStrings : Nat
  offRsvmap : Nat
  /-- The structure block up to `FDT_END`. -/
  body : List (Nat × Token)
  /-- The address of `FDT_END`. -/
  endAddr : Nat
  tree : Forest Node
  /-- The reserve entries before the terminator. -/
  reserve : List (Nat × Nat)
  fdt_pos : 0 < fdt
  noWrap : fdt + totalsize < 2 ^ 64
  /-- The header has ten words. -/
  header_le : 40 ≤ totalsize
  struct_le : offStruct + sizeStruct ≤ totalsize
  strings_le : offStrings + sizeStrings ≤ totalsize
  /-- The map and its terminator come before the structure block. -/
  rsvmap_le : offRsvmap + 16 * (reserve.length + 1) ≤ offStruct
  body_eq : body.filter significant = flatten tree
  /-- An entry of two zeros would be the terminator. -/
  reserve_ne : ∀ e ∈ reserve, e ≠ (0, 0)

namespace Blob

/-- The start of the structure block. -/
def structStart (b : Blob) : Nat := b.fdt + b.offStruct

theorem sizeStruct_lt (b : Blob) {fuel : Nat} (h : b.totalsize < fuel) : b.sizeStruct < fuel := by
  have := b.struct_le
  omega

/-- The structure block. -/
def tokens (b : Blob) : List (Nat × Token) := b.body ++ [(b.endAddr, .fdtEnd)]

/-- The nodes, in preorder. -/
def nodes (b : Blob) : List Node := b.tree.labels

/-- The entries `es` stand at `a`, followed by the terminator. -/
def MapAt (v : View) : Nat → List (Nat × Nat) → Prop
  | a, [] => be64 v a = .ok 0 ∧ be64 v (a + 8) = .ok 0
  | a, e :: es => be64 v a = .ok e.1 ∧ be64 v (a + 8) = .ok e.2 ∧ MapAt v (a + 16) es

/-- The name of a property, in the strings block. -/
def NameIn (b : Blob) (v : View) (p : PropNode) : Prop :=
  p.nameOff + p.name.length < b.sizeStrings ∧
    v.HoldsStr (b.fdt + b.offStrings + p.nameOff) p.name

/-- The view holds the structure block. -/
structure StructIn (b : Blob) (v : View) : Prop where
  offDtStruct : Fdt.offDtStruct v b.fdt = .ok b.offStruct
  sizeDtStruct : Fdt.sizeDtStruct v b.fdt = .ok b.sizeStruct
  laid : Laid v b.structStart b.tokens (b.structStart + b.sizeStruct)

/-- The view holds the reservation map. -/
structure MapIn (b : Blob) (v : View) : Prop where
  totalsize : Fdt.totalsize v b.fdt = .ok b.totalsize
  offDtStruct : Fdt.offDtStruct v b.fdt = .ok b.offStruct
  offMemRsvmap : Fdt.offMemRsvmap v b.fdt = .ok b.offRsvmap
  rsvmap : MapAt v (b.fdt + b.offRsvmap) b.reserve

/-- The view holds the blob. -/
structure In (b : Blob) (v : View) : Prop extends StructIn b v, MapIn b v where
  offDtStrings : Fdt.offDtStrings v b.fdt = .ok b.offStrings
  sizeDtStrings : Fdt.sizeDtStrings v b.fdt = .ok b.sizeStrings
  names : ∀ n ∈ b.nodes, ∀ p ∈ n.props, b.NameIn v p

/-- A map is its bytes. -/
theorem MapAt.of_agrees {v v' : View} {a : Nat} {es : List (Nat × Nat)} (h : MapAt v a es)
    (hag : View.Agrees v v' a (a + 16 * (es.length + 1))) : MapAt v' a es := by
  induction es generalizing a with
  | nil =>
    exact ⟨(be64_of_agrees (hag.mono le_rfl (by omega))).trans h.1,
      (be64_of_agrees (hag.mono (by omega) (by simp))).trans h.2⟩
  | cons e es ih =>
    rw [List.length_cons] at hag
    exact ⟨(be64_of_agrees (hag.mono le_rfl (by omega))).trans h.1,
      (be64_of_agrees (hag.mono (by omega) (by omega))).trans h.2.1,
      ih h.2.2 (hag.mono (by omega) (by omega))⟩

/-- **A blob is its bytes**: a view that agrees on `[fdt, fdt + totalsize)` holds the same blob. -/
theorem In.of_agrees {b : Blob} {v v' : View} (h : b.In v)
    (hag : View.Agrees v v' b.fdt (b.fdt + b.totalsize)) : b.In v' := by
  have hheader := b.header_le
  have hstruct := b.struct_le
  have hstrings := b.strings_le
  have hmap := b.rsvmap_le
  have hword : ∀ off, off + 4 ≤ 40 → be32 v' (b.fdt + off) = be32 v (b.fdt + off) := fun off hoff =>
    be32_of_agrees (hag.mono (Nat.le_add_right _ _) (by omega))
  exact
    { offDtStruct := (hword 8 (by omega)).trans h.offDtStruct
      sizeDtStruct := (hword 36 (by omega)).trans h.sizeDtStruct
      laid := h.laid.of_agrees (hag.mono (Nat.le_add_right _ _) (by unfold structStart; omega))
      totalsize := (hword 4 (by omega)).trans h.totalsize
      offMemRsvmap := (hword 16 (by omega)).trans h.offMemRsvmap
      rsvmap := h.rsvmap.of_agrees (hag.mono (Nat.le_add_right _ _) (by omega))
      offDtStrings := (hword 12 (by omega)).trans h.offDtStrings
      sizeDtStrings := (hword 32 (by omega)).trans h.sizeDtStrings
      names := fun n hn p hp => by
        obtain ⟨hlt, hname⟩ := h.names n hn p hp
        exact ⟨hlt, hname.of_agrees (hag.mono (by omega) (by omega))⟩ }

end Blob

/-! ## Events -/

/-- What a token does to the nodes that are open. -/
def event : Nat × Token → Option (Event Nat)
  | (a, .beginNode _) => some (.enter a)
  | (_, .endNode) => some .leave
  | _ => none

/-- The nodes entered and left along a run of tokens. -/
def events (ts : List (Nat × Token)) : List (Event Nat) := ts.filterMap event

theorem events_append (xs ys : List (Nat × Token)) : events (xs ++ ys) = events xs ++ events ys :=
  List.filterMap_append

theorem events_cons (x : Nat × Token) (xs : List (Nat × Token)) :
    events (x :: xs) = (event x).toList ++ events xs := by
  cases h : event x <;> simp [events, h]

/-- `FDT_NOP`s are no events. -/
theorem events_filter (ts : List (Nat × Token)) : events (ts.filter significant) = events ts := by
  induction ts with
  | nil => rfl
  | cons x ts ih =>
    rcases x with ⟨a, t⟩
    cases t <;> simp [significant, events_cons, event, ih]

theorem events_props (ps : List PropNode) : events (ps.map PropNode.token) = [] := by
  induction ps with
  | nil => rfl
  | cons p ps ih => simp [PropNode.token, events_cons, event, ih]

theorem events_flatten (F : Forest Node) : events (flatten F) = (F.map Node.addr).tour := by
  induction F with
  | nil => rfl
  | cons n ch sib ihc ihs =>
    simp [flatten, events_cons, events_append, events_props, event, ihc, ihs, Forest.map,
      Forest.tour]

/-- The structure block tours the tree. -/
theorem Blob.events_tokens (b : Blob) : events b.tokens = (b.tree.map Node.addr).tour := by
  rw [tokens, events_append, ← events_filter b.body, b.body_eq, events_flatten]
  exact List.append_nil _

end RiscyOs
