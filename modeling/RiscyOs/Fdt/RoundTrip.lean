import Mathlib.Data.List.Dedup
import RiscyOs.Fdt.Read

/-!
# From device trees to blobs and back

`DeviceTree.source` lays a device tree out as a blob: no padding tokens, and a strings block with
each property name once.

* `flatten_place`: the tokens get the addresses of a tree.
* `DeviceTree.fits`: what is laid out is well formed.
* `readDeviceTree_encode`: reading the bytes gives the device tree back.
-/

namespace RiscyOs

open ByteMemory

/-! ## The strings block -/

/-- The names, each with its terminator. -/
def stringsBlock (names : List (List UInt8)) : List UInt8 := names.flatMap fun name => name ++ [0]

/-- Where the name starts. -/
def nameOff (names : List (List UInt8)) (name : List UInt8) : Nat :=
  (stringsBlock (names.takeWhile (· ≠ name))).length

variable {names : List (List UInt8)} {name : List UInt8}

theorem stringsBlock_cons (name : List UInt8) (names : List (List UInt8)) :
    stringsBlock (name :: names) = name ++ [0] ++ stringsBlock names := List.flatMap_cons

/-- The name stands where it starts. -/
theorem prefix_drop_nameOff (h : name ∈ names) :
    (name ++ [0]) <+: (stringsBlock names).drop (nameOff names name) := by
  induction names with
  | nil => cases h
  | cons first names ih =>
    by_cases heq : first = name
    · subst heq
      have hzero : nameOff (first :: names) first = 0 := by simp [nameOff, stringsBlock]
      rw [hzero, List.drop_zero, stringsBlock_cons]
      exact List.prefix_append _ _
    · have hmem : name ∈ names := (List.mem_cons.1 h).resolve_left (Ne.symm heq)
      have hoff : nameOff (first :: names) name =
          (first ++ [0]).length + nameOff names name := by
        simp [nameOff, heq, stringsBlock_cons]
        omega
      rw [hoff, stringsBlock_cons, List.drop_length_add_append]
      exact ih hmem

theorem nameOff_lt (h : name ∈ names) : nameOff names name < (stringsBlock names).length := by
  have hlen := (prefix_drop_nameOff h).length_le
  rw [List.length_append, List.length_drop, List.length_singleton] at hlen
  omega

/-! ## Tokens -/

def propToken (names : List (List UInt8)) (p : List UInt8 × List UInt8) : Token :=
  .prop (nameOff names p.1) p.2

/-- The start of a node, and its properties. -/
def Label.tokens (names : List (List UInt8)) (l : Label) : List Token :=
  .beginNode l.name :: l.props.map (propToken names)

def treeTokens (names : List (List UInt8)) : Forest Label → List Token
  | .nil => []
  | .cons l ch sib =>
    l.tokens names ++ (treeTokens names ch ++ .endNode :: treeTokens names sib)

/-- The address after tokens from `p` on. -/
def endOf (p : Nat) (ts : List Token) : Nat := p + (ts.flatMap Token.encode).length

/-- The label as `fdt_node_name` shows it. -/
def Label.shown (l : Label) : Label := { l with name := shownName l.name }

/-! ## Addresses -/

/-- The properties from `p` on. -/
def placeProps (names : List (List UInt8)) (p : Nat) :
    List (List UInt8 × List UInt8) → List PropNode
  | [] => []
  | (name, value) :: rest =>
    ⟨p, nameOff names name, name, value⟩ ::
      placeProps names (p + (propToken names (name, value)).size) rest

/-- The tree from `p` on. -/
def place (names : List (List UInt8)) (p : Nat) : Forest Label → Forest Node
  | .nil => .nil
  | .cons l ch sib =>
    let body := endOf p (l.tokens names)
    let stop := endOf body (treeTokens names ch)
    .cons ⟨p, l.name, placeProps names (p + (Token.beginNode l.name).size) l.props, stop⟩
      (place names body ch) (place names (stop + 4) sib)

theorem map_token_placeProps (p : Nat) (props : List (List UInt8 × List UInt8)) :
    (placeProps names p props).map PropNode.token = locate p (props.map (propToken names)) := by
  induction props generalizing p with
  | nil => rfl
  | cons x props ih =>
    rw [placeProps, List.map_cons, List.map_cons, locate, ih]
    rfl

/-- **The tokens, located, are those of the tree that is placed.** -/
theorem flatten_place (p : Nat) (F : Forest Label) :
    flatten (place names p F) = locate p (treeTokens names F) := by
  induction F generalizing p with
  | nil => rfl
  | cons l ch sib ihc ihs =>
    rw [place, treeTokens, locate_append, locate_append, locate, flatten, ihc, ihs,
      map_token_placeProps, Label.tokens, locate]
    rfl

theorem map_placeProps (p : Nat) (props : List (List UInt8 × List UInt8)) :
    (placeProps names p props).map (fun x => (x.name, x.value)) = props := by
  induction props generalizing p with
  | nil => rfl
  | cons x props ih => rw [placeProps, List.map_cons, ih]

/-- The nodes that are placed say what the labels say. -/
theorem map_place (p : Nat) (F : Forest Label) :
    (place names p F).map Node.label = F.map Label.shown := by
  induction F generalizing p with
  | nil => rfl
  | cons l ch sib ihc ihs =>
    rw [place, Forest.map, Forest.map, ihc, ihs, Node.label, map_placeProps]
    rfl

theorem nameOff_of_mem_placeProps {p : Nat} {props : List (List UInt8 × List UInt8)}
    {x : PropNode} (h : x ∈ placeProps names p props) : x.nameOff = nameOff names x.name := by
  induction props generalizing p with
  | nil => cases h
  | cons y props ih =>
    rcases List.mem_cons.1 h with rfl | h
    · rfl
    · exact ih h

/-- A property that is placed is one of a label, with the place of its name. -/
theorem exists_of_mem_place {p : Nat} {F : Forest Label} {n : Node} {x : PropNode}
    (hn : n ∈ (place names p F).labels) (hx : x ∈ n.props) :
    x.nameOff = nameOff names x.name ∧ ∃ l ∈ F.labels, (x.name, x.value) ∈ l.props := by
  induction F generalizing p with
  | nil => cases hn
  | cons l ch sib ihc ihs =>
    rw [place, Forest.labels, List.mem_cons, List.mem_append] at hn
    rcases hn with rfl | hn | hn
    · refine ⟨nameOff_of_mem_placeProps hx, l, List.mem_cons_self, ?_⟩
      have hmem := List.mem_map_of_mem (f := fun x : PropNode => (x.name, x.value)) hx
      rwa [map_placeProps] at hmem
    · obtain ⟨hoff, l', hl', hmem⟩ := ihc hn
      exact ⟨hoff, l', List.mem_cons_of_mem l (List.mem_append_left _ hl'), hmem⟩
    · obtain ⟨hoff, l', hl', hmem⟩ := ihs hn
      exact ⟨hoff, l', List.mem_cons_of_mem l (List.mem_append_right _ hl'), hmem⟩

/-- The tokens of a tree. -/
theorem mem_treeTokens {F : Forest Label} {t : Token} (h : t ∈ treeTokens names F) :
    t = .endNode ∨
      ∃ l ∈ F.labels, t = .beginNode l.name ∨ ∃ p ∈ l.props, t = propToken names p := by
  induction F with
  | nil => cases h
  | cons l ch sib ihc ihs =>
    have hup : ∀ G : Forest Label, G.labels ⊆ (Forest.cons l ch sib).labels →
        (t = .endNode ∨ ∃ l ∈ G.labels, t = .beginNode l.name ∨
          ∃ p ∈ l.props, t = propToken names p) →
        t = .endNode ∨ ∃ l' ∈ (Forest.cons l ch sib).labels, t = .beginNode l'.name ∨
          ∃ p ∈ l'.props, t = propToken names p := by
      rintro G hG (hend | ⟨l', hl', ht⟩)
      · exact .inl hend
      · exact .inr ⟨l', hG hl', ht⟩
    rw [treeTokens, Label.tokens, List.cons_append, List.mem_cons, List.mem_append,
      List.mem_append, List.mem_cons] at h
    rcases h with rfl | h | h | rfl | h
    · exact .inr ⟨l, List.mem_cons_self, .inl rfl⟩
    · obtain ⟨p, hp, rfl⟩ := List.mem_map.1 h
      exact .inr ⟨l, List.mem_cons_self, .inr ⟨p, hp, rfl⟩⟩
    · exact hup ch (fun x hx => List.mem_cons_of_mem l (List.mem_append_left _ hx)) (ihc h)
    · exact .inl rfl
    · exact hup sib (fun x hx => List.mem_cons_of_mem l (List.mem_append_right _ hx)) (ihs h)

/-- There is nothing to leave out. -/
theorem filter_significant {p : Nat} {ts : List Token} (h : Token.nop ∉ ts) :
    (locate p ts).filter significant = locate p ts := by
  induction ts generalizing p with
  | nil => rfl
  | cons t ts ih =>
    rw [List.mem_cons, not_or] at h
    have hsig : significant (p, t) = true := decide_eq_true (Ne.symm h.1)
    rw [locate, List.filter_cons_of_pos hsig, ih h.2]

/-! ## Blobs -/

namespace DeviceTree

/-- The names of the properties, each once. -/
def propNames (t : DeviceTree) : List (List UInt8) :=
  (t.tree.labels.flatMap fun l => l.props.map Prod.fst).dedup

def source (t : DeviceTree) : Source where
  reserve := t.reserve
  tokens := treeTokens t.propNames t.tree
  strings := stringsBlock t.propNames

/-- The device tree can be laid out at `fdt`. -/
structure Fits (t : DeviceTree) (fdt : Nat) : Prop where
  pos : 0 < fdt
  noWrap : fdt + t.source.totalsize < 2 ^ 64
  small : t.source.totalsize < 2 ^ 32
  reserve : ∀ e ∈ t.reserve, e ≠ (0, 0) ∧ e.1 < 2 ^ 64 ∧ e.2 < 2 ^ 64
  nodeNames : ∀ l ∈ t.tree.labels, 0 ∉ l.name
  propNames : ∀ name ∈ t.propNames, 0 ∉ name

/-- The nodes, at their addresses. -/
def placed (t : DeviceTree) (fdt : Nat) : Forest Node :=
  place t.propNames (fdt + t.source.offStruct) t.tree

/-- The device tree as the functions of `fdt.c` show it. -/
def shown (t : DeviceTree) : DeviceTree := { t with tree := t.tree.map Label.shown }

variable {t : DeviceTree} {fdt fuel : Nat} {v : View}

theorem mem_propNames {l : Label} (hl : l ∈ t.tree.labels) {p : List UInt8 × List UInt8}
    (hp : p ∈ l.props) : p.1 ∈ t.propNames :=
  List.mem_dedup.2 (List.mem_flatMap.2 ⟨l, hl, List.mem_map_of_mem hp⟩)

/-- The tokens are part of the blob. -/
theorem size_le {tok : Token} (h : tok ∈ t.source.tokens) : tok.size ≤ t.source.totalsize := by
  obtain ⟨xs, ys, hsplit⟩ := List.append_of_mem h
  have hlen := congrArg (fun ts => (ts.flatMap Token.encode).length) hsplit
  simp only [List.flatMap_append, List.flatMap_cons, List.length_append, tok.length_encode] at hlen
  simp only [Source.totalsize, Source.offStrings, Source.structBytes, List.flatMap_append,
    List.length_append]
  omega

theorem encodable (h : t.Fits fdt) : ∀ tok ∈ t.source.tokens, tok.Encodable := by
  intro tok htok
  have hsize := size_le htok
  have hsmall := h.small
  rcases mem_treeTokens htok with rfl | ⟨l, hl, rfl | ⟨p, hp, rfl⟩⟩
  · trivial
  · exact h.nodeNames l hl
  · have hoff := nameOff_lt (mem_propNames hl hp)
    have hpad := Token.length_le_padded p.2.length
    have hstrings : (stringsBlock t.propNames).length ≤ t.source.totalsize :=
      Nat.le_add_left _ _
    simp only [propToken, Token.size] at hsize
    exact ⟨by omega, by omega⟩

/-- **What is laid out is well formed.** -/
theorem fits (h : t.Fits fdt) : t.source.Fits fdt (t.placed fdt) where
  pos := h.pos
  noWrap := h.noWrap
  small := h.small
  encodable := encodable h
  tree_eq := by
    rw [placed, flatten_place]
    refine filter_significant fun hnop => ?_
    rcases mem_treeTokens hnop with hend | ⟨l, -, hname | ⟨p, -, hprop⟩⟩
    · cases hend
    · cases hname
    · cases hprop
  reserve := h.reserve
  names := by
    intro n hn p hp
    obtain ⟨hoff, l, hl, hmem⟩ := exists_of_mem_place hn hp
    have hname : p.name ∈ t.propNames := mem_propNames hl hmem
    exact ⟨h.propNames _ hname, hoff ▸ prefix_drop_nameOff hname⟩

/-- **The round trip**: memory that holds a device tree laid out as a blob is read as this device
tree, whatever stands around the blob. -/
theorem readDeviceTree_encode (h : t.Fits fdt) (hv : v.Holds fdt t.source.encode)
    (hfuel : t.source.totalsize < fuel) : readDeviceTree fuel v fdt = .ok t.shown := by
  have hin := Source.in_of_holds (fits h) hv
  have hread : readDeviceTree fuel v fdt = .ok (Source.blob (fits h)).deviceTree :=
    readDeviceTree_eq hin hfuel
  have hlabels : (Source.blob (fits h)).tree.map Node.label = t.tree.map Label.shown :=
    map_place _ _
  rw [hread, Blob.deviceTree, hlabels]
  rfl

end DeviceTree

/-- A root without a name, a memory node, and a node with a child. -/
def smallTree : DeviceTree where
  reserve := [(0x80000400, 0x100), (0, 0x1000)]
  tree :=
    .cons ⟨[], [(ascii "#address-cells", beBytes 4 2), (ascii "#size-cells", beBytes 4 1)]⟩
      (.cons ⟨ascii "memory@80000000", [(ascii "reg", [0, 0, 0, 0, 128, 0, 0, 0, 0, 0, 16, 0])]⟩
        .nil
        (.cons ⟨ascii "soc", [(ascii "ranges", [])]⟩
          (.cons ⟨ascii "uart", [(ascii "reg", [1])]⟩ .nil .nil) .nil))
      .nil

theorem smallTree_fits : smallTree.Fits 0x1000 :=
  ⟨by decide, by decide +kernel, by decide +kernel, by decide, by decide, by decide⟩

theorem readDeviceTree_encode_small :
    readDeviceTree 1000 (View.ofList 0x1000 smallTree.source.encode) 0x1000 =
      .ok smallTree.shown := by
  have hfuel : smallTree.source.totalsize < 1000 := by decide +kernel
  exact DeviceTree.readDeviceTree_encode smallTree_fits (View.ofList_holds _ _) hfuel

end RiscyOs
