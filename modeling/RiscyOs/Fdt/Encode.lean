import RiscyOs.Fdt.Blob

/-!
# Encoding blobs

`Source` lists what goes into a blob: the tokens of the structure block without their addresses,
the reserve entries and the strings block. `Source.encode` lays it out as bytes.

* `Source.in_of_holds`: a view that holds the bytes of a source holds its blob.
-/

namespace RiscyOs

open ByteMemory

/-! ## Tokens -/

namespace Token

/-- Zeros up to the next cell. -/
def padding (len : Nat) : List UInt8 := List.replicate (padded len - len) 0

def encodeBody : Token → List UInt8
  | beginNode name => (name ++ [0]) ++ padding (name.length + 1)
  | prop nameOff value =>
    beBytes 4 value.length ++ (beBytes 4 nameOff ++ (value ++ padding value.length))
  | _ => []

def encode (t : Token) : List UInt8 := beBytes 4 t.word ++ t.encodeBody

/-- Names end at their terminator, and fields fit into their words. -/
def Encodable : Token → Prop
  | beginNode name => 0 ∉ name
  | prop nameOff value => nameOff < 2 ^ 32 ∧ value.length < 2 ^ 32
  | _ => True

instance Encodable.decidable : (t : Token) → Decidable t.Encodable
  | beginNode name => inferInstanceAs (Decidable (0 ∉ name))
  | prop nameOff value => inferInstanceAs (Decidable (nameOff < 2 ^ 32 ∧ value.length < 2 ^ 32))
  | endNode => inferInstanceAs (Decidable True)
  | nop => inferInstanceAs (Decidable True)
  | fdtEnd => inferInstanceAs (Decidable True)

theorem length_encode (t : Token) : t.encode.length = t.size := by
  have hle := length_le_padded
  cases t with
  | beginNode name =>
    have := hle (name.length + 1)
    simp only [encode, encodeBody, size, padding, List.length_append, length_beBytes,
      List.length_singleton, List.length_replicate]
    omega
  | prop nameOff value =>
    have := hle value.length
    simp only [encode, encodeBody, size, padding, List.length_append, length_beBytes,
      List.length_replicate]
    omega
  | endNode => rfl
  | nop => rfl
  | fdtEnd => rfl

theorem word_lt (t : Token) : t.word < 2 ^ 32 := by
  cases t <;> simp [word, FDT_BEGIN_NODE, FDT_END_NODE, FDT_PROP, FDT_NOP, FDT_END]

theorem at_of_holds {v : View} {a : Nat} {t : Token} (ht : t.Encodable) (h : v.Holds a t.encode) :
    t.At v a := by
  rw [encode, View.holds_append] at h
  refine ⟨be32_of_holds t.word_lt h.1, ?_⟩
  have hbody := h.2
  rw [length_beBytes] at hbody
  cases t with
  | beginNode name =>
    rw [encodeBody, View.holds_append] at hbody
    exact ⟨hbody.1, ht⟩
  | prop nameOff value =>
    simp only [encodeBody, View.holds_append, length_beBytes] at hbody
    exact ⟨be32_of_holds ht.2 hbody.1, be32_of_holds ht.1 hbody.2.1, hbody.2.2.1⟩
  | endNode => trivial
  | nop => trivial
  | fdtEnd => trivial

end Token

/-- Tokens with the addresses they get from `p` on. -/
def locate : Nat → List Token → List (Nat × Token)
  | _, [] => []
  | p, t :: ts => (p, t) :: locate (p + t.size) ts

theorem locate_append (p : Nat) (xs ys : List Token) :
    locate p (xs ++ ys) = locate p xs ++ locate (p + (xs.flatMap Token.encode).length) ys := by
  induction xs generalizing p with
  | nil => rfl
  | cons x xs ih =>
    simp only [List.cons_append, locate, ih, List.flatMap_cons, List.length_append,
      Token.length_encode, Nat.add_assoc]

theorem laid_of_holds {v : View} {p : Nat} {ts : List Token} (hts : ∀ t ∈ ts, t.Encodable)
    (h : v.Holds p (ts.flatMap Token.encode)) :
    Laid v p (locate p ts) (p + (ts.flatMap Token.encode).length) := by
  induction ts generalizing p with
  | nil => rfl
  | cons t ts ih =>
    rw [List.flatMap_cons, View.holds_append, t.length_encode] at h
    have hrest := ih (fun t' ht' => hts t' (List.mem_cons_of_mem t ht')) h.2
    refine ⟨rfl, Token.at_of_holds (hts t (by simp)) h.1, ?_⟩
    rwa [List.flatMap_cons, List.length_append, t.length_encode, ← Nat.add_assoc]

/-! ## Blobs -/

/-- What goes into a blob. -/
structure Source where
  reserve : List (Nat × Nat)
  /-- The structure block up to `FDT_END`. -/
  tokens : List Token
  strings : List UInt8

namespace Source

def offStruct (s : Source) : Nat := 40 + 16 * (s.reserve.length + 1)

def structBytes (s : Source) : List UInt8 := (s.tokens ++ [Token.fdtEnd]).flatMap Token.encode

def offStrings (s : Source) : Nat := s.offStruct + s.structBytes.length

def totalsize (s : Source) : Nat := s.offStrings + s.strings.length

/-- The header, of version 17. -/
def header (s : Source) : List UInt8 :=
  beBytes 4 0xd00dfeed ++ (beBytes 4 s.totalsize ++ (beBytes 4 s.offStruct ++
    (beBytes 4 s.offStrings ++ (beBytes 4 40 ++ (beBytes 4 17 ++ (beBytes 4 16 ++
      (beBytes 4 0 ++ (beBytes 4 s.strings.length ++ beBytes 4 s.structBytes.length))))))))

def entryBytes (e : Nat × Nat) : List UInt8 := beBytes 8 e.1 ++ beBytes 8 e.2

def mapBytes (s : Source) : List UInt8 := (s.reserve ++ [(0, 0)]).flatMap entryBytes

def encode (s : Source) : List UInt8 :=
  s.header ++ (s.mapBytes ++ (s.structBytes ++ s.strings))

/-- The source, placed at `fdt`, encodes the tree. -/
structure Fits (s : Source) (fdt : Nat) (tree : Forest Node) : Prop where
  pos : 0 < fdt
  noWrap : fdt + s.totalsize < 2 ^ 64
  small : s.totalsize < 2 ^ 32
  encodable : ∀ t ∈ s.tokens, t.Encodable
  tree_eq : (locate (fdt + s.offStruct) s.tokens).filter significant = flatten tree
  reserve : ∀ e ∈ s.reserve, e ≠ (0, 0) ∧ e.1 < 2 ^ 64 ∧ e.2 < 2 ^ 64
  names : ∀ n ∈ tree.labels, ∀ p ∈ n.props,
    0 ∉ p.name ∧ (p.name ++ [0]) <+: s.strings.drop p.nameOff

variable {s : Source} {fdt : Nat} {tree : Forest Node} {v : View}

/-- The blob of a source. -/
def blob (h : s.Fits fdt tree) : Blob where
  fdt := fdt
  totalsize := s.totalsize
  offStruct := s.offStruct
  sizeStruct := s.structBytes.length
  offStrings := s.offStrings
  sizeStrings := s.strings.length
  offRsvmap := 40
  body := locate (fdt + s.offStruct) s.tokens
  endAddr := fdt + s.offStruct + (s.tokens.flatMap Token.encode).length
  tree := tree
  reserve := s.reserve
  fdt_pos := h.pos
  noWrap := h.noWrap
  header_le := by
    simp only [totalsize, offStrings, offStruct]
    omega
  struct_le := Nat.le_add_right _ _
  strings_le := le_rfl
  rsvmap_le := le_rfl
  body_eq := h.tree_eq
  reserve_ne := fun e he => (h.reserve e he).1

theorem length_mapBytes (es : List (Nat × Nat)) :
    (es.flatMap entryBytes).length = 16 * es.length := by
  induction es with
  | nil => rfl
  | cons e es ih =>
    rw [List.flatMap_cons, List.length_append, ih, entryBytes, List.length_append, length_beBytes,
      length_beBytes, List.length_cons]
    omega

theorem mapAt_of_holds {a : Nat} {es : List (Nat × Nat)}
    (hes : ∀ e ∈ es, e.1 < 2 ^ 64 ∧ e.2 < 2 ^ 64)
    (h : v.Holds a ((es ++ [(0, 0)]).flatMap entryBytes)) : Blob.MapAt v a es := by
  induction es generalizing a with
  | nil =>
    simp only [List.nil_append, List.flatMap_cons, List.flatMap_nil, List.append_nil, entryBytes,
      View.holds_append, length_beBytes] at h
    exact ⟨be64_of_holds (by norm_num) h.1, be64_of_holds (by norm_num) h.2⟩
  | cons e es ih =>
    simp only [List.cons_append, List.flatMap_cons, entryBytes, View.holds_append, length_beBytes,
      List.length_append] at h
    obtain ⟨⟨haddr, hsize⟩, hrest⟩ := h
    have he := hes e (by simp)
    exact ⟨be64_of_holds he.1 haddr, be64_of_holds he.2 hsize,
      ih (fun e' he' => hes e' (List.mem_cons_of_mem e he')) hrest⟩

/-- **What is encoded is well formed**: memory that holds the bytes of a source holds its blob. -/
theorem in_of_holds (h : s.Fits fdt tree) (hv : v.Holds fdt s.encode) : (blob h).In v := by
  have hsmall := h.small
  have hlen : s.mapBytes.length = 16 * (s.reserve.length + 1) := by
    rw [mapBytes, length_mapBytes, List.length_append, List.length_singleton]
  have hstr : s.offStrings = s.offStruct + s.structBytes.length := rfl
  have htot : s.totalsize = s.offStrings + s.strings.length := rfl
  rw [encode, View.holds_append, View.holds_append, View.holds_append] at hv
  obtain ⟨hheader, hmap, hstruct, hstrings⟩ := hv
  have hheaderLen : s.header.length = 40 := by simp [header, length_beBytes]
  rw [hheaderLen] at hmap hstruct hstrings
  rw [hlen] at hstruct hstrings
  simp only [header, View.holds_append, length_beBytes, Nat.add_assoc] at hheader
  obtain ⟨-, htotal, hoffStruct, hoffStrings, hoffMap, -, -, -, hsizeStrings, hsizeStruct⟩ :=
    hheader
  have hstart : fdt + 40 + 16 * (s.reserve.length + 1) = fdt + s.offStruct := Nat.add_assoc _ _ _
  have hstringsStart : fdt + s.offStruct + s.structBytes.length = fdt + s.offStrings :=
    Nat.add_assoc _ _ _
  rw [hstart] at hstruct hstrings
  rw [hstringsStart] at hstrings
  have hoffStruct32 : s.offStruct < 2 ^ 32 := by omega
  have hsizeStruct32 : s.structBytes.length < 2 ^ 32 := by omega
  have hoffStrings32 : s.offStrings < 2 ^ 32 := by omega
  have hsizeStrings32 : s.strings.length < 2 ^ 32 := by omega
  have hoffMap32 : 40 < 2 ^ 32 := by decide
  have hencodable : ∀ t ∈ s.tokens ++ [Token.fdtEnd], t.Encodable := by
    intro t ht
    rcases List.mem_append.1 ht with ht | ht
    · exact h.encodable t ht
    · obtain rfl := List.mem_singleton.1 ht
      trivial
  have hlaid := laid_of_holds hencodable hstruct
  rw [locate_append] at hlaid
  exact
    { offDtStruct := be32_of_holds hoffStruct32 hoffStruct
      sizeDtStruct := be32_of_holds hsizeStruct32 hsizeStruct
      laid := hlaid
      totalsize := be32_of_holds hsmall htotal
      offDtStrings := be32_of_holds hoffStrings32 hoffStrings
      sizeDtStrings := be32_of_holds hsizeStrings32 hsizeStrings
      names := fun n hn p hp => by
        obtain ⟨hzero, rest, hrest⟩ := h.names n hn p hp
        have hsplit : s.strings = s.strings.take p.nameOff ++ ((p.name ++ [0]) ++ rest) := by
          rw [hrest, List.take_append_drop]
        have hlen := congrArg List.length hrest
        rw [List.length_append, List.length_append, List.length_drop, List.length_singleton] at hlen
        have hlt : p.nameOff + p.name.length < s.strings.length := by omega
        have htake : (s.strings.take p.nameOff).length = p.nameOff := by
          rw [List.length_take]
          omega
        rw [hsplit, View.holds_append, View.holds_append, htake] at hstrings
        refine ⟨hlt, ?_, hzero⟩
        exact hstrings.2.1
      offMemRsvmap := be32_of_holds hoffMap32 hoffMap
      rsvmap := mapAt_of_holds (fun e he => (h.reserve e he).2) hmap }

end Source

/-! ## A board -/

/-- The value of a `reg` property with two cells for each number. -/
def regBytes (blocks : List (Nat × Nat)) : List UInt8 := blocks.flatMap Source.entryBytes

/-- Two memory nodes, the first with two register blocks, and a node with a child. -/
def board : Source where
  reserve := [(0x80000400, 0x100)]
  tokens :=
    [.beginNode [], .nop, .prop 0 (beBytes 4 2), .prop 15 (beBytes 4 2),
      .beginNode (ascii "memory@80000000"), .prop 27 (ascii "memory" ++ [0]), .nop,
      .prop 39 (regBytes [(0x80000000, 0x1000), (0x90000000, 0x2000)]), .endNode, .nop,
      .beginNode (ascii "memory@80006000"), .prop 27 (ascii "memory"),
      .prop 39 (regBytes [(0x80006000, 0x1000)]), .endNode,
      .beginNode (ascii "soc"), .prop 9 [1], .beginNode (ascii "uart"), .endNode, .endNode,
      .endNode]
  strings := ascii "#address-cells" ++ 0 :: ascii "#size-cells" ++ 0 :: ascii "device_type" ++
    0 :: ascii "reg" ++ [0]

/-- The root of `board` at the address `0x1000`. -/
def boardRoot : Node :=
  ⟨0x1048, [], [⟨0x1054, 0, ascii "#address-cells", beBytes 4 2⟩,
    ⟨0x1064, 15, ascii "#size-cells", beBytes 4 2⟩], 0x1148⟩

def boardMemory0 : Node :=
  ⟨0x1074, ascii "memory@80000000", [⟨0x1088, 27, ascii "device_type", ascii "memory" ++ [0]⟩,
    ⟨0x10a0, 39, ascii "reg", regBytes [(0x80000000, 0x1000), (0x90000000, 0x2000)]⟩], 0x10cc⟩

def boardMemory1 : Node :=
  ⟨0x10d4, ascii "memory@80006000", [⟨0x10e8, 27, ascii "device_type", ascii "memory"⟩,
    ⟨0x10fc, 39, ascii "reg", regBytes [(0x80006000, 0x1000)]⟩], 0x1118⟩

def boardSoc : Node := ⟨0x111c, ascii "soc", [⟨0x1124, 9, ascii "cells", [1]⟩], 0x1144⟩

def boardUart : Node := ⟨0x1134, ascii "uart", [], 0x1140⟩

/-- What is below the root. -/
def boardChildren : Forest Node :=
  .cons boardMemory0 .nil (.cons boardMemory1 .nil
    (.cons boardSoc (.cons boardUart .nil .nil) .nil))

def boardTree : Forest Node := .cons boardRoot boardChildren .nil

theorem board_fits : board.Fits 0x1000 boardTree :=
  ⟨by decide, by decide +kernel, by decide +kernel, by decide, by decide,
    by decide, by decide⟩

/-- Memory with nothing in it but the board's blob. -/
def boardView : View := View.ofList 0x1000 board.encode

/-- The blob of the board. -/
def boardBlob : Blob := Source.blob board_fits

theorem board_in : boardBlob.In boardView :=
  Source.in_of_holds board_fits (View.ofList_holds _ _)

theorem board_fuel : boardBlob.totalsize < 1000 := by decide +kernel

end RiscyOs
