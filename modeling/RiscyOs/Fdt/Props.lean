import RiscyOs.Fdt.Token

/-!
# Walking over the properties of a node

* `fdtProps_eq`: the iteration over properties returns the node's own properties, in order, and
  the iteration of `fdt_get_prop_by_name` those of them with the given name.

Both walk a list of properties that are still ahead among the tokens, `PropsAhead`.
-/

namespace RiscyOs

open ByteMemory FuelLoop

/-- `fdt_node_next_prop` until there are no more properties. -/
def propsFrom (fuel : Nat) (v : View) (fdt : Nat) : Nat → Nat → Result (List Nat)
  | 0, _ => .error .outOfFuel
  | n + 1, prop =>
    if prop = NULL then .ok [] else do
      let next ← fdtNodeNextProp fuel v fdt prop
      let rest ← propsFrom fuel v fdt n next
      return prop :: rest

def fdtProps (fuel : Nat) (v : View) (fdt node : Nat) : Result (List Nat) := do
  let first ← fdtNodePropBegin fuel v fdt node
  propsFrom fuel v fdt fuel first

/-- `fdt_get_prop_by_name` with each result, until there are no more. -/
def propsNamedFrom (fuel : Nat) (v : View) (fdt node : Nat) (name : CStr) :
    Nat → Nat → Result (List Nat)
  | 0, _ => .error .outOfFuel
  | n + 1, prop =>
    if prop = NULL then .ok [] else do
      let next ← fdtGetPropByName fuel v fdt node prop name
      let rest ← propsNamedFrom fuel v fdt node name n next
      return prop :: rest

def fdtPropsNamed (fuel : Nat) (v : View) (fdt node : Nat) (name : CStr) : Result (List Nat) := do
  let first ← fdtGetPropByName fuel v fdt node NULL name
  propsNamedFrom fuel v fdt node name fuel first

/-! ## The properties ahead -/

/-- Among the tokens `rest`, the properties `ps` come first, and then a node starts or ends. -/
def PropsAhead (ps : List PropNode) (rest : List (Nat × Token)) : Prop :=
  ∃ x tail, rest.filter significant = ps.map PropNode.token ++ x :: tail ∧
    x.2.word ≠ FDT_PROP ∧ x.2.word ≠ FDT_NOP

def headProp (ps : List PropNode) : Nat := (ps.map PropNode.addr).headD NULL

/-- The properties with the name `l`. -/
def named (l : List UInt8) (ps : List PropNode) : List PropNode := ps.filter fun p => p.name = l

theorem PropsAhead.next {p : PropNode} {ps : List PropNode} {rest : List (Nat × Token)}
    (h : PropsAhead (p :: ps) rest) :
    ∃ mid rest', rest = mid ++ p.token :: rest' ∧ PropsAhead ps rest' := by
  obtain ⟨x, tail, hfilter, hx⟩ := h
  obtain ⟨mid, rest', rfl, -, -, hrest⟩ := List.filter_eq_cons_iff.1 hfilter
  exact ⟨mid, rest', rfl, x, tail, hrest, hx⟩

theorem PropsAhead.length_le {ps : List PropNode} {rest : List (Nat × Token)}
    (h : PropsAhead ps rest) : ps.length ≤ rest.length := by
  obtain ⟨x, tail, hfilter, -⟩ := h
  have hle := List.length_filter_le significant rest
  rw [hfilter, List.length_append, List.length_map] at hle
  omega

/-- `FDT_NOP`s are passed over, and the first other token decides. -/
theorem scan_prop {ps : List PropNode} {rest : List (Nat × Token)} (h : PropsAhead ps rest) :
    scan propVisit (fun _ => NULL) rest () = headProp ps := by
  obtain ⟨⟨c, t'⟩, tail, hfilter, hprop, hnop⟩ := h
  induction rest with
  | nil => simp at hfilter
  | cons x rest ih =>
    obtain ⟨a, t⟩ := x
    by_cases ht : t = .nop
    · subst ht
      exact ih (by simpa [significant] using hfilter)
    · rw [List.filter_cons_of_pos (by simpa [significant] using ht)] at hfilter
      cases ps with
      | nil =>
        obtain ⟨hhead, -⟩ := List.cons.inj hfilter
        obtain ⟨rfl, rfl⟩ := Prod.mk.inj hhead
        simp only [scan, propVisit, if_neg hprop, if_neg hnop]
        rfl
      | cons p ps =>
        obtain ⟨hhead, -⟩ := List.cons.inj hfilter
        obtain ⟨rfl, rfl⟩ := Prod.mk.inj hhead
        rfl

/-- In a tree, the properties of a node come right after it. -/
theorem flatten_of_mem_labels {F : Forest Node} {n : Node} (h : n ∈ F.labels) :
    ∃ before x after, flatten F = before ++ (n.addr, .beginNode n.name) ::
      (n.props.map PropNode.token ++ x :: after) ∧ x.2.word ≠ FDT_PROP ∧ x.2.word ≠ FDT_NOP := by
  induction F with
  | nil => simp [Forest.labels] at h
  | cons m ch sib ihc ihs =>
    simp only [Forest.labels, List.mem_cons, List.mem_append] at h
    rcases h with rfl | h | h
    · cases ch with
      | nil =>
        exact ⟨[], (n.endAddr, .endNode), flatten sib, rfl,
          show FDT_END_NODE ≠ FDT_PROP by decide, show FDT_END_NODE ≠ FDT_NOP by decide⟩
      | cons k ch' sib' =>
        exact ⟨[], (k.addr, .beginNode k.name), _, rfl,
          show FDT_BEGIN_NODE ≠ FDT_PROP by decide, show FDT_BEGIN_NODE ≠ FDT_NOP by decide⟩
    · obtain ⟨before, x, after, hc, hx⟩ := ihc h
      refine ⟨(m.addr, .beginNode m.name) :: (m.props.map PropNode.token ++ before), x,
        after ++ (m.endAddr, .endNode) :: flatten sib, ?_, hx⟩
      simp [flatten, hc]
    · obtain ⟨before, x, after, hs, hx⟩ := ihs h
      refine ⟨(m.addr, .beginNode m.name) :: (m.props.map PropNode.token ++
        (flatten ch ++ (m.endAddr, .endNode) :: before)), x, after, ?_, hx⟩
      simp [flatten, hs]

theorem Blob.propsAhead_of_mem {b : Blob} {n : Node} (h : n ∈ b.nodes) :
    ∃ pre rest, b.tokens = pre ++ (n.addr, .beginNode n.name) :: rest ∧
      PropsAhead n.props rest := by
  obtain ⟨before, x, after, hflat, hx⟩ := flatten_of_mem_labels h
  obtain ⟨xs, ys, hbody, -, hys⟩ := List.filter_eq_append_iff.1 (b.body_eq.trans hflat)
  obtain ⟨mid, rest, rfl, -, -, hrest⟩ := List.filter_eq_cons_iff.1 hys
  refine ⟨xs ++ mid, rest ++ [(b.endAddr, .fdtEnd)], ?_, x,
    after ++ [(b.endAddr, .fdtEnd)].filter significant, ?_, hx⟩
  · simp [Blob.tokens, hbody]
  · rw [List.filter_append, hrest]
    simp

namespace Blob.StructIn

variable {b : Blob} {v : View} {fuel a : Nat} {t : Token} {ps : List PropNode} {p : PropNode}
  {pre rest : List (Nat × Token)}

/-- The two property functions, from any token on. -/
theorem nextProp_eq (h : b.StructIn v) (hfuel : b.sizeStruct < fuel)
    (htok : b.tokens = pre ++ (a, t) :: rest) (hps : PropsAhead ps rest) :
    fdtNodeNextProp fuel v b.fdt a = .ok (headProp ps) := by
  have hrest : b.tokens = (pre ++ [(a, t)]) ++ rest := by simpa using htok
  rw [fdtNodeNextProp, h.nextToken_eq hfuel htok, ok_bind, h.tokenLoop_eq hfuel _ _ hrest,
    scan_prop hps]

theorem propBegin_eq (h : b.StructIn v) (hfuel : b.sizeStruct < fuel)
    (htok : b.tokens = pre ++ (a, t) :: rest) (hps : PropsAhead ps rest) :
    fdtNodePropBegin fuel v b.fdt a = .ok (headProp ps) := h.nextProp_eq hfuel htok hps

theorem propsFrom_eq (h : b.StructIn v) (hfuel : b.sizeStruct < fuel) {n : Nat}
    (htok : b.tokens = pre ++ rest) (hps : PropsAhead ps rest) (hn : ps.length < n) :
    propsFrom fuel v b.fdt n (headProp ps) = .ok (ps.map PropNode.addr) := by
  induction ps generalizing pre rest n with
  | nil =>
    obtain ⟨k, rfl⟩ : ∃ k, n = k + 1 := ⟨n - 1, by omega⟩
    rfl
  | cons p ps ih =>
    obtain ⟨k, rfl⟩ : ∃ k, n = k + 1 := ⟨n - 1, by omega⟩
    obtain ⟨mid, rest', rfl, hps'⟩ := hps.next
    have htok' : b.tokens = (pre ++ mid) ++ p.token :: rest' := by simpa using htok
    have htok'' : b.tokens = (pre ++ mid ++ [p.token]) ++ rest' := by simpa using htok'
    have hpos : 0 < p.addr := h.token_pos htok'
    have hnext : fdtNodeNextProp fuel v b.fdt p.addr = .ok (headProp ps) :=
      h.nextProp_eq hfuel htok' hps'
    have hrest := ih htok'' hps' (by simpa using hn)
    rw [show headProp (p :: ps) = p.addr from rfl, propsFrom, if_neg hpos.ne', hnext, ok_bind,
      hrest, ok_bind]
    rfl

end Blob.StructIn

/-! ## Names -/

namespace Blob.In

variable {b : Blob} {v : View} {fuel : Nat} {ps : List PropNode} {p : PropNode} {name : CStr}
  {l : List UInt8} {pre rest : List (Nat × Token)}

/-- The name of a property is found in the strings block. -/
theorem propName_eq (h : b.In v) (htok : b.tokens = pre ++ p.token :: rest) (hp : b.NameIn v p) :
    fdtPropName v b.fdt p.addr = .ok (b.fdt + b.offStrings + p.nameOff) := by
  obtain ⟨-, ⟨-, hbody⟩, -⟩ := h.token_at htok
  have hoff : fdtPropNameOffset v p.addr = .ok p.nameOff := hbody.2.1
  have hwrap := b.noWrap
  have hle := b.strings_le
  have hlt := hp.1
  have hstart : wadd b.fdt b.offStrings = b.fdt + b.offStrings := wadd_eq (by omega)
  have hstop : wadd (b.fdt + b.offStrings) b.sizeStrings =
      b.fdt + b.offStrings + b.sizeStrings := wadd_eq (by omega)
  have hname : wadd (b.fdt + b.offStrings) p.nameOff = b.fdt + b.offStrings + p.nameOff :=
    wadd_eq (by omega)
  simp only [fdtPropName, hoff, ok_bind, fdtStringFromOffset, h.offDtStrings, h.sizeDtStrings,
    hstart, hstop, hname, pure_eq_ok]
  rw [if_neg (by omega)]

/-- Names are compared as strings, wherever in the strings block they start. -/
theorem propNamed_eq (h : b.In v) (hfuel : b.totalsize < fuel) (hname : name.Is l)
    (htok : b.tokens = pre ++ p.token :: rest) (hp : b.NameIn v p) :
    propNamed fuel v b.fdt name p.addr = .ok (decide (p.name = l)) := by
  have hpos := b.fdt_pos
  have hle := b.strings_le
  have hlt := hp.1
  have hne : b.fdt + b.offStrings + p.nameOff ≠ NULL := by
    simp only [NULL]
    omega
  have hlen : p.name.length < fuel := by omega
  have hstr : (⟨v, b.fdt + b.offStrings + p.nameOff⟩ : CStr).Is p.name := ⟨hne, hp.2⟩
  obtain ⟨r, hr, hiff⟩ := strcmp_spec hname hstr hlen
  rw [propNamed, h.propName_eq htok hp, ok_bind, if_neg hne, hr]
  refine congrArg Except.ok (decide_eq_decide.2 ?_)
  rw [hiff, eq_comm]

/-- The search for a name goes through the properties ahead. -/
theorem propByName_loop_eq (h : b.In v) (hfuel : b.totalsize < fuel) (hname : name.Is l) {n : Nat}
    (htok : b.tokens = pre ++ rest) (hps : PropsAhead ps rest) (hnames : ∀ p ∈ ps, b.NameIn v p)
    (hn : ps.length < n) :
    loop .outOfFuel (propByNameStep fuel v b.fdt name) n (headProp ps) =
      .ok (headProp (named l ps)) := by
  have hstruct := b.sizeStruct_lt hfuel
  induction ps generalizing pre rest n with
  | nil =>
    obtain ⟨k, rfl⟩ : ∃ k, n = k + 1 := ⟨n - 1, by omega⟩
    exact loop_leave rfl
  | cons p ps ih =>
    obtain ⟨k, rfl⟩ : ∃ k, n = k + 1 := ⟨n - 1, by omega⟩
    obtain ⟨mid, rest', rfl, hps'⟩ := hps.next
    have htok' : b.tokens = (pre ++ mid) ++ p.token :: rest' := by simpa using htok
    have htok'' : b.tokens = (pre ++ mid ++ [p.token]) ++ rest' := by simpa using htok'
    have hpos : 0 < p.addr := h.token_pos htok'
    have hfound := h.propNamed_eq hfuel hname htok' (hnames p (by simp))
    have hhead : headProp (p :: ps) = p.addr := rfl
    rw [hhead]
    by_cases hl : p.name = l
    · have hfirst : headProp (named l (p :: ps)) = p.addr := by
        rw [named, List.filter_cons_of_pos (by simpa using hl)]
        rfl
      rw [hfirst]
      refine loop_leave ?_
      simp only [propByNameStep, if_neg hpos.ne', hfound, ok_bind, hl, decide_true, if_true,
        pure_eq_ok]
    · have hskip : named l (p :: ps) = named l ps := List.filter_cons_of_neg (by simpa using hl)
      have hnext : fdtNodeNextProp fuel v b.fdt p.addr = .ok (headProp ps) :=
        h.nextProp_eq hstruct htok' hps'
      rw [hskip, loop_again (headProp ps)]
      · exact ih htok'' hps' (fun q hq => hnames q (List.mem_cons_of_mem p hq)) (by simpa using hn)
      · simp [propByNameStep, if_neg hpos.ne', hfound, ok_bind, hl, hnext, pure_eq_ok]

/-- `fdt_get_prop_by_name` from a node. -/
theorem getPropByName_begin (h : b.In v) (hfuel : b.totalsize < fuel) (hname : name.Is l)
    {a : Nat} {t : Token} (htok : b.tokens = pre ++ (a, t) :: rest) (hps : PropsAhead ps rest)
    (hnames : ∀ p ∈ ps, b.NameIn v p) :
    fdtGetPropByName fuel v b.fdt a NULL name = .ok (headProp (named l ps)) := by
  have hstruct := b.sizeStruct_lt hfuel
  have hrest : b.tokens = (pre ++ [(a, t)]) ++ rest := by simpa using htok
  have hlen := hps.length_le
  have hlt := h.rest_lt hstruct htok
  rw [fdtGetPropByName, if_neg (by simp), h.propBegin_eq hstruct htok hps, ok_bind]
  exact h.propByName_loop_eq hfuel hname hrest hps hnames (by omega)

/-- `fdt_get_prop_by_name` from a property found before. -/
theorem getPropByName_next (h : b.In v) (hfuel : b.totalsize < fuel) (hname : name.Is l)
    (node : Nat) (htok : b.tokens = pre ++ p.token :: rest) (hps : PropsAhead ps rest)
    (hnames : ∀ p ∈ ps, b.NameIn v p) :
    fdtGetPropByName fuel v b.fdt node p.addr name = .ok (headProp (named l ps)) := by
  have hstruct := b.sizeStruct_lt hfuel
  have hrest : b.tokens = (pre ++ [p.token]) ++ rest := by simpa using htok
  have hlen := hps.length_le
  have hlt := h.rest_lt hstruct htok
  have hpos : 0 < p.addr := h.token_pos htok
  have hnext : fdtNodeNextProp fuel v b.fdt p.addr = .ok (headProp ps) :=
    h.nextProp_eq hstruct htok hps
  rw [fdtGetPropByName, if_pos hpos.ne', hnext, ok_bind]
  exact h.propByName_loop_eq hfuel hname hrest hps hnames (by omega)

theorem propsNamedFrom_eq (h : b.In v) (hfuel : b.totalsize < fuel) (hname : name.Is l)
    (node : Nat) {n : Nat} (htok : b.tokens = pre ++ rest) (hps : PropsAhead ps rest)
    (hnames : ∀ p ∈ ps, b.NameIn v p) (hn : ps.length < n) :
    propsNamedFrom fuel v b.fdt node name n (headProp (named l ps)) =
      .ok ((named l ps).map PropNode.addr) := by
  induction ps generalizing pre rest n with
  | nil =>
    obtain ⟨k, rfl⟩ : ∃ k, n = k + 1 := ⟨n - 1, by omega⟩
    rfl
  | cons p ps ih =>
    obtain ⟨k, rfl⟩ : ∃ k, n = k + 1 := ⟨n - 1, by omega⟩
    obtain ⟨mid, rest', rfl, hps'⟩ := hps.next
    have htok' : b.tokens = (pre ++ mid) ++ p.token :: rest' := by simpa using htok
    have htok'' : b.tokens = (pre ++ mid ++ [p.token]) ++ rest' := by simpa using htok'
    have hnames' : ∀ q ∈ ps, b.NameIn v q := fun q hq => hnames q (List.mem_cons_of_mem p hq)
    rw [List.length_cons] at hn
    by_cases hl : p.name = l
    · have hcons : named l (p :: ps) = p :: named l ps :=
        List.filter_cons_of_pos (by simpa using hl)
      have hpos : 0 < p.addr := h.token_pos htok'
      have hnext := h.getPropByName_next hfuel hname node htok' hps' hnames'
      rw [hcons, show headProp (p :: named l ps) = p.addr from rfl, propsNamedFrom,
        if_neg hpos.ne', hnext, ok_bind, ih htok'' hps' hnames' (by omega), ok_bind]
      rfl
    · have hskip : named l (p :: ps) = named l ps := List.filter_cons_of_neg (by simpa using hl)
      rw [hskip]
      exact ih htok'' hps' hnames' (by omega)

end Blob.In

/-- **The iterations over properties return the node's own**: all of them in order, and those with
the name `l` in order. -/
theorem fdtProps_eq {b : Blob} {v : View} {fuel : Nat} {n : Node} {name : CStr} {l : List UInt8}
    (h : b.In v) (hfuel : b.totalsize < fuel) (hn : n ∈ b.nodes) (hname : name.Is l) :
    fdtProps fuel v b.fdt n.addr = .ok (n.props.map PropNode.addr) ∧
      fdtPropsNamed fuel v b.fdt n.addr name = .ok ((named l n.props).map PropNode.addr) := by
  have hstruct := b.sizeStruct_lt hfuel
  obtain ⟨pre, rest, htok, hps⟩ := b.propsAhead_of_mem hn
  have hrest : b.tokens = (pre ++ [(n.addr, .beginNode n.name)]) ++ rest := by simpa using htok
  have hlen := hps.length_le
  have hlt := h.rest_lt hstruct htok
  constructor
  · rw [fdtProps, h.propBegin_eq hstruct htok hps, ok_bind]
    exact h.propsFrom_eq hstruct hrest hps (by omega)
  · rw [fdtPropsNamed, h.getPropByName_begin hfuel hname htok hps (h.names n hn), ok_bind]
    exact h.propsNamedFrom_eq hfuel hname n.addr hrest hps (h.names n hn) (by omega)

/-- The properties of the `soc` node of `board`; the name of the only one is a suffix of another
string. -/
theorem fdtProps_board :
    fdtProps 1000 boardView 0x1000 0x111c = .ok [0x1124] ∧
      fdtPropsNamed 1000 boardView 0x1000 0x111c (CStr.lit (ascii "cells")) = .ok [0x1124] := by
  have hmem : boardSoc ∈ boardBlob.nodes := by decide
  have hnamed : named (ascii "cells") boardSoc.props = boardSoc.props := by decide
  have h := fdtProps_eq board_in board_fuel hmem
    (CStr.lit_is (s := ascii "cells") (by decide))
  rwa [hnamed] at h

end RiscyOs
