import RiscyOs.Fdt.Compatible
import RiscyOs.Syscon.Register

/-!
# What an init call makes of a tree

`Blob.sysconInit` is `syscon_init_generic_action` on the tree instead of the bytes: the first node
with the compatible string, the first node with its `regmap` for a phandle, and `initOutcome` of the
two. Cells are counted as the code counts them. It also says how the call ends otherwise: with
`KERR_NO_EXIST` or `KERR_INVALID`, or not at all when a bad phandle stands before the node that is
looked for.

* `init_eq_tree`: the code is this function, when the compatible strings are terminated.
* `sysconRun_iff_treeRun`: the runs of the init functions are the runs of this function.
-/

namespace RiscyOs

open ByteMemory

/-- The compatible string an init function looks for. -/
def SysconKind.string : SysconKind → List UInt8
  | shutdown => ascii "syscon-poweroff"
  | reboot => ascii "syscon-reboot"

theorem SysconKind.compat_is (kind : SysconKind) : kind.compat.Is kind.string := by
  cases kind <;> exact CStr.lit_is (by decide)

namespace Blob

/-- The values of `compatible` are lists of terminated strings. -/
def TerminatedLists (b : Blob) : Prop :=
  ∀ m ∈ b.nodes, ∀ p, m.prop? (ascii "compatible") = some p → tailOf p.value = []

/-- The first node the code takes for one with the phandle, with its ancestors. -/
def findCounted (b : Blob) (phandle : Nat) : Option (Node × List Node) :=
  b.paths.find? fun x => x.1.countsPhandle phandle

def sysconInit (b : Blob) (string : List UInt8) (action : GenericSysconAction) :
    Result (KError × GenericSysconAction) :=
  match b.nodes.find? fun n => n.compatibleWith string with
  | none => .ok (.noExist, { action with found := false })
  | some node =>
    match node.countedCell (ascii "regmap") with
    | none => .ok (.invalid, { action with found := false })
    | some phandle =>
      if ∀ n ∈ beforeCounted phandle b.nodes, n.badPhandle = false then
        match b.findCounted phandle with
        | none => .ok (.invalid, { action with found := false })
        | some (syscon, anc) =>
          .ok (initOutcome action node (blockCount syscon anc) (firstBlock syscon anc))
      else .error .outOfFuel

variable {b : Blob}

/-- That node, with and without its ancestors. -/
theorem findCounted_fst (b : Blob) (phandle : Nat) :
    (b.findCounted phandle).map Prod.fst =
      (b.nodes.filter fun n => n.countsPhandle phandle).head? := by
  rw [findCounted, ← b.paths_map_fst, List.filter_map, List.head?_map, List.head?_filter]
  rfl

end Blob

variable {c : InitCall}

/-- The search for the node of the action. -/
theorem findCompatible_eq (hlists : c.tree.TerminatedLists) :
    fdtFindCompatibleNode c.fuel (Mem.view c.mem) c.tree.fdt NULL c.kind.compat =
      .ok (nodesPtr (c.tree.nodes.filter fun n => n.compatibleWith c.kind.string)) := by
  have hlen : c.kind.string.length < c.fuel := by
    have hshort : c.kind.string.length < 40 := by cases c.kind <;> decide
    have := c.tree.header_le
    have := c.enough
    omega
  exact c.holds.findCompatible_after c.enough c.kind.compat_is hlen hlists (.inl ⟨rfl, rfl⟩)

/-- **The code is the function on the tree**, for all its results. -/
theorem init_eq_tree (hlists : c.tree.TerminatedLists) (action : GenericSysconAction) :
    sysconInitGenericAction c.fuel (Mem.view c.mem) c.tree.fdt c.kind.compat action =
      c.tree.sysconInit c.kind.string action := by
  have hin := c.holds
  have hfind := findCompatible_eq hlists
  rw [Blob.sysconInit, ← List.head?_filter]
  cases hnodes : c.tree.nodes.filter fun n => n.compatibleWith c.kind.string with
  | nil =>
    rw [hnodes] at hfind
    rw [sysconInitGenericAction, hfind, ok_bind]
    rfl
  | cons node rest =>
    rw [hnodes] at hfind
    have hptr : nodesPtr (node :: rest) = node.addr := rfl
    rw [hptr] at hfind
    have hn : node ∈ c.tree.nodes :=
      List.mem_of_mem_filter (hnodes ▸ List.mem_cons_self : node ∈ c.tree.nodes.filter _)
    rw [List.head?_cons]
    dsimp only
    cases hregmap : node.countedCell (ascii "regmap") with
    | none =>
      rw [sysconInitGenericAction, hfind, ok_bind, if_neg (hin.addr_ne hn),
        hin.oneCellProp_eq c.enough hn (by decide), ok_bind, hregmap]
      rfl
    | some phandle =>
      have hphandle : fdtFindNodeByPhandle c.fuel (Mem.view c.mem) c.tree.fdt NULL phandle =
          phandleSearch phandle c.tree.nodes :=
        hin.findNodeByPhandle_eq c.enough (.inl ⟨rfl, rfl⟩) phandle
      have hsearch := phandleSearch_eq phandle c.tree.nodes
      have hfst := c.tree.findCounted_fst phandle
      dsimp only
      by_cases hgood : ∀ n ∈ beforeCounted phandle c.tree.nodes, n.badPhandle = false
      · rw [if_pos hgood] at hsearch ⊢
        cases hfound : c.tree.findCounted phandle with
        | none =>
          rw [hfound] at hfst
          have hnil : (c.tree.nodes.filter fun n => n.countsPhandle phandle) = [] :=
            List.head?_eq_none_iff.1 hfst.symm
          rw [hnil] at hsearch
          rw [sysconInitGenericAction, hfind, ok_bind, if_neg (hin.addr_ne hn),
            hin.oneCellProp_eq c.enough hn (by decide), ok_bind, hregmap]
          dsimp only
          rw [hphandle, hsearch]
          rfl
        | some x =>
          obtain ⟨syscon, anc⟩ := x
          rw [hfound] at hfst
          have hpath : (syscon, anc) ∈ c.tree.paths := List.mem_of_find?_eq_some hfound
          exact init_eq ⟨hfind, hn, ⟨phandle, hregmap, hfst.symm⟩, hpath⟩ hregmap hsearch action
      · rw [if_neg hgood] at hsearch ⊢
        rw [sysconInitGenericAction, hfind, ok_bind, if_neg (hin.addr_ne hn),
          hin.oneCellProp_eq c.enough hn (by decide), ok_bind, hregmap]
        dsimp only
        rw [hphandle, hsearch]
        rfl

/-! ## Runs -/

def SysconState.setAction (s : SysconState) (action : GenericSysconAction) :
    SysconKind → SysconState
  | .shutdown => { s with shutdownAction := action }
  | .reboot => { s with rebootAction := action }

/-- An init call on the tree. -/
def Blob.sysconCall (b : Blob) (kind : SysconKind) (s : SysconState) :
    Result (KError × SysconState) := do
  let (err, action) ← b.sysconInit kind.string (s.action kind)
  return (err, s.setAction action kind)

/-- Both init functions are the call on the tree. -/
theorem InitCall.run_eq_tree (hlists : c.tree.TerminatedLists) (s : SysconState) :
    c.run s = c.tree.sysconCall c.kind s := by
  have hinit := init_eq_tree hlists (s.action c.kind)
  rw [InitCall.run, Blob.sysconCall, ← hinit]
  cases c.kind <;> rfl

/-- `TreeRun past s`: the calls on trees in `past`, the last one first, returned what stands beside
them and left the state `s`. -/
inductive TreeRun : List ((SysconKind × Blob) × KError) → SysconState → Prop
  | initial : TreeRun [] SysconState.initial
  | call {past : List ((SysconKind × Blob) × KError)} {s s' : SysconState} {kind : SysconKind}
      {b : Blob} {err : KError} :
      TreeRun past s → b.sysconCall kind s = .ok (err, s') → TreeRun (((kind, b), err) :: past) s'

/-- What a call is on the tree. -/
def InitCall.onTree (x : InitCall × KError) : (SysconKind × Blob) × KError :=
  ((x.1.kind, x.1.tree), x.2)

/-- **The runs of the init functions are the runs on trees**: each call returns what its tree says,
and leaves the state so. -/
theorem sysconRun_iff_treeRun {past : List (InitCall × KError)}
    (hlists : ∀ x ∈ past, x.1.tree.TerminatedLists) (s : SysconState) :
    SysconRun past s ↔ TreeRun (past.map InitCall.onTree) s := by
  induction past generalizing s with
  | nil =>
    constructor <;> rintro ⟨⟩
    · exact .initial
    · exact .initial
  | cons x past ih =>
    have hx := hlists x List.mem_cons_self
    have hrest := ih fun y hy => hlists y (List.mem_cons_of_mem x hy)
    constructor
    · rintro (_ | ⟨hpast, hcall⟩)
      rw [InitCall.run_eq_tree hx] at hcall
      exact .call ((hrest _).1 hpast) hcall
    · intro hrun
      rw [List.map_cons] at hrun
      cases hrun with
      | call hpast hcall =>
        exact .call ((hrest _).2 hpast) ((InitCall.run_eq_tree hx _).trans hcall)

theorem zeroCall_lists : zeroCall.tree.TerminatedLists := by
  have hall : ∀ m ∈ zeroCall.tree.nodes,
      (m.prop? (ascii "compatible")).all (fun p => tailOf p.value = []) = true := by decide
  intro m hm p hp
  have hp' := hall m hm
  rw [hp] at hp'
  exact of_decide_eq_true hp'

/-- The run of one call, with the poweroff node at the offset `0`. -/
theorem sysconRun_iff_treeRun_zero :
    SysconRun [(zeroCall, .success)] (shutdownState 0x100000) ∧
      TreeRun [((.shutdown, zeroCall.tree), .success)] (shutdownState 0x100000) := by
  have hlists : ∀ x ∈ [(zeroCall, KError.success)], x.1.tree.TerminatedLists := by
    intro x hx
    rw [List.mem_singleton.1 hx]
    exact zeroCall_lists
  have hrun : SysconRun [(zeroCall, .success)] (shutdownState 0x100000) :=
    .call .initial zeroCall_run
  exact ⟨hrun, (sysconRun_iff_treeRun hlists _).1 hrun⟩

end RiscyOs
