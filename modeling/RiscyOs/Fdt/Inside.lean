import RiscyOs.Fdt.Token

/-!
# What the traversal reads

The header is read through one view, the structure block through another one that has nothing but
the block. `ReadsInside` says that no call of the traversal functions reads past it, and
`traversal_inside_iff` when that is so, whatever bytes the block holds: `fdt_struct_ptr_invalid`
looks at where a token starts, but not at where it ends.
-/

namespace RiscyOs

open ByteMemory FuelLoop

/-! ## The functions over two views -/

section

variable (fuel : Nat) (hdr v : View) (fdt : Nat)

/-- One pass of the loop of `fdt_next_token_after_node`. -/
def afterNodeStepIn : Nat × Int → Result ((Nat × Int) ⊕ Nat) := fun (tokenPtr, depth) => do
  let token ← be32 v tokenPtr
  let depth := depthAfter token depth
  let tokenPtr ← fdtNextTokenIn fuel hdr v fdt tokenPtr
  if tokenPtr = NULL then return .inr NULL
  if depth > 0 then return .inl (tokenPtr, depth)
  return .inr tokenPtr

def fdtNextTokenAfterNodeIn (node : Nat) : Result Nat :=
  if node = NULL then .ok NULL
  else loop .outOfFuel (afterNodeStepIn fuel hdr v fdt) fuel (node, 0)

section
variable {σ ρ : Type}

/-- One pass of a token loop. -/
def tokenStepIn (visit : Nat → Nat → σ → σ ⊕ ρ) (none : σ → ρ) :
    Nat × σ → Result ((Nat × σ) ⊕ ρ) := fun (tokenPtr, s) => do
  if tokenPtr = NULL then return .inr (none s)
  let token ← be32 v tokenPtr
  match visit token tokenPtr s with
  | .inr r => return .inr r
  | .inl s =>
    let tokenPtr ← fdtNextTokenIn fuel hdr v fdt tokenPtr
    return .inl (tokenPtr, s)

def tokenLoopIn (visit : Nat → Nat → σ → σ ⊕ ρ) (none : σ → ρ) (token : Nat) (s : σ) : Result ρ :=
  loop .outOfFuel (tokenStepIn fuel hdr v fdt visit none) fuel (token, s)

end

def fdtNodeBeginIn : Result Nat := do
  let token ← fdtTokenBegin hdr fdt
  tokenLoopIn fuel hdr v fdt
    (fun token ptr _ => if token = FDT_BEGIN_NODE then .inr ptr else .inl ()) (fun _ => NULL)
    token ()

def fdtNextNodeIn (node : Nat) (depth : Option Int) : Result (Nat × Option Int) := do
  let token ← fdtNextTokenIn fuel hdr v fdt node
  tokenLoopIn fuel hdr v fdt (nextNodeVisit depth) (fun _ => (NULL, depth)) token 1

def fdtNodePropBeginIn (node : Nat) : Result Nat := do
  let token ← fdtNextTokenIn fuel hdr v fdt node
  tokenLoopIn fuel hdr v fdt propVisit (fun _ => NULL) token ()

def fdtNodeNextPropIn (prop : Nat) : Result Nat := do
  let token ← fdtNextTokenIn fuel hdr v fdt prop
  tokenLoopIn fuel hdr v fdt propVisit (fun _ => NULL) token ()

def fdtNodeSubnodeBeginIn (node : Nat) : Result Nat := do
  let token ← fdtNextTokenIn fuel hdr v fdt node
  tokenLoopIn fuel hdr v fdt subnodeVisit (fun _ => NULL) token ()

def fdtNodeNextSubnodeIn (subnode : Nat) : Result Nat := do
  let token ← fdtNextTokenAfterNodeIn fuel hdr v fdt subnode
  tokenLoopIn fuel hdr v fdt subnodeVisit (fun _ => NULL) token ()

end

/-- With one view for both they are the functions of the source. -/
theorem traversal_self (fuel : Nat) (v : View) (fdt : Nat) :
    fdtNodeBeginIn fuel v v fdt = fdtNodeBegin fuel v fdt ∧
    fdtNextNodeIn fuel v v fdt = fdtNextNode fuel v fdt ∧
    fdtNodePropBeginIn fuel v v fdt = fdtNodePropBegin fuel v fdt ∧
    fdtNodeNextPropIn fuel v v fdt = fdtNodeNextProp fuel v fdt ∧
    fdtNodeSubnodeBeginIn fuel v v fdt = fdtNodeSubnodeBegin fuel v fdt ∧
    fdtNodeNextSubnodeIn fuel v v fdt = fdtNodeNextSubnode fuel v fdt :=
  ⟨rfl, rfl, rfl, rfl, rfl, rfl⟩

/-! ## Nodes and properties -/

/-- The nodes the traversal functions return, one call after the other. -/
inductive NodeObtained (fuel : Nat) (v : View) (fdt : Nat) : Nat → Prop
  | begin {node : Nat} : fdtNodeBegin fuel v fdt = .ok node → node ≠ NULL →
      NodeObtained fuel v fdt node
  | next {node next : Nat} {depth depth' : Option Int} : NodeObtained fuel v fdt node →
      fdtNextNode fuel v fdt node depth = .ok (next, depth') → next ≠ NULL →
      NodeObtained fuel v fdt next
  | subnodeBegin {node subnode : Nat} : NodeObtained fuel v fdt node →
      fdtNodeSubnodeBegin fuel v fdt node = .ok subnode → subnode ≠ NULL →
      NodeObtained fuel v fdt subnode
  | nextSubnode {subnode next : Nat} : NodeObtained fuel v fdt subnode →
      fdtNodeNextSubnode fuel v fdt subnode = .ok next → next ≠ NULL →
      NodeObtained fuel v fdt next

/-- The properties they return. -/
inductive PropObtained (fuel : Nat) (v : View) (fdt : Nat) : Nat → Prop
  | begin {node prop : Nat} : NodeObtained fuel v fdt node →
      fdtNodePropBegin fuel v fdt node = .ok prop → prop ≠ NULL → PropObtained fuel v fdt prop
  | next {prop next : Nat} : PropObtained fuel v fdt prop →
      fdtNodeNextProp fuel v fdt prop = .ok next → next ≠ NULL → PropObtained fuel v fdt next

/-- On nodes and properties obtained in `v`, no traversal function reads outside `w`. -/
structure ReadsInside (fuel : Nat) (v w : View) (fdt : Nat) : Prop where
  nodeBegin : fdtNodeBeginIn fuel v w fdt ≠ .error .unmapped
  nextNode : ∀ node, NodeObtained fuel v fdt node → ∀ depth,
    fdtNextNodeIn fuel v w fdt node depth ≠ .error .unmapped
  propBegin : ∀ node, NodeObtained fuel v fdt node →
    fdtNodePropBeginIn fuel v w fdt node ≠ .error .unmapped
  nextProp : ∀ prop, PropObtained fuel v fdt prop →
    fdtNodeNextPropIn fuel v w fdt prop ≠ .error .unmapped
  subnodeBegin : ∀ node, NodeObtained fuel v fdt node →
    fdtNodeSubnodeBeginIn fuel v w fdt node ≠ .error .unmapped
  nextSubnode : ∀ node, NodeObtained fuel v fdt node →
    fdtNodeNextSubnodeIn fuel v w fdt node ≠ .error .unmapped

/-! ## The tokens of the block -/

/-- The tokens that `fdt_next_token` comes to from the start of the block: each one starts in the
block, the first one whatever the size of the block is. -/
inductive Reached (v : View) (start stop : Nat) : Nat → Prop
  | start : Reached v start stop start
  | next {a word next : Nat} : Reached v start stop a → Follows v a word next → next < stop →
      Reached v start stop next

/-- What is read at the token lies before `stop`: its word, the name of a node with its terminator,
the length of a property. -/
structure TokenInside (v : View) (stop a : Nat) : Prop where
  word : a + 4 ≤ stop
  name : be32 v a = .ok FDT_BEGIN_NODE →
    ∃ name, v.HoldsStr (a + 4) name ∧ a + 4 + name.length < stop
  length : be32 v a = .ok FDT_PROP → a + 8 ≤ stop

/-! ## A run on part of memory -/

section

variable {fuel fdt start size a r : Nat} {hdr v : View} {σ ρ : Type}
  {visit : Nat → Nat → σ → σ ⊕ ρ} {none : σ → ρ}

/-- What is returned on part of memory is returned on all of it. -/
theorem fdtNextTokenIn_of_only (h : fdtNextTokenIn fuel hdr (v.only start size) fdt a = .ok r) :
    fdtNextTokenIn fuel hdr v fdt a = .ok r := by
  unfold fdtNextTokenIn at h ⊢
  by_cases hnull : a = NULL
  · rw [if_pos hnull] at h
    cases h
  · rw [if_neg hnull] at h ⊢
    obtain ⟨val, hval, h⟩ := bind_eq_ok.1 h
    rw [(be32_of_only hval).1, ok_bind]
    split_ifs at h ⊢
    · exact h
    · obtain ⟨len, hlen, h⟩ := bind_eq_ok.1 h
      rw [strlen_of_only hlen]
      exact h
    · obtain ⟨len, hlen, h⟩ := bind_eq_ok.1 h
      rw [fdtPropValLen, (be32_of_only hlen).1]
      exact h
    · exact h

theorem tokenLoopIn_of_only {s : σ} {x : ρ}
    (h : tokenLoopIn fuel hdr (v.only start size) fdt visit none a s = .ok x) :
    tokenLoopIn fuel hdr v fdt visit none a s = .ok x := by
  refine loop_mono (fun st y hy => ?_) h
  obtain ⟨c, s⟩ := st
  unfold tokenStepIn at hy ⊢
  dsimp only at hy ⊢
  split_ifs at hy ⊢
  · exact hy
  · obtain ⟨word, hword, hy⟩ := bind_eq_ok.1 hy
    rw [(be32_of_only hword).1, ok_bind]
    cases hvisit : visit word c s with
    | inr z =>
      rw [hvisit] at hy
      exact hy
    | inl s' =>
      rw [hvisit] at hy
      obtain ⟨next, hnext, hy⟩ := bind_eq_ok.1 hy
      dsimp only
      rw [fdtNextTokenIn_of_only hnext]
      exact hy

end

/-! ## Runs over tokens that are inside -/

/-- At every address of `Good` there is a token to be read in `w`, and the next one, if there is
one, is of `Good` again. -/
structure Chained (fuel : Nat) (hdr w : View) (fdt stop : Nat) (Good : Nat → Prop) : Prop where
  ne_null : ∀ a, Good a → a ≠ NULL
  lt : ∀ a, Good a → a < stop
  word : ∀ a, Good a → ∃ word, be32 w a = .ok word
  next : ∀ a, Good a → ∃ next, fdtNextTokenIn fuel hdr w fdt a = .ok next ∧
    (next = NULL ∨ Good next ∧ a < next)

/-- How much of the block lies behind the token, and nothing behind `NULL`. -/
def bytesLeft (stop a : Nat) : Nat := if a = NULL then 0 else stop - a

/-- `NULL`, or an address of `Good` with the given word. -/
def Found (w : View) (Good : Nat → Prop) (word r : Nat) : Prop :=
  r = NULL ∨ Good r ∧ be32 w r = .ok word

namespace Chained

variable {fuel fdt stop a n : Nat} {hdr w : View} {Good : Nat → Prop} {σ ρ : Type}
  {visit : Nat → Nat → σ → σ ⊕ ρ} {none : σ → ρ} {P : ρ → Prop}

theorem bytesLeft_lt {next : Nat} (h : Chained fuel hdr w fdt stop Good) (ha : Good a)
    (hnext : next = NULL ∨ Good next ∧ a < next) : bytesLeft stop next < bytesLeft stop a := by
  have hlt := h.lt a ha
  unfold bytesLeft
  rw [if_neg (h.ne_null a ha)]
  split_ifs with hnull
  · omega
  · have := (hnext.resolve_left hnull).2
    omega

theorem bytesLeft_lt_fuel (h : Chained fuel hdr w fdt stop Good)
    (hfuel : ∀ a, Good a → stop < fuel + a) (hpos : 0 < fuel) (ha : a = NULL ∨ Good a) :
    bytesLeft stop a < fuel := by
  unfold bytesLeft
  split_ifs with hnull
  · exact hpos
  · have hgood := ha.resolve_left hnull
    have := hfuel a hgood
    have := h.lt a hgood
    omega

/-- A token loop returns, and what it returns is what it returned at some token, or its default. -/
theorem tokenLoop_ok (h : Chained fuel hdr w fdt stop Good) (hnone : ∀ s, P (none s))
    (hvisit : ∀ word ptr s r, Good ptr → be32 w ptr = .ok word → visit word ptr s = .inr r → P r)
    (hfuel : ∀ a, Good a → stop < fuel + a) (hpos : 0 < fuel) (ha : a = NULL ∨ Good a) (s : σ) :
    ∃ r, tokenLoopIn fuel hdr w fdt visit none a s = .ok r ∧ P r := by
  rw [tokenLoopIn]
  refine loop_variant (fun st => st.1 = NULL ∨ Good st.1) (fun st => bytesLeft stop st.1) ?_ ha ?_
  · rintro ⟨b, s⟩ hb
    by_cases hnull : b = NULL
    · subst hnull
      exact .inl ⟨none s, rfl, hnone s⟩
    have hgood := hb.resolve_left hnull
    obtain ⟨word, hword⟩ := h.word b hgood
    cases hv : visit word b s with
    | inr r =>
      refine .inl ⟨r, ?_, hvisit word b s r hgood hword hv⟩
      simp only [tokenStepIn, if_neg hnull, hword, ok_bind, hv, pure_eq_ok]
    | inl s' =>
      obtain ⟨next, hnext, hcase⟩ := h.next b hgood
      refine .inr ⟨(next, s'), ?_, hcase.imp_right And.left, h.bytesLeft_lt hgood hcase⟩
      simp only [tokenStepIn, if_neg hnull, hword, ok_bind, hv, hnext, pure_eq_ok]
  · exact h.bytesLeft_lt_fuel hfuel hpos ha

/-- The tokens behind `c` form a chain of their own. -/
theorem after (h : Chained fuel hdr w fdt stop Good) (c : Nat) :
    Chained fuel hdr w fdt stop fun b => Good b ∧ c < b where
  ne_null := fun b hb => h.ne_null b hb.1
  lt := fun b hb => h.lt b hb.1
  word := fun b hb => h.word b hb.1
  next := fun b hb => by
    obtain ⟨next, hnext, hcase⟩ := h.next b hb.1
    exact ⟨next, hnext, hcase.imp_right fun hgood => ⟨⟨hgood.1, hb.2.trans hgood.2⟩, hgood.2⟩⟩

/-- A token loop from the token after `a`. -/
theorem nextLoop_ok (h : Chained fuel hdr w fdt stop Good) (hnone : ∀ s, P (none s))
    (hvisit : ∀ word ptr s r, Good ptr ∧ a < ptr → be32 w ptr = .ok word →
      visit word ptr s = .inr r → P r)
    (hfuel : ∀ a, Good a → stop < fuel + a) (hpos : 0 < fuel) (ha : Good a) (s : σ) :
    ∃ r, (fdtNextTokenIn fuel hdr w fdt a >>= fun token =>
      tokenLoopIn fuel hdr w fdt visit none token s) = .ok r ∧ P r := by
  obtain ⟨next, hnext, hcase⟩ := h.next a ha
  rw [hnext, ok_bind]
  exact (h.after a).tokenLoop_ok hnone hvisit (fun b hb => hfuel b hb.1) hpos
    (hcase.imp_right id) s

/-- The token after the node at `a`. -/
theorem nextTokenAfterNode_ok (h : Chained fuel hdr w fdt stop Good)
    (hfuel : ∀ a, Good a → stop < fuel + a) (ha : Good a) :
    ∃ r, fdtNextTokenAfterNodeIn fuel hdr w fdt a = .ok r ∧ (r = NULL ∨ Good r ∧ a < r) := by
  rw [fdtNextTokenAfterNodeIn, if_neg (h.ne_null a ha)]
  refine loop_variant (fun st => Good st.1 ∧ a ≤ st.1) (fun st => stop - st.1) ?_ ⟨ha, le_rfl⟩ ?_
  · rintro ⟨b, depth⟩ ⟨hgood, hle⟩
    dsimp only at hgood hle
    have hlt := h.lt b hgood
    obtain ⟨word, hword⟩ := h.word b hgood
    obtain ⟨next, hnext, hcase⟩ := h.next b hgood
    by_cases hnull : next = NULL
    · refine .inl ⟨NULL, ?_, .inl rfl⟩
      simp only [afterNodeStepIn, hword, ok_bind, hnext, if_pos hnull, pure_eq_ok]
    obtain ⟨hgood', hforward⟩ := hcase.resolve_left hnull
    by_cases hdepth : depthAfter word depth > 0
    · refine .inr ⟨(next, depthAfter word depth), ?_, ⟨hgood', hle.trans hforward.le⟩, ?_⟩
      · simp only [afterNodeStepIn, hword, ok_bind, hnext, if_neg hnull, if_pos hdepth, pure_eq_ok]
      · dsimp only
        omega
    · refine .inl ⟨next, ?_, .inr ⟨hgood', hle.trans_lt hforward⟩⟩
      simp only [afterNodeStepIn, hword, ok_bind, hnext, if_neg hnull, if_neg hdepth, pure_eq_ok]
  · have := hfuel a ha
    have := h.lt a ha
    dsimp only
    omega

/-! What the traversal functions return. -/

theorem nodeBegin_ok (h : Chained fuel hdr w fdt stop Good) (hfuel : ∀ a, Good a → stop < fuel + a)
    (hpos : 0 < fuel) {start : Nat} (hbegin : fdtTokenBegin hdr fdt = .ok start)
    (hstart : Good start) :
    ∃ r, fdtNodeBeginIn fuel hdr w fdt = .ok r ∧ Found w Good FDT_BEGIN_NODE r := by
  rw [fdtNodeBeginIn, hbegin, ok_bind]
  refine h.tokenLoop_ok (fun _ => .inl rfl) (fun word ptr _ r hptr hword hr => ?_) hfuel hpos
    (.inr hstart) ()
  split_ifs at hr with hbegin
  cases hr
  exact .inr ⟨hptr, hbegin ▸ hword⟩

theorem nextNode_ok (h : Chained fuel hdr w fdt stop Good) (hfuel : ∀ a, Good a → stop < fuel + a)
    (hpos : 0 < fuel) (ha : Good a) (depth : Option Int) :
    ∃ r, fdtNextNodeIn fuel hdr w fdt a depth = .ok r ∧
      Found w (fun b => Good b ∧ a < b) FDT_BEGIN_NODE r.1 := by
  refine h.nextLoop_ok
    (P := fun r : Nat × Option Int => Found w (fun b => Good b ∧ a < b) FDT_BEGIN_NODE r.1)
    (fun _ => .inl rfl) (fun word ptr _ r hptr hword hr => ?_) hfuel hpos ha 1
  unfold nextNodeVisit at hr
  dsimp only at hr
  by_cases hbegin : word = FDT_BEGIN_NODE
  · rw [if_pos hbegin] at hr
    cases hr
    exact .inr ⟨hptr, hbegin ▸ hword⟩
  · rw [if_neg hbegin] at hr
    cases hr

theorem propVisit_ok {word ptr r : Nat} (hptr : Good ptr) (hword : be32 w ptr = .ok word)
    (hr : propVisit word ptr () = .inr r) : Found w Good FDT_PROP r := by
  unfold propVisit at hr
  split_ifs at hr with hprop
  · cases hr
    exact .inr ⟨hptr, hprop ▸ hword⟩
  · exact .inl (Sum.inr.inj hr).symm

theorem subnodeVisit_ok {word ptr r : Nat} (hptr : Good ptr) (hword : be32 w ptr = .ok word)
    (hr : subnodeVisit word ptr () = .inr r) : Found w Good FDT_BEGIN_NODE r := by
  unfold subnodeVisit at hr
  split_ifs at hr with hbegin
  · cases hr
    exact .inr ⟨hptr, hbegin ▸ hword⟩
  · exact .inl (Sum.inr.inj hr).symm

theorem propBegin_ok (h : Chained fuel hdr w fdt stop Good) (hfuel : ∀ a, Good a → stop < fuel + a)
    (hpos : 0 < fuel) (ha : Good a) :
    ∃ r, fdtNodePropBeginIn fuel hdr w fdt a = .ok r ∧
      Found w (fun b => Good b ∧ a < b) FDT_PROP r :=
  h.nextLoop_ok (fun _ => .inl rfl) (fun _ _ _ _ hptr => propVisit_ok hptr) hfuel hpos ha ()

theorem nextProp_ok (h : Chained fuel hdr w fdt stop Good) (hfuel : ∀ a, Good a → stop < fuel + a)
    (hpos : 0 < fuel) (ha : Good a) :
    ∃ r, fdtNodeNextPropIn fuel hdr w fdt a = .ok r ∧
      Found w (fun b => Good b ∧ a < b) FDT_PROP r :=
  h.nextLoop_ok (fun _ => .inl rfl) (fun _ _ _ _ hptr => propVisit_ok hptr) hfuel hpos ha ()

theorem subnodeBegin_ok (h : Chained fuel hdr w fdt stop Good)
    (hfuel : ∀ a, Good a → stop < fuel + a) (hpos : 0 < fuel) (ha : Good a) :
    ∃ r, fdtNodeSubnodeBeginIn fuel hdr w fdt a = .ok r ∧
      Found w (fun b => Good b ∧ a < b) FDT_BEGIN_NODE r :=
  h.nextLoop_ok (fun _ => .inl rfl) (fun _ _ _ _ hptr => subnodeVisit_ok hptr) hfuel hpos ha ()

theorem nextSubnode_ok (h : Chained fuel hdr w fdt stop Good)
    (hfuel : ∀ a, Good a → stop < fuel + a) (hpos : 0 < fuel) (ha : Good a) :
    ∃ r, fdtNodeNextSubnodeIn fuel hdr w fdt a = .ok r ∧
      Found w (fun b => Good b ∧ a < b) FDT_BEGIN_NODE r := by
  obtain ⟨next, hnext, hcase⟩ := h.nextTokenAfterNode_ok hfuel ha
  rw [fdtNodeNextSubnodeIn, hnext, ok_bind]
  exact (h.after a).tokenLoop_ok (fun _ => .inl rfl) (fun _ _ _ _ hptr => subnodeVisit_ok hptr)
    (fun b hb => hfuel b hb.1) hpos hcase ()

/-- What is obtained is of `Good`. -/
theorem good_of_nodeObtained (h : Chained fuel w w fdt stop Good)
    (hfuel : ∀ a, Good a → stop < fuel + a) (hpos : 0 < fuel) {start : Nat}
    (hbegin : fdtTokenBegin w fdt = .ok start) (hstart : Good start)
    (ha : NodeObtained fuel w fdt a) : Good a := by
  obtain ⟨hfirst, hnext, -, -, hsub, hnextSub⟩ := traversal_self fuel w fdt
  induction ha with
  | begin hrun hne =>
    obtain ⟨r, hr, hcase⟩ := h.nodeBegin_ok hfuel hpos hbegin hstart
    rw [hfirst] at hr
    cases hr.symm.trans hrun
    exact (hcase.resolve_left hne).1
  | next _ hrun hne ih =>
    obtain ⟨r, hr, hcase⟩ := h.nextNode_ok hfuel hpos ih _
    rw [hnext] at hr
    cases hr.symm.trans hrun
    exact (hcase.resolve_left hne).1.1
  | subnodeBegin _ hrun hne ih =>
    obtain ⟨r, hr, hcase⟩ := h.subnodeBegin_ok hfuel hpos ih
    rw [hsub] at hr
    cases hr.symm.trans hrun
    exact (hcase.resolve_left hne).1.1
  | nextSubnode _ hrun hne ih =>
    obtain ⟨r, hr, hcase⟩ := h.nextSubnode_ok hfuel hpos ih
    rw [hnextSub] at hr
    cases hr.symm.trans hrun
    exact (hcase.resolve_left hne).1.1

theorem good_of_propObtained (h : Chained fuel w w fdt stop Good)
    (hfuel : ∀ a, Good a → stop < fuel + a) (hpos : 0 < fuel) {start : Nat}
    (hbegin : fdtTokenBegin w fdt = .ok start) (hstart : Good start)
    (ha : PropObtained fuel w fdt a) : Good a := by
  obtain ⟨-, -, hfirst, hnext, -, -⟩ := traversal_self fuel w fdt
  induction ha with
  | begin hnode hrun hne =>
    obtain ⟨r, hr, hcase⟩ :=
      h.propBegin_ok hfuel hpos (h.good_of_nodeObtained hfuel hpos hbegin hstart hnode)
    rw [hfirst] at hr
    cases hr.symm.trans hrun
    exact (hcase.resolve_left hne).1.1
  | next _ hrun hne ih =>
    obtain ⟨r, hr, hcase⟩ := h.nextProp_ok hfuel hpos ih
    rw [hnext] at hr
    cases hr.symm.trans hrun
    exact (hcase.resolve_left hne).1.1

end Chained

/-! ## Tokens that are inside are read inside -/

section

variable {fuel fdt start size stop a word next : Nat} {v w : View}

/-- A token that is inside is the same in every view that agrees on the block. -/
theorem Follows.of_agrees (h : Follows v a word next) (hin : TokenInside v stop a)
    (hlo : start ≤ a) (hag : View.Agrees v w start stop) : Follows w a word next := by
  have hwordIn := hin.word
  have hword : be32 w a = be32 v a := be32_of_agrees (hag.mono hlo hin.word)
  have hbe := hword.trans h.word_eq
  cases h with
  | nop _ => exact .nop hbe
  | endNode _ => exact .endNode hbe
  | beginNode hv hname =>
    obtain ⟨name, hname', hlt⟩ := hin.name hv
    obtain rfl := hname.unique hname'
    exact .beginNode hbe (hname.of_agrees (hag.mono (by omega) (by omega)))
  | prop hv hlen =>
    have hle := hin.length hv
    refine .prop hbe (Eq.trans ?_ hlen)
    exact be32_of_agrees (hag.mono (by omega) (by omega))

/-- There is a next token, or the word is none to go on from. -/
theorem follows_cases (hv : v.Total)
    (hname : be32 v a = .ok FDT_BEGIN_NODE → ∃ name, v.HoldsStr (a + 4) name) :
    ∃ word, be32 v a = .ok word ∧ ((∃ next, Follows v a word next) ∨
      word ≠ FDT_NOP ∧ word ≠ FDT_END_NODE ∧ word ≠ FDT_BEGIN_NODE ∧ word ≠ FDT_PROP) := by
  obtain ⟨word, hword⟩ := be32_total hv a
  refine ⟨word, hword, ?_⟩
  by_cases hnop : word = FDT_NOP
  · subst hnop
    exact .inl ⟨_, .nop hword⟩
  by_cases hend : word = FDT_END_NODE
  · subst hend
    exact .inl ⟨_, .endNode hword⟩
  by_cases hbegin : word = FDT_BEGIN_NODE
  · subst hbegin
    obtain ⟨name, hname⟩ := hname hword
    exact .inl ⟨_, .beginNode hword hname⟩
  by_cases hprop : word = FDT_PROP
  · subst hprop
    obtain ⟨len, hlen⟩ := be32_total hv (a + 4)
    exact .inl ⟨_, .prop hword hlen⟩
  exact .inr ⟨hnop, hend, hbegin, hprop⟩

/-- How far off the next token can be. -/
theorem Follows.bounds (h : Follows v a word next) (hb : BlockAt v fdt start stop)
    (hin : TokenInside v stop a) (hfuel : stop < start + fuel) (hlo : start ≤ a) :
    next < 2 ^ 64 + start ∧ (word = FDT_BEGIN_NODE → next < a + 4 + fuel) := by
  have hwordIn := hin.word
  have hshort := hb.short
  have hstop := hb.stop_lt
  cases h with
  | nop _ => exact ⟨by omega, fun h => absurd h (by decide)⟩
  | endNode _ => exact ⟨by omega, fun h => absurd h (by decide)⟩
  | beginNode hv hname =>
    obtain ⟨name, hname', hlt⟩ := hin.name hv
    obtain rfl := hname.unique hname'
    unfold Token.padded
    omega
  | prop hv hlen =>
    have hlt : _ < 2 ^ 32 := be32_lt hlen
    refine ⟨?_, fun h => absurd h (by decide)⟩
    unfold Token.padded
    omega

/-- In a view of the block `fdt_next_token` comes to the next token, if it starts there. -/
theorem Follows.nextTokenIn_eq (h : Follows v a word next) (hb : BlockAt v fdt start stop)
    (hin : TokenInside v stop a) (hfuel : stop < start + fuel) (hlo : start ≤ a)
    (hag : View.Agrees v w start stop) :
    fdtNextTokenIn fuel v w fdt a = .ok (if next < stop then next else NULL) := by
  obtain ⟨hwrap, hroom⟩ := h.bounds hb hin hfuel hlo
  exact fdtNextTokenIn_eq hb hlo (h.of_agrees hin hlo hag) hwrap hroom

theorem Reached.le (h : Reached v start stop a) : start ≤ a := by
  induction h with
  | start => exact le_rfl
  | next _ hf _ ih => exact ih.trans ((Nat.le_add_right _ 4).trans hf.le)

/-- **Where every token is inside, the tokens form a chain**, in every view of the block. -/
theorem chained_of_inside (hv : v.Total) (hb : BlockAt v fdt start stop)
    (hfuel : stop < start + fuel) (hin : ∀ a, Reached v start stop a → TokenInside v stop a)
    (hag : View.Agrees v w start stop) :
    Chained fuel v w fdt stop (Reached v start stop) where
  ne_null := fun a ha => (hb.pos.trans_le ha.le).ne'
  lt := fun a ha => by
    have := (hin a ha).word
    omega
  word := fun a ha => by
    obtain ⟨word, hword⟩ := be32_total hv a
    exact ⟨word, (be32_of_agrees (hag.mono ha.le (hin a ha).word)).trans hword⟩
  next := fun a ha => by
    have hlo := ha.le
    obtain ⟨word, hword, ⟨next, hnext⟩ | ⟨hnop, hend, hbegin, hprop⟩⟩ :=
      follows_cases hv fun h => ((hin a ha).name h).imp fun _ h => h.1
    · have hle := hnext.le
      refine ⟨_, hnext.nextTokenIn_eq hb (hin a ha) hfuel hlo hag, ?_⟩
      split_ifs with hlt
      · exact .inr ⟨ha.next hnext hlt, by omega⟩
      · exact .inl rfl
    · have hword' := (be32_of_agrees (hag.mono hlo (hin a ha).word)).trans hword
      exact ⟨NULL, fdtNextTokenIn_stop hb (hb.pos.trans_le hlo).ne' hword' hnop hend hbegin hprop,
        .inl rfl⟩

/-- No call reads outside the block when every token is inside. -/
theorem readsInside_of_inside (hv : v.Total) (hb : BlockAt v fdt start (start + size))
    (hfuel : size < fuel)
    (hin : ∀ a, Reached v start (start + size) a → TokenInside v (start + size) a) :
    ReadsInside fuel v (v.only start size) fdt := by
  have hstop : start + size < start + fuel := Nat.add_lt_add_left hfuel start
  have hpos : 0 < fuel := by omega
  have hroom : ∀ a, Reached v start (start + size) a → start + size < fuel + a := fun a ha => by
    have := ha.le
    omega
  have hpart := chained_of_inside hv hb hstop hin (v.agrees_only start size)
  have hall := chained_of_inside hv hb hstop hin fun _ _ _ => rfl
  have hne : ∀ {α : Type} {x : Result α} {P : α → Prop}, (∃ r, x = .ok r ∧ P r) →
      x ≠ .error .unmapped := by
    rintro α x P ⟨r, rfl, -⟩ h
    cases h
  exact
    { nodeBegin := hne (hpart.nodeBegin_ok hroom hpos hb.tokenBegin_eq .start)
      nextNode := fun node h depth => hne (hpart.nextNode_ok hroom hpos
        (hall.good_of_nodeObtained hroom hpos hb.tokenBegin_eq .start h) depth)
      propBegin := fun node h => hne (hpart.propBegin_ok hroom hpos
        (hall.good_of_nodeObtained hroom hpos hb.tokenBegin_eq .start h))
      nextProp := fun prop h => hne (hpart.nextProp_ok hroom hpos
        (hall.good_of_propObtained hroom hpos hb.tokenBegin_eq .start h))
      subnodeBegin := fun node h => hne (hpart.subnodeBegin_ok hroom hpos
        (hall.good_of_nodeObtained hroom hpos hb.tokenBegin_eq .start h))
      nextSubnode := fun node h => hne (hpart.nextSubnode_ok hroom hpos
        (hall.good_of_nodeObtained hroom hpos hb.tokenBegin_eq .start h)) }

/-! ## The walk comes to every token -/

theorem be32_cases (v : View) (a : Nat) :
    (∃ x, be32 v a = .ok x) ∨ be32 v a = .error .unmapped := by
  unfold be32
  cases v.loadBE a 4 with
  | none => exact .inr rfl
  | some x => exact .inl ⟨x, rfl⟩

/-- A token that `fdt_next_token` reads in the block is inside. -/
theorem tokenInside_of_next (hb : BlockAt v fdt start (start + size)) (hfuel : size < fuel)
    (ha : start ≤ a) (hword : be32 (v.only start size) a = .ok word)
    (hnext : fdtNextTokenIn fuel v (v.only start size) fdt a ≠ .error .unmapped) :
    TokenInside v (start + size) a := by
  obtain ⟨hv, -, hle⟩ := be32_of_only hword
  rw [fdtNextTokenIn, if_neg (hb.pos.trans_le ha).ne', hword, ok_bind] at hnext
  refine ⟨hle, fun hbegin => ?_, fun hprop => ?_⟩
  · obtain rfl : FDT_BEGIN_NODE = word := Except.ok.inj (hbegin.symm.trans hv)
    rw [if_neg (by decide), if_pos rfl] at hnext
    have hptr : a + 4 ≠ NULL := Nat.succ_ne_zero _
    rcases strlen_only (v := v) (n := size) (p := a + 4) hptr hle
      (show start + size < a + 4 + fuel by omega) with ⟨len, hlen⟩ | herror
    · obtain ⟨name, -, his⟩ := strlen_is hlen
      obtain ⟨hname, -, hlt⟩ := his.holds.of_only
      exact ⟨name, hname, hlt⟩
    · rw [herror] at hnext
      exact absurd rfl hnext
  · obtain rfl : FDT_PROP = word := Except.ok.inj (hprop.symm.trans hv)
    rw [if_neg (by decide), if_neg (by decide), if_pos rfl, fdtPropValLen] at hnext
    rcases be32_cases (v.only start size) (a + 4) with ⟨len, hlen⟩ | herror
    · exact (be32_of_only hlen).2.2
    · rw [herror] at hnext
      exact absurd rfl hnext

/-- A run of `fdt_node_begin` or `fdt_next_node` is at `a`, and what it returns is obtained. -/
def Arrives (fuel : Nat) (v w : View) (fdt stop a : Nat) : Prop :=
  ∃ (σ ρ : Type) (visit : Nat → Nat → σ → σ ⊕ ρ) (none : σ → ρ) (nodeOf : ρ → Nat) (n : Nat)
      (s : σ),
    (∀ word ptr s, word ≠ FDT_BEGIN_NODE → ∃ s', visit word ptr s = .inl s') ∧
    (∀ ptr s, ∃ r, visit FDT_BEGIN_NODE ptr s = .inr r ∧ nodeOf r = ptr) ∧
    stop < n + a ∧
    loop .outOfFuel (tokenStepIn fuel v w fdt visit none) n (a, s) ≠ .error .unmapped ∧
    ∀ r, loop .outOfFuel (tokenStepIn fuel v w fdt visit none) n (a, s) = .ok r →
      nodeOf r ≠ NULL → NodeObtained fuel v fdt (nodeOf r)

/-- **What a run reads at a token is inside, and a run comes to the next one**: the same run, or at
a node the run that starts from it. -/
theorem Arrives.step (h : Arrives fuel v (v.only start size) fdt (start + size) a)
    (hreads : ReadsInside fuel v (v.only start size) fdt)
    (hb : BlockAt v fdt start (start + size)) (hfuel : size < fuel) (hlo : start ≤ a)
    (hhi : a ≤ start + size) :
    TokenInside v (start + size) a ∧ ∀ word next, Follows v a word next → next < start + size →
      Arrives fuel v (v.only start size) fdt (start + size) next := by
  obtain ⟨σ, ρ, visit, none, nodeOf, n, s, hskip, hfound, hn, hsafe, hobtained⟩ := h
  obtain ⟨k, rfl⟩ : ∃ k, n = k + 1 := ⟨n - 1, by omega⟩
  have hpos : a ≠ NULL := (hb.pos.trans_le hlo).ne'
  have hnextEq : TokenInside v (start + size) a → ∀ word next, Follows v a word next →
      next < start + size → fdtNextTokenIn fuel v (v.only start size) fdt a = .ok next := by
    intro hin word next hf hlt
    have heq := hf.nextTokenIn_eq hb hin (Nat.add_lt_add_left hfuel start) hlo
      (v.agrees_only start size)
    rwa [if_pos hlt] at heq
  rcases be32_cases (v.only start size) a with ⟨word, hword⟩ | herror
  swap
  · refine absurd (loop_fail ?_) hsafe
    simp only [tokenStepIn, if_neg hpos, herror]
    rfl
  by_cases hbegin : word = FDT_BEGIN_NODE
  · -- the run returns the node, and the next one starts there
    subst hbegin
    obtain ⟨r, hr, hnode⟩ := hfound a s
    have hloop : loop .outOfFuel (tokenStepIn fuel v (v.only start size) fdt visit none) (k + 1)
        (a, s) = .ok r := by
      apply loop_leave
      simp only [tokenStepIn, if_neg hpos, hword, ok_bind, hr, pure_eq_ok]
    have hobt : NodeObtained fuel v fdt a := by
      have := hobtained r hloop
      rw [hnode] at this
      exact this hpos
    have hcall := hreads.nextNode a hobt Option.none
    have hin := tokenInside_of_next hb hfuel hlo hword fun herror => hcall (by
      rw [fdtNextNodeIn, herror]
      rfl)
    refine ⟨hin, fun word next hf hlt => ?_⟩
    have hle := hf.le
    have heq := hnextEq hin word next hf hlt
    rw [fdtNextNodeIn, heq, ok_bind] at hcall
    refine ⟨Int, Nat × Option Int, nextNodeVisit Option.none, fun _ => (NULL, Option.none),
      Prod.fst, fuel, 1, fun word ptr s hne => ⟨_, if_neg hne⟩,
      fun ptr s => ⟨(ptr, Option.none), rfl, rfl⟩, by omega, hcall, fun r hr hne => ?_⟩
    have hrun : fdtNextNode fuel v fdt a Option.none = .ok r := by
      rw [← (traversal_self fuel v fdt).2.1, fdtNextNodeIn, fdtNextTokenIn_of_only heq, ok_bind]
      exact tokenLoopIn_of_only hr
    exact hobt.next hrun hne
  · obtain ⟨s', hs'⟩ := hskip word a s hbegin
    have hin := tokenInside_of_next hb hfuel hlo hword fun herror => hsafe (loop_fail (by
      simp only [tokenStepIn, if_neg hpos, hword, ok_bind, hs', herror]
      rfl))
    refine ⟨hin, fun word' next hf hlt => ?_⟩
    have hle := hf.le
    have hloop : loop .outOfFuel (tokenStepIn fuel v (v.only start size) fdt visit none) (k + 1)
        (a, s) = loop .outOfFuel (tokenStepIn fuel v (v.only start size) fdt visit none) k
          (next, s') := by
      apply loop_again
      simp only [tokenStepIn, if_neg hpos, hword, ok_bind, hs', hnextEq hin word' next hf hlt,
        pure_eq_ok]
    rw [hloop] at hsafe hobtained
    exact ⟨σ, ρ, visit, none, nodeOf, k, s', hskip, hfound, by omega, hsafe, hobtained⟩

/-- The first run comes to the first token. -/
theorem arrives_start (hreads : ReadsInside fuel v (v.only start size) fdt)
    (hb : BlockAt v fdt start (start + size)) (hfuel : size < fuel) :
    Arrives fuel v (v.only start size) fdt (start + size) start := by
  have hcall := hreads.nodeBegin
  rw [fdtNodeBeginIn, hb.tokenBegin_eq, ok_bind] at hcall
  refine ⟨Unit, Nat, _, _, id, fuel, (), fun word ptr s hne => ⟨(), if_neg hne⟩,
    fun ptr s => ⟨ptr, if_pos rfl, rfl⟩, by omega, hcall, fun r hr hne => ?_⟩
  refine .begin ?_ hne
  rw [← (traversal_self fuel v fdt).1, fdtNodeBeginIn, hb.tokenBegin_eq, ok_bind]
  exact tokenLoopIn_of_only hr

theorem inside_of_readsInside (hreads : ReadsInside fuel v (v.only start size) fdt)
    (hb : BlockAt v fdt start (start + size)) (hfuel : size < fuel)
    (ha : Reached v start (start + size) a) : TokenInside v (start + size) a := by
  have hstart : Arrives fuel v (v.only start size) fdt (start + size) a ∧ a ≤ start + size := by
    induction ha with
    | start => exact ⟨arrives_start hreads hb hfuel, Nat.le_add_right _ _⟩
    | next hprev hf hlt ih =>
      exact ⟨(ih.1.step hreads hb hfuel hprev.le ih.2).2 _ _ hf hlt, hlt.le⟩
  exact (hstart.1.step hreads hb hfuel ha.le hstart.2).1

end

/-- The header places the structure block inside the blob. -/
structure StructPlaced (v : View) (fdt off size : Nat) : Prop where
  nonnull : fdt ≠ NULL
  offDtStruct : Fdt.offDtStruct v fdt = .ok off
  sizeDtStruct : Fdt.sizeDtStruct v fdt = .ok size
  inside : ∃ totalsize, Fdt.totalsize v fdt = .ok totalsize ∧ off + size ≤ totalsize ∧
    fdt + totalsize < 2 ^ 64

/-- **When the traversal functions read nothing outside the structure block**, whatever bytes it
holds: at every token they come to from its start, the word, the name of a node up to its
terminator and the length of a property end before the block does. -/
theorem traversal_inside_iff {m : Mem} {fuel fdt off size : Nat}
    (h : StructPlaced m.view fdt off size) (hfuel : size < fuel) :
    ReadsInside fuel m.view (View.only m.view (fdt + off) size) fdt ↔
      ∀ a, Reached m.view (fdt + off) (fdt + off + size) a →
        TokenInside m.view (fdt + off + size) a := by
  obtain ⟨totalsize, -, hle, hwrap⟩ := h.inside
  have hb : BlockAt m.view fdt (fdt + off) (fdt + off + size) :=
    blockAt_of_header (Nat.pos_of_ne_zero h.nonnull) h.offDtStruct h.sizeDtStruct (by omega)
  constructor
  · intro hreads a ha
    exact inside_of_readsInside hreads hb hfuel ha
  · exact readsInside_of_inside m.view_total hb hfuel

/-! ## A property in the last word -/

/-- A blob whose structure block is one word, `FDT_PROP`. -/
def tornBytes : List UInt8 :=
  beBytes 4 0xd00dfeed ++ (beBytes 4 44 ++ (beBytes 4 40 ++ (List.replicate 24 0 ++
    (beBytes 4 4 ++ beBytes 4 FDT_PROP))))

/-- Memory with this blob and zeros everywhere else. -/
def tornMem : Mem := View.fill (View.ofList 0x1000 tornBytes)

theorem torn_placed : StructPlaced tornMem.view 0x1000 40 4 :=
  ⟨by decide, by decide, by decide, 44, by decide, by decide, by decide⟩

/-- `fdt_node_begin` reads the length of the property behind the block. -/
theorem torn_not_inside : StructPlaced tornMem.view 0x1000 40 4 ∧
    ¬ ReadsInside 100 tornMem.view (View.only tornMem.view (0x1000 + 40) 4) 0x1000 :=
  ⟨torn_placed, fun h => h.nodeBegin (by decide)⟩

theorem traversal_inside_iff_torn :
    ReadsInside 100 tornMem.view (View.only tornMem.view (0x1000 + 40) 4) 0x1000 ↔
      ∀ a, Reached tornMem.view (0x1000 + 40) (0x1000 + 40 + 4) a →
        TokenInside tornMem.view (0x1000 + 40 + 4) a :=
  traversal_inside_iff torn_placed (by decide)

end RiscyOs
