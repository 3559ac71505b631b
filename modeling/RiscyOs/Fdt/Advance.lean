import RiscyOs.Fdt.Inside

/-!
# The traversal goes forward

Whatever the structure block holds, `fdt_next_token` goes from a token of the block to a later one
or returns `NULL`, provided that the names it comes to have an end. So all loops of the traversal
end, and what they return is a token of the wanted kind behind the one they started from:
`Advances`. This holds but for one token (`traversal_advances_iff`): the first one, which
`fdt_token_begin` does not compare with the end of the block.
-/

namespace RiscyOs

open ByteMemory FuelLoop

/-! ## What the calls should return -/

/-- Every node name that `fdt_next_token` comes to from `a` has an end. -/
def NamesEnd (v : View) (stop a : Nat) : Prop :=
  ∀ b, Reached v a stop b → be32 v b = .ok FDT_BEGIN_NODE →
    ∃ name, v.HoldsStr (b + 4) name ∧ b + 4 + name.length < 2 ^ 64

/-- The call returns, with all sufficient fuel the same, and the result is in `P`. -/
def Returns {α : Type} (f : Nat → Result α) (P : α → Prop) : Prop :=
  ∃ r, (∀ fuel ≥ 2 ^ 64, f fuel = .ok r) ∧ P r

/-- `r` lies behind `a` and before `stop`, aligned as `a` is. It is the first byte of a token: the
others may lie behind `stop`. -/
structure Later (stop a r : Nat) : Prop where
  lt : a < r
  lt_stop : r < stop
  aligned : r % 4 = a % 4

/-- What the traversal functions return on a block `[start, stop)`, from a token `a` of it. -/
structure Advances (v : View) (fdt start stop : Nat) : Prop where
  nextToken : ∀ a, start ≤ a → a < stop → NamesEnd v stop a →
    Returns (fun fuel => fdtNextToken fuel v fdt a) fun r => r = NULL ∨ Later stop a r
  nextTokenAfterNode : ∀ a, start ≤ a → a < stop → NamesEnd v stop a →
    Returns (fun fuel => fdtNextTokenAfterNode fuel v fdt a) fun r => r = NULL ∨ Later stop a r
  nodeBegin : Returns (fun fuel => fdtNodeBegin fuel v fdt)
    (Found v (fun r => start ≤ r ∧ r < stop ∧ r % 4 = start % 4) FDT_BEGIN_NODE)
  nextNode : ∀ a, start ≤ a → a < stop → NamesEnd v stop a → ∀ depth,
    Returns (fun fuel => fdtNextNode fuel v fdt a depth)
      fun r => Found v (Later stop a) FDT_BEGIN_NODE r.1
  maxDepth : Returns (fun fuel => fdtMaxDepth fuel v fdt) fun r => 0 ≤ r
  propBegin : ∀ a, start ≤ a → a < stop → NamesEnd v stop a →
    Returns (fun fuel => fdtNodePropBegin fuel v fdt a) (Found v (Later stop a) FDT_PROP)
  nextProp : ∀ a, start ≤ a → a < stop → NamesEnd v stop a →
    Returns (fun fuel => fdtNodeNextProp fuel v fdt a) (Found v (Later stop a) FDT_PROP)
  subnodeBegin : ∀ a, start ≤ a → a < stop → NamesEnd v stop a →
    Returns (fun fuel => fdtNodeSubnodeBegin fuel v fdt a) (Found v (Later stop a) FDT_BEGIN_NODE)
  nextSubnode : ∀ a, start ≤ a → a < stop → NamesEnd v stop a →
    Returns (fun fuel => fdtNodeNextSubnode fuel v fdt a) (Found v (Later stop a) FDT_BEGIN_NODE)

/-! ## More fuel -/

section

variable (v : View) (fdt : Nat) {σ ρ : Type}

theorem strlen_steady (str : CStr) : Steady fun fuel => strlen fuel str := by
  refine (steady_const _).ite (Steady.loop (fun len => ?_) 0)
  exact steady_const _

theorem fdtNextToken_steady (token : Nat) : Steady fun fuel => fdtNextToken fuel v fdt token := by
  unfold fdtNextToken
  refine (steady_const _).ite ?_
  refine (steady_const _).bind fun val => ?_
  dsimp only
  refine (steady_const _).ite (.ite ?_ (steady_const _))
  exact (strlen_steady _).bind fun len => steady_const _

theorem tokenLoop_steady (visit : Nat → Nat → σ → σ ⊕ ρ) (none : σ → ρ) (token : Nat) (s : σ) :
    Steady fun fuel => tokenLoop fuel v fdt visit none token s := by
  refine .loop (fun st => ?_) _
  unfold tokenStep
  refine (steady_const _).ite ((steady_const _).bind fun word => ?_)
  cases visit word st.1 st.2 with
  | inr r => exact steady_const _
  | inl s' => exact (fdtNextToken_steady v fdt st.1).bind fun next => steady_const _

theorem fdtNextTokenAfterNode_steady (node : Nat) :
    Steady fun fuel => fdtNextTokenAfterNode fuel v fdt node := by
  unfold fdtNextTokenAfterNode
  refine (steady_const _).ite (.loop (fun st => ?_) _)
  unfold afterNodeStep
  refine (steady_const _).bind fun word => ?_
  exact (fdtNextToken_steady v fdt st.1).bind fun next => steady_const _

theorem fdtNodeBegin_steady : Steady fun fuel => fdtNodeBegin fuel v fdt :=
  (steady_const _).bind fun token => tokenLoop_steady v fdt _ _ token ()

/-- A token loop from the token after `a`. -/
theorem nextLoop_steady (visit : Nat → Nat → σ → σ ⊕ ρ) (none : σ → ρ) (a : Nat) (s : σ) :
    Steady fun fuel => fdtNextToken fuel v fdt a >>= fun token =>
      tokenLoop fuel v fdt visit none token s :=
  (fdtNextToken_steady v fdt a).bind fun token => tokenLoop_steady v fdt visit none token s

theorem fdtNextNode_steady (node : Nat) (depth : Option Int) :
    Steady fun fuel => fdtNextNode fuel v fdt node depth :=
  nextLoop_steady v fdt _ _ node 1

theorem fdtMaxDepth_steady : Steady fun fuel => fdtMaxDepth fuel v fdt := by
  refine (fdtNodeBegin_steady v fdt).bind fun node => .loop (fun st => ?_) _
  unfold maxDepthStep
  refine (steady_const _).ite ?_
  exact (fdtNextNode_steady v fdt st.1 (some st.2.1)).bind fun next => steady_const _

theorem fdtNodeNextSubnode_steady (subnode : Nat) :
    Steady fun fuel => fdtNodeNextSubnode fuel v fdt subnode :=
  (fdtNextTokenAfterNode_steady v fdt subnode).bind fun token => tokenLoop_steady v fdt _ _ token ()

theorem Returns.of_steady {α : Type} {f : Nat → Result α} {P : α → Prop} (hf : Steady f)
    (h : ∃ r, f (2 ^ 64) = .ok r ∧ P r) : Returns f P := by
  obtain ⟨r, hr, hP⟩ := h
  exact ⟨r, fun fuel hle => hf _ fuel r hle hr, hP⟩

end

/-! ## One token -/

section

variable {v : View} {fdt start stop fuel a b word next : Nat}

theorem Follows.aligned (h : Follows v a word next) : next % 4 = a % 4 := by
  cases h with
  | nop _ => omega
  | endNode _ => omega
  | beginNode _ _ => unfold Token.padded; omega
  | prop _ _ => unfold Token.padded; omega

theorem Reached.aligned (h : Reached v a stop b) : b % 4 = a % 4 := by
  induction h with
  | start => rfl
  | next _ hf _ ih => exact hf.aligned.trans ih

/-- A name ends below `2 ^ 64`, so the token behind it wraps to an address below the block, if it
wraps at all. -/
theorem Follows.bounds_of_name (h : Follows v a word next) (hb : BlockAt v fdt start stop)
    (hfour : 4 ≤ start) (hfuel : 2 ^ 64 ≤ fuel) (hhi : a ≤ stop)
    (hname : be32 v a = .ok FDT_BEGIN_NODE →
      ∃ name, v.HoldsStr (a + 4) name ∧ a + 4 + name.length < 2 ^ 64) :
    next < 2 ^ 64 + start ∧ (word = FDT_BEGIN_NODE → next < a + 4 + fuel) := by
  have hshort := hb.short
  cases h with
  | nop _ => exact ⟨by have := hb.stop_lt; omega, fun h => absurd h (by decide)⟩
  | endNode _ => exact ⟨by have := hb.stop_lt; omega, fun h => absurd h (by decide)⟩
  | beginNode hv hholds =>
    obtain ⟨name, hname', hlt⟩ := hname hv
    obtain rfl := hholds.unique hname'
    unfold Token.padded
    omega
  | prop hv hlen =>
    have hlt : _ < 2 ^ 32 := be32_lt hlen
    refine ⟨?_, fun h => absurd h (by decide)⟩
    unfold Token.padded
    omega

/-- **`fdt_next_token` goes forward**, or returns `NULL`. -/
theorem nextToken_forward (hv : v.Total) (hb : BlockAt v fdt start stop) (hfour : 4 ≤ start)
    (hfuel : 2 ^ 64 ≤ fuel) (hlo : start ≤ a) (hhi : a ≤ stop)
    (hname : be32 v a = .ok FDT_BEGIN_NODE →
      ∃ name, v.HoldsStr (a + 4) name ∧ a + 4 + name.length < 2 ^ 64) :
    ∃ next, fdtNextToken fuel v fdt a = .ok next ∧
      (next = NULL ∨ next < stop ∧ ∃ word, Follows v a word next) := by
  rw [← fdtNextTokenIn_self]
  obtain ⟨word, hword, ⟨next, hf⟩ | ⟨hnop, hend, hbegin, hprop⟩⟩ :=
    follows_cases hv fun h => (hname h).imp fun _ h => h.1
  · obtain ⟨hwrap, hroom⟩ := hf.bounds_of_name hb hfour hfuel hhi hname
    refine ⟨_, fdtNextTokenIn_eq hb hlo hf hwrap hroom, ?_⟩
    split_ifs with hlt
    · exact .inr ⟨hlt, word, hf⟩
    · exact .inl rfl
  · exact ⟨NULL, fdtNextTokenIn_stop hb (hb.pos.trans_le hlo).ne' hword hnop hend hbegin hprop,
      .inl rfl⟩

/-- The tokens come to from `a` form a chain. -/
theorem chained_forward (hv : v.Total) (hb : BlockAt v fdt start stop) (hfour : 4 ≤ start)
    (hfuel : 2 ^ 64 ≤ fuel) (hlo : start ≤ a) (hnames : NamesEnd v stop a) :
    Chained fuel v v fdt stop fun b => Reached v a stop b ∧ b < stop where
  ne_null := fun b hb' => (hb.pos.trans_le (hlo.trans hb'.1.le)).ne'
  lt := fun b hb' => hb'.2
  word := fun b _ => be32_total hv b
  next := fun b hb' => by
    obtain ⟨next, hnext, hcase⟩ := nextToken_forward hv hb hfour hfuel (hlo.trans hb'.1.le)
      hb'.2.le (hnames b hb'.1)
    refine ⟨next, hnext, hcase.imp_right ?_⟩
    rintro ⟨hlt, word, hf⟩
    exact ⟨⟨hb'.1.next hf hlt, hlt⟩, (Nat.lt_add_of_pos_right (by decide)).trans_le hf.le⟩

theorem Found.imp {w : View} {Good Good' : Nat → Prop} {r : Nat} (h : Found w Good word r)
    (himp : ∀ b, Good b → Good' b) : Found w Good' word r :=
  Or.imp_right (And.imp_left (himp r)) h

/-- `fdt_max_depth` goes from node to node. -/
theorem Chained.maxDepth_ok {Good : Nat → Prop} (h : Chained fuel v v fdt stop Good)
    (hfuel : ∀ a, Good a → stop < fuel + a) (hpos : 0 < fuel) (ha : a = NULL ∨ Good a)
    (depth : Int) :
    ∃ r, loop .outOfFuel (maxDepthStep fuel v fdt) fuel (a, depth, 0) = .ok r ∧ 0 ≤ r := by
  refine loop_variant (fun st => (st.1 = NULL ∨ Good st.1) ∧ 0 ≤ st.2.2)
    (fun st => bytesLeft stop st.1) ?_ ⟨ha, le_rfl⟩ (h.bytesLeft_lt_fuel hfuel hpos ha)
  rintro ⟨b, depth, maxDepth⟩ ⟨hb, hmax⟩
  dsimp only at hb hmax
  by_cases hnull : b = NULL
  · subst hnull
    exact .inl ⟨maxDepth, rfl, hmax⟩
  have hgood := hb.resolve_left hnull
  obtain ⟨⟨next, depth'⟩, hnext, hfound⟩ := h.nextNode_ok hfuel hpos hgood (some depth)
  have hnext : fdtNextNode fuel v fdt b (some depth) = .ok (next, depth') := hnext
  have hcase : next = NULL ∨ Good next ∧ b < next := hfound.imp_right And.left
  refine .inr ⟨(next, depth'.getD depth, if depth > maxDepth then depth else maxDepth), ?_,
    ⟨hcase.imp_right And.left, ?_⟩, h.bytesLeft_lt hgood hcase⟩
  · simp only [maxDepthStep, if_neg hnull, hnext, ok_bind, pure_eq_ok]
  · dsimp only
    split_ifs <;> omega

/-! ## The first token -/

/-- On an empty block `fdt_node_begin` looks at one token, and finds nothing unless this is a
node. -/
theorem nodeBegin_empty (hv : v.Total) (hb : BlockAt v fdt start start) (hfour : 4 ≤ start)
    (hfuel : 2 ^ 64 ≤ fuel) (hword : be32 v start ≠ .ok FDT_BEGIN_NODE) :
    fdtNodeBegin fuel v fdt = .ok NULL := by
  obtain ⟨next, hnext, hcase⟩ :=
    nextToken_forward hv hb hfour hfuel le_rfl le_rfl fun h => absurd h hword
  obtain rfl : next = NULL := by
    refine hcase.resolve_right ?_
    rintro ⟨hlt, word, hf⟩
    have := hf.le
    omega
  obtain ⟨word, hread⟩ := be32_total hv start
  have hne : word ≠ FDT_BEGIN_NODE := fun h => hword (h ▸ hread)
  obtain ⟨n, rfl⟩ : ∃ n, fuel = n + 2 := ⟨fuel - 2, by omega⟩
  rw [fdtNodeBegin, hb.tokenBegin_eq, ok_bind, tokenLoop, loop_again (NULL, ()), loop_leave rfl]
  simp only [tokenStep, if_neg hb.pos.ne', hread, ok_bind, if_neg hne, hnext, pure_eq_ok]

/-- A node at the start of the block is found, also when the block is empty. -/
theorem nodeBegin_at_start (hb : BlockAt v fdt start stop) (hfuel : 0 < fuel)
    (hword : be32 v start = .ok FDT_BEGIN_NODE) : fdtNodeBegin fuel v fdt = .ok start := by
  obtain ⟨n, rfl⟩ : ∃ n, fuel = n + 1 := ⟨fuel - 1, by omega⟩
  rw [fdtNodeBegin, hb.tokenBegin_eq, ok_bind, tokenLoop, loop_leave]
  simp only [tokenStep, if_neg hb.pos.ne', hword, ok_bind, reduceIte, pure_eq_ok]

/-- The calls that get no token. -/
theorem fromStart_ok (hv : v.Total) (hb : BlockAt v fdt start stop) (hfour : 4 ≤ start)
    (hfuel : 2 ^ 64 ≤ fuel) (hnames : NamesEnd v stop start)
    (hfirst : start < stop ∨ be32 v start ≠ .ok FDT_BEGIN_NODE) :
    (∃ r, fdtNodeBegin fuel v fdt = .ok r ∧
      Found v (fun r => start ≤ r ∧ r < stop ∧ r % 4 = start % 4) FDT_BEGIN_NODE r) ∧
      ∃ r, fdtMaxDepth fuel v fdt = .ok r ∧ 0 ≤ r := by
  have hstop := hb.stop_lt
  by_cases hempty : start = stop
  · subst hempty
    have hbegin := nodeBegin_empty hv hb hfour hfuel (hfirst.resolve_left (lt_irrefl start))
    obtain ⟨n, rfl⟩ : ∃ n, fuel = n + 1 := ⟨fuel - 1, by omega⟩
    refine ⟨⟨NULL, hbegin, .inl rfl⟩, 0, ?_, le_rfl⟩
    rw [fdtMaxDepth, hbegin, ok_bind]
    exact loop_leave rfl
  · have hlt := lt_of_le_of_ne hb.le hempty
    have hchain := chained_forward hv hb hfour hfuel le_rfl hnames
    have hroom : ∀ b, Reached v start stop b ∧ b < stop → stop < fuel + b := fun _ _ => by omega
    obtain ⟨r, hr, hfound⟩ :=
      hchain.nodeBegin_ok hroom (by omega) hb.tokenBegin_eq ⟨.start, hlt⟩
    have hr : fdtNodeBegin fuel v fdt = .ok r := hr
    refine ⟨⟨r, hr, hfound.imp fun b hgood => ⟨hgood.1.le, hgood.2, hgood.1.aligned⟩⟩, ?_⟩
    rw [fdtMaxDepth, hr, ok_bind]
    exact hchain.maxDepth_ok hroom (by omega) (hfound.imp_right And.left) 0

/-! ## All calls -/

/-- A call from a token of the block, on the chain of the tokens that come after it. -/
theorem returns_of_chained {α : Type} {f : Nat → Result α} {P : α → Prop} (hsteady : Steady f)
    (hv : v.Total) (hb : BlockAt v fdt start stop) (hfour : 4 ≤ start) (hlo : start ≤ a)
    (hhi : a < stop) (hnames : NamesEnd v stop a)
    (hcall : ∀ fuel Good, Chained fuel v v fdt stop Good → (∀ b, Good b → stop < fuel + b) →
      0 < fuel → Good a → (∀ b, Good b ∧ a < b → Later stop a b) → ∃ r, f fuel = .ok r ∧ P r) :
    Returns f P := by
  refine .of_steady hsteady (hcall (2 ^ 64) (fun b => Reached v a stop b ∧ b < stop)
    (chained_forward hv hb hfour le_rfl hlo hnames) (fun b _ => ?_) (by decide) ⟨.start, hhi⟩
    fun b h => ⟨h.2, h.1.2, h.1.1.aligned⟩)
  exact hb.stop_lt.trans_le (Nat.le_add_right _ b)

theorem advances_of_first (hv : v.Total) (hb : BlockAt v fdt start stop) (hfour : 4 ≤ start)
    (hnames : NamesEnd v stop start)
    (hfirst : start < stop ∨ be32 v start ≠ .ok FDT_BEGIN_NODE) : Advances v fdt start stop where
  nextToken a hlo hhi hn := by
    refine returns_of_chained (fdtNextToken_steady v fdt a) hv hb hfour hlo hhi hn ?_
    intro fuel Good hchain _ _ ha hlater
    obtain ⟨r, hr, hcase⟩ := hchain.next a ha
    exact ⟨r, hr, hcase.imp_right (hlater r)⟩
  nextTokenAfterNode a hlo hhi hn := by
    refine returns_of_chained (fdtNextTokenAfterNode_steady v fdt a) hv hb hfour hlo hhi hn ?_
    intro fuel Good hchain hroom _ ha hlater
    obtain ⟨r, hr, hcase⟩ := hchain.nextTokenAfterNode_ok hroom ha
    exact ⟨r, hr, hcase.imp_right (hlater r)⟩
  nodeBegin := .of_steady (fdtNodeBegin_steady v fdt)
    (fromStart_ok hv hb hfour le_rfl hnames hfirst).1
  nextNode a hlo hhi hn depth := by
    refine returns_of_chained (fdtNextNode_steady v fdt a depth) hv hb hfour hlo hhi hn ?_
    intro fuel Good hchain hroom hpos ha hlater
    obtain ⟨r, hr, hfound⟩ := hchain.nextNode_ok hroom hpos ha depth
    exact ⟨r, hr, hfound.imp hlater⟩
  maxDepth := .of_steady (fdtMaxDepth_steady v fdt)
    (fromStart_ok hv hb hfour le_rfl hnames hfirst).2
  propBegin a hlo hhi hn := by
    refine returns_of_chained (nextLoop_steady v fdt propVisit _ a ()) hv hb hfour hlo hhi hn ?_
    intro fuel Good hchain hroom hpos ha hlater
    obtain ⟨r, hr, hfound⟩ := hchain.propBegin_ok hroom hpos ha
    exact ⟨r, hr, hfound.imp hlater⟩
  nextProp a hlo hhi hn := by
    refine returns_of_chained (nextLoop_steady v fdt propVisit _ a ()) hv hb hfour hlo hhi hn ?_
    intro fuel Good hchain hroom hpos ha hlater
    obtain ⟨r, hr, hfound⟩ := hchain.nextProp_ok hroom hpos ha
    exact ⟨r, hr, hfound.imp hlater⟩
  subnodeBegin a hlo hhi hn := by
    refine returns_of_chained (nextLoop_steady v fdt subnodeVisit _ a ()) hv hb hfour hlo hhi hn ?_
    intro fuel Good hchain hroom hpos ha hlater
    obtain ⟨r, hr, hfound⟩ := hchain.subnodeBegin_ok hroom hpos ha
    exact ⟨r, hr, hfound.imp hlater⟩
  nextSubnode a hlo hhi hn := by
    refine returns_of_chained (fdtNodeNextSubnode_steady v fdt a) hv hb hfour hlo hhi hn ?_
    intro fuel Good hchain hroom hpos ha hlater
    obtain ⟨r, hr, hfound⟩ := hchain.nextSubnode_ok hroom hpos ha
    exact ⟨r, hr, hfound.imp hlater⟩

end

/-- The node found at the start of an empty block is not in it. -/
theorem not_advances_of_empty {v : View} {fdt start : Nat} (hb : BlockAt v fdt start start)
    (hword : be32 v start = .ok FDT_BEGIN_NODE) : ¬Advances v fdt start start := by
  intro h
  obtain ⟨r, hr, hfound⟩ := h.nodeBegin
  have hbegin := nodeBegin_at_start hb (show 0 < 2 ^ 64 by decide) hword
  obtain rfl : r = start := Except.ok.inj ((hr _ le_rfl).symm.trans hbegin)
  rcases hfound with hnull | ⟨⟨-, hlt, -⟩, -⟩
  · exact hb.pos.ne' hnull
  · exact lt_irrefl r hlt

/-- **When the traversal stays in the block and goes forward**, whatever bytes the block holds: it
has a first byte, or there is no `FDT_BEGIN_NODE` where it would start. -/
theorem traversal_advances_iff {m : Mem} {fdt off size : Nat} (hfdt : fdt ≠ NULL)
    (halign : fdt % 4 = 0) (hoff : Fdt.offDtStruct m.view fdt = .ok off)
    (hsize : Fdt.sizeDtStruct m.view fdt = .ok size) (hwrap : fdt + off + size < 2 ^ 64)
    (hnames : NamesEnd m.view (fdt + off + size) (fdt + off)) :
    Advances m.view fdt (fdt + off) (fdt + off + size) ↔
      size ≠ 0 ∨ be32 m.view (fdt + off) ≠ .ok FDT_BEGIN_NODE := by
  have hpos : fdt ≠ 0 := hfdt
  have hb := blockAt_of_header (by omega) hoff hsize hwrap
  constructor
  · intro h
    by_contra hfirst
    rw [not_or, not_not, not_not] at hfirst
    obtain ⟨rfl, hword⟩ := hfirst
    exact not_advances_of_empty hb hword h
  · intro hfirst
    refine advances_of_first m.view_total hb (by omega) hnames (hfirst.imp_left fun h => ?_)
    omega

/-! ## A node in an empty block -/

/-- A blob whose header says that the structure block has `size` bytes. A node without a name stands
at its start. -/
def nodeBytes (size : Nat) : List UInt8 :=
  beBytes 4 0xd00dfeed ++ (beBytes 4 52 ++ (beBytes 4 40 ++ (List.replicate 24 0 ++
    (beBytes 4 size ++ (beBytes 4 FDT_BEGIN_NODE ++ (beBytes 4 0 ++ beBytes 4 FDT_END))))))

def nodeMem (size : Nat) : Mem := View.fill (View.ofList 0x1000 (nodeBytes size))

/-- The names end where there is one node, without a name, before `FDT_END`. -/
theorem namesEnd_of_node {v : View} {s stop : Nat} (hbegin : be32 v s = .ok FDT_BEGIN_NODE)
    (hname : v.HoldsStr (s + 4) []) (hend : be32 v (s + 8) = .ok FDT_END) (hs : s + 4 < 2 ^ 64) :
    NamesEnd v stop s := by
  have hreached : ∀ b, Reached v s stop b → b = s ∨ b = s + 8 := by
    intro b hb
    induction hb with
    | start => exact .inl rfl
    | next _ hf _ ih =>
      rcases ih with rfl | rfl
      · right
        cases hf with
        | nop hv => exact absurd (hbegin.symm.trans hv) (by decide)
        | endNode hv => exact absurd (hbegin.symm.trans hv) (by decide)
        | beginNode _ hname' =>
          obtain rfl := hname'.unique hname
          rfl
        | prop hv => exact absurd (hbegin.symm.trans hv) (by decide)
      · have hword := hend.symm.trans hf.word_eq
        cases hf <;> exact absurd hword (by decide)
  intro b hb hword
  rcases hreached b hb with rfl | rfl
  · exact ⟨[], hname, hs⟩
  · exact absurd (hend.symm.trans hword) (by decide)

theorem traversal_advances_iff_node :
    Advances (nodeMem 12).view 0x1000 (0x1000 + 40) (0x1000 + 40 + 12) ↔
      12 ≠ 0 ∨ be32 (nodeMem 12).view (0x1000 + 40) ≠ .ok FDT_BEGIN_NODE :=
  traversal_advances_iff (by decide) (by decide) (by decide) (by decide) (by decide)
    (namesEnd_of_node (by decide) ⟨by decide, by decide⟩ (by decide) (by decide))

/-- `fdt_node_begin` returns a node where the block has no bytes. -/
theorem nodeMem_not_advances :
    Fdt.offDtStruct (nodeMem 0).view 0x1000 = .ok 40 ∧
    Fdt.sizeDtStruct (nodeMem 0).view 0x1000 = .ok 0 ∧
    NamesEnd (nodeMem 0).view (0x1000 + 40) (0x1000 + 40) ∧
    ¬Advances (nodeMem 0).view 0x1000 (0x1000 + 40) (0x1000 + 40) := by
  have hoff : Fdt.offDtStruct (nodeMem 0).view 0x1000 = .ok 40 := by decide
  have hsize : Fdt.sizeDtStruct (nodeMem 0).view 0x1000 = .ok 0 := by decide
  have hword : be32 (nodeMem 0).view (0x1000 + 40) = .ok FDT_BEGIN_NODE := by decide
  refine ⟨hoff, hsize, ?_, ?_⟩
  · exact namesEnd_of_node hword ⟨by decide, by decide⟩ (by decide) (by decide)
  · exact not_advances_of_empty (blockAt_of_header (by decide) hoff hsize (by decide)) hword

end RiscyOs
