import Mathlib.Data.List.Nodup
import RiscyOs.Fdt.Ancestors

/-!
# The branch array of `fdt_node_get_parents`

The array has an entry for every depth from `0` to the greatest one, and is indexed by a running
depth. On a sequence of tokens that leaves more nodes than it enters the depth goes below zero, and
the array is indexed there.

* `Stream.parents_loop`: the walk to the node, on any sequence of tokens.
* `getParents_inRange_iff`: when no index is out of range.
-/

namespace RiscyOs

open ByteMemory FuelLoop

/-! ## Sequences of tokens -/

/-- A structure block that is a sequence of tokens, balanced or not. -/
structure TokenBlock where
  fdt : Nat
  offStruct : Nat
  sizeStruct : Nat
  tokens : List (Nat × Token)
  fdt_pos : 0 < fdt
  noWrap : fdt + offStruct + sizeStruct < 2 ^ 64

/-- The tokens up to the first `FDT_END`. -/
def upToEnd : List (Nat × Token) → List (Nat × Token)
  | [] => []
  | x :: xs => if x.2 = .fdtEnd then [x] else x :: upToEnd xs

namespace TokenBlock

def start (s : TokenBlock) : Nat := s.fdt + s.offStruct

def stop (s : TokenBlock) : Nat := s.start + s.sizeStruct

/-- The nodes that the walk meets, with their depths: up to the first `FDT_END`, and with the first
node at depth `0`. -/
def visits (s : TokenBlock) : List (Nat × Int) := nodeVisits (upToEnd s.tokens)

/-- The view holds the structure block. Only what follows an `FDT_END` need not be tokens. -/
structure In (s : TokenBlock) (v : View) : Prop where
  offDtStruct : Fdt.offDtStruct v s.fdt = .ok s.offStruct
  sizeDtStruct : Fdt.sizeDtStruct v s.fdt = .ok s.sizeStruct
  laid : ∃ q, q ≤ s.stop ∧ Laid v s.start s.tokens q ∧
    (q = s.stop ∨ ∃ a, (a, .fdtEnd) ∈ s.tokens)

end TokenBlock

theorem upToEnd_prefix (ts : List (Nat × Token)) : upToEnd ts <+: ts := by
  induction ts with
  | nil => exact List.prefix_rfl
  | cons x xs ih =>
    rw [upToEnd]
    split_ifs
    · exact ⟨xs, rfl⟩
    · exact List.cons_prefix_cons.2 ⟨rfl, ih⟩

/-- Either the last token is an `FDT_END`, or there is none. -/
theorem upToEnd_cases (ts : List (Nat × Token)) :
    (∃ pre a, upToEnd ts = pre ++ [(a, .fdtEnd)]) ∨
      upToEnd ts = ts ∧ ∀ a, (a, .fdtEnd) ∉ ts := by
  induction ts with
  | nil => exact .inr ⟨rfl, fun a => List.not_mem_nil⟩
  | cons x xs ih =>
    obtain ⟨c, t⟩ := x
    rw [upToEnd]
    split_ifs with ht
    · obtain rfl : t = .fdtEnd := ht
      exact .inl ⟨[], c, rfl⟩
    · rcases ih with ⟨pre, a, heq⟩ | ⟨heq, hnone⟩
      · exact .inl ⟨(c, t) :: pre, a, by rw [heq, List.cons_append]⟩
      · refine .inr ⟨by rw [heq], fun a hmem => ?_⟩
        rcases List.mem_cons.1 hmem with h | h
        · exact ht (Prod.mk.inj h).2.symm
        · exact hnone a h

theorem upToEnd_rest {ts pre rest : List (Nat × Token)} {a : Nat}
    (h : upToEnd ts = pre ++ (a, .fdtEnd) :: rest) : rest = [] := by
  induction ts generalizing pre with
  | nil => simp [upToEnd] at h
  | cons x xs ih =>
    rw [upToEnd] at h
    split_ifs at h with hx
    · cases pre with
      | nil => exact (List.cons.inj h).2.symm
      | cons y ys => simp at h
    · cases pre with
      | nil =>
        obtain ⟨rfl, -⟩ := List.cons.inj h
        exact absurd rfl hx
      | cons y ys => exact ih (List.cons.inj h).2

namespace TokenBlock.In

variable {s : TokenBlock} {v : View}

theorem stream (h : s.In v) : Stream v s.fdt s.start s.stop (upToEnd s.tokens) := by
  obtain ⟨q, hq, hlaid, hend⟩ := h.laid
  refine ⟨blockAt_of_header s.fdt_pos h.offDtStruct h.sizeDtStruct s.noWrap, ?_,
    fun pre a rest => upToEnd_rest⟩
  obtain ⟨after, hafter⟩ := upToEnd_prefix s.tokens
  rw [← hafter, laid_append] at hlaid
  obtain ⟨mid, hpre, hrest⟩ := hlaid
  refine ⟨mid, hrest.le.trans hq, hpre, ?_⟩
  rcases upToEnd_cases s.tokens with hlast | ⟨heq, hnone⟩
  · exact .inr hlast
  · have hnil : after = [] := by simpa [heq] using hafter
    subst hnil
    obtain rfl : mid = q := hrest
    exact .inl (hend.resolve_right fun ⟨a, ha⟩ => hnone a ha)

end TokenBlock.In

/-! ## The walk to a node -/

theorem nodeVisits_map_fst (ts : List (Nat × Token)) :
    (nodeVisits ts).map Prod.fst = Forest.entered (events ts) := by
  rcases nodeVisits_cases ts with ⟨hnone, hentered⟩ | ⟨_, _, _, _, -, hvisits, hentered⟩
  · rw [hnone, hentered]
    rfl
  · rw [hvisits, hentered, List.map_cons, Forest.depths_map_fst]

/-- Every entry below the depth `d` has been written. -/
def Filled (arr : PtrArray) (d : Int) : Prop :=
  ∀ i : Nat, (i : Int) < d → ∃ x, arr[i]? = some (some x)

theorem Filled.mono {arr : PtrArray} {d d' : Int} (h : Filled arr d) (hle : d' ≤ d) :
    Filled arr d' := fun i hi => h i (hi.trans_le hle)

theorem Filled.set {arr : PtrArray} {d : Int} (h : Filled arr d) (hd : 0 ≤ d)
    (hlt : d < arr.length) (a : Nat) :
    ∃ arr', PtrArray.set arr d a = .ok arr' ∧ arr'.length = arr.length ∧ Filled arr' (d + 1) := by
  refine ⟨List.set arr d.toNat (some a), if_pos ⟨hd, hlt⟩, List.length_set .., fun i hi => ?_⟩
  by_cases heq : i = d.toNat
  · subst heq
    exact ⟨a, List.getElem?_set_self (by omega)⟩
  · rw [List.getElem?_set_ne (Ne.symm heq)]
    exact h i (by omega)

theorem Filled.get {arr : PtrArray} {d i : Int} (h : Filled arr d) (hi : 0 ≤ i) (hlt : i < d) :
    ∃ x, PtrArray.get arr i = .ok x := by
  obtain ⟨x, hx⟩ := h i.toNat (by omega)
  exact ⟨x, by rw [PtrArray.get, if_pos hi, hx]⟩

theorem set_of_neg {arr : PtrArray} {d : Int} (hd : d < 0) (a : Nat) :
    PtrArray.set arr d a = .error .outOfBounds := if_neg fun h => absurd h.1 (by omega)

theorem get_of_neg {arr : PtrArray} {i : Int} (hi : i < 0) :
    PtrArray.get arr i = .error .outOfBounds := by
  rw [PtrArray.get, if_neg (by omega)]

/-- How the walk over the nodes `V` to the node `c` ends: it stops at `c` or behind the last node,
with every entry written below the depth there, or it has come to a negative depth before. -/
def WalkEnds (V : List (Nat × Int)) (c : Nat) (result : Result (Int × PtrArray)) : Prop :=
  (∃ p ∈ V, (p.1 = c ∨ ∀ q ∈ V, q.1 < c) ∧ (∀ q ∈ V, q.1 < c → 0 ≤ q.2) ∧
    ∃ arr, result = .ok (p.2, arr) ∧ Filled arr p.2) ∨
  (∃ p ∈ V, p.1 < c ∧ p.2 < 0) ∧ result = .error .outOfBounds

/-- A node before `c` at a depth that is not negative. -/
theorem WalkEnds.cons {V : List (Nat × Int)} {c a : Nat} {d : Int}
    {result : Result (Int × PtrArray)} (h : WalkEnds V c result) (ha : a < c) (hd : 0 ≤ d) :
    WalkEnds ((a, d) :: V) c result := by
  rcases h with ⟨p, hp, hstop, hgood, hresult⟩ | ⟨⟨p, hp, hbad⟩, hresult⟩
  · refine .inl ⟨p, List.mem_cons_of_mem _ hp, ?_, ?_, hresult⟩
    · exact hstop.imp_right fun hall => List.forall_mem_cons.2 ⟨ha, hall⟩
    · exact List.forall_mem_cons.2 ⟨fun _ => hd, hgood⟩
  · exact .inr ⟨⟨p, List.mem_cons_of_mem _ hp, hbad⟩, hresult⟩

namespace Stream

variable {v : View} {fdt start stop fuel a : Nat} {name : List UInt8}
  {ts pre rest : List (Nat × Token)}

/-- **The walk to a node**, over any sequence of tokens. -/
theorem parents_loop (h : Stream v fdt start stop ts) (hfuel : stop < start + fuel) {n c : Nat}
    {d : Int} {V : List (Nat × Int)} (arr : PtrArray)
    (htok : ts = pre ++ (a, .beginNode name) :: rest) (hV : Forest.depths (d + 1) (events rest) = V)
    (hn : V.length + 1 < n) (hsorted : ((a, d) :: V).Pairwise fun p q => p.1 < q.1)
    (hroom : ∀ p ∈ (a, d) :: V, p.2 < arr.length) (hfilled : Filled arr d)
    (hc : (∃ p ∈ (a, d) :: V, p.1 = c) ∨ ∀ p ∈ (a, d) :: V, p.1 < c) :
    WalkEnds ((a, d) :: V) c (loop .outOfFuel (parentsStep fuel v fdt c) n (a, d, arr)) := by
  induction n generalizing pre a name rest d V arr with
  | zero => omega
  | succ n ih =>
    obtain ⟨hlater, hsorted'⟩ := List.pairwise_cons.1 hsorted
    obtain ⟨ha, hroom'⟩ := List.forall_mem_cons.1 hroom
    by_cases hac : a = c
    · subst hac
      refine .inl ⟨(a, d), List.mem_cons_self, .inl rfl, ?_, arr,
        loop_leave (h.parentsStep_self htok), hfilled⟩
      exact List.forall_mem_cons.2 ⟨fun hlt => absurd hlt (lt_irrefl a),
        fun q hq hlt => absurd (hlater q hq) hlt.not_gt⟩
    -- the walk goes on behind `a`, where `c` is if it is a node
    have hlt : a < c ∧ ((∃ p ∈ V, p.1 = c) ∨ ∀ p ∈ V, p.1 < c) := by
      rcases hc with ⟨p, hp, rfl⟩ | hc
      · have hp := (List.mem_cons.1 hp).resolve_left fun heq => hac (heq ▸ rfl)
        exact ⟨hlater p hp, .inl ⟨p, hp, rfl⟩⟩
      · obtain ⟨hhead, htail⟩ := List.forall_mem_cons.1 hc
        exact ⟨hhead, .inr htail⟩
    by_cases hd : d < 0
    · refine .inr ⟨⟨(a, d), List.mem_cons_self, hlt.1, hd⟩, loop_fail ?_⟩
      simp only [parentsStep, if_neg (h.token_pos htok).ne', if_neg hac, set_of_neg hd]
      rfl
    have hd := not_lt.1 hd
    obtain ⟨arr', hset, hlen, hfilled'⟩ := hfilled.set hd ha a
    have hstep := h.parentsStep_eq hfuel htok hac hset
    rw [hV] at hstep
    cases V with
    | nil =>
      obtain ⟨k, rfl⟩ : ∃ k, n = k + 1 := ⟨n - 1, by omega⟩
      refine .inl ⟨(a, d), List.mem_cons_self, .inr ?_, ?_, arr', ?_, hfilled'.mono (by simp)⟩
      · exact List.forall_mem_singleton.2 hlt.1
      · exact List.forall_mem_singleton.2 fun _ => hd
      · rw [loop_again _ hstep]
        exact loop_leave rfl
    | cons p L =>
      obtain ⟨a', d'⟩ := p
      have hle := Forest.depths_head_le hV
      obtain ⟨mid, name', rest', rfl, hV'⟩ := exists_of_depths_eq_cons hV
      have htok' : ts = (pre ++ (a, .beginNode name) :: mid) ++
          (a', .beginNode name') :: rest' := by simpa using htok
      rw [loop_again (a', d', arr') hstep]
      rw [← hlen] at hroom'
      rw [List.length_cons] at hn
      exact (ih arr' htok' hV'.symm (by omega) hsorted' hroom' (hfilled'.mono hle) hlt.2).cons
        hlt.1 hd

end Stream

/-! ## All indices -/

theorem le_foldl_deeper (V : List (Nat × Int)) (m : Int) :
    m ≤ V.foldl deeper m ∧ ∀ p ∈ V, p.2 ≤ V.foldl deeper m := by
  induction V generalizing m with
  | nil => exact ⟨le_rfl, fun p hp => absurd hp List.not_mem_nil⟩
  | cons q V ih =>
    obtain ⟨hm, hall⟩ := ih (deeper m q)
    have hq : m ≤ deeper m q ∧ q.2 ≤ deeper m q := by
      unfold deeper
      split_ifs <;> omega
    exact ⟨hq.1.trans hm, List.forall_mem_cons.2 ⟨hq.2.trans hm, hall⟩⟩

/-- Reading back what is written. -/
theorem readBranch_ok {arr : PtrArray} {d : Int} (h : Filled arr d) {num : Nat}
    (hnum : 0 < num → (num : Int) ≤ d) : ∃ parents,
      (List.range num).mapM (fun i : Nat => PtrArray.get arr (d - (i + 1))) = .ok parents := by
  have hread : ∀ i ∈ List.range num, ∃ x, PtrArray.get arr (d - (i + 1)) = .ok x := by
    intro i hi
    have hlt := List.mem_range.1 hi
    have := hnum (by omega)
    exact h.get (by omega) (by omega)
  choose! g hg using hread
  exact ⟨_, mapM_eq_ok hg⟩

/-- The first entry read is the one below a negative depth. -/
theorem readBranch_error {arr : PtrArray} {d : Int} (hd : d < 0) {num : Nat} (hnum : 0 < num) :
    (List.range num).mapM (fun i : Nat => PtrArray.get arr (d - (i + 1))) =
      .error .outOfBounds := by
  obtain ⟨k, rfl⟩ : ∃ k, num = k + 1 := ⟨num - 1, by omega⟩
  rw [List.range_succ_eq_map, List.mapM_cons, get_of_neg (by omega)]
  rfl

theorem mem_entered_of_mem {ts : List (Nat × Token)} {c : Nat} {name : List UInt8}
    (h : (c, .beginNode name) ∈ ts) : c ∈ Forest.entered (events ts) := by
  obtain ⟨pre, post, rfl⟩ := List.append_of_mem h
  rw [events_append, events_cons, Forest.entered_append]
  exact List.mem_append_right _ List.mem_cons_self

namespace TokenBlock.In

variable {s : TokenBlock} {v : View} {fuel c n : Nat} {name : List UInt8}

theorem visits_sorted (h : s.In v) : s.visits.Pairwise fun p q => p.1 < q.1 := by
  obtain ⟨q, -, hlaid, -⟩ := h.stream.laid
  have hsorted : ((upToEnd s.tokens).map Prod.fst).Pairwise (· < ·) :=
    List.pairwise_map.2 hlaid.pairwise
  have hvisits := hsorted.sublist (entered_sublist (upToEnd s.tokens))
  rw [← nodeVisits_map_fst] at hvisits
  exact List.pairwise_map.1 hvisits

theorem visits_inj (h : s.In v) {p q : Nat × Int} (hp : p ∈ s.visits) (hq : q ∈ s.visits)
    (heq : p.1 = q.1) : p = q :=
  List.inj_on_of_nodup_map (List.pairwise_map.2 (h.visits_sorted.imp ne_of_lt)) hp hq heq

/-- A node of the block is met, or the walk ends before it. -/
theorem visits_cases (h : s.In v) (hc : (c, .beginNode name) ∈ s.tokens) :
    (∃ p ∈ s.visits, p.1 = c) ∨ ∀ p ∈ s.visits, p.1 < c := by
  obtain ⟨after, hafter⟩ := upToEnd_prefix s.tokens
  obtain ⟨q, -, hlaid, -⟩ := h.laid
  have hsorted := hlaid.pairwise
  rw [← hafter] at hc hsorted
  rcases List.mem_append.1 hc with hc | hc
  · have hmem := mem_entered_of_mem hc
    rw [← nodeVisits_map_fst] at hmem
    obtain ⟨p, hp, heq⟩ := List.mem_map.1 hmem
    exact .inl ⟨p, hp, heq⟩
  · refine .inr fun p hp => ?_
    have hmem : p.1 ∈ Forest.entered (events (upToEnd s.tokens)) := by
      rw [← nodeVisits_map_fst]
      exact List.mem_map_of_mem hp
    obtain ⟨x, hx, heq⟩ := List.mem_map.1 ((entered_sublist _).subset hmem)
    rw [← heq]
    exact (List.pairwise_append.1 hsorted).2.2 x hx _ hc

/-- A depth is smaller than an address. -/
theorem depth_bounds (h : s.In v) {p : Nat × Int} (hp : p ∈ s.visits) :
    -2 ^ 64 < p.2 ∧ p.2 < 2 ^ 64 := by
  have hlen := h.stream.length_tokens
  have hstop := h.stream.block.stop_lt
  rcases nodeVisits_cases (upToEnd s.tokens) with
    ⟨hnone, -⟩ | ⟨mid, a, name, rest, htok, hvisits, -⟩
  · rw [visits, hnone] at hp
    cases hp
  · rw [visits, hvisits] at hp
    rcases List.mem_cons.1 hp with rfl | hp
    · dsimp only
      omega
    · have hbounds := Forest.bounds_of_mem_depths hp
      have hevents : (events rest).length ≤ rest.length := List.length_filterMap_le _ _
      rw [htok, List.length_append, List.length_cons] at hlen
      omega

theorem reached_ne_nil (hc : (c, .beginNode name) ∈ s.tokens) : upToEnd s.tokens ≠ [] := by
  cases htok : s.tokens with
  | nil =>
    rw [htok] at hc
    cases hc
  | cons x xs =>
    rw [upToEnd]
    split_ifs
    · exact List.cons_ne_nil _ _
    · exact List.cons_ne_nil _ _

/-- What the function does from the first node on, with an array that has an entry for every depth
of a node. -/
theorem getParents_eq (h : s.In v) (hfuel : s.sizeStruct < fuel)
    (hc : (c, .beginNode name) ∈ s.tokens) (n : Nat) :
    ∃ a arr, (∀ p ∈ s.visits, p.2 < arr.length) ∧
      fdtNodeGetParents fuel v s.fdt c n =
        (loop .outOfFuel (parentsStep fuel v s.fdt c) fuel (a, 0, arr) >>= fun r =>
          (List.range (if n < ofSigned r.1 then n else ofSigned r.1)).mapM fun i : Nat =>
            PtrArray.get r.2 (r.1 - (i + 1))) ∧
      (s.visits = [] ∧ a = NULL ∨ ∃ pre name' rest,
        upToEnd s.tokens = pre ++ (a, .beginNode name') :: rest ∧
        s.visits = (a, 0) :: Forest.depths (0 + 1) (events rest)) := by
  have hfuel' : s.stop < s.start + fuel := Nat.add_lt_add_left hfuel _
  have hne := reached_ne_nil hc
  obtain ⟨hzero, hmax⟩ := le_foldl_deeper s.visits 0
  have hdepth : fdtMaxDepth fuel v s.fdt = .ok (s.visits.foldl deeper 0) :=
    h.stream.maxDepth_eq hfuel' hne
  have hrun : ∀ a, fdtNodeBegin fuel v s.fdt = .ok a → fdtNodeGetParents fuel v s.fdt c n = _ :=
    fun a ha => by
      unfold fdtNodeGetParents
      rw [hdepth, ok_bind, if_neg (not_lt.2 hzero), ha, ok_bind]
  have hroom : ∀ p ∈ s.visits, p.2 < (List.replicate (s.visits.foldl deeper 0 + 1).toNat
      (none : Option Nat)).length := by
    intro p hp
    have := hmax p hp
    rw [List.length_replicate]
    omega
  rcases h.stream.nodeBegin_cases hfuel' hne with
    ⟨hnone, hbegin⟩ | ⟨pre, a, name', rest, htok, hvisits, hbegin⟩
  · exact ⟨NULL, _, hroom, hrun _ hbegin, .inl ⟨hnone, rfl⟩⟩
  · exact ⟨a, _, hroom, hrun _ hbegin, .inr ⟨pre, name', rest, htok, hvisits⟩⟩

/-- The function returns, or uses an index out of range. -/
theorem getParents_cases (h : s.In v) (hfuel : s.sizeStruct < fuel)
    (hc : (c, .beginNode name) ∈ s.tokens) (n : Nat) :
    (∀ p ∈ s.visits, p.1 < c ∨ p.1 = c ∧ 0 < n → 0 ≤ p.2) ∧
      (∃ parents, fdtNodeGetParents fuel v s.fdt c n = .ok parents) ∨
    (∃ p ∈ s.visits, (p.1 < c ∨ p.1 = c ∧ 0 < n) ∧ p.2 < 0) ∧
      fdtNodeGetParents fuel v s.fdt c n = .error .outOfBounds := by
  have hfuel' : s.stop < s.start + fuel := Nat.add_lt_add_left hfuel _
  obtain ⟨a, arr, hroom, hrun, hstart⟩ := h.getParents_eq hfuel hc n
  rcases hstart with ⟨hnone, rfl⟩ | ⟨pre, name', rest, htok, hvisits⟩
  · -- no node is met
    obtain ⟨k, rfl⟩ : ∃ k, fuel = k + 1 := ⟨fuel - 1, by omega⟩
    have hleave : loop .outOfFuel (parentsStep (k + 1) v s.fdt c) (k + 1) (NULL, 0, arr) =
        .ok (0, arr) := loop_leave rfl
    rw [hrun, hleave, ok_bind, hnone]
    exact .inl ⟨fun p hp => absurd hp List.not_mem_nil, readBranch_ok (fun i hi => by omega)
      fun hpos => by simp [ofSigned] at hpos⟩
  have hwalk := h.stream.parents_loop hfuel' (n := fuel) (c := c) (d := 0) arr htok rfl
    (h.stream.length_depths_lt hfuel' htok (0 + 1)) (hvisits ▸ h.visits_sorted) (hvisits ▸ hroom)
    (fun i hi => by omega) (hvisits ▸ h.visits_cases hc)
  rw [← hvisits] at hwalk
  rw [hrun]
  rcases hwalk with ⟨p, hp, hstop, hgood, arr', hloop, hfilled⟩ | ⟨⟨p, hp, hlt, hneg⟩, hloop⟩
  · rw [hloop, ok_bind]
    dsimp only
    obtain ⟨hlow, hhigh⟩ := h.depth_bounds hp
    by_cases hbad : 0 < n ∧ p.2 < 0
    · -- only `c` itself can be at a negative depth
      refine .inr ⟨⟨p, hp, ?_, hbad.2⟩, readBranch_error hbad.2 ?_⟩
      · exact (hstop.symm).imp (fun hall => hall p hp) fun heq => ⟨heq, hbad.1⟩
      · unfold ofSigned
        split_ifs <;> omega
    · refine .inl ⟨fun q hq hcase => ?_, readBranch_ok hfilled fun hnum => ?_⟩
      · rcases hcase with hlt | ⟨heq, hn⟩
        · exact hgood q hq hlt
        · have hpc : p.1 = c := hstop.resolve_right fun hall => (hall q hq).ne heq
          obtain rfl : q = p := h.visits_inj hq hp (heq.trans hpc.symm)
          exact not_lt.1 fun hneg => hbad ⟨hn, hneg⟩
      · unfold ofSigned at hnum ⊢
        split_ifs at hnum ⊢ <;> omega
  · rw [hloop]
    exact .inr ⟨⟨p, hp, .inl hlt, hneg⟩, rfl⟩

end TokenBlock.In

/-- **When every index of the branch array is in range**: no node before `c` is at a negative depth,
and neither is `c`, unless nothing is to be read. -/
theorem getParents_inRange_iff {s : TokenBlock} {v : View} {fuel c : Nat} {name : List UInt8}
    (h : s.In v) (hfuel : s.sizeStruct < fuel) (hc : (c, .beginNode name) ∈ s.tokens) (n : Nat) :
    fdtNodeGetParents fuel v s.fdt c n ≠ .error .outOfBounds ↔
      ∀ p ∈ s.visits, p.1 < c ∨ p.1 = c ∧ 0 < n → 0 ≤ p.2 := by
  rcases h.getParents_cases hfuel hc n with ⟨hgood, parents, hrun⟩ | ⟨⟨p, hp, hcase, hneg⟩, hrun⟩
  · exact iff_of_true (fun herror => by cases hrun.symm.trans herror) hgood
  · exact iff_of_false (fun hne => hne hrun) fun hgood => (hgood p hp hcase).not_gt hneg

/-! ## A surplus `FDT_END_NODE` -/

/-- Two nodes at the top, with one `FDT_END_NODE` too many between them. -/
def surplus : Source where
  reserve := []
  tokens := [.beginNode [], .endNode, .endNode, .beginNode [], .endNode]
  strings := []

def surplusBlock : TokenBlock where
  fdt := 0x1000
  offStruct := surplus.offStruct
  sizeStruct := surplus.structBytes.length
  tokens := locate 0x1038 (surplus.tokens ++ [.fdtEnd])
  fdt_pos := by decide
  noWrap := by decide

def surplusView : View := View.ofList 0x1000 surplus.encode

theorem surplus_in : surplusBlock.In surplusView where
  offDtStruct := by decide
  sizeDtStruct := by decide
  laid := by
    refine ⟨_, le_rfl, laid_of_holds (by decide) ?_, .inl rfl⟩
    exact (View.holds_append.1 (View.holds_append.1 (View.holds_append.1
      (View.ofList_holds 0x1000 surplus.encode)).2).2).1

/-- The second node of `surplus` is at depth `-1`, and its parent is read at the index `-2`. -/
theorem surplus_outOfBounds : surplusBlock.In surplusView ∧
    (0x1048, .beginNode []) ∈ surplusBlock.tokens ∧ fdtMaxDepth 100 surplusView 0x1000 = .ok 0 ∧
    fdtNodeGetParents 100 surplusView 0x1000 0x1048 1 = .error .outOfBounds :=
  ⟨surplus_in, by decide, by decide, by decide⟩

/-- Without room for parents nothing is read. -/
theorem getParents_inRange_iff_surplus :
    fdtNodeGetParents 100 surplusView surplusBlock.fdt 0x1048 0 ≠ .error .outOfBounds ↔
      ∀ p ∈ surplusBlock.visits, p.1 < 0x1048 ∨ p.1 = 0x1048 ∧ 0 < 0 → 0 ≤ p.2 :=
  have hc : (0x1048, .beginNode []) ∈ surplusBlock.tokens := by decide
  getParents_inRange_iff surplus_in (by decide) hc 0

end RiscyOs
