import Mathlib.Data.Set.Lattice
import Mathlib.Order.CompletePartialOrder
import Mathlib.Order.Interval.Set.Basic
import RiscyOs.Boot.FreeList

/-!
# The free list as a list of regions

`Layout rs` says that the regions `rs` are sorted, disjoint, large enough to hold their own node
and do not wrap. `FreeList` bundles such a list. `Represents s fl` ties it to the machine: the
nodes in memory, followed from `boot_free_list`, are exactly the regions of `fl`, linked both ways.

* `Seg` is a doubly linked list segment; `seg_append` cuts it, `Seg.congr` moves it to a memory
  that agrees on its nodes.
* `relinkPrev_spec`, `relinkNext_spec` re-aim the links into a region from either side.
* `represents_machine`: every free list is represented by some memory.
* `Represents.freeBytes_eq`: the bytes found by following the list are those of its regions.
-/

namespace RiscyOs

open ByteMemory

/-- The memory `[addr, addr + size)`. -/
structure Region where
  addr : Nat
  size : Nat
  deriving Repr, DecidableEq

namespace Region

def stop (r : Region) : Nat := r.addr + r.size

def bytes (r : Region) : Set Nat := Set.Ico r.addr r.stop

/-- The bytes of the list node at the start of the region. -/
def header (r : Region) : Set Nat := Set.Ico r.addr (r.addr + regionHeader)

end Region

/-- Sorted by address, disjoint, each with room for its node, none wrapping. An end at `2 ^ 64` is
wrapped: as a word it is `0`. -/
structure Layout (rs : List Region) : Prop where
  ordered : rs.Pairwise fun a b => a.stop ≤ b.addr
  room : ∀ r ∈ rs, regionHeader ≤ r.size
  noWrap : ∀ r ∈ rs, r.stop < 2 ^ 64
  nonnull : ∀ r ∈ rs, 0 < r.addr

/-- A list of regions that can be a free list. -/
structure FreeList where
  regions : List Region
  layout : Layout regions

/-- The bytes of a list of regions. -/
def bytesOf (rs : List Region) : Set Nat := {b | ∃ r ∈ rs, b ∈ r.bytes}

/-- The bytes of the nodes of a list of regions. -/
def headersOf (rs : List Region) : Set Nat := {b | ∃ r ∈ rs, b ∈ r.header}

theorem bytesOf_append (xs ys : List Region) : bytesOf (xs ++ ys) = bytesOf xs ∪ bytesOf ys := by
  ext b
  simp only [bytesOf, List.mem_append, Set.mem_ofPred_eq, Set.mem_union, or_and_right, exists_or]

theorem bytesOf_cons (r : Region) (rs : List Region) :
    bytesOf (r :: rs) = r.bytes ∪ bytesOf rs := by
  ext b
  simp [bytesOf]

@[simp] theorem bytesOf_nil : bytesOf [] = ∅ := by simp [bytesOf]

namespace Layout

variable {pre post rs : List Region} {r : Region}

theorem nil : Layout [] := ⟨.nil, by simp, by simp, by simp⟩

theorem size_lt (h : Layout rs) (hr : r ∈ rs) : r.size < 2 ^ 64 := by
  have hwrap := h.noWrap r hr
  simp only [Region.stop] at hwrap
  omega

theorem sublist {rs' : List Region} (h : Layout rs) (hs : rs'.Sublist rs) : Layout rs' :=
  ⟨h.ordered.sublist hs, fun r hr => h.room r (hs.subset hr), fun r hr => h.noWrap r (hs.subset hr),
    fun r hr => h.nonnull r (hs.subset hr)⟩

/-- Every region before `r` ends below it, and every region after it starts above it. -/
theorem around (h : Layout (pre ++ r :: post)) :
    (∀ x ∈ pre, x.stop ≤ r.addr) ∧ ∀ y ∈ post, r.stop ≤ y.addr := by
  have hord := h.ordered
  rw [List.pairwise_append, List.pairwise_cons] at hord
  exact ⟨fun x hx => hord.2.2 x hx r (by simp), hord.2.1.1⟩

/-- Two regions with one address are the same. -/
theorem eq_of_addr_eq {x y : Region} (h : Layout rs) (hx : x ∈ rs) (hy : y ∈ rs)
    (haddr : x.addr = y.addr) : x = y := by
  have hroomx := h.room x hx
  have hroomy := h.room y hy
  obtain ⟨pre, post, rfl⟩ := List.append_of_mem hx
  obtain ⟨hbelow, habove⟩ := h.around
  simp only [Region.stop, regionHeader] at hbelow habove hroomx hroomy
  rcases List.mem_append.1 hy with hy | hy
  · have := hbelow y hy
    omega
  rcases List.mem_cons.1 hy with rfl | hy
  · rfl
  · have := habove y hy
    omega

/-- A layout with `r` in the middle is a layout without it and a place for `r`. -/
theorem middle_iff : Layout (pre ++ r :: post) ↔
    Layout (pre ++ post) ∧ (∀ x ∈ pre, x.stop ≤ r.addr) ∧ (∀ y ∈ post, r.stop ≤ y.addr) ∧
      regionHeader ≤ r.size ∧ r.stop < 2 ^ 64 ∧ 0 < r.addr := by
  constructor
  · intro h
    exact ⟨h.sublist (List.Sublist.append_left (List.sublist_cons_self r post) pre), h.around.1,
      h.around.2, h.room r (by simp), h.noWrap r (by simp), h.nonnull r (by simp)⟩
  · rintro ⟨h, hbelow, habove, hroom, hwrap, hnull⟩
    have hmem : ∀ x ∈ pre ++ r :: post, x ∈ pre ++ post ∨ x = r := by
      simp only [List.mem_append, List.mem_cons]
      tauto
    have hord := List.pairwise_append.1 h.ordered
    refine ⟨List.pairwise_append.2 ⟨hord.1, List.pairwise_cons.2 ⟨habove, hord.2.1⟩, ?_⟩,
      ?_, ?_, ?_⟩
    · intro x hx y hy
      rcases List.mem_cons.1 hy with rfl | hy
      · exact hbelow x hx
      · exact hord.2.2 x hx y hy
    · intro x hx
      rcases hmem x hx with hx | rfl
      · exact h.room x hx
      · exact hroom
    · intro x hx
      rcases hmem x hx with hx | rfl
      · exact h.noWrap x hx
      · exact hwrap
    · intro x hx
      rcases hmem x hx with hx | rfl
      · exact h.nonnull x hx
      · exact hnull

/-- A region may shrink inside its bounds, as long as its node still fits. -/
theorem shrink {r' : Region} (h : Layout (pre ++ r :: post)) (hlo : r.addr ≤ r'.addr)
    (hhi : r'.stop ≤ r.stop) (hroom : regionHeader ≤ r'.size) : Layout (pre ++ r' :: post) := by
  obtain ⟨hrest, hbelow, habove, -, hwrap, hnull⟩ := middle_iff.1 h
  exact middle_iff.2 ⟨hrest, fun x hx => (hbelow x hx).trans hlo,
    fun y hy => hhi.trans (habove y hy), hroom, by omega, by omega⟩

/-- The nodes before a region, and those after it, are outside the region. -/
theorem not_mem_headersOf (h : Layout (pre ++ r :: post)) {b : Nat} (hb : b ∈ r.bytes) :
    b ∉ headersOf pre ∧ b ∉ headersOf post := by
  obtain ⟨hrest, hbelow, habove, -⟩ := middle_iff.1 h
  constructor
  · rintro ⟨x, hx, hxb⟩
    have := hbelow x hx
    have := hrest.room x (List.mem_append_left _ hx)
    simp only [Region.bytes, Region.header, Region.stop, regionHeader, Set.mem_Ico] at *
    omega
  · rintro ⟨y, hy, hyb⟩
    have := habove y hy
    simp only [Region.bytes, Region.header, Region.stop, regionHeader, Set.mem_Ico] at *
    omega

/-- The nodes on the two sides of a region are apart. -/
theorem headersOf_disjoint (h : Layout (pre ++ post)) {b : Nat} (hb : b ∈ headersOf post) :
    b ∉ headersOf pre := by
  obtain ⟨y, hy, hyb⟩ := hb
  rintro ⟨x, hx, hxb⟩
  have := (List.pairwise_append.1 h.ordered).2.2 x hx y hy
  have := h.room x (List.mem_append_left _ hx)
  simp only [Region.header, Region.stop, regionHeader, Set.mem_Ico] at *
  omega

theorem header_subset_bytes (h : Layout rs) (hr : r ∈ rs) : r.header ⊆ r.bytes := by
  intro b hb
  have := h.room r hr
  simp only [Region.bytes, Region.header, Region.stop, regionHeader, Set.mem_Ico] at *
  omega

end Layout

/-! ## Doubly linked segments -/

/-- The address of the last region, or `a`. -/
def lastAddr (a : Nat) : List Region → Nat
  | [] => a
  | r :: rs => lastAddr r.addr rs

/-- From `p`, with `a` behind it, the nodes in memory are the regions `rs`, and the last one
points at `q`. -/
def Seg (m : Mem) : Nat → Nat → List Region → Nat → Prop
  | _, p, [], q => p = q
  | a, p, r :: rs, q =>
    p = r.addr ∧ loadLE m (p + 8) 8 = a ∧ loadLE m (p + 16) 8 = r.size ∧
      Seg m p (loadLE m p 8) rs q

theorem lastAddr_append (a : Nat) (xs : List Region) (r : Region) (ys : List Region) :
    lastAddr a (xs ++ r :: ys) = lastAddr r.addr ys := by
  induction xs generalizing a with
  | nil => rfl
  | cons x xs ih => exact ih x.addr

theorem seg_append {m : Mem} {a p q : Nat} {xs ys : List Region} :
    Seg m a p (xs ++ ys) q ↔ ∃ mid, Seg m a p xs mid ∧ Seg m (lastAddr a xs) mid ys q := by
  induction xs generalizing a p with
  | nil => simp [Seg, lastAddr]
  | cons x xs ih =>
    simp only [List.cons_append, Seg, ih, lastAddr]
    constructor
    · rintro ⟨rfl, h1, h2, mid, h3, h4⟩
      exact ⟨mid, ⟨rfl, h1, h2, h3⟩, h4⟩
    · rintro ⟨mid, ⟨rfl, h1, h2, h3⟩, h4⟩
      exact ⟨rfl, h1, h2, mid, h3, h4⟩

/-- A segment reads only its nodes. -/
theorem Seg.congr {m m' : Mem} {a p q : Nat} {rs : List Region} (h : Seg m a p rs q)
    (hag : ∀ b ∈ headersOf rs, m' b = m b) : Seg m' a p rs q := by
  induction rs generalizing a p with
  | nil => exact h
  | cons r rs ih =>
    obtain ⟨rfl, hprev, hsize, hrest⟩ := h
    have hword : ∀ off ≤ 16, loadLE m' (r.addr + off) 8 = loadLE m (r.addr + off) 8 :=
      fun off hoff => loadLE_congr fun b hb hb' =>
        hag b ⟨r, by simp, by omega, by simp only [regionHeader]; omega⟩
    have hnext := hword 0 (by omega)
    rw [Nat.add_zero] at hnext
    refine ⟨rfl, (hword 8 (by omega)).trans hprev, (hword 16 le_rfl).trans hsize, ?_⟩
    rw [hnext]
    exact ih hrest fun b ⟨x, hx, hb⟩ => hag b ⟨x, List.mem_cons_of_mem _ hx, hb⟩

/-- Around `r` in a list: the segment before it, its own fields, and the segment after it. -/
theorem seg_middle {m : Mem} {p : Nat} {pre post : List Region} {r : Region} :
    Seg m NULL p (pre ++ r :: post) NULL ↔
      Seg m NULL p pre r.addr ∧ loadLE m (r.addr + 8) 8 = lastAddr NULL pre ∧
        loadLE m (r.addr + 16) 8 = r.size ∧ Seg m r.addr (loadLE m r.addr 8) post NULL := by
  rw [seg_append]
  constructor
  · rintro ⟨mid, hpre, rfl, hprev, hsize, hpost⟩
    exact ⟨hpre, hprev, hsize, hpost⟩
  · rintro ⟨hpre, hprev, hsize, hpost⟩
    exact ⟨r.addr, hpre, rfl, hprev, hsize, hpost⟩

/-- A list without `r`: the links on either side lead to each other. -/
theorem seg_join {m : Mem} {p q : Nat} {pre post : List Region} (hpre : Seg m NULL p pre q)
    (hpost : Seg m (lastAddr NULL pre) q post NULL) : Seg m NULL p (pre ++ post) NULL :=
  seg_append.2 ⟨q, hpre, hpost⟩

/-! ## Field accesses through a node -/

namespace Machine

variable {s : Machine} {off p x : Nat}

theorem getField_eq (h : 0 < p) : s.getField off p = .ok (loadLE s.mem (p + off) 8) :=
  if_neg h.ne'

theorem setField_eq (h : 0 < p) :
    s.setField off p x = .ok { s with mem := storeLE s.mem (p + off) 8 x } :=
  if_neg h.ne'

theorem next_eq (h : 0 < p) : s.next p = .ok (loadLE s.mem p 8) := getField_eq h

theorem prev_eq (h : 0 < p) : s.prev p = .ok (loadLE s.mem (p + 8) 8) := getField_eq h

theorem size_eq (h : 0 < p) : s.size p = .ok (loadLE s.mem (p + 16) 8) := getField_eq h

theorem setNext_eq (h : 0 < p) :
    s.setNext p x = .ok { s with mem := storeLE s.mem p 8 x } := setField_eq h

theorem setPrev_eq (h : 0 < p) :
    s.setPrev p x = .ok { s with mem := storeLE s.mem (p + 8) 8 x } := setField_eq h

theorem setSize_eq (h : 0 < p) :
    s.setSize p x = .ok { s with mem := storeLE s.mem (p + 16) 8 x } := setField_eq h

end Machine

theorem loadLE_storeLE_word {m : Mem} {a x : Nat} (hx : x < 2 ^ 64) :
    loadLE (storeLE m a 8 x) a 8 = x := by
  rw [loadLE_storeLE_self]
  exact Nat.mod_eq_of_lt (by norm_num at hx ⊢; exact hx)

/-! ## Re-aiming links -/

/-- The links into `region` from the left now lead to `x`. -/
theorem relinkPrev_spec {s : Machine} {pre : List Region} {region x : Nat} (hL : Layout pre)
    (hseg : Seg s.mem NULL s.bootFreeList pre region) (hx : x < 2 ^ 64) :
    ∃ s', relinkPrev s region (lastAddr NULL pre) x = .ok s' ∧
      Seg s'.mem NULL s'.bootFreeList pre x ∧ ∀ b ∉ headersOf pre, s'.mem b = s.mem b := by
  rcases List.eq_nil_or_concat' pre with rfl | ⟨xs, y, rfl⟩
  · exact ⟨_, (if_neg (by simp [lastAddr])).trans (if_pos hseg), rfl, fun _ _ => rfl⟩
  · have hy : 0 < y.addr := hL.nonnull y (by simp)
    have hroom := hL.room y (by simp)
    obtain ⟨mid, hxs, rfl, hprev, hsize, -⟩ := seg_append.1 hseg
    refine ⟨{ s with mem := storeLE s.mem y.addr 8 x }, ?_, ?_, ?_⟩
    · rw [relinkPrev, lastAddr_append, lastAddr, if_pos hy.ne', Machine.setNext_eq hy]
    · refine seg_append.2 ⟨y.addr, hxs.congr fun b hb => storeLE_outside ?_, rfl, ?_, ?_, ?_⟩
      · obtain ⟨z, hz, hzb⟩ := hb
        have hord := hL.around.1 z hz
        have := hL.room z (by simp [hz])
        simp only [Region.header, Region.stop, regionHeader, Set.mem_Ico] at *
        omega
      · rw [loadLE_storeLE_disjoint (by omega), hprev]
      · rw [loadLE_storeLE_disjoint (by omega), hsize]
      · exact loadLE_storeLE_word hx
    · intro b hb
      apply storeLE_outside
      by_contra hin
      exact hb ⟨y, by simp, by omega, by simp only [regionHeader]; omega⟩

/-- The links into `post` from the left now come from `x`. -/
theorem relinkNext_spec {s : Machine} {post : List Region} {a next x : Nat} (hL : Layout post)
    (hseg : Seg s.mem a next post NULL) (hx : x < 2 ^ 64) :
    ∃ s', relinkNext s next x = .ok s' ∧ s'.bootFreeList = s.bootFreeList ∧
      Seg s'.mem x next post NULL ∧ ∀ b ∉ headersOf post, s'.mem b = s.mem b := by
  cases post with
  | nil => exact ⟨s, if_neg (by simpa [Seg] using hseg), rfl, hseg, fun _ _ => rfl⟩
  | cons y ys =>
    have hy : 0 < y.addr := hL.nonnull y (by simp)
    obtain ⟨rfl, -, hsize, hrest⟩ := hseg
    refine ⟨{ s with mem := storeLE s.mem (y.addr + 8) 8 x }, ?_, rfl, ?_, ?_⟩
    · rw [relinkNext, if_pos hy.ne', Machine.setPrev_eq hy]
    · refine ⟨rfl, loadLE_storeLE_word hx, ?_, ?_⟩
      · rw [loadLE_storeLE_disjoint (by omega), hsize]
      · rw [loadLE_storeLE_disjoint (by omega)]
        refine hrest.congr fun b hb => storeLE_outside ?_
        obtain ⟨z, hz, hzb⟩ := hb
        have hord := (List.pairwise_cons.1 hL.ordered).1 z hz
        have := hL.room y (by simp)
        simp only [Region.header, Region.stop, regionHeader, Set.mem_Ico] at *
        omega
    · intro b hb
      apply storeLE_outside
      by_contra hin
      exact hb ⟨y, by simp, by omega, by simp only [regionHeader]; omega⟩

/-! ## The list in the machine -/

/-- The address of the first region, or `NULL`. -/
def firstAddr : List Region → Nat
  | [] => NULL
  | r :: _ => r.addr

theorem Seg.eq_firstAddr {m : Mem} {a p : Nat} {rs : List Region} (h : Seg m a p rs NULL) :
    p = firstAddr rs := by
  cases rs with
  | nil => exact h
  | cons r rs => exact h.1

/-- A memory holds only one list. -/
theorem Seg.unique {m : Mem} {a p : Nat} {rs rs' : List Region} (h : Seg m a p rs NULL)
    (h' : Seg m a p rs' NULL) (hnull : ∀ r ∈ rs, 0 < r.addr)
    (hnull' : ∀ r ∈ rs', 0 < r.addr) : rs = rs' := by
  induction rs generalizing a p rs' with
  | nil =>
    cases rs' with
    | nil => rfl
    | cons r' rs' => exact absurd (h.symm.trans h'.1) (hnull' r' (by simp)).ne
  | cons r rs ih =>
    cases rs' with
    | nil => exact absurd (h'.symm.trans h.1) (hnull r (by simp)).ne
    | cons r' rs' =>
      obtain ⟨rfl, -, hsize, hrest⟩ := h
      obtain ⟨haddr, -, hsize', hrest'⟩ := h'
      obtain rfl : r = r' := by
        cases r
        cases r'
        exact congrArg₂ Region.mk haddr (hsize.symm.trans hsize')
      rw [ih hrest hrest' (fun x hx => hnull x (List.mem_cons_of_mem r hx))
        fun x hx => hnull' x (List.mem_cons_of_mem r hx)]

theorem Layout.firstAddr_lt {rs : List Region} (h : Layout rs) : firstAddr rs < 2 ^ 64 := by
  cases rs with
  | nil => exact Nat.two_pow_pos 64
  | cons r rs => exact (Nat.le_add_right r.addr r.size).trans_lt (h.noWrap r (by simp))

/-- The nodes in memory are the regions of `fl`, linked both ways, the first with no node before
it. -/
def Represents (s : Machine) (fl : FreeList) : Prop :=
  Seg s.mem NULL s.bootFreeList fl.regions NULL

theorem Represents.unique {s : Machine} {fl fl' : FreeList} (h : Represents s fl)
    (h' : Represents s fl') : fl.regions = fl'.regions :=
  Seg.unique h h' fl.layout.nonnull fl'.layout.nonnull

/-- Write the nodes of a list of regions, the first with `a` behind it. -/
def linkNodes (m : Mem) (a : Nat) : List Region → Mem
  | [] => m
  | r :: rs => storeLE (storeLE (storeLE (linkNodes m r.addr rs) r.addr 8 (firstAddr rs))
      (r.addr + 8) 8 a) (r.addr + 16) 8 r.size

theorem seg_linkNodes {m : Mem} {a : Nat} {rs : List Region} (hL : Layout rs) (ha : a < 2 ^ 64) :
    Seg (linkNodes m a rs) a (firstAddr rs) rs NULL := by
  induction rs generalizing a with
  | nil => rfl
  | cons r rs ih =>
    have hrest : Layout rs := hL.sublist (List.sublist_cons_self r rs)
    have hwrap := hL.noWrap r (by simp)
    simp only [Region.stop] at hwrap
    have hnext : loadLE (linkNodes m a (r :: rs)) r.addr 8 = firstAddr rs := by
      rw [linkNodes, loadLE_storeLE_disjoint (by omega), loadLE_storeLE_disjoint (by omega),
        loadLE_storeLE_word hrest.firstAddr_lt]
    refine ⟨rfl, ?_, ?_, ?_⟩
    · rw [firstAddr, linkNodes, loadLE_storeLE_disjoint (by omega), loadLE_storeLE_word ha]
    · rw [firstAddr, linkNodes, loadLE_storeLE_word (by omega)]
    · rw [firstAddr, hnext]
      -- the nodes of `rs` stand above the three words written
      refine (ih hrest (a := r.addr) (by omega)).congr fun b hb => ?_
      have hnot := Layout.headersOf_disjoint (show Layout ([r] ++ rs) from hL) hb
      have hout : ¬ (r.addr ≤ b ∧ b < r.addr + regionHeader) := fun h => hnot ⟨r, by simp, h⟩
      simp only [regionHeader] at hout
      rw [linkNodes, storeLE_outside (by omega), storeLE_outside (by omega),
        storeLE_outside (by omega)]

/-- A machine with the list `fl`, and zeros elsewhere. -/
def FreeList.machine (fl : FreeList) : Machine :=
  ⟨linkNodes (fun _ => 0) NULL fl.regions, firstAddr fl.regions⟩

theorem represents_machine (fl : FreeList) : Represents fl.machine fl :=
  seg_linkNodes fl.layout (Nat.two_pow_pos 64)

/-- Two free pages with a gap between them. -/
def twoPages : FreeList :=
  ⟨[⟨0x1000, 0x1000⟩, ⟨0x8000, 0x1000⟩], ⟨by decide, by decide, by decide, by decide⟩⟩

/-! ## The bytes of the list in memory -/

/-- Following `next` from `p` leads to the node `q`. -/
inductive NodeFrom (m : Mem) : Nat → Nat → Prop where
  | here {p : Nat} : p ≠ NULL → NodeFrom m p p
  | next {p q : Nat} : p ≠ NULL → NodeFrom m (loadLE m p 8) q → NodeFrom m p q

/-- The bytes of the regions on the list. -/
def Machine.freeBytes (s : Machine) : Set Nat :=
  {b | ∃ p, NodeFrom s.mem s.bootFreeList p ∧ p ≤ b ∧ b < p + loadLE s.mem (p + 16) 8}

theorem Seg.nodeFrom_iff {m : Mem} {a p q : Nat} {rs : List Region} (h : Seg m a p rs NULL)
    (hL : Layout rs) : NodeFrom m p q ↔ ∃ r ∈ rs, r.addr = q := by
  induction rs generalizing a p with
  | nil =>
    obtain rfl : p = NULL := h
    simp only [List.not_mem_nil, false_and, exists_false, iff_false]
    rintro (hne | ⟨hne, -⟩) <;> exact hne rfl
  | cons r rs ih =>
    obtain ⟨rfl, -, -, hrest⟩ := h
    have hr : r.addr ≠ NULL := (hL.nonnull r (by simp)).ne'
    have hrest := ih hrest (hL.sublist (List.sublist_cons_self r rs))
    rw [List.exists_mem_cons_iff, ← hrest]
    constructor
    · rintro (- | ⟨-, hq⟩)
      · exact .inl rfl
      · exact .inr hq
    · rintro (rfl | hq)
      · exact .here hr
      · exact .next hr hq

theorem Seg.size_eq {m : Mem} {a p q : Nat} {rs : List Region} (h : Seg m a p rs q) {r : Region}
    (hr : r ∈ rs) : loadLE m (r.addr + 16) 8 = r.size := by
  obtain ⟨pre, post, rfl⟩ := List.append_of_mem hr
  obtain ⟨mid, -, rfl, -, hsize, -⟩ := seg_append.1 h
  exact hsize

/-- The bytes found by following the list are those of its regions. -/
theorem Represents.freeBytes_eq {s : Machine} {fl : FreeList} (h : Represents s fl) :
    s.freeBytes = bytesOf fl.regions := by
  ext b
  constructor
  · rintro ⟨p, hp, hlo, hhi⟩
    obtain ⟨r, hr, rfl⟩ := (Seg.nodeFrom_iff h fl.layout).1 hp
    rw [Seg.size_eq h hr] at hhi
    exact ⟨r, hr, hlo, hhi⟩
  · rintro ⟨r, hr, hlo, hhi⟩
    refine ⟨r.addr, (Seg.nodeFrom_iff h fl.layout).2 ⟨r, hr, rfl⟩, hlo, ?_⟩
    rwa [Seg.size_eq h hr]

end RiscyOs
