import RiscyOs.Boot.Free
import RiscyOs.Boot.Optimal
import RiscyOs.Lib.Simulation

/-!
# The list never has two regions

`boot_free` inserts a second region only by a write through `NULL`, and `boot_alloc` never splits
a region in two. So the allocator answers like one that keeps a single region and no list at all,
`OneRegion`, whatever ranges it is given: they may wrap, overlap, or be given twice.

* `soleFree_agrees`, `soleAlloc_agrees`: one call answers as `OneRegion` does, faults included.
* `soleFree_frame`, `soleAlloc_frame`: what a call does not write to.
* `bootRuns_oneRegion`: so does every run from the empty list, in which others may write to all
  memory outside the node of the region.
* `OneRegion.alloc_within`: the block is aligned, inside the region, and apart from what is left.
* `bootFree_after_alloc`: what is left of a region keeps the block taken from it from coming back.
-/

namespace RiscyOs

open ByteMemory FuelLoop Simulation

/-! ## The allocator with one region -/

namespace OneRegion

/-- What `boot_free` does to a list of at most one region. -/
def free (o : Option Region) (start size : Nat) : Result (KError × Option Region) :=
  match o with
  | none =>
    if size < regionHeader then .ok (.empty, none)
    else if start = NULL then .error .nullDeref
    else .ok (.success, some ⟨start, size⟩)
  | some r =>
    let stop := wadd r.addr (wmul regionHeader r.size)
    if stop = start then .ok (.success, some ⟨r.addr, wadd r.size size⟩)
    else if stop < start then .ok (.exist, some r)
    else if r.addr > wadd start size then .error .nullDeref
    else .ok (.exist, some r)

/-- What `boot_alloc` does to it. -/
def alloc (o : Option Region) (size alignment : Nat) : Result (Nat × Option Region) :=
  match o with
  | none => .ok (NULL, none)
  | some r =>
    let taken := wadd size (placedPad size alignment r)
    let rest := wsub r.size taken
    if greater size alignment r < 0 then .ok (NULL, some r)
    else if placedLow size alignment r then
      if rest < regionHeader then .ok (wadd r.addr (lowPad r alignment), none)
      else if wadd r.addr taken = NULL then .error .nullDeref
      else .ok (wadd r.addr (lowPad r alignment), some ⟨wadd r.addr taken, rest⟩)
    else .ok (wadd r.addr rest, if rest < regionHeader then none else some ⟨r.addr, rest⟩)

end OneRegion

/-- The list of the machine is the region `o`, or empty. The region may be any. -/
def ListIs (s : Machine) (o : Option Region) : Prop :=
  Seg s.mem NULL s.bootFreeList o.toList NULL ∧ ∀ r ∈ o, 0 < r.addr

variable {s s' : Machine} {o : Option Region} {r : Region} {start size alignment fuel : Nat}

theorem listIs_none : ListIs s none ↔ s.bootFreeList = NULL := by
  simp [ListIs, Seg]

theorem listIs_some : ListIs s (some r) ↔ 0 < r.addr ∧ s.bootFreeList = r.addr ∧
    loadLE s.mem r.addr 8 = NULL ∧ loadLE s.mem (r.addr + 8) 8 = NULL ∧
    loadLE s.mem (r.addr + 16) 8 = r.size := by
  constructor
  · rintro ⟨⟨hhead, hprev, hsize, hnext⟩, hpos⟩
    rw [hhead] at hprev hsize hnext
    exact ⟨hpos r rfl, hhead, hnext, hprev, hsize⟩
  · rintro ⟨hpos, hhead, hnext, hprev, hsize⟩
    rw [← hhead] at hnext hprev hsize
    refine ⟨⟨hhead, hprev, hsize, hnext⟩, ?_⟩
    rintro _ ⟨rfl⟩
    exact hpos

/-- Only the node of the region matters. -/
theorem ListIs.congr {m : Mem} (h : ListIs s o)
    (hm : ∀ b, s.bootFreeList ≤ b → b < s.bootFreeList + regionHeader → m b = s.mem b) :
    ListIs { s with mem := m } o := by
  cases o with
  | none => exact listIs_none.2 (listIs_none.1 h)
  | some r =>
    obtain ⟨hpos, hhead, hnext, hprev, hsize⟩ := listIs_some.1 h
    have hword : ∀ off ≤ 16, loadLE m (r.addr + off) 8 = loadLE s.mem (r.addr + off) 8 :=
      fun off hoff => loadLE_congr fun b hb hb' =>
        hm b (by omega) (by simp only [regionHeader]; omega)
    exact listIs_some.2 ⟨hpos, hhead, (hword 0 (by omega)).trans hnext,
      (hword 8 (by omega)).trans hprev, (hword 16 le_rfl).trans hsize⟩

/-! ## Freeing -/

/-- A node that has just been written. -/
theorem listIs_sole (hstart : 0 < start) (hsize : size < 2 ^ 64) :
    ListIs (sole s start size) (some ⟨start, size⟩) := by
  refine listIs_some.2 ⟨hstart, rfl, ?_, ?_, ?_⟩
  · dsimp only [sole]
    rw [loadLE_storeLE_disjoint (by omega), loadLE_storeLE_word (by norm_num)]
  · dsimp only [sole]
    rw [loadLE_storeLE_disjoint (by omega), loadLE_storeLE_disjoint (by omega),
      loadLE_storeLE_word (by norm_num)]
  · exact loadLE_storeLE_word hsize

/-- A new size for the region. -/
theorem ListIs.setSize {x : Nat} (h : ListIs s (some r)) (hx : x < 2 ^ 64) :
    ListIs { s with mem := storeLE s.mem (r.addr + 16) 8 x } (some ⟨r.addr, x⟩) := by
  obtain ⟨hpos, hhead, hnext, hprev, -⟩ := listIs_some.1 h
  refine listIs_some.2 ⟨hpos, hhead, ?_, ?_, loadLE_storeLE_word hx⟩
  · exact (loadLE_storeLE_disjoint (.inl (by dsimp only; omega))).trans hnext
  · exact (loadLE_storeLE_disjoint (.inl (by dsimp only; omega))).trans hprev

/-- With no next region, every merge is with the first region only. -/
theorem mergeBefore_some {stop : Nat} (h : ListIs s (some r)) :
    mergeBefore s s.bootFreeList size stop = .ok (.success, grow s size) := by
  obtain ⟨hpos, hhead, hnext, -⟩ := listIs_some.1 h
  have hfirst : firstNext s = NULL := by rw [firstNext, hhead, hnext]
  rw [mergeBefore_eq (hhead ▸ hpos), if_neg fun hn => hn.1 hfirst, if_pos (.inl hfirst)]

/-- **`boot_free` answers as the allocator with one region does.** -/
theorem soleFree_agrees (h : ListIs s o) (hsize : size < 2 ^ 64) :
    Agrees ListIs (bootFree s start size) (OneRegion.free o start size) := by
  cases o with
  | none =>
    rw [bootFree_nil (listIs_none.1 h), OneRegion.free]
    split_ifs with hsmall hnull
    · exact ⟨rfl, h⟩
    · rfl
    · exact ⟨rfl, listIs_sole (Nat.pos_of_ne_zero hnull) hsize⟩
  | some r =>
    obtain ⟨hpos, hhead, -, -, hfield⟩ := listIs_some.1 h
    have hscaled : scaledEnd s = wadd r.addr (wmul regionHeader r.size) := by
      rw [scaledEnd, hhead, hfield]
    rw [bootFree_cons (hhead ▸ hpos), OneRegion.free, hscaled, mergeBefore_some h, hhead]
    split_ifs with hmerge hbefore hafter
    · refine ⟨rfl, ?_⟩
      rw [grow, hhead, hfield]
      exact hhead ▸ h.setSize (wadd_lt _ _)
    · exact ⟨rfl, h⟩
    · rfl
    · exact ⟨rfl, h⟩

theorem mem_headersOf_some {x : Nat} : x ∈ headersOf (some r).toList ↔ x ∈ r.header := by
  simp [headersOf]

/-- Freeing writes to the node of the region, or to the range. -/
theorem soleFree_frame {code : KError} {x : Nat} (h : ListIs s o)
    (hrun : bootFree s start size = .ok (code, s')) (hx : x ∉ headersOf o.toList)
    (hrange : x ∉ Region.bytes ⟨start, size⟩) : s'.mem x = s.mem x := by
  cases o with
  | none =>
    rw [bootFree_nil (listIs_none.1 h)] at hrun
    split_ifs at hrun with hsmall <;> cases hrun
    · rfl
    · have hout : ¬ (start ≤ x ∧ x < start + 24) := by
        rintro ⟨hlo, hhi⟩
        simp only [regionHeader, not_lt] at hsmall
        exact hrange ⟨hlo, hhi.trans_le (Nat.add_le_add_left hsmall start)⟩
      dsimp only [sole]
      rw [storeLE_outside (by omega), storeLE_outside (by omega), storeLE_outside (by omega)]
  | some r =>
    obtain ⟨hpos, hhead, -⟩ := listIs_some.1 h
    rw [bootFree_cons (hhead ▸ hpos), mergeBefore_some h] at hrun
    split_ifs at hrun <;> cases hrun
    · have hout : ¬ (r.addr ≤ x ∧ x < r.addr + 24) := fun hin => hx (mem_headersOf_some.2 hin)
      dsimp only [grow]
      rw [hhead, storeLE_outside (by omega)]
    · rfl
    · rfl

/-! ## Allocating -/

/-- The padding above the block, also for a region that wraps. -/
theorem allocAfterUnalignment_wrap (hsize : size ≤ 2 ^ 64) (halign : alignment < 64)
    (hr : 0 < r.addr) (hmem : loadLE s.mem (r.addr + 16) 8 = r.size) :
    allocAfterUnalignment s r.addr size alignment = .ok (highPad r size alignment) := by
  have hpow : 2 ^ alignment ∣ 2 ^ 64 := pow_dvd_pow 2 halign.le
  have hsub : wsub (wadd r.addr r.size) size % 2 ^ alignment = highPad r size alignment := by
    obtain ⟨k, hk⟩ := hpow
    have hneg : (2 ^ 64 - size % 2 ^ 64) % 2 ^ alignment = (2 ^ 64 - size) % 2 ^ alignment := by
      rcases hsize.lt_or_eq with hlt | rfl
      · rw [Nat.mod_eq_of_lt hlt]
      · rw [Nat.mod_self, Nat.sub_zero, Nat.sub_self, hk, Nat.mul_mod_right, Nat.zero_mod]
    rw [wsub, wadd, highPad, Nat.mod_mod_of_dvd _ ⟨k, hk⟩, Nat.add_mod,
      Nat.mod_mod_of_dvd _ ⟨k, hk⟩, hneg, ← Nat.add_mod, Nat.add_sub_assoc hsize]
    rfl
  simp only [allocAfterUnalignment, Machine.size_eq hr, hmem, ok_bind, pure_eq_ok,
    alignmentMask_eq halign, Nat.and_two_pow_sub_one_eq_mod, hsub]

/-- The loop of `boot_alloc` looks at the one region. -/
theorem bootAllocScan_some (h : ListIs s (some r)) (hsize : size ≤ 2 ^ 64)
    (halign : alignment < 64) (hfuel : 1 < fuel) :
    bootAllocScan fuel s size alignment r.addr ⟨NULL, 2 ^ 64 - 1, false⟩ =
      .ok (Fit.of size alignment (if 0 ≤ greater size alignment r then some r else none)) := by
  obtain ⟨hpos, -, hnext, -, hfield⟩ := listIs_some.1 h
  obtain ⟨k, rfl⟩ : ∃ k, fuel = k + 1 + 1 := ⟨fuel - 2, by omega⟩
  have hnone : ∀ c ∈ (none : Option Region), 0 ≤ greater size alignment c := by
    rintro c ⟨⟩
  have hstep := Fit.of_step hnone r
  have hafter : regionSizeAllocAfter s r.addr size alignment =
      .ok (leftAfter size alignment r) := by
    simp only [regionSizeAllocAfter, allocAfterUnalignment_wrap hsize halign hpos hfield, ok_bind,
      Machine.size_eq hpos, hfield, pure_eq_ok, leftAfter, leftOver]
  have hbefore : regionSizeAllocBefore s r.addr size alignment =
      .ok (leftBefore size alignment r) := by
    simp only [regionSizeAllocBefore, lowPad_eq halign, ok_bind, Machine.size_eq hpos, hfield,
      pure_eq_ok, leftBefore, leftOver]
  rw [bootAllocScan, loop_again (NULL, Fit.step size alignment (Fit.of size alignment none) r)]
  · have hleave : bootAllocScan (k + 1) s size alignment NULL
        (Fit.step size alignment (Fit.of size alignment none) r) = .ok _ := loop_leave (if_pos rfl)
    rw [hstep] at hleave ⊢
    exact hleave
  · simp only [if_neg hpos.ne', hafter, hbefore, bootFreeListNext, Machine.next_eq hpos, hnext,
      ok_bind, pure_eq_ok]
    rfl

/-- With no neighbours, unlinking empties the list and writes nothing. -/
theorem unlinkRegion_some (h : ListIs s (some r)) :
    unlinkRegion s r.addr = .ok { s with bootFreeList := NULL } := by
  obtain ⟨hpos, hhead, hnext, hprev, -⟩ := listIs_some.1 h
  simp [unlinkRegion, Machine.prev_eq hpos, Machine.next_eq hpos, hnext, hprev, ok_bind, relinkPrev,
    relinkNext, hhead]

/-- Moving the node of the one region, into its own bytes or anywhere else. -/
theorem moveRegion_some {offset newSize : Nat} (h : ListIs s (some r)) (hnew : newSize < 2 ^ 64) :
    (wadd r.addr offset = NULL → moveRegion s r.addr offset newSize = .error .nullDeref) ∧
      (wadd r.addr offset ≠ NULL → ∃ s', moveRegion s r.addr offset newSize = .ok s' ∧
        ListIs s' (some ⟨wadd r.addr offset, newSize⟩)) := by
  obtain ⟨hpos, hhead, hnext, hprev, -⟩ := listIs_some.1 h
  constructor
  · intro hnull
    simp only [moveRegion, Machine.prev_eq hpos, Machine.next_eq hpos, ok_bind, hnull]
    rfl
  · intro hne
    obtain ⟨q, hqdef⟩ : ∃ q, wadd r.addr offset = q := ⟨_, rfl⟩
    rw [hqdef] at hne ⊢
    have hq : 0 < q := Nat.pos_of_ne_zero hne
    refine ⟨⟨storeLE (storeLE (storeLE s.mem (q + 16) 8 newSize) (q + 8) 8 NULL) q 8 NULL, q⟩,
      ?_, listIs_some.2 ⟨hq, rfl, ?_, ?_, ?_⟩⟩
    · simp only [moveRegion, Machine.prev_eq hpos, Machine.next_eq hpos, hnext, hprev, ok_bind,
        hqdef, Machine.setSize_eq hq, Machine.setPrev_eq hq, Machine.setNext_eq hq]
      simp [relinkPrev, relinkNext, hhead, ok_bind]
    · exact loadLE_storeLE_word (by norm_num)
    · dsimp only
      rw [loadLE_storeLE_disjoint (by omega), loadLE_storeLE_word (by norm_num)]
    · dsimp only
      rw [loadLE_storeLE_disjoint (by omega), loadLE_storeLE_disjoint (by omega),
        loadLE_storeLE_word hnew]

/-- The block at the low end. -/
theorem allocBefore_agrees (h : ListIs s (some r)) (halign : alignment < 64)
    (hfit : ¬ greater size alignment r < 0) (hlow : placedLow size alignment r) :
    Agrees ListIs (allocBefore s r.addr size alignment)
      (OneRegion.alloc (some r) size alignment) := by
  obtain ⟨hpos, hhead, hnext, hprev, hfield⟩ := listIs_some.1 h
  have hpad : placedPad size alignment r = lowPad r alignment := if_pos hlow
  simp only [allocBefore, lowPad_eq halign, Machine.size_eq hpos, hfield, ok_bind, OneRegion.alloc,
    if_neg hfit, if_pos hlow, hpad]
  split_ifs with hsmall hnull
  · rw [unlinkRegion_some h, ok_bind]
    exact ⟨rfl, listIs_none.2 rfl⟩
  · rw [(moveRegion_some h (wsub_lt _ _)).1 hnull]
    rfl
  · obtain ⟨s', hs', hlist⟩ := (moveRegion_some h (wsub_lt _ _)).2 hnull
    rw [hs', ok_bind]
    exact ⟨rfl, hlist⟩

/-- The block at the high end: the size is lowered, and the region leaves the list if it has become
too small. -/
theorem allocAfter_some {rest : Nat} (h : ListIs s (some r)) (hsize : size ≤ 2 ^ 64)
    (halign : alignment < 64)
    (hrest : wsub r.size (wadd size (highPad r size alignment)) = rest) :
    allocAfter s r.addr size alignment = .ok (wadd r.addr rest,
      ⟨storeLE s.mem (r.addr + 16) 8 rest,
        if rest < regionHeader then NULL else s.bootFreeList⟩) := by
  obtain ⟨hpos, hhead, hnext, hprev, hfield⟩ := listIs_some.1 h
  have hlt : rest < 2 ^ 64 := hrest ▸ wsub_lt _ _
  rw [allocAfter, allocAfterUnalignment_wrap hsize halign hpos hfield, ok_bind,
    Machine.size_eq hpos, ok_bind, hfield, hrest, Machine.setSize_eq hpos, ok_bind,
    Machine.size_eq hpos, ok_bind, loadLE_storeLE_word hlt]
  by_cases hsmall : rest < regionHeader
  · rw [if_pos hsmall, if_pos hsmall, unlinkRegion_some (h.setSize hlt), ok_bind]
    dsimp only
    rw [Machine.size_eq hpos, ok_bind, loadLE_storeLE_word hlt]
    rfl
  · rw [if_neg hsmall, if_neg hsmall, pure_eq_ok, ok_bind]
    dsimp only
    rw [Machine.size_eq hpos, ok_bind, loadLE_storeLE_word hlt]
    rfl

theorem allocAfter_agrees (h : ListIs s (some r)) (hsize : size ≤ 2 ^ 64) (halign : alignment < 64)
    (hfit : ¬ greater size alignment r < 0) (hhigh : ¬ placedLow size alignment r) :
    Agrees ListIs (allocAfter s r.addr size alignment)
      (OneRegion.alloc (some r) size alignment) := by
  have hpad : placedPad size alignment r = highPad r size alignment := if_neg hhigh
  obtain ⟨rest, hrest⟩ : ∃ rest, wsub r.size (wadd size (highPad r size alignment)) = rest :=
    ⟨_, rfl⟩
  rw [allocAfter_some h hsize halign hrest, OneRegion.alloc, hpad, hrest, if_neg hfit,
    if_neg hhigh]
  refine ⟨rfl, ?_⟩
  split_ifs
  · exact listIs_none.2 rfl
  · exact h.setSize (hrest ▸ wsub_lt _ _)

/-- **`boot_alloc` answers as the allocator with one region does.** -/
theorem soleAlloc_agrees (h : ListIs s o) (hsize : size ≤ 2 ^ 64) (halign : alignment < 64)
    (hfuel : 1 < fuel) :
    Agrees ListIs (bootAlloc fuel s size alignment) (OneRegion.alloc o size alignment) := by
  cases o with
  | none =>
    obtain ⟨k, rfl⟩ : ∃ k, fuel = k + 1 := ⟨fuel - 1, by omega⟩
    have hscan : bootAllocScan (k + 1) s size alignment NULL ⟨NULL, 2 ^ 64 - 1, false⟩ = .ok _ :=
      loop_leave (if_pos rfl)
    rw [bootAlloc, bootFreeListBegin, listIs_none.1 h, hscan]
    exact ⟨rfl, h⟩
  | some r =>
    obtain ⟨hpos, hhead, -⟩ := listIs_some.1 h
    rw [bootAlloc, bootFreeListBegin, hhead, bootAllocScan_some h hsize halign hfuel, ok_bind]
    by_cases hfit : 0 ≤ greater size alignment r
    · rw [if_pos hfit, Fit.of, if_neg hpos.ne']
      by_cases hlow : placedLow size alignment r
      · rw [if_pos (decide_eq_true hlow)]
        exact allocBefore_agrees h halign hfit.not_gt hlow
      · rw [if_neg (by simpa using hlow)]
        exact allocAfter_agrees h hsize halign hfit.not_gt hlow
    · rw [if_neg hfit, Fit.of, if_pos rfl, OneRegion.alloc, if_pos (not_le.1 hfit)]
      exact ⟨rfl, h⟩

/-- A remainder that is not negative is one, for a request that is not too large. -/
theorem fits_of_greater (h63 : size + 2 ^ alignment < 2 ^ 63) (hr : r.size < 2 ^ 64)
    (hleft : 0 ≤ greater size alignment r) : size + placedPad size alignment r ≤ r.size := by
  have hpad := placedPad_le size alignment r
  rw [greater_eq_placed] at hleft
  exact fits_of_leftOver_nonneg (by omega) hr hleft

/-- Allocating from a well-formed region writes nothing outside it. -/
theorem soleAlloc_frame {p x : Nat} (h : ListIs s o) (hL : ∀ r ∈ o, Layout [r])
    (h63 : size + 2 ^ alignment < 2 ^ 63) (hfuel : 1 < fuel)
    (hrun : bootAlloc fuel s size alignment = .ok (p, s')) (hx : ∀ r ∈ o, x ∉ r.bytes) :
    s'.mem x = s.mem x := by
  have halign := alignment_lt h63
  have hlt := request_lt h63
  have hsize : size ≤ 2 ^ 64 := by omega
  have hfl : ∃ fl : FreeList, fl.regions = o.toList := by
    cases o with
    | none => exact ⟨⟨[], .nil⟩, rfl⟩
    | some r => exact ⟨⟨[r], hL r rfl⟩, rfl⟩
  obtain ⟨fl, hregions⟩ := hfl
  have hrep : Represents s fl := by
    rw [Represents, hregions]
    exact h.1
  have hlen : fl.regions.length < fuel := by
    rw [hregions]
    cases o with
    | none => exact Nat.zero_lt_of_lt hfuel
    | some r => exact hfuel
  rw [bootAlloc_eq hsize halign hrep hlen] at hrun
  cases hbest : bestFit size alignment fl.regions with
  | none =>
    rw [hbest] at hrun
    cases hrun
    rfl
  | some r =>
    obtain ⟨hmem, hleft⟩ := mem_of_bestFit hbest
    rw [hregions, Option.mem_toList] at hmem
    obtain rfl : o = some r := hmem
    have hlayout : Layout ([] ++ r :: []) := hL r rfl
    have hseg : Seg s.mem NULL s.bootFreeList ([] ++ r :: []) NULL := h.1
    have hout : x ∉ r.bytes := hx r rfl
    have hfit := fits_of_greater h63 (hlayout.size_lt List.mem_cons_self) hleft
    have hnil : x ∉ headersOf [] := by
      rintro ⟨r', hr', -⟩
      cases hr'
    rw [hbest] at hrun
    dsimp only at hrun
    by_cases hlow : placedLow size alignment r
    · rw [placedPad, if_pos hlow] at hfit
      rw [if_pos hlow] at hrun
      obtain ⟨t, ht, -, hframe⟩ := allocBefore_spec halign hlayout hseg hfit
      rw [ht] at hrun
      cases hrun
      exact hframe x hnil hnil hout
    · rw [placedPad, if_neg hlow] at hfit
      rw [if_neg hlow] at hrun
      obtain ⟨t, ht, -, hframe⟩ := allocAfter_spec halign hlayout hseg hfit
      rw [ht] at hrun
      cases hrun
      exact hframe x hnil hnil hout

/-! ## Runs -/

/-- A call of the interface of `kernel/mem/boot.h`. -/
inductive BootCall where
  | free (start size : Nat)
  | alloc (size alignment : Nat)
  deriving Repr, DecidableEq

inductive BootReply where
  | freed (code : KError)
  | allocated (p : Nat)
  deriving Repr, DecidableEq

namespace BootCall

/-- The arguments are words, and the shift `1ull << alignment` is defined. -/
def Valid : BootCall → Prop
  | free _ size => size < 2 ^ 64
  | alloc size alignment => size < 2 ^ 64 ∧ alignment < 64

def run (fuel : Nat) (s : Machine) : BootCall → Result (BootReply × Machine)
  | free start size => (bootFree s start size).map (Prod.map .freed id)
  | alloc size alignment => (bootAlloc fuel s size alignment).map (Prod.map .allocated id)

/-- The call on the allocator with one region. -/
def runOne (o : Option Region) : BootCall → Result (BootReply × Option Region)
  | free start size => (OneRegion.free o start size).map (Prod.map .freed id)
  | alloc size alignment => (OneRegion.alloc o size alignment).map (Prod.map .allocated id)

end BootCall

/-- Everyone else may write to memory, but not to the node of the first region. -/
def SparesNode (s s' : Machine) : Prop :=
  s'.bootFreeList = s.bootFreeList ∧
    ∀ b, s.bootFreeList ≤ b → b < s.bootFreeList + regionHeader → s'.mem b = s.mem b

theorem ListIs.spared (h : ListIs s o) (hspare : SparesNode s s') : ListIs s' o := by
  obtain ⟨m, head⟩ := s'
  obtain ⟨rfl, hm⟩ := hspare
  exact h.congr hm

theorem BootCall.run_agrees (h : ListIs s o) (hfuel : 1 < fuel) {c : BootCall} (hc : c.Valid) :
    Agrees ListIs (c.run fuel s) (c.runOne o) := by
  cases c with
  | free start size => exact (soleFree_agrees h hc).map BootReply.freed
  | alloc size alignment => exact (soleAlloc_agrees h hc.1.le hc.2 hfuel).map BootReply.allocated

/-- **Every run from the empty list answers as the allocator with one region does**, and so does
the next call, which stops with a fault exactly when that allocator does. Addresses are numbers: the
fields of a node across `2 ^ 64` lie behind it, and not at `0`. -/
theorem bootRuns_oneRegion {m : Mem} {log : List (BootCall × BootReply)} (hfuel : 1 < fuel)
    (h : Runs (BootCall.run fuel) SparesNode ⟨m, NULL⟩ log s) (hvalid : ∀ e ∈ log, e.1.Valid) :
    ∃ o, answers BootCall.runOne none (log.map Prod.fst) = .ok (log.map Prod.snd, o) ∧
      ListIs s o ∧ ∀ c : BootCall, c.Valid → Agrees ListIs (c.run fuel s) (c.runOne o) := by
  have hstep : ∀ s o c, ListIs s o → BootCall.Valid c →
      Agrees ListIs (BootCall.run fuel s c) (BootCall.runOne o c) :=
    fun _ _ _ hs hc => BootCall.run_agrees hs hfuel hc
  obtain ⟨o, hanswers, hlist⟩ := h.simulates hstep (fun _ _ _ hs => hs.spared)
    (listIs_none.2 rfl) hvalid
  exact ⟨o, hanswers, hlist, fun c hc => BootCall.run_agrees hlist hfuel hc⟩

/-- Giving one page, while someone writes to it, is such a run. -/
theorem bootRuns_oneRegion_page : ∃ o,
    answers BootCall.runOne none [.free 0x1000 0x1000] = .ok ([.freed .success], o) ∧
      ListIs ⟨storeLE (sole ⟨fun _ => 0, NULL⟩ 0x1000 0x1000).mem 0x1800 8 7, 0x1000⟩ o ∧
      ∀ c : BootCall, c.Valid → Agrees ListIs
        (c.run 2 ⟨storeLE (sole ⟨fun _ => 0, NULL⟩ 0x1000 0x1000).mem 0x1800 8 7, 0x1000⟩)
        (c.runOne o) := by
  have hgive : BootCall.run 2 ⟨fun _ => 0, NULL⟩ (.free 0x1000 0x1000) =
      .ok (.freed .success, sole ⟨fun _ => 0, NULL⟩ 0x1000 0x1000) := rfl
  have hwrite : SparesNode (sole ⟨fun _ => 0, NULL⟩ 0x1000 0x1000)
      ⟨storeLE (sole ⟨fun _ => 0, NULL⟩ 0x1000 0x1000).mem 0x1800 8 7, 0x1000⟩ := by
    refine ⟨rfl, fun b _ hb => storeLE_outside (.inl ?_)⟩
    simp only [sole, regionHeader] at hb
    omega
  exact bootRuns_oneRegion (by decide : 1 < 2) (.request hgive (.others hwrite (.nil _)))
    (by simp [BootCall.Valid])

/-! ## Giving a block back -/

namespace OneRegion

/-- A block that fits is taken from one end, and the rest is kept if it is large enough. -/
theorem alloc_placed (hpos : 0 < r.addr) (hwrap : r.stop < 2 ^ 64)
    (hleft : 0 ≤ greater size alignment r) (hfit : size + placedPad size alignment r ≤ r.size) :
    OneRegion.alloc (some r) size alignment = .ok (placedBlock size alignment r,
      (keep (placedRest size alignment r)).head?) := by
  simp only [Region.stop] at hwrap
  have htaken : wadd size (placedPad size alignment r) = size + placedPad size alignment r :=
    wadd_eq (by omega)
  have hrest : wsub r.size (size + placedPad size alignment r) =
      r.size - (size + placedPad size alignment r) := wsub_eq hfit (by omega)
  have hpad : placedPad size alignment r =
      if placedLow size alignment r then lowPad r alignment else highPad r size alignment := rfl
  rw [OneRegion.alloc, htaken, hrest, if_neg (not_lt.2 hleft), placedBlock, placedRest, keep]
  by_cases hlow : placedLow size alignment r
  · rw [if_pos hlow] at hpad
    rw [hpad] at hfit ⊢
    have hblock : wadd r.addr (lowPad r alignment) = r.addr + lowPad r alignment :=
      wadd_eq (by omega)
    have hmoved : wadd r.addr (size + lowPad r alignment) =
        r.addr + (size + lowPad r alignment) := wadd_eq (by omega)
    have hnull : r.addr + (size + lowPad r alignment) ≠ NULL := by
      simp only [NULL]
      omega
    simp only [if_pos hlow, hblock, hmoved, if_neg hnull]
    split_ifs <;> rfl
  · rw [if_neg hlow] at hpad
    rw [hpad] at hfit ⊢
    have hblock : wadd r.addr (r.size - (size + highPad r size alignment)) =
        r.addr + (r.size - (size + highPad r size alignment)) := wadd_eq (by omega)
    simp only [if_neg hlow, hblock]
    split_ifs <;> rfl

/-- What `boot_alloc` returns for a region that does not wrap: `NULL`, or the block it places. -/
theorem alloc_cases {p : Nat} {o' : Option Region} (hpos : 0 < r.addr) (hwrap : r.stop < 2 ^ 64)
    (h63 : size + 2 ^ alignment < 2 ^ 63)
    (h : OneRegion.alloc (some r) size alignment = .ok (p, o')) :
    p = NULL ∧ o' = some r ∨
      size + placedPad size alignment r ≤ r.size ∧ p = placedBlock size alignment r ∧
        o' = (keep (placedRest size alignment r)).head? := by
  have hr : r.size < 2 ^ 64 := by
    simp only [Region.stop] at hwrap
    omega
  by_cases hleft : greater size alignment r < 0
  · rw [OneRegion.alloc, if_pos hleft] at h
    cases h
    exact .inl ⟨rfl, rfl⟩
  · have hfit := fits_of_greater h63 hr (not_lt.1 hleft)
    rw [alloc_placed hpos hwrap (not_lt.1 hleft) hfit] at h
    cases h
    exact .inr ⟨hfit, rfl, rfl⟩

/-- **What `boot_alloc` returns**: `NULL`, or an aligned block inside the region, which what is left
does not meet. -/
theorem alloc_within {p : Nat} {o' : Option Region} (hL : Layout [r])
    (h63 : size + 2 ^ alignment < 2 ^ 63)
    (h : OneRegion.alloc (some r) size alignment = .ok (p, o')) :
    p = NULL ∧ o' = some r ∨
      2 ^ alignment ∣ p ∧ r.addr ≤ p ∧ p + size ≤ r.stop ∧ Layout o'.toList ∧
        ∀ r' ∈ o', r.addr ≤ r'.addr ∧ r'.stop ≤ r.stop ∧ (r'.stop ≤ p ∨ p + size ≤ r'.addr) := by
  obtain hnull | ⟨hfit, rfl, rfl⟩ := alloc_cases (hL.nonnull r List.mem_cons_self)
    (hL.noWrap r List.mem_cons_self) h63 h
  · exact .inl hnull
  obtain ⟨hdvd, hlo, hhi⟩ := placedBlock_spec (alignment_lt h63) hfit
  have hlayout : Layout ([] ++ (keep (placedRest size alignment r) ++ [])) :=
    Layout.placed hL hfit
  obtain ⟨hrestLo, hrestHi⟩ := placedRest_inside hfit
  refine .inr ⟨hdvd, hlo, hhi, ?_⟩
  by_cases hroom : (placedRest size alignment r).size < regionHeader
  · rw [keep_of_lt hroom]
    exact ⟨.nil, by simp⟩
  · rw [keep_of_le (not_lt.1 hroom)] at hlayout ⊢
    refine ⟨hlayout, ?_⟩
    rintro _ ⟨⟩
    refine ⟨hrestLo, hrestHi, ?_⟩
    unfold placedPad at hfit
    unfold placedRest placedBlock Region.stop
    split_ifs at hfit ⊢
    · exact .inr (by dsimp only; omega)
    · exact .inl (by dsimp only; omega)

/-- The block is at an end of what is left, which is not where `boot_free` looks for it. -/
theorem free_placed (hwrap : r.stop < 2 ^ 64) (hscale : regionHeader * r.size < 2 ^ 64)
    (hfit : size + placedPad size alignment r ≤ r.size)
    (hroom : regionHeader ≤ (placedRest size alignment r).size) :
    OneRegion.free (some (placedRest size alignment r)) (placedBlock size alignment r) size =
      .ok (.exist, some (placedRest size alignment r)) := by
  simp only [Region.stop, regionHeader] at hwrap hscale
  have hpad : placedPad size alignment r =
      if placedLow size alignment r then lowPad r alignment else highPad r size alignment := rfl
  rw [OneRegion.free]
  by_cases hlow : placedLow size alignment r
  · rw [if_pos hlow] at hpad
    rw [hpad] at hfit
    simp only [placedRest, if_pos hlow, placedBlock, regionHeader] at hroom ⊢
    generalize lowPad r alignment = pad at *
    have hmul : wmul 24 (r.size - (size + pad)) = 24 * (r.size - (size + pad)) :=
      Nat.mod_eq_of_lt (by omega)
    have hstop : wadd (r.addr + pad) size = r.addr + pad + size := wadd_eq (by omega)
    have hafter : ¬ r.addr + (size + pad) > r.addr + pad + size := by omega
    rw [hmul, if_neg (wadd_ne (by omega) (by omega)), hstop, if_neg hafter, ite_self]
  · rw [if_neg hlow] at hpad
    rw [hpad] at hfit
    simp only [placedRest, if_neg hlow, placedBlock, regionHeader] at hroom ⊢
    generalize highPad r size alignment = pad at *
    have hmul : wmul 24 (r.size - (size + pad)) = 24 * (r.size - (size + pad)) :=
      Nat.mod_eq_of_lt (by omega)
    have hstop : wadd (r.addr + (r.size - (size + pad))) size =
        r.addr + (r.size - (size + pad)) + size := wadd_eq (by omega)
    have hafter : ¬ r.addr > r.addr + (r.size - (size + pad)) + size := by omega
    rw [hmul, if_neg (wadd_ne (by omega) (by omega)), hstop, if_neg hafter, ite_self]

end OneRegion

/-- **A block that was just allocated is refused** while anything is left of the region it came
from; when nothing is left, it becomes the list. -/
theorem bootFree_after_alloc {s'' : Machine} {p : Nat} (h : ListIs s (some r))
    (hwrap : r.stop < 2 ^ 64) (hscale : regionHeader * r.size < 2 ^ 64)
    (h63 : size + 2 ^ alignment < 2 ^ 63) (hfuel : 1 < fuel)
    (halloc : bootAlloc fuel s size alignment = .ok (p, s')) (hp : p ≠ NULL)
    (hspare : SparesNode s' s'') :
    bootFree s'' p size =
      if s''.bootFreeList ≠ NULL then .ok (.exist, s'')
      else if size < regionHeader then .ok (.empty, s'')
      else .ok (.success, sole s'' p size) := by
  have hsize := request_lt h63
  have hpos : 0 < r.addr := h.2 r rfl
  obtain ⟨o, hone, hlist⟩ := (soleAlloc_agrees h (by omega) (alignment_lt h63) hfuel).ok halloc
  obtain ⟨hnull, -⟩ | ⟨hfit, rfl, rfl⟩ := OneRegion.alloc_cases hpos hwrap h63 hone
  · exact absurd hnull hp
  have hlist := hlist.spared hspare
  by_cases hroom : (placedRest size alignment r).size < regionHeader
  · rw [keep_of_lt hroom] at hlist
    have hempty := listIs_none.1 hlist
    have hblock : placedBlock size alignment r ≠ NULL := hp
    rw [if_neg (not_not.2 hempty), bootFree_nil hempty, if_neg hblock]
  · rw [keep_of_le (not_lt.1 hroom)] at hlist
    have hhead : s''.bootFreeList ≠ NULL := by
      rw [(listIs_some.1 hlist).2.1]
      exact (listIs_some.1 hlist).1.ne'
    have hlt : size < 2 ^ 64 := by omega
    have hagree : Agrees ListIs (bootFree s'' (placedBlock size alignment r) size) _ :=
      soleFree_agrees hlist hlt
    rw [List.head?_cons, OneRegion.free_placed hwrap hscale hfit (not_lt.1 hroom)] at hagree
    rw [if_pos hhead]
    generalize hrun : bootFree s'' (placedBlock size alignment r) size = x at hagree
    rcases x with e | ⟨code, t⟩
    · exact hagree.elim
    · obtain ⟨rfl, -⟩ := hagree
      rw [bootFree_refused hrun (by decide)]

/-- The end of a page is taken and cannot be given back. -/
theorem bootFree_after_alloc_page :
    bootFree ⟨storeLE (sole ⟨fun _ => 0, NULL⟩ 0x1000 0x1000).mem 0x1010 8 0xf00, 0x1000⟩
        0x1f00 0x100 =
      .ok (.exist, ⟨storeLE (sole ⟨fun _ => 0, NULL⟩ 0x1000 0x1000).mem 0x1010 8 0xf00, 0x1000⟩) :=
  have hlist : ListIs (sole ⟨fun _ => 0, NULL⟩ 0x1000 0x1000) (some ⟨0x1000, 0x1000⟩) :=
    listIs_sole (by decide) (by decide)
  have halloc : bootAlloc 2 (sole ⟨fun _ => 0, NULL⟩ 0x1000 0x1000) 0x100 4 = .ok (0x1f00,
      ⟨storeLE (sole ⟨fun _ => 0, NULL⟩ 0x1000 0x1000).mem 0x1010 8 0xf00, 0x1000⟩) := rfl
  bootFree_after_alloc hlist (by decide) (by decide) (by decide) (by decide) halloc (by decide)
    ⟨rfl, fun _ _ _ => rfl⟩

end RiscyOs
