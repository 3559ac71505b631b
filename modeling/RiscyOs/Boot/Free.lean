import RiscyOs.Boot.AllocRun

/-!
# What `boot_free` does

`boot_free` compares the new range with the first region only, and against `scaledEnd`, the end
it computes for that region with a scaled pointer sum. So it accepts a range in two cases:

* the list is empty (`bootFree_nil`);
* the range starts at the `scaledEnd` of the first region, which is not the end of the region.
  Then the region grows over whatever follows it (`Represents.grow_not_added`).

Everything else is refused, or dereferences `NULL`.

* `bootFree_exact_iff`: a disjoint range is added to the list exactly when the list is empty.
* `bootFree_refuses`: overlaps are refused, and a refusal changes nothing.
* `bootFree_small_iff`: a range too small for a node is refused for that only by an empty list.
-/

namespace RiscyOs

open ByteMemory

/-- The end `boot_free` computes for the first region: `curr + curr->size` on a node pointer. -/
def scaledEnd (s : Machine) : Nat :=
  wadd s.bootFreeList (wmul regionHeader (loadLE s.mem (s.bootFreeList + 16) 8))

/-- The link of the first region to the next one. -/
def firstNext (s : Machine) : Nat := loadLE s.mem s.bootFreeList 8

variable {s s' : Machine} {start size : Nat}

/-! ## The branches of `boot_free` -/

/-- The state with the range as the only region. -/
def sole (s : Machine) (start size : Nat) : Machine :=
  ⟨storeLE (storeLE (storeLE s.mem (start + 8) 8 NULL) start 8 NULL) (start + 16) 8 size, start⟩

theorem bootFree_nil (h : s.bootFreeList = NULL) : bootFree s start size =
    if size < regionHeader then .ok (.empty, s)
    else if start = NULL then .error .nullDeref
    else .ok (.success, sole s start size) := by
  simp only [bootFree, if_pos h]
  split_ifs with hsize hstart
  · rfl
  · subst hstart
    rfl
  · have hpos : 0 < start := Nat.pos_of_ne_zero hstart
    simp only [Machine.setPrev_eq hpos, Machine.setNext_eq hpos, Machine.setSize_eq hpos, ok_bind]
    rfl

/-- Inserting without a region before writes through `NULL`. -/
theorem insertRegion_null {region fullyAfter : Nat} (h : 0 < fullyAfter) :
    insertRegion s region size NULL fullyAfter = .error .nullDeref := by
  by_cases hr : region = NULL
  · subst hr
    rfl
  · have hpos : 0 < region := Nat.pos_of_ne_zero hr
    simp only [insertRegion, Machine.setPrev_eq hpos, Machine.setNext_eq hpos,
      Machine.setPrev_eq h, ok_bind]
    rfl

theorem bootFree_cons (h : 0 < s.bootFreeList) : bootFree s start size =
    if scaledEnd s = start then mergeBefore s s.bootFreeList size (wadd start size)
    else if scaledEnd s < start then .ok (.exist, s)
    else if s.bootFreeList > wadd start size then .error .nullDeref
    else .ok (.exist, s) := by
  simp only [bootFree, if_neg h.ne', bootFreeListBegin, Machine.size_eq h, ok_bind,
    insertRegion_null h]
  rfl

/-- The state after a merge with the first region only. -/
def grow (s : Machine) (size : Nat) : Machine :=
  let currSize := loadLE s.mem (s.bootFreeList + 16) 8
  { s with mem := storeLE s.mem (s.bootFreeList + 16) 8 (wadd currSize size) }

/-- The memory after the first region has taken over the size and the link of the next one. -/
def takenOver (s : Machine) (size : Nat) : Mem :=
  let curr := s.bootFreeList
  let m := storeLE s.mem (curr + 16) 8
    (wadd (loadLE s.mem (curr + 16) 8) (wadd size (loadLE s.mem (firstNext s + 16) 8)))
  storeLE m curr 8 (loadLE m (firstNext s) 8)

/-- The state after a merge with the first region and the one after it. -/
def absorb (s : Machine) (size : Nat) : Machine :=
  let m := takenOver s size
  let currNext := loadLE m s.bootFreeList 8
  if currNext ≠ NULL then
    { s with mem := storeLE m (currNext + 8) 8 (loadLE m (firstNext s + 8) 8) }
  else { s with mem := m }

/-- The three outcomes of a merge. -/
theorem mergeBefore_eq {stop : Nat} (h : 0 < s.bootFreeList) :
    mergeBefore s s.bootFreeList size stop =
      if firstNext s ≠ NULL ∧ firstNext s = stop then .ok (.success, absorb s size)
      else if firstNext s = NULL ∨ firstNext s > stop then .ok (.success, grow s size)
      else .ok (.exist, s) := by
  have hfirst : bootFreeListNext s s.bootFreeList = .ok (firstNext s) := Machine.next_eq h
  rw [mergeBefore, hfirst, ok_bind]
  by_cases hboth : firstNext s ≠ NULL ∧ firstNext s = stop
  · have hnext : 0 < firstNext s := Nat.pos_of_ne_zero hboth.1
    have hrun : ∀ m : Mem, (do
        let currNext ← Machine.next ⟨m, s.bootFreeList⟩ s.bootFreeList
        if currNext ≠ NULL then
          let nextPrev ← Machine.prev ⟨m, s.bootFreeList⟩ (firstNext s)
          let s ← Machine.setPrev ⟨m, s.bootFreeList⟩ currNext nextPrev
          return (KError.success, s)
        else return (.success, ⟨m, s.bootFreeList⟩)) =
        (.ok (.success, if loadLE m s.bootFreeList 8 ≠ NULL then
          ⟨storeLE m (loadLE m s.bootFreeList 8 + 8) 8 (loadLE m (firstNext s + 8) 8),
            s.bootFreeList⟩
          else ⟨m, s.bootFreeList⟩) : Result (KError × Machine)) := by
      intro m
      rw [Machine.next_eq h, ok_bind]
      dsimp only
      split
      · rename_i hlast
        rw [Machine.prev_eq hnext, ok_bind, Machine.setPrev_eq (Nat.pos_of_ne_zero hlast), ok_bind]
        rfl
      · rfl
    rw [if_pos hboth, if_pos hboth, Machine.size_eq h, ok_bind, Machine.size_eq hnext, ok_bind,
      Machine.setSize_eq h, ok_bind, Machine.next_eq hnext, ok_bind, Machine.setNext_eq h, ok_bind]
    exact hrun (takenOver s size)
  · rw [if_neg hboth, if_neg hboth, Machine.size_eq h, ok_bind, Machine.setSize_eq h, ok_bind]
    rfl

/-- **A refused call changes nothing**, whatever the state. -/
theorem bootFree_refused {code : KError} (h : bootFree s start size = .ok (code, s'))
    (hcode : code ≠ .success) : s' = s := by
  by_cases hnil : s.bootFreeList = NULL
  · rw [bootFree_nil hnil] at h
    split_ifs at h <;> cases h
    · rfl
    · exact absurd rfl hcode
  · have hpos : 0 < s.bootFreeList := Nat.pos_of_ne_zero hnil
    rw [bootFree_cons hpos, mergeBefore_eq hpos] at h
    split_ifs at h <;> cases h
    · exact absurd rfl hcode
    · exact absurd rfl hcode
    all_goals rfl

/-! ## On a represented list -/

variable {fl : FreeList} {r : Region} {rest : List Region}

theorem Represents.eq_null_iff (h : Represents s fl) : s.bootFreeList = NULL ↔ fl.regions = [] := by
  rw [h.eq_firstAddr]
  have hL := fl.layout
  cases hfl : fl.regions with
  | nil => simp [firstAddr]
  | cons r rest => simpa [firstAddr] using (hL.nonnull r (by simp [hfl])).ne'

/-- The head and its two fields, when there is a first region. -/
theorem Represents.first (h : Represents s fl) (hfl : fl.regions = r :: rest) :
    s.bootFreeList = r.addr ∧ loadLE s.mem (r.addr + 16) 8 = r.size ∧
      firstNext s = firstAddr rest := by
  rw [Represents, hfl] at h
  obtain ⟨hhead, -, hsize, hrest⟩ := h
  rw [hhead] at hsize hrest
  refine ⟨hhead, hsize, ?_⟩
  rw [firstNext, hhead]
  exact hrest.eq_firstAddr

/-- The region of a nonempty list that the head points at. -/
theorem Represents.exists_first (h : Represents s fl) (hhead : 0 < s.bootFreeList) :
    ∃ rest, fl.regions =
      ⟨s.bootFreeList, loadLE s.mem (s.bootFreeList + 16) 8⟩ :: rest := by
  cases hfl : fl.regions with
  | nil => exact absurd (h.eq_null_iff.2 hfl) hhead.ne'
  | cons r rest =>
    obtain ⟨haddr, hsize, -⟩ := h.first hfl
    exact ⟨rest, by rw [haddr, hsize]⟩

theorem Represents.scaledEnd_eq (h : Represents s fl) (hfl : fl.regions = r :: rest) :
    scaledEnd s = (r.addr + 24 * r.size) % 2 ^ 64 := by
  obtain ⟨hhead, hsize, -⟩ := h.first hfl
  rw [scaledEnd, hhead, hsize, wadd, wmul]
  simp only [regionHeader]
  omega

/-- Scaling a size by 24 is adding `23 * size`, which is no multiple of `2 ^ 64`. -/
theorem scaled_ne {a b : Nat} (h : a + b < 2 ^ 64) (hb : 0 < b) :
    (a + 24 * b) % 2 ^ 64 ≠ a + b := by
  have hlt : b < 2 ^ 64 := by omega
  have hdiff : a + 24 * b - (a + b) = 23 * b := by omega
  intro heq
  have hdvd : 2 ^ 64 ∣ 23 * b := by
    have hsub := Nat.dvd_sub_mod (n := 2 ^ 64) (a + 24 * b)
    rwa [heq, hdiff] at hsub
  have hcop : Nat.Coprime (2 ^ 64) 23 := Nat.Coprime.pow_left 64 (by decide)
  exact (Nat.le_of_dvd hb (hcop.dvd_of_dvd_mul_left hdvd)).not_gt hlt

/-- The end `boot_free` computes is never the end of the region. -/
theorem Represents.scaledEnd_ne_stop (h : Represents s fl) (hfl : fl.regions = r :: rest) :
    scaledEnd s ≠ r.stop := by
  have hroom := fl.layout.room r (by simp [hfl])
  simp only [regionHeader] at hroom
  rw [h.scaledEnd_eq hfl]
  exact scaled_ne (fl.layout.noWrap r (by simp [hfl])) (by omega)

/-- Below `2 ^ 56` the computed end is past the region. -/
theorem Represents.stop_lt_scaledEnd (h : Represents s fl) (hfl : fl.regions = r :: rest)
    (hsmall : r.stop ≤ 2 ^ 56) : r.stop < scaledEnd s := by
  have hroom := fl.layout.room r (by simp [hfl])
  simp only [Region.stop, regionHeader] at *
  rw [h.scaledEnd_eq hfl, Nat.mod_eq_of_lt (by omega)]
  omega

/-! ## Refusals -/

/-- **`boot_free` refuses what overlaps, and a refusal changes nothing.** The bound is one on
physical addresses; the second part needs nothing of the state. -/
theorem bootFree_refuses (h : Represents s fl) :
    ((∀ r ∈ fl.regions, r.stop ≤ 2 ^ 56) → start + size ≤ 2 ^ 56 →
      (∃ b ∈ bytesOf fl.regions, start ≤ b ∧ b < start + size) →
      bootFree s start size = .ok (.exist, s)) ∧
    ∀ code s', bootFree s start size = .ok (code, s') → code ≠ .success → s' = s := by
  refine ⟨?_, fun code s' => bootFree_refused⟩
  intro hsmall hrange ⟨b, ⟨x, hx, hxb⟩, hlo, hhi⟩
  cases hfl : fl.regions with
  | nil =>
    rw [hfl] at hx
    cases hx
  | cons r rest =>
    have hL := fl.layout
    rw [hfl] at hL hx hsmall
    obtain ⟨hhead, -, hnext⟩ := h.first hfl
    have hpos : 0 < s.bootFreeList := hhead ▸ hL.nonnull r (by simp)
    have hend := h.stop_lt_scaledEnd hfl (hsmall r (by simp))
    have hstop : wadd start size = start + size := wadd_eq (by omega)
    obtain ⟨hxlo, hxhi⟩ : x.addr ≤ b ∧ b < x.stop := hxb
    rw [bootFree_cons hpos, hstop]
    by_cases hmerge : scaledEnd s = start
    · -- the overlap is with a later region, so the next one starts below the end of the range
      have hxrest : x ∈ rest := by
        rcases List.mem_cons.1 hx with rfl | hx
        · omega
        · exact hx
      obtain ⟨y, ys, rfl⟩ := List.exists_cons_of_ne_nil (List.ne_nil_of_mem hxrest)
      have hy : 0 < y.addr := hL.nonnull y (by simp)
      have hyx : y.addr ≤ x.addr := by
        rcases List.mem_cons.1 hxrest with rfl | hxs
        · exact le_rfl
        · have hord := List.pairwise_cons.1 (List.pairwise_cons.1 hL.ordered).2
          exact (Nat.le_add_right _ _).trans (hord.1 x hxs)
      rw [if_pos hmerge, mergeBefore_eq hpos, hnext, firstAddr, if_neg (by omega),
        if_neg (by simp only [NULL]; omega)]
    · rw [if_neg hmerge]
      by_cases hbelow : scaledEnd s < start
      · rw [if_pos hbelow]
      · have hfirst : r.addr ≤ x.addr := by
          rcases List.mem_cons.1 hx with rfl | hx
          · exact le_rfl
          · exact (Nat.le_add_right _ _).trans ((List.pairwise_cons.1 hL.ordered).1 x hx)
        rw [if_neg hbelow, hhead, if_neg (by omega)]

/-- A range that overlaps the second page from below is refused. -/
theorem bootFree_refuses_twoPages :
    bootFree twoPages.machine 0x7fff 2 = .ok (.exist, twoPages.machine) :=
  (bootFree_refuses (represents_machine twoPages)).1 (by decide) (by decide)
    ⟨0x8000, ⟨⟨0x8000, 0x1000⟩, by decide, ⟨by decide, by decide⟩⟩, by decide, by decide⟩

/-! ## Small ranges -/

/-- With a first region on the list, the size of the range is never looked at. -/
theorem bootFree_cons_ne_empty (h : 0 < s.bootFreeList) :
    bootFree s start size ≠ .ok (.empty, s') := by
  intro hrun
  rw [bootFree_cons h, mergeBefore_eq h] at hrun
  split_ifs at hrun <;> cases hrun

/-- **When `boot_free` refuses a range for its size**, wherever the range is. -/
theorem bootFree_small_iff (h : Represents s fl) (hsize : size < regionHeader) :
    bootFree s start size = .ok (.empty, s) ↔ fl.regions = [] := by
  rw [← h.eq_null_iff]
  constructor
  · intro hrun
    by_contra hne
    exact bootFree_cons_ne_empty (Nat.pos_of_ne_zero hne) hrun
  · intro hnil
    rw [bootFree_nil hnil, if_pos hsize]

/-- A small range on the empty list and on `twoPages`. -/
theorem bootFree_small_iff_lists :
    (bootFree (FreeList.machine ⟨[], Layout.nil⟩) 0x4000 16 =
        .ok (.empty, FreeList.machine ⟨[], Layout.nil⟩) ↔
      (⟨[], Layout.nil⟩ : FreeList).regions = []) ∧
    (bootFree twoPages.machine 0x4000 16 = .ok (.empty, twoPages.machine) ↔
      twoPages.regions = []) :=
  ⟨bootFree_small_iff (represents_machine _) (by decide),
    bootFree_small_iff (represents_machine _) (by decide)⟩

/-- Two small ranges apart from both pages: in the gap, refused as an overlap, and below the first
page, inserted with a node behind `NULL`. -/
theorem bootFree_small_twoPages :
    (∀ r ∈ twoPages.regions, r.stop < 0x4000 ∨ 0x4000 + 16 < r.addr) ∧
      bootFree twoPages.machine 0x4000 16 = .ok (.exist, twoPages.machine) ∧
      (∀ r ∈ twoPages.regions, r.stop < 0x800 ∨ 0x800 + 16 < r.addr) ∧
      bootFree twoPages.machine 0x800 16 = .error .nullDeref :=
  ⟨by decide, rfl, by decide, rfl⟩

/-! ## Additions -/

/-- The range is added to the list: the call succeeds, and leaves a free list over the old bytes
and those of the range. -/
def FreesExactly (s : Machine) (fl : FreeList) (start size : Nat) : Prop :=
  ∃ s' fl', bootFree s start size = .ok (.success, s') ∧ Represents s' fl' ∧
    bytesOf fl'.regions = bytesOf fl.regions ∪ Set.Ico start (start + size)

theorem Layout.sole (hwrap : start + size < 2 ^ 64) (hsize : regionHeader ≤ size)
    (hstart : start ≠ NULL) : Layout [⟨start, size⟩] := by
  refine ⟨List.pairwise_singleton _ _, ?_, ?_, ?_⟩ <;> simp only [List.forall_mem_singleton]
  · exact hsize
  · exact hwrap
  · exact Nat.pos_of_ne_zero hstart

theorem represents_sole (hL : Layout [⟨start, size⟩]) :
    Represents (sole s start size) ⟨[⟨start, size⟩], hL⟩ := by
  have hwrap : start + size < 2 ^ 64 := hL.noWrap _ (List.mem_singleton.2 rfl)
  simp only [Represents, sole, Seg]
  refine ⟨trivial, ?_, loadLE_storeLE_word (by omega), ?_⟩
  · rw [loadLE_storeLE_disjoint (by omega), loadLE_storeLE_disjoint (by omega),
      loadLE_storeLE_word (Nat.two_pow_pos 64)]
  · rw [loadLE_storeLE_disjoint (by omega), loadLE_storeLE_word (Nat.two_pow_pos 64)]

/-- The first range of an empty list becomes its only region. -/
theorem freesExactly_of_nil (h : Represents s fl) (hwrap : start + size < 2 ^ 64)
    (hsize : regionHeader ≤ size) (hnil : s.bootFreeList = NULL) (hstart : start ≠ NULL) :
    FreesExactly s fl start size := by
  refine ⟨sole s start size, _, ?_, represents_sole (Layout.sole hwrap hsize hstart), ?_⟩
  · rw [bootFree_nil hnil, if_neg hsize.not_gt, if_neg hstart]
  · rw [h.eq_null_iff.1 hnil, bytesOf_cons]
    simp [Region.bytes, Region.stop]

/-- Growing changes the size of the first region, and nothing else of it. -/
theorem grow_fields (s : Machine) (size : Nat) :
    (grow s size).bootFreeList = s.bootFreeList ∧
      loadLE (grow s size).mem (s.bootFreeList + 16) 8 =
        wadd (loadLE s.mem (s.bootFreeList + 16) 8) size ∧
      firstNext (grow s size) = firstNext s :=
  ⟨rfl, loadLE_storeLE_word (wadd_lt _ _), loadLE_storeLE_disjoint (b := s.bootFreeList) (by omega)⟩

/-- Absorbing the second region adds its size to that of the first. -/
theorem Represents.absorb_fields {y : Region} (h : Represents s fl) (size : Nat)
    (hfl : fl.regions = r :: y :: rest) :
    (absorb s size).bootFreeList = r.addr ∧
      loadLE (absorb s size).mem (r.addr + 16) 8 = wadd r.size (wadd size y.size) := by
  have hL := fl.layout
  rw [hfl] at hL
  obtain ⟨hhead, hsize, hnext⟩ := h.first hfl
  rw [Represents, hfl] at h
  obtain ⟨-, -, -, hy⟩ := h
  obtain ⟨hyaddr, -, hysize, hrest⟩ := hy
  have hry := (List.pairwise_cons.1 hL.ordered).1 y (by simp)
  have hroom := hL.room r (by simp)
  rw [firstAddr] at hnext
  rw [hhead] at hyaddr hysize hrest
  rw [hyaddr] at hysize hrest
  simp only [Region.stop, regionHeader] at hry hroom
  have hkeep : ∀ a, (a + 8 ≤ r.addr ∨ r.addr + 8 ≤ a) → (a + 8 ≤ r.addr + 16 ∨ r.addr + 24 ≤ a) →
      loadLE (takenOver s size) a 8 = loadLE s.mem a 8 := by
    intro a ha ha'
    rw [takenOver, hhead, loadLE_storeLE_disjoint (by omega), loadLE_storeLE_disjoint (by omega)]
  have hsum : loadLE (takenOver s size) (r.addr + 16) 8 = wadd r.size (wadd size y.size) := by
    rw [takenOver, hhead, hnext, hsize, hysize, loadLE_storeLE_disjoint (by omega),
      loadLE_storeLE_word (wadd_lt _ _)]
  have hlink : loadLE (takenOver s size) r.addr 8 = firstAddr rest := by
    rw [takenOver, hhead, hnext, loadLE_storeLE_word (loadLE_lt _ _ _),
      loadLE_storeLE_disjoint (by omega)]
    exact hrest.eq_firstAddr
  rw [absorb, hhead, hlink, hnext]
  split
  · rename_i hne
    refine ⟨rfl, ?_⟩
    cases rest with
    | nil => exact absurd rfl hne
    | cons z zs =>
      have hrz := (List.pairwise_cons.1 hL.ordered).1 z (by simp)
      simp only [Region.stop] at hrz
      rw [firstAddr, loadLE_storeLE_disjoint (by omega), hsum]
  · exact ⟨rfl, hsum⟩

/-- A range disjoint from a layout is below or above each of its regions. -/
theorem Layout.apart_of_disjoint {rs : List Region} (hL : Layout rs) (hsize : 0 < size)
    (hdisj : Disjoint (Set.Ico start (start + size)) (bytesOf rs)) {x : Region} (hx : x ∈ rs) :
    start + size ≤ x.addr ∨ x.stop ≤ start := by
  have hroom := hL.room x hx
  simp only [Region.stop, regionHeader] at hroom ⊢
  by_contra hcon
  have hin : max start x.addr ∈ Set.Ico start (start + size) := Set.mem_Ico.2 (by omega)
  refine Set.disjoint_left.1 hdisj hin ⟨x, hx, ?_⟩
  simp only [Region.bytes, Region.stop, Set.mem_Ico]
  omega

/-- When the byte after the first region is on the list, the second region starts there. -/
theorem Layout.second_of_stop_mem (hL : Layout (r :: rest)) (h : r.stop ∈ bytesOf (r :: rest)) :
    ∃ y ys, rest = y :: ys ∧ y.addr = r.stop := by
  obtain ⟨x, hx, hlo, hhi⟩ := h
  have hord := List.pairwise_cons.1 hL.ordered
  rcases List.mem_cons.1 hx with rfl | hx
  · exact absurd hhi (lt_irrefl _)
  · cases rest with
    | nil => cases hx
    | cons y ys =>
      have hy := hord.1 y (by simp)
      have hyroom := hL.room y (by simp)
      have hyx : y = x ∨ y.stop ≤ x.addr :=
        (List.mem_cons.1 hx).imp Eq.symm ((List.pairwise_cons.1 hord.2).1 x)
      refine ⟨y, ys, rfl, ?_⟩
      rcases hyx with rfl | hyx
      · omega
      · simp only [Region.stop, regionHeader] at *
        omega

/-- Links that stay as they are lead to no other node. -/
theorem Seg.exists_of_nodeFrom {m m' : Mem} {a p q : Nat} {rs : List Region} (h : Seg m a p rs NULL)
    (hsame : ∀ r ∈ rs, loadLE m' r.addr 8 = loadLE m r.addr 8) (hq : NodeFrom m' p q) :
    ∃ r ∈ rs, r.addr = q := by
  induction rs generalizing a p with
  | nil =>
    obtain rfl : p = NULL := h
    cases hq with
    | here hne => exact absurd rfl hne
    | next hne _ => exact absurd rfl hne
  | cons r rs ih =>
    obtain ⟨rfl, -, -, hrest⟩ := h
    cases hq with
    | here _ => exact ⟨r, List.mem_cons_self, rfl⟩
    | next _ hq =>
      rw [hsame r List.mem_cons_self] at hq
      obtain ⟨x, hx, rfl⟩ :=
        ih hrest (fun x hx => hsame x (List.mem_cons_of_mem r hx)) hq
      exact ⟨x, List.mem_cons_of_mem r hx, rfl⟩

/-- Growing the first region makes no byte below it free. -/
theorem Represents.le_of_mem_grow {r : Region} {rest : List Region} (h : Represents s fl)
    (hfl : fl.regions = r :: rest) {x : Nat} (hx : x ∈ (grow s size).freeBytes) : r.addr ≤ x := by
  obtain ⟨hhead, -, -⟩ := h.first hfl
  have hL := fl.layout
  rw [Represents, hfl] at h
  rw [hfl] at hL
  have hroom := hL.room r List.mem_cons_self
  have hord := List.pairwise_cons.1 hL.ordered
  simp only [Region.stop] at hord
  have hsame : ∀ y ∈ r :: rest, loadLE (grow s size).mem y.addr 8 = loadLE s.mem y.addr 8 := by
    intro y hy
    rw [grow, hhead]
    refine loadLE_storeLE_disjoint ?_
    rcases List.mem_cons.1 hy with rfl | hy
    · omega
    · have := hord.1 y hy
      simp only [regionHeader] at hroom
      omega
  obtain ⟨p, hp, hlo, -⟩ := hx
  obtain ⟨y, hy, rfl⟩ := Seg.exists_of_nodeFrom h hsame hp
  rcases List.mem_cons.1 hy with rfl | hy
  · exact hlo
  · have := hord.1 y hy
    omega

/-- The byte behind the first region becomes free when the size in its node grows. -/
theorem stop_mem_freeBytes {r : Region} (hne : r.addr ≠ NULL) (hhead : s.bootFreeList = r.addr)
    (hsize : r.size < loadLE s.mem (r.addr + 16) 8) : r.stop ∈ s.freeBytes := by
  refine ⟨r.addr, ?_, by simp [Region.stop], by simpa [Region.stop] using hsize⟩
  rw [hhead]
  exact .here hne

/-- The byte behind the first region is free after the growing step. -/
theorem Represents.stop_mem_grow {r : Region} {rest : List Region} (h : Represents s fl)
    (hfl : fl.regions = r :: rest) (hsize : 0 < size) (hwrap : r.size + size < 2 ^ 64) :
    r.stop ∈ (grow s size).freeBytes := by
  obtain ⟨hhead, hrsize, -⟩ := h.first hfl
  obtain ⟨hghead, hgsize, -⟩ := grow_fields s size
  have hne : r.addr ≠ NULL := (fl.layout.nonnull r (hfl ▸ List.mem_cons_self)).ne'
  rw [hhead] at hghead hgsize
  rw [hrsize, wadd_eq hwrap] at hgsize
  exact stop_mem_freeBytes hne hghead (by omega)

/-- The byte behind the first region is free after the absorbing step. -/
theorem Represents.stop_mem_absorb {r y : Region} {ys : List Region} (h : Represents s fl)
    (hfl : fl.regions = r :: y :: ys) (hsize : 0 < size)
    (hwrap : r.size + (size + y.size) < 2 ^ 64) : r.stop ∈ (absorb s size).freeBytes := by
  obtain ⟨hahead, hasize⟩ := h.absorb_fields size hfl
  have hne : r.addr ≠ NULL := (fl.layout.nonnull r (hfl ▸ List.mem_cons_self)).ne'
  rw [wadd_eq (b := y.size) (by omega), wadd_eq (by omega)] at hasize
  exact stop_mem_freeBytes hne hahead (by omega)

/-- The growing step that starts at the scaled end does not add the range: the byte behind the first
region becomes free, and the range does not begin there. -/
theorem Represents.grow_not_added (h : Represents s fl) (hwrap : start + size < 2 ^ 64)
    (hsize : 0 < size) (hdisj : Disjoint (Set.Ico start (start + size)) (bytesOf fl.regions))
    (hfl : fl.regions = r :: rest) (hmerge : scaledEnd s = start)
    (hroom : firstAddr rest = NULL ∨ firstAddr rest > start + size) :
    (grow s size).freeBytes ≠ bytesOf fl.regions ∪ Set.Ico start (start + size) := by
  intro hbytes
  have hne := h.scaledEnd_ne_stop hfl
  have hL := fl.layout
  rw [hfl] at hL hdisj hbytes
  have hrwrap := hL.noWrap r (by simp)
  have hrroom := hL.room r (by simp)
  have hr := hL.apart_of_disjoint hsize hdisj (x := r) (by simp)
  simp only [Region.stop, regionHeader] at hrwrap hrroom hne hr
  have hstop := h.stop_mem_grow hfl hsize (by omega)
  rw [hbytes] at hstop
  rcases hstop with hstop | ⟨hlo, hhi⟩
  · -- the second region starts where the first one ends, so the range is below both
    obtain ⟨y, ys, rfl, hy⟩ := hL.second_of_stop_mem hstop
    have hy0 : 0 < y.addr := hL.nonnull y (by simp)
    have hgt : y.addr > start + size := hroom.resolve_left hy0.ne'
    have hin : start ∈ (grow s size).freeBytes := by
      rw [hbytes]
      exact .inr (Set.mem_Ico.2 (by omega))
    have hge := h.le_of_mem_grow hfl hin
    simp only [Region.stop] at hy
    omega
  · simp only [Region.stop] at hlo hhi
    omega

/-- Nor does the absorbing step. -/
theorem Represents.absorb_not_added {y : Region} (h : Represents s fl) (hsize : 0 < size)
    (hdisj : Disjoint (Set.Ico start (start + size)) (bytesOf fl.regions))
    (hfl : fl.regions = r :: y :: rest) (hmerge : scaledEnd s = start)
    (hboth : y.addr = start + size) :
    (absorb s size).freeBytes ≠ bytesOf fl.regions ∪ Set.Ico start (start + size) := by
  intro hbytes
  have hne := h.scaledEnd_ne_stop hfl
  have hL := fl.layout
  rw [hfl] at hL hdisj hbytes
  have hry := (List.pairwise_cons.1 hL.ordered).1 y (by simp)
  have hrroom := hL.room r (by simp)
  have hywrap := hL.noWrap y (by simp)
  have hr := hL.apart_of_disjoint hsize hdisj (x := r) (by simp)
  simp only [Region.stop, regionHeader] at hry hrroom hywrap hne hr
  have hstop := h.stop_mem_absorb hfl hsize (by omega)
  rw [hbytes] at hstop
  rcases hstop with hstop | ⟨hlo, hhi⟩
  · -- the second region starts behind the range, not where the first one ends
    obtain ⟨z, zs, hz, hzaddr⟩ := hL.second_of_stop_mem hstop
    obtain ⟨rfl, rfl⟩ := List.cons.inj hz
    simp only [Region.stop] at hzaddr
    omega
  · simp only [Region.stop] at hlo hhi
    omega

/-- With a first region on the list, no disjoint range is added exactly. -/
theorem not_freesExactly_of_cons (h : Represents s fl) (hwrap : start + size < 2 ^ 64)
    (hsize : regionHeader ≤ size)
    (hdisj : Disjoint (Set.Ico start (start + size)) (bytesOf fl.regions))
    (hfl : fl.regions = r :: rest) : ¬ FreesExactly s fl start size := by
  rintro ⟨s', fl', hrun, h', hbytes⟩
  rw [← h'.freeBytes_eq] at hbytes
  have hpos' : 0 < size := hsize.trans_lt' (by decide)
  obtain ⟨hhead, -, hnext⟩ := h.first hfl
  have hpos : 0 < s.bootFreeList := hhead ▸ fl.layout.nonnull r (by simp [hfl])
  rw [bootFree_cons hpos, mergeBefore_eq hpos, hnext, wadd_eq hwrap] at hrun
  split_ifs at hrun with hmerge hboth hroom
  · obtain rfl : absorb s size = s' := (Prod.mk.inj (Except.ok.inj hrun)).2
    cases rest with
    | nil => exact absurd rfl hboth.1
    | cons y ys => exact absurd hbytes (h.absorb_not_added hpos' hdisj hfl hmerge hboth.2)
  · obtain rfl : grow s size = s' := (Prod.mk.inj (Except.ok.inj hrun)).2
    exact absurd hbytes (h.grow_not_added hwrap hpos' hdisj hfl hmerge hroom)
  all_goals cases hrun

/-- **When `boot_free` adds its range.** -/
theorem bootFree_exact_iff (h : Represents s fl) (hwrap : start + size < 2 ^ 64)
    (hsize : regionHeader ≤ size)
    (hdisj : Disjoint (Set.Ico start (start + size)) (bytesOf fl.regions)) :
    FreesExactly s fl start size ↔ s.bootFreeList = NULL ∧ start ≠ NULL := by
  constructor
  · intro hexact
    cases hfl : fl.regions with
    | nil =>
      have hnil := h.eq_null_iff.2 hfl
      refine ⟨hnil, fun hstart => ?_⟩
      obtain ⟨s', fl', hrun, -⟩ := hexact
      rw [bootFree_nil hnil, if_neg hsize.not_gt, if_pos hstart] at hrun
      cases hrun
    | cons r rest => exact absurd hexact (not_freesExactly_of_cons h hwrap hsize hdisj hfl)
  · rintro ⟨hnil, hstart⟩
    exact freesExactly_of_nil h hwrap hsize hnil hstart

theorem disjoint_gap_twoPages : Disjoint (Set.Ico 0x4000 0x5000) (bytesOf twoPages.regions) := by
  rw [Set.disjoint_left]
  rintro b ⟨hlo, hhi⟩ ⟨r, hr, hrlo, hrhi⟩
  simp only [twoPages, List.mem_cons, List.not_mem_nil, or_false] at hr
  rcases hr with rfl | rfl <;> simp only [Region.stop] at hrlo hrhi <;> omega

/-- The gap between two free pages is not added to them. -/
theorem bootFree_exact_iff_twoPages :
    FreesExactly twoPages.machine twoPages 0x4000 0x1000 ↔
      twoPages.machine.bootFreeList = NULL ∧ (0x4000 : Nat) ≠ NULL :=
  bootFree_exact_iff (represents_machine twoPages) (by decide) (by decide) disjoint_gap_twoPages

/-- The gap between two free pages is free of overlaps, and is refused as an overlap. -/
theorem bootFree_gap_refused :
    Represents twoPages.machine twoPages ∧
      Disjoint (Set.Ico 0x4000 (0x4000 + 0x1000)) (bytesOf twoPages.regions) ∧
      bootFree twoPages.machine 0x4000 0x1000 = .ok (.exist, twoPages.machine) ∧
      ¬ FreesExactly twoPages.machine twoPages 0x4000 0x1000 :=
  ⟨represents_machine twoPages, disjoint_gap_twoPages, rfl,
    not_freesExactly_of_cons (represents_machine twoPages) (by decide) (by decide)
      disjoint_gap_twoPages rfl⟩

end RiscyOs
