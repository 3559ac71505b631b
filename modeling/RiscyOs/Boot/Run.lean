import RiscyOs.Boot.Free

/-!
# Runs of `boot_free` and `boot_alloc`

`Reach ok s given lent`: some run from the empty list leads to the state `s`, in which `given` are
the bytes passed to successful `boot_free` calls so far, and `lent` are the blocks `boot_alloc`
returned that have not been given back. Every `boot_free` call of the run satisfies `ok`.

* `reach_accounted`: as long as no call is a `FalseMerge`, what is free was given and is not lent.
* `reach_not_accounted`: where a `FalseMerge` of a range that is not empty can follow, this ends.
* `reach_unaccounted`: one `FalseMerge` puts a byte on the list that nobody gave.
-/

namespace RiscyOs

open ByteMemory FuelLoop

/-! ## Runs -/

/-- A block, by its address and size. -/
abbrev Block := Nat × Nat

def Block.bytes (b : Block) : Set Nat := Set.Ico b.1 (b.1 + b.2)

/-- The states reached from the empty list. A range passed to `boot_free` does not wrap, misses
what is free, and is either new or a block being given back. -/
inductive Reach (ok : Machine → Nat → Nat → Prop) : Machine → Set Nat → List Block → Prop where
  | init (m : Mem) : Reach ok ⟨m, NULL⟩ ∅ []
  | free {s s' : Machine} {given : Set Nat} {lent : List Block} {start size : Nat} {code : KError} :
    Reach ok s given lent → start + size < 2 ^ 64 →
    Disjoint (Block.bytes (start, size)) s.freeBytes →
    (Disjoint (Block.bytes (start, size)) given ∨ (start, size) ∈ lent) → ok s start size →
    bootFree s start size = .ok (code, s') →
    Reach ok s' (if code = .success then given ∪ Block.bytes (start, size) else given)
      (if code = .success then lent.erase (start, size) else lent)
  | alloc {s s' : Machine} {given : Set Nat} {lent : List Block} {size alignment fuel p : Nat} :
    Reach ok s given lent → size + 2 ^ alignment < 2 ^ 63 →
    bootAlloc fuel s size alignment = .ok (p, s') →
    Reach ok s' given (if p = NULL then lent else (p, size) :: lent)

/-- The call is accepted by merging the range into the first region, though it starts at the
scaled end of that region and not at its end. -/
def FalseMerge (s : Machine) (start size : Nat) : Prop :=
  s.bootFreeList ≠ NULL ∧ start = scaledEnd s ∧
    (firstNext s ≠ NULL ∧ firstNext s = wadd start size ∨
      (firstNext s = NULL ∨ firstNext s > wadd start size) ∧ size ≠ 0)

/-- What holds along a run without false merges. -/
structure Sound (s : Machine) (given : Set Nat) (lent : List Block) (fl : FreeList) : Prop where
  represents : Represents s fl
  free_given : bytesOf fl.regions ⊆ given
  lent_given : ∀ b ∈ lent, b.bytes ⊆ given
  lent_apart : lent.Pairwise fun b c => Disjoint b.bytes c.bytes
  lent_free : ∀ b ∈ lent, Disjoint b.bytes (bytesOf fl.regions)

variable {s s' : Machine} {given : Set Nat} {lent : List Block} {fl : FreeList}
  {start size alignment fuel : Nat}

/-! ## One call -/

/-- Growing by nothing changes nothing. -/
theorem Represents.grow_zero (h : Represents s fl) (hhead : s.bootFreeList ≠ NULL) :
    Represents (grow s 0) fl := by
  obtain ⟨rest, hfl⟩ := h.exists_first (Nat.pos_of_ne_zero hhead)
  have hlt : loadLE s.mem (s.bootFreeList + 16) 8 < 2 ^ 64 := loadLE_lt _ _ _
  have hL := fl.layout
  rw [Represents, hfl] at h ⊢
  rw [hfl] at hL
  obtain ⟨-, hprev, -, hrest⟩ := h
  simp only [grow, wadd_zero hlt]
  refine ⟨rfl, (loadLE_storeLE_disjoint (by omega)).trans hprev, loadLE_storeLE_word hlt, ?_⟩
  rw [loadLE_storeLE_disjoint (by omega)]
  refine hrest.congr fun b hb => storeLE_outside ?_
  have hnot := Layout.headersOf_disjoint (show Layout ([_] ++ rest) from hL) hb
  by_contra hin
  exact hnot ⟨_, List.mem_singleton_self _, by dsimp only; omega, by
    simp only [regionHeader]; omega⟩

/-- **A successful call that is not a false merge adds exactly its range.** -/
theorem bootFree_success (h : Represents s fl) (hwrap : start + size < 2 ^ 64)
    (hmerge : ¬ FalseMerge s start size) (hrun : bootFree s start size = .ok (.success, s')) :
    ∃ fl', Represents s' fl' ∧
      bytesOf fl'.regions = bytesOf fl.regions ∪ Block.bytes (start, size) := by
  by_cases hnil : s.bootFreeList = NULL
  · rw [bootFree_nil hnil] at hrun
    split_ifs at hrun with hsize hstart
    · cases hrun
    · obtain rfl : sole s start size = s' := (Prod.mk.inj (Except.ok.inj hrun)).2
      refine ⟨_, represents_sole (Layout.sole hwrap (Nat.not_lt.1 hsize) hstart), ?_⟩
      rw [h.eq_null_iff.1 hnil, bytesOf_cons]
      simp [Region.bytes, Region.stop, Block.bytes]
  · have hpos : 0 < s.bootFreeList := Nat.pos_of_ne_zero hnil
    rw [bootFree_cons hpos, mergeBefore_eq hpos] at hrun
    split_ifs at hrun with hend hboth hroom
    · exact absurd ⟨hnil, hend.symm, .inl hboth⟩ hmerge
    · obtain rfl : grow s size = s' := (Prod.mk.inj (Except.ok.inj hrun)).2
      obtain rfl : size = 0 := by
        by_contra hsize
        exact hmerge ⟨hnil, hend.symm, .inr ⟨hroom, hsize⟩⟩
      exact ⟨fl, h.grow_zero hnil, by simp [Block.bytes]⟩
    all_goals cases hrun

/-- More fuel does not change what `boot_alloc` returns. -/
theorem bootAlloc_mono {fuel' p : Nat} (hle : fuel ≤ fuel')
    (hrun : bootAlloc fuel s size alignment = .ok (p, s')) :
    bootAlloc fuel' s size alignment = .ok (p, s') := by
  rw [bootAlloc] at hrun ⊢
  cases hscan : bootAllocScan fuel s size alignment (bootFreeListBegin s) ⟨NULL, 2 ^ 64 - 1, false⟩
    with
  | error e =>
    rw [hscan] at hrun
    cases hrun
  | ok fit =>
    rw [hscan] at hrun
    rwa [show bootAllocScan fuel' s size alignment _ _ = _ from loop_eq_ok_of_le hle hscan]

/-- A refused call keeps everything; an accepted one moves its range to the free bytes. -/
theorem Sound.free {code : KError} (h : Sound s given lent fl) (hwrap : start + size < 2 ^ 64)
    (hnew : Disjoint (Block.bytes (start, size)) given ∨ (start, size) ∈ lent)
    (hmerge : ¬ FalseMerge s start size) (hrun : bootFree s start size = .ok (code, s')) :
    ∃ fl', Sound s' (if code = .success then given ∪ Block.bytes (start, size) else given)
      (if code = .success then lent.erase (start, size) else lent) fl' := by
  by_cases hcode : code = .success
  · subst hcode
    obtain ⟨fl', h', hbytes⟩ := bootFree_success h.represents hwrap hmerge hrun
    rw [if_pos rfl, if_pos rfl]
    have hsub : (lent.erase (start, size)).Sublist lent := List.erase_sublist
    -- the range misses every block that stays lent
    have hrange : ∀ b ∈ lent.erase (start, size), Disjoint b.bytes (Block.bytes (start, size)) := by
      intro b hb
      rcases hnew with hnew | hmem
      · exact (hnew.mono_right (h.lent_given b (hsub.subset hb))).symm
      · have hperm := List.perm_cons_erase hmem
        have hapart := (hperm.pairwise_iff fun hd => Disjoint.symm hd).1 h.lent_apart
        exact ((List.pairwise_cons.1 hapart).1 b hb).symm
    refine ⟨fl', h', ?_, ?_, h.lent_apart.sublist hsub, ?_⟩
    · rw [hbytes]
      exact Set.union_subset_union_left _ h.free_given
    · intro b hb
      exact (h.lent_given b (hsub.subset hb)).trans Set.subset_union_left
    · intro b hb
      rw [hbytes]
      exact Set.disjoint_union_right.2 ⟨h.lent_free b (hsub.subset hb), hrange b hb⟩
  · rw [if_neg hcode, if_neg hcode, bootFree_refused hrun hcode]
    exact ⟨fl, h⟩

/-- An allocation moves its block from the free bytes to the lent ones. -/
theorem Sound.alloc {p : Nat} (h : Sound s given lent fl) (h63 : size + 2 ^ alignment < 2 ^ 63)
    (hrun : bootAlloc fuel s size alignment = .ok (p, s')) :
    ∃ fl', Sound s' given (if p = NULL then lent else (p, size) :: lent) fl' := by
  have hmore := bootAlloc_mono (le_max_left fuel (fl.regions.length + 1)) hrun
  have hfuel : fl.regions.length < max fuel (fl.regions.length + 1) := by omega
  obtain ⟨q, s'', hspec, hcase⟩ := bootAlloc_spec h63 fl.layout h.represents hfuel
  rw [hmore] at hspec
  obtain ⟨rfl, rfl⟩ := Prod.mk.inj (Except.ok.inj hspec)
  rcases hcase with ⟨rfl, rfl⟩ | ⟨hp, rs', htakes, hseg⟩
  · exact ⟨fl, h⟩
  · rw [if_neg hp]
    obtain ⟨r, hr, hlo, hhi⟩ := htakes.block_subset
    have hblock : Block.bytes (p, size) ⊆ bytesOf fl.regions := by
      intro b hb
      exact ⟨r, hr, hlo.trans hb.1, hb.2.trans_le hhi⟩
    refine ⟨⟨rs', htakes.layout fl.layout⟩, hseg, htakes.bytes_subset.trans h.free_given, ?_, ?_,
      ?_⟩
    · exact List.forall_mem_cons.2 ⟨hblock.trans h.free_given, h.lent_given⟩
    · exact List.pairwise_cons.2 ⟨fun b hb => ((h.lent_free b hb).mono_right hblock).symm,
        h.lent_apart⟩
    · exact List.forall_mem_cons.2 ⟨htakes.block_disjoint fl.layout,
        fun b hb => (h.lent_free b hb).mono_right htakes.bytes_subset⟩

/-! ## Whole runs -/

/-- The claims made of a state: what is free was given and is not lent, and the next successful
call adds exactly its range. -/
structure Accounted (ok : Machine → Nat → Nat → Prop) (s : Machine) (given : Set Nat)
    (lent : List Block) : Prop where
  free_given : s.freeBytes ⊆ given
  free_lent : ∀ b ∈ lent, Disjoint b.bytes s.freeBytes
  adds : ∀ start size s', start + size < 2 ^ 64 →
    Disjoint (Block.bytes (start, size)) s.freeBytes →
    (Disjoint (Block.bytes (start, size)) given ∨ (start, size) ∈ lent) → ok s start size →
    bootFree s start size = .ok (.success, s') →
    s'.freeBytes = s.freeBytes ∪ Block.bytes (start, size)

/-- The run lemma. -/
theorem Reach.sound (h : Reach (fun s start size => ¬ FalseMerge s start size) s given lent) :
    ∃ fl, Sound s given lent fl := by
  induction h with
  | init m => exact ⟨⟨[], .nil⟩, rfl, by simp, by simp, .nil, by simp⟩
  | free _ hwrap _ hnew hmerge hrun ih =>
    obtain ⟨fl, hfl⟩ := ih
    exact hfl.free hwrap hnew hmerge hrun
  | alloc _ h63 hrun ih =>
    obtain ⟨fl, hfl⟩ := ih
    exact hfl.alloc h63 hrun

/-- **Without false merges, the allocator accounts for every byte.** -/
theorem reach_accounted (h : Reach (fun s start size => ¬ FalseMerge s start size) s given lent) :
    Accounted (fun s start size => ¬ FalseMerge s start size) s given lent := by
  obtain ⟨fl, hfl⟩ := h.sound
  have hfree := hfl.represents.freeBytes_eq
  refine ⟨hfree ▸ hfl.free_given, fun b hb => hfree ▸ hfl.lent_free b hb, ?_⟩
  intro start size s' hwrap _ _ hmerge hrun
  obtain ⟨fl', h', hbytes⟩ := bootFree_success hfl.represents hwrap hmerge hrun
  rw [h'.freeBytes_eq, hbytes, hfree]

/-! ## A false merge -/

/-- **A false merge of a range that is not empty does not add the range.** -/
theorem falseMerge_not_added (h : Represents s fl) (hwrap : start + size < 2 ^ 64)
    (hsize : 0 < size) (hdisj : Disjoint (Block.bytes (start, size)) s.freeBytes)
    (hmerge : FalseMerge s start size) :
    ∃ s', bootFree s start size = .ok (.success, s') ∧
      s'.freeBytes ≠ s.freeBytes ∪ Block.bytes (start, size) := by
  obtain ⟨hnil, hstart, hcase⟩ := hmerge
  have hpos : 0 < s.bootFreeList := Nat.pos_of_ne_zero hnil
  obtain ⟨rest, hfl⟩ := h.exists_first hpos
  obtain ⟨-, -, hnext⟩ := h.first hfl
  rw [h.freeBytes_eq] at hdisj ⊢
  rw [bootFree_cons hpos, mergeBefore_eq hpos, if_pos hstart.symm, hnext, wadd_eq hwrap]
  rw [hnext, wadd_eq hwrap] at hcase
  by_cases hboth : firstAddr rest ≠ NULL ∧ firstAddr rest = start + size
  · refine ⟨absorb s size, if_pos hboth, ?_⟩
    cases rest with
    | nil => exact absurd rfl hboth.1
    | cons y ys => exact h.absorb_not_added hsize hdisj hfl hstart.symm hboth.2
  · obtain ⟨hroom, -⟩ := hcase.resolve_left hboth
    refine ⟨grow s size, ?_, h.grow_not_added hwrap hsize hdisj hfl hstart.symm hroom⟩
    rw [if_neg hboth, if_pos hroom]

/-- **The first false merge of a run is not accounted for**, when its range is not empty. -/
theorem reach_not_accounted (h : Reach (fun s start size => ¬ FalseMerge s start size) s given lent)
    (hwrap : start + size < 2 ^ 64) (hsize : 0 < size)
    (hdisj : Disjoint (Block.bytes (start, size)) s.freeBytes)
    (hnew : Disjoint (Block.bytes (start, size)) given ∨ (start, size) ∈ lent)
    (hmerge : FalseMerge s start size) : ¬ Accounted (fun _ _ _ => True) s given lent := by
  intro haccounted
  obtain ⟨fl, hfl⟩ := h.sound
  obtain ⟨s', hrun, hbytes⟩ := falseMerge_not_added hfl.represents hwrap hsize hdisj hmerge
  exact hbytes (haccounted.adds start size s' hwrap hdisj hnew trivial hrun)

/-! ## A page, and another one -/

/-- A first page given to an allocator with nothing in it. -/
def firstPage : Machine := sole ⟨fun _ => 0, NULL⟩ 0x1000 0x1000

theorem reach_firstPage {ok : Machine → Nat → Nat → Prop}
    (hok : ok ⟨fun _ => 0, NULL⟩ 0x1000 0x1000) :
    Reach ok firstPage (∅ ∪ Block.bytes (0x1000, 0x1000)) [] := by
  have hempty : Represents ⟨fun _ => 0, NULL⟩ ⟨[], .nil⟩ := rfl
  have hrun : bootFree ⟨fun _ => 0, NULL⟩ 0x1000 0x1000 = .ok (.success, firstPage) := rfl
  have hstep := Reach.free (Reach.init fun _ => 0) (by decide) (by simp [hempty.freeBytes_eq])
    (.inl (Set.disjoint_empty _)) hok hrun
  simpa using hstep

theorem freeBytes_firstPage : firstPage.freeBytes = Set.Ico 0x1000 0x2000 := by
  have hL : Layout [⟨0x1000, 0x1000⟩] := Layout.sole (by decide) (by decide) (by decide)
  rw [firstPage, (represents_sole hL).freeBytes_eq, bytesOf_cons]
  simp [Region.bytes, Region.stop]

/-- Giving one page is a run without false merges. -/
theorem reach_accounted_firstPage :
    Accounted (fun s start size => ¬ FalseMerge s start size) firstPage
      (∅ ∪ Block.bytes (0x1000, 0x1000)) [] :=
  reach_accounted (reach_firstPage fun h => h.1 rfl)

/-- A second page, 24 times as far from the first as the first is long, makes the list claim the
bytes right after the first page. -/
theorem reach_unaccounted :
    ¬ ∀ s given lent, Reach (fun _ _ _ => True) s given lent →
      Accounted (fun _ _ _ => True) s given lent := by
  intro hall
  have hdisj : ∀ X : Set Nat, X ⊆ Set.Ico 0x1000 0x2000 →
      Disjoint (Block.bytes (0x19000, 0x1000)) X := by
    intro X hX
    rw [Set.disjoint_left]
    rintro b ⟨hlo, -⟩ hb
    have := (hX hb).2
    dsimp only at hlo
    omega
  have hrun : Reach (fun _ _ _ => True) (grow firstPage 0x1000)
      (∅ ∪ Block.bytes (0x1000, 0x1000) ∪ Block.bytes (0x19000, 0x1000)) [] := by
    have hfirst : Reach (fun _ _ _ => True) firstPage (∅ ∪ Block.bytes (0x1000, 0x1000)) [] :=
      reach_firstPage trivial
    have hmerge : bootFree firstPage 0x19000 0x1000 = .ok (.success, grow firstPage 0x1000) := rfl
    have hstep := hfirst.free (by decide) (hdisj _ freeBytes_firstPage.le)
      (.inl (hdisj _ (by simp [Block.bytes]))) trivial hmerge
    simpa using hstep
  have hbyte : 0x2000 ∈ (grow firstPage 0x1000).freeBytes :=
    ⟨0x1000, .here (by decide), by decide, by decide⟩
  have hgiven := (hall _ _ _ hrun).free_given hbyte
  simp [Block.bytes] at hgiven

end RiscyOs
