import RiscyOs.Boot.Run
import RiscyOs.FdtMem.Init

/-!
# The kernel's own run

From the empty list `boot_free` never keeps more than one region: the first one of at least
24 bytes, which grows with each piece that starts at its scaled end. `Kept.take` is this abstract
list, and the machine refines it.

* `bootFree_take`, `freeAll_takeAll`: one call, and a run of calls.
* `bootFree_keepsBlob`: none of them touches the blob.
-/

namespace RiscyOs

open ByteMemory FuelLoop Ranges

/-! ## The region that is kept -/

/-- The only region of the list, or none. -/
abbrev Kept := Option (Nat × Nat)

/-- The end `boot_free` computes for a region. -/
def scaledStop (k : Nat × Nat) : Nat := wadd k.1 (wmul regionHeader k.2)

/-- What `boot_free` does to a list of at most one region. -/
def Kept.take : Kept → Nat × Nat → Result Kept
  | none, p =>
    if p.2 < regionHeader then .ok none
    else if p.1 = NULL then .error .nullDeref
    else .ok (some p)
  | some k, p =>
    if scaledStop k = p.1 then .ok (some (k.1, wadd k.2 p.2))
    else if scaledStop k < p.1 then .ok (some k)
    else if k.1 > p.1 + p.2 then .error .nullDeref
    else .ok (some k)

def Kept.takeAll : Kept → List (Nat × Nat) → Result Kept
  | k, [] => .ok k
  | k, p :: ps => do
    let k ← Kept.take k p
    Kept.takeAll k ps

/-- The pieces from the first one on that has room for a node. -/
def fromRoom (ps : List (Nat × Nat)) : List (Nat × Nat) :=
  ps.dropWhile fun p => p.2 < regionHeader

/-- No later piece starts at the scaled end of that one. -/
def Unmerged (ps : List (Nat × Nat)) : Prop :=
  ∀ p ∈ (fromRoom ps).head?, ∀ q ∈ (fromRoom ps).tail, scaledStop p ≠ q.1

instance (ps : List (Nat × Nat)) : Decidable (Unmerged ps) :=
  inferInstanceAs (Decidable (∀ p ∈ (fromRoom ps).head?, ∀ q ∈ (fromRoom ps).tail,
    scaledStop p ≠ q.1))

theorem Unmerged.of_small {p : Nat × Nat} {ps : List (Nat × Nat)} (h : Unmerged (p :: ps))
    (hsmall : p.2 < regionHeader) : Unmerged ps := by
  have hfrom : fromRoom (p :: ps) = fromRoom ps :=
    List.dropWhile_cons_of_pos (by simpa using hsmall)
  rwa [Unmerged, hfrom] at h

theorem Unmerged.of_room {p : Nat × Nat} {ps : List (Nat × Nat)} (h : Unmerged (p :: ps))
    (hroom : ¬ p.2 < regionHeader) : ∀ q ∈ ps, scaledStop p ≠ q.1 := by
  have hfrom : fromRoom (p :: ps) = p :: ps :=
    List.dropWhile_cons_of_neg (by simpa using hroom)
  rw [Unmerged, hfrom] at h
  exact h p rfl

/-- A region at whose scaled end nothing starts does not grow. -/
theorem Kept.takeAll_some {k : Nat × Nat} {ps : List (Nat × Nat)} {k' : Kept}
    (hne : ∀ q ∈ ps, scaledStop k ≠ q.1) (h : Kept.takeAll (some k) ps = .ok k') :
    k' = some k := by
  induction ps with
  | nil =>
    cases h
    rfl
  | cons p ps ih =>
    rw [Kept.takeAll, Kept.take, if_neg (hne p List.mem_cons_self)] at h
    have hrest : ∀ q ∈ ps, scaledStop k ≠ q.1 := by
      intro q hq
      exact hne q (List.mem_cons_of_mem p hq)
    split_ifs at h
    · exact ih hrest h
    · cases h
    · exact ih hrest h

/-- The region that is kept is one of the pieces. -/
theorem Kept.takeAll_none {ps : List (Nat × Nat)} {k : Nat × Nat} (hunmerged : Unmerged ps)
    (h : Kept.takeAll none ps = .ok (some k)) : k ∈ ps := by
  induction ps with
  | nil => cases h
  | cons p ps ih =>
    rw [Kept.takeAll, Kept.take] at h
    by_cases hsmall : p.2 < regionHeader
    · rw [if_pos hsmall] at h
      exact List.mem_cons_of_mem p (ih (hunmerged.of_small hsmall) h)
    · rw [if_neg hsmall] at h
      split_ifs at h
      · cases h
      · cases Kept.takeAll_some (hunmerged.of_room hsmall) h
        exact List.mem_cons_self

/-! ## The machine refines it -/

/-- The list of the machine is the region `k`, or empty. -/
def Lists (s : Machine) : Kept → Prop
  | none => s.bootFreeList = NULL
  | some k => s.bootFreeList = k.1 ∧ 0 < k.1 ∧ firstNext s = NULL ∧ loadLE s.mem (k.1 + 16) 8 = k.2

/-- The list is `k`, its node is outside the blob, and the blob is as in `m`. -/
structure Keeping (b : Blob) (m : Mem) (s : Machine) (k : Kept) : Prop where
  lists : Lists s k
  node : ∀ r, k = some r → Misses (b.fdt, b.totalsize) (r.1, regionHeader)
  blob : ∀ x, b.fdt ≤ x → x < b.fdt + b.totalsize → s.mem x = m x

/-- The bytes of the list. -/
theorem Lists.freeBytes_eq {s : Machine} {k : Kept} (h : Lists s k) {x : Nat} :
    x ∈ s.freeBytes ↔ ∃ r, k = some r ∧ Has r x := by
  cases k with
  | none =>
    have hnil : s.bootFreeList = NULL := h
    constructor
    · rintro ⟨p, hp, _⟩
      rw [hnil] at hp
      cases hp with
      | here hne => exact absurd rfl hne
      | next hne _ => exact absurd rfl hne
    · rintro ⟨r, hr, _⟩
      cases hr
  | some r =>
    obtain ⟨hhead, hpos, hnext, hsize⟩ := h
    constructor
    · rintro ⟨p, hp, hlo, hhi⟩
      have hpr : p = r.1 := by
        rw [hhead] at hp
        cases hp with
        | here _ => rfl
        | next _ hrest =>
          rw [firstNext, hhead] at hnext
          rw [hnext] at hrest
          cases hrest with
          | here hne => exact absurd rfl hne
          | next hne _ => exact absurd rfl hne
      subst hpr
      rw [hsize] at hhi
      exact ⟨r, rfl, hlo, hhi⟩
    · rintro ⟨r', hr', hlo, hhi⟩
      cases hr'
      refine ⟨r.1, ?_, hlo, by rw [hsize]; exact hhi⟩
      rw [hhead]
      exact .here hpos.ne'

variable {b : Blob} {m : Mem} {s : Machine} {k : Kept} {kernelEnd : Nat} {p : Nat × Nat}

theorem Blob.Allowed.blob_misses (hp : b.Allowed kernelEnd p) :
    Misses (b.fdt, b.totalsize) p := by
  refine hp.misses _ (List.mem_cons_of_mem _ ?_)
  exact List.mem_append_right _ List.mem_cons_self

/-- A run on the machine does what the abstract list does: it stops with the same fault, or leaves
the same list. -/
def Simulates {α : Type} (b : Blob) (m : Mem) (run : Result (α × Machine)) : Result Kept → Prop
  | .error e => run = .error e
  | .ok k => ∃ x s, run = .ok (x, s) ∧ Keeping b m s k

theorem bootFree_take_none (h : Keeping b m s none) (hp : b.Allowed kernelEnd p) :
    Simulates b m (bootFree s p.1 p.2) (Kept.take none p) := by
  have hnil : s.bootFreeList = NULL := h.lists
  rw [bootFree_nil hnil, Kept.take]
  by_cases hsmall : p.2 < regionHeader
  · rw [if_pos hsmall, if_pos hsmall]
    exact ⟨_, s, rfl, h⟩
  rw [if_neg hsmall, if_neg hsmall]
  by_cases hnull : p.1 = NULL
  · rw [if_pos hnull, if_pos hnull]
    rfl
  rw [if_neg hnull, if_neg hnull]
  have hroom : regionHeader ≤ p.2 := not_lt.1 hsmall
  have hmiss : Misses (b.fdt, b.totalsize) (p.1, regionHeader) :=
    hp.blob_misses.within ⟨le_rfl, Nat.add_le_add_left hroom p.1⟩
  have hrep := represents_sole (s := s) (Layout.sole hp.noWrap hroom hnull)
  obtain ⟨hhead, hsize, hnext⟩ := hrep.first rfl
  refine ⟨_, sole s p.1 p.2, rfl, ⟨hhead, Nat.pos_of_ne_zero hnull, hnext, hsize⟩, ?_, ?_⟩
  · intro r hr
    cases hr
    exact hmiss
  · intro x hlo hhi
    have hout : ¬ (p.1 ≤ x ∧ x < p.1 + 24) := by
      unfold Misses at hmiss
      simp only [regionHeader] at hmiss
      omega
    show storeLE (storeLE (storeLE s.mem (p.1 + 8) 8 NULL) p.1 8 NULL) (p.1 + 16) 8 p.2 x = m x
    rw [storeLE_outside (by omega), storeLE_outside (by omega), storeLE_outside (by omega)]
    exact h.blob x hlo hhi

theorem bootFree_take_some {r : Nat × Nat} (h : Keeping b m s (some r))
    (hp : b.Allowed kernelEnd p) : Simulates b m (bootFree s p.1 p.2) (Kept.take (some r) p) := by
  obtain ⟨hhead, hpos, hnext, hsize⟩ := h.lists
  have hhead0 : 0 < s.bootFreeList := hhead ▸ hpos
  have hscaled : scaledEnd s = scaledStop r := by
    rw [scaledEnd, hhead, hsize]
    rfl
  have hgrow : mergeBefore s s.bootFreeList p.2 (wadd p.1 p.2) = .ok (.success, grow s p.2) := by
    rw [mergeBefore_eq hhead0, hnext, if_neg (fun hne => hne.1 rfl), if_pos (.inl rfl)]
  rw [bootFree_cons hhead0, hgrow, hscaled, wadd_eq hp.noWrap, Kept.take, hhead]
  by_cases hmerge : scaledStop r = p.1
  · rw [if_pos hmerge, if_pos hmerge]
    obtain ⟨hghead, hgsize, hgnext⟩ := grow_fields s p.2
    rw [hhead] at hghead hgsize
    rw [hsize] at hgsize
    have hmiss := h.node r rfl
    refine ⟨_, grow s p.2, rfl, ⟨hghead, hpos, hgnext.trans hnext, hgsize⟩, ?_, ?_⟩
    · intro r' hr'
      cases hr'
      exact hmiss
    · intro x hlo hhi
      have hout : ¬ (r.1 ≤ x ∧ x < r.1 + 24) := by
        unfold Misses at hmiss
        simp only [regionHeader] at hmiss
        omega
      rw [grow, hhead]
      exact (storeLE_outside (by omega)).trans (h.blob x hlo hhi)
  rw [if_neg hmerge, if_neg hmerge]
  by_cases hbelow : scaledStop r < p.1
  · rw [if_pos hbelow, if_pos hbelow]
    exact ⟨_, s, rfl, h⟩
  rw [if_neg hbelow, if_neg hbelow]
  by_cases habove : r.1 > p.1 + p.2
  · rw [if_pos habove, if_pos habove]
    rfl
  · rw [if_neg habove, if_neg habove]
    exact ⟨_, s, rfl, h⟩

/-- **One call of `boot_free`** on a list of at most one region. -/
theorem bootFree_take (h : Keeping b m s k) (hp : b.Allowed kernelEnd p) :
    Simulates b m (bootFree s p.1 p.2) (Kept.take k p) := by
  cases k with
  | none => exact bootFree_take_none h hp
  | some r => exact bootFree_take_some h hp

/-- **A run of `boot_free`** from a list of at most one region. -/
theorem freeAll_takeAll (h : Keeping b m s k) {ps : List (Nat × Nat)}
    (hps : ∀ p ∈ ps, b.Allowed kernelEnd p) :
    Simulates b m (freeAll bootFree s ps) (Kept.takeAll k ps) := by
  induction ps generalizing s k with
  | nil => exact ⟨0, s, rfl, h⟩
  | cons p ps ih =>
    have hcall := bootFree_take h (hps p List.mem_cons_self)
    rw [Kept.takeAll, freeAll]
    cases htake : Kept.take k p with
    | error e =>
      rw [htake] at hcall
      rw [show bootFree s p.1 p.2 = .error e from hcall]
      rfl
    | ok k₁ =>
      rw [htake] at hcall
      obtain ⟨code, s₁, hrun, h₁⟩ := hcall
      have hrest := ih h₁ fun q hq => hps q (List.mem_cons_of_mem p hq)
      rw [hrun]
      simp only [ok_bind]
      cases htakes : Kept.takeAll k₁ ps with
      | error e =>
        rw [htakes] at hrest
        rw [show freeAll bootFree s₁ ps = .error e from hrest]
        rfl
      | ok k' =>
        rw [htakes] at hrest
        obtain ⟨freed, s₂, hruns, h₂⟩ := hrest
        rw [hruns]
        exact ⟨_, s₂, rfl, h₂⟩

/-- `boot_free` leaves the blob alone. -/
theorem bootFree_keepsBlob (hin : b.In (Mem.view m)) :
    KeepsBlob bootFree b kernelEnd (fun s : Machine => Mem.view s.mem)
      (fun s => ∃ k, Keeping b m s k) := by
  have hview : ∀ {s : Machine}, (∃ k, Keeping b m s k) → b.In (Mem.view s.mem) :=
    fun ⟨k, h⟩ => hin.of_agrees fun x hlo hhi => congrArg some (h.blob x hlo hhi)
  refine ⟨⟨fun hs => (hview hs).toMapIn, ?_⟩, hview, fun {s} _ => Mem.view_total s.mem⟩
  intro s s' code p ⟨k, h⟩ hp hrun
  have hcall := bootFree_take h hp
  rw [hrun] at hcall
  cases htake : Kept.take k p with
  | error e =>
    rw [htake] at hcall
    cases hcall
  | ok k' =>
    rw [htake] at hcall
    obtain ⟨code', s₁, heq, h'⟩ := hcall
    cases heq
    exact ⟨k', h'⟩

end RiscyOs
