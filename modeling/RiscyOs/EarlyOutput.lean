import Mathlib.Data.Finset.Card
import Mathlib.Data.Finset.Dedup
import Mathlib.Data.List.Perm.Basic
import RiscyOs.Boot.FreeList
import RiscyOs.CString

/-!
# Early output: `kernel/early_output.c`

The table of `putchar` callbacks has eight slots, and a free slot holds `NULL`. It stands for a set
of at most eight callbacks: `Holds t S` ties the two together.

* `registerEarlyPutchar_spec`, `unregisterEarlyPutchar_spec`: one call on a table that holds `S`.
* `earlyPutchar_count`: every registered callback is called once.
* `earlyPuts_eq`: a string is passed to `early_putchar` character by character.
* `earlyRun_sound_iff`: a run behaves as on a set exactly when it never registers a ninth callback.
-/

namespace RiscyOs

open FuelLoop

/-- `EARLY_OUTPUT_MAX_PUTCHAR` -/
abbrev earlyOutputMaxPutchar : Nat := 8

/-- `early_putchar_array`: the addresses of the callbacks. -/
structure PutcharArray where
  slots : List Nat
  length_eq : slots.length = earlyOutputMaxPutchar

def PutcharArray.initial : PutcharArray := ⟨List.replicate earlyOutputMaxPutchar NULL, rfl⟩

/-- Write `early_putchar_array[index]`. -/
def PutcharArray.write (t : PutcharArray) (index x : Nat) : Result PutcharArray :=
  if index < earlyOutputMaxPutchar then
    .ok ⟨t.slots.set index x, (List.length_set ..).trans t.length_eq⟩
  else .error .outOfBounds

/-- The loop of `register_early_putchar` over the slots from `i` on; `none` when it finds the
callback. -/
def registerScan (putchar : Nat) : Nat → Nat → List Nat → Option Nat
  | _, index, [] => some index
  | i, index, slot :: slots =>
    if slot = NULL then registerScan putchar (i + 1) i slots
    else if slot = putchar then none
    else registerScan putchar (i + 1) index slots

def registerEarlyPutchar (t : PutcharArray) (putchar : Nat) : Result (KError × PutcharArray) :=
  -- `size_t index = -1`
  match registerScan putchar 0 (2 ^ 64 - 1) t.slots with
  | none => .ok (.exist, t)
  | some index => do
    -- an unsigned comparison
    if index < 0 then return (.full, t)
    let t ← t.write index putchar
    return (.success, t)

/-- The loop of `unregister_early_putchar` over the slots from `i` on. -/
def unregisterScan (putchar : Nat) : Nat → List Nat → Option Nat
  | _, [] => none
  | i, slot :: slots =>
    if slot = putchar then some i else unregisterScan putchar (i + 1) slots

def unregisterEarlyPutchar (t : PutcharArray) (putchar : Nat) : Result (KError × PutcharArray) :=
  match unregisterScan putchar 0 t.slots with
  | some i => do
    let t ← t.write i NULL
    return (.success, t)
  | none => .ok (.noExist, t)

/-- The calls that `early_putchar` makes, in order. -/
def earlyPutchar (t : PutcharArray) (c : UInt8) : List (Nat × UInt8) :=
  t.slots.flatMap fun cb => if cb = NULL then [] else [(cb, c)]

/-- One test of the `while`, with the character at `s + i` and the calls made so far. -/
def earlyPutsStep (t : PutcharArray) (s : CStr) (i : Nat) (calls : List (Nat × UInt8)) :
    Result ((Nat × List (Nat × UInt8)) ⊕ List (Nat × UInt8)) := do
  let c ← s.char i
  return if c ≠ 0 then .inl (i + 1, calls ++ earlyPutchar t c) else .inr calls

/-- The calls that `early_puts` makes, in order. -/
def earlyPuts (fuel : Nat) (t : PutcharArray) (s : CStr) : Result (List (Nat × UInt8)) :=
  loop .outOfFuel (fun st => earlyPutsStep t s st.1 st.2) fuel (0, [])

/-! ## The table as a set -/

inductive EarlyOp where
  | register (putchar : Nat)
  | unregister (putchar : Nat)
  deriving Repr, DecidableEq

def EarlyOp.putchar : EarlyOp → Nat
  | register putchar => putchar
  | unregister putchar => putchar

/-- What a call is to do to a set of at most eight callbacks. -/
def setStep (S : Finset Nat) : EarlyOp → KError × Finset Nat
  | .register x =>
    if x ∈ S then (.exist, S)
    else if S.card = earlyOutputMaxPutchar then (.full, S)
    else (.success, insert x S)
  | .unregister x => if x ∈ S then (.success, S.erase x) else (.noExist, S)

/-- The set after a sequence of calls. -/
def setRun (S : Finset Nat) (ops : List EarlyOp) : Finset Nat :=
  ops.foldl (fun S op => (setStep S op).2) S

/-- The callbacks in the table. -/
def PutcharArray.registered (t : PutcharArray) : List Nat := t.slots.filter (· ≠ NULL)

/-- The table holds the callbacks of `S`, each in one slot. -/
structure Holds (t : PutcharArray) (S : Finset Nat) : Prop where
  nodup : t.registered.Nodup
  mem_iff : ∀ x, x ∈ t.registered ↔ x ∈ S

variable {t : PutcharArray} {S : Finset Nat} {slots : List Nat} {x i index : Nat}

theorem holds_initial : Holds .initial ∅ := ⟨by decide, fun x => by
  rw [show PutcharArray.initial.registered = [] from rfl]
  simp⟩

theorem Holds.mem_slots_iff (h : Holds t S) (hx : x ≠ NULL) : x ∈ t.slots ↔ x ∈ S := by
  rw [← h.mem_iff, PutcharArray.registered, List.mem_filter]
  simp [hx]

theorem Holds.card_eq (h : Holds t S) : S.card = t.registered.length := by
  rw [← List.toFinset_card_of_nodup h.nodup]
  congr 1
  ext x
  rw [List.mem_toFinset, h.mem_iff]

theorem Holds.card_le (h : Holds t S) : S.card ≤ earlyOutputMaxPutchar := by
  rw [h.card_eq, ← t.length_eq]
  exact List.length_filter_le _ _

/-- The set is full exactly when there is no free slot. -/
theorem Holds.full_iff (h : Holds t S) : S.card = earlyOutputMaxPutchar ↔ NULL ∉ t.slots := by
  rw [h.card_eq, ← t.length_eq, PutcharArray.registered, List.length_filter_eq_length_iff]
  constructor
  · intro hall hmem
    exact of_decide_eq_true (hall NULL hmem) rfl
  · intro hnull x hx
    exact decide_eq_true fun heq => hnull (heq ▸ hx)

/-! ## The scans -/

theorem registerScan_eq_none (hx : x ≠ NULL) : registerScan x i index slots = none ↔ x ∈ slots := by
  induction slots generalizing i index with
  | nil => simp [registerScan]
  | cons slot slots ih =>
    rw [registerScan, List.mem_cons]
    split_ifs with hnull heq
    · rw [ih, hnull]
      simp [hx]
    · simp [heq]
    · rw [ih]
      simp [Ne.symm heq]

/-- A scan that finds neither the callback nor a free slot keeps the index it had. -/
theorem registerScan_full (hx : x ∉ slots) (hnull : NULL ∉ slots) :
    registerScan x i index slots = some index := by
  induction slots generalizing i with
  | nil => rfl
  | cons slot slots ih =>
    rw [List.mem_cons, not_or] at hx hnull
    rw [registerScan, if_neg (Ne.symm hnull.1), if_neg (Ne.symm hx.1), ih hx.2 hnull.2]

/-- Otherwise it finds a free slot. -/
theorem registerScan_free (hx : x ∉ slots) (hnull : NULL ∈ slots) :
    ∃ pre post, slots = pre ++ NULL :: post ∧
      registerScan x i index slots = some (i + pre.length) := by
  induction slots generalizing i index with
  | nil => cases hnull
  | cons slot slots ih =>
    rw [List.mem_cons, not_or] at hx
    have hstep : registerScan x i index (slot :: slots) =
        registerScan x (i + 1) (if slot = NULL then i else index) slots := by
      rw [registerScan, if_neg (Ne.symm hx.1)]
      split_ifs
      · rfl
      · rfl
    rw [hstep]
    by_cases hrest : NULL ∈ slots
    · obtain ⟨pre, post, hsplit, hscan⟩ := ih hx.2 hrest
      refine ⟨slot :: pre, post, congrArg (slot :: ·) hsplit, hscan.trans ?_⟩
      rw [List.length_cons, Nat.add_right_comm, Nat.add_assoc]
    · obtain rfl : NULL = slot := (List.mem_cons.1 hnull).resolve_right hrest
      exact ⟨[], slots, rfl, registerScan_full hx.2 hrest⟩

theorem unregisterScan_eq_none (hx : x ∉ slots) : unregisterScan x i slots = none := by
  induction slots generalizing i with
  | nil => rfl
  | cons slot slots ih =>
    rw [List.mem_cons, not_or] at hx
    rw [unregisterScan, if_neg (Ne.symm hx.1), ih hx.2]

theorem unregisterScan_found (hx : x ∈ slots) :
    ∃ pre post, slots = pre ++ x :: post ∧ unregisterScan x i slots = some (i + pre.length) := by
  induction slots generalizing i with
  | nil => cases hx
  | cons slot slots ih =>
    rw [unregisterScan]
    by_cases heq : slot = x
    · exact ⟨[], slots, congrArg (· :: slots) heq, if_pos heq⟩
    · obtain ⟨pre, post, hsplit, hscan⟩ := ih ((List.mem_cons.1 hx).resolve_left (Ne.symm heq))
      refine ⟨slot :: pre, post, congrArg (slot :: ·) hsplit, ?_⟩
      rw [if_neg heq, hscan, List.length_cons, Nat.add_right_comm, Nat.add_assoc]

/-! ## One call -/

/-- Writing the slot between `pre` and `post`. -/
theorem PutcharArray.write_eq {pre post : List Nat} {y : Nat} (h : t.slots = pre ++ y :: post)
    (x : Nat) : ∃ t', t.write pre.length x = .ok t' ∧ t'.slots = pre ++ x :: post := by
  have hlt : pre.length < earlyOutputMaxPutchar := by
    rw [← t.length_eq, h, List.length_append, List.length_cons]
    omega
  refine ⟨_, if_pos hlt, ?_⟩
  show t.slots.set pre.length x = pre ++ x :: post
  rw [h, List.set_append_right _ _ le_rfl, Nat.sub_self]
  rfl

section Slot

variable {t' : PutcharArray} {pre post : List Nat}

/-- Filling a free slot adds its callback. -/
theorem Holds.insert (h : Holds t S) (hx : x ≠ NULL) (hnew : x ∉ S)
    (hfree : t.slots = pre ++ NULL :: post) (hfilled : t'.slots = pre ++ x :: post) :
    Holds t' (insert x S) := by
  obtain ⟨hnodup, hmem⟩ := h
  rw [PutcharArray.registered, hfree, List.filter_append, List.filter_cons_of_neg (by simp),
    ← List.filter_append] at hnodup hmem
  constructor
  · rw [PutcharArray.registered, hfilled, List.filter_append, List.filter_cons_of_pos (by simpa),
      List.nodup_middle, ← List.filter_append]
    exact List.nodup_cons.2 ⟨fun hin => hnew ((hmem x).1 hin), hnodup⟩
  · intro y
    rw [PutcharArray.registered, hfilled, List.filter_append, List.filter_cons_of_pos (by simpa),
      List.perm_middle.mem_iff, ← List.filter_append, List.mem_cons, hmem, Finset.mem_insert]

/-- Clearing a slot removes its callback. -/
theorem Holds.erase (h : Holds t S) (hx : x ≠ NULL) (hfilled : t.slots = pre ++ x :: post)
    (hfree : t'.slots = pre ++ NULL :: post) : Holds t' (S.erase x) := by
  obtain ⟨hnodup, hmem⟩ := h
  rw [PutcharArray.registered, hfilled, List.filter_append,
    List.filter_cons_of_pos (by simpa)] at hnodup hmem
  rw [List.nodup_middle, ← List.filter_append, List.nodup_cons] at hnodup
  constructor
  · rw [PutcharArray.registered, hfree, List.filter_append, List.filter_cons_of_neg (by simp),
      ← List.filter_append]
    exact hnodup.2
  · intro y
    have hy := hmem y
    rw [List.perm_middle.mem_iff, ← List.filter_append, List.mem_cons] at hy
    rw [PutcharArray.registered, hfree, List.filter_append, List.filter_cons_of_neg (by simp),
      ← List.filter_append, Finset.mem_erase, ← hy]
    constructor
    · exact fun hin => ⟨fun heq => hnodup.1 (heq ▸ hin), .inr hin⟩
    · exact fun ⟨hne, hin⟩ => hin.resolve_left hne

end Slot

/-- **`register_early_putchar`** on a table that holds `S`, unless it is a ninth callback. -/
theorem registerEarlyPutchar_spec (h : Holds t S) (hx : x ≠ NULL)
    (hroom : x ∈ S ∨ S.card < earlyOutputMaxPutchar) :
    ∃ t', registerEarlyPutchar t x = .ok ((setStep S (.register x)).1, t') ∧
      Holds t' (setStep S (.register x)).2 ∧
      ((setStep S (.register x)).1 ≠ .success → t' = t) := by
  rw [registerEarlyPutchar, setStep]
  by_cases hmem : x ∈ S
  · rw [if_pos hmem, (registerScan_eq_none hx).2 ((h.mem_slots_iff hx).2 hmem)]
    exact ⟨t, rfl, h, fun _ => rfl⟩
  · have hcard := (hroom.resolve_left hmem).ne
    have hnull : NULL ∈ t.slots := not_not.1 fun hnull => hcard (h.full_iff.2 hnull)
    have hslots : x ∉ t.slots := fun hin => hmem ((h.mem_slots_iff hx).1 hin)
    obtain ⟨pre, post, hsplit, hscan⟩ := registerScan_free hslots hnull
    obtain ⟨t', ht', hslots'⟩ := PutcharArray.write_eq hsplit x
    rw [hscan, Nat.zero_add, if_neg hmem, if_neg hcard]
    refine ⟨t', ?_, h.insert hx hmem hsplit hslots', fun hne => absurd rfl hne⟩
    simp only [if_neg (Nat.not_lt_zero pre.length), ht', ok_bind, pure_eq_ok]

/-- A ninth callback is written outside the table: the unsigned index is never below zero. -/
theorem registerEarlyPutchar_ninth (h : Holds t S) (hx : x ≠ NULL) (hnew : x ∉ S)
    (hfull : S.card = earlyOutputMaxPutchar) :
    registerEarlyPutchar t x = .error .outOfBounds := by
  have hslots : x ∉ t.slots := fun hin => hnew ((h.mem_slots_iff hx).1 hin)
  rw [registerEarlyPutchar, registerScan_full hslots (h.full_iff.1 hfull)]
  rfl

/-- **`unregister_early_putchar`** on a table that holds `S`. -/
theorem unregisterEarlyPutchar_spec (h : Holds t S) (hx : x ≠ NULL) :
    ∃ t', unregisterEarlyPutchar t x = .ok ((setStep S (.unregister x)).1, t') ∧
      Holds t' (setStep S (.unregister x)).2 ∧
      ((setStep S (.unregister x)).1 ≠ .success → t' = t) := by
  rw [unregisterEarlyPutchar, setStep]
  by_cases hmem : x ∈ S
  · obtain ⟨pre, post, hsplit, hscan⟩ := unregisterScan_found ((h.mem_slots_iff hx).2 hmem)
    obtain ⟨t', ht', hslots'⟩ := PutcharArray.write_eq hsplit NULL
    rw [hscan, Nat.zero_add, if_pos hmem]
    refine ⟨t', ?_, h.erase hx hsplit hslots', fun hne => absurd rfl hne⟩
    simp only [ht', ok_bind, pure_eq_ok]
  · have hslots : x ∉ t.slots := fun hin => hmem ((h.mem_slots_iff hx).1 hin)
    rw [unregisterScan_eq_none hslots, if_neg hmem]
    exact ⟨t, rfl, h, fun _ => rfl⟩

theorem earlyPutchar_eq (t : PutcharArray) (c : UInt8) :
    earlyPutchar t c = t.registered.map fun cb => (cb, c) := by
  unfold earlyPutchar PutcharArray.registered
  induction t.slots with
  | nil => rfl
  | cons slot slots ih =>
    rw [List.flatMap_cons, ih]
    by_cases hslot : slot = NULL
    · rw [if_pos hslot, List.filter_cons_of_neg (by simpa), List.nil_append]
    · rw [if_neg hslot, List.filter_cons_of_pos (by simpa), List.map_cons]
      rfl

/-- **`early_putchar` calls every registered callback once**, with the character, and no other. -/
theorem earlyPutchar_count (h : Holds t S) (c : UInt8) (call : Nat × UInt8) :
    (earlyPutchar t c).count call = if call.2 = c ∧ call.1 ∈ S then 1 else 0 := by
  have hnodup : (t.registered.map fun cb => (cb, c)).Nodup :=
    h.nodup.map fun a b hab => (Prod.mk.inj hab).1
  have hmem : call ∈ t.registered.map (fun cb => (cb, c)) ↔ call.2 = c ∧ call.1 ∈ S := by
    rw [List.mem_map]
    constructor
    · rintro ⟨cb, hcb, rfl⟩
      exact ⟨rfl, (h.mem_iff cb).1 hcb⟩
    · rintro ⟨rfl, hcb⟩
      exact ⟨call.1, (h.mem_iff _).2 hcb, rfl⟩
  rw [earlyPutchar_eq]
  split_ifs with hcall
  · exact List.count_eq_one_of_mem hnodup (hmem.2 hcall)
  · exact List.count_eq_zero.2 fun hin => hcall (hmem.1 hin)

/-- **`early_puts`** calls `early_putchar` with each character of the string. -/
theorem earlyPuts_eq {fuel : Nat} {s : CStr} {l : List UInt8} (h : s.Is l)
    (hf : l.length < fuel) : earlyPuts fuel t s = .ok (l.flatMap (earlyPutchar t)) := by
  -- after `i` passes the first `i` characters have been passed on
  refine loop_trace (fun i => (i, (l.take i).flatMap (earlyPutchar t))) (fun i hlt => ?_) ?_ hf
  · dsimp only
    rw [earlyPutsStep, h.char hlt.le, ok_bind, if_pos (getD_append_zero_ne h.holds.2 hlt),
      List.take_succ_eq_append_getElem hlt, List.flatMap_append, List.flatMap_singleton,
      List.getD_append _ _ _ _ hlt, List.getD_eq_getElem _ _ hlt]
    rfl
  · dsimp only
    rw [earlyPutsStep, h.char le_rfl, getD_append_zero_length, List.take_length]
    rfl

/-! ## Runs -/

/-- One call, with the tables around it. -/
structure EarlyCall where
  op : EarlyOp
  code : KError
  before : PutcharArray
  after : PutcharArray

def earlyStep (t : PutcharArray) : EarlyOp → Result (KError × PutcharArray)
  | .register putchar => registerEarlyPutchar t putchar
  | .unregister putchar => unregisterEarlyPutchar t putchar

/-- The calls of a sequence, one after the other. -/
def earlyRun : PutcharArray → List EarlyOp → Result (List EarlyCall × PutcharArray)
  | t, [] => .ok ([], t)
  | t, op :: ops => do
    let (code, t') ← earlyStep t op
    let (calls, t'') ← earlyRun t' ops
    return (⟨op, code, t, t'⟩ :: calls, t'')

/-- The call did to the table what it is to do to the set, and `early_putchar` calls the set. -/
structure EarlyCall.Sound (call : EarlyCall) (S : Finset Nat) : Prop where
  before : Holds call.before S
  code : call.code = (setStep S call.op).1
  after : Holds call.after (setStep S call.op).2
  card_le : (setStep S call.op).2.card ≤ earlyOutputMaxPutchar
  unchanged : call.code ≠ .success → call.after = call.before
  putchar : ∀ c cb, (earlyPutchar call.after c).count cb =
    if cb.2 = c ∧ cb.1 ∈ (setStep S call.op).2 then 1 else 0

/-- The run returns, and each call did its step of the run on the set that starts as `S`. -/
def SoundFrom : Finset Nat → List EarlyCall → Prop
  | _, [] => True
  | S, call :: calls => call.Sound S ∧ SoundFrom (setStep S call.op).2 calls

/-- No call registers a new callback while eight others are registered. -/
def NoNinth (S : Finset Nat) (ops : List EarlyOp) : Prop :=
  ∀ pre x post, ops = pre ++ .register x :: post →
    x ∈ setRun S pre ∨ (setRun S pre).card < earlyOutputMaxPutchar

theorem noNinth_cons {op : EarlyOp} {ops : List EarlyOp} :
    NoNinth S (op :: ops) ↔ (∀ x, op = .register x → x ∈ S ∨ S.card < earlyOutputMaxPutchar) ∧
      NoNinth (setStep S op).2 ops := by
  constructor
  · intro h
    refine ⟨fun x hop => h [] x ops (by rw [hop, List.nil_append]), ?_⟩
    intro pre x post hsplit
    exact h (op :: pre) x post (congrArg (op :: ·) hsplit)
  · rintro ⟨hfirst, hrest⟩ pre x post hsplit
    cases pre with
    | nil => exact hfirst x (List.cons.inj hsplit).1
    | cons op' pre =>
      obtain ⟨rfl, htail⟩ := List.cons.inj hsplit
      exact hrest pre x post htail

/-- One step of a run. -/
theorem earlyStep_spec {op : EarlyOp} (h : Holds t S) (hx : op.putchar ≠ NULL)
    (hroom : ∀ x, op = .register x → x ∈ S ∨ S.card < earlyOutputMaxPutchar) :
    ∃ t', earlyStep t op = .ok ((setStep S op).1, t') ∧
      EarlyCall.Sound ⟨op, (setStep S op).1, t, t'⟩ S := by
  obtain ⟨t', ht', h', hsame⟩ : ∃ t', earlyStep t op = .ok ((setStep S op).1, t') ∧
      Holds t' (setStep S op).2 ∧ ((setStep S op).1 ≠ .success → t' = t) := by
    cases op with
    | register x => exact registerEarlyPutchar_spec h hx (hroom x rfl)
    | unregister x => exact unregisterEarlyPutchar_spec h hx
  exact ⟨t', ht', h, rfl, h', h'.card_le, hsame, earlyPutchar_count h'⟩

theorem earlyRun_sound_from {ops : List EarlyOp} (h : Holds t S)
    (hnull : ∀ op ∈ ops, op.putchar ≠ NULL) :
    (∃ calls t', earlyRun t ops = .ok (calls, t') ∧ SoundFrom S calls) ↔ NoNinth S ops := by
  induction ops generalizing t S with
  | nil => exact iff_of_true ⟨[], t, rfl, trivial⟩ fun pre x post hsplit => by simp at hsplit
  | cons op ops ih =>
    have hx := hnull op (by simp)
    have hrest := fun op' hop' => hnull op' (List.mem_cons_of_mem op hop')
    rw [noNinth_cons]
    by_cases hroom : ∀ x, op = .register x → x ∈ S ∨ S.card < earlyOutputMaxPutchar
    · obtain ⟨t₁, ht₁, hsound⟩ := earlyStep_spec h hx hroom
      rw [← ih hsound.after hrest]
      constructor
      · rintro ⟨calls, t', hrun, hcalls⟩
        simp only [earlyRun, ht₁, ok_bind] at hrun
        cases htail : earlyRun t₁ ops with
        | error e =>
          rw [htail] at hrun
          cases hrun
        | ok run =>
          rw [htail] at hrun
          obtain ⟨rfl, -⟩ := Prod.mk.inj (Except.ok.inj hrun)
          exact ⟨hroom, run.1, run.2, rfl, hcalls.2⟩
      · rintro ⟨-, calls, t', hrun, hcalls⟩
        refine ⟨⟨op, (setStep S op).1, t, t₁⟩ :: calls, t', ?_, hsound, hcalls⟩
        simp only [earlyRun, ht₁, ok_bind, hrun, pure_eq_ok]
    · -- the ninth callback ends the run
      push Not at hroom
      obtain ⟨x, rfl, hnew, hfull⟩ := hroom
      have hninth : earlyStep t (.register x) = .error .outOfBounds :=
        registerEarlyPutchar_ninth h hx hnew (h.card_le.antisymm hfull)
      constructor
      · rintro ⟨calls, t', hrun, -⟩
        rw [earlyRun, hninth] at hrun
        cases hrun
      · rintro ⟨hroom, -⟩
        exact absurd (hroom x rfl) (by simp [hnew, hfull])

/-- **When the table behaves as a set**: in the runs that never register a ninth callback. -/
theorem earlyRun_sound_iff {ops : List EarlyOp} (hnull : ∀ op ∈ ops, op.putchar ≠ NULL) :
    (∃ calls t, earlyRun .initial ops = .ok (calls, t) ∧ SoundFrom ∅ calls) ↔ NoNinth ∅ ops :=
  earlyRun_sound_from holds_initial hnull

/-- A run that leaves a hole in the table. -/
theorem earlyRun_sound_iff_hole :
    (∃ calls t, earlyRun .initial [.register 1, .register 2, .unregister 1, .register 2] =
      .ok (calls, t) ∧ SoundFrom ∅ calls) ↔
      NoNinth ∅ [.register 1, .register 2, .unregister 1, .register 2] :=
  earlyRun_sound_iff (by decide)

/-- Registering nine callbacks writes outside the table. -/
theorem nine_callbacks_outOfBounds :
    ¬ ∃ calls t, earlyRun .initial ((List.range 9).map fun i => .register (i + 1)) =
      .ok (calls, t) ∧ SoundFrom ∅ calls := by
  rintro ⟨calls, t, hrun, -⟩
  have hfault : earlyRun .initial ((List.range 9).map fun i => .register (i + 1)) =
      .error .outOfBounds := rfl
  rw [hfault] at hrun
  cases hrun

end RiscyOs
