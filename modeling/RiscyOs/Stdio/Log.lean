import RiscyOs.Stdio.Printk

/-!
# What a callback gets over a run

While the kernel prints, callbacks are registered and unregistered, in any order. For each of them
the run is a text: what is printed while it is registered.

* `logRun_heard`: every callback gets this text, with nothing lost, repeated or out of order.
-/

namespace RiscyOs

/-! ## The code -/

/-- A `printk` whose arguments are those of its format string. -/
structure Message where
  format : List UInt8
  args : List Arg
  values : List Value
  zero_notMem : 0 ∉ format
  ne_nil : format ≠ []
  has : List.Forall₂ Arg.Has args values
  matching : Matching (parse format) values

inductive LogOp where
  | table (op : EarlyOp)
  | printk (m : Message)
  | putchar (c : UInt8)

/-- One call, after the calls `out` of the callbacks. -/
def logStep (fuel : Nat) (t : PutcharArray) (out : Calls) : LogOp → Result (PutcharArray × Calls)
  | .table op => do
    let (_, t) ← earlyStep t op
    return (t, out)
  | .printk m => do
    let out ← RiscyOs.printk fuel t m.format m.args out
    return (t, out)
  | .putchar c => return (t, out ++ earlyPutchar t c)

def logRun (fuel : Nat) : PutcharArray → Calls → List LogOp → Result (PutcharArray × Calls)
  | t, out, [] => .ok (t, out)
  | t, out, op :: ops => do
    let (t, out) ← logStep fuel t out op
    logRun fuel t out ops

/-! ## Texts -/

/-- What is printed; a `NUL` is not. -/
def Message.text (m : Message) : List UInt8 := delivered (expand (parse m.format) m.values)

/-- The loops of `printk` have fuel. -/
structure Message.Within (m : Message) (fuel : Nat) : Prop where
  format : m.format.length < fuel
  strings : ∀ s, Value.string s ∈ m.values → s.length < fuel
  text : (expand (parse m.format) m.values).length < fuel

namespace LogOp

def text : LogOp → List UInt8
  | table _ => []
  | printk m => m.text
  | putchar c => [c]

/-- The callbacks that are registered afterwards. -/
def step (S : Finset Nat) : LogOp → Finset Nat
  | table op => (setStep S op).2
  | _ => S

def table? : LogOp → Option EarlyOp
  | table op => some op
  | _ => none

end LogOp

/-- What is printed while `cb` is registered. -/
def heard (cb : Nat) : Finset Nat → List LogOp → List UInt8
  | _, [] => []
  | S, op :: ops => (if cb ∈ S then op.text else []) ++ heard cb (op.step S) ops

/-- The calls that change the table. -/
def tableOps (ops : List LogOp) : List EarlyOp := ops.filterMap LogOp.table?

/-! ## Runs -/

variable {fuel cb : Nat} {t : PutcharArray} {S : Finset Nat}

/-- No other callback gets any of a text. -/
theorem receivedBy_sent_of_notMem (h : Holds t S) (hcb : cb ∉ S) (text : List UInt8) :
    receivedBy cb (sent t text) = [] := by
  induction text with
  | nil => rfl
  | cons c text ih =>
    have hone : receivedBy cb (earlyPutchar t c) = [] := by
      have hnone : t.registered.filter (· = cb) = [] := by
        rw [List.filter_eq_nil_iff]
        intro x hx heq
        exact hcb (of_decide_eq_true heq ▸ (h.mem_iff x).1 hx)
      rw [receivedBy, earlyPutchar_eq, List.filter_map]
      exact congrArg (fun l => (l.map fun cb => (cb, c)).map Prod.snd) hnone
    rw [sent, List.flatMap_cons, receivedBy_append, hone, List.nil_append]
    exact ih

theorem receivedBy_sent_eq (h : Holds t S) (cb : Nat) (text : List UInt8) :
    receivedBy cb (sent t text) = if cb ∈ S then text else [] := by
  by_cases hcb : cb ∈ S
  · rw [if_pos hcb, receivedBy_sent h hcb]
  · rw [if_neg hcb, receivedBy_sent_of_notMem h hcb]

/-- **One call**: it sends its text to the callbacks that are registered. -/
theorem logStep_eq {op : LogOp} (h : Holds t S) (out : Calls)
    (hnull : ∀ e, op = .table e → e.putchar ≠ NULL)
    (hroom : ∀ x, op = .table (.register x) → x ∈ S ∨ S.card < earlyOutputMaxPutchar)
    (hfuel : ∀ m, op = .printk m → m.Within fuel) :
    ∃ t', logStep fuel t out op = .ok (t', out ++ sent t op.text) ∧ Holds t' (op.step S) := by
  cases op with
  | table e =>
    obtain ⟨t', ht', hsound⟩ := earlyStep_spec h (hnull e rfl) fun x hx => hroom x (hx ▸ rfl)
    refine ⟨t', ?_, hsound.after⟩
    rw [logStep, ht', LogOp.text, sent_nil, List.append_nil]
    rfl
  | printk m =>
    have hm := hfuel m rfl
    refine ⟨t, ?_, h⟩
    rw [logStep, printk_eq m.zero_notMem m.ne_nil m.has m.matching hm.format hm.strings hm.text]
    rfl
  | putchar c =>
    refine ⟨t, ?_, h⟩
    rw [logStep, LogOp.text, sent, List.flatMap_singleton]
    rfl

theorem logRun_from {ops : List LogOp} (h : Holds t S) (out : Calls)
    (hnull : ∀ e ∈ tableOps ops, e.putchar ≠ NULL) (hroom : NoNinth S (tableOps ops))
    (hfuel : ∀ m, .printk m ∈ ops → m.Within fuel) :
    ∃ t' out', logRun fuel t out ops = .ok (t', out') ∧ Holds t' (setRun S (tableOps ops)) ∧
      ∀ cb, receivedBy cb out' = receivedBy cb out ++ heard cb S ops := by
  induction ops generalizing t S out with
  | nil => exact ⟨t, out, rfl, h, fun cb => (List.append_nil _).symm⟩
  | cons op ops ih =>
    obtain ⟨hnull₁, hnull₂, hroom₁, hroom₂, hset⟩ :
        (∀ e, op = .table e → e.putchar ≠ NULL) ∧ (∀ e ∈ tableOps ops, e.putchar ≠ NULL) ∧
        (∀ x, op = .table (.register x) → x ∈ S ∨ S.card < earlyOutputMaxPutchar) ∧
        NoNinth (op.step S) (tableOps ops) ∧
        setRun S (tableOps (op :: ops)) = setRun (op.step S) (tableOps ops) := by
      cases op with
      | table e =>
        obtain ⟨hfirst, hrest⟩ := noNinth_cons.1 hroom
        obtain ⟨hnull₁, hnull₂⟩ := List.forall_mem_cons.1 hnull
        refine ⟨?_, hnull₂, ?_, hrest, rfl⟩
        · rintro _ ⟨rfl⟩
          exact hnull₁
        · rintro x ⟨rfl⟩
          exact hfirst x rfl
      | printk m => exact ⟨by rintro _ ⟨⟩, hnull, by rintro _ ⟨⟩, hroom, rfl⟩
      | putchar c => exact ⟨by rintro _ ⟨⟩, hnull, by rintro _ ⟨⟩, hroom, rfl⟩
    obtain ⟨t₁, hstep, h₁⟩ := logStep_eq h out hnull₁ hroom₁
      fun m hm => hfuel m (hm ▸ List.mem_cons_self)
    obtain ⟨t', out', hrun, h', hout⟩ := ih h₁ (out ++ sent t op.text) hnull₂ hroom₂
      fun m hm => hfuel m (List.mem_cons_of_mem op hm)
    refine ⟨t', out', ?_, hset ▸ h', fun cb => ?_⟩
    · rw [logRun, hstep, ok_bind]
      exact hrun
    · rw [hout, receivedBy_append, receivedBy_sent_eq h, heard, List.append_assoc]

/-- **Every callback gets what is printed while it is registered**, whatever the others do: the run
returns, and leaves the callbacks registered that the calls on the table leave. -/
theorem logRun_heard {ops : List LogOp} (hnull : ∀ e ∈ tableOps ops, e.putchar ≠ NULL)
    (hroom : NoNinth ∅ (tableOps ops)) (hfuel : ∀ m, .printk m ∈ ops → m.Within fuel) :
    ∃ t out, logRun fuel .initial [] ops = .ok (t, out) ∧ Holds t (setRun ∅ (tableOps ops)) ∧
      ∀ cb, receivedBy cb out = heard cb ∅ ops :=
  logRun_from holds_initial [] hnull hroom hfuel

def pageMessage : Message :=
  ⟨ascii "alloc = %p\n", [.ptr 0x1000], [.pointer 0x1000], by decide, by decide,
    .cons (.pointer (by decide)) .nil, by decide⟩

/-- The second callback comes after the first message, and the first one goes before the second. -/
def pageLog : List LogOp :=
  [.table (.register 1), .printk pageMessage, .table (.register 2), .putchar 33,
    .table (.unregister 1), .printk pageMessage]

theorem logRun_heard_page :
    ∃ t out, logRun 100 .initial [] pageLog = .ok (t, out) ∧
      receivedBy 1 out = ascii "alloc = 0x0000000000001000\n!" ∧
      receivedBy 2 out = ascii "!alloc = 0x0000000000001000\n" := by
  have hnil : ∀ S, NoNinth S [] := fun S pre x post h => by simp at h
  have hlast : ∀ S, NoNinth S [.unregister 1] := fun S =>
    noNinth_cons.2 ⟨fun x hx => (by cases hx), hnil _⟩
  have hnull : ∀ e ∈ tableOps pageLog, e.putchar ≠ NULL := by decide
  have hroom : NoNinth ∅ (tableOps pageLog) :=
    noNinth_cons.2 ⟨fun x _ => .inr (by decide),
      noNinth_cons.2 ⟨fun x _ => .inr (by decide), hlast _⟩⟩
  have hwithin : pageMessage.Within 100 :=
    ⟨by decide, fun s hs => by simp [pageMessage] at hs, by decide⟩
  have hfuel : ∀ m, LogOp.printk m ∈ pageLog → m.Within 100 := by
    intro m hm
    have heq : m = pageMessage := by simpa [pageLog] using hm
    exact heq ▸ hwithin
  obtain ⟨t, out, hrun, -, hout⟩ := logRun_heard hnull hroom hfuel
  exact ⟨t, out, hrun, (hout 1).trans (by decide), (hout 2).trans (by decide)⟩

end RiscyOs
