import RiscyOs.Setup
import RiscyOs.Syscon.Action

/-!
# The console

After the constructors `kmain` polls the UART. It prints each byte that comes; `%` leaves for the
destructors, `!` aborts, and `^` and `&` reset the machine when their init function has succeeded.

`*UART` is read up to six times for a byte and then again and again until it changes. What a read
gives is left open: the reads are a list, any list, and the loop waits at its end.

* `consolePass_passes`: one pass does what it may do, whatever it reads.
* `console_keys`: when the UART holds each byte for seven reads, each is printed once, and the first
  command among them is obeyed.
-/

namespace RiscyOs

open ByteMemory FuelLoop

/-! ## The code -/

/-- How `kmain` ends. `waiting`: there are no more reads. -/
inductive KmainEnd where
  | panic (out : Calls)
  | returned (out : Calls)
  | reset (kind : SysconKind) (mem : Mem) (out : Calls)
  | waiting (out : Calls)

/-- A constructor or a destructor. -/
abbrev FuncPtr := KernelState → Result KernelState

def processFuncArray : List FuncPtr → FuncPtr
  | [], st => .ok st
  | func :: funcs, st => do
    let st ← func st
    processFuncArray funcs st

def printFunc (fuel : Nat) (msg : List UInt8) : FuncPtr := fun st => do
  let out ← printk fuel st.putchars msg [] st.out
  return { st with out := out }

def foo (fuel : Nat) : FuncPtr := printFunc fuel (ascii "Hello from a global constructor!\n")

def bar (fuel : Nat) : FuncPtr := printFunc fuel (ascii "Hello from a global destructor!\n")

/-! The linker collects the functions with the attribute `constructor` or `destructor`. -/

def preinitArray : List FuncPtr := []

def initArray (fuel : Nat) : List FuncPtr := [foo fuel]

def finiArray (fuel : Nat) : List FuncPtr := [bar fuel]

/-- A pass of the loop goes on with the reads that are left, or ends it. -/
abbrev ConsolePass := (List UInt8 × Calls) ⊕ KmainEnd

/-- `*UART`. The pointer is not volatile; each mention of it is taken as one read. -/
def readUart (reads : List UInt8) (out : Calls) (next : UInt8 → List UInt8 → Result ConsolePass) :
    Result ConsolePass :=
  match reads with
  | [] => .ok (.inr (.waiting out))
  | c :: reads => next c reads

/-- `if (ok && *UART == key)`, and the action. -/
def resetIf (ok : Bool) (kind : SysconKind) (key : UInt8) (st : KernelState) (reads : List UInt8)
    (out : Calls) (next : List UInt8 → Result ConsolePass) : Result ConsolePass :=
  if ok then
    readUart reads out fun c reads =>
      if c = key then do
        let mem ← sysconPerform st.syscon kind st.machine.mem
        return .inr (.reset kind mem out)
      else next reads
  else next reads

/-- `while (old_uart == *UART) ;` -/
def waitUart (oldUart : UInt8) : List UInt8 → Calls → Result ConsolePass
  | [], out => .ok (.inr (.waiting out))
  | c :: reads, out => if oldUart = c then waitUart oldUart reads out else .ok (.inl (reads, out))

def consolePass (fuel : Nat) (rebootOk shutdownOk : Bool) (st : KernelState) :
    List UInt8 × Calls → Result ConsolePass := fun (reads, out) =>
  readUart reads out fun c reads => do
    let out ← printk fuel st.putchars (ascii "%c") [.int c.toNat] out
    readUart reads out fun c reads =>
      if c = chr '%' then return .inr (.returned out)
      else readUart reads out fun c reads =>
        if c = chr '!' then do
          let out ← printk fuel st.putchars (ascii "KERNEL PANIC\n") [] out
          return .inr (.panic out)
        else
          resetIf rebootOk .reboot (chr '^') st reads out fun reads =>
            resetIf shutdownOk .shutdown (chr '&') st reads out fun reads =>
              readUart reads out fun oldUart reads => waitUart oldUart reads out

def console (fuel : Nat) (rebootOk shutdownOk : Bool) (st : KernelState) (reads : List UInt8) :
    Result KmainEnd :=
  loop .outOfFuel (consolePass fuel rebootOk shutdownOk st) fuel (reads, st.out)

/-! ## Printing -/

variable {fuel : Nat} {st : KernelState} {t : PutcharArray}

theorem printk_byte (hfuel : 64 < fuel) (c : UInt8) (out : Calls) :
    printk fuel t (ascii "%c") [.int c.toNat] out = .ok (out ++ sent t (delivered [c])) := by
  have hchar : toChar c.toNat = c := by
    unfold toChar
    rw [Int.toNat_emod (by omega) (by decide)]
    exact UInt8.toNat_inj.1 (by simp)
  have htext : expand (parse (ascii "%c")) [.char c] = [c] := rfl
  have hline := printk_eq (t := t) (f := ascii "%c") (by decide) (by decide)
    (.cons (.char c.toNat) .nil) (by decide : [Directive.char] = _)
    ((by decide : (ascii "%c").length < 64).trans hfuel) (by simp) ?_ out
  · rwa [hchar, htext] at hline
  · rw [hchar, htext]
    exact (by decide : 1 < 64).trans hfuel

theorem printPanic_eq (hfuel : 64 < fuel) (out : Calls) :
    printk fuel t (ascii "KERNEL PANIC\n") [] out = .ok (out ++ sent t (ascii "KERNEL PANIC\n")) :=
  printk_plain (by decide) (by decide) (by decide) (by decide)
    ((by decide : (ascii "KERNEL PANIC\n").length < 64).trans hfuel) out

/-- The state after a text is printed. -/
def KernelState.printing (st : KernelState) (text : List UInt8) : KernelState :=
  { st with out := st.out ++ sent st.putchars text }

theorem foo_eq (hfuel : 64 < fuel) (st : KernelState) :
    foo fuel st = .ok (st.printing (ascii "Hello from a global constructor!\n")) := by
  rw [foo, printFunc, printk_plain (by decide) (by decide) (by decide) (by decide)
    ((by decide : (ascii "Hello from a global constructor!\n").length < 64).trans hfuel)]
  rfl

theorem bar_eq (hfuel : 64 < fuel) (st : KernelState) :
    bar fuel st = .ok (st.printing (ascii "Hello from a global destructor!\n")) := by
  rw [bar, printFunc, printk_plain (by decide) (by decide) (by decide) (by decide)
    ((by decide : (ascii "Hello from a global destructor!\n").length < 64).trans hfuel)]
  rfl

/-! ## Any reads -/

/-- A pass stops in `P`, or goes on with fewer than `n` reads. -/
def Passes (P : KmainEnd → Prop) (n : Nat) (pass : Result ConsolePass) : Prop :=
  (∃ stop, pass = .ok (.inr stop) ∧ P stop) ∨
    ∃ state, pass = .ok (.inl state) ∧ state.1.length < n

section AnyReads

variable {P : KmainEnd → Prop} {n : Nat} {reads : List UInt8} {out : Calls}

theorem Passes.stop {stop : KmainEnd} (h : P stop) : Passes P n (.ok (.inr stop)) :=
  .inl ⟨stop, rfl, h⟩

theorem readUart_passes {next : UInt8 → List UInt8 → Result ConsolePass} (hwait : P (.waiting out))
    (hn : reads.length ≤ n)
    (h : ∀ c rest, rest.length < n → Passes P n (next c rest)) :
    Passes P n (readUart reads out next) := by
  cases reads with
  | nil => exact .stop hwait
  | cons c reads => exact h c reads hn

theorem waitUart_passes (hwait : P (.waiting out)) (oldUart : UInt8) (hn : reads.length ≤ n) :
    Passes P n (waitUart oldUart reads out) := by
  induction reads with
  | nil => exact .stop hwait
  | cons c reads ih =>
    rw [List.length_cons] at hn
    rw [waitUart]
    split_ifs
    · exact ih (by omega)
    · exact .inr ⟨_, rfl, hn⟩

theorem resetIf_passes {ok : Bool} {kind : SysconKind} {key : UInt8}
    {next : List UInt8 → Result ConsolePass} (hwait : P (.waiting out)) (hn : reads.length ≤ n)
    (hreset : ok = true → ∃ m, sysconPerform st.syscon kind st.machine.mem = .ok m ∧
      P (.reset kind m out))
    (h : ∀ rest, rest.length ≤ n → Passes P n (next rest)) :
    Passes P n (resetIf ok kind key st reads out next) := by
  rw [resetIf]
  split_ifs with hok
  · refine readUart_passes hwait hn fun c rest hrest => ?_
    split_ifs
    · obtain ⟨m, hm, hP⟩ := hreset hok
      rw [hm]
      exact .stop hP
    · exact h rest hrest.le
  · exact h reads hn

/-- One pass of the loop stops without a fault, or uses up reads. -/
theorem consolePass_passes (hfuel : 64 < fuel) {rebootOk shutdownOk : Bool}
    (hplain : ∀ out, P (.waiting out) ∧ P (.returned out) ∧ P (.panic out))
    (hreboot : rebootOk = true → ∃ m, sysconPerform st.syscon .reboot st.machine.mem = .ok m ∧
      ∀ out, P (.reset .reboot m out))
    (hshutdown : shutdownOk = true → ∃ m,
      sysconPerform st.syscon .shutdown st.machine.mem = .ok m ∧
        ∀ out, P (.reset .shutdown m out)) :
    Passes P reads.length (consolePass fuel rebootOk shutdownOk st (reads, out)) := by
  refine readUart_passes (hplain out).1 le_rfl fun c rest hrest => ?_
  rw [printk_byte hfuel, ok_bind]
  refine readUart_passes (hplain _).1 hrest.le fun c rest hrest => ?_
  split_ifs
  · exact .stop (hplain _).2.1
  refine readUart_passes (hplain _).1 hrest.le fun c rest hrest => ?_
  split_ifs
  · rw [printPanic_eq hfuel, ok_bind]
    exact .stop (hplain _).2.2
  refine resetIf_passes (hplain _).1 hrest.le ?_ fun rest hrest => ?_
  · intro hok
    obtain ⟨m, hm, hP⟩ := hreboot hok
    exact ⟨m, hm, hP _⟩
  refine resetIf_passes (hplain _).1 hrest ?_ fun rest hrest => ?_
  · intro hok
    obtain ⟨m, hm, hP⟩ := hshutdown hok
    exact ⟨m, hm, hP _⟩
  exact readUart_passes (hplain _).1 hrest fun oldUart rest hrest =>
    waitUart_passes (hplain _).1 oldUart hrest.le

end AnyReads

/-! ## Keys -/

/-- What a byte can ask of the console. -/
inductive Command where
  | leave
  | abort
  | reset (kind : SysconKind)
  deriving Repr, DecidableEq

/-- What `kmain` ends with for a command. -/
def Command.text : Option Command → List UInt8
  | some .leave => ascii "Hello from a global destructor!\n"
  | some .abort => ascii "KERNEL PANIC\n"
  | some (.reset _) => []
  | none => []

namespace KmainEnd

def command : KmainEnd → Option Command
  | panic _ => some .abort
  | returned _ => some .leave
  | reset kind _ _ => some (.reset kind)
  | waiting _ => none

def out : KmainEnd → Calls
  | panic out => out
  | returned out => out
  | reset _ _ out => out
  | waiting out => out

/-- The destructors print when `kmain` returns. -/
def destructed (t : PutcharArray) : KmainEnd → KmainEnd
  | returned out => returned (out ++ sent t (ascii "Hello from a global destructor!\n"))
  | stop => stop

end KmainEnd

/-- The command a byte stands for, with the two flags of `kmain`. -/
def command? (ok : SysconKind → Bool) (c : UInt8) : Option Command :=
  if c = chr '%' then some .leave
  else if c = chr '!' then some .abort
  else if ok .reboot ∧ c = chr '^' then some (.reset .reboot)
  else if ok .shutdown ∧ c = chr '&' then some (.reset .shutdown)
  else none

/-- The bytes up to the first command, and that command. -/
def obey (ok : SysconKind → Bool) : List UInt8 → List UInt8 × Option Command
  | [] => ([], none)
  | c :: keys =>
    match command? ok c with
    | some command => ([c], some command)
    | none => (c :: (obey ok keys).1, (obey ok keys).2)

/-- The reads while the UART holds each byte for a number of reads. -/
def held (presses : List (UInt8 × Nat)) : List UInt8 :=
  presses.flatMap fun press => List.replicate press.2 press.1

/-- Each byte is held for seven reads, and the next one is another. -/
structure Legible (presses : List (UInt8 × Nat)) : Prop where
  long : ∀ press ∈ presses, 7 ≤ press.2
  change : (presses.map Prod.fst).IsChain (· ≠ ·)

section Keys

variable {c : UInt8} {ok : SysconKind → Bool} {presses : List (UInt8 × Nat)}

/-- The console has stopped for the command, after the text. -/
structure Obeyed (t : PutcharArray) (out : Calls) (text : List UInt8) (command : Option Command)
    (stop : KmainEnd) : Prop where
  obeys : stop.command = command
  prints : (stop.destructed t).out = out ++ sent t (text ++ Command.text command)

theorem Obeyed.reset (t : PutcharArray) (out : Calls) (text : List UInt8) (kind : SysconKind)
    (m : Mem) : Obeyed t out text (some (.reset kind)) (.reset kind m (out ++ sent t text)) := by
  refine ⟨rfl, ?_⟩
  have hnil : Command.text (some (.reset kind)) = [] := rfl
  rw [hnil, List.append_nil]
  rfl

theorem Obeyed.waiting (t : PutcharArray) (out : Calls) (text : List UInt8) :
    Obeyed t out text none (.waiting (out ++ sent t text)) := by
  refine ⟨rfl, ?_⟩
  have hnil : Command.text none = [] := rfl
  rw [hnil, List.append_nil]
  rfl

/-- The text before comes first. -/
theorem Obeyed.after {t : PutcharArray} {out : Calls} {text text' : List UInt8}
    {command : Option Command} {stop : KmainEnd}
    (h : Obeyed t (out ++ sent t text) text' command stop) :
    Obeyed t out (text ++ text') command stop := by
  refine ⟨h.obeys, ?_⟩
  rw [h.prints, List.append_assoc, List.append_assoc, sent_append t text]

/-- The rest of the reads of one byte are skipped. -/
theorem waitUart_replicate (c : UInt8) (n : Nat) (reads : List UInt8) (out : Calls) :
    waitUart c (List.replicate n c ++ reads) out = waitUart c reads out := by
  induction n with
  | zero => rfl
  | succ n ih => rw [List.replicate_succ, List.cons_append, waitUart, if_pos rfl, ih]

/-- A byte that is no command is printed and waited for. -/
theorem consolePass_plain (hfuel : 64 < fuel) (hc : command? ok c = none) (st : KernelState)
    (reads : List UInt8) (out : Calls) :
    consolePass fuel (ok .reboot) (ok .shutdown) st (List.replicate 6 c ++ reads, out) =
      waitUart c reads (out ++ sent st.putchars (delivered [c])) := by
  unfold command? at hc
  split_ifs at hc with hleave habort hreboot hshutdown
  have hrepl : List.replicate 6 c ++ reads = c :: c :: c :: c :: c :: c :: reads := rfl
  have hskip : ∀ rest, waitUart c (c :: rest) (out ++ sent st.putchars (delivered [c])) =
      waitUart c rest (out ++ sent st.putchars (delivered [c])) := fun rest => if_pos rfl
  simp only [hrepl, consolePass, readUart, printk_byte hfuel, ok_bind, if_neg hleave,
    if_neg habort, resetIf]
  by_cases hr : ok .reboot = true <;> by_cases hs : ok .shutdown = true
  all_goals simp only [hr, hs, true_and] at hreboot hshutdown
  · simp only [hr, hs, if_true, if_neg hreboot, if_neg hshutdown]
  · simp only [hr, hs, if_true, if_neg hreboot, if_false, Bool.false_eq_true, hskip]
  · simp only [hr, hs, if_true, if_neg hshutdown, if_false, Bool.false_eq_true, hskip]
  · simp only [hr, hs, if_false, Bool.false_eq_true, hskip]

/-- A byte that is a command stops the loop. -/
theorem consolePass_command (hfuel : 64 < fuel) {command : Command}
    (hc : command? ok c = some command)
    (hreset : ∀ kind, ok kind = true → ∃ m, sysconPerform st.syscon kind st.machine.mem = .ok m)
    (reads : List UInt8) (out : Calls) :
    ∃ stop, consolePass fuel (ok .reboot) (ok .shutdown) st (List.replicate 6 c ++ reads, out) =
        .ok (.inr stop) ∧ Obeyed st.putchars out (delivered [c]) (some command) stop := by
  have hrepl : List.replicate 6 c ++ reads = c :: c :: c :: c :: c :: c :: reads := rfl
  simp only [hrepl, consolePass, readUart, printk_byte hfuel, ok_bind]
  unfold command? at hc
  by_cases hleave : c = chr '%'
  · rw [if_pos hleave] at hc ⊢
    cases hc
    refine ⟨_, rfl, rfl, ?_⟩
    rw [sent_append, ← List.append_assoc]
    rfl
  rw [if_neg hleave] at hc ⊢
  by_cases habort : c = chr '!'
  · rw [if_pos habort] at hc ⊢
    cases hc
    rw [printPanic_eq hfuel, ok_bind]
    refine ⟨_, rfl, rfl, ?_⟩
    rw [sent_append, ← List.append_assoc]
    rfl
  rw [if_neg habort] at hc ⊢
  by_cases hreboot : ok .reboot = true ∧ c = chr '^'
  · rw [if_pos hreboot] at hc
    cases hc
    obtain ⟨m, hm⟩ := hreset .reboot hreboot.1
    rw [resetIf, if_pos hreboot.1, readUart, if_pos hreboot.2, hm, ok_bind]
    exact ⟨_, rfl, Obeyed.reset _ _ _ _ m⟩
  rw [if_neg hreboot] at hc
  by_cases hshutdown : ok .shutdown = true ∧ c = chr '&'
  · rw [if_pos hshutdown] at hc
    cases hc
    obtain ⟨m, hm⟩ := hreset .shutdown hshutdown.1
    have hnext : ∀ rest out next, resetIf (ok .shutdown) .shutdown (chr '&') st (c :: rest) out
        next = .ok (.inr (.reset .shutdown m out)) := by
      intro rest out next
      rw [resetIf, if_pos hshutdown.1, readUart, if_pos hshutdown.2, hm, ok_bind]
      rfl
    refine ⟨_, ?_, Obeyed.reset _ _ _ _ m⟩
    rw [resetIf]
    split_ifs with hok
    · rw [readUart, if_neg fun hkey => hreboot ⟨hok, hkey⟩, hnext]
    · exact hnext _ _ _
  · rw [if_neg hshutdown] at hc
    cases hc

/-- The first read of the next byte ends the wait, and is used up. -/
theorem waitUart_change {d : UInt8} (hne : c ≠ d) (n : Nat) (presses : List (UInt8 × Nat))
    (out : Calls) :
    waitUart c (held ((d, n + 1) :: presses)) out = .ok (.inl (held ((d, n) :: presses), out)) := by
  have hheld : held ((d, n + 1) :: presses) = d :: held ((d, n) :: presses) := rfl
  rw [hheld, waitUart, if_neg hne]

theorem held_six {n : Nat} (hn : 6 ≤ n) (c : UInt8) (presses : List (UInt8 × Nat)) :
    held ((c, n) :: presses) =
      List.replicate 6 c ++ (List.replicate (n - 6) c ++ held presses) := by
  rw [← List.append_assoc, List.replicate_append_replicate, Nat.add_sub_cancel' hn]
  rfl

/-- The round of a command is the last one. -/
theorem console_command (hfuel : 64 < fuel) {command : Command}
    (hc : command? ok c = some command)
    (hreset : ∀ kind, ok kind = true → ∃ m, sysconPerform st.syscon kind st.machine.mem = .ok m)
    {n : Nat} (hn : 6 ≤ n) (rounds : Nat) (out : Calls) :
    ∃ stop, loop .outOfFuel (consolePass fuel (ok .reboot) (ok .shutdown) st) (rounds + 1)
        (held ((c, n) :: presses), out) = .ok stop ∧
      Obeyed st.putchars out (delivered [c]) (some command) stop := by
  rw [held_six hn]
  obtain ⟨stop, hstop, hobeyed⟩ := consolePass_command hfuel hc hreset
    (List.replicate (n - 6) c ++ held presses) out
  exact ⟨stop, loop_leave hstop, hobeyed⟩

/-- After the last byte the loop waits. -/
theorem console_last (hfuel : 64 < fuel) (hc : command? ok c = none) (st : KernelState) {n : Nat}
    (hn : 6 ≤ n) (rounds : Nat) (out : Calls) :
    loop .outOfFuel (consolePass fuel (ok .reboot) (ok .shutdown) st) (rounds + 1)
      (held [(c, n)], out) = .ok (.waiting (out ++ sent st.putchars (delivered [c]))) := by
  have hpass := consolePass_plain hfuel hc st (List.replicate (n - 6) c ++ held []) out
  rw [waitUart_replicate] at hpass
  rw [held_six hn]
  exact loop_leave hpass

/-- A byte that is no command is printed, and the next one has a read less. -/
theorem console_next (hfuel : 64 < fuel) (hc : command? ok c = none) (st : KernelState) {n k : Nat}
    (hn : 6 ≤ n) {d : UInt8} (hne : c ≠ d) (rounds : Nat) (out : Calls) :
    loop .outOfFuel (consolePass fuel (ok .reboot) (ok .shutdown) st) (rounds + 1)
        (held ((c, n) :: (d, k + 1) :: presses), out) =
      loop .outOfFuel (consolePass fuel (ok .reboot) (ok .shutdown) st) rounds
        (held ((d, k) :: presses), out ++ sent st.putchars (delivered [c])) := by
  have hpass := consolePass_plain hfuel hc st
    (List.replicate (n - 6) c ++ held ((d, k + 1) :: presses)) out
  rw [waitUart_replicate, waitUart_change hne] at hpass
  rw [held_six hn]
  exact loop_again _ hpass

theorem obey_command {command : Command} (hc : command? ok c = some command) (keys : List UInt8) :
    obey ok (c :: keys) = ([c], some command) := by
  rw [obey, hc]

theorem obey_plain (hc : command? ok c = none) (keys : List UInt8) :
    obey ok (c :: keys) = (c :: (obey ok keys).1, (obey ok keys).2) := by
  rw [obey, hc]

/-- **The loop reads byte by byte.** -/
theorem console_keys (hfuel : 64 < fuel) (st : KernelState)
    (hreset : ∀ kind, ok kind = true → ∃ m, sysconPerform st.syscon kind st.machine.mem = .ok m)
    {n rounds : Nat} (hn : 6 ≤ n) (hlong : ∀ press ∈ presses, 7 ≤ press.2)
    (hchange : (c :: presses.map Prod.fst).IsChain (· ≠ ·)) (hrounds : presses.length < rounds)
    (out : Calls) :
    ∃ stop, loop .outOfFuel (consolePass fuel (ok .reboot) (ok .shutdown) st) rounds
        (held ((c, n) :: presses), out) = .ok stop ∧
      Obeyed st.putchars out (delivered (obey ok (c :: presses.map Prod.fst)).1)
        (obey ok (c :: presses.map Prod.fst)).2 stop := by
  induction presses generalizing c n out rounds with
  | nil =>
    obtain ⟨rounds, rfl⟩ : ∃ left, rounds = left + 1 := ⟨rounds - 1, by omega⟩
    cases hcommand : command? ok c with
    | some command =>
      rw [obey_command hcommand]
      exact console_command hfuel hcommand hreset hn rounds out
    | none =>
      rw [obey_plain hcommand]
      exact ⟨_, console_last hfuel hcommand st hn rounds out, Obeyed.waiting _ _ _⟩
  | cons press presses ih =>
    obtain ⟨d, m⟩ := press
    obtain ⟨rounds, rfl⟩ : ∃ left, rounds = left + 1 := ⟨rounds - 1, by omega⟩
    cases hcommand : command? ok c with
    | some command =>
      rw [obey_command hcommand]
      exact console_command hfuel hcommand hreset hn rounds out
    | none =>
      obtain ⟨hseven, hrest⟩ := List.forall_mem_cons.1 hlong
      obtain ⟨k, rfl⟩ : ∃ k, m = k + 1 := ⟨m - 1, by dsimp only at hseven; omega⟩
      obtain ⟨hne, hchain⟩ := List.isChain_cons_cons.1 hchange
      -- the wait has used up one of the seven reads
      obtain ⟨stop, hstop, hobeyed⟩ := ih (by dsimp only at hseven; omega : 6 ≤ k) hrest hchain
        (Nat.lt_of_succ_lt_succ hrounds) (out ++ sent st.putchars (delivered [c]))
      have htext := delivered_append [c] (obey ok (d :: presses.map Prod.fst)).1
      rw [List.singleton_append] at htext
      rw [List.map_cons, obey_plain hcommand]
      dsimp only
      rw [htext]
      exact ⟨stop, (console_next hfuel hcommand st hn hne rounds out).trans hstop, hobeyed.after⟩

end Keys

end RiscyOs
