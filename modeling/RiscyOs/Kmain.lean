import RiscyOs.Console

/-!
# The whole of `kmain`

The setup, the constructors, the console, and the destructors when the console is left.

* `kmain_safe`: whatever the reads give, the kernel stops with no fault, no assertion fails, and a
  reset writes what the tree asks for and nothing else.
* `kmain_keys`: a UART that holds its bytes is read byte by byte, and the first command is obeyed.
-/

namespace RiscyOs

open ByteMemory FuelLoop

def kmain (arch : Arch) (fuel kernelEnd uart fdt : Nat) (s : Machine) (reads : List UInt8) :
    Result KmainEnd := do
  match ← kmainSetup arch fuel kernelEnd uart fdt s with
  | .panic out => return .panic out
  | .up rebootOk shutdownOk st =>
    let st ← processFuncArray preinitArray st
    let st ← processFuncArray (initArray fuel) st
    match ← console fuel rebootOk shutdownOk st reads with
    | .returned out =>
      let st ← processFuncArray (finiArray fuel) { st with out := out }
      return .returned st.out
    | stop => return stop

variable {b : Blob} {kind : SysconKind} {fuel : Nat} {st : KernelState}
variable {arch : Arch} {kernelEnd uart fdt : Nat} {s : Machine} {reads : List UInt8} {done : Booted}

/-! ## The flags -/

/-- The flag of an action. -/
def Booted.ok (done : Booted) : SysconKind → Bool
  | .shutdown => done.shutdownOk
  | .reboot => done.rebootOk

/-- **A flag is set only when the tree asks for the action, and then the action is there.** -/
theorem Blob.SoundSyscon.asks_of_flag (h : b.SoundSyscon)
    (hdone : b.boot kernelEnd = .ok done) (hok : done.ok kind = true) :
    ∃ w, b.Asks kind w ∧ done.syscon.action kind = w.action := by
  obtain ⟨-, rebootErr, syscon, shutdownErr, hreboot, hshutdown, hrebootOk, hshutdownOk⟩ :=
    Blob.boot_ok hdone
  obtain ⟨x, hrebootInit, hx⟩ := bind_eq_ok.1 hreboot
  obtain ⟨y, hshutdownInit, hy⟩ := bind_eq_ok.1 hshutdown
  obtain ⟨rfl, rfl⟩ := Prod.mk.inj (Except.ok.inj hx)
  obtain ⟨rfl, hsyscon⟩ := Prod.mk.inj (Except.ok.inj hy)
  rw [← hsyscon]
  cases kind with
  | shutdown =>
    have hsuccess : y.1 = .success := hshutdownOk.1 hok
    rw [SysconState.action_setAction, if_pos rfl]
    refine h.asks_of_init (hshutdownInit.trans ?_)
    rw [← hsuccess]
  | reboot =>
    have hsuccess : x.1 = .success := hrebootOk.1 hok
    rw [SysconState.action_setAction, if_neg (by decide), SysconState.action_setAction, if_pos rfl]
    refine h.asks_of_init (hrebootInit.trans ?_)
    rw [← hsuccess]

/-! ## From the setup to the console -/

/-- The state after the constructors. -/
def KernelState.constructed (st : KernelState) : KernelState :=
  st.printing (ascii "Hello from a global constructor!\n")

theorem KmainEnd.command_destructed (t : PutcharArray) (stop : KmainEnd) :
    (stop.destructed t).command = stop.command := by
  cases stop <;> rfl

theorem kmain_of_console (hfuel : 64 < fuel) {rebootOk shutdownOk : Bool} {stop : KmainEnd}
    (hsetup : kmainSetup arch fuel kernelEnd uart fdt s = .ok (.up rebootOk shutdownOk st))
    (hstop : console fuel rebootOk shutdownOk st.constructed reads = .ok stop) :
    kmain arch fuel kernelEnd uart fdt s reads = .ok (stop.destructed st.putchars) := by
  have hinit : processFuncArray (initArray fuel) st = .ok st.constructed := by
    rw [initArray, processFuncArray, foo_eq hfuel, ok_bind]
    rfl
  have hpreinit : processFuncArray preinitArray st = .ok st := rfl
  rw [kmain, hsetup, ok_bind]
  dsimp only
  rw [hpreinit, ok_bind, hinit, ok_bind, hstop, ok_bind]
  cases stop with
  | returned out =>
    dsimp only
    rw [finiArray, processFuncArray, bar_eq hfuel, ok_bind]
    rfl
  | panic out => rfl
  | reset kind m out => rfl
  | waiting out => rfl

/-- The setup of a tree that boots. -/
theorem Blob.Bootable.setup (h : b.Bootable kernelEnd s) (hfuel : b.totalsize + 128 < fuel)
    (arch : Arch) (huart : uart ≠ NULL) (hdone : b.boot kernelEnd = .ok done) :
    ∃ st, kmainSetup arch fuel kernelEnd uart b.fdt s =
        .ok (.up done.rebootOk done.shutdownOk st) ∧
      st.syscon = done.syscon ∧
      ∀ text, receivedBy uart (st.out ++ sent st.putchars text) =
        arch.text ++ (done.text ++ text) := by
  obtain ⟨t, out, hout, hboot⟩ := kmainSetup_bootsAs h hfuel arch huart
  rw [hdone] at hboot
  obtain ⟨s', hsetup, -⟩ := hboot
  refine ⟨_, hsetup, rfl, fun text => ?_⟩
  dsimp only
  rw [List.append_assoc, ← sent_append, hout]

/-- The console can reset the machine when a flag says so. -/
theorem Blob.SoundSyscon.performs (h : b.SoundSyscon) (hdone : b.boot kernelEnd = .ok done)
    (hst : st.syscon = done.syscon) (hok : done.ok kind = true) :
    ∃ m, sysconPerform st.syscon kind st.machine.mem = .ok m ∧
      ∃ w, b.Asks kind w ∧ w.Acts st.machine.mem m := by
  obtain ⟨w, hasks, haction⟩ := h.asks_of_flag hdone hok
  obtain ⟨m, hm, hacts⟩ := h.acts hasks st.machine.mem
  refine ⟨m, ?_, w, hasks, hacts⟩
  rw [sysconPerform_eq, hst, haction, hm]

/-- A reset has done the write the tree asks for, from the memory `m₀`. -/
def KmainEnd.AsAsked (b : Blob) (m₀ : Mem) (stop : KmainEnd) : Prop :=
  ∀ kind m out, stop = .reset kind m out → ∃ w, b.Asks kind w ∧ w.Acts m₀ m

theorem KmainEnd.AsAsked.destructed {m₀ : Mem} {stop : KmainEnd} (h : stop.AsAsked b m₀)
    (t : PutcharArray) : (stop.destructed t).AsAsked b m₀ := by
  intro kind m out hreset
  cases stop with
  | reset kind' m' out' => exact h kind m out hreset
  | returned out' => cases hreset
  | panic out' => cases hreset
  | waiting out' => cases hreset

/-- The console ends or waits, whatever the UART gives, and a reset is as asked. -/
theorem Blob.SoundSyscon.console_ends (hsound : b.SoundSyscon) (hroom : 64 < fuel)
    (hdone : b.boot kernelEnd = .ok done) (hst : st.syscon = done.syscon)
    (hreads : reads.length < fuel) :
    ∃ stop, console fuel done.rebootOk done.shutdownOk st.constructed reads = .ok stop ∧
      stop.AsAsked b st.machine.mem := by
  have hperform : ∀ kind, done.ok kind = true → ∃ m,
      sysconPerform st.syscon kind st.machine.mem = .ok m ∧
        ∀ out, (KmainEnd.reset kind m out).AsAsked b st.machine.mem := by
    intro kind hok
    obtain ⟨m, hm, hw⟩ := hsound.performs hdone hst hok
    refine ⟨m, hm, ?_⟩
    rintro out kind' m' out' ⟨⟩
    exact hw
  have hplain : ∀ out, (KmainEnd.waiting out).AsAsked b st.machine.mem ∧
      (KmainEnd.returned out).AsAsked b st.machine.mem ∧
      (KmainEnd.panic out).AsAsked b st.machine.mem := by
    refine fun out => ⟨?_, ?_, ?_⟩ <;> rintro _ _ _ ⟨⟩
  have hpass : ∀ state : List UInt8 × Calls, Passes (·.AsAsked b st.machine.mem)
      state.1.length (consolePass fuel done.rebootOk done.shutdownOk st.constructed state) :=
    fun state => consolePass_passes hroom hplain (hperform .reboot) (hperform .shutdown)
  exact loop_variant (fun _ => True) (fun state : List UInt8 × Calls => state.1.length)
    (fun state _ => (hpass state).imp_right fun ⟨left, heq, hless⟩ => ⟨left, heq, trivial, hless⟩)
    trivial hreads

/-- **Whatever the UART gives, the kernel is safe** when the blob can be booted and its syscon nodes
are sound: it stops with no fault, so that no assertion fails, and when it resets the machine it has
written the word the tree asks for. -/
theorem kmain_safe (h : b.Bootable kernelEnd s) (hsound : b.SoundSyscon)
    (hfuel : b.totalsize + 128 < fuel) (arch : Arch) (huart : uart ≠ NULL)
    (hdone : b.boot kernelEnd = .ok done) (hreads : reads.length < fuel) :
    ∃ st stop, kmainSetup arch fuel kernelEnd uart b.fdt s =
        .ok (.up done.rebootOk done.shutdownOk st) ∧
      kmain arch fuel kernelEnd uart b.fdt s reads = .ok stop ∧
      stop.AsAsked b st.machine.mem := by
  have hroom : 64 < fuel := by omega
  obtain ⟨st, hsetup, hst, -⟩ := h.setup hfuel arch huart hdone
  obtain ⟨stop, hstop, hasked⟩ := hsound.console_ends hroom hdone hst hreads
  exact ⟨st, _, hsetup, kmain_of_console hroom hsetup hstop, hasked.destructed st.putchars⟩

/-- **A UART that holds its bytes is read byte by byte**: the bytes up to the first command are
printed, each once, and the kernel ends as that command says. A byte `0` is read but prints
nothing. -/
theorem kmain_keys (h : b.Bootable kernelEnd s) (hsound : b.SoundSyscon)
    (hfuel : b.totalsize + 128 < fuel) (arch : Arch) (huart : uart ≠ NULL)
    (hdone : b.boot kernelEnd = .ok done) {presses : List (UInt8 × Nat)}
    (hlegible : Legible presses) (hreads : presses.length < fuel) :
    ∃ stop, kmain arch fuel kernelEnd uart b.fdt s (held presses) = .ok stop ∧
      stop.command = (obey done.ok (presses.map Prod.fst)).2 ∧
      receivedBy uart stop.out = arch.text ++ (done.text ++
        (ascii "Hello from a global constructor!\n" ++
          (delivered (obey done.ok (presses.map Prod.fst)).1 ++
            Command.text (obey done.ok (presses.map Prod.fst)).2))) := by
  have hroom : 64 < fuel := by omega
  obtain ⟨st, hsetup, hst, htext⟩ := h.setup hfuel arch huart hdone
  have hconsole : ∃ stop, console fuel done.rebootOk done.shutdownOk st.constructed
        (held presses) = .ok stop ∧
      Obeyed st.putchars st.constructed.out (delivered (obey done.ok (presses.map Prod.fst)).1)
        (obey done.ok (presses.map Prod.fst)).2 stop := by
    cases presses with
    | nil =>
      obtain ⟨k, rfl⟩ : ∃ k, fuel = k + 1 := ⟨fuel - 1, by omega⟩
      have hwait := Obeyed.waiting st.putchars st.constructed.out []
      rw [sent_nil, List.append_nil] at hwait
      exact ⟨_, loop_leave rfl, hwait⟩
    | cons press presses =>
      have hreset : ∀ kind, done.ok kind = true →
          ∃ m, sysconPerform st.syscon kind st.machine.mem = .ok m :=
        fun kind hok => (hsound.performs hdone hst hok).imp fun m hm => hm.1
      have hseven := hlegible.long press List.mem_cons_self
      have hlong : ∀ press' ∈ presses, 7 ≤ press'.2 :=
        fun press' hmem => hlegible.long press' (List.mem_cons_of_mem press hmem)
      exact console_keys hroom st.constructed hreset (by omega) hlong hlegible.change
        (Nat.lt_of_succ_lt hreads) _
  obtain ⟨stop, hstop, hobeyed⟩ := hconsole
  refine ⟨_, kmain_of_console hroom hsetup hstop, ?_, ?_⟩
  · rw [KmainEnd.command_destructed, hobeyed.obeys]
  · rw [hobeyed.prints, KernelState.constructed, KernelState.printing]
    dsimp only
    rw [List.append_assoc, ← sent_append, htext]

/-! ## A board that can be shut down -/

def poweroffMachine : Machine := ⟨zeroCall.mem, NULL⟩

theorem poweroff_bootable : zeroCall.tree.Bootable 0x80000000 poweroffMachine where
  holds := zeroCall.holds
  valid := by decide
  empty := rfl
  noWrap := ⟨by decide, by decide⟩
  lists := zeroCall_lists
  apart := by
    have hnil : zeroCall.tree.handedPieces 0x80000000 = [] := by decide
    intro freed r hfree
    rw [hnil] at hfree
    cases hfree

/-- The nodes of the board, for shutting down. There are none for rebooting. -/
theorem poweroff_refers {kind : SysconKind} {node syscon : Node} {anc : List Node}
    (h : zeroCall.tree.Refers kind node syscon anc) :
    node = poweroffNode 0 ∧ syscon = poweroffTest ∧ anc = [poweroffRoot] := by
  obtain ⟨hnode, phandle, hregmap, hfound⟩ := h
  have hpoweroff : (zeroCall.tree.nodes.find? fun n => n.compatibleWith kind.string).all
      (· = poweroffNode 0) = true := by cases kind <;> decide
  rw [hnode] at hpoweroff
  obtain rfl := of_decide_eq_true hpoweroff
  have hone : (poweroffNode 0).oneCell (ascii "regmap") = some 1 := by decide
  obtain rfl := Option.some.inj (hone.symm.trans hregmap)
  have htest : zeroCall.tree.findPhandle 1 = some (poweroffTest, [poweroffRoot]) := by decide
  obtain ⟨rfl, rfl⟩ := Prod.mk.inj (Option.some.inj (htest.symm.trans hfound))
  exact ⟨rfl, rfl, rfl⟩

theorem poweroff_sound : zeroCall.tree.SoundSyscon where
  cells := zeroCall_cells
  counts := by
    intro kind node syscon anc hrefers
    obtain ⟨-, rfl, rfl⟩ := poweroff_refers hrefers
    decide
  offsets := by
    have hall : ∀ n ∈ zeroCall.tree.nodes,
        (n.oneCell (ascii "offset")).all (fun offset => offset + 4 < 2 ^ 32) = true := by decide
    intro n hn offset hoff
    have hoff' := hall n hn
    rw [hoff] at hoff'
    exact of_decide_eq_true hoff'
  words := by
    rintro kind w ⟨node, syscon, anc, hrefers, hdescribed⟩
    obtain ⟨rfl, rfl, rfl⟩ := poweroff_refers hrefers
    have hregs : (registerBlocks poweroffTest [poweroffRoot]).head? = some (0x100000, 0x1000) := by
      decide
    rw [← Option.some.inj (hregs.symm.trans hdescribed.block)]
    exact ⟨by omega, by decide⟩

theorem poweroff_boot : ∃ done, zeroCall.tree.boot 0x80000000 = .ok done ∧
    done.rebootOk = false ∧ done.shutdownOk = true := by
  have hflags : (zeroCall.tree.boot 0x80000000).map
      (fun done => (done.rebootOk, done.shutdownOk)) = .ok (false, true) := by decide +kernel
  cases hboot : zeroCall.tree.boot 0x80000000 with
  | error e =>
    rw [hboot] at hflags
    cases hflags
  | ok done =>
    rw [hboot] at hflags
    obtain ⟨hreboot, hshutdown⟩ := Prod.mk.inj (Except.ok.inj hflags)
    exact ⟨done, rfl, hreboot, hshutdown⟩

theorem poweroff_fuel : zeroCall.tree.totalsize + 128 < 1000 := by decide +kernel

/-- The UART changes from `a` to `&` while it is looked at. -/
theorem kmain_safe_poweroff :
    ∃ done, zeroCall.tree.boot 0x80000000 = .ok done ∧
      ∃ st stop, kmainSetup .arm64 1000 0x80000000 0x9000000 zeroCall.tree.fdt poweroffMachine =
          .ok (.up done.rebootOk done.shutdownOk st) ∧
        kmain .arm64 1000 0x80000000 0x9000000 zeroCall.tree.fdt poweroffMachine
            (chr 'a' :: List.replicate 3 (chr '&')) = .ok stop ∧
        stop.AsAsked zeroCall.tree st.machine.mem := by
  obtain ⟨done, hdone, -⟩ := poweroff_boot
  exact ⟨done, hdone, kmain_safe poweroff_bootable poweroff_sound poweroff_fuel .arm64 (by decide)
    hdone (by decide)⟩

/-- An `a` and a `&`: the machine is shut down. -/
theorem kmain_keys_poweroff :
    ∃ done stop, zeroCall.tree.boot 0x80000000 = .ok done ∧
      kmain .arm64 1000 0x80000000 0x9000000 zeroCall.tree.fdt poweroffMachine
          (held [(chr 'a', 7), (chr '&', 9)]) = .ok stop ∧
      stop.command = some (.reset .shutdown) ∧
      receivedBy 0x9000000 stop.out = Arch.arm64.text ++ (done.text ++
        (ascii "Hello from a global constructor!\n" ++ (ascii "a&" ++ []))) := by
  obtain ⟨done, hdone, hreboot, hshutdown⟩ := poweroff_boot
  have hlegible : Legible [(chr 'a', 7), (chr '&', 9)] := ⟨by decide, by decide⟩
  have hobey : obey done.ok [chr 'a', chr '&'] = (ascii "a&", some (.reset .shutdown)) := by
    have hplain : command? done.ok (chr 'a') = none := by
      simp [command?, Booted.ok, hreboot, hshutdown, chr]
    have hreset : command? done.ok (chr '&') = some (.reset .shutdown) := by
      simp [command?, Booted.ok, hreboot, hshutdown, chr]
    simp only [obey, hplain, hreset]
    decide
  obtain ⟨stop, hrun, hcommand, htext⟩ := kmain_keys poweroff_bootable poweroff_sound poweroff_fuel
    .arm64 (by decide : 0x9000000 ≠ NULL) hdone hlegible (by decide)
  have hkeys : [(chr 'a', 7), (chr '&', 9)].map Prod.fst = [chr 'a', chr '&'] := rfl
  rw [hkeys, hobey] at hcommand htext
  exact ⟨done, stop, hdone, hrun, hcommand, htext⟩

end RiscyOs
