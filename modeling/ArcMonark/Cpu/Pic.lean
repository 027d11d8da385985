import ArcMonark.Cpu.Idt
import ArcMonark.Library.I8259

/-! The interrupt controllers (`cpu/pic.c`) and the interrupts they deliver.

During the boot, with interrupts off, the kernel fills the interrupt table, sets up both
controllers, whatever the firmware left in them, and unmasks its lines. After that the
devices raise their lines whenever they like, the processor accepts an interrupt wherever
the flag is set, and each handler ends its interrupt before the flag can be set again:
`irq0_timer` before it calls the scheduler, which may leave it for another task. Whenever
the flag is set no interrupt is in service, so none keeps another from being delivered, and
each goes to its own handler (`interrupts_delivered`).

A request stays until it is acknowledged. -/
namespace ArcMonark.Cpu
open Library I8259

def pic1Command : Nat := 0x20
def pic1Data : Nat := 0x21
def pic2Command : Nat := 0xA0
def pic2Data : Nat := 0xA1
def pic1Offset : Nat := 0x20
def pic2Offset : Nat := 0x28
def picEoi : Nat := 0x20

/-- `outb(port, v)`, and `outb(port, inb(port) | bits)` and `outb(port, inb(port) & ~bits)`.
Nothing but the processor changes a mask, so reading and writing one is a single step. -/
inductive PicOp where
  | out (port v : Nat)
  | set (port bits : Nat)
  | clear (port bits : Nat)
  deriving DecidableEq

def PicOp.run (p : Pair) : PicOp → Pair
  | .out port v => p.out port v
  | .set port bits => p.out port (p.inp port ||| bits)
  | .clear port bits => p.out port (p.inp port &&& (0xFF ^^^ bits))

/-- `io_wait()`, a write to a port of no device. -/
def ioWait : PicOp := .out 0x80 0

def picRemap : List PicOp := [
  .out pic1Command (0x10 ||| 0x01), ioWait,
  .out pic2Command (0x10 ||| 0x01), ioWait,
  .out pic1Data pic1Offset, ioWait,
  .out pic2Data pic2Offset, ioWait,
  .out pic1Data 0x04, ioWait,
  .out pic2Data 0x02, ioWait,
  .out pic1Data 0x01, ioWait,
  .out pic2Data 0x01, ioWait,
  .out pic1Data 0xFF,
  .out pic2Data 0xFF]

def picSendEoi (irq : Nat) : List PicOp :=
  (if irq ≥ 8 then [.out pic2Command picEoi] else []) ++ [.out pic1Command picEoi]

def irqSetMask (irq : Nat) : PicOp :=
  .set (if irq < 8 then pic1Data else pic2Data) (1 <<< (if irq ≥ 8 then irq - 8 else irq))

def irqClearMask (irq : Nat) : PicOp :=
  .clear (if irq < 8 then pic1Data else pic2Data) (1 <<< (if irq ≥ 8 then irq - 8 else irq))

/-- What `kmain` does to the controllers before its `sti`, with `keyboard_init` and `mouse_init`. -/
def bootOps : List PicOp :=
  picRemap ++ [irqClearMask 0] ++ [irqClearMask 1] ++ [irqClearMask 2, irqClearMask 12]

/-- The writes with which a handler ends its interrupt. -/
def endOf : Handler → List PicOp
  | .irq0Timer => picSendEoi 0
  | .keyboardHandler => [.out 0x20 0x20]
  | .mouseIrq => picSendEoi 12
  -- these never return
  | .exc _ | .pageFault => []

/-! ### The machine -/

/-- What the kernel is at, as far as interrupts go. -/
inductive Doing where
  /-- The writes of the boot that are left, with interrupts off. -/
  | booting (ops : List PicOp)
  /-- Any task, or a handler past the end of its interrupt. -/
  | running
  /-- A handler, with the writes that end its interrupt still to come. -/
  | handling (h : Handler) (ops : List PicOp)

structure Delivery where
  pair : Pair
  idt : Idt
  flag : Bool
  doing : Doing

inductive DeliveryEvent where
  | raise (irq : Nat)
  | write
  | accept (vec : Nat)
  | flag (b : Bool)
  deriving DecidableEq

section Machine
variable (c : Image)

inductive DeliveryStep : Delivery → DeliveryEvent → Delivery → Prop where
  /-- Line 2 connects the controllers and is no device's. -/
  | raise {s irq} : irq < 16 → irq ≠ 2 → DeliveryStep s (.raise irq) {s with pair := s.pair.raise irq}
  | boot {s op ops} : s.doing = .booting (op :: ops) →
      DeliveryStep s .write {s with pair := op.run s.pair, doing := .booting ops}
  /-- `sti` -/
  | start {s} : s.doing = .booting [] → DeliveryStep s (.flag true) {s with flag := true, doing := .running}
  | accept {s vec pair gate h} : s.flag = true → s.pair.acknowledge = some (vec, pair) →
      (s.idt vec).gate = some gate → gate.target = c.addr h →
      DeliveryStep s (.accept vec)
        {s with pair := pair, flag := !gate.masks, doing := .handling h (endOf h)}
  | write {s h op ops} : s.doing = .handling h (op :: ops) →
      DeliveryStep s .write {s with pair := op.run s.pair, doing := .handling h ops}
  /-- The last write is behind it: the rest of the handler, and whatever it switches to. -/
  | done {s h} : s.doing = .handling h [] → endOf h ≠ [] →
      DeliveryStep s .write {s with doing := .running}
  /-- `cli`, `sti`, `popf` and `iretq` of the tasks. -/
  | flag {s b} : s.doing = .running → DeliveryStep s (.flag b) {s with flag := b}

/-- The boot with its gates set, from any state of the controllers. -/
def delivery : System Delivery DeliveryEvent where
  init := fun s => s.idt = setGates c Idt.zeroed bootGates ∧ s.flag = false ∧ s.doing = .booting bootOps
  step := DeliveryStep c

end Machine

/-! ### The boot -/

theorem PicOp.settings_run (op : PicOp) (p : Pair) : (op.run p).settings = (op.run p.settings).settings := by
  cases op <;> exact Pair.settings_out p _ _

/-- What the boot has done so far, had no device raised its line. -/
def Booting (ops : List PicOp) (p : Pair) : Prop :=
  ∃ p₀ before, before ++ ops = bootOps ∧ p.settings = (before.foldl PicOp.run p₀).settings

theorem Booting.step {op : PicOp} {ops : List PicOp} {p : Pair} (h : Booting (op :: ops) p) :
    Booting ops (op.run p) := by
  obtain ⟨p₀, before, hops, hp⟩ := h
  refine ⟨p₀, before ++ [op], by rw [← hops, List.append_assoc]; rfl, ?_⟩
  rw [List.foldl_append, List.foldl_cons, List.foldl_nil, op.settings_run, hp, ← op.settings_run]

theorem Booting.raise {irq : Nat} {ops : List PicOp} {p : Pair} (h : Booting ops p) (hirq : irq ≠ 2) :
    Booting ops (p.raise irq) := by
  obtain ⟨p₀, before, hops, hp⟩ := h
  exact ⟨p₀, before, hops, by rw [p.settings_raise hirq, hp]⟩

/-- The lines that the kernel unmasks: the timer, the keyboard and the mouse. -/
def kernelLines : List Nat := [0, 1, 12]

/-- Both controllers set up, and the kernel's lines and the cascade unmasked. -/
structure Booted (p : Pair) : Prop where
  configured : p.Configured pic1Offset pic2Offset
  masked : ∀ n, n < 16 → (p.masked n = false ↔ n = 2 ∨ n ∈ kernelLines)

theorem picRemap_run (p : Pair) :
    picRemap.foldl PicOp.run p = ⟨.setUp pic1Offset 0x04 0xFF, .setUp pic2Offset 0x02 0xFF⟩ := by
  rw [← p.master.initialized, ← p.slave.initialized]
  rfl

/-- Whatever the controllers were at before, they end the boot as the kernel wants them. -/
theorem bootOps_run (p : Pair) :
    bootOps.foldl PicOp.run p = ⟨.setUp pic1Offset 0x04 0xF8, .setUp pic2Offset 0x02 0xEF⟩ := by
  rw [bootOps, List.foldl_append, List.foldl_append, List.foldl_append, picRemap_run]
  rfl

theorem Booting.booted {p : Pair} (h : Booting [] p) : Booted p ∧ p.Serves none := by
  obtain ⟨p₀, before, hops, hp⟩ := h
  rw [List.append_nil] at hops
  rw [hops, bootOps_run] at hp
  obtain ⟨⟨irr, isr, imr, icw1, icw2, icw3, icw4, phase⟩, ⟨irr', isr', imr', icw1', icw2', icw3', icw4', phase'⟩⟩ := p
  simp only [Pair.settings, Chip.setUp, Pair.mk.injEq, Chip.mk.injEq, true_and] at hp
  obtain ⟨⟨hirr, rfl, rfl, rfl, rfl, rfl, rfl, rfl⟩, rfl, rfl, rfl, rfl, rfl, rfl, rfl⟩ := hp
  refine ⟨⟨⟨rfl, rfl, show pic1Offset / 8 * 8 = pic1Offset by decide, show pic2Offset / 8 * 8 = pic2Offset by decide,
    rfl, rfl, rfl, rfl, congrFun hirr 0⟩, ?_⟩, ?_, ?_⟩
  · show ∀ n, n < 16 → ((if n < 8 then Nat.testBit 0xF8 n else Nat.testBit 0xEF (n - 8) || Nat.testBit 0xF8 2) =
      false ↔ n = 2 ∨ n ∈ kernelLines)
    decide
  · intro i
    simp
  · intro i
    simp

/-! ### Delivery -/

/-- The handlers of the kernel's lines. -/
def lineHandler : Nat → Option Handler
  | 0 => some .irq0Timer
  | 1 => some .keyboardHandler
  | 12 => some .mouseIrq
  | _ => none

/-- What is left of the end of an interrupt, and what is still in service. -/
inductive Ending (p : Pair) : List PicOp → Prop where
  | none : p.Serves none → Ending p []
  | master {n} : n < 8 → p.Serves (some n) → Ending p [.out pic1Command picEoi]
  | slave {n} : 8 ≤ n → n < 16 → p.Serves (some n) →
      Ending p [.out pic2Command picEoi, .out pic1Command picEoi]

theorem ending_picSendEoi {p : Pair} {irq : Nat} (hirq : irq < 16) (hs : p.Serves (some irq)) :
    Ending p (picSendEoi irq) := by
  by_cases hlt : irq < 8
  · rw [picSendEoi, if_neg (by omega)]
    exact .master hlt hs
  · rw [picSendEoi, if_pos (by omega)]
    exact .slave (by omega) hirq hs

theorem Ending.write {p : Pair} {op : PicOp} {ops : List PicOp} (h : Ending p (op :: ops)) :
    Ending (op.run p) ops ∧ Pair.Kept pic1Offset pic2Offset p (op.run p) := by
  cases h with
  | master hn hs => exact ⟨.none (hs.end_master hn), Pair.kept_eoi_master _ _ p⟩
  | slave hle hlt hs => exact ⟨.master (by omega) (hs.end_slave hle hlt), Pair.kept_eoi_slave _ _ p⟩

theorem Ending.raise {p : Pair} {ops : List PicOp} (h : Ending p ops) (irq : Nat) : Ending (p.raise irq) ops := by
  cases h with
  | none hs => exact .none ((p.raise_serves irq _).mpr hs)
  | master hn hs => exact .master hn ((p.raise_serves irq _).mpr hs)
  | slave hle hlt hs => exact .slave hle hlt ((p.raise_serves irq _).mpr hs)

theorem Booted.kept {p p' : Pair} (h : Booted p) (hk : Pair.Kept pic1Offset pic2Offset p p') : Booted p' :=
  ⟨hk.configured h.configured, fun n hn => by rw [hk.masked]; exact h.masked n hn⟩

theorem Booted.raise {p : Pair} (h : Booted p) {irq : Nat} (hirq : irq ≠ 2) : Booted (p.raise irq) :=
  ⟨h.configured.raise hirq, fun n hn => by rw [p.raise_masked]; exact h.masked n hn⟩

section Invariant
variable {c : Image} {s s' : Delivery}

/-- Where the kernel is, and what the controllers are at. -/
def Consistent (s : Delivery) : Doing → Prop
  | .booting ops => s.flag = false ∧ Booting ops s.pair
  | .running => Booted s.pair ∧ s.pair.Serves none
  | .handling h ops => s.flag = false ∧ Booted s.pair ∧ Ending s.pair ops ∧
      ∃ irq ∈ kernelLines, lineHandler irq = some h

structure DeliveryOk (c : Image) (s : Delivery) : Prop where
  idt : s.idt = setGates c Idt.zeroed bootGates
  doing : Consistent s s.doing

/-- What is in service has no flag set. -/
theorem DeliveryOk.running (h : DeliveryOk c s) (hflag : s.flag = true) :
    s.doing = .running ∧ Booted s.pair ∧ s.pair.Serves none := by
  have hd := h.doing
  cases hs : s.doing with
  | running =>
    rw [hs] at hd
    exact ⟨rfl, hd⟩
  | booting ops =>
    rw [hs] at hd
    exact absurd hflag (by rw [hd.1]; decide)
  | handling hh ops =>
    rw [hs] at hd
    exact absurd hflag (by rw [hd.1]; decide)

/-- The kernel's lines have handlers, which end the interrupts of their own lines. -/
theorem lineHandler_ends : ∀ irq ∈ kernelLines, ∃ h, lineHandler irq = some h ∧
    handlerOf (0x20 + irq) = some h ∧ endOf h = picSendEoi irq := by
  intro irq hirq
  simp only [kernelLines, List.mem_cons, List.not_mem_nil, or_false] at hirq
  rcases hirq with rfl | rfl | rfl <;> exact ⟨_, rfl, rfl, rfl⟩

/-- What is acknowledged is the first of the kernel's waiting lines, and its gate leads to its handler. -/
theorem Booted.acknowledge {p : Pair} (h : Booted p) (hs : p.Serves none) :
    (p.acknowledge = none ∧ ∀ irq ∈ kernelLines, p.latched irq = false) ∨
    ∃ irq ∈ kernelLines, ∃ p', p.acknowledge = some (0x20 + irq, p') ∧ p.latched irq = true ∧
      (∀ k ∈ kernelLines, p.latched k = true → irq ≤ k) ∧
      p'.Serves (some irq) ∧ Booted p' ∧ p'.latched = Function.update p.latched irq false := by
  have hpending : ∀ k ∈ kernelLines, p.pending k = p.latched k := by
    intro k hk
    have hlt : ∀ k ∈ kernelLines, k < 16 := by decide
    rw [Pair.pending, (h.masked k (hlt k hk)).mpr (.inr hk), Bool.not_false, Bool.and_true]
  have hbound : ∀ k ∈ kernelLines, k < 16 := by decide
  rcases Pair.acknowledge_spec h.configured hs with ⟨hnone, hall⟩ |
    ⟨n, p', hn, hp, hmin, hack, hserves, hconf, hmask, hlatch⟩
  · exact .inl ⟨hnone, fun k hk => by rw [← hpending k hk]; exact hall k (hbound k hk)⟩
  · have hline : n ∈ kernelLines := by
      rw [Pair.pending, Bool.and_eq_true, Bool.not_eq_true'] at hp
      rcases (h.masked n hn).mp hp.2 with rfl | hmem
      · have hcascade : p.latched 2 = false := h.configured.cascade_line
        rw [hcascade] at hp
        cases hp.1
      · exact hmem
    refine .inr ⟨n, hline, p', ?_, by rw [← hpending n hline]; exact hp, ?_, hserves, ⟨hconf, ?_⟩, hlatch⟩
    · rw [hack]
      have hvec : ∀ k ∈ kernelLines, (if k < 8 then pic1Offset + k else pic2Offset + (k - 8)) = 0x20 + k := by decide
      rw [hvec n hline]
    · intro k hk hw
      have hrank : ∀ a ∈ kernelLines, ∀ b ∈ kernelLines, Pair.rank a ≤ Pair.rank b → a ≤ b := by decide
      exact hrank n hline k hk (hmin k (hbound k hk) (by rw [hpending k hk]; exact hw))
    · intro k hk
      rw [hmask]
      exact h.masked k hk

theorem delivery_step {i : DeliveryEvent} (h : DeliveryOk c s) (hs : DeliveryStep c s i s') : DeliveryOk c s' := by
  have hd := h.doing
  cases hs with
  | @raise irq hirq hne =>
    refine ⟨h.idt, ?_⟩
    show Consistent _ s.doing
    cases hdo : s.doing with
    | booting ops =>
      rw [hdo] at hd
      exact ⟨hd.1, hd.2.raise hne⟩
    | running =>
      rw [hdo] at hd
      exact ⟨hd.1.raise hne, (s.pair.raise_serves irq _).mpr hd.2⟩
    | handling hh ops =>
      rw [hdo] at hd
      obtain ⟨hflag, hbooted, hending, hline⟩ := hd
      exact ⟨hflag, hbooted.raise hne, hending.raise irq, hline⟩
  | boot hdo =>
    rw [hdo] at hd
    exact ⟨h.idt, hd.1, hd.2.step⟩
  | start hdo =>
    rw [hdo] at hd
    exact ⟨h.idt, hd.2.booted⟩
  | @accept vec pair gate hh hflag hack hgate htarget =>
    obtain ⟨_, hbooted, hserves⟩ := h.running hflag
    rcases hbooted.acknowledge hserves with ⟨hnone, _⟩ | ⟨irq, hirq, p', hack', _, _, hserves', hbooted', _⟩
    · rw [hnone] at hack
      cases hack
    · cases hack'.symm.trans hack
      obtain ⟨hh', hhandler, hvector, hends⟩ := lineHandler_ends irq hirq
      rw [h.idt, bootIdt_gate, hvector] at hgate
      cases hgate
      obtain rfl := c.addr_inj _ _ htarget
      have hbound : ∀ k ∈ kernelLines, k < 16 := by decide
      refine ⟨h.idt, rfl, hbooted', ?_, irq, hirq, hhandler⟩
      rw [hends]
      exact ending_picSendEoi (hbound irq hirq) hserves'
  | write hdo =>
    rw [hdo] at hd
    obtain ⟨hflag, hbooted, hending, hline⟩ := hd
    obtain ⟨hending', hkept⟩ := hending.write
    exact ⟨h.idt, hflag, hbooted.kept hkept, hending', hline⟩
  | done hdo _ =>
    rw [hdo] at hd
    obtain ⟨_, hbooted, hending, _⟩ := hd
    cases hending with
    | none hs => exact ⟨h.idt, hbooted, hs⟩
  | flag hdo =>
    rw [hdo] at hd
    refine ⟨h.idt, ?_⟩
    show Consistent _ s.doing
    rw [hdo]
    exact hd

/-- After the boot a line's request comes with its rising and goes with its interrupt. -/
theorem latched_step {i : DeliveryEvent} (h : DeliveryOk c s) (hb : ∀ ops, s.doing ≠ .booting ops)
    (hs : DeliveryStep c s i s') {irq : Nat} (hirq : irq ∈ kernelLines) :
    (∀ ops, s'.doing ≠ .booting ops) ∧
      (i = .raise irq ∧ s'.pair.latched irq = true ∨
        i = .accept (0x20 + irq) ∧ s.pair.latched irq = true ∧ s'.pair.latched irq = false ∨
        i ≠ .raise irq ∧ i ≠ .accept (0x20 + irq) ∧ s'.pair.latched irq = s.pair.latched irq) := by
  cases hs with
  | @raise k _ _ =>
    refine ⟨hb, ?_⟩
    dsimp only
    rw [Pair.raise_latched]
    by_cases hk : k = irq
    · subst hk
      exact .inl ⟨rfl, Function.update_self _ _ _⟩
    · exact .inr (.inr ⟨by simpa using hk, by simp, Function.update_of_ne (Ne.symm hk) _ _⟩)
  | boot hdo => exact absurd hdo (hb _)
  | start hdo => exact absurd hdo (hb _)
  | @accept vec pair gate hh hflag hack =>
    refine ⟨nofun, ?_⟩
    obtain ⟨_, hbooted, hserves⟩ := h.running hflag
    rcases hbooted.acknowledge hserves with ⟨hnone, _⟩ | ⟨k, _, p', hack', hlatched, _, _, _, hlatch⟩
    · rw [hnone] at hack
      cases hack
    · cases hack'.symm.trans hack
      dsimp only
      rw [hlatch]
      by_cases hk : k = irq
      · subst hk
        exact .inr (.inl ⟨rfl, hlatched, Function.update_self _ _ _⟩)
      · exact .inr (.inr ⟨by simp, by simpa using hk, Function.update_of_ne (Ne.symm hk) _ _⟩)
  | write hdo =>
    have hd := h.doing
    rw [hdo] at hd
    refine ⟨nofun, .inr (.inr ⟨by simp, by simp, ?_⟩)⟩
    dsimp only
    rw [hd.2.2.1.write.2.latched]
  | done => exact ⟨nofun, .inr (.inr ⟨by simp, by simp, rfl⟩)⟩
  | flag => exact ⟨hb, .inr (.inr ⟨by simp, by simp, rfl⟩)⟩

theorem delivery_reachable (h : (delivery c).Reachable s) : DeliveryOk c s := by
  refine System.invariant ?_ (fun _ _ _ => delivery_step) h
  rintro s ⟨hidt, hflag, hdo⟩
  refine ⟨hidt, ?_⟩
  rw [hdo]
  exact ⟨hflag, s.pair, [], rfl, rfl⟩

end Invariant

/-- **Interrupts are delivered.** In every reachable state with the flag set no interrupt is
in service; if one of the kernel's lines waits, the first of them is acknowledged, nothing
else ever is, and its vector's gate leads to the handler of that line, which ends that
line's interrupt. A handler past its writes leaves nothing in service. -/
theorem interrupts_delivered (c : Image) {s : Delivery} (h : (delivery c).Reachable s) :
    (s.flag = true →
      s.pair.Serves none ∧
      (∀ irq ∈ kernelLines, s.pair.latched irq = true → s.pair.acknowledge ≠ none) ∧
      ∀ vec p', s.pair.acknowledge = some (vec, p') →
        ∃ irq ∈ kernelLines, ∃ hh, lineHandler irq = some hh ∧ vec = 0x20 + irq ∧ s.pair.latched irq = true ∧
          (∀ k ∈ kernelLines, s.pair.latched k = true → irq ≤ k) ∧
          p'.latched = Function.update s.pair.latched irq false ∧
          (s.idt vec).gate = some ⟨c.addr hh, kernelCs, true⟩ ∧ endOf hh = picSendEoi irq) ∧
    ∀ hh, s.doing = .handling hh [] → s.pair.Serves none := by
  have hok := delivery_reachable h
  refine ⟨fun hflag => ?_, fun hh hdo => ?_⟩
  · obtain ⟨_, hbooted, hserves⟩ := hok.running hflag
    rcases hbooted.acknowledge hserves with ⟨hnone, hall⟩ | ⟨irq, hirq, p', hack, hlatched, hmin, _, _, hlatch⟩
    · refine ⟨hserves, fun irq hirq hl => ?_, fun vec p' hack => ?_⟩
      · rw [hall irq hirq] at hl
        cases hl
      · rw [hnone] at hack
        cases hack
    · refine ⟨hserves, fun _ _ _ => by rw [hack]; simp, fun vec p'' hack' => ?_⟩
      cases hack.symm.trans hack'
      obtain ⟨hh, hhandler, hvector, hends⟩ := lineHandler_ends irq hirq
      refine ⟨irq, hirq, hh, hhandler, rfl, hlatched, hmin, hlatch, ?_, hends⟩
      rw [hok.idt, bootIdt_gate, hvector]
      rfl
  · have hd := hok.doing
    rw [hdo] at hd
    obtain ⟨_, _, hending, _⟩ := hd
    cases hending with
    | none hs => exact hs

section Witness
variable {c : Image} {s : Delivery}

theorem boot_runs {idt : Idt} {p : Pair} {ops : List PicOp} (h : (delivery c).Reachable ⟨p, idt, false, .booting ops⟩) :
    (delivery c).Reachable ⟨ops.foldl PicOp.run p, idt, false, .booting []⟩ := by
  induction ops generalizing p with
  | nil => exact h
  | cons op ops ih => exact ih (.step h (DeliveryStep.boot rfl))

/-- The kernel just after its boot, whatever the firmware left. -/
def booted (c : Image) : Delivery where
  pair := ⟨.setUp pic1Offset 0x04 0xF8, .setUp pic2Offset 0x02 0xEF⟩
  idt := setGates c Idt.zeroed bootGates
  flag := true
  doing := .running

theorem booted_reachable (c : Image) : (delivery c).Reachable (booted c) := by
  have hstart : (delivery c).Reachable
      ⟨⟨.setUp 0 0 0, .setUp 0 0 0⟩, setGates c Idt.zeroed bootGates, false, .booting bootOps⟩ :=
    .start ⟨rfl, rfl, rfl⟩
  have hbooted := boot_runs hstart
  rw [bootOps_run] at hbooted
  exact .step hbooted (DeliveryStep.start rfl)

end Witness

/-- The mouse moved first, but the timer is served first. -/
theorem interrupts_delivered_mouse_timer :
    ∃ s, (delivery smallImage).Reachable s ∧ s.flag = true ∧ s.pair.latched 12 = true ∧
      ∃ p', s.pair.acknowledge = some (0x20, p') ∧ p'.latched 12 = true ∧
        (s.idt 0x20).gate = some ⟨0x2010, kernelCs, true⟩ := by
  have hraised := System.Reachable.step (.step (booted_reachable smallImage)
    (@DeliveryStep.raise _ _ 12 (by decide) (by decide))) (@DeliveryStep.raise _ _ 0 (by decide) (by decide))
  obtain ⟨hwaits, hfirst⟩ := ((interrupts_delivered smallImage hraised).1 rfl).2
  refine ⟨_, hraised, rfl, rfl, ?_⟩
  obtain ⟨⟨vec, p'⟩, hack⟩ := Option.ne_none_iff_exists'.mp (hwaits 0 (by decide) rfl)
  obtain ⟨irq, _, hh, hhandler, rfl, _, hmin, hlatch, hgate, _⟩ := hfirst vec p' hack
  obtain rfl : irq = 0 := Nat.le_zero.mp (hmin 0 (by decide) rfl)
  cases hhandler
  exact ⟨p', hack, by rw [hlatch]; rfl, hgate⟩

/-- Whether a line has risen since its interrupt was last accepted. -/
def risen (irq : Nat) (before : Bool) : DeliveryEvent → Bool
  | .raise k => before || k == irq
  | .accept vec => before && vec != 0x20 + irq
  | _ => before

/-- **Each request once.** In every run after the boot a line of the kernel waits exactly if
it has risen since its interrupt was last accepted, so no request is lost; and its interrupt
is accepted at most as often as the line has risen, so none is served twice. -/
theorem requests_accepted_once (c : Image) {s s' : Delivery} {is : List DeliveryEvent}
    (h : (delivery c).Reachable s) (hb : ∀ ops, s.doing ≠ .booting ops) (hrun : (delivery c).Run s is s')
    {irq : Nat} (hirq : irq ∈ kernelLines) :
    s'.pair.latched irq = is.foldl (risen irq) (s.pair.latched irq) ∧
      is.count (.accept (0x20 + irq)) + (s'.pair.latched irq).toNat ≤
        is.count (.raise irq) + (s.pair.latched irq).toNat := by
  suffices hall : (∀ ops, s'.doing ≠ .booting ops) ∧ DeliveryOk c s' ∧
      s'.pair.latched irq = is.foldl (risen irq) (s.pair.latched irq) ∧
      is.count (.accept (0x20 + irq)) + (s'.pair.latched irq).toNat ≤
        is.count (.raise irq) + (s.pair.latched irq).toNat from hall.2.2
  induction hrun with
  | nil => exact ⟨hb, delivery_reachable h, rfl, by simp⟩
  | @snoc is s₁ i s₂ _ hs ih =>
    obtain ⟨hb₁, hok, hrisen, hcount⟩ := ih
    obtain ⟨hb₂, hcases⟩ := latched_step hok hb₁ hs hirq
    refine ⟨hb₂, delivery_step hok hs, ?_⟩
    rw [List.foldl_append, List.foldl_cons, List.foldl_nil, ← hrisen, List.count_append, List.count_append]
    rcases hcases with ⟨rfl, hlatched⟩ | ⟨rfl, hbefore, hafter⟩ | ⟨hraise, haccept, hsame⟩
    · have hle := Bool.toNat_le (s₁.pair.latched irq)
      simp only [hlatched, risen, beq_self_eq_true, Bool.or_true, List.count_singleton, Bool.toNat_true,
        true_and, reduceCtorEq, beq_iff_eq, if_true, if_false]
      omega
    · rw [hbefore, Bool.toNat_true] at hcount
      simp only [hbefore, hafter, risen, List.count_singleton, Bool.toNat_false, bne_self_eq_false, Bool.and_false,
        true_and, reduceCtorEq, beq_iff_eq, if_true, if_false]
      omega
    · rw [hsame, List.count_singleton, List.count_singleton, if_neg (by simpa using haccept),
        if_neg (by simpa using hraise)]
      refine ⟨?_, hcount⟩
      cases i with
      | raise k =>
        have hk : k ≠ irq := by simpa using hraise
        rw [risen, beq_false_of_ne hk, Bool.or_false]
      | accept vec =>
        have hvec : vec ≠ 0x20 + irq := by simpa using haccept
        rw [risen, bne_iff_ne.mpr hvec, Bool.and_true]
      | write => rfl
      | flag b => rfl

/-- Two ticks before one acceptance leave one interrupt. -/
theorem requests_accepted_once_timer :
    ∃ s', (delivery smallImage).Run (booted smallImage) [.raise 0, .raise 0, .accept 0x20] s' ∧
      s'.pair.latched 0 = false := by
  have hrun := System.Run.snoc (.snoc (System.Run.nil (S := delivery smallImage) (s := booted smallImage))
    (@DeliveryStep.raise _ _ 0 (by decide) (by decide))) (@DeliveryStep.raise _ _ 0 (by decide) (by decide))
  obtain ⟨_, hbooted, hserves⟩ := (delivery_reachable ((booted_reachable _).run hrun)).running rfl
  rcases hbooted.acknowledge hserves with ⟨_, hall⟩ | ⟨irq, _, p', hack, _, hmin, _, _, _⟩
  · exact absurd (hall 0 (by decide)) (by decide)
  · obtain rfl : irq = 0 := Nat.le_zero.mp (hmin 0 (by decide) rfl)
    have haccepted := hrun.snoc
      (DeliveryStep.accept (h := .irq0Timer) rfl hack (bootIdt_gate smallImage 0x20) rfl)
    exact ⟨_, haccepted, (requests_accepted_once smallImage (booted_reachable _) nofun haccepted (by decide)).1⟩

end ArcMonark.Cpu
