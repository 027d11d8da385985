import ArcMonark.Library.Runs
import Mathlib.Logic.Function.Basic
import Mathlib.Data.Nat.Bitwise

/-! Two cascaded 8259 interrupt controllers, as a PC wires them.

A request is latched when its line rises and stays until it is acknowledged. A chip
passes on the first request that is not masked, unless a line at or before it is still in
service; an end-of-interrupt command takes the first line out of service. The second
chip's output is line 2 of the first. A controller that serves nothing and is configured
(`Pair.Configured`) acknowledges the first pending request there is
(`Pair.acknowledge_spec`), and the end-of-interrupt commands end just that one
(`Pair.Serves.end_slave`, `Pair.Serves.end_master`).

Level-triggered lines, rotating priorities and the special modes are left out. -/
namespace ArcMonark.Library.I8259

/-- What the data port takes next. -/
inductive Phase where
  | ready | icw2 | icw3 | icw4
  deriving DecidableEq

structure Chip where
  irr : Nat → Bool
  isr : Nat → Bool
  imr : Nat
  icw1 : Nat
  icw2 : Nat
  icw3 : Nat
  icw4 : Nat
  phase : Phase

/-- The first of eight lines with a property. -/
def first (f : Nat → Bool) : Option Nat := (List.range 8).find? f

namespace Chip

/-- A write to the command port: the first initialization word, or the end of an interrupt. -/
def command (c : Chip) (v : Nat) : Chip :=
  if v.testBit 4 then
    {c with irr := fun _ => false, isr := fun _ => false, imr := 0, icw1 := v, icw4 := 0, phase := .icw2}
  else if !v.testBit 3 && v.testBit 5 then
    match if v.testBit 6 then some (v % 8) else first c.isr with
    | some i => {c with isr := Function.update c.isr i false}
    | none => c
  else c

/-- A write to the data port: the next initialization word, or the mask. -/
def data (c : Chip) (v : Nat) : Chip :=
  let last : Phase := if c.icw1.testBit 0 then .icw4 else .ready
  match c.phase with
  | .icw2 => {c with icw2 := v, phase := if c.icw1.testBit 1 then last else .icw3}
  | .icw3 => {c with icw3 := v, phase := last}
  | .icw4 => {c with icw4 := v, phase := .ready}
  | .ready => {c with imr := v}

/-- The line that the chip asks the processor for. -/
def request (c : Chip) (lines : Nat → Bool) : Option Nat :=
  if c.phase = .ready then
    (first fun i => c.isr i || lines i && !c.imr.testBit i).filter fun i => !c.isr i
  else none

/-- The line's request is taken and, unless interrupts end by themselves, in service. -/
def take (c : Chip) (i : Nat) : Chip :=
  {c with irr := Function.update c.irr i false,
          isr := if c.icw4.testBit 1 then c.isr else Function.update c.isr i true}

def vector (c : Chip) (i : Nat) : Nat := c.icw2 / 8 * 8 + i

/-- What is in service: nothing, or one line. -/
def Serves (c : Chip) (s : Option Nat) : Prop := ∀ i, c.isr i = true ↔ s = some i

end Chip

/-! ### One chip -/

section Chips
variable {c : Chip} {i : Nat}

theorem first_eq_some {f : Nat → Bool} : first f = some i ↔ i < 8 ∧ f i = true ∧ ∀ j, j < i → f j = false := by
  rw [first, List.find?_range_eq_some, List.mem_range]
  simp only [Bool.not_eq_true']
  constructor
  · rintro ⟨hf, hi, hlt⟩
    exact ⟨hi, hf, hlt⟩
  · rintro ⟨hi, hf, hlt⟩
    exact ⟨hf, hi, hlt⟩

theorem first_eq_none {f : Nat → Bool} : first f = none ↔ ∀ j, j < 8 → f j = false := by
  rw [first, List.find?_range_eq_none]
  simp only [Bool.not_eq_true']

theorem Chip.Serves.isr (h : c.Serves none) (i : Nat) : c.isr i = false := by
  have := h i
  simpa using this

/-- A chip that serves nothing asks for its first unmasked request. -/
theorem Chip.Serves.request (h : c.Serves none) (hready : c.phase = .ready) (lines : Nat → Bool) :
    c.request lines = first fun i => lines i && !c.imr.testBit i := by
  rw [Chip.request, if_pos hready]
  simp only [h.isr, Bool.false_or, Bool.not_false]
  cases first fun i => lines i && !c.imr.testBit i <;> rfl

/-- A chip just set up, in the mode of a PC with vectors from `base` on. -/
def Chip.setUp (base cascade mask : Nat) : Chip where
  irr := fun _ => false
  isr := fun _ => false
  imr := mask
  icw1 := 0x11
  icw2 := base
  icw3 := cascade
  icw4 := 1
  phase := .ready

/-- The initialization words and a mask set up a chip, whatever it was at. -/
theorem Chip.initialized (c : Chip) (base cascade mask : Nat) :
    ((((c.command 0x11).data base).data cascade).data 0x01).data mask = setUp base cascade mask := by
  have hfirst : c.command 0x11 = ⟨fun _ => false, fun _ => false, 0, 0x11, c.icw2, c.icw3, 0, .icw2⟩ := rfl
  have hsingle : Nat.testBit 0x11 1 = false := by decide
  have hlast : Nat.testBit 0x11 0 = true := by decide
  simp only [hfirst, Chip.data, hsingle, hlast, Bool.false_eq_true, if_false, if_true, setUp]

/-- The end-of-interrupt command that names no line. -/
def eoi : Nat := 0x20

theorem Chip.Serves.eoi (h : c.Serves (some i)) (hi : i < 8) : (c.command eoi).Serves none := by
  have hfirst : first c.isr = some i := by
    refine first_eq_some.mpr ⟨hi, (h i).mpr rfl, fun j hj => ?_⟩
    have hne : ¬ (some i = some j) := fun heq => absurd (Option.some.inj heq) (by omega)
    simpa using mt (h j).mp hne
  have hcommand : c.command I8259.eoi = {c with isr := Function.update c.isr i false} := by
    rw [Chip.command, if_neg (by decide), if_pos (by decide), if_neg (by decide), hfirst]
  intro j
  rw [hcommand]
  simp only [Function.update_apply, reduceCtorEq, iff_false]
  split
  case isTrue => simp
  case isFalse hne =>
    intro hj
    exact hne (Option.some.inj ((h j).mp hj)).symm

/-- The end of an interrupt changes nothing but what is in service. -/
theorem Chip.command_eoi (c : Chip) : ∃ f, c.command I8259.eoi = {c with isr := f} := by
  rw [Chip.command, if_neg (by decide), if_pos (by decide), if_neg (by decide)]
  cases first c.isr with
  | none => exact ⟨c.isr, rfl⟩
  | some i => exact ⟨_, rfl⟩

theorem Chip.Serves.take (h : c.Serves none) (haeoi : c.icw4.testBit 1 = false) (i : Nat) :
    (c.take i).Serves (some i) := by
  intro j
  rw [Chip.take, haeoi]
  simp only [Bool.false_eq_true, if_false, Function.update_apply, h.isr, Option.some.injEq]
  split
  case isTrue heq => simp [heq]
  case isFalse hne => simp [Ne.symm hne]

end Chips

/-! ### Two chips -/

structure Pair where
  master : Chip
  slave : Chip

namespace Pair

/-- A line rises; the lines of the second chip are numbered from 8. -/
def raise (p : Pair) (n : Nat) : Pair :=
  if n < 8 then {p with master := {p.master with irr := Function.update p.master.irr n true}}
  else {p with slave := {p.slave with irr := Function.update p.slave.irr (n - 8) true}}

/-- Line 2 of the first chip is the second one's output. -/
def lines (p : Pair) (i : Nat) : Bool :=
  p.master.irr i || i == 2 && (p.slave.request p.slave.irr).isSome

/-- The processor acknowledges an interrupt: the vector it is given. -/
def acknowledge (p : Pair) : Option (Nat × Pair) :=
  (p.master.request p.lines).bind fun i =>
    let master := p.master.take i
    if p.master.icw3.testBit i then
      if p.slave.icw3 = i then
        (p.slave.request p.slave.irr).map fun j => (p.slave.vector j, ⟨master, p.slave.take j⟩)
      else none
    else some (p.master.vector i, ⟨master, p.slave⟩)

/-- `outb` -/
def out (p : Pair) (port v : Nat) : Pair :=
  if port = 0x20 then {p with master := p.master.command v}
  else if port = 0x21 then {p with master := p.master.data v}
  else if port = 0xA0 then {p with slave := p.slave.command v}
  else if port = 0xA1 then {p with slave := p.slave.data v}
  else p

/-- `inb` of a data port -/
def inp (p : Pair) (port : Nat) : Nat :=
  if port = 0x21 then p.master.imr else if port = 0xA1 then p.slave.imr else 0

def latched (p : Pair) (n : Nat) : Bool := if n < 8 then p.master.irr n else p.slave.irr (n - 8)

def masked (p : Pair) (n : Nat) : Bool :=
  if n < 8 then p.master.imr.testBit n else p.slave.imr.testBit (n - 8) || p.master.imr.testBit 2

/-- Waits, and is let through. -/
def pending (p : Pair) (n : Nat) : Bool := p.latched n && !p.masked n

/-- What is in service, on both chips. -/
def Serves (p : Pair) : Option Nat → Prop
  | none => p.master.Serves none ∧ p.slave.Serves none
  | some n =>
    if n < 8 then p.master.Serves (some n) ∧ p.slave.Serves none
    else p.master.Serves (some 2) ∧ p.slave.Serves (some (n - 8))

/-- Both are set up: vectors from `base` and `base'` on, the second chip on line 2. -/
structure Configured (base base' : Nat) (p : Pair) : Prop where
  master_ready : p.master.phase = .ready
  slave_ready : p.slave.phase = .ready
  master_base : p.master.icw2 / 8 * 8 = base
  slave_base : p.slave.icw2 / 8 * 8 = base'
  master_cascade : p.master.icw3 = 1 <<< 2
  slave_cascade : p.slave.icw3 = 2
  master_mode : p.master.icw4 = 1
  slave_mode : p.slave.icw4 = 1
  /-- Line 2 is no device's. -/
  cascade_line : p.master.irr 2 = false

/-- The order in which requests are served. -/
def rank (n : Nat) : Nat := if n < 3 then n else if n < 8 then n + 8 else n - 5

variable {p : Pair} {base base' n : Nat}

theorem latched_take_slave (h : Configured base base' p) (j : Nat) :
    latched ⟨p.master.take 2, p.slave.take j⟩ = Function.update p.latched (8 + j) false := by
  funext k
  by_cases hk : k < 8
  · have hne : k ≠ 8 + j := by omega
    simp only [latched, if_pos hk, Chip.take, Function.update_apply, if_neg hne]
    split
    case isTrue heq => rw [heq, h.cascade_line]
    case isFalse => rfl
  · have hiff : k - 8 = j ↔ k = 8 + j := by omega
    simp only [latched, if_neg hk, Chip.take, Function.update_apply, hiff]

theorem latched_take_master (p : Pair) {i : Nat} (hi : i < 8) :
    latched ⟨p.master.take i, p.slave⟩ = Function.update p.latched i false := by
  funext k
  by_cases hk : k < 8
  · simp only [latched, if_pos hk, Chip.take, Function.update_apply]
  · have hne : k ≠ i := by omega
    simp only [latched, if_neg hk, Function.update_apply, if_neg hne]

/-- The line of the first chip that a request comes in on. -/
def inlet (n : Nat) : Nat := if n < 8 then n else 2

section Acknowledge
variable (h : Configured base base' p) (hq : p.Serves none)
include h hq

theorem slave_request : p.slave.request p.slave.irr = first fun i => p.slave.irr i && !p.slave.imr.testBit i :=
  hq.2.request h.slave_ready _

/-- A pending request reaches the first chip. -/
theorem inlet_of_pending (hn : n < 16) (hp : p.pending n = true) :
    (p.lines (inlet n) && !p.master.imr.testBit (inlet n)) = true := by
  unfold pending latched masked at hp
  unfold inlet lines
  by_cases hlt : n < 8
  · simp only [if_pos hlt, Bool.and_eq_true, Bool.or_eq_true] at hp ⊢
    exact ⟨.inl hp.1, hp.2⟩
  · simp only [if_neg hlt, Bool.not_or, Bool.and_eq_true] at hp
    have hsome : (p.slave.request p.slave.irr).isSome = true := by
      rw [slave_request h hq]
      cases hfirst : first fun i => p.slave.irr i && !p.slave.imr.testBit i with
      | some j => rfl
      | none =>
        have hnone := first_eq_none.mp hfirst (n - 8) (by omega)
        simp only [hp.1, hp.2.1, Bool.and_self, Bool.true_eq_false] at hnone
    simp only [if_neg hlt, hsome, hp.2.2, beq_self_eq_true, Bool.and_self, Bool.or_true]

/-- The second chip's request comes through when its output is the first that gets through. -/
theorem acknowledge_slave (hfirst : first (fun i => p.lines i && !p.master.imr.testBit i) = some 2) :
    ∃ j, j < 8 ∧ (p.slave.irr j && !p.slave.imr.testBit j) = true ∧
      (∀ k, k < j → (p.slave.irr k && !p.slave.imr.testBit k) = false) ∧
      p.acknowledge = some (base' + j, ⟨p.master.take 2, p.slave.take j⟩) := by
  obtain ⟨_, hline, _⟩ := first_eq_some.mp hfirst
  have hsome : (p.slave.request p.slave.irr).isSome = true := by
    rw [Bool.and_eq_true] at hline
    simpa [lines, h.cascade_line] using hline.1
  obtain ⟨j, hj⟩ := Option.isSome_iff_exists.mp hsome
  have hj' := hj
  rw [slave_request h hq] at hj'
  obtain ⟨hlt, hbit, hmin⟩ := first_eq_some.mp hj'
  refine ⟨j, hlt, hbit, hmin, ?_⟩
  rw [acknowledge, hq.1.request h.master_ready, hfirst, Option.bind_some, if_pos (by rw [h.master_cascade]; decide),
    if_pos h.slave_cascade, hj, Option.map_some, Chip.vector, h.slave_base]

theorem acknowledge_master {i : Nat} (hne : i ≠ 2)
    (hfirst : first (fun i => p.lines i && !p.master.imr.testBit i) = some i) :
    p.acknowledge = some (base + i, ⟨p.master.take i, p.slave⟩) := by
  have hcascade : p.master.icw3.testBit i = false := by
    rw [h.master_cascade, Nat.one_shiftLeft, Nat.testBit_two_pow]
    exact decide_eq_false (Ne.symm hne)
  rw [acknowledge, hq.1.request h.master_ready, hfirst, Option.bind_some, hcascade, if_neg (by decide), Chip.vector,
    h.master_base]

/-- **The first pending request is acknowledged**, and is then what is in service. -/
theorem acknowledge_spec :
    (p.acknowledge = none ∧ ∀ n, n < 16 → p.pending n = false) ∨
    ∃ n p', n < 16 ∧ p.pending n = true ∧ (∀ k, k < 16 → p.pending k = true → rank n ≤ rank k) ∧
      p.acknowledge = some (if n < 8 then base + n else base' + (n - 8), p') ∧
      p'.Serves (some n) ∧ Configured base base' p' ∧ p'.masked = p.masked ∧
      p'.latched = Function.update p.latched n false := by
  cases hfirst : first fun i => p.lines i && !p.master.imr.testBit i with
  | none =>
    refine .inl ⟨?_, fun n hn => ?_⟩
    · rw [acknowledge, hq.1.request h.master_ready, hfirst, Option.bind_none]
    · by_contra hp
      have hinlet := inlet_of_pending h hq hn (by simpa using hp)
      rw [first_eq_none.mp hfirst _ (by unfold inlet; split <;> omega)] at hinlet
      cases hinlet
  | some i =>
    obtain ⟨hi, hline, hmin⟩ := first_eq_some.mp hfirst
    have hle : ∀ k, k < 16 → p.pending k = true → i ≤ inlet k := by
      intro k hk hp
      by_contra hlt
      have hinlet := inlet_of_pending h hq hk hp
      rw [hmin _ (by omega)] at hinlet
      cases hinlet
    have hnot2 : p.pending 2 = false := by simp [pending, latched, h.cascade_line]
    rw [Bool.and_eq_true, Bool.not_eq_true'] at hline
    by_cases h2 : i = 2
    · subst h2
      obtain ⟨j, hj, hbit, hjmin, hack⟩ := acknowledge_slave h hq hfirst
      rw [Bool.and_eq_true, Bool.not_eq_true'] at hbit
      have hnlt : ¬ 8 + j < 8 := by omega
      refine .inr ⟨8 + j, _, by omega, ?_, fun k hk hp => ?_, by rw [hack, if_neg hnlt, Nat.add_sub_cancel_left],
        ?_, ?_, ?_, ?_⟩
      · simp [pending, latched, masked, hbit.1, hbit.2, hline.2]
      · have hk2 := hle k hk hp
        unfold inlet at hk2
        unfold rank
        split at hk2
        · have hne : k ≠ 2 := by
            rintro rfl
            rw [hnot2] at hp
            cases hp
          grind
        · have hjk : ¬ k - 8 < j := by
            intro hlt
            have hzero := hjmin _ hlt
            simp only [pending, latched, masked, if_neg ‹¬ k < 8›, Bool.not_or, Bool.and_eq_true] at hp
            rw [hp.1, hp.2.1] at hzero
            cases hzero
          grind
      · rw [Serves, if_neg hnlt, Nat.add_sub_cancel_left]
        exact ⟨hq.1.take (by rw [h.master_mode]; decide) 2, hq.2.take (by rw [h.slave_mode]; decide) j⟩
      · exact {h with cascade_line := by simp [Chip.take]}
      · rfl
      · exact latched_take_slave h j
    · rw [lines, beq_false_of_ne h2, Bool.false_and, Bool.or_false] at hline
      refine .inr ⟨i, _, by omega, ?_, fun k hk hp => ?_, by rw [acknowledge_master h hq h2 hfirst, if_pos hi],
        ?_, ?_, ?_, ?_⟩
      · simp [pending, latched, masked, hi, hline.1, hline.2]
      · have hk2 := hle k hk hp
        unfold inlet at hk2
        unfold rank
        grind
      · rw [Serves, if_pos hi]
        exact ⟨hq.1.take (by rw [h.master_mode]; decide) i, hq.2⟩
      · exact {h with cascade_line := by simp [Chip.take, Ne.symm h2, h.cascade_line]}
      · rfl
      · exact latched_take_master p hi

end Acknowledge

/-! ### Ends of interrupts, and new requests -/

theorem Serves.end_master (hs : p.Serves (some n)) (hn : n < 8) : (p.out 0x20 eoi).Serves none := by
  rw [Serves, if_pos hn] at hs
  exact ⟨hs.1.eoi hn, hs.2⟩

/-- An interrupt of the second chip ends there first. -/
theorem Serves.end_slave (hs : p.Serves (some n)) (hn : 8 ≤ n) (hlt : n < 16) :
    (p.out 0xA0 eoi).Serves (some 2) := by
  rw [Serves, if_neg (by omega)] at hs
  exact ⟨hs.1, hs.2.eoi (by omega)⟩

/-- The same but for what is in service. -/
structure Kept (base base' : Nat) (p p' : Pair) : Prop where
  latched : p'.latched = p.latched
  masked : p'.masked = p.masked
  configured : Configured base base' p → Configured base base' p'

theorem kept_eoi_master (base base' : Nat) (p : Pair) : Kept base base' p (p.out 0x20 eoi) := by
  obtain ⟨f, hf⟩ := p.master.command_eoi
  have hout : p.out 0x20 eoi = {p with master := {p.master with isr := f}} := by rw [← hf]; rfl
  rw [hout]
  exact ⟨rfl, rfl, fun h => {h with}⟩

theorem kept_eoi_slave (base base' : Nat) (p : Pair) : Kept base base' p (p.out 0xA0 eoi) := by
  obtain ⟨f, hf⟩ := p.slave.command_eoi
  have hout : p.out 0xA0 eoi = {p with slave := {p.slave with isr := f}} := by rw [← hf]; rfl
  rw [hout]
  exact ⟨rfl, rfl, fun h => {h with}⟩

theorem raise_latched (p : Pair) {n : Nat} : (p.raise n).latched = Function.update p.latched n true := by
  funext k
  unfold raise latched
  by_cases hn : n < 8
  · by_cases hk : k < 8
    · simp only [if_pos hn, if_pos hk, Function.update_apply]
    · have hne : k ≠ n := by omega
      simp only [if_pos hn, if_neg hk, Function.update_apply, if_neg hne]
  · by_cases hk : k < 8
    · have hne : k ≠ n := by omega
      simp only [if_neg hn, if_pos hk, Function.update_apply, if_neg hne]
    · have hiff : k - 8 = n - 8 ↔ k = n := by omega
      simp only [if_neg hn, if_neg hk, Function.update_apply, hiff]

theorem raise_masked (p : Pair) (n : Nat) : (p.raise n).masked = p.masked := by
  unfold raise
  split <;> rfl

theorem raise_serves (p : Pair) (n : Nat) (s : Option Nat) : (p.raise n).Serves s ↔ p.Serves s := by
  unfold raise
  split <;> cases s <;> rfl

theorem Configured.raise (h : Configured base base' p) (hn : n ≠ 2) : Configured base base' (p.raise n) := by
  unfold Pair.raise
  split
  · exact {h with cascade_line := (Function.update_of_ne hn.symm _ _).trans h.cascade_line}
  · exact {h with}

/-- All but the requests of the devices. -/
def settings (p : Pair) : Pair where
  master := {p.master with irr := fun _ => p.master.irr 2}
  slave := {p.slave with irr := fun _ => false}

theorem settings_raise (p : Pair) {n : Nat} (hn : n ≠ 2) : (p.raise n).settings = p.settings := by
  unfold raise settings
  split
  · dsimp only
    rw [Function.update_of_ne hn.symm]
  · rfl

/-- What a write does to the settings does not depend on the requests. -/
theorem settings_out (p : Pair) (port v : Nat) : (p.out port v).settings = (p.settings.out port v).settings := by
  unfold out
  split
  · unfold Chip.command
    split
    · rfl
    · split
      · dsimp only [settings]
        cases (if v.testBit 6 = true then some (v % 8) else first p.master.isr) <;> rfl
      · rfl
  split
  · unfold Chip.data
    dsimp only [settings]
    cases p.master.phase <;> rfl
  split
  · unfold Chip.command
    split
    · rfl
    · split
      · dsimp only [settings]
        cases (if v.testBit 6 = true then some (v % 8) else first p.slave.isr) <;> rfl
      · rfl
  split
  · unfold Chip.data
    dsimp only [settings]
    cases p.slave.phase <;> rfl
  · rfl

end Pair

end ArcMonark.Library.I8259
