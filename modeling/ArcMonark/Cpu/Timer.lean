import ArcMonark.Library.Words

/-! The timer (`cpu/timer.c`).

Every timer interrupt adds one to the ticks, `tick_hz` times a second. `sleep` works out
how many ticks its milliseconds are and waits for that many. The product is a 32-bit
number and the division rounds down: `sleep_long_enough_iff` says for which arguments
the result is not less than what was asked for. -/
namespace ArcMonark.Cpu
open Library

def pitChannel0 : Nat := 0x40

def pitCommand : Nat := 0x43

def pitFrequency : Nat := 1193182

structure Timer where
  ticks : Nat
  tickHz : Nat
deriving DecidableEq

/-- The variables as the kernel starts. -/
def Timer.start : Timer := {ticks := 0, tickHz := 100}

/-- The handler's own part; then it acknowledges the interrupt and calls the scheduler. -/
def irq0Timer (s : Timer) : Timer := {s with ticks := add64 s.ticks 1}

/-- The bytes that go to the ports, in order. -/
def pitInit (s : Timer) (frequency : Nat) : Timer × List (Nat × Nat) :=
  let divisor := pitFrequency / frequency
  ({s with tickHz := frequency},
    [(pitCommand, 0x36), (pitChannel0, divisor % 256), (pitChannel0, divisor / 256 % 256)])

def timerTicks (s : Timer) : Nat := s.ticks

/-- `(ms * tick_hz) / 1000` -/
def sleepTicks (s : Timer) (ms : Nat) : Nat := ms * s.tickHz % 2 ^ 32 / 1000

/-- So many timer interrupts. -/
def interrupts : Nat → Timer → Timer
  | 0, s => s
  | k + 1, s => interrupts k (irq0Timer s)

/-- The loop of `sleep`. The list says how many timer interrupts arrive in front of each
test of the ticks; where it ends, `sleep` has not returned. The result also says how many
arrived in all. -/
def sleepWhile (target : Nat) (s : Timer) : List Nat → Option (Timer × Nat)
  | [] => none
  | k :: ks =>
    let s := interrupts k s
    if s.ticks < target then (sleepWhile target s ks).map fun r => (r.1, k + r.2) else some (s, k)

def sleep (s : Timer) (ms : Nat) (arrivals : List Nat) : Option (Timer × Nat) :=
  sleepWhile (add64 s.ticks (sleepTicks s ms)) s arrivals

/-- The divisor of a rate from 19 Hz on fits the two bytes that the timer takes. -/
theorem pitInit_divisor (s : Timer) {frequency : Nat} (h : 19 ≤ frequency) :
    ∃ lo hi, (pitInit s frequency).2 = [(pitCommand, 0x36), (pitChannel0, lo), (pitChannel0, hi)] ∧
      lo + 256 * hi = pitFrequency / frequency := by
  have hle : pitFrequency / frequency ≤ pitFrequency / 19 := Nat.div_le_div_left h (by decide)
  have hfits : pitFrequency / 19 < 65536 := by decide
  have hdiv : pitFrequency / frequency < 65536 := lt_of_le_of_lt hle hfits
  refine ⟨_, _, rfl, ?_⟩
  rw [Nat.mod_eq_of_lt (a := pitFrequency / frequency / 256) (by omega)]
  exact Nat.mod_add_div _ _

/-! ### Waiting -/

section Sleep
variable {s s' : Timer} {target k n : Nat} {ks : List Nat}

theorem interrupts_eq (h : s.ticks + k < 2 ^ 64) : interrupts k s = {s with ticks := s.ticks + k} := by
  induction k generalizing s with
  | zero => rfl
  | succ k ih =>
    have hone : irq0Timer s = {s with ticks := s.ticks + 1} := by
      rw [irq0Timer, add64_eq (by omega)]
    have hsum : s.ticks + 1 + k = s.ticks + (k + 1) := by omega
    rw [interrupts, hone, ih (show s.ticks + 1 + k < 2 ^ 64 by omega)]
    dsimp only
    rw [hsum]

/-- Each interrupt that arrives is a tick, and the loop ends at the target. -/
theorem sleepWhile_reaches (h : s.ticks + ks.sum < 2 ^ 64) (hs : sleepWhile target s ks = some (s', n)) :
    s' = {s with ticks := s.ticks + n} ∧ target ≤ s.ticks + n := by
  induction ks generalizing s n with
  | nil => cases hs
  | cons k ks ih =>
    rw [List.sum_cons] at h
    rw [sleepWhile, interrupts_eq (by omega)] at hs
    dsimp only at hs
    split at hs
    · obtain ⟨⟨s₁, n₁⟩, hs₁, heq⟩ := Option.map_eq_some_iff.mp hs
      cases heq
      obtain ⟨rfl, hle⟩ := ih (show s.ticks + k + ks.sum < 2 ^ 64 by omega) hs₁
      dsimp only at hle ⊢
      rw [Nat.add_assoc] at hle ⊢
      exact ⟨rfl, hle⟩
    · cases hs
      exact ⟨rfl, by omega⟩

/-- With enough interrupts the loop ends. -/
theorem sleepWhile_returns (h : s.ticks + ks.sum < 2 ^ 64) (htarget : target ≤ s.ticks + ks.sum) (hne : ks ≠ []) :
    ∃ r, sleepWhile target s ks = some r := by
  induction ks generalizing s with
  | nil => exact absurd rfl hne
  | cons k ks ih =>
    rw [List.sum_cons] at h htarget
    rw [sleepWhile, interrupts_eq (by omega)]
    dsimp only
    split
    · rename_i hlow
      have hrest : ks ≠ [] := by
        rintro rfl
        rw [List.sum_nil] at htarget
        omega
      obtain ⟨r, hr⟩ := ih (s := {s with ticks := s.ticks + k}) (show s.ticks + k + ks.sum < 2 ^ 64 by omega)
        (show target ≤ s.ticks + k + ks.sum by omega) hrest
      exact ⟨_, by rw [hr, Option.map_some]⟩
    · exact ⟨_, rfl⟩

theorem sleepTicks_le (s : Timer) (ms : Nat) : sleepTicks s ms * 1000 ≤ ms * s.tickHz :=
  le_trans (Nat.div_mul_le_self _ _) (Nat.mod_le _ _)

/-- Neither the product nor the division loses anything. -/
theorem sleepTicks_eq_iff (s : Timer) (ms : Nat) :
    sleepTicks s ms * 1000 = ms * s.tickHz ↔ ms * s.tickHz < 2 ^ 32 ∧ 1000 ∣ ms * s.tickHz := by
  constructor
  · intro heq
    have hmod : ms * s.tickHz % 2 ^ 32 = ms * s.tickHz := by
      have hround : sleepTicks s ms * 1000 ≤ ms * s.tickHz % 2 ^ 32 := Nat.div_mul_le_self _ _
      exact le_antisymm (Nat.mod_le _ _) (heq ▸ hround)
    exact ⟨hmod ▸ Nat.mod_lt _ (by decide), ⟨sleepTicks s ms, by rw [← heq, Nat.mul_comm]⟩⟩
  · rintro ⟨hlt, hdvd⟩
    rw [sleepTicks, Nat.mod_eq_of_lt hlt, Nat.div_mul_cancel hdvd]

theorem sleepTicks_lt (s : Timer) (ms : Nat) : sleepTicks s ms < 2 ^ 32 :=
  lt_of_le_of_lt (Nat.div_le_self _ _) (Nat.mod_lt _ (by decide))

/-- The target is so many ticks away when the count is far from its end. -/
theorem sleep_eq (ms : Nat) (h : s.ticks + 2 ^ 32 ≤ 2 ^ 64) :
    sleep s ms ks = sleepWhile (s.ticks + sleepTicks s ms) s ks := by
  have hlt := sleepTicks_lt s ms
  rw [sleep, add64_eq (by omega)]

/-- So many interrupts are enough for `sleep` to return. -/
theorem sleep_returns (ms : Nat) (hticks : s.ticks + 2 ^ 32 ≤ 2 ^ 64) (h : s.ticks + ks.sum < 2 ^ 64)
    (henough : sleepTicks s ms ≤ ks.sum) (hne : ks ≠ []) : ∃ r, sleep s ms ks = some r := by
  rw [sleep_eq ms hticks]
  exact sleepWhile_returns h (by omega) hne

/-- Where as many interrupts as it waits for arrive at once, `sleep` returns after just these. -/
theorem sleep_shortest (ms : Nat) (h : s.ticks + 2 ^ 32 ≤ 2 ^ 64) :
    ∃ s', sleep s ms [sleepTicks s ms] = some (s', sleepTicks s ms) := by
  have hlt := sleepTicks_lt s ms
  refine ⟨{s with ticks := s.ticks + sleepTicks s ms}, ?_⟩
  rw [sleep_eq ms h, sleepWhile, interrupts_eq (by omega)]
  exact if_neg (Nat.lt_irrefl _)

end Sleep

/-- `sleep` lasts as long as it was asked to, and as long as any shorter time needs, for
just the arguments whose product with the rate fits 32 bits and is whole in ticks. -/
theorem sleep_long_enough_iff (s : Timer) (hz ms : Nat) (hticks : s.ticks + 2 ^ 32 ≤ 2 ^ 64) :
    (∀ arrivals s' n, s.ticks + arrivals.sum < 2 ^ 64 →
      sleep (pitInit s hz).1 ms arrivals = some (s', n) → ∀ shorter ≤ ms, shorter * hz ≤ n * 1000) ↔
    ms * hz < 2 ^ 32 ∧ 1000 ∣ ms * hz := by
  rw [show ms * hz = ms * (pitInit s hz).1.tickHz from rfl, ← sleepTicks_eq_iff]
  constructor
  · intro hlong
    have hlt := sleepTicks_lt (pitInit s hz).1 ms
    obtain ⟨s', hs'⟩ := sleep_shortest (s := (pitInit s hz).1) ms hticks
    have hsum : s.ticks + [sleepTicks (pitInit s hz).1 ms].sum < 2 ^ 64 := by
      rw [List.sum_singleton]
      omega
    exact le_antisymm (sleepTicks_le _ _) (hlong _ s' _ hsum hs' ms le_rfl)
  · intro hexact arrivals s' n hsum hs shorter hshorter
    rw [sleep_eq (s := (pitInit s hz).1) ms hticks] at hs
    have hreach := (sleepWhile_reaches (s := (pitInit s hz).1) hsum hs).2
    have hticks' : (pitInit s hz).1.ticks = s.ticks := rfl
    calc
      shorter * hz ≤ ms * hz := Nat.mul_le_mul_right _ hshorter
      _ = sleepTicks (pitInit s hz).1 ms * 1000 := hexact.symm
      _ ≤ n * 1000 := Nat.mul_le_mul_right _ (by omega)

/-- Ten milliseconds at 100 Hz are one tick. -/
theorem sleep_long_enough_iff_tick :
    (100 * 10 < 2 ^ 32 ∧ 1000 ∣ 10 * 100) ∧
    ∀ arrivals s' n, Timer.start.ticks + arrivals.sum < 2 ^ 64 →
      sleep (pitInit .start 100).1 10 arrivals = some (s', n) → ∀ shorter ≤ 10, shorter * 100 ≤ n * 1000 :=
  ⟨by decide, (sleep_long_enough_iff .start 100 10 (by decide)).mpr (by decide)⟩

/-- Nine milliseconds at 100 Hz are less than a tick, and `sleep` returns at once. At 1000
Hz, the product of 4294968 milliseconds is past 32 bits, and `sleep` is over at once too. -/
theorem sleep_too_short :
    sleep (pitInit .start 100).1 9 [0] = some ({ticks := 0, tickHz := 100}, 0) ∧ ¬9 * 100 ≤ 0 * 1000 ∧
    sleep (pitInit .start 1000).1 4294968 [0] = some ({ticks := 0, tickHz := 1000}, 0) ∧
    ¬4294968 * 1000 ≤ 0 * 1000 := by
  decide

end ArcMonark.Cpu
