import ArcMonark.Library.Bytes

/-! Stacks of 64-bit words.

A stack grows down: each word goes below the last. Read from its end up, what was
pushed comes back in the opposite order. -/
namespace ArcMonark.Library.Mem

/-- `n` words from `a` up. -/
def words (m : Mem) (a : Nat) : Nat → List Nat
  | 0 => []
  | n + 1 => m.load64 a :: words m (a + 8) n

/-- The words pushed below `sp`, one after the other. -/
def push (m : Mem) (sp : Nat) : List Nat → Mem
  | [] => m
  | w :: ws => push (m.store64 (sp - 8) w) (sp - 8) ws

variable {m m' : Mem}

theorem words_congr {a n : Nat} (h : Agree m m' a (a + 8 * n)) : m'.words a n = m.words a n := by
  induction n generalizing a with
  | zero => rfl
  | succ n ih =>
    rw [words, words, load64_congr (h.mono (Nat.le_refl _) (by omega)),
      ih (h.mono (by omega) (by omega))]

theorem words_snoc (m : Mem) (a n : Nat) : m.words a (n + 1) = m.words a n ++ [m.load64 (a + 8 * n)] := by
  induction n generalizing a with
  | zero => rfl
  | succ n ih =>
    rw [words, ih (a + 8), show a + 8 + 8 * n = a + 8 * (n + 1) by omega]
    rfl

theorem words_getElem? (m : Mem) {a n i : Nat} (hi : i < n) : (m.words a n)[i]? = some (m.load64 (a + 8 * i)) := by
  induction n generalizing a i with
  | zero => exact absurd hi (Nat.not_lt_zero i)
  | succ n ih =>
    cases i with
    | zero => rfl
    | succ i =>
      rw [words, List.getElem?_cons_succ, ih (Nat.lt_of_succ_lt_succ hi)]
      congr 2
      omega

/-- A push touches the bytes it covers only. -/
theorem push_of_outside (m : Mem) {sp b : Nat} {ws : List Nat} (hroom : 8 * ws.length ≤ sp)
    (h : b < sp - 8 * ws.length ∨ sp ≤ b) : m.push sp ws b = m b := by
  induction ws generalizing m sp with
  | nil => rfl
  | cons w ws ih =>
    rw [List.length_cons] at hroom h
    rw [push, ih _ (by omega) (by omega), store64_of_outside _ _ (by omega)]

/-- What was pushed, read from the end of the stack. -/
theorem words_push (m : Mem) {sp : Nat} {ws : List Nat} (hroom : 8 * ws.length ≤ sp)
    (hlt : ∀ w ∈ ws, w < 2 ^ 64) : (m.push sp ws).words (sp - 8 * ws.length) ws.length = ws.reverse := by
  induction ws generalizing m sp with
  | nil => rfl
  | cons w ws ih =>
    rw [List.length_cons] at hroom ⊢
    have hrest := ih (m.store64 (sp - 8) w) (show 8 * ws.length ≤ sp - 8 by omega)
      fun v hv => hlt v (List.mem_cons_of_mem _ hv)
    have hlast : (push (m.store64 (sp - 8) w) (sp - 8) ws).load64 (sp - 8) = w := by
      rw [load64_congr fun i hi _ => push_of_outside (m.store64 (sp - 8) w) (show 8 * ws.length ≤ sp - 8 by omega)
        (.inr hi), load64_store64_same _ _ (hlt w List.mem_cons_self)]
    rw [push, words_snoc, show sp - 8 * (ws.length + 1) = sp - 8 - 8 * ws.length by omega, hrest,
      show sp - 8 - 8 * ws.length + 8 * ws.length = sp - 8 by omega, hlast, List.reverse_cons]

end ArcMonark.Library.Mem
