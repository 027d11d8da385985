import ArcMonark.Drivers.Keyboard
import ArcMonark.Library.Runs

/-! The shell's character ring (`keyboard_handler` and `keyboard_getchar`).

The handler is the only one to move the head and `keyboard_getchar` the only one to move
the tail; it takes no lock, so that the handler may run between its steps. The slot it
reads is not free before it has moved the tail. -/
namespace ArcMonark.Drivers
open Library Kernel

/-! ### Steps -/

/-- Where `keyboard_getchar` stands. -/
inductive Getchar where
  /-- It compares the head with the tail. -/
  | test
  /-- It reads the slot at the tail. -/
  | read
  /-- It moves the tail on and returns the character. -/
  | store (c : Char)

/-- The keyboard and its reader. -/
structure Typing where
  kbd : Keyboard
  pc : Getchar
  /-- What the handler has put into the ring. -/
  accepted : List Char
  /-- What the calls of `keyboard_getchar` have returned. -/
  returned : List Char

/-- What the handler put into the ring between two states. -/
def stored (s s' : Keyboard) : List Char := if s'.kbdHead = s.kbdHead then [] else [s'.kbdBuf s.kbdHead]

inductive TypingEvent where
  | scancode (sc : UInt8)
  | test
  | read
  | store

inductive TypingStep (s : Typing) : TypingEvent → Typing → Prop where
  | scancode (sc : UInt8) : TypingStep s (.scancode sc)
      {s with
        kbd := (keyboardHandler s.kbd sc).1
        accepted := s.accepted ++ stored s.kbd (keyboardHandler s.kbd sc).1}
  | wait (hpc : s.pc = .test) (hempty : s.kbd.kbdHead = s.kbd.kbdTail) : TypingStep s .test s
  | test (hpc : s.pc = .test) (hne : s.kbd.kbdHead ≠ s.kbd.kbdTail) : TypingStep s .test {s with pc := .read}
  | read (hpc : s.pc = .read) : TypingStep s .read {s with pc := .store (s.kbd.kbdBuf s.kbd.kbdTail)}
  | store {c} (hpc : s.pc = .store c) : TypingStep s .store
      {s with
        kbd := {s.kbd with kbdTail := (s.kbd.kbdTail + 1) % 2 ^ 32 % kbdBufSize}
        pc := .test
        returned := s.returned ++ [c]}

/-- Keys are typed while one task reads them. -/
def typing : System Typing TypingEvent where
  init s := s = ⟨.start, .test, [], []⟩
  step := TypingStep

/-- The character that a scancode asks to store: that of a key that is pressed. -/
def typed (s : Keyboard) (sc : UInt8) : Option Char :=
  if sc = 0xE0 ∨ sc &&& 0x80 ≠ 0 then none
  else
    let c := asciiOf (updateModifiers s sc) (sc &&& 0x7F)
    if c ≠ '\x00' then some c else none

/-! ### The ring -/

/-- The ring holds these characters, the oldest first. -/
def Keyboard.Holds (s : Keyboard) (xs : List Char) : Prop := Buffered kbdBufSize s.kbdBuf s.kbdHead s.kbdTail xs

section Ring
variable {s s' : Keyboard} {xs : List Char} {c : Char}

theorem kbd_advance {i : Nat} (hi : i < kbdBufSize) : (i + 1) % 2 ^ 32 % kbdBufSize = (i + 1) % kbdBufSize := by
  unfold kbdBufSize at hi
  rw [Nat.mod_eq_of_lt (show i + 1 < 2 ^ 32 by omega)]

/-- The two states agree on the ring. -/
def SameRing (s s' : Keyboard) : Prop :=
  s'.kbdBuf = s.kbdBuf ∧ s'.kbdHead = s.kbdHead ∧ s'.kbdTail = s.kbdTail

theorem updateModifiers_ring (s : Keyboard) (sc : UInt8) : SameRing s (updateModifiers s sc) := by
  unfold updateModifiers
  split
  · exact ⟨rfl, rfl, rfl⟩
  · split
    · exact ⟨rfl, rfl, rfl⟩
    · split <;> exact ⟨rfl, rfl, rfl⟩

/-- The handler does nothing else to the ring than to store what is typed. -/
theorem handler_ring (s : Keyboard) (sc : UInt8) :
    SameRing (match typed s sc with
      | none => s
      | some c => storeChar (updateModifiers s sc) c) (keyboardHandler s sc).1 := by
  have hsame := updateModifiers_ring s sc
  unfold typed keyboardHandler
  by_cases hpre : sc = 0xE0
  · simp only [hpre, true_or, if_true]
    exact ⟨rfl, rfl, rfl⟩
  · by_cases hbreak : sc &&& 0x80 = 0
    · simp only [hpre, hbreak, ne_eq, not_true_eq_false, or_self, if_false, if_true]
      split
      · rename_i hc
        split at hc
        · cases hc
        · rename_i hzero
          rw [if_neg hzero]
          exact hsame
      · rename_i c hc
        split at hc
        · rename_i hnonzero
          cases hc
          rw [if_pos hnonzero]
          exact ⟨rfl, rfl, rfl⟩
        · cases hc
    · simp only [hpre, hbreak, ne_eq, not_false_eq_true, or_true, if_false, if_true]
      exact hsame

theorem Keyboard.Holds.same (h : s.Holds xs) (hs : SameRing s s') : s'.Holds xs := by
  obtain ⟨hbuf, hhead, htail⟩ := hs
  unfold Keyboard.Holds
  rw [hbuf, hhead, htail]
  exact h

/-- `storeChar` appends to a ring that is not full. -/
theorem storeChar_holds (h : s.Holds xs) (c : Char) :
    xs.length < 255 ∧ (storeChar s c).Holds (xs ++ [c]) ∧ stored s (storeChar s c) = [c] ∨
      xs.length = 255 ∧ storeChar s c = s := by
  have hnext := h.next_eq_tail
  have hroom := h.room
  unfold kbdBufSize at hnext hroom
  unfold storeChar
  dsimp only
  rw [kbd_advance h.head_lt]
  split
  · rename_i hne
    have hlen : xs.length + 1 ≠ 256 := fun heq => hne (hnext.mpr heq)
    refine .inl ⟨by omega, h.push (show xs.length + 1 < 256 by omega) c, ?_⟩
    have hmoved : (s.kbdHead + 1) % kbdBufSize ≠ s.kbdHead := by
      have hhead := h.head_lt
      unfold kbdBufSize at hhead ⊢
      omega
    unfold stored
    dsimp only
    rw [if_neg hmoved, Function.update_self]
  · rename_i heq
    have hlen : xs.length + 1 = 256 := hnext.mp (not_not.mp heq)
    exact .inr ⟨by omega, rfl⟩

/-- The handler appends a typed character, unless 255 are pending; it leaves the tail
and every pending character where they are. -/
theorem handler_holds (h : s.Holds xs) (sc : UInt8) :
    (keyboardHandler s sc).1.Holds (xs ++ stored s (keyboardHandler s sc).1) ∧
    (keyboardHandler s sc).1.kbdTail = s.kbdTail ∧
    (typed s sc = none → stored s (keyboardHandler s sc).1 = []) ∧
    ∀ c, typed s sc = some c → xs.length < 255 ∧ stored s (keyboardHandler s sc).1 = [c] ∨
      xs.length = 255 ∧ stored s (keyboardHandler s sc).1 = [] := by
  have hring := handler_ring s sc
  have hmodifiers := updateModifiers_ring s sc
  cases htyped : typed s sc with
  | none =>
    rw [htyped] at hring
    obtain ⟨hbuf, hhead, htail⟩ := hring
    have hnothing : stored s (keyboardHandler s sc).1 = [] := if_pos hhead
    refine ⟨?_, htail, fun _ => hnothing, nofun⟩
    rw [hnothing, List.append_nil]
    exact h.same ⟨hbuf, hhead, htail⟩
  | some c =>
    rw [htyped] at hring
    dsimp only at hring
    have hhead' := hmodifiers.2.1
    have htail' := hmodifiers.2.2
    have hstored : stored s (keyboardHandler s sc).1 =
        stored (updateModifiers s sc) (storeChar (updateModifiers s sc) c) := by
      obtain ⟨hbuf, hhead, _⟩ := hring
      unfold stored
      rw [hbuf, hhead, hhead']
    have htail : (keyboardHandler s sc).1.kbdTail = s.kbdTail := by
      rw [hring.2.2, ← htail']
      unfold storeChar
      dsimp only
      split <;> rfl
    rw [hstored]
    rcases storeChar_holds (h.same hmodifiers) c with ⟨hlen, hholds, hone⟩ | ⟨hlen, hfull⟩
    · rw [hone]
      exact ⟨hholds.same hring, htail, nofun, fun d hd => by cases hd; exact .inl ⟨hlen, rfl⟩⟩
    · have hnone : stored (updateModifiers s sc) (storeChar (updateModifiers s sc) c) = [] := if_pos (by rw [hfull])
      rw [hnone, List.append_nil]
      rw [hfull] at hring
      exact ⟨(h.same hmodifiers).same hring, htail, nofun, fun d _ => .inr ⟨hlen, rfl⟩⟩

end Ring

/-! ### Runs -/

/-- What is accepted was returned or is in the ring; the character that is being read is
the first one there. -/
structure TypingInv (s : Typing) (pending : List Char) : Prop where
  accepted : s.accepted = s.returned ++ pending
  holds : s.kbd.Holds pending
  reads : s.pc = .read → pending ≠ []
  stores : ∀ c, s.pc = .store c → pending.head? = some c

theorem TypingInv.step {s s' : Typing} {pending : List Char} {e : TypingEvent} (h : TypingInv s pending)
    (hs : TypingStep s e s') : ∃ pending', TypingInv s' pending' := by
  have hkept : ∀ more, pending ≠ [] → pending ++ more ≠ [] := fun more hne heq =>
    hne (List.append_eq_nil_iff.mp heq).1
  cases hs with
  | scancode sc =>
    refine ⟨pending ++ stored s.kbd (keyboardHandler s.kbd sc).1, ?_, (handler_holds h.holds sc).1,
      fun hpc => hkept _ (h.reads hpc), fun c hpc => ?_⟩
    · rw [h.accepted, List.append_assoc]
    · rw [List.head?_append, h.stores c hpc]
      rfl
  | wait hpc _ => exact ⟨pending, h⟩
  | test hpc hne =>
    exact ⟨pending, h.accepted, h.holds, fun _ hnil => hne (h.holds.head_eq_tail.mpr hnil), nofun⟩
  | read hpc =>
    refine ⟨pending, h.accepted, h.holds, nofun, fun c hc => ?_⟩
    cases hc
    cases pending with
    | nil => exact absurd rfl (h.reads hpc)
    | cons x xs => exact congrArg some h.holds.first.symm
  | @store c hpc =>
    have hfirst := h.stores c hpc
    cases pending with
    | nil => cases hfirst
    | cons x xs =>
      cases hfirst
      refine ⟨xs, by rw [h.accepted, List.append_assoc]; rfl, ?_, nofun, nofun⟩
      unfold Keyboard.Holds
      dsimp only
      rw [kbd_advance h.holds.tail_lt]
      exact h.holds.pop

theorem typing_reachable {s : Typing} (h : typing.Reachable s) : ∃ pending, TypingInv s pending := by
  refine System.invariant (P := fun s => ∃ pending, TypingInv s pending) (fun s hs => ?_) ?_ h
  · cases hs
    exact ⟨[], rfl, .empty _ (show 0 < kbdBufSize by decide), nofun, nofun⟩
  · rintro s e s' ⟨pending, hinv⟩ hstep
    exact hinv.step hstep

/-- **The character ring loses only what does not fit**, wherever the handler runs
between the steps of `keyboard_getchar`: what has been returned are the accepted
characters, in order, up to those that are pending; a character that is typed is
accepted unless 255 are pending, the one being read included; and what is in the slot at
the tail stays there from the test on. -/
theorem character_ring {s : Typing} (h : typing.Reachable s) :
    ∃ pending, s.accepted = s.returned ++ pending ∧ s.kbd.Holds pending ∧
      (∀ sc c, typed s.kbd sc = some c →
        pending.length < 255 ∧ stored s.kbd (keyboardHandler s.kbd sc).1 = [c] ∨
        pending.length = 255 ∧ stored s.kbd (keyboardHandler s.kbd sc).1 = []) ∧
      (∀ sc, typed s.kbd sc = none → stored s.kbd (keyboardHandler s.kbd sc).1 = []) ∧
      (∀ c, s.pc = .store c → pending.head? = some c) ∧
      (s.pc ≠ .test → ∀ sc, (keyboardHandler s.kbd sc).1.kbdTail = s.kbd.kbdTail ∧
        (keyboardHandler s.kbd sc).1.kbdBuf s.kbd.kbdTail = s.kbd.kbdBuf s.kbd.kbdTail) := by
  obtain ⟨pending, hinv⟩ := typing_reachable h
  refine ⟨pending, hinv.accepted, hinv.holds, fun sc => (handler_holds hinv.holds sc).2.2.2,
    fun sc => (handler_holds hinv.holds sc).2.2.1, hinv.stores, fun hpc sc => ?_⟩
  obtain ⟨hholds, htail, _⟩ := handler_holds hinv.holds sc
  refine ⟨htail, ?_⟩
  have hne : pending ≠ [] := by
    rintro rfl
    cases hstate : s.pc with
    | test => exact hpc hstate
    | read => exact hinv.reads hstate rfl
    | store c => cases hinv.stores c hstate
  obtain ⟨x, xs, rfl⟩ := List.exists_cons_of_ne_nil hne
  rw [List.cons_append] at hholds
  have hfirst := hholds.first
  rw [htail] at hfirst
  rw [hfirst, hinv.holds.first]

/-- A key is pressed while the character before it is being read. -/
theorem character_ring_pressed : ∃ s pending, typing.Reachable s ∧ s.pc = .store 'a' ∧
    s.accepted = s.returned ++ pending ∧ pending.head? = some 'a' := by
  have h₀ : typing.Reachable ⟨.start, .test, [], []⟩ := .start rfl
  have h₁ := System.Reachable.step h₀ (TypingStep.scancode 0x1E)
  have h₂ := System.Reachable.step h₁ (TypingStep.test rfl (by decide))
  have h₃ := System.Reachable.step h₂ (TypingStep.scancode 0x30)
  have h₄ := System.Reachable.step h₃ (TypingStep.read rfl)
  obtain ⟨pending, haccepted, _, _, _, hstores, _⟩ := character_ring h₄
  exact ⟨_, pending, h₄, rfl, haccepted, hstores 'a' rfl⟩

end ArcMonark.Drivers
