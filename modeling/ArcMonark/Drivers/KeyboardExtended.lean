import ArcMonark.Drivers.KeyboardRing

/-! Extended keys (`keyboard_handler`).

An extended key sends the prefix 0xE0 and then a code of its own. The handler returns on
the prefix and keeps no note of it, so that the code behind it is read as the code of a
plain key: `wire_eq_codes` says that the prefixes are all that is skipped. -/
namespace ArcMonark.Drivers
open Kernel

/-! ### Streams with extended keys -/

def extendedPrefix : UInt8 := 0xE0

/-- A make or break code: any byte but the prefix. -/
structure Code where
  byte : UInt8
  not_prefix : byte ≠ extendedPrefix

/-- A key on the wire. -/
inductive Key where
  | plain (code : Code)
  | extended (code : Code)

namespace Key

def code : Key → Code
  | plain code => code
  | extended code => code

def bytes : Key → List UInt8
  | plain code => [code.byte]
  | extended code => [extendedPrefix, code.byte]

def isPlain : Key → Bool
  | plain _ => true
  | extended _ => false

end Key

def wire (keys : List Key) : List UInt8 := keys.flatMap Key.bytes

/-- The stream with the extended keys removed. -/
def plainKeys (keys : List Key) : List Key := keys.filter Key.isPlain

/-- The codes alone, those of plain and of extended keys alike. -/
def codes (keys : List Key) : List UInt8 := keys.map fun key => key.code.byte

/-! ### What a stream does -/

/-- The characters that a stream puts into the ring. -/
def accepted (s : Keyboard) : List UInt8 → List Char
  | [] => []
  | b :: rest => stored s (keyboardHandler s b).1 ++ accepted (keyboardHandler s b).1 rest

/-- The events that a stream pushes. -/
def pushed (s : Keyboard) : List UInt8 → List Event
  | [] => []
  | b :: rest => (keyboardHandler s b).2.toList ++ pushed (keyboardHandler s b).1 rest

/-- What a stream leaves behind: its characters, its events and the modifiers. -/
structure Outcome where
  chars : List Char
  events : List Event
  shiftDown : Nat
  capsLock : Nat

def outcome (s : Keyboard) (bytes : List UInt8) : Outcome :=
  {chars := accepted s bytes, events := pushed s bytes,
    shiftDown := (scan s bytes).shiftDown, capsLock := (scan s bytes).capsLock}

/-- The extended keys leave no trace. -/
def SkipsExtended (s : Keyboard) (keys : List Key) : Prop :=
  outcome s (wire keys) = outcome s (wire (plainKeys keys))

/-- What one scancode does, before the rest of the stream. -/
def Outcome.before (o : Outcome) (chars : List Char) (event : Option Event) : Outcome :=
  {o with chars := chars ++ o.chars, events := event.toList ++ o.events}

theorem outcome_cons (s : Keyboard) (b : UInt8) (rest : List UInt8) :
    outcome s (b :: rest) = (outcome (keyboardHandler s b).1 rest).before
      (stored s (keyboardHandler s b).1) (keyboardHandler s b).2 := rfl

theorem handler_extended (s : Keyboard) : keyboardHandler s extendedPrefix = (s, none) := rfl

theorem outcome_extended (s : Keyboard) (rest : List UInt8) :
    outcome s (extendedPrefix :: rest) = outcome s rest := by
  rw [outcome_cons, handler_extended]
  simp [Outcome.before, stored]

theorem handler_event (s : Keyboard) (code : Code) : (keyboardHandler s code.byte).2.toList.length = 1 := by
  unfold keyboardHandler
  rw [if_neg (show code.byte ≠ 0xE0 from code.not_prefix)]
  rfl

/-- **Only the prefixes are skipped**: a stream does what its codes do without them. -/
theorem wire_eq_codes (s : Keyboard) (keys : List Key) : outcome s (wire keys) = outcome s (codes keys) := by
  induction keys generalizing s with
  | nil => rfl
  | cons key rest ih =>
    have hwire : outcome s (key.code.byte :: wire rest) = outcome s (codes (key :: rest)) := by
      show _ = outcome s (key.code.byte :: codes rest)
      rw [outcome_cons, outcome_cons, ih]
    cases key with
    | plain code => exact hwire
    | extended code => exact (outcome_extended s _).trans hwire

/-- A code pushes one event, whatever it is. -/
theorem pushed_codes (s : Keyboard) (keys : List Key) : (pushed s (codes keys)).length = keys.length := by
  induction keys generalizing s with
  | nil => rfl
  | cons key rest ih =>
    show ((keyboardHandler s key.code.byte).2.toList ++ pushed _ (codes rest)).length = _
    rw [List.length_append, handler_event, ih, List.length_cons, Nat.add_comm]

/-- **Extended keys leave no fake input** if and only if there are none: the code behind
each prefix pushes an event. -/
theorem skips_extended_iff (s : Keyboard) (keys : List Key) :
    SkipsExtended s keys ↔ ∀ key ∈ keys, key.isPlain = true := by
  constructor
  · intro h
    have hevents : (outcome s (codes keys)).events.length = (outcome s (codes (plainKeys keys))).events.length := by
      rw [← wire_eq_codes, ← wire_eq_codes, h]
    have hlength : keys.length = (plainKeys keys).length := by
      rw [← pushed_codes s keys, ← pushed_codes s (plainKeys keys)]
      exact hevents
    exact List.length_filter_eq_length_iff.mp hlength.symm
  · intro h
    rw [SkipsExtended, plainKeys, List.filter_eq_self.mpr h]

/-- The press of an extended key whose code is that of the left shift key, and then `a`:
the shell reads `A`. -/
theorem fake_shift : ¬ SkipsExtended .start [.extended ⟨0x2A, by decide⟩, .plain ⟨0x1E, by decide⟩] := by
  intro h
  have hchars := congrArg Outcome.chars h
  exact absurd hchars (by decide)

end ArcMonark.Drivers
