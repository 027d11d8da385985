import ArcMonark.Drivers.KeyboardCaps
import ArcMonark.Drivers.KeyboardRing

/-! Typing a text (`drivers/keyboard.c`).

What the handler stores depends on the codes and on the two flags alone. `decode` says so
without the ring, and `keystroke` is what a keyboard sends for a character.
`typed_text_arrives`: with caps lock on or off, the text that is typed is the text that
`keyboard_getchar` returns, however the handler and its reader take turns. -/
namespace ArcMonark.Drivers
open Library Kernel

/-! ### What codes mean -/

/-- The characters that the codes ask to store. -/
def decode (s : Keyboard) : List UInt8 → List Char
  | [] => []
  | sc :: codes => (typed s sc).toList ++ decode (keyboardHandler s sc).1 codes

/-- The two keyboards have the same flags. -/
structure SameFlags (s s' : Keyboard) : Prop where
  shift : s'.shiftDown = s.shiftDown
  caps : s'.capsLock = s.capsLock

section Decode
variable {s s' : Keyboard} {sc : UInt8}

theorem SameFlags.handler (h : SameFlags s s') (sc : UInt8) :
    SameFlags (keyboardHandler s sc).1 (keyboardHandler s' sc).1 := by
  constructor
  · rw [handler_shiftDown, handler_shiftDown, h.shift]
  · rw [handler_capsLock, handler_capsLock, h.caps]

theorem SameFlags.modifiers (h : SameFlags s s') (sc : UInt8) :
    SameFlags (updateModifiers s sc) (updateModifiers s' sc) := by
  unfold updateModifiers
  split
  · exact ⟨rfl, h.caps⟩
  · split
    · exact ⟨rfl, h.caps⟩
    · split
      · exact ⟨h.shift, congrArg (· ^^^ 1) h.caps⟩
      · exact h

theorem SameFlags.typed (h : SameFlags s s') (sc : UInt8) : typed s' sc = typed s sc := by
  have hmodifiers := h.modifiers sc
  have hchar : asciiOf (updateModifiers s' sc) (sc &&& 0x7F) = asciiOf (updateModifiers s sc) (sc &&& 0x7F) := by
    unfold asciiOf
    rw [hmodifiers.shift, hmodifiers.caps]
  unfold Drivers.typed
  rw [hchar]

theorem SameFlags.decode (h : SameFlags s s') (codes : List UInt8) : decode s' codes = decode s codes := by
  induction codes generalizing s s' with
  | nil => rfl
  | cons sc codes ih => rw [Drivers.decode, Drivers.decode, h.typed, ih (h.handler sc)]

theorem SameFlags.scan (h : SameFlags s s') (codes : List UInt8) : SameFlags (scan s codes) (scan s' codes) := by
  induction codes generalizing s s' with
  | nil => exact h
  | cons sc codes ih => exact ih (h.handler sc)

theorem decode_append (s : Keyboard) (codes codes' : List UInt8) :
    decode s (codes ++ codes') = decode s codes ++ decode (scan s codes) codes' := by
  induction codes generalizing s with
  | nil => rfl
  | cons sc codes ih => rw [List.cons_append, decode, decode, ih, List.append_assoc]; rfl

theorem scan_append (s : Keyboard) (codes codes' : List UInt8) :
    scan s (codes ++ codes') = scan (scan s codes) codes' :=
  List.foldl_append

end Decode

/-! ### Keystrokes -/

/-- A character with a key of its own. -/
def Typable (c : Char) : Prop := c ≠ '\x00' ∧ c ∈ scancodeAscii ++ scancodeAsciiShift

instance (c : Char) : Decidable (Typable c) := inferInstanceAs (Decidable (_ ∧ _))

/-- The key of a character, and whether it is the character with shift. -/
def keyOf (c : Char) : UInt8 × Bool :=
  if c ∈ scancodeAscii then (.ofNat (scancodeAscii.idxOf c), false) else (.ofNat (scancodeAsciiShift.idxOf c), true)

/-- The key is pressed and released, with shift held where the character needs it. With caps
lock on, letters need it the other way round. -/
def keystroke (caps : Bool) (c : Char) : List UInt8 :=
  let (code, shifted) := keyOf c
  let letter := isLetter (scancodeAscii.getD code.toNat '\x00')
  let key := [code, code ||| 0x80]
  if shifted ^^ (caps && letter) then [scLshiftDown] ++ key ++ [scLshiftUp] else key

/-- Caps lock is pressed and released, if it is to be on. -/
def capsStroke (caps : Bool) : List UInt8 := if caps then [scCapsDown, scCapsUp] else []

/-- No shift key is held. -/
def atRest (caps : Bool) : Keyboard := {Keyboard.start with capsLock := caps.toNat}

/-- Checked for the characters of the tables, one after another. -/
theorem keystroke_decodes (caps : Bool) : ∀ c ∈ scancodeAscii ++ scancodeAsciiShift, c ≠ '\x00' →
    decode (atRest caps) (keystroke caps c) = [c] ∧ (scan (atRest caps) (keystroke caps c)).shiftDown = 0 ∧
      (scan (atRest caps) (keystroke caps c)).capsLock = caps.toNat := by
  suffices hall : (scancodeAscii ++ scancodeAsciiShift).all fun c => c ≠ '\x00' →
      decode (atRest caps) (keystroke caps c) = [c] ∧ (scan (atRest caps) (keystroke caps c)).shiftDown = 0 ∧
        (scan (atRest caps) (keystroke caps c)).capsLock = caps.toNat from
    fun c hc => of_decide_eq_true (List.all_eq_true.mp hall c hc)
  cases caps <;> decide +kernel

/-- Each keystroke gives its character, and leaves the flags as they were. -/
theorem text_decodes (caps : Bool) {text : List Char} (htext : ∀ c ∈ text, Typable c) {s : Keyboard}
    (hrest : SameFlags (atRest caps) s) : decode s (text.flatMap (keystroke caps)) = text := by
  induction text generalizing s with
  | nil => rfl
  | cons c text ih =>
    obtain ⟨⟨hne, hkey⟩, htext⟩ := List.forall_mem_cons.mp htext
    obtain ⟨hdecode, hshift, hcaps⟩ := keystroke_decodes caps c hkey hne
    have hflags := hrest.scan (keystroke caps c)
    have hrest' : SameFlags (atRest caps) (scan s (keystroke caps c)) :=
      ⟨hflags.shift.trans hshift, hflags.caps.trans hcaps⟩
    rw [List.flatMap_cons, decode_append, hrest.decode, hdecode, ih htext hrest']
    rfl

theorem capsStroke_decodes (caps : Bool) :
    decode .start (capsStroke caps) = [] ∧ SameFlags (atRest caps) (scan .start (capsStroke caps)) := by
  cases caps <;> exact ⟨by decide, by decide, by decide⟩

/-! ### Runs -/

/-- The codes among the events. -/
def codesOf (es : List TypingEvent) : List UInt8 :=
  es.filterMap fun
    | .scancode sc => some sc
    | _ => none

/-- A code comes when fewer than 255 characters are pending. -/
def KeepsUp (s : Typing) : TypingEvent → Prop
  | .scancode _ => s.accepted.length < s.returned.length + 255
  | _ => True

instance (s : Typing) : (e : TypingEvent) → Decidable (KeepsUp s e)
  | .scancode _ => inferInstanceAs (Decidable (_ < _))
  | .test | .read | .store => isTrue trivial

section Runs
variable {s : Typing} {es : List TypingEvent}

/-- The ring takes what the codes mean. -/
theorem accepted_decode (hrun : (typing.restrict KeepsUp).Run ⟨.start, .test, [], []⟩ es s) :
    s.accepted = decode .start (codesOf es) ∧ SameFlags (scan .start (codesOf es)) s.kbd := by
  induction hrun with
  | nil => exact ⟨rfl, rfl, rfl⟩
  | @snoc es s e s' hrun hstep ih =>
    obtain ⟨haccepted, hflags⟩ := ih
    obtain ⟨hroom, hstep⟩ := hstep
    have hcodes : codesOf (es ++ [e]) = codesOf es ++ codesOf [e] := List.filterMap_append
    obtain ⟨pending, hinv⟩ := typing_reachable (System.restrict_reachable (hrun.reachable rfl))
    rw [hcodes]
    cases hstep with
    | scancode sc =>
      have hlength := congrArg List.length hinv.accepted
      rw [List.length_append] at hlength
      change s.accepted.length < s.returned.length + 255 at hroom
      have hstored : stored s.kbd (keyboardHandler s.kbd sc).1 = (typed s.kbd sc).toList := by
        obtain ⟨-, -, hnone, hsome⟩ := handler_holds hinv.holds sc
        cases htyped : typed s.kbd sc with
        | none => exact hnone htyped
        | some c =>
          rcases hsome c htyped with ⟨_, hone⟩ | ⟨hfull, _⟩
          · exact hone
          · omega
      refine ⟨?_, ?_⟩
      · rw [decode_append, hstored, haccepted, hflags.typed]
        exact congrArg (_ ++ ·) (List.append_nil _).symm
      · rw [scan_append]
        exact hflags.handler sc
    | wait => exact ⟨by simpa [codesOf] using haccepted, by simpa [codesOf] using hflags⟩
    | test => exact ⟨by simpa [codesOf] using haccepted, by simpa [codesOf] using hflags⟩
    | read => exact ⟨by simpa [codesOf] using haccepted, by simpa [codesOf] using hflags⟩
    | store => exact ⟨by simpa [codesOf] using haccepted, by simpa [codesOf] using ⟨hflags.shift, hflags.caps⟩⟩

end Runs

/-- **A typed text arrives.** Caps lock is switched or not, and a text is typed on keys of
the two tables, at any moments between the steps of `keyboard_getchar`, but not when 255
characters are pending. Then the handler has accepted the text; what has been returned is
its beginning and the ring holds the rest; and when the ring is empty, all of it has been
returned. -/
theorem typed_text_arrives (caps : Bool) {text : List Char} (htext : ∀ c ∈ text, Typable c) {es : List TypingEvent}
    {s : Typing} (hrun : (typing.restrict KeepsUp).Run ⟨.start, .test, [], []⟩ es s)
    (hcodes : codesOf es = capsStroke caps ++ text.flatMap (keystroke caps)) :
    s.accepted = text ∧ (∃ pending, text = s.returned ++ pending ∧ s.kbd.Holds pending) ∧
      (keyboardHaskey s.kbd = false → s.returned = text) := by
  obtain ⟨haccepted, -⟩ := accepted_decode hrun
  obtain ⟨hnothing, hrest⟩ := capsStroke_decodes caps
  have hall : s.accepted = text := by
    rw [haccepted, hcodes, decode_append, hnothing, text_decodes caps htext hrest]
    rfl
  obtain ⟨pending, hinv⟩ := typing_reachable (System.restrict_reachable (hrun.reachable rfl))
  have hsplit : text = s.returned ++ pending := hall.symm.trans hinv.accepted
  refine ⟨hall, ⟨pending, hsplit, hinv.holds⟩, fun hkey => ?_⟩
  have hempty : s.kbd.kbdHead = s.kbd.kbdTail := by simpa [keyboardHaskey] using hkey
  rw [hsplit, hinv.holds.head_eq_tail.mp hempty, List.append_nil]

/-- `A` is typed with caps lock on, and read before its key is released. -/
theorem typed_text_arrives_capital : ∃ es s,
    (typing.restrict KeepsUp).Run ⟨.start, .test, [], []⟩ es s ∧ es.length = 7 ∧ s.returned = ['A'] := by
  have hcaps := System.Run.snoc (.snoc (System.Run.nil (S := typing.restrict KeepsUp) (s := ⟨.start, .test, [], []⟩))
    ⟨by decide, .scancode 0x3A⟩) ⟨by decide, .scancode 0xBA⟩
  have hpressed := hcaps.snoc ⟨by decide, .scancode 0x1E⟩
  have htested := hpressed.snoc ⟨show KeepsUp _ .test from trivial, .test rfl (by decide)⟩
  have hread := htested.snoc ⟨show KeepsUp _ .read from trivial, .read rfl⟩
  have hstored := hread.snoc ⟨show KeepsUp _ .store from trivial, .store rfl⟩
  have hrun := hstored.snoc ⟨by decide, .scancode 0x9E⟩
  have htext : ∀ c ∈ ['A'], Typable c := List.forall_mem_singleton.mpr (by decide)
  obtain ⟨_, _, hall⟩ := typed_text_arrives true htext hrun (by decide)
  exact ⟨_, _, hrun, rfl, hall (by decide)⟩

end ArcMonark.Drivers
