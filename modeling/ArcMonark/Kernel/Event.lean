import ArcMonark.Library.RingBuffer
import ArcMonark.Library.DropQueue

/-! The input event queue (`kernel/event.c`).

Interrupt handlers push events, a task polls them. The queue is a ring of 256 slots:
when it is full, the producer moves the consumer's index on and so drops the oldest
event. `event_queue` says that it is the abstract queue of capacity 255. -/
namespace ArcMonark.Kernel
open Library

/-- `event_type_t` -/
inductive EventType where
  | none
  | keyDown
  | keyUp
  | mouseMove
  | mouseDown
  | mouseUp
  deriving DecidableEq, Repr

/-- `event_t` -/
structure Event where
  type : EventType
  ch : Char
  scancode : UInt8
  buttons : UInt8
  button : UInt8
  x : Int16
  y : Int16
  dx : Int16
  dy : Int16
  deriving DecidableEq

/-- `event_t e = {0}` -/
def Event.zero : Event :=
  {type := .none, ch := '\x00', scancode := 0, buttons := 0, button := 0, x := 0, y := 0, dx := 0, dy := 0}

def evqSize : Nat := 256

def evqMask : Nat := evqSize - 1

structure EventQueue where
  q : Nat → Event
  /-- Where the next event is written. -/
  qHead : Nat
  /-- Where the next event is read. -/
  qTail : Nat

def eventInit (s : EventQueue) : EventQueue := {s with qHead := 0, qTail := 0}

def eventPush (s : EventQueue) (e : Event) : EventQueue :=
  let next := (s.qHead + 1) % 2 ^ 32 &&& evqMask
  let s := if next = s.qTail then {s with qTail := (s.qTail + 1) % 2 ^ 32 &&& evqMask} else s
  {s with q := Function.update s.q s.qHead e, qHead := next}

/-- The event that `*out` gets, if the call returns 1. -/
def eventPoll (s : EventQueue) : Option Event × EventQueue :=
  if s.qTail = s.qHead then (none, s)
  else (some (s.q s.qTail), {s with qTail := (s.qTail + 1) % 2 ^ 32 &&& evqMask})

def eventPending (s : EventQueue) : Bool := decide (s.qHead ≠ s.qTail)

/-! ### What the ring holds -/

/-- The pending events, the oldest first. -/
def EventQueue.Holds (s : EventQueue) (xs : List Event) : Prop := Buffered evqSize s.q s.qHead s.qTail xs

section Holds
variable {s : EventQueue} {xs : List Event}

/-- An index moves on around the ring. -/
theorem advance {i : Nat} (hi : i < evqSize) : (i + 1) % 2 ^ 32 &&& evqMask = (i + 1) % evqSize := by
  unfold evqSize at hi
  rw [Nat.mod_eq_of_lt (by omega)]
  exact Nat.and_two_pow_sub_one_eq_mod (i + 1) 8

theorem eventInit_holds (s : EventQueue) : (eventInit s).Holds [] := .empty _ (show 0 < evqSize by decide)

/-- `event_push` drops the oldest event of a full queue, and appends. -/
theorem eventPush_holds (h : s.Holds xs) (e : Event) : (eventPush s e).Holds (DropQueue.push 255 xs e) := by
  have hnext := h.next_eq_tail
  have hroom := h.room
  unfold eventPush EventQueue.Holds
  simp only [advance h.head_lt, advance h.tail_lt]
  unfold DropQueue.push
  split
  · rename_i hfull
    have hlen : xs.length + 1 = 256 := hnext.mp hfull
    cases xs with
    | nil => cases hlen
    | cons x xs =>
      rw [List.length_cons] at hlen
      rw [if_pos (show (x :: xs).length = 255 by rw [List.length_cons]; omega)]
      exact h.pop.push (show xs.length + 1 < 256 by omega) e
  · rename_i hfree
    have hlen : xs.length + 1 ≠ 256 := fun heq => hfree (hnext.mpr heq)
    unfold evqSize at hroom
    rw [if_neg (show xs.length ≠ 255 by omega)]
    exact h.push (show xs.length + 1 < 256 by omega) e

/-- `event_poll` takes the oldest event out. -/
theorem eventPoll_holds (h : s.Holds xs) : (eventPoll s).1 = xs.head? ∧ (eventPoll s).2.Holds xs.tail := by
  unfold eventPoll
  split
  · rename_i heq
    obtain rfl := h.head_eq_tail.mp heq.symm
    exact ⟨rfl, h⟩
  · rename_i hne
    cases xs with
    | nil => exact absurd (h.head_eq_tail.mpr rfl).symm hne
    | cons x xs =>
      refine ⟨congrArg some h.first, ?_⟩
      unfold EventQueue.Holds
      simp only [advance h.tail_lt]
      exact h.pop

theorem eventPending_holds (h : s.Holds xs) : eventPending s = true ↔ xs ≠ [] := by
  rw [eventPending, decide_eq_true_eq, ne_eq, h.head_eq_tail]

end Holds

/-! ### Runs -/

/-- The queue after some calls. -/
def EventQueue.after (s : EventQueue) : List (DropQueue.Call Event) → EventQueue
  | [] => s
  | .push e :: calls => (eventPush s e).after calls
  | .poll :: calls => (eventPoll s).2.after calls

/-- What the calls of `event_poll` among them give. -/
def EventQueue.polls (s : EventQueue) : List (DropQueue.Call Event) → List (Option Event)
  | [] => []
  | .push e :: calls => (eventPush s e).polls calls
  | .poll :: calls => (eventPoll s).1 :: (eventPoll s).2.polls calls

/-- The calls do on the ring what they do on the abstract queue. -/
theorem EventQueue.Holds.run {s : EventQueue} {xs : List Event} (h : s.Holds xs)
    (calls : List (DropQueue.Call Event)) :
    (s.after calls).Holds (DropQueue.run 255 xs calls) ∧ s.polls calls = DropQueue.answers 255 xs calls := by
  induction calls generalizing s xs with
  | nil => exact ⟨h, rfl⟩
  | cons call calls ih =>
    cases call with
    | push e => exact ih (eventPush_holds h e)
    | poll =>
      obtain ⟨hfirst, hrest⟩ := eventPoll_holds h
      obtain ⟨hafter, hpolls⟩ := ih hrest
      refine ⟨hafter, ?_⟩
      rw [EventQueue.polls, hfirst, hpolls, DropQueue.answers]

/-- **The event queue is a drop-oldest queue** of capacity 255, for any calls after
`event_init`: the ring holds what the abstract queue holds, every poll answers what it
answers, and `event_pending` tells whether it is empty. So the polled events are pushed
ones with increasing numbers, and an event that is neither polled nor pending has been
followed by 255 later ones. -/
theorem event_queue (s₀ : EventQueue) (calls : List (DropQueue.Call Event)) :
    ((eventInit s₀).after calls).Holds (DropQueue.run 255 [] calls) ∧
    (eventInit s₀).polls calls = DropQueue.answers 255 [] calls ∧
    (eventPending ((eventInit s₀).after calls) = true ↔ DropQueue.run 255 [] calls ≠ []) ∧
    (DropQueue.deliveredNumbers 255 calls).Pairwise (· < ·) ∧
    (DropQueue.deliveredNumbers 255 calls).map (fun j => (DropQueue.pushed calls)[j]?) =
      ((eventInit s₀).polls calls).reduceOption.map some ∧
    ∀ j, j < (DropQueue.pushed calls).length → j ∉ DropQueue.deliveredNumbers 255 calls →
      (DropQueue.pushed calls).length ≤ j + (DropQueue.run 255 [] calls).length ∨
        j + 255 < (DropQueue.pushed calls).length := by
  obtain ⟨hholds, hpolls⟩ := (eventInit_holds s₀).run calls
  obtain ⟨hincreasing, hnumbers, hlost⟩ := DropQueue.delivered_numbers (show 0 < 255 by decide) calls
  refine ⟨hholds, hpolls, eventPending_holds hholds, hincreasing, ?_, hlost⟩
  rw [hnumbers, hpolls, DropQueue.answers_delivered]

end ArcMonark.Kernel
