import ArcMonark.Library.Bytes
import ArcMonark.Library.Words
import Mathlib.Logic.Function.Basic

/-! Objects in memory, and the strings in them.

An object is what a pointer may touch: a byte at some addresses, and none at the others.
A read or a write outside fails, so that code that runs to its end on an object has
stayed inside it. `StringAt` is a string with its terminating zero, `Wrote` says what a
run of writes leaves, and `firstDiff` compares two lists by the first place where they
differ: its sign is their lexicographic order. -/
namespace ArcMonark.Library

abbrev Object := Nat → Option Byte

namespace Object

/-- A write to a byte that is there. -/
def write (m : Object) (a : Nat) (v : Byte) : Option Object := (m a).map fun _ => Function.update m a (some v)

/-- The bytes of the string at `a` with its terminator, and no others. -/
def only (m : Object) (a : Nat) (s : List Byte) : Object := fun x => if a ≤ x ∧ x ≤ a + s.length then m x else none

/-- The bytes of the list from `a` up, and nothing else. -/
def bytes (a : Nat) (s : List Byte) : Object := fun x => if a ≤ x then s[x - a]? else none

/-- `n` bytes are there from `a` up, at addresses that a pointer can have. -/
structure Room (m : Object) (a n : Nat) : Prop where
  notNull : a ≠ 0
  inside : a + n ≤ 2 ^ 64
  bytes : ∀ i, i < n → (m (a + i)).isSome

theorem write_of_some {m : Object} {a : Nat} (h : (m a).isSome) (v : Byte) :
    m.write a v = some (Function.update m a (some v)) := by
  obtain ⟨w, hw⟩ := Option.isSome_iff_exists.mp h
  rw [write, hw, Option.map_some]

theorem bytes_add (a i : Nat) (s : List Byte) : bytes a s (a + i) = s[i]? := by
  rw [bytes, if_pos (Nat.le_add_right a i), Nat.add_sub_cancel_left]

theorem bytes_room {a : Nat} {s : List Byte} (hnull : a ≠ 0) (hin : a + s.length ≤ 2 ^ 64) :
    (bytes a s).Room a s.length := by
  refine ⟨hnull, hin, fun i hi => ?_⟩
  rw [bytes_add, List.getElem?_eq_getElem hi]
  rfl

end Object

/-! ### Strings -/

/-- A string stands at `a`: bytes that are not zero, and a zero. -/
inductive StringAt (m : Object) : Nat → List Byte → Prop where
  | stop {a} (hnull : a ≠ 0) (hlt : a < 2 ^ 64) (hstop : m a = some 0) : StringAt m a []
  | char {a c s} (hnull : a ≠ 0) (hchar : m a = some c) (hc : c ≠ 0) (hrest : StringAt m (a + 1) s) :
      StringAt m a (c :: s)

namespace StringAt
variable {m m' : Object} {a : Nat} {s t : List Byte}

theorem notNull (h : StringAt m a s) : a ≠ 0 := by
  cases h with
  | stop hnull => exact hnull
  | char hnull => exact hnull

/-- The terminator has an address too. -/
theorem inside (h : StringAt m a s) : a + s.length < 2 ^ 64 := by
  induction h with
  | stop _ hlt => exact hlt
  | char _ _ _ _ ih =>
    rw [List.length_cons]
    omega

/-- The pointer to the next character does not wrap. -/
theorem step (h : StringAt m (a + 1) s) : add64 a 1 = a + 1 := by
  have hin := h.inside
  exact add64_eq (by omega)

theorem nonzero (h : StringAt m a s) : ∀ c ∈ s, c ≠ 0 := by
  induction h with
  | stop => simp
  | char _ _ hc _ ih => exact List.forall_mem_cons.mpr ⟨hc, ih⟩

/-- There is one string at an address. -/
theorem unique (h : StringAt m a s) (h' : StringAt m a t) : s = t := by
  induction h generalizing t with
  | stop _ _ hstop =>
    cases h' with
    | stop => rfl
    | char _ hchar hc =>
      rw [hstop] at hchar
      exact absurd (Option.some.inj hchar).symm hc
  | char _ hchar hc _ ih =>
    cases h' with
    | stop _ _ hstop =>
      rw [hchar] at hstop
      exact absurd (Option.some.inj hstop) hc
    | char _ hchar' _ hrest' =>
      rw [hchar] at hchar'
      rw [Option.some.inj hchar', ih hrest']

/-- The bytes of the string are all that it takes. -/
theorem congr (h : StringAt m a s) (hsame : ∀ x, a ≤ x → x ≤ a + s.length → m' x = m x) : StringAt m' a s := by
  induction h with
  | stop hnull hlt hstop => exact .stop hnull hlt ((hsame _ (Nat.le_refl _) (Nat.le_refl _)).trans hstop)
  | char hnull hchar hc _ ih =>
    rw [List.length_cons] at hsame
    exact .char hnull ((hsame _ (Nat.le_refl _) (by omega)).trans hchar) hc
      (ih fun x hlo hhi => hsame x (by omega) (by omega))

theorem only (h : StringAt m a s) : StringAt (m.only a s) a s :=
  h.congr fun _ hlo hhi => if_pos ⟨hlo, hhi⟩

/-- What follows the first part is a string as well. -/
theorem drop {p : List Byte} (h : StringAt m a (p ++ t)) : StringAt m (a + p.length) t := by
  induction p generalizing a with
  | nil => exact h
  | cons c p ih =>
    cases h with
    | char _ _ _ hrest =>
      rw [List.length_cons, Nat.add_comm p.length, ← Nat.add_assoc]
      exact ih hrest

end StringAt

/-! ### Writing a list of bytes -/

/-- The bytes from `a` up are those of the list, and no others have changed. -/
structure Wrote (m m' : Object) (a : Nat) (s : List Byte) : Prop where
  inside : ∀ i, (hi : i < s.length) → m' (a + i) = some s[i]
  outside : ∀ x, x < a ∨ a + s.length ≤ x → m' x = m x

namespace Wrote
variable {m m₁ m' : Object} {a b : Nat} {v : Byte} {s t : List Byte}

theorem nil (m : Object) (a : Nat) : Wrote m m a [] := ⟨fun i hi => absurd hi (Nat.not_lt_zero i), fun _ _ => rfl⟩

theorem one (m : Object) (a : Nat) (v : Byte) : Wrote m (Function.update m a (some v)) a [v] := by
  refine ⟨fun i hi => ?_, fun x hx => ?_⟩
  · cases Nat.lt_one_iff.mp hi
    exact Function.update_self _ _ _
  · rw [List.length_singleton] at hx
    exact Function.update_of_ne (by omega) _ _

/-- A list behind another one. -/
theorem append (h : Wrote m m₁ a s) (h' : Wrote m₁ m' (a + s.length) t) : Wrote m m' a (s ++ t) := by
  refine ⟨fun i hi => ?_, fun x hx => ?_⟩
  · rw [List.length_append] at hi
    by_cases hs : i < s.length
    · rw [h'.outside _ (by omega), h.inside i hs, List.getElem_append_left hs]
    · have hin := h'.inside (i - s.length) (by omega)
      rw [show a + s.length + (i - s.length) = a + i by omega] at hin
      rw [hin, List.getElem_append_right (by omega)]
  · rw [List.length_append] at hx
    rw [h'.outside x (by omega), h.outside x (by omega)]

/-- The next byte, as long as there is room. -/
theorem next {n j : Nat} (h : Wrote m m₁ a s) (hroom : m.Room a n) (hj : s.length = j) (hlt : j < n) (v : Byte) :
    ∃ m', m₁.write (add64 a j) v = some m' ∧ Wrote m m' a (s ++ [v]) := by
  subst hj
  have hin := hroom.inside
  have hsome : (m₁ (a + s.length)).isSome := by
    rw [h.outside _ (by omega)]
    exact hroom.bytes _ hlt
  rw [add64_eq (by omega)]
  exact ⟨_, Object.write_of_some hsome v, h.append (.one m₁ _ v)⟩

/-- Writing takes no byte away. -/
theorem room {n : Nat} (h : Wrote m m' a s) (hroom : m.Room b n) : m'.Room b n := by
  refine ⟨hroom.notNull, hroom.inside, fun i hi => ?_⟩
  by_cases hin : a ≤ b + i ∧ b + i < a + s.length
  · have hbyte := h.inside (b + i - a) (by omega)
    rw [Nat.add_sub_cancel' hin.1] at hbyte
    rw [hbyte]
    rfl
  · rw [h.outside _ (by omega)]
    exact hroom.bytes i hi

/-- A list with a zero behind it is a string. -/
theorem string (h : Wrote m m' a (s ++ [0])) (hnull : a ≠ 0) (hlt : a + s.length < 2 ^ 64) (hs : ∀ c ∈ s, c ≠ 0) :
    StringAt m' a s := by
  obtain ⟨hin, -⟩ := h
  induction s generalizing a with
  | nil => exact .stop hnull hlt (hin 0 (by simp))
  | cons c s ih =>
    rw [List.length_cons] at hlt
    refine .char hnull (hin 0 (by simp)) (hs c List.mem_cons_self) (ih (by omega) (by omega) ?_ fun i hi => ?_)
    · exact fun d hd => hs d (List.mem_cons_of_mem _ hd)
    · rw [show a + 1 + i = a + (i + 1) by omega]
      exact hin (i + 1) (by simpa using hi)

end Wrote

theorem Object.bytes_wrote (a : Nat) (s : List Byte) : Wrote (fun _ => none) (bytes a s) a s := by
  refine ⟨fun i hi => ?_, fun x hx => ?_⟩
  · rw [bytes_add, List.getElem?_eq_getElem hi]
  · rw [bytes]
    split
    · exact List.getElem?_eq_none (by omega)
    · rfl

/-- A string by itself. -/
theorem Object.bytes_string {a : Nat} {s : List Byte} (hnull : a ≠ 0) (hlt : a + s.length < 2 ^ 64)
    (hs : ∀ c ∈ s, c ≠ 0) : StringAt (bytes a (s ++ [0])) a s := (bytes_wrote a _).string hnull hlt hs

/-! ### Literals -/

/-- The bytes of a string literal. -/
def text (w : String) : List Byte := w.toList.map fun c => BitVec.ofNat 8 c.toNat

/-- A literal without a zero in it, so that all of it is a string. -/
def IsText (w : String) : Prop := (∀ c ∈ text w, c ≠ 0) ∧ (text w).length < 2 ^ 32

theorem text_ofList (l : List Char) : text (.ofList l) = l.map fun c => BitVec.ofNat 8 c.toNat := by
  rw [text, String.toList_ofList]

/-- A literal is unified with the list of its characters, which is fast to check. -/
theorem IsText.ofList {l : List Char} (h : l.all fun c => BitVec.ofNat 8 c.toNat ≠ 0) (hlen : l.length < 2 ^ 32) :
    IsText (.ofList l) := by
  unfold IsText
  rw [text_ofList, List.length_map]
  exact ⟨by simpa using h, hlen⟩

/-- Where literals stand. Each pointer reads its own object, so they may share a place. -/
def literalAt : Nat := 0x1000

def literal (w : String) : Object := .bytes literalAt (text w ++ [0])

theorem literal_string {w : String} (h : IsText w) : StringAt (literal w) literalAt (text w) := by
  have hlen := h.2
  exact Object.bytes_string (by decide) (by unfold literalAt; omega) h.1

/-! ### The first difference -/

section FirstDiff
variable {α : Type} [DecidableEq α] (rank : α → Int)

/-- How the lists differ at the first place where they do, by the rank of the members; the
end of a list ranks zero. -/
def firstDiff : List α → List α → Int
  | [], [] => 0
  | [], y :: _ => -rank y
  | x :: _, [] => rank x
  | x :: xs, y :: ys => if x = y then firstDiff xs ys else rank x - rank y

theorem firstDiff_swap (xs ys : List α) : firstDiff rank ys xs = -firstDiff rank xs ys := by
  induction xs, ys using firstDiff.induct with
  | case1 => rfl
  | case2 => exact (Int.neg_neg _).symm
  | case3 => rfl
  | case4 xs y ys ih => rw [firstDiff, firstDiff, if_pos rfl, if_pos rfl, ih]
  | case5 x xs y ys hne =>
    rw [firstDiff, firstDiff, if_neg hne, if_neg (Ne.symm hne)]
    omega

variable {rank}

/-- Members of positive rank differ from the end of a list. -/
theorem firstDiff_eq_zero_iff (hinj : ∀ {x y}, rank x = rank y → x = y) {xs ys : List α} (hxs : ∀ x ∈ xs, 0 < rank x)
    (hys : ∀ y ∈ ys, 0 < rank y) : firstDiff rank xs ys = 0 ↔ xs = ys := by
  induction xs, ys using firstDiff.induct with
  | case1 => simp [firstDiff]
  | case2 y ys =>
    have := hys y List.mem_cons_self
    simp only [firstDiff, reduceCtorEq, iff_false]
    omega
  | case3 x xs =>
    have := hxs x List.mem_cons_self
    simp only [firstDiff, reduceCtorEq, iff_false]
    omega
  | case4 xs y ys ih =>
    rw [firstDiff, if_pos rfl, ih (List.forall_mem_cons.mp hxs).2 (List.forall_mem_cons.mp hys).2]
    simp
  | case5 x xs y ys hne =>
    have hrank : rank x ≠ rank y := fun heq => hne (hinj heq)
    rw [firstDiff, if_neg hne]
    simp only [List.cons.injEq, hne, false_and, iff_false]
    omega

/-- The sign is the lexicographic order. -/
theorem firstDiff_neg_iff {r : α → α → Prop} (hr : ∀ {x y}, rank x < rank y ↔ r x y) {xs ys : List α}
    (hxs : ∀ x ∈ xs, 0 < rank x) (hys : ∀ y ∈ ys, 0 < rank y) : firstDiff rank xs ys < 0 ↔ List.Lex r xs ys := by
  induction xs, ys using firstDiff.induct with
  | case1 => simp [firstDiff]
  | case2 y ys =>
    have := hys y List.mem_cons_self
    simp only [firstDiff, List.nil_lex_cons', iff_true]
    omega
  | case3 x xs =>
    have := hxs x List.mem_cons_self
    simp only [firstDiff, List.not_lex_nil, iff_false]
    omega
  | case4 xs y ys ih =>
    have hirrefl : ¬ r y y := fun h => Int.lt_irrefl _ (hr.mpr h)
    rw [firstDiff, if_pos rfl, ih (List.forall_mem_cons.mp hxs).2 (List.forall_mem_cons.mp hys).2,
      List.cons_lex_cons_iff]
    simp [hirrefl]
  | case5 x xs y ys hne =>
    rw [firstDiff, if_neg hne, List.cons_lex_cons_iff, ← hr]
    simp only [hne, false_and, or_false]
    omega

end FirstDiff

end ArcMonark.Library
