import ArcMonark.Library.Objects
import ArcMonark.Library.Words
import ArcMonark.Machine

/-! Comparing strings (`lib/string.c`).

`strcmp` goes on while both strings have the same character, and compares the characters
where they differ as unsigned bytes. `strcmp_lexicographic`: this is the lexicographic
order of the bytes, `streq` is equality and `str_starts_with` takes a first part off.
Each pointer reads its own object, so that a function that returns has not read behind
the end of a string. -/
namespace ArcMonark.Lib
open Library

/-- What the comparison of plain characters sees; a plain `char` is signed here. -/
def char (c : Byte) : Int := c.toInt

/-- The loop of `strcmp`. After `2 ^ 64` rounds both addresses are where they were, and the
loop never ends. -/
def strcmpWhile (A B : Object) : (fuel a b : Nat) → Option (Nat × Nat)
  | 0, _, _ => none
  | fuel + 1, a, b => do
    if char (← A a) ≠ 0 then
      if char (← A a) = char (← B b) then strcmpWhile A B fuel (add64 a 1) (add64 b 1) else return (a, b)
    else return (a, b)

/-- `(int)(uint8_t)*a - (int)(uint8_t)*b`, where the loop has stopped. -/
def strcmp (A B : Object) (a b : Nat) : Option Int := do
  let (a, b) ← strcmpWhile A B (2 ^ 64) a b
  return ((← A a).toNat : Int) - (← B b).toNat

def streq (A B : Object) (a b : Nat) : Option Int := do
  return if (← strcmp A B a b) = 0 then 1 else 0

/-- The loop of `str_starts_with`. -/
def strStartsWithWhile (S P : Object) : (fuel s pre : Nat) → Option Nat
  | 0, _, _ => none
  | fuel + 1, s, pre => do
    if char (← P pre) ≠ 0 then
      if char (← S s) ≠ char (← P pre) then return null
      else strStartsWithWhile S P fuel (add64 s 1) (add64 pre 1)
    else return s

def strStartsWith (S P : Object) (s pre : Nat) : Option Nat := strStartsWithWhile S P (2 ^ 64) s pre

theorem char_inj {c d : Byte} : char c = char d ↔ c = d := BitVec.toInt_inj

theorem char_eq_zero {c : Byte} : char c = 0 ↔ c = 0 := char_inj (d := 0)

/-- A character by its unsigned value. -/
def rank (c : Byte) : Int := c.toNat

theorem rank_pos {c : Byte} (hc : c ≠ 0) : 0 < rank c := by
  have : c.toNat ≠ 0 := fun heq => hc (BitVec.eq_of_toNat_eq heq)
  unfold rank
  omega

theorem rank_lt_iff {c d : Byte} : rank c < rank d ↔ c < d := Int.ofNat_lt

theorem rank_inj {c d : Byte} (h : rank c = rank d) : c = d := BitVec.eq_of_toNat_eq (Int.ofNat_inj.mp h)

section Strings
variable {A B : Object} {a b fuel : Nat} {s t : List Byte} {x y : Byte}

theorem strcmpWhile_next (hA : A a = some x) (hB : B b = some x) (hx : x ≠ 0) :
    strcmpWhile A B (fuel + 1) a b = strcmpWhile A B fuel (add64 a 1) (add64 b 1) := by
  have hnot : char x ≠ 0 := fun heq => hx (char_eq_zero.mp heq)
  simp [strcmpWhile, hA, hB, hnot]

theorem strcmpWhile_stop (hA : A a = some x) (hB : B b = some y) (hxy : x = 0 ∨ x ≠ y) :
    strcmpWhile A B (fuel + 1) a b = some (a, b) := by
  rcases hxy with rfl | hne
  · simp [strcmpWhile, hA, show char 0#8 = 0 from rfl]
  · have hnot : char x ≠ char y := fun heq => hne (char_inj.mp heq)
    simp [strcmpWhile, hA, hB, hnot]

/-- The loop stops at the first difference, or at the end of both strings. -/
theorem strcmpWhile_stops (ha : StringAt A a s) (hb : StringAt B b t) (hfuel : s.length < fuel) :
    ∃ a' b' x y, strcmpWhile A B fuel a b = some (a', b') ∧ A a' = some x ∧ B b' = some y ∧
      rank x - rank y = firstDiff rank s t := by
  obtain ⟨fuel, rfl⟩ := Nat.exists_eq_succ_of_ne_zero (Nat.ne_zero_of_lt hfuel)
  induction ha generalizing b t fuel with
  | @stop a _ _ hA =>
    cases hb with
    | stop _ _ hB => exact ⟨a, b, 0, 0, strcmpWhile_stop hA hB (.inl rfl), hA, hB, rfl⟩
    | @char _ d t _ hB => exact ⟨a, b, 0, d, strcmpWhile_stop hA hB (.inl rfl), hA, hB, Int.zero_sub _⟩
  | @char a c s _ hA hc hrest ih =>
    cases hb with
    | stop _ _ hB => exact ⟨a, b, c, 0, strcmpWhile_stop hA hB (.inr hc), hA, hB, Int.sub_zero _⟩
    | @char _ d t _ hB hd hrest' =>
      by_cases hcd : c = d
      · subst hcd
        rw [List.length_cons] at hfuel
        obtain ⟨fuel, rfl⟩ := Nat.exists_eq_succ_of_ne_zero (show fuel ≠ 0 by omega)
        rw [strcmpWhile_next hA hB hc, hrest.step, hrest'.step, firstDiff, if_pos rfl]
        exact ih hrest' fuel (by omega)
      · refine ⟨a, b, c, d, strcmpWhile_stop hA hB (.inr hcd), hA, hB, ?_⟩
        rw [firstDiff, if_neg hcd]

theorem strcmp_eq (ha : StringAt A a s) (hb : StringAt B b t) : strcmp A B a b = some (firstDiff rank s t) := by
  have hlen := ha.inside
  obtain ⟨a', b', x, y, hrun, hA, hB, hdiff⟩ := strcmpWhile_stops ha hb (show s.length < 2 ^ 64 by omega)
  rw [← hdiff, strcmp, hrun]
  simp [hA, hB, rank]

/-! ### A first part -/

theorem strStartsWithWhile_next (hA : A a = some x) (hB : B b = some x) (hx : x ≠ 0) :
    strStartsWithWhile A B (fuel + 1) a b = strStartsWithWhile A B fuel (add64 a 1) (add64 b 1) := by
  have hnot : char x ≠ 0 := fun heq => hx (char_eq_zero.mp heq)
  simp [strStartsWithWhile, hA, hB, hnot]

theorem strStartsWithWhile_differ (hA : A a = some x) (hB : B b = some y) (hy : y ≠ 0) (hxy : x ≠ y) :
    strStartsWithWhile A B (fuel + 1) a b = some null := by
  have hnot : char y ≠ 0 := fun heq => hy (char_eq_zero.mp heq)
  have hdiff : char x ≠ char y := fun heq => hxy (char_inj.mp heq)
  simp [strStartsWithWhile, hA, hB, hnot, hdiff]

theorem strStartsWithWhile_end (hB : B b = some 0) : strStartsWithWhile A B (fuel + 1) a b = some a := by
  simp [strStartsWithWhile, hB, show char 0#8 = 0 from rfl]

/-- With the first part in front it returns the place behind it, and null without. -/
theorem strStartsWithWhile_eq (ha : StringAt A a s) (hb : StringAt B b t) (hfuel : t.length < fuel) :
    strStartsWithWhile A B fuel a b = some (if t <+: s then a + t.length else null) := by
  obtain ⟨fuel, rfl⟩ := Nat.exists_eq_succ_of_ne_zero (Nat.ne_zero_of_lt hfuel)
  induction hb generalizing a s fuel with
  | stop _ _ hB =>
    rw [strStartsWithWhile_end hB, if_pos List.nil_prefix]
    rfl
  | @char b d t _ hB hd hrest' ih =>
    cases ha with
    | stop _ _ hA => rw [strStartsWithWhile_differ hA hB hd hd.symm, if_neg (by simp)]
    | @char _ c s _ hA hc hrest =>
      by_cases hcd : c = d
      · subst hcd
        rw [List.length_cons] at hfuel
        obtain ⟨fuel, rfl⟩ := Nat.exists_eq_succ_of_ne_zero (show fuel ≠ 0 by omega)
        rw [strStartsWithWhile_next hA hB hc, hrest.step, hrest'.step, ih hrest fuel (by omega)]
        simp only [List.cons_prefix_cons, true_and, List.length_cons, Nat.add_assoc, Nat.add_comm 1]
      · have hnot : ¬ d :: t <+: c :: s := fun hpre => hcd (List.cons_prefix_cons.mp hpre).1.symm
        rw [strStartsWithWhile_differ hA hB hd hcd, if_neg hnot]

theorem strStartsWith_eq (ha : StringAt A a s) (hb : StringAt B b t) :
    strStartsWith A B a b = some (if t <+: s then a + t.length else null) := by
  have hlen := hb.inside
  exact strStartsWithWhile_eq ha hb (by omega)

/-! ### The order -/

theorem strcmp_swap (ha : StringAt A a s) (hb : StringAt B b t) {r : Int} (hr : strcmp A B a b = some r) :
    strcmp B A b a = some (-r) := by
  rw [strcmp_eq ha hb] at hr
  cases hr
  rw [strcmp_eq hb ha, firstDiff_swap]

/-- The sign of what `strcmp` returns; the order of lists is lexicographic, and that of bytes
unsigned. -/
theorem strcmp_sign (ha : StringAt A a s) (hb : StringAt B b t) :
    ∃ r, strcmp A B a b = some r ∧ (r < 0 ↔ s < t) ∧ (r = 0 ↔ s = t) ∧ (0 < r ↔ t < s) := by
  have hs : ∀ c ∈ s, 0 < rank c := fun c hc => rank_pos (ha.nonzero c hc)
  have ht : ∀ c ∈ t, 0 < rank c := fun c hc => rank_pos (hb.nonzero c hc)
  have hneg : firstDiff rank t s < 0 ↔ t < s := firstDiff_neg_iff rank_lt_iff ht hs
  rw [firstDiff_swap, Int.neg_neg_iff_pos] at hneg
  exact ⟨_, strcmp_eq ha hb, firstDiff_neg_iff rank_lt_iff hs ht, firstDiff_eq_zero_iff rank_inj hs ht, hneg⟩

theorem lt_trans_strings {u : List Byte} (hst : s < t) (htu : t < u) : s < u :=
  List.lex_trans (fun hxy hyz => BitVec.lt_trans hxy hyz) hst htu

/-- From `a` to `b` and on to `c`. -/
theorem strcmp_trans {C : Object} {c : Nat} {u : List Byte} (ha : StringAt A a s) (hb : StringAt B b t)
    (hc : StringAt C c u) {r : Int} (hr : strcmp A B a b = some r) :
    ∃ r₁ r₂, strcmp B C b c = some r₁ ∧ strcmp A C a c = some r₂ ∧ (r < 0 → r₁ < 0 → r₂ < 0) ∧
      (r ≤ 0 → r₁ ≤ 0 → r₂ ≤ 0) := by
  obtain ⟨r', hr', hlt, heq, _⟩ := strcmp_sign ha hb
  rw [hr] at hr'
  cases hr'
  obtain ⟨r₁, hr₁, hlt₁, heq₁, _⟩ := strcmp_sign hb hc
  obtain ⟨r₂, hr₂, hlt₂, heq₂, _⟩ := strcmp_sign ha hc
  refine ⟨r₁, r₂, hr₁, hr₂, fun h h₁ => hlt₂.mpr (lt_trans_strings (hlt.mp h) (hlt₁.mp h₁)), fun h h₁ => ?_⟩
  rcases Int.lt_or_eq_of_le h with h | h
  · rcases Int.lt_or_eq_of_le h₁ with h₁ | h₁
    · exact Int.le_of_lt (hlt₂.mpr (lt_trans_strings (hlt.mp h) (hlt₁.mp h₁)))
    · exact Int.le_of_lt (hlt₂.mpr (heq₁.mp h₁ ▸ hlt.mp h))
  · have hsame : s = t := heq.mp h
    subst hsame
    rcases Int.lt_or_eq_of_le h₁ with h₁ | h₁
    · exact Int.le_of_lt (hlt₂.mpr (hlt₁.mp h₁))
    · exact Int.le_of_eq (heq₂.mpr (heq₁.mp h₁))

theorem streq_iff (ha : StringAt A a s) (hb : StringAt B b t) :
    ∃ e, streq A B a b = some e ∧ (e ≠ 0 ↔ s = t) := by
  obtain ⟨r, hr, _, heq, _⟩ := strcmp_sign ha hb
  refine ⟨if r = 0 then 1 else 0, by simp [streq, hr], ?_⟩
  rw [← heq]
  split
  · rename_i hzero
    exact iff_of_true Int.one_ne_zero hzero
  · rename_i hne
    exact iff_of_false (fun h => h rfl) hne

theorem strStartsWith_iff (ha : StringAt A a s) (hb : StringAt B b t) :
    ∃ q, strStartsWith A B a b = some q ∧ (q ≠ null ↔ ∃ rest, s = t ++ rest) ∧
      ∀ rest, s = t ++ rest → q = a + t.length ∧ StringAt A q rest := by
  refine ⟨_, strStartsWith_eq ha hb, ?_, ?_⟩
  · split
    · rename_i hpre
      obtain ⟨rest, rfl⟩ := hpre
      exact iff_of_true ha.drop.notNull ⟨rest, rfl⟩
    · rename_i hnot
      exact iff_of_false (fun h => h rfl) fun ⟨rest, heq⟩ => hnot ⟨rest, heq.symm⟩
  · rintro rest rfl
    rw [if_pos (List.prefix_append t rest)]
    exact ⟨rfl, ha.drop⟩

/-- Behind their ends the strings are not read. -/
theorem only_strings (ha : StringAt A a s) (hb : StringAt B b t) :
    strcmp (A.only a s) (B.only b t) a b = strcmp A B a b ∧ streq (A.only a s) (B.only b t) a b = streq A B a b ∧
      strStartsWith (A.only a s) (B.only b t) a b = strStartsWith A B a b := by
  have hcmp : strcmp (A.only a s) (B.only b t) a b = strcmp A B a b :=
    (strcmp_eq ha.only hb.only).trans (strcmp_eq ha hb).symm
  refine ⟨hcmp, ?_, (strStartsWith_eq ha.only hb.only).trans (strStartsWith_eq ha hb).symm⟩
  rw [streq, hcmp]
  rfl

end Strings

/-- **`strcmp` is the lexicographic order** of the strings' bytes, taken as unsigned: the
result's sign says which is below, it is turned round when the strings are, and it is
transitive. `streq` is equality; `str_starts_with` returns the place behind the first part,
where the rest stands. Each does the same when nothing but the two strings may be read. -/
theorem strcmp_lexicographic {A B C : Object} {a b c : Nat} {s t u : List Byte} (ha : StringAt A a s)
    (hb : StringAt B b t) (hc : StringAt C c u) :
    (∃ r, strcmp A B a b = some r ∧ strcmp (A.only a s) (B.only b t) a b = some r ∧
      (r < 0 ↔ s < t) ∧ (r = 0 ↔ s = t) ∧ (0 < r ↔ t < s) ∧ strcmp B A b a = some (-r) ∧
      ∃ r₁ r₂, strcmp B C b c = some r₁ ∧ strcmp A C a c = some r₂ ∧ (r < 0 → r₁ < 0 → r₂ < 0) ∧
        (r ≤ 0 → r₁ ≤ 0 → r₂ ≤ 0)) ∧
    (∃ e, streq A B a b = some e ∧ streq (A.only a s) (B.only b t) a b = some e ∧ (e ≠ 0 ↔ s = t)) ∧
    ∃ q, strStartsWith A B a b = some q ∧ strStartsWith (A.only a s) (B.only b t) a b = some q ∧
      (q ≠ null ↔ ∃ rest, s = t ++ rest) ∧ ∀ rest, s = t ++ rest → q = a + t.length ∧ StringAt A q rest := by
  obtain ⟨r, hr, hsign⟩ := strcmp_sign ha hb
  obtain ⟨e, he, heq⟩ := streq_iff ha hb
  obtain ⟨q, hq, hrest⟩ := strStartsWith_iff ha hb
  obtain ⟨hcmp, hsame, hstart⟩ := only_strings ha hb
  obtain ⟨hneg, hzero, hpos⟩ := hsign
  exact ⟨⟨r, hr, hcmp.trans hr, hneg, hzero, hpos, strcmp_swap ha hb hr, strcmp_trans ha hb hc hr⟩,
    ⟨e, he, hsame.trans he, heq⟩, ⟨q, hq, hstart.trans hq, hrest⟩⟩

/-- A letter is below a byte with its highest bit set. -/
theorem strcmp_lexicographic_unsigned :
    ∃ r, strcmp (.bytes 0x1000 [0x7A, 0]) (.bytes 0x2000 [0xC3, 0xA7, 0]) 0x1000 0x2000 = some r ∧ r < 0 := by
  have ha : StringAt (.bytes 0x1000 [0x7A, 0]) 0x1000 [0x7A] :=
    Object.bytes_string (s := [0x7A]) (by decide) (by decide) (by decide)
  have hb : StringAt (.bytes 0x2000 [0xC3, 0xA7, 0]) 0x2000 [0xC3, 0xA7] :=
    Object.bytes_string (s := [0xC3, 0xA7]) (by decide) (by decide) (by decide)
  obtain ⟨⟨r, hr, _, hneg, _⟩, _⟩ := strcmp_lexicographic ha hb hb
  exact ⟨r, hr, hneg.mpr (by decide)⟩

end ArcMonark.Lib
