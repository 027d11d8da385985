import ArcMonark.Lib.Strcmp

/-! Comparing bytes, and the length of a string (`lib/string.c`).

`memcmp` orders blocks of one length. On two strings, up to the terminator of the shorter
one, it returns what `strcmp` returns. -/
namespace ArcMonark.Lib
open Library

/-- The loop of `memcmp` from `i` on, with so many rounds left. -/
def memcmpFor (A B : Object) (a b : Nat) : (rounds i : Nat) → Option Int
  | 0, _ => some 0
  | rounds + 1, i => do
    if (← A (add64 a i)) ≠ (← B (add64 b i)) then
      return ((← A (add64 a i)).toNat : Int) - (← B (add64 b i)).toNat
    else memcmpFor A B a b rounds (i + 1)

def memcmp (A B : Object) (a b count : Nat) : Option Int := memcmpFor A B a b count 0

/-- `while (s[n]) n++;` -/
def strlenWhile (m : Object) (s : Nat) : (fuel n : Nat) → Option Nat
  | 0, _ => none
  | fuel + 1, n => do if (← m (add64 s n)) ≠ 0 then strlenWhile m s fuel (n + 1) else return n

def strlen (m : Object) (s : Nat) : Option Nat := strlenWhile m s (2 ^ 64) 0

/-- The bytes stand from `a` up. -/
structure BytesAt (m : Object) (a : Nat) (xs : List Byte) : Prop where
  inside : a + xs.length ≤ 2 ^ 64
  byte : ∀ i, (hi : i < xs.length) → m (a + i) = some xs[i]

section Blocks
variable {A B m : Object} {a b : Nat} {xs ys s t : List Byte}

theorem BytesAt.read (h : BytesAt m a xs) {i : Nat} (hi : i < xs.length) : m (add64 a i) = some xs[i] := by
  have hin := h.inside
  rw [add64_eq (by omega)]
  exact h.byte i hi

/-- The first bytes of a block. -/
theorem BytesAt.take (h : BytesAt m a xs) (n : Nat) : BytesAt m a (xs.take n) := by
  have hin := h.inside
  refine ⟨by rw [List.length_take]; omega, fun i hi => ?_⟩
  rw [List.length_take] at hi
  rw [List.getElem_take]
  exact h.byte i (by omega)

theorem bytesAt_string (h : StringAt m a s) : BytesAt m a (s ++ [0]) := by
  have hlt := h.inside
  refine ⟨by rw [List.length_append, List.length_singleton]; omega, ?_⟩
  induction h with
  | stop _ _ hstop =>
    intro i hi
    obtain rfl : i = 0 := Nat.lt_one_iff.mp hi
    exact hstop
  | @char a c s _ hchar _ _ ih =>
    rw [List.length_cons] at hlt
    intro i hi
    cases i with
    | zero => exact hchar
    | succ i =>
      have hrest := ih (by omega) i (by simpa using hi)
      rw [show a + (i + 1) = a + 1 + i by omega]
      exact hrest

/-- The loop finds the first difference of what is left. -/
theorem memcmpFor_eq (ha : BytesAt A a xs) (hb : BytesAt B b ys) (hlen : ys.length = xs.length) {rounds i : Nat}
    (hi : i + rounds = xs.length) :
    memcmpFor A B a b rounds i = some (firstDiff rank (xs.drop i) (ys.drop i)) := by
  induction rounds generalizing i with
  | zero =>
    rw [List.drop_of_length_le (by omega), List.drop_of_length_le (by omega)]
    rfl
  | succ rounds ih =>
    have hx : i < xs.length := by omega
    have hy : i < ys.length := by omega
    rw [memcmpFor, ha.read hx, hb.read hy, List.drop_eq_getElem_cons hx, List.drop_eq_getElem_cons hy, firstDiff,
      ih (show i + 1 + rounds = xs.length by omega)]
    by_cases hsame : xs[i] = ys[i]
    · simp [hsame]
    · simp [hsame, rank]

theorem memcmp_eq (ha : BytesAt A a xs) (hb : BytesAt B b ys) (hlen : ys.length = xs.length) :
    memcmp A B a b xs.length = some (firstDiff rank xs ys) := by
  rw [memcmp, memcmpFor_eq ha hb hlen (Nat.zero_add _)]
  rfl

/-- In lists of one length the end is no difference. -/
theorem firstDiff_sign (hlen : ys.length = xs.length) :
    (firstDiff rank xs ys < 0 ↔ xs < ys) ∧ (firstDiff rank xs ys = 0 ↔ xs = ys) := by
  induction xs generalizing ys with
  | nil =>
    obtain rfl := List.eq_nil_of_length_eq_zero hlen
    exact ⟨by simp [firstDiff], by simp [firstDiff]⟩
  | cons x xs ih =>
    cases ys with
    | nil => cases hlen
    | cons y ys =>
      by_cases hxy : x = y
      · subst hxy
        obtain ⟨hlt, heq⟩ := ih (by simpa using hlen)
        rw [firstDiff, if_pos rfl, hlt, heq]
        simp
      · have hne : rank x ≠ rank y := fun heq => hxy (rank_inj heq)
        rw [firstDiff, if_neg hxy, List.cons_lt_cons_iff, ← rank_lt_iff]
        simp only [hxy, false_and, or_false, List.cons.injEq, iff_false]
        omega

/-- The terminators are all that is added. -/
theorem firstDiff_terminated (hs : ∀ c ∈ s, c ≠ 0) (ht : ∀ c ∈ t, c ≠ 0) :
    firstDiff rank ((s ++ [0]).take (min s.length t.length + 1)) ((t ++ [0]).take (min s.length t.length + 1)) =
      firstDiff rank s t := by
  induction s generalizing t with
  | nil =>
    cases t with
    | nil => rfl
    | cons d t =>
      have hd : (0 : Byte) ≠ d := Ne.symm (List.forall_mem_cons.mp ht).1
      simpa [firstDiff, rank] using fun hzero => absurd hzero hd
  | cons c s ih =>
    obtain ⟨hc, hs⟩ := List.forall_mem_cons.mp hs
    cases t with
    | nil => simpa [firstDiff, rank] using fun hzero => absurd hzero hc
    | cons d t =>
      have hmin : min (c :: s).length (d :: t).length = min s.length t.length + 1 := by simp
      rw [hmin, List.cons_append, List.cons_append, List.take_succ_cons, List.take_succ_cons, firstDiff, firstDiff,
        ih hs (List.forall_mem_cons.mp ht).2]

theorem strlenWhile_eq (h : StringAt m a s) {n fuel : Nat} (hn : n ≤ s.length) (hfuel : s.length < n + fuel) :
    strlenWhile m a fuel n = some s.length := by
  have hbytes := bytesAt_string h
  induction fuel generalizing n with
  | zero => omega
  | succ fuel ih =>
    rw [strlenWhile, hbytes.read (i := n) (by rw [List.length_append, List.length_singleton]; omega)]
    by_cases hend : n = s.length
    · subst hend
      simp
    · have hchar : n < s.length := by omega
      have hne : s[n] ≠ 0 := h.nonzero _ (List.getElem_mem _)
      rw [List.getElem_append_left hchar]
      simp only [Option.bind_eq_bind, Option.bind_some, if_pos hne]
      exact ih (by omega) (by omega)

theorem strlen_eq (h : StringAt m a s) : strlen m a = some s.length := by
  have hin := h.inside
  exact strlenWhile_eq h (Nat.zero_le _) (by omega)

end Blocks

/-- **`memcmp` orders blocks**: on any two of one length the sign of the result is their
lexicographic order as unsigned bytes, and it is zero for equal ones only. On two strings,
with as many bytes as the shorter one has with its terminator, `memcmp` returns exactly
what `strcmp` does; `strlen` counts those bytes. -/
theorem memcmp_blocks {A B : Object} {a b : Nat} :
    (∀ xs ys, BytesAt A a xs → BytesAt B b ys → ys.length = xs.length →
      ∃ r, memcmp A B a b xs.length = some r ∧ (r < 0 ↔ xs < ys) ∧ (r = 0 ↔ xs = ys)) ∧
    ∀ s t, StringAt A a s → StringAt B b t →
      ∃ n k, strlen A a = some n ∧ strlen B b = some k ∧ n = s.length ∧ k = t.length ∧
        memcmp A B a b (min n k + 1) = strcmp A B a b := by
  constructor
  · intro xs ys ha hb hlen
    exact ⟨_, memcmp_eq ha hb hlen, firstDiff_sign hlen⟩
  · intro s t ha hb
    refine ⟨_, _, strlen_eq ha, strlen_eq hb, rfl, rfl, ?_⟩
    have hcount : ((s ++ [0]).take (min s.length t.length + 1)).length = min s.length t.length + 1 := by
      rw [List.length_take, List.length_append, List.length_singleton]
      omega
    have hcmp := memcmp_eq ((bytesAt_string ha).take (min s.length t.length + 1))
      ((bytesAt_string hb).take (min s.length t.length + 1)) (by simp)
    rw [hcount, firstDiff_terminated ha.nonzero hb.nonzero] at hcmp
    rw [hcmp, strcmp_eq ha hb]

/-- A block with a zero in it, and a string that is the start of another. -/
theorem memcmp_blocks_short :
    (∃ r, memcmp (.bytes 0x1000 [0, 0x80]) (.bytes 0x2000 [0, 0x7F]) 0x1000 0x2000 2 = some r ∧ ¬r < 0) ∧
    ∃ n, strlen (.bytes 0x1000 [0x6F, 0x6E, 0]) 0x1000 = some n ∧ n = 2 := by
  have ha : BytesAt (.bytes 0x1000 [0, 0x80]) 0x1000 [0, 0x80] := ⟨by decide, by decide⟩
  have hb : BytesAt (.bytes 0x2000 [0, 0x7F]) 0x2000 [0, 0x7F] := ⟨by decide, by decide⟩
  have hs : StringAt (.bytes 0x1000 [0x6F, 0x6E, 0]) 0x1000 [0x6F, 0x6E] :=
    Object.bytes_string (s := [0x6F, 0x6E]) (by decide) (by decide) (by decide)
  have ht : StringAt (.bytes 0x2000 [0x6F, 0]) 0x2000 [0x6F] :=
    Object.bytes_string (s := [0x6F]) (by decide) (by decide) (by decide)
  obtain ⟨r, hr, hneg, _⟩ := memcmp_blocks.1 _ _ ha hb rfl
  obtain ⟨n, k, hn, _, hlen, _, _⟩ := memcmp_blocks.2 _ _ hs ht
  exact ⟨⟨r, hr, fun h => absurd (hneg.mp h) (by decide)⟩, n, hn, hlen⟩

end ArcMonark.Lib
