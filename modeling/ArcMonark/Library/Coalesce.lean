import ArcMonark.Library.Blocks

/-! Coalescing free blocks.

`coalesce` makes one block of each stretch of free blocks. It is the normal form of a
list under joining two free neighbours: joining does not change it (`coalesce_join`), and
a settled list is its own (`coalesce_of_settled`). An allocator that joins a freed block
with its neighbours so has the coalesced list, in whatever order it joins them.

`Tiled` lists have no gaps; such a list with no block in use coalesces to one block. -/
namespace ArcMonark.Library
namespace Block

/-- `b` in front of a coalesced list. -/
def push (h : Nat) (b : Block) : List Block → List Block
  | [] => [b]
  | c :: cs => if b.free ∧ c.free then ⟨b.addr, b.size + (h + c.size), true⟩ :: cs else b :: c :: cs

def coalesce (h : Nat) (bs : List Block) : List Block := bs.foldr (push h) []

/-- The blocks that are not free. -/
def inUse (bs : List Block) : List Block := bs.filter fun b => !b.free

/-- Blocks follow one another `lo … hi` without gaps. -/
def Tiled (h lo : Nat) : List Block → Nat → Prop
  | [], hi => lo = hi
  | b :: bs, hi => b.addr = lo ∧ Tiled h (b.stop h) bs hi

section Coalesce
variable {h lo hi : Nat} {b c : Block} {bs cs xs ys : List Block}

theorem push_apart (hbc : ¬ (b.free = true ∧ c.free = true)) : push h b (c :: cs) = b :: c :: cs := if_neg hbc

theorem push_join (hb : b.free = true) (hc : c.free = true) :
    push h b (c :: cs) = ⟨b.addr, b.size + (h + c.size), true⟩ :: cs := if_pos ⟨hb, hc⟩

theorem coalesce_cons (h : Nat) (b : Block) (bs : List Block) : coalesce h (b :: bs) = push h b (coalesce h bs) := rfl

theorem coalesce_append (xs ys : List Block) : coalesce h (xs ++ ys) = xs.foldr (push h) (coalesce h ys) := by
  rw [coalesce, List.foldr_append]
  rfl

/-- **Joining two free neighbours** makes no difference. -/
theorem coalesce_join (xs ys : List Block) (hb : b.free = true) (hc : c.free = true) :
    coalesce h (xs ++ ⟨b.addr, b.size + (h + c.size), true⟩ :: ys) = coalesce h (xs ++ b :: c :: ys) := by
  rw [coalesce_append, coalesce_append, coalesce_cons, coalesce_cons, coalesce_cons]
  congr 1
  cases coalesce h ys with
  | nil => exact (push_join hb hc).symm
  | cons d ds =>
    cases hd : d.free
    · have hapart : ∀ e : Block, ¬ (e.free = true ∧ d.free = true) := fun e hboth => by simp [hd] at hboth
      rw [push_apart (hapart _), push_apart (hapart _), push_join hb hc]
    · rw [push_join rfl hd, push_join hc hd, push_join hb rfl]
      congr 2
      dsimp only
      omega

/-- **A settled list** has nothing to join. -/
theorem coalesce_of_settled (hset : Settled bs) : coalesce h bs = bs := by
  induction bs with
  | nil => rfl
  | cons b bs ih =>
    obtain ⟨hhead, htail⟩ := List.isChain_cons.mp hset
    rw [coalesce_cons, ih htail]
    cases bs with
    | nil => rfl
    | cons c cs => exact push_apart (hhead c rfl)

theorem settled_coalesce (h : Nat) (bs : List Block) : Settled (coalesce h bs) := by
  induction bs with
  | nil => exact List.isChain_nil
  | cons b bs ih =>
    rw [coalesce_cons]
    cases hcs : coalesce h bs with
    | nil => exact List.isChain_singleton b
    | cons c cs =>
      rw [hcs] at ih
      by_cases hbc : b.free = true ∧ c.free = true
      · obtain ⟨hnext, hrest⟩ := List.isChain_cons.mp ih
        rw [push_join hbc.1 hbc.2]
        exact List.isChain_cons.mpr ⟨fun d hd hboth => hnext d hd ⟨hbc.2, hboth.2⟩, hrest⟩
      · rw [push_apart hbc]
        exact List.isChain_cons.mpr ⟨fun d hd => by cases hd; exact hbc, ih⟩

/-- A block in use, or the enlarged first of a stretch of free ones. -/
theorem mem_coalesce (hc : c ∈ coalesce h bs) :
    c ∈ bs ∨ c.free = true ∧ ∃ b ∈ bs, b.free = true ∧ b.addr = c.addr := by
  induction bs generalizing c with
  | nil => cases hc
  | cons b bs ih =>
    have hrest : ∀ {d}, d ∈ coalesce h bs →
        d ∈ b :: bs ∨ d.free = true ∧ ∃ a ∈ b :: bs, a.free = true ∧ a.addr = d.addr := by
      intro d hd
      rcases ih hd with hd | ⟨hfree, a, ha, hafree, haddr⟩
      · exact .inl (List.mem_cons_of_mem b hd)
      · exact .inr ⟨hfree, a, List.mem_cons_of_mem b ha, hafree, haddr⟩
    rw [coalesce_cons] at hc
    cases hcs : coalesce h bs with
    | nil =>
      rw [hcs] at hc
      rw [List.mem_singleton.mp hc]
      exact .inl List.mem_cons_self
    | cons d ds =>
      rw [hcs] at hc hrest
      by_cases hbd : b.free = true ∧ d.free = true
      · rw [push_join hbd.1 hbd.2] at hc
        rcases List.mem_cons.mp hc with rfl | hc
        · exact .inr ⟨rfl, b, List.mem_cons_self, hbd.1, rfl⟩
        · exact hrest (List.mem_cons_of_mem d hc)
      · rw [push_apart hbd] at hc
        rcases List.mem_cons.mp hc with rfl | hc
        · exact .inl List.mem_cons_self
        · exact hrest hc

/-- A coalesced list begins with a block like the first one. -/
theorem head_push (h : Nat) (b : Block) (cs : List Block) :
    ∃ d ds, push h b cs = d :: ds ∧ d.free = b.free := by
  cases cs with
  | nil => exact ⟨b, [], rfl, rfl⟩
  | cons c cs =>
    by_cases hbc : b.free = true ∧ c.free = true
    · exact ⟨_, _, push_join hbc.1 hbc.2, hbc.1.symm⟩
    · exact ⟨_, _, push_apart hbc, rfl⟩

/-- Behind a settled list a block stays as it is, or is joined with the last one. -/
theorem mem_coalesce_snoc (hset : Settled bs) (hc : c ∈ coalesce h (bs ++ [b])) :
    c ∈ bs ∨ c = b ∨ ∃ l ∈ bs, l.free = true ∧ c = ⟨l.addr, l.size + (h + b.size), true⟩ := by
  induction bs with
  | nil => exact .inr (.inl (List.mem_singleton.mp hc))
  | cons a bs ih =>
    obtain ⟨hhead, htail⟩ := List.isChain_cons.mp hset
    have hrest : c ∈ coalesce h (bs ++ [b]) → c ∈ a :: bs ∨ c = b ∨
        ∃ l ∈ a :: bs, l.free = true ∧ c = ⟨l.addr, l.size + (h + b.size), true⟩ := fun hc => by
      rcases ih htail hc with hmem | heq | ⟨l, hl, hjoined⟩
      · exact .inl (List.mem_cons_of_mem a hmem)
      · exact .inr (.inl heq)
      · exact .inr (.inr ⟨l, List.mem_cons_of_mem a hl, hjoined⟩)
    rw [List.cons_append, coalesce_cons] at hc
    cases bs with
    | nil =>
      by_cases hab : a.free = true ∧ b.free = true
      · rw [List.nil_append, show coalesce h [b] = [b] from rfl, push_join hab.1 hab.2] at hc
        exact .inr (.inr ⟨a, List.mem_cons_self, hab.1, List.mem_singleton.mp hc⟩)
      · rw [List.nil_append, show coalesce h [b] = [b] from rfl, push_apart hab] at hc
        rcases List.mem_cons.mp hc with rfl | hc
        · exact .inl List.mem_cons_self
        · exact .inr (.inl (List.mem_singleton.mp hc))
    | cons d ds =>
      -- the first two are not both free, and joining does not change that
      obtain ⟨e, es, hpush, hfree⟩ := head_push h d (coalesce h (ds ++ [b]))
      have hcoalesce : coalesce h (d :: ds ++ [b]) = e :: es := hpush
      have hapart : ¬ (a.free = true ∧ e.free = true) := by
        rw [hfree]
        exact hhead d rfl
      rw [hcoalesce, push_apart hapart] at hc
      rcases List.mem_cons.mp hc with rfl | hc
      · exact .inl List.mem_cons_self
      · rw [← hcoalesce] at hc
        exact hrest hc

theorem inUse_cons (b : Block) (bs : List Block) :
    inUse (b :: bs) = if b.free then inUse bs else b :: inUse bs := by
  rw [inUse, List.filter_cons]
  cases b.free <;> rfl

/-- The blocks in use stay as they are. -/
theorem inUse_coalesce (bs : List Block) : inUse (coalesce h bs) = inUse bs := by
  induction bs with
  | nil => rfl
  | cons b bs ih =>
    rw [coalesce_cons, inUse_cons, ← ih]
    cases coalesce h bs with
    | nil => exact inUse_cons b []
    | cons d ds =>
      by_cases hbd : b.free = true ∧ d.free = true
      · rw [push_join hbd.1 hbd.2, inUse_cons, inUse_cons, hbd.1, hbd.2]
        rfl
      · rw [push_apart hbd, inUse_cons]

theorem used_inUse (bs : List Block) : used (inUse bs) = used bs := by
  induction bs with
  | nil => rfl
  | cons b bs ih =>
    rw [inUse_cons, used]
    cases hfree : b.free
    · simp [used, hfree, ih]
    · simp [ih]

theorem used_coalesce (bs : List Block) : used (coalesce h bs) = used bs := by
  rw [← used_inUse, inUse_coalesce, used_inUse]

theorem inUse_append (xs ys : List Block) : inUse (xs ++ ys) = inUse xs ++ inUse ys := List.filter_append ..

theorem mem_inUse : b ∈ inUse bs ↔ b ∈ bs ∧ b.free = false := by simp [inUse]

/-! ### Lists without gaps -/

theorem tiled_append : Tiled h lo (xs ++ ys) hi ↔ ∃ mid, Tiled h lo xs mid ∧ Tiled h mid ys hi := by
  induction xs generalizing lo with
  | nil =>
    constructor
    · exact fun ht => ⟨lo, rfl, ht⟩
    · rintro ⟨mid, rfl, ht⟩
      exact ht
  | cons x xs ih =>
    constructor
    · rintro ⟨hlo, ht⟩
      obtain ⟨mid, hx, hy⟩ := ih.mp ht
      exact ⟨mid, ⟨hlo, hx⟩, hy⟩
    · rintro ⟨mid, ⟨hlo, hx⟩, hy⟩
      exact ⟨hlo, ih.mpr ⟨mid, hx, hy⟩⟩

theorem Tiled.push (ht : Tiled h lo (b :: cs) hi) : Tiled h lo (push h b cs) hi := by
  cases cs with
  | nil => exact ht
  | cons c cs =>
    obtain ⟨hlo, hc, hcs⟩ := ht
    by_cases hbc : b.free = true ∧ c.free = true
    · rw [push_join hbc.1 hbc.2]
      refine ⟨hlo, ?_⟩
      have hstop : stop h ⟨b.addr, b.size + (h + c.size), true⟩ = c.stop h := by
        unfold stop at *
        dsimp only
        omega
      rwa [hstop]
    · rw [push_apart hbc]
      exact ⟨hlo, hc, hcs⟩

theorem Tiled.coalesce (ht : Tiled h lo bs hi) : Tiled h lo (coalesce h bs) hi := by
  induction bs generalizing lo with
  | nil => exact ht
  | cons b bs ih => exact Tiled.push ⟨ht.1, ih ht.2⟩

/-- Without blocks in use a settled tiled list is one free block. -/
theorem Tiled.whole (ht : Tiled h lo bs hi) (hset : Settled bs) (hne : bs ≠ []) (hnone : inUse bs = []) :
    lo + h ≤ hi ∧ bs = [⟨lo, hi - lo - h, true⟩] := by
  have hfree : ∀ b ∈ bs, b.free = true := by
    intro b hb
    by_contra hused
    have hmem : b ∈ inUse bs := mem_inUse.mpr ⟨hb, Bool.eq_false_iff.mpr hused⟩
    rw [hnone] at hmem
    cases hmem
  cases bs with
  | nil => exact absurd rfl hne
  | cons b bs =>
    cases bs with
    | nil =>
      obtain ⟨haddr, hstop⟩ := ht
      have hstop : b.addr + h + b.size = hi := hstop
      have hbfree := hfree b List.mem_cons_self
      obtain ⟨addr, size, free⟩ := b
      dsimp only at haddr hstop hbfree
      subst haddr hbfree
      exact ⟨by omega, by congr; omega⟩
    | cons c cs =>
      exact absurd ⟨hfree b List.mem_cons_self, hfree c (by simp)⟩ ((List.isChain_cons.mp hset).1 c rfl)

end Coalesce

end Block
end ArcMonark.Library
