import ArcMonark.Mm.HeapList
import ArcMonark.Library.Coalesce

/-! What the pieces of `heap.c` do to the block list.

Marking, splitting, absorbing and appending a block, each with the list that
comes out; the two searches with what they find. `kmalloc` and `kfree` are made
of these. -/
namespace ArcMonark.Mm.Heap
open Library Pmm Vmm Virtual
open Block (Laid Settled used)

variable {A : Space} {role : Nat → Role} {n x : Nat} {V : Mem} {m : Machine} {b c : Block}
  {bs xs ys : List Block}

/-- A call returned with `bs'` in place of `bs`, and the blocks in use, but for the
one at `x`, as they were. -/
def Relisted (A : Space) (role : Nat → Role) (n x : Nat) (V : Mem) (bs bs' : List Block) (m : Machine)
    (r : Except Fault Machine) : Prop :=
  ∃ V' ram, r = .ok {m with ram} ∧ Listed A role n V' bs' {m with ram} ∧ Preserves x bs bs' V V'

theorem Relisted.refl (h : Listed A role n V bs m) : Relisted A role n x V bs bs m (.ok m) :=
  ⟨V, m.ram, rfl, h, .refl x bs V⟩

/-- The parts of a listed heap around one of its blocks. -/
theorem Listed.around (h : Listed A role n V (xs ++ b :: ys) m) :
    b ∈ xs ++ b :: ys ∧ (∀ c ∈ xs, c.addr + 32 + c.size ≤ b.addr) ∧
      (∀ c ∈ ys, b.addr + 32 + b.size ≤ c.addr) := by
  obtain ⟨_, _, hxs, hys⟩ := h.laid.split
  exact ⟨by simp, fun c hc => (hxs c hc).2, fun c hc => (hys c hc).1⟩

/-! ### Marking -/

/-- The memory once `b->free = f`. -/
def flagged (V : Mem) (b : Block) (f : Bool) : Mem := V.set (b.addr + 8) (if f then 1 else 0)

/-- The list once the flag is written. -/
theorem Listed.marked (h : Listed A role n V (xs ++ b :: ys) m) (hx : b.free = true ∨ b.addr = x)
    (f : Bool) {ram : Mem} (hflat : Flat A role n (flagged V b f) {m with ram}) :
    Listed A role n (flagged V b f) (xs ++ ⟨b.addr, b.size, f⟩ :: ys) {m with ram} ∧
      Preserves x (xs ++ b :: ys) (xs ++ ⟨b.addr, b.size, f⟩ :: ys) V (flagged V b f) := by
  obtain ⟨hb, hxs, hys⟩ := h.around
  obtain ⟨hlxs, hlb, hlys⟩ := linked_split.mp h.linked
  refine ⟨⟨hflat, h.head, ?_, ?_, ?_, ?_⟩, ?_⟩
  · have hfirst := h.first
    rw [firstAddr_append] at hfirst ⊢
    exact hfirst
  · refine linked_split.mpr ⟨hlxs.congr fun c hc i hle hlt => ?_, hlb.storeFree f,
      hlys.congr fun c hc i hle hlt => ?_⟩
    · have := hxs c hc
      exact Mem.set_ne _ _ (by omega)
    · have := hys c hc
      exact Mem.set_ne _ _ (by omega)
  · have hlaid := h.laid
    rw [List.append_cons] at hlaid ⊢
    exact hlaid.replace fun _ _ hl => hl
  · intro c hc
    rcases List.mem_append.mp hc with hc | hc
    · exact h.sized c (List.mem_append_left _ hc)
    · rcases List.mem_cons.mp hc with rfl | hc
      · exact h.sized b hb
      · exact h.sized c (List.mem_append_right _ (List.mem_cons_of_mem b hc))
  · intro c hc hu hcx
    refine ⟨?_, h.holds (fun a ha => Mem.set_ne _ _ ?_) hc⟩
    · simp only [List.mem_append, List.mem_cons] at hc ⊢
      rcases hc with hc | rfl | hc
      · exact .inl hc
      · rcases hx with hfree | haddr
        · rw [hfree] at hu
          cases hu
        · exact absurd haddr hcx
      · exact .inr (.inr hc)
    · have := ha b hb
      omega

/-! ### Splitting -/

/-- What is left of a free block once `size` bytes of it are taken. -/
def cut (b : Block) (size : Nat) : List Block :=
  if b.size - size < sizeofBlock + align then [b]
  else [⟨b.addr, size, b.free⟩, ⟨b.addr + sizeofBlock + size, b.size - size - sizeofBlock, true⟩]

theorem firstAddr_cut (b : Block) (size next : Nat) : firstAddr (cut b size) next = b.addr := by
  unfold cut
  split <;> rfl

theorem laid_cut {h a z size : Nat} (hh : h = sizeofBlock) (hs : size ≤ b.size)
    (hl : Laid h a [b] z) : Laid h a (cut b size) z := by
  subst hh
  unfold cut
  split
  · exact hl
  · obtain ⟨hle, hz⟩ := hl
    have hz : b.addr + 32 + b.size ≤ z := hz
    have hroom : ¬ b.size - size < 32 + 16 := by assumption
    refine ⟨hle, ?_, ?_⟩
    · show b.addr + 32 + size ≤ b.addr + 32 + size
      exact Nat.le_refl _
    · show b.addr + 32 + size + 32 + (b.size - size - 32) ≤ z
      omega

theorem sized_cut {size : Nat} (hb : b.addr % align = 0 ∧ b.size % align = 0) (hsize : size % align = 0) :
    ∀ c ∈ cut b size, c.addr % align = 0 ∧ c.size % align = 0 := by
  unfold cut
  split
  · intro c hc
    rw [List.mem_singleton.mp hc]
    exact hb
  · have hroom : ¬ b.size - size < 32 + 16 := by assumption
    intro c hc
    unfold align sizeofBlock at *
    rcases List.mem_cons.mp hc with rfl | hc
    · exact ⟨hb.1, hsize⟩
    · rw [List.mem_singleton.mp hc]
      show (b.addr + 32 + size) % 16 = 0 ∧ (b.size - size - 32) % 16 = 0
      omega

/-- The memory with the header of a free block at `d`. -/
def header (V : Mem) (d size prev next : Nat) : Mem :=
  (((V.store64 d size).set (d + 8) (if true then 1 else 0)).store64 (d + 16) next).store64 (d + 24) prev

theorem header_of_outside (V : Mem) {d size prev next a : Nat} (ha : a < d ∨ d + 32 ≤ a) :
    header V d size prev next a = V a := by
  rw [header, Mem.store64_of_outside _ _ (by omega), Mem.store64_of_outside _ _ (by omega),
    Mem.set_ne _ _ (by omega), Mem.store64_of_outside _ _ (by omega)]

theorem header_self (V : Mem) {d size prev next : Nat} (hsize : size < 2 ^ 64) (hprev : prev < 2 ^ 64)
    (hnext : next < 2 ^ 64) : Header (header V d size prev next) d size true prev next :=
  ((((Header.self V d).storeSize hsize).storeFree true).storeNext hnext).storePrev hprev

/-- The memory once `size` bytes are cut off the free block `b` in front of `ys`. -/
def carve (V : Mem) (b : Block) (size : Nat) (ys : List Block) : Mem :=
  ((relink (header V (b.addr + 32 + size) (b.size - size - 32) b.addr (firstAddr ys null)) ys
    (b.addr + 32 + size)).store64 b.addr size).store64 (b.addr + 16) (b.addr + 32 + size)

theorem carve_of_clear (V : Mem) {size a : Nat} (hb : a < b.addr ∨ b.addr + 32 ≤ a)
    (hd : a < b.addr + 32 + size ∨ b.addr + 32 + size + 32 ≤ a)
    (hys : ∀ c ∈ ys, a < c.addr ∨ c.addr + 32 ≤ a) : carve V b size ys a = V a := by
  rw [carve, Mem.store64_of_outside _ _ (by omega), Mem.store64_of_outside _ _ (by omega),
    relink_of_clear hys, header_of_outside _ hd]

/-- The address behind a block is a word. -/
theorem Listed.firstAddr_lt (h : Listed A role n V bs m) (hsub : ∀ c ∈ ys, c ∈ bs) :
    firstAddr ys null < 2 ^ 64 := by
  cases ys with
  | nil => decide
  | cons c ys =>
    obtain ⟨_, hend, htop⟩ := h.bounds (hsub c List.mem_cons_self)
    show c.addr < 2 ^ 64
    omega

/-- The headers once the block is cut. -/
theorem Listed.carved_linked (h : Listed A role n V (xs ++ b :: ys) m) {size : Nat}
    (hroom : size + 48 ≤ b.size) : Linked (carve V b size ys) null
      (xs ++ ⟨b.addr, size, b.free⟩ :: ⟨b.addr + 32 + size, b.size - size - 32, true⟩ :: ys) null := by
  obtain ⟨hb, hxs, hys⟩ := h.around
  obtain ⟨hlxs, hlb, hlys⟩ := linked_split.mp h.linked
  obtain ⟨hbase, hend, htop⟩ := h.bounds hb
  have hnextLt := h.firstAddr_lt fun c hc => List.mem_append_right xs (List.mem_cons_of_mem b hc)
  have hclear : ∀ a, a < b.addr + 32 + b.size → ∀ c ∈ ys, a < c.addr ∨ c.addr + 32 ≤ a := by
    intro a ha c hc
    have := hys c hc
    omega
  refine linked_split.mpr ⟨hlxs.congr fun c hc i hle hlt => ?_, ?_, ?_, ?_⟩
  · have := hxs c hc
    exact carve_of_clear V (by omega) (by omega) (hclear i (by omega))
  · refine Header.storeNext (Header.storeSize (hlb.congr fun i hle hlt => ?_) (by omega)) (by omega)
    rw [relink_of_clear (hclear i (by omega)), header_of_outside _ (by omega)]
  · have hnew := header_self V (d := b.addr + 32 + size) (show b.size - size - 32 < 2 ^ 64 by omega)
      (show b.addr < 2 ^ 64 by omega) hnextLt
    refine Header.store_apart (Header.store_apart (hnew.congr fun i hle hlt => ?_) (by omega) _) (by omega) _
    exact relink_of_clear (hclear i (by omega))
  · have hys' : Linked (header V (b.addr + 32 + size) (b.size - size - 32) b.addr (firstAddr ys null))
        b.addr ys null := hlys.congr fun c hc i hle hlt => header_of_outside V (by have := hys c hc; omega)
    have hpair : ys.Pairwise fun b c => b.addr + 32 ≤ c.addr :=
      ((List.pairwise_append.mp h.pairwise).2.1.of_cons).imp fun hle => by omega
    refine (hys'.relink (x := b.addr + 32 + size) (by omega) hpair).congr fun c hc i hle hlt => ?_
    have := hys c hc
    exact (Mem.store64_of_outside _ _ (by omega)).trans (Mem.store64_of_outside _ _ (by omega))

/-- The list once the block is cut. -/
theorem Listed.carved (h : Listed A role n V (xs ++ b :: ys) m) (hfree : b.free = true) {size : Nat}
    (hroom : size + 48 ≤ b.size) (hsize : size % align = 0) {ram : Mem}
    (hflat : Flat A role n (carve V b size ys) {m with ram}) :
    Listed A role n (carve V b size ys) (xs ++ cut b size ++ ys) {m with ram} ∧
      Preserves x (xs ++ b :: ys) (xs ++ cut b size ++ ys) V (carve V b size ys) := by
  obtain ⟨hb, _, _⟩ := h.around
  have hcut : xs ++ cut b size ++ ys =
      xs ++ ⟨b.addr, size, b.free⟩ :: ⟨b.addr + 32 + size, b.size - size - 32, true⟩ :: ys := by
    rw [cut, if_neg (show ¬ b.size - size < sizeofBlock + align by unfold sizeofBlock align; omega),
      List.append_assoc]
    rfl
  refine ⟨⟨hflat, h.head, ?_, ?_, ?_, ?_⟩, fun c hc hu _ => ?_⟩
  · have hfirst := h.first
    rw [firstAddr_append] at hfirst
    rw [List.append_assoc, firstAddr_append, firstAddr_append, firstAddr_cut]
    exact hfirst
  · rw [hcut]
    exact h.carved_linked hroom
  · have hlaid := h.laid
    rw [List.append_cons] at hlaid
    exact hlaid.replace fun _ _ hl => laid_cut rfl (by omega) hl
  · intro c hc
    simp only [List.mem_append] at hc
    rcases hc with (hc | hc) | hc
    · exact h.sized c (List.mem_append_left _ hc)
    · exact sized_cut (h.sized b hb) hsize c hc
    · exact h.sized c (List.mem_append_right _ (List.mem_cons_of_mem b hc))
  · have hne : c ≠ b := by
      rintro rfl
      rw [hfree] at hu
      cases hu
    refine ⟨?_, fun i hi => ?_⟩
    · rw [hcut]
      simp only [List.mem_append, List.mem_cons] at hc ⊢
      rcases hc with hc | rfl | hc
      · exact .inl hc
      · exact absurd rfl hne
      · exact .inr (.inr (.inr hc))
    · have hall : ∀ d ∈ xs ++ b :: ys, c.addr + 32 + i < d.addr ∨ d.addr + 32 ≤ c.addr + 32 + i := by
        intro d hd
        have happart := h.laid.apart hd hc
        unfold Block.stop sizeofBlock at happart
        rcases happart with rfl | hlt | hlt <;> omega
      have happart := (h.laid.apart hb hc).resolve_left (Ne.symm hne)
      unfold Block.stop sizeofBlock at happart
      show carve V b size ys (c.addr + 32 + i) = V (c.addr + 32 + i)
      exact carve_of_clear V (hall b hb) (by omega)
        fun d hd => hall d (List.mem_append_right _ (List.mem_cons_of_mem b hd))

/-- `split_block` where there is room for another block: the words it writes. -/
theorem Listed.splitBlock_runs (h : Listed A role n V (xs ++ b :: ys) m) {size : Nat}
    (hroom : size + 48 ≤ b.size) :
    Patched A role n (carve V b size ys) m (splitBlock m b.addr size) := by
  obtain ⟨hb, hxs, hys⟩ := h.around
  obtain ⟨_, hlb, _⟩ := linked_split.mp h.linked
  obtain ⟨hbase, hend, htop⟩ := h.bounds hb
  have hsub : sub64 b.size size = b.size - size := sub64_eq (by omega) (by omega)
  have hnot : ¬ b.size - size < sizeofBlock + align := by
    unfold sizeofBlock align
    omega
  have hnb : add64 (add64 b.addr sizeofBlock) size = b.addr + 32 + size := by
    unfold sizeofBlock
    rw [add64_eq (a := b.addr) (by omega), add64_eq (by omega)]
  have hnbsize : sub64 (b.size - size) sizeofBlock = b.size - size - 32 :=
    sub64_eq (by unfold sizeofBlock; omega) (by omega)
  have hin : InHeap n (b.addr + 32 + size) := ⟨by omega, by unfold sizeofBlock; omega⟩
  have hysIn : ∀ c ∈ ys, InHeap n c.addr :=
    fun c hc => h.inHeap (List.mem_append_right _ (List.mem_cons_of_mem b hc))
  have hnextLt := h.firstAddr_lt fun c hc => List.mem_append_right xs (List.mem_cons_of_mem b hc)
  unfold splitBlock
  rw [h.toFlat.getSize (h.inHeap hb), ok_bind, hlb.size, hsub]
  simp only [if_neg hnot]
  rw [hnb, hnbsize]
  -- the new header
  obtain ⟨ram₁, hw₁, f₁, p₁⟩ := h.toFlat.patchSize hin (b.size - size - 32)
  rw [hw₁, ok_bind]
  obtain ⟨ram₂, hw₂, f₂, p₂⟩ := f₁.patchFree hin true
  have hlb₂ := (hlb.store_apart (d := b.addr + 32 + size) (by omega) (b.size - size - 32)).set_apart
    (d := b.addr + 32 + size + 8) (by omega) (if true then 1 else 0)
  rw [hw₂, ok_bind, f₂.getNext (h.inHeap hb), ok_bind, hlb₂.next]
  obtain ⟨ram₃, hw₃, f₃, p₃⟩ := f₂.patchNext hin (firstAddr ys null)
  rw [hw₃, ok_bind]
  obtain ⟨ram₄, hw₄, f₄, p₄⟩ := f₃.patchPrev hin b.addr
  have hnew := ((((Header.self V (b.addr + 32 + size)).storeSize
    (x := b.size - size - 32) (by omega)).storeFree true).storeNext hnextLt).storePrev
    (x := b.addr) (by omega)
  rw [hw₄, ok_bind, f₄.getNext hin, ok_bind, hnew.next]
  -- the links around it
  obtain ⟨ram₅, hw₅, f₅, p₅⟩ := f₄.patchBack hysIn (b.addr + 32 + size)
  rw [hw₅, ok_bind]
  obtain ⟨ram₆, hw₆, f₆, p₆⟩ := f₅.patchSize (h.inHeap hb) size
  rw [hw₆, ok_bind]
  obtain ⟨ram₇, hw₇, f₇, p₇⟩ := f₆.patchNext (h.inHeap hb) (b.addr + 32 + size)
  exact ⟨ram₇, hw₇, f₇, p₁.trans (p₂.trans (p₃.trans (p₄.trans (p₅.trans (p₆.trans p₇)))))⟩

/-- `split_block` where there is no room. -/
theorem Listed.splitBlock_none (h : Listed A role n V (xs ++ b :: ys) m) {size : Nat} (hs : size ≤ b.size)
    (hroom : b.size - size < sizeofBlock + align) : splitBlock m b.addr size = .ok m := by
  obtain ⟨hb, _, _⟩ := h.around
  obtain ⟨_, hlb, _⟩ := linked_split.mp h.linked
  obtain ⟨_, hend, htop⟩ := h.bounds hb
  have hsub : sub64 b.size size = b.size - size := sub64_eq hs (by omega)
  unfold splitBlock
  rw [h.toFlat.getSize (h.inHeap hb), ok_bind, hlb.size, hsub]
  simp only [if_pos hroom]
  rfl

theorem room_of_not {size : Nat} (hroom : ¬ b.size - size < sizeofBlock + align) : size + 48 ≤ b.size := by
  unfold sizeofBlock align at hroom
  omega

/-- `split_block` on a free block of the list. -/
theorem Listed.split (h : Listed A role n V (xs ++ b :: ys) m) (hfree : b.free = true) {size : Nat}
    (hs : size ≤ b.size) (hsize : size % align = 0) :
    Relisted A role n x V (xs ++ b :: ys) (xs ++ cut b size ++ ys) m (splitBlock m b.addr size) := by
  by_cases hroom : b.size - size < sizeofBlock + align
  · have hcut : xs ++ cut b size ++ ys = xs ++ b :: ys := by
      rw [cut, if_pos hroom, List.append_assoc]
      rfl
    rw [h.splitBlock_none hs hroom, hcut]
    exact Relisted.refl h
  · obtain ⟨ram, hw, hflat, _⟩ := h.splitBlock_runs (room_of_not hroom)
    obtain ⟨hlisted, hpres⟩ := h.carved (x := x) hfree (room_of_not hroom) hsize hflat
    exact ⟨_, ram, hw, hlisted, hpres⟩

/-- It writes to the heap's pages only. -/
theorem Listed.split_pagesOnly (h : Listed A role n V (xs ++ b :: ys) m) {size : Nat} (hs : size ≤ b.size)
    {m' : Machine} (hr : splitBlock m b.addr size = .ok m') : PagesOnly role m.ram m'.ram := by
  by_cases hroom : b.size - size < sizeofBlock + align
  · rw [h.splitBlock_none hs hroom] at hr
    cases hr
    exact .refl role m.ram
  · obtain ⟨ram, hw, _, hpages⟩ := h.splitBlock_runs (room_of_not hroom)
    rw [hw] at hr
    cases hr
    exact hpages

/-! ### Absorbing -/

/-- The memory after `b` absorbed its neighbour `c` in front of `ys`. -/
def absorb (V : Mem) (b c : Block) (ys : List Block) : Mem :=
  relink ((V.store64 b.addr (b.size + (sizeofBlock + c.size))).store64 (b.addr + 16)
    (firstAddr ys null)) ys b.addr

/-- Apart from the two headers that change, absorbing writes nothing. -/
theorem absorb_of_outside {a : Nat} (hb : a < b.addr ∨ b.addr + 32 ≤ a)
    (hys : ∀ d ∈ ys, a < d.addr ∨ d.addr + 32 ≤ a) : absorb V b c ys a = V a := by
  rw [absorb, relink_of_clear hys, Mem.store64_of_outside _ _ (by omega), Mem.store64_of_outside _ _ (by omega)]

/-- Only sizes and links in the headers of `bs` have changed. -/
def Still (bs : List Block) (V V' : Mem) : Prop :=
  ∀ a, (∀ d ∈ bs, a < d.addr ∨ d.addr + 32 ≤ a ∨ a = d.addr + 8) → V' a = V a

theorem Still.refl (bs : List Block) (V : Mem) : Still bs V V := fun _ _ => rfl

theorem Still.trans {bs' : List Block} {V' V'' : Mem} (h : Still bs V V') (h' : Still bs' V' V'')
    (hsub : ∀ d ∈ bs', ∃ e ∈ bs, e.addr = d.addr) : Still bs V V'' := by
  intro a ha
  refine (h' a fun d hd => ?_).trans (h a ha)
  obtain ⟨e, he, haddr⟩ := hsub d hd
  rw [← haddr]
  exact ha e he

/-- Absorbing a block changes neither a flag nor the absorbed header. -/
theorem Listed.absorb_still (h : Listed A role n V (xs ++ b :: c :: ys) m) :
    Still (xs ++ b :: c :: ys) V (absorb V b c ys) := by
  intro a ha
  have hb := ha b (by simp)
  have hrelink : ∀ (W : Mem) (x : Nat), relink W ys x a = W a := by
    intro W x
    cases ys with
    | nil => rfl
    | cons d ys =>
      have hd := ha d (by simp)
      exact Mem.store64_of_outside _ _ (by omega)
  rw [absorb, hrelink, Mem.store64_of_outside _ _ (by omega), Mem.store64_of_outside _ _ (by omega)]

/-- The headers after the absorption. -/
theorem Listed.absorbed_linked (h : Listed A role n V (xs ++ b :: c :: ys) m) (hb : b.free = true) :
    Linked (absorb V b c ys) null (xs ++ ⟨b.addr, b.size + (sizeofBlock + c.size), true⟩ :: ys) null := by
  obtain ⟨_, hxs, hys⟩ := h.around
  obtain ⟨hlxs, hlb, _, hlys⟩ := linked_split.mp h.linked
  have hcmem : c ∈ xs ++ b :: c :: ys := by simp
  have hbc : b.addr + 32 + b.size ≤ c.addr := hys c List.mem_cons_self
  obtain ⟨_, hend, htop⟩ := h.bounds hcmem
  have hfar : ∀ d ∈ ys, b.addr + 32 + b.size ≤ d.addr :=
    fun d hd => hys d (List.mem_cons_of_mem c hd)
  have hclear : ∀ a, a < b.addr + 32 + b.size → ∀ d ∈ ys, a < d.addr ∨ d.addr + 32 ≤ a := by
    intro a ha d hd
    have := hfar d hd
    omega
  have hnextLt : firstAddr ys null < 2 ^ 64 := h.firstAddr_lt fun d hd => by simp [hd]
  refine linked_split.mpr ⟨hlxs.congr fun d hd i hle hlt => ?_, ?_, ?_⟩
  · have := hxs d hd
    exact absorb_of_outside (.inl (by omega)) (hclear i (by omega))
  · refine Header.congr (V := (V.store64 b.addr (b.size + (sizeofBlock + c.size))).store64
      (b.addr + 16) (firstAddr ys null)) ?_ fun i hle (hlt : i < b.addr + 32) =>
        relink_of_clear (hclear i (by omega))
    rw [← hb]
    refine Header.storeNext (Header.storeSize hlb ?_) hnextLt
    unfold sizeofBlock
    omega
  · refine (hlys.congr fun d hd i hle hlt => ?_).relink (by omega) ?_
    · have := hfar d hd
      rw [Mem.store64_of_outside _ _ (by omega), Mem.store64_of_outside _ _ (by omega)]
    · exact ((List.pairwise_append.mp h.pairwise).2.1.of_cons.of_cons).imp fun hle => by omega

/-- Once the three words are written the list is one block shorter. -/
theorem Listed.absorbed (h : Listed A role n V (xs ++ b :: c :: ys) m) (hb : b.free = true)
    (hc : c.free = true) {ram : Mem} (hflat : Flat A role n (absorb V b c ys) {m with ram}) :
    Listed A role n (absorb V b c ys) (xs ++ ⟨b.addr, b.size + (sizeofBlock + c.size), true⟩ :: ys)
        {m with ram} ∧
      Preserves x (xs ++ b :: c :: ys) (xs ++ ⟨b.addr, b.size + (sizeofBlock + c.size), true⟩ :: ys) V
        (absorb V b c ys) := by
  obtain ⟨hbmem, _, hys⟩ := h.around
  have hbc : b.addr + 32 + b.size ≤ c.addr := hys c List.mem_cons_self
  have hcmem : c ∈ xs ++ b :: c :: ys := by simp
  refine ⟨⟨hflat, h.head, ?_, h.absorbed_linked hb, ?_, ?_⟩, ?_⟩
  · have hfirst := h.first
    rw [firstAddr_append] at hfirst ⊢
    exact hfirst
  · have hlaid := h.laid
    rw [show xs ++ b :: c :: ys = xs ++ [b, c] ++ ys by simp] at hlaid
    rw [List.append_cons]
    refine hlaid.replace fun a z hl => ?_
    obtain ⟨hle, hle', hz⟩ := hl
    have hz : c.addr + 32 + c.size ≤ z := hz
    refine ⟨hle, ?_⟩
    show b.addr + 32 + (b.size + (32 + c.size)) ≤ z
    omega
  · intro d hd
    have hsb := h.sized b hbmem
    have hsc := h.sized c hcmem
    simp only [List.mem_append, List.mem_cons] at hd
    rcases hd with hd | rfl | hd
    · exact h.sized d (List.mem_append_left _ hd)
    · unfold align sizeofBlock at *
      show b.addr % 16 = 0 ∧ (b.size + (32 + c.size)) % 16 = 0
      omega
    · exact h.sized d (by simp [hd])
  · intro d hd hu _
    refine ⟨?_, h.holds (fun a ha => absorb_of_outside (ha b hbmem) fun e he => ha e (by simp [he])) hd⟩
    simp only [List.mem_append, List.mem_cons] at hd ⊢
    rcases hd with hd | rfl | rfl | hd
    · exact .inl hd
    · rw [hb] at hu
      cases hu
    · rw [hc] at hu
      cases hu
    · exact .inr (.inr hd)

/-- What `b` becomes in front of `ys` when it absorbs a free block there. -/
def joinNext (b : Block) : List Block → List Block
  | [] => [b]
  | c :: ys => if c.free then ⟨b.addr, b.size + (sizeofBlock + c.size), true⟩ :: ys else b :: c :: ys

/-- The size of a block that absorbs the one behind it. -/
theorem Listed.absorbed_size (h : Listed A role n V (xs ++ b :: c :: ys) m) :
    add64 b.size (add64 sizeofBlock c.size) = b.size + (sizeofBlock + c.size) := by
  obtain ⟨_, _, hys⟩ := h.around
  obtain ⟨_, hend, htop⟩ := h.bounds (b := c) (by simp)
  have hbc := hys c List.mem_cons_self
  unfold sizeofBlock
  rw [add64_eq (a := 32) (by omega), add64_eq (by omega)]

/-- `if (b->next && b->next->free)` …, where there is no such block. -/
theorem Listed.mergeNext_none (h : Listed A role n V (xs ++ b :: ys) m)
    (hys : ∀ c ∈ ys.head?, c.free = false) : mergeNext m b.addr = .ok m := by
  obtain ⟨hbmem, _, _⟩ := h.around
  obtain ⟨_, hlb, hlys⟩ := linked_split.mp h.linked
  unfold Heap.mergeNext
  rw [h.toFlat.getNext (h.inHeap hbmem), ok_bind, hlb.next]
  cases ys with
  | nil => rfl
  | cons c ys =>
    have hcmem : c ∈ xs ++ b :: c :: ys := by simp
    simp only [firstAddr_cons, if_neg (h.ne_null hcmem), h.toFlat.getFree (h.inHeap hcmem), ok_bind, hlys.1.free,
      hys c rfl, Bool.false_eq_true, if_false]
    rfl

/-- `if (b->next && b->next->free)` …, where there is one: the words that are written. -/
theorem Listed.mergeNext_runs (h : Listed A role n V (xs ++ b :: c :: ys) m) (hc : c.free = true) :
    Stored A role n (absorb V b c ys) m (mergeNext m b.addr) := by
  obtain ⟨hbmem, _, hys⟩ := h.around
  obtain ⟨_, hlb, hlys⟩ := linked_split.mp h.linked
  have hcmem : c ∈ xs ++ b :: c :: ys := by simp
  have hin := h.inHeap hcmem
  obtain ⟨_, hend, htop⟩ := h.bounds hcmem
  have hbc : b.addr + 32 + b.size ≤ c.addr := hys c List.mem_cons_self
  have hysIn : ∀ d ∈ ys, InHeap n d.addr := fun d hd => h.inHeap (by simp [hd])
  unfold Heap.mergeNext
  rw [h.toFlat.getNext (h.inHeap hbmem), ok_bind, hlb.next]
  simp only [firstAddr_cons, if_neg (h.ne_null hcmem), h.toFlat.getFree hin, ok_bind, hlys.1.free, hc, if_true,
    h.toFlat.getSize (h.inHeap hbmem), h.toFlat.getSize hin, hlb.size, hlys.1.size, h.absorbed_size]
  obtain ⟨ram₁, hw₁, f₁⟩ := h.toFlat.setSize (h.inHeap hbmem) (b.size + (sizeofBlock + c.size))
  have hlb₁ := hlb.storeSize (x := b.size + (sizeofBlock + c.size))
    (by unfold sizeofBlock; omega)
  have hlc₁ := hlys.1.store_apart (d := b.addr) (by omega) (b.size + (sizeofBlock + c.size))
  have hnextLt := hlys.1.next ▸ Mem.load64_lt V (c.addr + 16)
  simp only [hw₁, ok_bind, f₁.getNext (h.inHeap hbmem), hlb₁.next, firstAddr_cons, f₁.getNext hin,
    hlc₁.next]
  obtain ⟨ram₂, hw₂, f₂⟩ := f₁.setNext (h.inHeap hbmem) (firstAddr ys null)
  simp only [hw₂, ok_bind, f₂.getNext (h.inHeap hbmem), (hlb₁.storeNext hnextLt).next]
  exact f₂.linkBack hysIn b.addr

theorem joinNext_none (hys : ∀ c ∈ ys.head?, c.free = false) : joinNext b ys = b :: ys := by
  cases ys with
  | nil => rfl
  | cons c ys => simp [joinNext, hys c rfl]

/-- `if (b->next && b->next->free)` … -/
theorem Listed.mergeNext (h : Listed A role n V (xs ++ b :: ys) m) (hb : b.free = true) :
    ∃ V' ram, mergeNext m b.addr = .ok {m with ram} ∧ Listed A role n V' (xs ++ joinNext b ys) {m with ram} ∧
      Still (xs ++ b :: ys) V V' := by
  by_cases hfree : ∃ c ∈ ys.head?, c.free = true
  · obtain ⟨c, hhead, hc⟩ := hfree
    obtain ⟨ys, rfl⟩ := List.head?_eq_some_iff.mp hhead
    obtain ⟨ram, hw, hflat⟩ := h.mergeNext_runs hc
    simp only [joinNext, hc, if_true]
    exact ⟨_, ram, hw, (h.absorbed (x := null) hb hc hflat).1, h.absorb_still⟩
  · have hnone : ∀ c ∈ ys.head?, c.free = false :=
      fun c hc => Bool.eq_false_iff.mpr fun hfree' => hfree ⟨c, hc, hfree'⟩
    rw [joinNext_none hnone, h.mergeNext_none hnone]
    exact ⟨V, m.ram, rfl, h, .refl _ V⟩

/-- `if (b->prev && b->prev->free)` …, where there is no such block. -/
theorem Listed.mergePrev_none (h : Listed A role n V (xs ++ b :: ys) m)
    (hxs : ∀ a ∈ xs.getLast?, a.free = false) : mergePrev m b.addr = .ok m := by
  obtain ⟨hbmem, _, _⟩ := h.around
  obtain ⟨hlxs, hlb, _⟩ := linked_split.mp h.linked
  unfold Heap.mergePrev
  rw [h.toFlat.getPrev (h.inHeap hbmem), ok_bind, hlb.prev]
  rcases List.eq_nil_or_concat' xs with rfl | ⟨xs, a, rfl⟩
  · rfl
  · have hamem : a ∈ xs ++ [a] ++ b :: ys := by simp
    have hla := (linked_split.mp hlxs).2.1
    simp only [lastAddr_snoc, if_neg (h.ne_null hamem), h.toFlat.getFree (h.inHeap hamem), ok_bind,
      hla.free, hxs a (by simp), Bool.false_eq_true, if_false]
    rfl

/-- `if (b->prev && b->prev->free)` …, where there is one: the words that are written. -/
theorem Listed.mergePrev_runs (h : Listed A role n V (xs ++ b :: c :: ys) m) (hb : b.free = true) :
    Stored A role n (absorb V b c ys) m (mergePrev m c.addr) := by
  obtain ⟨hbmem, _, hys⟩ := h.around
  obtain ⟨_, hlb, hlc, _⟩ := linked_split.mp h.linked
  have hcmem : c ∈ xs ++ b :: c :: ys := by simp
  have hin := h.inHeap hcmem
  have hbc : b.addr + 32 + b.size ≤ c.addr := hys c List.mem_cons_self
  have hysIn : ∀ d ∈ ys, InHeap n d.addr := fun d hd => h.inHeap (by simp [hd])
  unfold Heap.mergePrev
  simp only [h.toFlat.getPrev hin, ok_bind, hlc.prev, if_neg (h.ne_null hbmem),
    h.toFlat.getFree (h.inHeap hbmem), hlb.free, hb, if_true, h.toFlat.getSize (h.inHeap hbmem),
    h.toFlat.getSize hin, hlb.size, hlc.size, h.absorbed_size]
  obtain ⟨ram₁, hw₁, f₁⟩ := h.toFlat.setSize (h.inHeap hbmem) (b.size + (sizeofBlock + c.size))
  have hlc₁ := hlc.store_apart (d := b.addr) (by omega) (b.size + (sizeofBlock + c.size))
  simp only [hw₁, ok_bind, f₁.getPrev hin, hlc₁.prev, f₁.getNext hin, hlc₁.next]
  obtain ⟨ram₂, hw₂, f₂⟩ := f₁.setNext (h.inHeap hbmem) (firstAddr ys null)
  have hlc₂ := hlc₁.store_apart (d := b.addr + 16) (by omega) (firstAddr ys null)
  simp only [hw₂, ok_bind, f₂.getNext hin, hlc₂.next, f₂.getPrev hin, hlc₂.prev]
  exact f₂.linkBack hysIn b.addr

/-! ### Searching -/

theorem Listed.length_lt (h : Listed A role n V bs m) : bs.length < endless := by
  have hlen := h.laid.length_le
  have hcount := h.count
  have htop := h.pageAddr_lt (k := n) (by omega)
  unfold sizeofBlock at hlen
  unfold endless
  omega

/-- A block that `kmalloc` may take for `size` bytes. -/
def Fits (size : Nat) (b : Block) : Bool := b.free && decide (size ≤ b.size)

theorem Listed.fits (h : Listed A role n V bs m) {prev next size : Nat} (hb : b ∈ bs)
    (hl : Header V b.addr b.size b.free prev next) : fits m b.addr size = .ok (Fits size b) := by
  have hin := h.inHeap hb
  rw [Heap.fits, h.toFlat.getFree hin, ok_bind, hl.free, Fits]
  cases b.free
  · rfl
  · simp only [if_true, h.toFlat.getSize hin, ok_bind, hl.size, Bool.true_and]
    rfl

/-- The search from a block on finds the first that fits. -/
theorem Listed.findFit_suffix (h : Listed A role n V bs m) {size fuel prev : Nat}
    (hsub : ∀ b ∈ ys, b ∈ bs) (hl : Linked V prev ys null) (hfuel : ys.length < fuel) :
    findFit m size fuel (firstAddr ys null) =
      .ok (((ys.find? (Fits size)).map Block.addr).getD null) := by
  induction ys generalizing fuel prev with
  | nil =>
    obtain ⟨fuel, rfl⟩ := Nat.exists_eq_succ_of_ne_zero (Nat.ne_zero_of_lt hfuel)
    rfl
  | cons b ys ih =>
    obtain ⟨fuel, rfl⟩ := Nat.exists_eq_succ_of_ne_zero (Nat.ne_zero_of_lt hfuel)
    have hb := hsub b List.mem_cons_self
    rw [List.length_cons] at hfuel
    simp only [Heap.findFit, firstAddr_cons, if_neg (h.ne_null hb), h.fits hb hl.1, ok_bind,
      List.find?_cons]
    cases Fits size b
    · simp only [Bool.false_eq_true, if_false, h.toFlat.getNext (h.inHeap hb), ok_bind, hl.1.next]
      exact ih (fun c hc => hsub c (List.mem_cons_of_mem b hc)) hl.2 (by omega)
    · rfl

theorem Listed.findFit (h : Listed A role n V bs m) (size : Nat) :
    findFit m size endless m.head = .ok (((bs.find? (Fits size)).map Block.addr).getD null) := by
  rw [h.head, ← h.first]
  exact h.findFit_suffix (fun _ hb => hb) h.linked h.length_lt

theorem Listed.lastBlock_suffix (h : Listed A role n V bs m) {fuel prev : Nat}
    (hsub : ∀ b ∈ ys, b ∈ bs) (hne : ys ≠ []) (hl : Linked V prev ys null) (hfuel : ys.length ≤ fuel) :
    lastBlock m fuel (firstAddr ys null) = .ok (lastAddr prev ys) := by
  induction ys generalizing fuel prev with
  | nil => exact absurd rfl hne
  | cons b ys ih =>
    obtain ⟨fuel, rfl⟩ := Nat.exists_eq_succ_of_ne_zero (Nat.ne_zero_of_lt hfuel)
    have hb := hsub b List.mem_cons_self
    rw [List.length_cons] at hfuel
    simp only [lastBlock, firstAddr_cons, h.toFlat.getNext (h.inHeap hb), ok_bind, hl.1.next]
    cases ys with
    | nil => rfl
    | cons c ys =>
      have hc := hsub c (by simp)
      rw [if_neg (show firstAddr (c :: ys) null ≠ null from h.ne_null hc)]
      exact ih (fun d hd => hsub d (List.mem_cons_of_mem b hd)) (List.cons_ne_nil c ys) hl.2 (by omega)

/-- The list of a heap has a last block. -/
theorem Listed.exists_last (h : Listed A role n V bs m) : ∃ xs l, bs = xs ++ [l] := by
  rcases List.eq_nil_or_concat' bs with rfl | ⟨xs, l, rfl⟩
  · exact absurd h.first (show null ≠ heapBase by decide)
  · exact ⟨xs, l, rfl⟩

/-! ### Appending -/

/-- The memory with the header of a free block at `e`, behind the block `l`. -/
def attach (V : Mem) (l : Block) (e size : Nat) : Mem :=
  ((((V.store64 e size).set (e + 8) (if true then 1 else 0)).store64 (e + 16) null).store64
    (l.addr + 16) e).store64 (e + 24) l.addr

/-- The memory with the first three words of a free block at `e`. -/
def headed (V : Mem) (e size : Nat) : Mem :=
  ((V.store64 e size).set (e + 8) (if true then 1 else 0)).store64 (e + 16) null

theorem headed_of_outside {e a : Nat} (size : Nat) (ha : a < e ∨ e + 32 ≤ a) : headed V e size a = V a := by
  rw [headed, Mem.store64_of_outside _ _ (by omega), Mem.set_ne _ _ (by omega), Mem.store64_of_outside _ _ (by omega)]

section Append
variable {l : Block} {e size : Nat}

/-- Where the new block is: in the heap, and behind every other one. -/
theorem Listed.behind (h : Listed A role n V (xs ++ [l]) m) (hlaid : Laid sizeofBlock heapBase (xs ++ [l]) e)
    (he : e + 32 + size ≤ pageAddr n) :
    InHeap n e ∧ pageAddr n < 2 ^ 64 ∧ heapBase ≤ l.addr ∧
      ∀ d ∈ xs ++ [l], d.addr + 32 + d.size ≤ e := by
  have hl : l ∈ xs ++ [l] := List.mem_append_right xs (List.mem_singleton_self l)
  have hbelow : ∀ d ∈ xs ++ [l], heapBase ≤ d.addr ∧ d.addr + 32 + d.size ≤ e := fun d hd => hlaid.mem hd
  have hlast := hbelow l hl
  exact ⟨⟨by omega, by unfold sizeofBlock; omega⟩, (h.bounds hl).2.2, hlast.1, fun d hd => (hbelow d hd).2⟩

/-- The headers of the last block and of the new one. -/
theorem Listed.attach_headers (h : Listed A role n V (xs ++ [l]) m)
    (hlaid : Laid sizeofBlock heapBase (xs ++ [l]) e) (he : e + 32 + size ≤ pageAddr n) :
    Header (attach V l e size) l.addr l.size l.free (lastAddr null xs) e ∧
      Header (attach V l e size) e size true l.addr null := by
  obtain ⟨_, htop, _, hbelow⟩ := h.behind hlaid he
  have hlend := hbelow l (List.mem_append_right xs (List.mem_singleton_self l))
  have hlast : Header (headed V e size) l.addr l.size l.free (lastAddr null xs) null :=
    (linked_split.mp h.linked).2.1.congr fun a _ (hlt : a < l.addr + 32) => headed_of_outside size (.inl (by omega))
  have hnew := (((Header.self V e).storeSize (x := size) (by omega)).storeFree true).storeNext
    (x := null) (by decide)
  exact ⟨(hlast.storeNext (by omega)).store_apart (by omega) l.addr, (hnew.store_apart (by omega) e).storePrev (by omega)⟩

/-- `extend_heap` up to the merge: the new header is written and linked, and what is
left to do depends on the last block. -/
theorem Listed.appendBlock_runs (h : Listed A role n V (xs ++ [l]) m)
    (hlaid : Laid sizeofBlock heapBase (xs ++ [l]) e) (he : e + 32 + size ≤ pageAddr n) :
    ∃ ram, Flat A role n (attach V l e size) {m with ram} ∧ appendBlock m e size = (do
      if l.free then
        let m' ← Heap.setSize {m with ram} l.addr (add64 l.size (add64 sizeofBlock size))
        let m' ← Heap.setNext m' l.addr null
        return (l.addr, m')
      else return (e, {m with ram})) := by
  obtain ⟨hin, htop, _, hbelow⟩ := h.behind hlaid he
  obtain ⟨hlast, hnew⟩ := h.attach_headers hlaid he
  have hl : l ∈ xs ++ [l] := List.mem_append_right xs (List.mem_singleton_self l)
  obtain ⟨ram₁, hw₁, f₁⟩ := h.toFlat.setSize hin size
  obtain ⟨ram₂, hw₂, f₂⟩ := f₁.setFree hin true
  obtain ⟨ram₃, hw₃, f₃⟩ := f₂.setNext hin null
  have h₃ := h.reflat f₃ fun d hd a _ hlt => headed_of_outside size (.inl (by have := hbelow d hd; omega))
  have hfound : lastBlock {m with ram := ram₃} endless m.head = .ok l.addr := by
    have hfind := h₃.lastBlock_suffix (fun _ hd => hd) (by simp) h₃.linked (Nat.le_of_lt h₃.length_lt)
    rw [h.first, lastAddr_snoc, ← h.head] at hfind
    exact hfind
  obtain ⟨ram₄, hw₄, f₄⟩ := f₃.setNext (h.inHeap hl) e
  obtain ⟨ram₅, hw₅, f₅⟩ := f₄.setPrev hin l.addr
  have f₅ : Flat A role n (attach V l e size) {m with ram := ram₅} := f₅
  refine ⟨ram₅, f₅, ?_⟩
  unfold appendBlock
  simp only [hw₁, hw₂, hw₃, hw₄, hw₅, ok_bind, hfound, f₅.getFree (h.inHeap hl), hlast.free,
    f₅.getSize (h.inHeap hl), hlast.size, f₅.getSize hin, hnew.size]

/-- Then the list ends with the new block. -/
theorem Listed.attached (h : Listed A role n V (xs ++ [l]) m)
    (hlaid : Laid sizeofBlock heapBase (xs ++ [l]) e) (he : e + 32 + size ≤ pageAddr n)
    (hsized : e % align = 0 ∧ size % align = 0) {ram : Mem} (hflat : Flat A role n (attach V l e size) {m with ram}) :
    Listed A role n (attach V l e size) (xs ++ l :: [⟨e, size, true⟩]) {m with ram} ∧
      Preserves x (xs ++ [l]) (xs ++ l :: [⟨e, size, true⟩]) V (attach V l e size) := by
  obtain ⟨_, _, _, hbelow⟩ := h.behind hlaid he
  obtain ⟨hlast, hnew⟩ := h.attach_headers hlaid he
  have hl : l ∈ xs ++ [l] := List.mem_append_right xs (List.mem_singleton_self l)
  refine ⟨⟨hflat, h.head, ?_, linked_split.mpr ⟨?_, hlast, hnew, trivial⟩, ?_, ?_⟩, ?_⟩
  · have hfirst := h.first
    rw [firstAddr_append] at hfirst ⊢
    exact hfirst
  · refine (linked_split.mp h.linked).1.congr fun d hd a _ hlt => ?_
    have hdl := h.around.2.1 d hd
    have hde := hbelow d (List.mem_append_left _ hd)
    rw [attach, Mem.store64_of_outside _ _ (by omega), Mem.store64_of_outside _ _ (by omega)]
    exact headed_of_outside size (.inl (by omega))
  · rw [List.append_cons]
    exact Block.laid_append.mpr ⟨e, hlaid, Nat.le_refl e, he⟩
  · intro d hd
    rw [List.append_cons, List.mem_append, List.mem_singleton] at hd
    rcases hd with hd | rfl
    · exact h.sized d hd
    · exact hsized
  · intro d hd _ _
    refine ⟨by rw [List.append_cons]; exact List.mem_append_left _ hd, fun i hi => ?_⟩
    have hde := hbelow d hd
    have hlend := hbelow l hl
    have happart := hlaid.apart hl hd
    unfold Block.stop sizeofBlock at *
    rw [attach, Mem.store64_of_outside _ _ (by omega), Mem.store64_of_outside _ _
      (by rcases happart with rfl | hlt | hlt <;> omega)]
    exact headed_of_outside size (.inl (by omega))

/-- A block ends a settled list if it and the block before it are not both free. -/
theorem settled_snoc {b : Block} (hset : Settled xs) (hlast : ∀ a ∈ xs.getLast?, ¬ (a.free = true ∧ b.free = true)) :
    Settled (xs ++ [b]) :=
  Block.settled_split.mpr ⟨hset, hlast, (fun _ hc => nomatch hc), List.isChain_nil⟩

/-- `extend_heap` once the pages are there: a free block of at least the new size
ends the list. -/
theorem Listed.append (h : Listed A role n V bs m) (hset : Settled bs)
    (hlaid : Laid sizeofBlock heapBase bs e) (he : e + 32 + size ≤ pageAddr n)
    (hsized : e % align = 0 ∧ size % align = 0) :
    ∃ V' ram zs b, appendBlock m e size = .ok (b.addr, {m with ram}) ∧
      Listed A role n V' (zs ++ [b]) {m with ram} ∧ Settled (zs ++ [b]) ∧ used (zs ++ [b]) = used bs ∧
      b.free = true ∧ size ≤ b.size ∧ Preserves x bs (zs ++ [b]) V V' ∧
      (∀ d ∈ bs, d.free = false → d.addr ≠ b.addr) ∧
      zs ++ [b] = Block.coalesce sizeofBlock (bs ++ [⟨e, size, true⟩]) := by
  obtain ⟨xs, l, rfl⟩ := h.exists_last
  have hl : l ∈ xs ++ [l] := List.mem_append_right xs (List.mem_singleton_self l)
  obtain ⟨_, htop, _, hbelow⟩ := h.behind hlaid he
  have hlend := hbelow l hl
  obtain ⟨ram₅, f₅, hrun⟩ := h.appendBlock_runs hlaid he
  obtain ⟨h₅, hpres₅⟩ := h.attached (x := x) hlaid he hsized f₅
  obtain ⟨hsxs, hsprev, _, _⟩ := Block.settled_split.mp hset
  rw [hrun]
  cases hfree : l.free
  · -- the new block stands alone
    simp only [Bool.false_eq_true, if_false]
    rw [List.append_cons xs l [⟨e, size, true⟩]] at h₅ hpres₅
    have hsettled : Settled (xs ++ [l] ++ [⟨e, size, true⟩]) := by
      refine settled_snoc hset fun a ha => ?_
      rw [List.getLast?_concat] at ha
      cases ha
      rw [hfree]
      exact fun h => nomatch h.1
    refine ⟨_, ram₅, xs ++ [l], ⟨e, size, true⟩, rfl, h₅, hsettled, ?_, rfl, Nat.le_refl size,
      hpres₅, ?_, (Block.coalesce_of_settled hsettled).symm⟩
    · rw [Block.used_append]
      rfl
    · intro d hd _ heq
      have := hbelow d hd
      have heq : d.addr = e := heq
      omega
  · -- the last block absorbs it
    have hsum : add64 l.size (add64 sizeofBlock size) = l.size + (sizeofBlock + size) := by
      unfold sizeofBlock
      rw [add64_eq (a := 32) (by omega), add64_eq (by omega)]
    obtain ⟨ram₆, hw₆, f₆⟩ := f₅.setSize (h.inHeap hl) (l.size + (sizeofBlock + size))
    obtain ⟨ram₇, hw₇, f₇⟩ := f₆.setNext (h.inHeap hl) null
    obtain ⟨hlisted, hpres⟩ := h₅.absorbed (x := x) hfree rfl f₇
    have hsettled : Settled (xs ++ [⟨l.addr, l.size + (sizeofBlock + size), true⟩]) := by
      refine settled_snoc hsxs fun a ha => ?_
      have := hsprev a ha
      rw [hfree] at this
      exact this
    simp only [if_true, hsum, hw₆, hw₇, ok_bind]
    refine ⟨_, ram₇, xs, ⟨l.addr, l.size + (sizeofBlock + size), true⟩, rfl, hlisted, hsettled,
      ?_, rfl, ?_, hpres₅.trans hpres, ?_, ?_⟩
    · rw [Block.used_append, Block.used_append]
      simp only [used, hfree, if_true]
    · show size ≤ l.size + (32 + size)
      omega
    · intro d hd hu heq
      have heq : d.addr = l.addr := heq
      rcases hlaid.apart hd hl with rfl | hlt | hlt
      · rw [hfree] at hu
        cases hu
      · unfold Block.stop sizeofBlock at hlt
        omega
      · unfold Block.stop sizeofBlock at hlt
        omega
    · have hjoin := Block.coalesce_join (h := sizeofBlock) (c := ⟨e, size, true⟩) xs [] hfree rfl
      rw [← List.append_cons xs l [⟨e, size, true⟩], ← hjoin]
      exact (Block.coalesce_of_settled hsettled).symm

end Append

end ArcMonark.Mm.Heap
