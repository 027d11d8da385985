import ArcMonark.Mm.HeapMemory
import ArcMonark.Library.Blocks

/-! The block list in memory.

`Linked` reads a list of blocks off the headers in a flat memory, `Listed` adds
what the list is for a heap: it starts at `HEAP_BASE` and is laid out up to the
heap's end. Each piece of `heap.c` that rewrites headers takes a listed heap to a
listed heap, and leaves what other blocks hold alone (`Preserves`). -/
namespace ArcMonark.Mm.Heap
open Library Pmm Vmm Virtual
open Block (Laid Settled used)

/-! ### Headers -/

/-- The header at `a`. -/
structure Header (V : Mem) (a size : Nat) (free : Bool) (prev next : Nat) : Prop where
  size : V.load64 a = size
  free : (V (a + 8) != 0#8) = free
  next : V.load64 (a + 16) = next
  prev : V.load64 (a + 24) = prev

namespace Header
variable {V V' : Mem} {a size prev next x d : Nat} {free : Bool}

/-- Any bytes are a header. -/
theorem self (V : Mem) (a : Nat) :
    Header V a (V.load64 a) (V (a + 8) != 0#8) (V.load64 (a + 24)) (V.load64 (a + 16)) :=
  ⟨rfl, rfl, rfl, rfl⟩

theorem congr (h : Header V a size free prev next) (hag : ∀ i, a ≤ i → i < a + 32 → V' i = V i) :
    Header V' a size free prev next := by
  refine ⟨?_, ?_, ?_, ?_⟩
  · rw [Mem.load64_congr fun i hle hlt => hag i hle (by omega), h.size]
  · rw [hag (a + 8) (by omega) (by omega), h.free]
  · rw [Mem.load64_congr fun i hle hlt => hag i (by omega) (by omega), h.next]
  · rw [Mem.load64_congr fun i hle hlt => hag i (by omega) (by omega), h.prev]

theorem store_apart (h : Header V a size free prev next) (hd : a + 32 ≤ d ∨ d + 8 ≤ a) (x : Nat) :
    Header (V.store64 d x) a size free prev next :=
  h.congr fun _ _ _ => Mem.store64_of_outside _ _ (by omega)

theorem set_apart (h : Header V a size free prev next) (hd : a + 32 ≤ d ∨ d < a) (b : Byte) :
    Header (V.set d b) a size free prev next :=
  h.congr fun _ _ _ => Mem.set_ne _ _ (by omega)

theorem storeSize (h : Header V a size free prev next) (hx : x < 2 ^ 64) :
    Header (V.store64 a x) a x free prev next := by
  refine ⟨Mem.load64_store64_same _ _ hx, ?_, ?_, ?_⟩
  · rw [Mem.store64_of_outside _ _ (by omega), h.free]
  · rw [Mem.load64_store64_apart _ _ (by omega), h.next]
  · rw [Mem.load64_store64_apart _ _ (by omega), h.prev]

theorem storeFree (h : Header V a size free prev next) (f : Bool) :
    Header (V.set (a + 8) (if f then 1 else 0)) a size f prev next := by
  refine ⟨?_, ?_, ?_, ?_⟩
  · rw [Mem.load64_set_apart _ _ (by omega), h.size]
  · rw [Mem.set_same]
    cases f <;> decide
  · rw [Mem.load64_set_apart _ _ (by omega), h.next]
  · rw [Mem.load64_set_apart _ _ (by omega), h.prev]

theorem storeNext (h : Header V a size free prev next) (hx : x < 2 ^ 64) :
    Header (V.store64 (a + 16) x) a size free prev x := by
  refine ⟨?_, ?_, Mem.load64_store64_same _ _ hx, ?_⟩
  · rw [Mem.load64_store64_apart _ _ (by omega), h.size]
  · rw [Mem.store64_of_outside _ _ (by omega), h.free]
  · rw [Mem.load64_store64_apart _ _ (by omega), h.prev]

theorem storePrev (h : Header V a size free prev next) (hx : x < 2 ^ 64) :
    Header (V.store64 (a + 24) x) a size free x next := by
  refine ⟨?_, ?_, ?_, Mem.load64_store64_same _ _ hx⟩
  · rw [Mem.load64_store64_apart _ _ (by omega), h.size]
  · rw [Mem.store64_of_outside _ _ (by omega), h.free]
  · rw [Mem.load64_store64_apart _ _ (by omega), h.next]

end Header

/-! ### Lists of headers -/

/-- The address of the first block, or what comes after none. -/
def firstAddr : List Block → Nat → Nat
  | [], next => next
  | b :: _, _ => b.addr

/-- The address of the last block, or what comes before none. -/
def lastAddr (prev : Nat) : List Block → Nat
  | [] => prev
  | b :: bs => lastAddr b.addr bs

/-- The headers of `bs`, one linked to the next and back, between the blocks
`prev` and `next`. -/
def Linked (V : Mem) (prev : Nat) : List Block → Nat → Prop
  | [], _ => True
  | b :: bs, next => Header V b.addr b.size b.free prev (firstAddr bs next) ∧ Linked V b.addr bs next

/-- `relink V ys x` sets the first block's `prev`, if there is a first block. -/
def relink (V : Mem) (ys : List Block) (x : Nat) : Mem :=
  match ys with
  | [] => V
  | c :: _ => V.store64 (c.addr + 24) x

section Linked
variable {V V' : Mem} {prev next x : Nat} {b : Block} {xs ys : List Block}

theorem lastAddr_snoc (prev : Nat) (xs : List Block) (b : Block) : lastAddr prev (xs ++ [b]) = b.addr := by
  induction xs generalizing prev with
  | nil => rfl
  | cons x xs ih => exact ih x.addr

theorem firstAddr_cons (b : Block) (bs : List Block) (next : Nat) :
    firstAddr (b :: bs) next = b.addr := rfl

theorem firstAddr_append (xs ys : List Block) (next : Nat) :
    firstAddr (xs ++ ys) next = firstAddr xs (firstAddr ys next) := by
  cases xs <;> rfl

theorem linked_append : Linked V prev (xs ++ ys) next ↔
    Linked V prev xs (firstAddr ys next) ∧ Linked V (lastAddr prev xs) ys next := by
  induction xs generalizing prev with
  | nil => exact ⟨fun h => ⟨trivial, h⟩, fun h => h.2⟩
  | cons x xs ih =>
    simp only [List.cons_append, Linked, lastAddr, ih, firstAddr_append, and_assoc]

/-- A linked list around one of its blocks. -/
theorem linked_split : Linked V prev (xs ++ b :: ys) next ↔ Linked V prev xs b.addr ∧
    Header V b.addr b.size b.free (lastAddr prev xs) (firstAddr ys next) ∧ Linked V b.addr ys next :=
  linked_append

theorem Linked.congr (h : Linked V prev xs next)
    (hag : ∀ c ∈ xs, ∀ i, c.addr ≤ i → i < c.addr + 32 → V' i = V i) : Linked V' prev xs next := by
  induction xs generalizing prev with
  | nil => trivial
  | cons x xs ih =>
    exact ⟨h.1.congr (hag x List.mem_cons_self),
      ih h.2 fun c hc => hag c (List.mem_cons_of_mem x hc)⟩

theorem relink_of_clear {a : Nat} (h : ∀ c ∈ ys, a < c.addr ∨ c.addr + 32 ≤ a) :
    relink V ys x a = V a := by
  cases ys with
  | nil => rfl
  | cons c ys =>
    have := h c List.mem_cons_self
    exact Mem.store64_of_outside _ _ (by omega)

/-- After `next->prev = x` a list follows `x`. -/
theorem Linked.relink (h : Linked V prev ys next) (hx : x < 2 ^ 64)
    (hp : ys.Pairwise fun b c => b.addr + 32 ≤ c.addr) : Linked (relink V ys x) x ys next := by
  cases ys with
  | nil => trivial
  | cons c ys =>
    rw [List.pairwise_cons] at hp
    refine ⟨h.1.storePrev hx, h.2.congr fun d hd i hle _ => ?_⟩
    have := hp.1 d hd
    exact Mem.store64_of_outside _ _ (by omega)

end Linked

/-! ### The list of a heap -/

/-- A flat heap with its block list. -/
structure Listed (A : Space) (role : Nat → Role) (n : Nat) (V : Mem) (bs : List Block)
    (m : Machine) : Prop extends Flat A role n V m where
  head : m.head = heapBase
  first : firstAddr bs null = heapBase
  linked : Linked V null bs null
  laid : Laid sizeofBlock heapBase bs (pageAddr n)
  sized : ∀ b ∈ bs, b.addr % align = 0 ∧ b.size % align = 0

/-- A block holds what it held. -/
def Holds (c : Block) (V V' : Mem) : Prop :=
  ∀ i, i < c.size → V' (c.addr + sizeofBlock + i) = V (c.addr + sizeofBlock + i)

/-- From `bs` to `bs'` the blocks in use, but for the one at `x`, stay and hold
what they held. -/
def Preserves (x : Nat) (bs bs' : List Block) (V V' : Mem) : Prop :=
  ∀ c ∈ bs, c.free = false → c.addr ≠ x → c ∈ bs' ∧ Holds c V V'

theorem Preserves.refl (x : Nat) (bs : List Block) (V : Mem) : Preserves x bs bs V V :=
  fun _ hc _ _ => ⟨hc, fun _ _ => rfl⟩

theorem Preserves.trans {x : Nat} {bs bs' bs'' : List Block} {V V' V'' : Mem}
    (h : Preserves x bs bs' V V') (h' : Preserves x bs' bs'' V' V'') : Preserves x bs bs'' V V'' := by
  intro c hc hu hx
  obtain ⟨hc', hold⟩ := h c hc hu hx
  obtain ⟨hc'', hold'⟩ := h' c hc' hu hx
  exact ⟨hc'', fun i hi => (hold' i hi).trans (hold i hi)⟩

/-- A header's place in the heap. -/
def InHeap (n b : Nat) : Prop := heapBase ≤ b ∧ b + sizeofBlock ≤ pageAddr n

section Fields
variable {A : Space} {role : Nat → Role} {n : Nat} {V : Mem} {m : Machine} {b : Nat}

theorem InHeap.field (h : Flat A role n V m) (hb : InHeap n b) {k : Nat} (hk : k < 32) :
    add64 b k = b + k := by
  have hlt := h.heap_lt (v := b + k) (by
    have := hb.2
    unfold sizeofBlock at this
    omega)
  exact add64_eq hlt

variable (h : Flat A role n V m) (hb : InHeap n b)
include h hb

theorem Flat.getSize : getSize m b = .ok (V.load64 b) :=
  h.read64 hb.1 (by have := hb.2; unfold sizeofBlock at this; omega)

theorem Flat.getFree : getFree m b = .ok (V (b + 8) != 0#8) := by
  have hend := hb.2
  have hbase := hb.1
  unfold sizeofBlock at hend
  rw [Heap.getFree, hb.field h (by decide), h.bytes _ (by omega) (by omega)]
  rfl

theorem Flat.getNext : getNext m b = .ok (V.load64 (b + 16)) := by
  have hend := hb.2
  have hbase := hb.1
  unfold sizeofBlock at hend
  rw [Heap.getNext, hb.field h (by decide)]
  exact h.read64 (by omega) (by omega)

theorem Flat.getPrev : getPrev m b = .ok (V.load64 (b + 24)) := by
  have hend := hb.2
  have hbase := hb.1
  unfold sizeofBlock at hend
  rw [Heap.getPrev, hb.field h (by decide)]
  exact h.read64 (by omega) (by omega)

theorem Flat.patchSize (x : Nat) : Patched A role n (V.store64 b x) m (Heap.setSize m b x) :=
  h.patch64 hb.1 (by have := hb.2; unfold sizeofBlock at this; omega) x

theorem Flat.patchFree (f : Bool) :
    Patched A role n (V.set (b + 8) (if f then 1 else 0)) m (Heap.setFree m b f) := by
  have hend := hb.2
  have hbase := hb.1
  unfold sizeofBlock at hend
  rw [Heap.setFree, hb.field h (by decide)]
  exact h.patchByte (by omega) (by omega) _

theorem Flat.patchNext (x : Nat) : Patched A role n (V.store64 (b + 16) x) m (Heap.setNext m b x) := by
  have hend := hb.2
  have hbase := hb.1
  unfold sizeofBlock at hend
  rw [Heap.setNext, hb.field h (by decide)]
  exact h.patch64 (by omega) (by omega) x

theorem Flat.patchPrev (x : Nat) : Patched A role n (V.store64 (b + 24) x) m (Heap.setPrev m b x) := by
  have hend := hb.2
  have hbase := hb.1
  unfold sizeofBlock at hend
  rw [Heap.setPrev, hb.field h (by decide)]
  exact h.patch64 (by omega) (by omega) x

theorem Flat.setSize (x : Nat) : Stored A role n (V.store64 b x) m (setSize m b x) := (h.patchSize hb x).stored

theorem Flat.setFree (f : Bool) :
    Stored A role n (V.set (b + 8) (if f then 1 else 0)) m (setFree m b f) := (h.patchFree hb f).stored

theorem Flat.setNext (x : Nat) : Stored A role n (V.store64 (b + 16) x) m (setNext m b x) := (h.patchNext hb x).stored

theorem Flat.setPrev (x : Nat) : Stored A role n (V.store64 (b + 24) x) m (setPrev m b x) := (h.patchPrev hb x).stored

omit hb in
theorem Flat.patchBack {ys : List Block} (hys : ∀ c ∈ ys, InHeap n c.addr) (x : Nat) :
    Patched A role n (relink V ys x) m (Heap.linkBack m (firstAddr ys null) x) := by
  cases ys with
  | nil => exact ⟨m.ram, rfl, h, .refl role m.ram⟩
  | cons c ys =>
    have hc := hys c List.mem_cons_self
    have hne : c.addr ≠ null := by
      have := hc.1
      unfold null heapBase at *
      omega
    rw [show firstAddr (c :: ys) null = c.addr from rfl, Heap.linkBack, if_pos hne]
    exact h.patchPrev hc x

omit hb in
theorem Flat.linkBack {ys : List Block} (hys : ∀ c ∈ ys, InHeap n c.addr) (x : Nat) :
    Stored A role n (relink V ys x) m (linkBack m (firstAddr ys null) x) := (h.patchBack hys x).stored

end Fields

namespace Listed
variable {A : Space} {role : Nat → Role} {n : Nat} {V : Mem} {bs : List Block} {m : Machine}

theorem inHeap (h : Listed A role n V bs m) {b : Block} (hb : b ∈ bs) : InHeap n b.addr := by
  obtain ⟨hle, hstop⟩ := h.laid.mem hb
  exact ⟨hle, by unfold Block.stop at hstop; omega⟩

/-- Where a block lies. -/
theorem bounds (h : Listed A role n V bs m) {b : Block} (hb : b ∈ bs) :
    heapBase ≤ b.addr ∧ b.addr + 32 + b.size ≤ pageAddr n ∧ pageAddr n < 2 ^ 64 := by
  have hcount := h.count
  obtain ⟨hle, hstop⟩ := h.laid.mem hb
  exact ⟨hle, hstop, h.pageAddr_lt (by omega)⟩

theorem ne_null (h : Listed A role n V bs m) {b : Block} (hb : b ∈ bs) : b.addr ≠ null := by
  have := (h.bounds hb).1
  unfold null heapBase at *
  omega

theorem pairwise (h : Listed A role n V bs m) :
    bs.Pairwise fun b c => b.addr + 32 + b.size ≤ c.addr := h.laid.pairwise

/-- What lies in no header of the list is kept. -/
theorem holds (h : Listed A role n V bs m) {V' : Mem}
    (hkeep : ∀ a, (∀ b ∈ bs, a < b.addr ∨ b.addr + 32 ≤ a) → V' a = V a) {c : Block} (hc : c ∈ bs) :
    Holds c V V' := by
  intro i hi
  refine hkeep _ fun b hb => ?_
  have happart := h.laid.apart hb hc
  unfold Block.stop sizeofBlock at *
  rcases happart with rfl | hlt | hlt
  · omega
  · omega
  · omega

/-- Writes that touch no header leave the list as it is. -/
theorem reflat (h : Listed A role n V bs m) {V' : Mem} {ram : Mem} (hflat : Flat A role n V' {m with ram})
    (hkeep : ∀ b ∈ bs, ∀ a, b.addr ≤ a → a < b.addr + 32 → V' a = V a) :
    Listed A role n V' bs {m with ram} :=
  ⟨hflat, h.head, h.first, h.linked.congr hkeep, h.laid, h.sized⟩

/-- So does a change of the count of used bytes. -/
theorem setUsed (h : Listed A role n V bs m) (usedBytes : Nat) :
    Listed A role n V bs {m with usedBytes} :=
  ⟨h.toFlat.vars m.head usedBytes, h.head, h.first, h.linked, h.laid, h.sized⟩

/-- And growth behind the heap's end. -/
theorem grow (h : Listed A role n V bs m) {role' : Nat → Role} {n' : Nat} {m' : Machine}
    (h' : Backed A role' n' m') (g : Growth role role' m m') (hn : n ≤ n') :
    ∃ V', Listed A role' n' V' bs m' ∧ ∀ x, Preserves x bs bs V V' := by
  obtain ⟨V', hV', hsame⟩ := h.toFlat.grow h' g
  have hhead : m'.head = m.head := by rw [g.fields]
  refine ⟨V', ⟨hV', hhead.trans h.head, h.first, h.linked.congr fun c hc i hle hlt => ?_,
    h.laid.mono (pageAddr_mono hn), h.sized⟩, fun x c hc _ _ => ⟨hc, fun i hi => ?_⟩⟩
  · obtain ⟨hbase, hend, _⟩ := h.bounds hc
    exact hsame i (by omega) (by omega)
  · obtain ⟨hbase, hend, _⟩ := h.bounds hc
    unfold sizeofBlock
    exact hsame _ (by omega) (by omega)

end Listed

end ArcMonark.Mm.Heap
