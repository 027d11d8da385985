import ArcMonark.Mm.HeapPages

/-! The heap as a flat memory.

On a backed heap, bytes and words between `HEAP_BASE` and the heap's end read and
write as those of one byte memory `V` (`Flat`): the page tables, the frames
behind the pages and the other contents of physical memory stay out of sight.
Growing keeps the bytes that are there (`Flat.grow`). -/
namespace ArcMonark.Mm.Heap
open Library Pmm Vmm Virtual

/-- A backed heap that holds the bytes of `V`. -/
structure Flat (A : Space) (role : Nat → Role) (n : Nat) (V : Mem) (m : Machine) : Prop
    extends Backed A role n m where
  bytes : ∀ v, heapBase ≤ v → v < pageAddr n → readByte m v = .ok (V v)

/-- A call returned with `V` in the heap, and with every variable as it was. -/
def Stored (A : Space) (role : Nat → Role) (n : Nat) (V : Mem) (m : Machine)
    (r : Except Fault Machine) : Prop :=
  ∃ ram, r = .ok {m with ram} ∧ Flat A role n V {m with ram}

/-- Physical memory has changed in the heap's pages only. -/
def PagesOnly (role : Nat → Role) (ram ram' : Mem) : Prop :=
  ∀ a, (∀ k, role (a / pageSize) ≠ .page k) → ram' a = ram a

theorem PagesOnly.refl (role : Nat → Role) (ram : Mem) : PagesOnly role ram ram := fun _ _ => rfl

theorem PagesOnly.trans {role : Nat → Role} {ram ram' ram'' : Mem} (h : PagesOnly role ram ram')
    (h' : PagesOnly role ram' ram'') : PagesOnly role ram ram'' := fun a ha => (h' a ha).trans (h a ha)

/-- `Stored`, and nothing was written outside the heap's pages. -/
def Patched (A : Space) (role : Nat → Role) (n : Nat) (V : Mem) (m : Machine)
    (r : Except Fault Machine) : Prop :=
  ∃ ram, r = .ok {m with ram} ∧ Flat A role n V {m with ram} ∧ PagesOnly role m.ram ram

theorem Patched.stored {A : Space} {role : Nat → Role} {n : Nat} {V : Mem} {m : Machine} {r : Except Fault Machine}
    (h : Patched A role n V m r) : Stored A role n V m r := by
  obtain ⟨ram, hr, hflat, _⟩ := h
  exact ⟨ram, hr, hflat⟩

/-- A write whose last byte is not mapped faults before anything is written. -/
theorem writeBytes_unmapped {m : Machine} {v k : Nat} (hlt : v + k < 2 ^ 64)
    (h : walk m.ram m.cr3 (v + k) = none) (x : Nat) :
    writeBytes m v (k + 1) x = .error (.pageFault (v + k)) := by
  induction k generalizing v x with
  | zero =>
    simp only [Virtual.writeBytes, ok_bind, Virtual.writeByte]
    rw [Nat.add_zero] at h
    simp only [h, Nat.add_zero]
  | succ k ih =>
    have hnext : add64 v 1 = v + 1 := add64_eq (by omega)
    have hsum : v + 1 + k = v + (k + 1) := by omega
    rw [Virtual.writeBytes, hnext, ih (v := v + 1) (by omega) (by rw [hsum]; exact h), hsum, error_bind]

/-! ### Writes to pages of the heap -/

namespace Backed
variable {A : Space} {role : Nat → Role} {n : Nat} {m : Machine}

/-- The machine's other bytes and the translations do not depend on what pages hold. -/
theorem store (h : Backed A role n m) {ram : Mem}
    (hag : ∀ a, (∀ k, role (a / pageSize) ≠ .page k) → ram a = m.ram a) :
    Backed A role n {m with ram} ∧ ∀ v, walk ram A.root v = walk m.ram A.root v := by
  have htables : ∀ a, (role (a / pageSize)).IsTable → ram a = m.ram a := by
    intro a ha
    refine hag a fun k heq => ?_
    rw [heq] at ha
    exact ha
  have hsame : SameFrames A.map.bitmapBase m {m with ram} := by
    refine ⟨rfl, rfl, rfl, rfl, rfl, fun a hle hlt => hag a fun k heq => ?_⟩
    rw [h.toTables.bitmap_byte hle hlt] at heq
    cases heq
  have hwalk := h.shape.walk_congr htables
  refine ⟨⟨⟨h.toAllocator.same hsame, h.shape.congr htables, h.cr3, h.pml4, fun f hf => ?_,
    h.bitmap_role⟩, h.top, h.owned, h.lowest, h.heapEnd, h.count, h.page, fun f k hf => ?_,
    fun v hv ho hout => ?_, fun q t hq hlen ht => ?_⟩, hwalk⟩
  · rcases h.taken f hf with hge | hset
    · exact .inl hge
    · by_cases hlt : f < m.totalFrames
      · exact .inr (by rw [hsame.bmpTest h.toPlaced hlt]; exact hset)
      · exact .inl (Nat.le_of_not_lt hlt)
  · obtain ⟨hk, hlt, hto⟩ := h.leads f k hf
    exact ⟨hk, hlt, fun v hv => by rw [hwalk, hto v hv]⟩
  · rw [hwalk, h.beyond v hv ho hout]
  · rw [h.shape.tableAt_congr htables hlen] at ht
    exact h.grown q t hq hlen ht

/-- Where an address of the heap leads. -/
theorem walk_heap (h : Backed A role n m) {v : Nat} (hle : heapBase ≤ v) (hlt : v < pageAddr n) :
    ∃ f k, role f = .page k ∧ InPage k v ∧
      walk m.ram m.cr3 v = some ⟨f * pageSize + v % pageSize, true, false, false⟩ := by
  obtain ⟨k, hk, hin⟩ := exists_inPage hle hlt
  obtain ⟨f, hf⟩ := h.page k hk
  refine ⟨f, k, hf, hin, ?_⟩
  rw [h.cr3]
  exact (h.leads f k hf).2.2 v hin

end Backed

theorem offset_page (f v : Nat) : (f * pageSize + v % pageSize) / pageSize = f := by
  unfold pageSize
  omega

namespace Flat
variable {A : Space} {role : Nat → Role} {n : Nat} {V : Mem} {m : Machine}

/-- The memory a backed heap holds. -/
theorem exists_of_backed (h : Backed A role n m) : ∃ V, Flat A role n V m := by
  refine ⟨fun v => match readByte m v with | .ok b => b | .error _ => 0, h, fun v hle hlt => ?_⟩
  obtain ⟨f, k, _, _, hwalk⟩ := h.walk_heap hle hlt
  simp only [readByte, hwalk]

theorem patchByte (h : Flat A role n V m) {v : Nat} (hle : heapBase ≤ v) (hlt : v < pageAddr n)
    (b : Byte) : Patched A role n (V.set v b) m (writeByte m v b) := by
  obtain ⟨f, k, hf, hin, hwalk⟩ := h.walk_heap hle hlt
  have hother : PagesOnly role m.ram (m.ram.set (f * pageSize + v % pageSize) b) := by
    intro a ha
    refine Mem.set_ne _ _ fun heq => ha k ?_
    rw [heq, offset_page, hf]
  obtain ⟨hbacked, hwalk'⟩ := h.toBacked.store hother
  refine ⟨_, by rw [Virtual.writeByte, hwalk]; rfl, ⟨hbacked, fun w hwle hwlt => ?_⟩, hother⟩
  have hroot : ∀ w, walk (m.ram.set (f * pageSize + v % pageSize) b) m.cr3 w = walk m.ram m.cr3 w := by
    intro w
    rw [h.cr3]
    exact hwalk' w
  by_cases hwv : w = v
  · simp only [readByte, hroot, hwv, hwalk, Mem.set_same]
  · have hold := h.bytes w hwle hwlt
    obtain ⟨g, j, hg, hin', hwalkw⟩ := h.walk_heap hwle hwlt
    rw [readByte, hwalkw] at hold
    have hne : g * pageSize + w % pageSize ≠ f * pageSize + v % pageSize := by
      intro heq
      have hgf : g = f := by rw [← offset_page g w, heq, offset_page]
      rw [hgf, hf] at hg
      have hkj : k = j := Role.page.inj hg
      subst hkj hgf
      rw [inPage_iff] at hin hin'
      unfold pageAddr heapBase pageSize at *
      omega
    simp only [readByte, hroot, hwalkw, Mem.set_ne _ _ hne, Mem.set_ne _ _ hwv]
    exact hold

theorem writeByte (h : Flat A role n V m) {v : Nat} (hle : heapBase ≤ v) (hlt : v < pageAddr n)
    (b : Byte) : Stored A role n (V.set v b) m (writeByte m v b) := (h.patchByte hle hlt b).stored

/-! ### Words -/

/-- Inside the heap an address has a next one. -/
theorem next (h : Flat A role n V m) {v : Nat} (hlt : v < pageAddr n) : add64 v 1 = v + 1 := by
  have hcount := h.count
  have := h.pageAddr_lt (k := n) (by omega)
  exact add64_eq (by omega)

theorem readBytes (h : Flat A role n V m) {v k : Nat} (hle : heapBase ≤ v) (hlt : v + k ≤ pageAddr n) :
    readBytes m v k = .ok (V.load v k) := by
  induction k generalizing v with
  | zero => rfl
  | succ k ih =>
    rw [Virtual.readBytes, h.bytes v hle (by omega), ok_bind, h.next (by omega), ih (by omega) (by omega)]
    rfl

theorem patchBytes (h : Flat A role n V m) {v k : Nat} (hle : heapBase ≤ v) (hlt : v + k ≤ pageAddr n)
    (x : Nat) : Patched A role n (V.store v k x) m (writeBytes m v k x) := by
  induction k generalizing v x with
  | zero => exact ⟨m.ram, rfl, h, .refl role m.ram⟩
  | succ k ih =>
    obtain ⟨ram₁, hw₁, h₁, hp₁⟩ := ih (v := v + 1) (by omega) (by omega) (x / 256)
    obtain ⟨ram₂, hw₂, h₂, hp₂⟩ := h₁.patchByte hle (by omega) (BitVec.ofNat 8 x)
    exact ⟨ram₂, by rw [Virtual.writeBytes, h.next (by omega), hw₁, ok_bind, hw₂], h₂, hp₁.trans hp₂⟩

theorem writeBytes (h : Flat A role n V m) {v k : Nat} (hle : heapBase ≤ v) (hlt : v + k ≤ pageAddr n)
    (x : Nat) : Stored A role n (V.store v k x) m (writeBytes m v k x) := (h.patchBytes hle hlt x).stored

theorem read64 (h : Flat A role n V m) {v : Nat} (hle : heapBase ≤ v) (hlt : v + 8 ≤ pageAddr n) :
    read64 m v = .ok (V.load64 v) := h.readBytes hle hlt

theorem patch64 (h : Flat A role n V m) {v : Nat} (hle : heapBase ≤ v) (hlt : v + 8 ≤ pageAddr n)
    (x : Nat) : Patched A role n (V.store64 v x) m (write64 m v x) := h.patchBytes hle hlt x

/-- Copying between two parts of the heap that lie apart. -/
theorem memcpyFrom (h : Flat A role n V m) {dest src i k : Nat} (hd : heapBase ≤ dest)
    (hdlt : dest + (i + k) ≤ pageAddr n) (hs : heapBase ≤ src) (hslt : src + (i + k) ≤ pageAddr n)
    (hapart : src + (i + k) ≤ dest ∨ dest + (i + k) ≤ src) :
    ∃ V', Stored A role n V' m (memcpyFrom m dest src i k) ∧
      (∀ j, i ≤ j → j < i + k → V' (dest + j) = V (src + j)) ∧
      ∀ a, (a < dest + i ∨ dest + (i + k) ≤ a) → V' a = V a := by
  induction k generalizing i m V with
  | zero =>
    exact ⟨V, ⟨m.ram, rfl, h⟩, fun j hle hlt => absurd hlt (by omega), fun _ _ => rfl⟩
  | succ k ih =>
    have hcount := h.count
    have htop := h.pageAddr_lt (k := n) (by omega)
    obtain ⟨ram₁, hw₁, h₁⟩ := h.writeByte (v := dest + i) (by omega) (by omega) (V (src + i))
    obtain ⟨V', ⟨ram₂, hw₂, h₂⟩, hcopy, hkeep⟩ := ih h₁ (i := i + 1) (by omega) (by omega) (by omega)
    refine ⟨V', ⟨ram₂, ?_, h₂⟩, fun j hle hlt => ?_, fun a ha => ?_⟩
    · rw [Virtual.memcpyFrom, add64_eq (a := src) (by omega), add64_eq (a := dest) (by omega),
        h.bytes (src + i) (by omega) (by omega), ok_bind, hw₁, ok_bind, hw₂]
    · by_cases hji : j = i
      · rw [hji, hkeep _ (by omega), Mem.set_same]
      · rw [hcopy j (by omega) (by omega), Mem.set_ne _ _ (by omega)]
    · rw [hkeep a (by omega), Mem.set_ne _ _ (by omega)]

theorem memcpy (h : Flat A role n V m) {dest src k : Nat} (hd : heapBase ≤ dest)
    (hdlt : dest + k ≤ pageAddr n) (hs : heapBase ≤ src) (hslt : src + k ≤ pageAddr n)
    (hapart : src + k ≤ dest ∨ dest + k ≤ src) :
    ∃ V', Stored A role n V' m (memcpy m dest src k) ∧
      (∀ j, j < k → V' (dest + j) = V (src + j)) ∧
      ∀ a, (a < dest ∨ dest + k ≤ a) → V' a = V a := by
  obtain ⟨V', hst, hcopy, hkeep⟩ := h.memcpyFrom (i := 0) (k := k) hd (by omega) hs (by omega)
    (by omega)
  exact ⟨V', hst, fun j hj => hcopy j (Nat.zero_le j) (by omega), fun a ha => hkeep a (by omega)⟩

/-! ### Growth -/

/-- The pages that were there hold what they held. -/
theorem grow (h : Flat A role n V m) {role' : Nat → Role} {n' : Nat} {m' : Machine}
    (h' : Backed A role' n' m') (g : Growth role role' m m') :
    ∃ V', Flat A role' n' V' m' ∧ ∀ v, heapBase ≤ v → v < pageAddr n → V' v = V v := by
  obtain ⟨V', hV'⟩ := exists_of_backed h'
  refine ⟨V', hV', fun v hle hlt => ?_⟩
  obtain ⟨f, k, hf, hin, hwalk⟩ := h.walk_heap hle hlt
  have hold := h.bytes v hle hlt
  have hf' : role' f = .page k := by rw [g.kept f (by rw [hf]; simp), hf]
  obtain ⟨hk, _, hwalk'⟩ := h'.leads f k hf'
  have hvlt : v < pageAddr n' := by
    rw [inPage_iff] at hin
    have := pageAddr_mono (show k + 1 ≤ n' by omega)
    omega
  have hnew := hV'.bytes v hle hvlt
  have hdata : m'.ram (f * pageSize + v % pageSize) = m.ram (f * pageSize + v % pageSize) :=
    g.data _ (by rw [offset_page, hf]; trivial)
  simp only [readByte, h'.cr3, hwalk' v hin] at hnew
  simp only [readByte, hwalk] at hold
  rw [hdata, hold] at hnew
  exact (Except.ok.inj hnew).symm

/-- Changing the heap's own variables. -/
theorem vars (h : Flat A role n V m) (head usedBytes : Nat) : Flat A role n V {m with head, usedBytes} :=
  ⟨⟨tables_of_vars h.toTables m.heapEnd head usedBytes, h.top, h.owned, h.lowest, h.heapEnd, h.count, h.page,
    h.leads, h.beyond, h.grown⟩, h.bytes⟩

end Flat

end ArcMonark.Mm.Heap
