import ArcMonark.Mm.HeapClient

/-! Freeing everything.

Every block in use belongs to a live pointer (`Owned`), in every run; where no
allocation was refused the blocks tile the heap, as the pages it grew by all became
blocks. Then, once everything is freed in any order, one block is left
(`free_all_restores`). -/
namespace ArcMonark.Mm.Heap
open Library Pmm Vmm Virtual
open Block (Tiled)

/-! ### Blocks in use have owners -/

/-- Every block in use belongs to a live pointer. -/
def Owned (bs : List Block) (w : HeapRun) : Prop := ∀ b ∈ bs, b.free = false → w.Live (b.addr + 32)

section Changed
variable {n n' size lo hi : Nat} {b c : Block} {bs bs' xs ys : List Block} {w w' : HeapRun} {e : HeapEvent}

theorem Changed.owned (h : Changed n bs w e w' n' bs') (hown : Owned bs w) : Owned bs' w' := by
  have hother : ∀ {x c : Block}, c.addr ≠ x.addr → c.addr + 32 ≠ x.addr + 32 := by
    intro x c hne heq
    exact hne (Nat.add_right_cancel heq)
  cases h with
  | same _ hlive => exact fun d hd hu => hlive _ (hown d hd hu)
  | allocated halloc hnew hlive =>
    intro d hd hu
    rcases halloc.mem_inUse hd hu with rfl | hd
    · exact hnew
    · exact hlive _ (hown d hd hu)
  | freed hbs hfreed hlive =>
    intro d hd hu
    obtain ⟨hd, hne⟩ := hfreed d hd hu
    exact hlive _ (hown d hd hu) (hother hne)
  | moved halloc hnew hfreed hlive =>
    intro d hd hu
    obtain ⟨hd, hne⟩ := hfreed d hd hu
    rcases halloc.mem_inUse hd hu with rfl | hd
    · exact hnew
    · exact hlive _ (hown d hd hu) (hother hne)

/-! ### Blocks tile the heap -/

/-- What is cut from a block takes its place. -/
theorem tiled_taken (ht : Tiled sizeofBlock lo (xs ++ b :: ys) hi) (hs : size ≤ b.size) :
    Tiled sizeofBlock lo (taken xs b size ys) hi := by
  obtain ⟨mid, hxs, haddr, hys⟩ := Block.tiled_append.mp ht
  refine Block.tiled_append.mpr ⟨mid, hxs, haddr, ?_⟩
  unfold takenSize remainder
  split
  · exact hys
  · have hroom : ¬ b.size - size < 32 + 16 := by assumption
    refine ⟨rfl, ?_⟩
    have hstop : Block.stop sizeofBlock ⟨b.addr + sizeofBlock + size, b.size - size - sizeofBlock, true⟩ =
        b.stop sizeofBlock := by
      show b.addr + 32 + size + 32 + (b.size - size - 32) = b.addr + 32 + b.size
      omega
    rw [hstop]
    exact hys

theorem tiled_freed (ht : Tiled sizeofBlock lo (xs ++ b :: ys) hi) : Tiled sizeofBlock lo (freed xs b ys) hi := by
  obtain ⟨mid, hxs, haddr, hys⟩ := Block.tiled_append.mp ht
  exact Tiled.coalesce (Block.tiled_append.mpr ⟨mid, hxs, haddr, hys⟩)

/-- The new pages all go to the new block. -/
theorem tiled_grown {j : Nat} (hj : 0 < j) (ht : Tiled sizeofBlock lo bs (pageAddr n)) :
    Tiled sizeofBlock lo (grown n j bs) (pageAddr (n + j)) := by
  refine Tiled.coalesce (Block.tiled_append.mpr ⟨pageAddr n, ht, rfl, ?_⟩)
  show pageAddr n + 32 + (j * pageSize - 32) = pageAddr (n + j)
  unfold pageAddr pageSize
  omega

theorem Allocated.tiled (h : Allocated n bs size c n' bs') (ht : Tiled sizeofBlock lo bs (pageAddr n)) :
    Tiled sizeofBlock lo bs' (pageAddr n') := by
  obtain ⟨xs, b, ys, rfl, _, _, hs, ⟨rfl, rfl⟩ | ⟨j, rfl, hj, hgrown⟩⟩ := h
  · exact tiled_taken ht hs
  · refine tiled_taken ?_ hs
    rw [hgrown]
    exact tiled_grown hj ht

theorem Changed.tiled (h : Changed n bs w e w' n' bs') (hserved : ¬ e.Refused)
    (ht : Tiled sizeofBlock lo bs (pageAddr n)) : Tiled sizeofBlock lo bs' (pageAddr n') := by
  cases h with
  | same hn _ =>
    obtain rfl := hn.resolve_right hserved
    exact ht
  | allocated halloc _ _ => exact halloc.tiled ht
  | freed hbs _ _ =>
    subst hbs
    exact tiled_freed ht
  | moved halloc _ _ _ => exact tiled_freed (halloc.tiled ht)

end Changed

/-! ### Every state of a run -/

/-- Runs in which every allocation of some bytes is served. -/
def servedHeap (B : HeapBoot) : System HeapRun HeapEvent := (heap B).restrict fun _ e => ¬ e.Refused

theorem not_refused {size p : Nat} (hp : p ≠ null) : ¬ (HeapEvent.malloc size p).Refused :=
  fun ⟨_, hnull⟩ => hp hnull

theorem owned_init {w : HeapRun} : Owned initBlocks w := by
  intro b hb hu
  rw [List.mem_singleton.mp hb] at hu
  cases hu

theorem tiled_init : Tiled sizeofBlock heapBase initBlocks (pageAddr heapInitPages) := ⟨rfl, rfl⟩

theorem tiled_reachable {B : HeapBoot} {w : HeapRun} (h : (servedHeap B).Reachable w) :
    ∃ A role n V bs, A.map = B.toPlacedMap ∧ Held A role n V bs w ∧ Owned bs w ∧
      Tiled sizeofBlock heapBase bs (pageAddr n) :=
  changed_reachable (P := fun _ n bs w => Owned bs w ∧ Tiled sizeofBlock heapBase bs (pageAddr n))
    (fun _ _ _ => ⟨owned_init, tiled_init⟩) (fun hserved hc hP => ⟨hc.owned hP.1, hc.tiled hserved hP.2⟩) h

/-! ### Freeing -/

/-- `kfree` of one pointer after another. -/
def freeAll (m : Machine) (ps : List Nat) : Except Fault Machine := ps.foldlM kfree m

/-- Freeing the live pointers leaves none, and blocks that tile the heap. -/
theorem Held.freeAll {A : Space} {role : Nat → Role} {n : Nat} {V : Mem} {bs : List Block} {w : HeapRun}
    (h : Held A role n V bs w) (hown : Owned bs w) (ht : Tiled sizeofBlock heapBase bs (pageAddr n))
    {ps : List Nat} (hps : ps.Nodup) (hlive : ∀ p, p ∈ ps ↔ w.Live p) :
    ∃ V' bs' ram usedBytes, Heap.freeAll w.machine ps = .ok {w.machine with ram, usedBytes} ∧
      HeapInv A role n V' bs' {w.machine with ram, usedBytes} ∧ Block.inUse bs' = [] ∧
      Tiled sizeofBlock heapBase bs' (pageAddr n) := by
  induction ps generalizing V bs w with
  | nil =>
    refine ⟨V, bs, w.machine.ram, w.machine.usedBytes, rfl, h.toHeapInv, ?_, ht⟩
    refine List.eq_nil_iff_forall_not_mem.mpr fun b hb => ?_
    obtain ⟨hb, hu⟩ := Block.mem_inUse.mp hb
    cases (hlive _).mpr (hown b hb hu)
  | cons p ps ih =>
    obtain ⟨hp, hnodup⟩ := List.nodup_cons.mp hps
    obtain ⟨xs, b, ys, V₁, ram₁, u₁, rfl, _, rfl, hr, hheld, _, _⟩ := h.kfree ((hlive p).mp List.mem_cons_self)
    have hown₁ : Owned (freed xs b ys) ⟨{w.machine with ram := ram₁, usedBytes := u₁}, forget (b.addr + 32) w.live⟩ := by
      intro d hd hu
      obtain ⟨hd, hne⟩ := h.of_mem_freed hd hu
      exact live_forget (hown d hd hu) (fun heq => hne (Nat.add_right_cancel heq)) _
    have hlive₁ : ∀ q, q ∈ ps ↔ HeapRun.Live ⟨{w.machine with ram := ram₁, usedBytes := u₁},
        forget (b.addr + 32) w.live⟩ q := by
      intro q
      constructor
      · intro hq
        have hne : q ≠ b.addr + 32 := by
          rintro rfl
          exact hp hq
        exact live_forget ((hlive q).mp (List.mem_cons_of_mem _ hq)) hne _
      · rintro ⟨s, hs⟩
        obtain ⟨hs, hne⟩ := mem_forget.mp hs
        exact (List.mem_cons.mp ((hlive q).mpr ⟨s, hs⟩)).resolve_left hne
    obtain ⟨V', bs', ram, u, hrun, hrest⟩ := ih hheld hown₁ (tiled_freed ht) hnodup hlive₁
    refine ⟨V', bs', ram, u, ?_, hrest⟩
    rw [Heap.freeAll, List.foldlM_cons, hr, ok_bind]
    exact hrun

/-- **Freeing everything restores one block**, in whatever order, when no allocation was
refused: no byte is in use, and the memory aside, the machine is the same. -/
theorem free_all_restores (B : HeapBoot) {w : HeapRun} (h : (servedHeap B).Reachable w) {ps : List Nat}
    (hps : ps.Perm (w.live.map Prod.fst)) :
    ∃ ram, freeAll w.machine ps = .ok {w.machine with ram, usedBytes := 0} ∧
      headers {w.machine with ram, usedBytes := 0} =
        .ok [⟨heapBase, w.machine.heapEnd - heapBase - 32, true, null, null⟩] := by
  obtain ⟨A, role, n, V, bs, _, hheld, hown, ht⟩ := tiled_reachable h
  have hnodup : ps.Nodup := hps.nodup_iff.mpr (List.pairwise_map.mpr hheld.distinct)
  obtain ⟨V', bs', ram, u, hrun, hinv, hnone, ht'⟩ := hheld.freeAll hown ht hnodup fun p => by
    simp [hps.mem_iff, HeapRun.Live]
  have hne : bs' ≠ [] := by
    obtain ⟨xs, l, rfl⟩ := hinv.exists_last
    simp
  obtain ⟨_, hone⟩ := ht'.whole hinv.settled hne hnone
  rw [hone] at hinv
  have hu : u = 0 := hinv.count_used
  subst hu
  refine ⟨ram, hrun, ?_⟩
  rw [hinv.headers, hheld.heapEnd]
  rfl

/-- Two blocks of a plain machine are freed in the order they were allocated in. -/
theorem free_all_restores_flatHeap : ∃ (w : HeapRun) (p q : Nat), w.live = [(q, 200), (p, 100)] ∧
    (servedHeap (flatHeap (n := 64) (by decide))).Reachable w ∧
    ∃ ram, freeAll w.machine [p, q] = .ok {w.machine with ram, usedBytes := 0} ∧
      headers {w.machine with ram, usedBytes := 0} =
        .ok [⟨heapBase, w.machine.heapEnd - heapBase - 32, true, null, null⟩] := by
  obtain ⟨A, role, V, m, hmap, hinit, hheld, hfree⟩ := flatHeap_start (n := 64) (by decide) (by decide)
  have hclient : Client (flatHeap (n := 64) (by decide)) V ⟨m, []⟩ := ⟨A, role, _, _, hmap, hheld⟩
  obtain ⟨p, m₁, hp, hpne, hfree₁⟩ := hclient.serves (show 100 ≠ 0 by decide) (by decide) (by rw [hfree]; decide)
  obtain ⟨V₁, hclient₁, _⟩ := hclient.kmalloc (by decide) hp
  obtain ⟨q, m₂, hq, hqne, _⟩ := hclient₁.serves (show 200 ≠ 0 by decide) (by decide) (by
    rw [hfree] at hfree₁
    have hone : pagesFor 100 = 1 ∧ pagesFor 200 = 1 := by decide
    show 4 * pagesFor 200 ≤ pmmFreeFrames m₁
    omega)
  have hstart := System.Reachable.start (S := servedHeap (flatHeap (n := 64) (by decide))) hinit
  have hone := hstart.step ⟨not_refused hpne, .malloc (by decide) hp⟩
  have htwo := hone.step ⟨not_refused hqne, .malloc (by decide) hq⟩
  have hlive : record q 200 (record p 100 []) = [(q, 200), (p, 100)] := by
    rw [record, if_neg hqne, record, if_neg hpne]
  exact ⟨_, p, q, hlive, htwo, free_all_restores _ htwo (by
    show List.Perm [p, q] ((record q 200 (record p 100 [])).map Prod.fst)
    rw [hlive]
    exact .swap q p [])⟩

end ArcMonark.Mm.Heap
