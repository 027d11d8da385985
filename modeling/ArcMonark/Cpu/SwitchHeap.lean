import ArcMonark.Cpu.SwitchRuns
import ArcMonark.Sched.SchedProofs

/-! Tasks on the heap.

The tasks of `Cpu/SwitchRuns.lean` live in a flat memory. For the tasks of
`sched.c` that memory is the heap: what `task_create` does to the heap is what
`taskCreate` does to its bytes (`buildTask_bytes`), and no two of the tasks it has
created share a byte (`heapThreads_apart`). -/
namespace ArcMonark.Cpu
open Library Mm Sched
open Heap (HeapBoot Client)

section Heap
variable {B : HeapBoot} {V : Mem} {T : Nat → Task} {s : Scheduler} {t k u l : Nat}

/-- The links that `list_add` writes. -/
theorem listAdd_bytes (hV : Client B V s.heap) (ht : s.IsTask t) (hhead : s.IsTask s.head) :
    ∃ m, listAdd s t = .ok (s.withMachine m) ∧
      Client B ((V.store64 (t + 32) (V.load64 (s.head + 32))).store64 (s.head + 32) t) (s.withMachine m).heap := by
  have hnext : getNext s s.head = .ok (V.load64 (s.head + 32)) := hV.read hhead (by decide)
  obtain ⟨m₁, hr₁, h₁⟩ := client_setField hV ht (show 32 + 8 ≤ sizeofTask by decide) (V.load64 (s.head + 32))
  obtain ⟨m₂, hr₂, h₂⟩ := client_setField h₁ (t := s.head) hhead (show 32 + 8 ≤ sizeofTask by decide) t
  refine ⟨m₂, ?_, h₂⟩
  have hset : setNext s t (V.load64 (s.head + 32)) = .ok (s.withMachine m₁) := hr₁
  rw [listAdd, hnext, ok_bind, hset, ok_bind]
  exact hr₂

/-- **`task_create` on the heap** writes the words and fields of `taskCreate`. -/
theorem buildTask_bytes (hV : Client B V s.heap) (hk : s.IsStack k) (ht : s.IsTask t) (hhead : s.IsTask s.head)
    (taskTrampoline entry arg : Nat) :
    ∃ m, buildTask taskTrampoline s t k entry arg = .ok (t, s.built t k m) ∧
      Client B (taskCreate taskTrampoline V s.head t k s.nextTid entry arg) (s.built t k m).heap := by
  obtain ⟨frame, hframe⟩ : ∃ frame, frame = initialFrame taskTrampoline entry arg := ⟨_, rfl⟩
  have hlen : frame.length = 7 := by
    rw [hframe]
    rfl
  have htop : k + kstackSize < 2 ^ 64 := (hV.bounds hk).2.1
  have hstack : stackTop k = k + kstackSize := by rw [client_stackTop hV hk, add64_eq htop]
  have hsp : add64 k (kstackSize - 8 * frame.length) = stackTop k - 8 * frame.length := by
    unfold kstackSize at *
    rw [hstack, hlen, add64_eq (by omega)]
    omega
  obtain ⟨m₁, hr₁, h₁⟩ := client_pushWords hV hk frame (by rw [hlen]; decide) (Nat.le_refl _)
  rw [← client_stackTop hV hk, hsp] at hr₁
  rw [← hstack] at h₁
  obtain ⟨m₂, hr₂, h₂⟩ := client_setField h₁ (t := t) ht (show 0 + 8 ≤ sizeofTask by decide)
    (stackTop k - 8 * frame.length)
  obtain ⟨m₃, hr₃, h₃⟩ := client_setField h₂ (t := t) ht (show 8 + 8 ≤ sizeofTask by decide) k
  obtain ⟨m₄, hr₄, h₄⟩ := client_setField h₃ (t := t) ht (show 16 + 4 ≤ sizeofTask by decide)
    TaskState.ready.code
  obtain ⟨m₅, hr₅, h₅⟩ := client_setField h₄ (t := t) ht (show 24 + 8 ≤ sizeofTask by decide) s.nextTid
  obtain ⟨m₆, hr₆, h₆⟩ := listAdd_bytes (s := {s.withMachine m₅ with nextTid := add64 s.nextTid 1}) h₅ ht hhead
  refine ⟨m₆, ?_, ?_⟩
  · have hrsp : setRsp (s.withMachine m₁) t (stackTop k - 8 * frame.length) = .ok (s.withMachine m₂) := hr₂
    have hbase : setStackBase (s.withMachine m₂) t k = .ok (s.withMachine m₃) := hr₃
    have hstate : setState (s.withMachine m₃) t .ready = .ok (s.withMachine m₄) := hr₄
    have hid : setId (s.withMachine m₄) t s.nextTid = .ok (s.withMachine m₅) := hr₅
    rw [buildTask, ← hframe, hr₁, ok_bind]
    show (setRsp (s.withMachine m₁) t (stackTop k - 8 * frame.length) >>= fun s => _) = _
    rw [hrsp, ok_bind, hbase, ok_bind, hstate, ok_bind]
    show (setId (s.withMachine m₄) t s.nextTid >>= fun s => _) = _
    rw [hid, ok_bind]
    exact congrArg (· >>= _) hr₆
  · rw [taskCreate, ← hframe]
    exact h₆

/-! ### Memory of one's own -/

theorem heap_thread_valid (hV : Client B V s.heap) (ht : s.IsTask t) (hk : s.IsStack k) :
    Thread.Valid ⟨t, k, k + kstackSize⟩ :=
  ⟨(hV.bounds hk).2.1, hV.apart ht hk (client_task_ne hV ht hk)⟩

theorem heap_thread_apart (hV : Client B V s.heap) (ht : s.IsTask t) (hk : s.IsStack k) (hu : s.IsTask u)
    (hl : s.IsStack l) (htu : t ≠ u) (hkl : k ≠ l) :
    Thread.Apart ⟨t, k, k + kstackSize⟩ ⟨u, l, l + kstackSize⟩ :=
  ⟨hV.apart hk hl hkl, hV.apart ht hu htu, hV.apart ht hl (client_task_ne hV ht hl),
    hV.apart hu hk (client_task_ne hV hu hk)⟩

/-- The tasks that were created and have not exited, with their stacks. -/
def heapThreads (s : Scheduler) : List Thread := (alive s.trace).map fun a => ⟨a.1, a.2, a.2 + kstackSize⟩

/-- **No two tasks share memory** between the calls of the scheduler. -/
theorem heapThreads_apart (h : SchedInv B T s) :
    (∀ u ∈ heapThreads s, u.Valid) ∧ (heapThreads s).Pairwise Thread.Apart := by
  obtain ⟨V, hV⟩ := h.tasks.client
  have htask : ∀ a ∈ alive s.trace, s.IsTask a.1 := fun a ha =>
    h.member a.1 (List.mem_cons_of_mem _ (List.mem_map_of_mem ha))
  have hstack : ∀ a ∈ alive s.trace, s.IsStack a.2 := fun a ha => (h.stack a.1 a.2 ha).2
  constructor
  · intro u hu
    obtain ⟨a, ha, rfl⟩ := List.mem_map.mp hu
    exact heap_thread_valid hV (htask a ha) (hstack a ha)
  · have htasks : (alive s.trace).Pairwise fun a b => a.1 ≠ b.1 := List.pairwise_map.mp h.ring.nodup.of_cons
    have hstacks : (alive s.trace).Pairwise fun a b => a.2 ≠ b.2 := List.pairwise_map.mp h.distinct
    refine List.pairwise_map.mpr ((htasks.and hstacks).imp_of_mem fun {a b} ha hb hne => ?_)
    exact heap_thread_apart hV (htask a ha) (hstack a ha) (htask b hb) (hstack b hb) hne.1 hne.2

end Heap

end ArcMonark.Cpu
