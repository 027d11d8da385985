import ArcMonark.Mm.HeapRealloc
import ArcMonark.Sched.SchedMemory
import ArcMonark.Sched.SchedShared
import ArcMonark.Cpu.SwitchHeap

/-! `task_create` without memory.

`task_create` looks at neither of the pointers that `kmalloc` gives it. With memory for
both it makes a task and writes to nothing but the two blocks and one link; without, it
faults, where `kmalloc` does or where it writes through a null pointer
(`task_create_clean_iff`). -/
namespace ArcMonark.Sched
open Library Mm
open Heap (HeapBoot HeapRun HeapInv Client Held SomeFits flatHeap pagesFor align sizeofBlock taken remainder)
open Cpu (frameSize)
open Library.X86 (Word)

/-! ### What is written -/

/-- From `m` to `m'` bytes at addresses of `S` were written, one after the other, and
nothing else. -/
def Wrote (S : Nat → Prop) : Machine → Machine → Prop :=
  Relation.ReflTransGen fun m m' => ∃ v b, S v ∧ Virtual.writeByte m v b = .ok m'

section Wrote
variable {S : Nat → Prop} {s s' : Scheduler} {t x : Nat}

theorem writeBytes_wrote {m m' : Machine} {v n : Nat} (hr : Virtual.writeBytes m v n x = .ok m') (hlt : v + n < 2 ^ 64)
    (hS : ∀ a, v ≤ a → a < v + n → S a) : Wrote S m m' := by
  induction n generalizing v x m' with
  | zero =>
    cases hr
    exact .refl
  | succ n ih =>
    obtain ⟨m₁, hr₁, hr₂⟩ := ok_of_bind hr
    rw [add64_eq (by omega)] at hr₁
    exact (ih hr₁ (by omega) fun a hlo hhi => hS a (by omega) (by omega)).tail ⟨v, _, hS v (by omega) (by omega), hr₂⟩

theorem setField_wrote {off n : Nat} (hr : setField s t off n x = .ok s') (hlt : t + off + n < 2 ^ 64)
    (hS : ∀ a, t + off ≤ a → a < t + off + n → S a) : Wrote S s.machine s'.machine := by
  obtain ⟨m, hr₁, hr⟩ := ok_of_bind hr
  cases hr
  rw [add64_eq (by omega)] at hr₁
  exact writeBytes_wrote hr₁ hlt hS

theorem pushWords_wrote {sp sp' : Nat} {ws : List Nat} (hr : pushWords s sp ws = .ok (sp', s'))
    (hroom : 8 * ws.length ≤ sp) (hlt : sp < 2 ^ 64) (hS : ∀ a, sp - 8 * ws.length ≤ a → a < sp → S a) :
    Wrote S s.machine s'.machine := by
  induction ws generalizing s sp with
  | nil =>
    cases hr
    exact .refl
  | cons w ws ih =>
    rw [List.length_cons] at hroom hS
    obtain ⟨m, hr₁, hr₂⟩ := ok_of_bind hr
    rw [sub64_eq (by omega) hlt] at hr₁ hr₂
    exact (writeBytes_wrote hr₁ (by omega) fun a hlo hhi => hS a (by omega) (by omega)).trans
      (ih hr₂ (by omega) (by omega) fun a hlo hhi => hS a (by omega) (by omega))

theorem listAdd_wrote (hr : listAdd s t = .ok s') (ht : t + sizeofTask < 2 ^ 64) (hhead : s.head + sizeofTask < 2 ^ 64)
    (hS : ∀ a, t + 32 ≤ a ∧ a < t + 40 ∨ s.head + 32 ≤ a ∧ a < s.head + 40 → S a) :
    Wrote S s.machine s'.machine := by
  unfold sizeofTask at ht hhead
  obtain ⟨next, _, hr⟩ := ok_of_bind hr
  obtain ⟨s₁, hr₁, hr₂⟩ := ok_of_bind hr
  have hsame : s₁.head = s.head := by
    obtain ⟨m, _, hr₁⟩ := ok_of_bind hr₁
    cases hr₁
    rfl
  rw [hsame] at hr₂
  exact (setField_wrote hr₁ (by omega) fun a hlo hhi => hS a (.inl ⟨hlo, by omega⟩)).trans
    (setField_wrote hr₂ (by omega) fun a hlo hhi => hS a (.inr ⟨hlo, by omega⟩))

/-- What `task_create` may write to, once it has called `kmalloc`: the blocks it was given,
and the link of the first task. -/
def OwnByte (head t k a : Nat) : Prop :=
  t ≠ null ∧ t ≤ a ∧ a < t + sizeofTask ∨ k ≠ null ∧ k ≤ a ∧ a < k + kstackSize ∨ head + 32 ≤ a ∧ a < head + 40

theorem setField_same {off n : Nat} (hr : setField s t off n x = .ok s') :
    s'.head = s.head ∧ s'.heap.live = s.heap.live := by
  obtain ⟨m, _, hr⟩ := ok_of_bind hr
  cases hr
  exact ⟨rfl, rfl⟩

theorem pushWords_head {sp sp' : Nat} {ws : List Nat} (hr : pushWords s sp ws = .ok (sp', s')) : s'.head = s.head := by
  induction ws generalizing s sp with
  | nil =>
    cases hr
    rfl
  | cons w ws ih =>
    obtain ⟨m, _, hr⟩ := ok_of_bind hr
    exact ih (s := s.withMachine m) hr

/-- **With memory for both** nothing else is written. -/
theorem buildTask_wrote {taskTrampoline k entry arg p : Nat} (hr : buildTask taskTrampoline s t k entry arg = .ok (p, s'))
    (ht : t ≠ null) (hk : k ≠ null) (htlt : t + sizeofTask < 2 ^ 64) (hklt : k + kstackSize < 2 ^ 64)
    (hhead : s.head + sizeofTask < 2 ^ 64) (htop : stackTop k = k + kstackSize) :
    Wrote (OwnByte s.head t k) s.machine s'.machine := by
  have hown : ∀ a, t ≤ a → a < t + sizeofTask → OwnByte s.head t k a := fun a hlo hhi => .inl ⟨ht, hlo, hhi⟩
  obtain ⟨⟨sp, s₁⟩, hr₁, hr⟩ := ok_of_bind hr
  obtain ⟨s₂, hr₂, hr⟩ := ok_of_bind hr
  obtain ⟨s₃, hr₃, hr⟩ := ok_of_bind hr
  obtain ⟨s₄, hr₄, hr⟩ := ok_of_bind hr
  obtain ⟨s₅, hr₅, hr⟩ := ok_of_bind hr
  obtain ⟨s₆, hr₆, hr⟩ := ok_of_bind hr
  cases hr
  have hsame : s₅.head = s.head :=
    calc s₅.head = s₄.head := (setField_same hr₅).1
      _ = s₃.head := (setField_same hr₄).1
      _ = s₂.head := (setField_same hr₃).1
      _ = s₁.head := (setField_same hr₂).1
      _ = s.head := pushWords_head hr₁
  unfold sizeofTask at htlt hhead hown
  unfold kstackSize at hklt htop
  rw [htop] at hr₁
  have h₁ : Wrote (OwnByte s.head t k) s.machine s₁.machine := by
    refine pushWords_wrote hr₁ (show 8 * 7 ≤ k + 0x4000 by omega) hklt fun a hlo hhi => .inr (.inl ⟨hk, ?_, ?_⟩)
    · change k + 0x4000 - 8 * 7 ≤ a at hlo
      omega
    · exact hhi
  have h₂ := setField_wrote hr₂ (by omega) fun a hlo hhi => hown a (by omega) (by omega)
  have h₃ := setField_wrote hr₃ (by omega) fun a hlo hhi => hown a (by omega) (by omega)
  have h₄ := setField_wrote hr₄ (by omega) fun a hlo hhi => hown a (by omega) (by omega)
  have h₅ := setField_wrote hr₅ (by omega) fun a hlo hhi => hown a (by omega) (by omega)
  have h₆ : Wrote (OwnByte s.head t k) s₅.machine s₆.machine := by
    refine listAdd_wrote (s := {s₅ with nextTid := add64 s₅.nextTid 1}) hr₆ htlt
      (show s₅.head + 40 < 2 ^ 64 by rw [hsame]; exact hhead) fun a ha => ?_
    rcases ha with ⟨hlo, hhi⟩ | ⟨hlo, hhi⟩
    · exact hown a (by omega) hhi
    · change s₅.head + 32 ≤ a at hlo
      change a < s₅.head + 40 at hhi
      rw [hsame] at hlo hhi
      exact .inr (.inr ⟨hlo, hhi⟩)
  exact h₁.trans (h₂.trans (h₃.trans (h₄.trans (h₅.trans h₆))))

end Wrote

/-! ### Clean failure -/

/-- `task_create` made the task `t` on the stack `k`: it is on the list and ready, and its
first frame is whole and inside its stack. -/
structure Created (taskTrampoline : Nat) (s : Scheduler) (entry arg t k : Nat) (s' : Scheduler) : Prop where
  fresh : ¬ s.heap.Live t ∧ ¬ s.heap.Live k
  ring : ∃ ts, tasks s = .ok (s.head :: ts) ∧ t ∉ s.head :: ts ∧ tasks s' = .ok (s.head :: t :: ts)
  ready : stateIs s' t .ready = .ok true
  base : getStackBase s' t = .ok k
  stack : Heap.InUse s'.machine k ∧ ∃ n, Heap.payload s'.machine k = .ok n ∧ kstackSize ≤ n
  frame : ∃ sp, getField s' t 0 8 = .ok sp ∧ k ≤ sp ∧ sp + frameSize ≤ k + kstackSize ∧
    ∀ i w, (initialFrame taskTrampoline entry arg).reverse[i]? = some w →
      Virtual.read64 s'.machine (sp + 8 * i) = .ok w

/-- `task_create` made no task, and said so: the list, the tasks on it and the count of used
bytes are as they were. -/
structure Refused (s : Scheduler) (p : Nat) (s' : Scheduler) : Prop where
  null : p = null
  ring : tasks s' = tasks s
  others : ∀ ts, tasks s = .ok ts → ∀ t ∈ ts, ∀ i, i < sizeofTask →
    Virtual.readByte s'.machine (t + i) = Virtual.readByte s.machine (t + i)
  used : Heap.heapUsedBytes s'.machine = Heap.heapUsedBytes s.machine

/-- The bytes behind live pointers are the same, but for the link of the first task. -/
def OthersKept (s s' : Scheduler) : Prop :=
  ∀ p n, (p, n) ∈ s.heap.live → ∀ i, i < n → (p + i < s.head + 32 ∨ s.head + 40 ≤ p + i) →
    Virtual.readByte s'.machine (p + i) = Virtual.readByte s.machine (p + i)

/-- `task_create` returns with a task or without one, and writes nowhere else. -/
def Clean (taskTrampoline : Nat) (s : Scheduler) (entry arg : Nat) : Prop :=
  ∃ t s₁ k s₂ p s', kmalloc s sizeofTask = .ok (t, s₁) ∧ kmalloc s₁ kstackSize = .ok (k, s₂) ∧
    taskCreate taskTrampoline s entry arg = .ok (p, s') ∧
    (Created taskTrampoline s entry arg p k s' ∨ Refused s p s') ∧
    Wrote (OwnByte s.head t k) s₂.machine s'.machine ∧ OthersKept s s'

section Clean
variable {B : HeapBoot} {T : Nat → Task} {s : Scheduler} {t k : Nat}

/-- The scheduler's `kmalloc` is that of the heap. -/
theorem kmalloc_machine {size p : Nat} {s' : Scheduler} (hr : kmalloc s size = .ok (p, s')) :
    ∃ m, Heap.kmalloc s.machine size = .ok (p, m) ∧ s' = {s with heap := ⟨m, Heap.record p size s.heap.live⟩} := by
  obtain ⟨⟨p', m⟩, hr₁, hr⟩ := ok_of_bind hr
  cases hr
  exact ⟨m, hr₁, rfl⟩

theorem kmalloc_of_machine {size p : Nat} {m : Machine} (hr : Heap.kmalloc s.machine size = .ok (p, m)) :
    kmalloc s size = .ok (p, {s with heap := ⟨m, Heap.record p size s.heap.live⟩}) := by
  rw [Sched.kmalloc, hr]
  rfl

/-- The scheduler when both requests of `task_create` were served. -/
def Scheduler.served (s : Scheduler) (t k : Nat) (m : Machine) : Scheduler :=
  {s with heap := ⟨m, (k, kstackSize) :: (t, sizeofTask) :: s.heap.live⟩}

/-- What `task_create` is given: two new blocks, with all else as it was. -/
theorem Tasks.served (h : Tasks B T s) (hboth : ServesBoth s.machine) : ∃ V V' t s₁ k m,
    Client B V s.heap ∧ Sched.kmalloc s sizeofTask = .ok (t, s₁) ∧ t ≠ null ∧
    Sched.kmalloc s₁ kstackSize = .ok (k, s.served t k m) ∧ k ≠ null ∧ Client B V' (s.served t k m).heap ∧
    Heap.SameData s.heap.live V V' ∧ ¬ s.heap.Live t ∧ ¬ s.heap.Live k := by
  obtain ⟨V, hV⟩ := h.client
  obtain ⟨t, m₁, k, m₂, hr₁, ht, hr₂, hk⟩ := hboth
  have hrec₁ : Heap.record t sizeofTask s.heap.live = (t, sizeofTask) :: s.heap.live := if_neg ht
  have hrec₂ : ∀ live, Heap.record k kstackSize live = (k, kstackSize) :: live := fun _ => if_neg hk
  obtain ⟨V₁, hV₁, hsame₁, hfresh₁⟩ := hV.kmalloc (by decide) hr₁
  rw [hrec₁] at hV₁
  obtain ⟨V₂, hV₂, hsame₂, hfresh₂⟩ := hV₁.kmalloc (by decide) hr₂
  rw [hrec₂] at hV₂
  have hk₁ := kmalloc_of_machine hr₁
  rw [hrec₁] at hk₁
  have hk₂ := kmalloc_of_machine (s := {s with heap := ⟨m₁, (t, sizeofTask) :: s.heap.live⟩}) hr₂
  rw [hrec₂] at hk₂
  refine ⟨V, V₂, t, _, k, m₂, hV, hk₁, ht, hk₂, hk, hV₂, fun p n hp i hi => ?_, ?_, ?_⟩
  · exact (hsame₂ p n (List.mem_cons_of_mem _ hp) i hi).trans (hsame₁ p n hp i hi)
  · rintro ⟨n, hn⟩
    exact hfresh₁ t n hn rfl
  · rintro ⟨n, hn⟩
    exact hfresh₂ k n (List.mem_cons_of_mem _ hn) rfl

/-- A live pointer is that of a block in use, of at least its size. -/
theorem client_inUse {V : Mem} {w : HeapRun} {p n : Nat} (hV : Client B V w) (hp : (p, n) ∈ w.live) :
    Heap.InUse w.machine p ∧ ∃ size, Heap.payload w.machine p = .ok size ∧ n ≤ size := by
  obtain ⟨A, role, _, bs, _, hw⟩ := hV
  obtain ⟨b, hb, hfree, rfl, hn⟩ := hw.live p n hp
  exact ⟨(hw.inUse_iff _).mpr ⟨b, hb, hfree, rfl⟩, b.size, hw.toHeapInv.payload hb, hn⟩

section Given
variable {V V' : Mem} {m m' : Machine} {taskTrampoline entry arg id : Nat}

/-- The frame of the new task, as it reads in memory. -/
theorem created_frame (htramp : taskTrampoline < 2 ^ 64) (hentry : entry < 2 ^ 64) (harg : arg < 2 ^ 64)
    (hV : Client B (Cpu.taskCreate taskTrampoline V s.head t k id entry arg) (s.created t k m).heap)
    (hhead : s.IsTask s.head) (hnew : ¬ s.heap.Live t) : ∃ sp, getField (s.created t k m) t 0 8 = .ok sp ∧ k ≤ sp ∧
      sp + frameSize ≤ k + kstackSize ∧ ∀ i w, (initialFrame taskTrampoline entry arg).reverse[i]? = some w →
        Virtual.read64 (s.created t k m).machine (sp + 8 * i) = .ok w := by
  have htask : (s.created t k m).IsTask t := List.mem_cons_of_mem _ List.mem_cons_self
  have hstack : (s.created t k m).IsStack k := List.mem_cons_self
  have hhead' : (s.created t k m).IsTask s.head := Scheduler.created_live hhead
  have hne : t ≠ s.head := fun heq => hnew ⟨_, heq ▸ hhead⟩
  have htop : stackTop k = k + kstackSize := by rw [client_stackTop hV hstack, add64_eq (hV.bounds hstack).2.1]
  obtain ⟨hrsp, hwords⟩ := Cpu.taskCreate_frame V id htramp hentry harg
    (Cpu.heap_thread_valid hV htask hstack) (hV.apart hhead' hstack (client_task_ne hV hhead' hstack))
    (hV.apart htask hhead' hne)
  rw [htop] at hrsp hwords
  refine ⟨k + kstackSize - frameSize, ?_, ?_, ?_, fun i w hw => ?_⟩
  · rw [← hrsp]
    exact hV.read htask (by decide)
  · unfold kstackSize frameSize
    omega
  · unfold kstackSize frameSize
    omega
  · have hi : i < 7 := by
      have hlen := (List.getElem?_eq_some_iff.mp hw).1
      simpa [initialFrame] using hlen
    rw [← hwords, Mem.words_getElem? _ hi] at hw
    rw [← Option.some.inj hw]
    have hlt := (hV.bounds hstack).2.1
    have haddr : k + kstackSize - frameSize + 8 * i = k + (kstackSize - frameSize + 8 * i) := by
      unfold kstackSize frameSize
      omega
    have hread := hV.read hstack (i := kstackSize - frameSize + 8 * i) (k := 8) (by unfold kstackSize frameSize; omega)
    rw [add64_eq (by unfold kstackSize frameSize at *; omega), ← haddr] at hread
    exact hread

/-- Nothing else behind a live pointer was written. -/
theorem created_others (hV : Client B V s.heap)
    (hV' : Client B (Cpu.taskCreate taskTrampoline V' s.head t k id entry arg) (s.created t k m).heap)
    (hsame : Heap.SameData s.heap.live V V') (hnew : ¬ s.heap.Live t) (hnewk : ¬ s.heap.Live k) :
    OthersKept s (s.created t k m) := by
  intro p n hp i hi hlink
  have hp' : (p, n) ∈ (s.created t k m).heap.live := Scheduler.created_live hp
  have htask : (t, sizeofTask) ∈ (s.created t k m).heap.live := List.mem_cons_of_mem _ List.mem_cons_self
  have hstack : (k, kstackSize) ∈ (s.created t k m).heap.live := List.mem_cons_self
  have hpt := hV'.apart hp' htask fun heq => hnew ⟨n, heq ▸ hp⟩
  have hpk := hV'.apart hp' hstack fun heq => hnewk ⟨n, heq ▸ hp⟩
  refine (hV'.readByte hp' hi).trans (Eq.trans ?_ (hV.readByte hp hi).symm)
  rw [Cpu.taskCreate_of_outside V' taskTrampoline entry arg (hV'.bounds hstack).2.1 (by omega) (by omega) hlink,
    hsame p n hp i hi]

end Given

/-- **With memory for both** `task_create` does what it is for. -/
theorem SchedInv.clean (h : SchedInv B T s) (hboth : ServesBoth s.machine) {taskTrampoline entry arg : Nat}
    (htramp : taskTrampoline < 2 ^ 64) (hentry : entry < 2 ^ 64) (harg : arg < 2 ^ 64) :
    Clean taskTrampoline s entry arg := by
  obtain ⟨V, V', t, s₁, k, m, hV, hr₁, ht, hr₂, hk, hV', hsame, hnew, hnewk⟩ := h.tasks.served hboth
  obtain ⟨T', m₁, hr, h', _⟩ := h.create hr₁ ht hr₂ hk taskTrampoline entry arg
  have hhead := h.member s.head List.mem_cons_self
  have htask : (s.served t k m).IsTask t := List.mem_cons_of_mem _ List.mem_cons_self
  have hstack : (s.served t k m).IsStack k := List.mem_cons_self
  have hhead' : (s.served t k m).IsTask s.head := List.mem_cons_of_mem _ (List.mem_cons_of_mem _ hhead)
  obtain ⟨m₂, hbuild, hbytes⟩ := Cpu.buildTask_bytes hV' hstack htask hhead' taskTrampoline entry arg
  have hrun : taskCreate taskTrampoline s entry arg = .ok (t, s.created t k m₂) := by
    rw [taskCreate, hr₁, ok_bind]
    show (kmalloc s₁ kstackSize >>= fun r => buildTask taskTrampoline r.2 t r.1 entry arg) = _
    rw [hr₂, ok_bind, hbuild]
    rfl
  have hm : m₂ = m₁ := by
    rw [hr] at hrun
    exact (congrArg (fun r => r.2.machine) (Except.ok.inj hrun)).symm
  subst hm
  have hmem : t ∈ (s.created t k m₂).head :: (s.created t k m₂).others := List.mem_cons_of_mem _ List.mem_cons_self
  have hready : stateUnder s.currentTask t = .ready := if_neg fun heq => hnew ⟨_, heq ▸ h.member _ h.current⟩
  have hwrote := buildTask_wrote hbuild ht hk (hV'.bounds htask).2.1 (hV'.bounds hstack).2.1 (hV'.bounds hhead').2.1
    (by rw [client_stackTop hV' hstack, add64_eq (hV'.bounds hstack).2.1])
  refine ⟨t, s₁, k, _, t, _, hr₁, hr₂, hrun, .inl ⟨⟨hnew, hnewk⟩, ⟨s.others, h.tasks_eq, ?_, h'.tasks_eq⟩, ?_, ?_, ?_, ?_⟩,
    hwrote, created_others hV hbytes hsame hnew hnewk⟩
  · exact fun hin => hnew ⟨_, h.member t hin⟩
  · rw [h'.stateIs hmem]
    exact congrArg Except.ok (decide_eq_true hready.symm)
  · rw [h'.tasks.getStackBase (h'.member t hmem), (h'.stack t k List.mem_cons_self).1]
  · exact client_inUse hbytes (p := k) (n := kstackSize) List.mem_cons_self
  · exact created_frame htramp hentry harg hbytes hhead hnew

/-- A result of `task_create` means that there was memory for both. -/
theorem SchedInv.servesBoth_of_ok (h : SchedInv B T s) {taskTrampoline entry arg p : Nat} {s' : Scheduler}
    (hr : taskCreate taskTrampoline s entry arg = .ok (p, s')) : ServesBoth s.machine := by
  obtain ⟨s₁, k, s₂, hr₁, hp, hr₂, hk⟩ := h.create_served hr
  obtain ⟨m₁, hk₁, rfl⟩ := kmalloc_machine hr₁
  obtain ⟨m₂, hk₂, _⟩ := kmalloc_machine hr₂
  exact ⟨p, m₁, k, m₂, hk₁, hp, hk₂, hk⟩

theorem Tasks.servesBoth_iff (h : Tasks B T s) : ServesBoth s.machine ↔ CanCreate s.machine := by
  obtain ⟨V, A, role, n, bs, _, hw⟩ := h.client
  exact Sched.servesBoth_iff hw.toHeapInv

/-- Without memory for both it faults. -/
theorem SchedInv.create_faults (h : SchedInv B T s) (hno : ¬ ServesBoth s.machine) (taskTrampoline entry arg : Nat) :
    ∃ f, taskCreate taskTrampoline s entry arg = .error f := by
  cases hr : taskCreate taskTrampoline s entry arg with
  | error f => exact ⟨f, rfl⟩
  | ok r => exact absurd (h.servesBoth_of_ok hr) hno

end Clean

/-- **`task_create` fails cleanly** exactly when it does not fail: when there is memory for
the task and for its stack. -/
theorem task_create_clean_iff (B : HeapBoot) (taskTrampoline : Word) {s : Scheduler}
    (h : (shared B taskTrampoline.toNat).Reachable s) (entry arg : Word) :
    Clean taskTrampoline.toNat s entry.toNat arg.toNat ↔ CanCreate s.machine := by
  obtain ⟨T, hT⟩ := shared_reachable h
  rw [← hT.tasks.servesBoth_iff]
  constructor
  · rintro ⟨_, _, _, _, _, _, _, _, hr, _⟩
    exact hT.servesBoth_of_ok hr
  · exact fun hboth => hT.clean hboth taskTrampoline.isLt entry.isLt arg.isLt

/-- With 64 pages there is memory for a task. -/
theorem task_create_clean_iff_flatHeap : ∃ s, (shared (flatHeap (n := 64) (by decide)) 0xffffffff80002000).Reachable s ∧
    CanCreate s.machine ∧ Clean 0xffffffff80002000 s 0xffffffff80001000 1 := by
  obtain ⟨T, s, hinit, hT, _, _, hleft⟩ := flatSched_start (n := 64) (by decide) (by decide) 0xffffffff80002000
  obtain ⟨_, t, k, m, hr, _⟩ := hT.create_serves (by omega) 0xffffffff80002000 0xffffffff80001000 1
  have hcan : CanCreate s.machine := hT.tasks.servesBoth_iff.mp (hT.servesBoth_of_ok hr)
  have hs : (shared (flatHeap (n := 64) (by decide)) (0xffffffff80002000#64).toNat).Reachable s := .start hinit
  exact ⟨s, hs, hcan, (task_create_clean_iff _ 0xffffffff80002000#64 hs 0xffffffff80001000#64 1#64).mpr hcan⟩

/-! ### A full heap -/

section Full
variable {B : HeapBoot} {A : Vmm.Space} {role : Nat → Vmm.Role} {n : Nat} {V : Mem} {bs : List Block} {s s' : Scheduler}
  {t : Nat}

/-- A write to a field leaves the block list as it is. -/
theorem held_setField (h : Held A role n V bs s.heap) (ht : s.IsTask t) {off k x : Nat} (hoff : off + k ≤ sizeofTask)
    (hr : setField s t off k x = .ok s') : ∃ V', Held A role n V' bs s'.heap := by
  obtain ⟨m, hm, h'⟩ := h.write ht hoff x
  obtain ⟨m', hm', hr⟩ := ok_of_bind hr
  cases hr
  rw [Scheduler.machine, hm] at hm'
  cases hm'
  exact ⟨_, h'⟩

/-- The rest of `sched_init` leaves the block list as it is. -/
theorem schedInit_held {w : HeapRun} {boot : Nat} {s₁ : Scheduler} (hr₁ : kmalloc (.fresh w) sizeofTask = .ok (boot, s₁))
    (h : Held A role n V bs s₁.heap) (hboot : s₁.IsTask boot) (hr : schedInit (.fresh w) = .ok s) :
    ∃ V', Held A role n V' bs s.heap := by
  obtain ⟨s₂, s₃, s₄, s₅, hr₂, hr₃, hr₄, hr₅, rfl⟩ := schedInit_rest hr₁ hr
  have hlive₂ : s₂.heap.live = s₁.heap.live := (setField_same hr₂).2
  have hlive₃ : s₃.heap.live = s₂.heap.live := (setField_same hr₃).2
  have hlive₄ : s₄.heap.live = s₃.heap.live := (setField_same hr₄).2
  have hboot₂ : s₂.IsTask boot := by
    rw [Scheduler.IsTask, hlive₂]
    exact hboot
  have hboot₃ : s₃.IsTask boot := by
    rw [Scheduler.IsTask, hlive₃]
    exact hboot₂
  have hboot₄ : s₄.IsTask boot := by
    rw [Scheduler.IsTask, hlive₄]
    exact hboot₃
  obtain ⟨V₂, h₂⟩ := held_setField h hboot (by decide) hr₂
  obtain ⟨V₃, h₃⟩ := held_setField (s := {s₂ with nextTid := add64 s₂.nextTid 1}) h₂ hboot₂ (by decide) hr₃
  obtain ⟨V₄, h₄⟩ := held_setField h₃ hboot₃ (by decide) hr₄
  obtain ⟨V₅, h₅⟩ := held_setField h₄ hboot₄ (by decide) hr₅
  exact ⟨V₅, h₅⟩

/-- Without a free block or a free frame every request is refused, and nothing changes. -/
theorem kmalloc_full (h : Held A role n V bs s.heap) (hused : ∀ b ∈ bs, b.free = false) (hframes : s.freeFrames = 0)
    {size : Nat} (hne : size ≠ 0) (hpages : 0 < pagesFor size) : kmalloc s size = .ok (null, s) := by
  have hfits : ¬ SomeFits bs size := by
    rw [Heap.someFits_iff]
    rintro ⟨b, hb, hfree, _⟩
    rw [hused b hb] at hfree
    cases hfree
  obtain ⟨_, _, m, hr, _, _, _, hsame⟩ := h.toHeapInv.kmalloc_refuses hne hfits hpages hframes
  cases hsame rfl
  exact kmalloc_of_machine hr

end Full

/-- With 21 pages no frame is free after `heap_init`; when 65424 bytes are taken, the boot
task fills what is left of the heap. -/
theorem flatHeap_full (taskTrampoline : Nat) : ∃ s, (sched (flatHeap (n := 21) (by decide)) taskTrampoline).init s ∧
    kmalloc s sizeofTask = .ok (null, s) ∧ kmalloc s kstackSize = .ok (null, s) := by
  obtain ⟨A, role, V, m, hmap, hinit, hheld, hfree⟩ := Heap.flatHeap_start (n := 21) (by decide) (by decide)
  -- all but 48 bytes, and their header
  obtain ⟨V₁, m₁, hk₁, h₁, hfree₁⟩ := hheld.kmalloc_last [] (by simp) rfl (show 65424 ≠ 0 by decide)
    (by decide) (by decide)
  have hlist₁ : taken [] ⟨Heap.heapBase, Heap.heapInitPages * pageSize - sizeofBlock, true⟩ (alignUp 65424 align) [] =
      [⟨Heap.heapBase, 65424, false⟩] ++ [⟨Heap.heapBase + 65456, 48, true⟩] := by decide
  dsimp only at hk₁ h₁
  rw [hlist₁] at h₁
  have hw := System.Reachable.step (.start hinit) (Heap.HeapStep.malloc (by decide) hk₁)
  -- the boot task takes the last block
  obtain ⟨V₂, m₂, hk₂, h₂, hfree₂⟩ := h₁.kmalloc_last [_] (by simp) rfl (show sizeofTask ≠ 0 by decide)
    (by decide) (by decide)
  have hlist₂ : taken [⟨Heap.heapBase, 65424, false⟩] ⟨Heap.heapBase + 65456, 48, true⟩ (alignUp sizeofTask align) [] =
      [⟨Heap.heapBase, 65424, false⟩, ⟨Heap.heapBase + 65456, 48, false⟩] := by decide
  rw [hlist₂] at h₂
  have hr₁ := kmalloc_of_machine (s := .fresh ⟨m₁, Heap.record (Heap.heapBase + 32) 65424 []⟩) hk₂
  have hlive : Heap.record (Heap.heapBase + 65456 + 32) sizeofTask (Heap.record (Heap.heapBase + 32) 65424 []) =
      [(Heap.heapBase + 65488, sizeofTask), (Heap.heapBase + 32, 65424)] := by decide
  dsimp only [Scheduler.fresh] at hr₁
  dsimp only at h₂
  rw [hlive] at hr₁ h₂
  obtain ⟨T, s, hr, _⟩ := schedInit_ok ⟨A, role, _, _, hmap, h₁⟩ hr₁ (by decide)
  obtain ⟨V', h'⟩ := schedInit_held hr₁ h₂ List.mem_cons_self hr
  have hframes : s.freeFrames = 0 := (schedInit_frames hr₁ hr).trans (hfree₂.trans (hfree₁.trans hfree))
  have hused : ∀ b ∈ [(⟨Heap.heapBase, 65424, false⟩ : Block), ⟨Heap.heapBase + 65456, 48, false⟩], b.free = false := by
    simp
  exact ⟨s, ⟨_, hw, hr⟩, kmalloc_full h' hused hframes (by decide) (by decide),
    kmalloc_full h' hused hframes (by decide) (by decide)⟩

/-- There `task_create` gets two null pointers, and faults where it writes through them. -/
theorem task_create_writes_null : ∃ s, (shared (flatHeap (n := 21) (by decide)) 0xffffffff80002000).Reachable s ∧
    kmalloc s sizeofTask = .ok (null, s) ∧ kmalloc s kstackSize = .ok (null, s) ∧
    (∃ f, taskCreate 0xffffffff80002000 s 0xffffffff80001000 1 = .error f) ∧
    ¬ Clean 0xffffffff80002000 s 0xffffffff80001000 1 := by
  obtain ⟨s, hinit, hr₁, hr₂⟩ := flatHeap_full 0xffffffff80002000
  have hs : (shared (flatHeap (n := 21) (by decide)) 0xffffffff80002000).Reachable s := .start hinit
  obtain ⟨T, hT⟩ := shared_reachable hs
  have hno : ¬ ServesBoth s.machine := by
    rintro ⟨t, m, _, _, hk, ht, _⟩
    rw [kmalloc_of_machine hk] at hr₁
    exact ht (congrArg Prod.fst (Except.ok.inj hr₁))
  obtain ⟨f, hfault⟩ := hT.create_faults hno 0xffffffff80002000 0xffffffff80001000 1
  refine ⟨s, hs, hr₁, hr₂, ⟨f, hfault⟩, ?_⟩
  rintro ⟨_, _, _, _, _, _, _, _, hr, _⟩
  rw [hfault] at hr
  cases hr

end ArcMonark.Sched
