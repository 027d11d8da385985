import ArcMonark.Sched.Sched
import ArcMonark.Mm.HeapClient
import ArcMonark.Library.Stack

/-! The heap as a table of tasks.

`Tasks B T s` says that the heap keeps its invariant and that every live `task_t`
reads as the table `T` says. Each access of the scheduler then is a look at the
table or an update of it, whatever the heap does to the bytes around. -/
namespace ArcMonark.Sched
open Library Mm
open Heap (HeapBoot HeapRun Client SameData)

/-- The fields of a `task_t` that the scheduler reads. -/
structure Task where
  base : Nat
  state : Nat
  next : Nat

def taskAt (V : Mem) (t : Nat) : Task := ⟨V.load64 (t + 8), V.load (t + 16) 4, V.load64 (t + 32)⟩

theorem taskAt_congr {V V' : Mem} {t : Nat} (h : ∀ i, i < sizeofTask → V' (t + i) = V (t + i)) :
    taskAt V' t = taskAt V t := by
  have hag : ∀ off n, off + n ≤ sizeofTask → V'.load (t + off) n = V.load (t + off) n := by
    intro off n hle
    refine Mem.load_congr fun a hlo hhi => ?_
    have ha : t + (a - t) = a := by omega
    rw [← ha]
    exact h _ (by omega)
  have hbase := hag 8 8 (by decide)
  have hstate := hag 16 4 (by decide)
  have hnext := hag 32 8 (by decide)
  unfold taskAt Mem.load64
  rw [hbase, hstate, hnext]

def Tasks (B : HeapBoot) (T : Nat → Task) (s : Scheduler) : Prop :=
  ∃ V, Client B V s.heap ∧ ∀ t, (t, sizeofTask) ∈ s.heap.live → taskAt V t = T t

/-- A live `task_t`. -/
def Scheduler.IsTask (s : Scheduler) (t : Nat) : Prop := (t, sizeofTask) ∈ s.heap.live

/-- A live stack. -/
def Scheduler.IsStack (s : Scheduler) (k : Nat) : Prop := (k, kstackSize) ∈ s.heap.live

section Tasks
variable {B : HeapBoot} {V : Mem} {T : Nat → Task} {s s' : Scheduler} {t k x : Nat}

/-! ### Bytes -/

theorem client_setField (hV : Client B V s.heap) (ht : s.IsTask t) {off n : Nat} (hoff : off + n ≤ sizeofTask)
    (x : Nat) : ∃ m, setField s t off n x = .ok (s.withMachine m) ∧
      Client B (V.store (t + off) n x) (s.withMachine m).heap := by
  obtain ⟨m, hr, hV'⟩ := hV.write ht hoff x
  refine ⟨m, ?_, hV'⟩
  unfold Sched.setField
  rw [Scheduler.machine, hr]
  rfl

theorem client_pushWords (hV : Client B V s.heap) (hk : s.IsStack k) {i : Nat} (ws : List Nat)
    (hroom : 8 * ws.length ≤ i) (hi : i ≤ kstackSize) :
    ∃ m, pushWords s (add64 k i) ws = .ok (add64 k (i - 8 * ws.length), s.withMachine m) ∧
      Client B (V.push (k + i) ws) (s.withMachine m).heap := by
  induction ws generalizing s V i with
  | nil => exact ⟨s.machine, rfl, hV⟩
  | cons v vs ih =>
    rw [List.length_cons] at hroom
    have hlt : k + kstackSize < 2 ^ 64 := (hV.bounds hk).2.1
    have hsp : sub64 (add64 k i) 8 = add64 k (i - 8) := by
      rw [add64_eq (by omega), add64_eq (by omega), sub64_eq (by omega) (by omega)]
      omega
    obtain ⟨m, hr, hV'⟩ := hV.write hk (i := i - 8) (k := 8) (by omega) v
    obtain ⟨m', hr', hV''⟩ := ih (show Client B _ (s.withMachine m).heap from hV') hk (i := i - 8) (by omega)
      (by omega)
    refine ⟨m', ?_, ?_⟩
    · have hwrite : Virtual.write64 s.machine (add64 k (i - 8)) v = .ok m := hr
      have hrest : i - 8 - 8 * vs.length = i - 8 * (vs.length + 1) := by omega
      rw [Sched.pushWords, hsp, hwrite, ok_bind, hr', List.length_cons, hrest]
      rfl
    · have hdown : k + (i - 8) = k + i - 8 := by omega
      rw [hdown] at hV''
      exact hV''

theorem Tasks.client (h : Tasks B T s) : ∃ V, Client B V s.heap := by
  obtain ⟨V, hV, _⟩ := h
  exact ⟨V, hV⟩

theorem Tasks.ne_null (h : Tasks B T s) (ht : s.IsTask t) : t ≠ null := by
  obtain ⟨V, hV⟩ := h.client
  exact hV.ne_null ht

/-- A task is not a stack. -/
theorem client_task_ne (hV : Client B V s.heap) (ht : s.IsTask t) (hk : s.IsStack k) : t ≠ k := by
  rintro rfl
  exact absurd (hV.unique ht hk) (by decide)

theorem Tasks.ne (h : Tasks B T s) (ht : s.IsTask t) (hk : s.IsStack k) : t ≠ k := by
  obtain ⟨V, hV⟩ := h.client
  exact client_task_ne hV ht hk

theorem Tasks.congr {T' : Nat → Task} (h : Tasks B T s) (hag : ∀ t, s.IsTask t → T' t = T t) :
    Tasks B T' s := by
  obtain ⟨V, hV, hT⟩ := h
  exact ⟨V, hV, fun t ht => (hT t ht).trans (hag t ht).symm⟩

/-- The scheduler's variables are no part of the heap. -/
theorem Tasks.vars (h : Tasks B T s) (heq : s'.heap = s.heap) : Tasks B T s' := by
  unfold Tasks
  rw [heq]
  exact h

/-! ### Fields -/

theorem Tasks.getStackBase (h : Tasks B T s) (ht : s.IsTask t) : getStackBase s t = .ok (T t).base := by
  obtain ⟨V, hV, hT⟩ := h
  rw [← hT t ht]
  exact hV.read ht (by decide)

theorem Tasks.getNext (h : Tasks B T s) (ht : s.IsTask t) : getNext s t = .ok (T t).next := by
  obtain ⟨V, hV, hT⟩ := h
  rw [← hT t ht]
  exact hV.read ht (by decide)

theorem Tasks.stateIs (h : Tasks B T s) (ht : s.IsTask t) (state : TaskState) :
    stateIs s t state = .ok (decide ((T t).state = state.code)) := by
  obtain ⟨V, hV, hT⟩ := h
  have hread : getField s t 16 4 = .ok (V.load (t + 16) 4) := hV.read ht (by decide)
  rw [← hT t ht, Sched.stateIs, hread]
  rfl

/-- A write to one task's structure. -/
theorem Tasks.setField (h : Tasks B T s) (ht : s.IsTask t) {off n : Nat} (hoff : off + n ≤ sizeofTask)
    (x : Nat) {d : Task} (hd : ∀ V : Mem, taskAt V t = T t → taskAt (V.store (t + off) n x) t = d) :
    ∃ m, setField s t off n x = .ok (s.withMachine m) ∧
      Tasks B (Function.update T t d) (s.withMachine m) := by
  obtain ⟨V, hV, hT⟩ := h
  obtain ⟨m, hr, hV'⟩ := client_setField hV ht hoff x
  refine ⟨m, hr, _, hV', fun u hu => ?_⟩
  by_cases hut : u = t
  · rw [hut, Function.update_self, hd V (hT t ht)]
  · rw [Function.update_of_ne hut, ← hT u hu]
    refine taskAt_congr fun i hi => Mem.store_of_outside _ _ ?_
    have happart := hV.apart hu ht hut
    omega

/-- `rsp` and `id` are not read. -/
theorem Tasks.setUnread (h : Tasks B T s) (ht : s.IsTask t) {off : Nat} (hoff : off = 0 ∨ off = 24)
    (x : Nat) : ∃ m, Sched.setField s t off 8 x = .ok (s.withMachine m) ∧ Tasks B T (s.withMachine m) := by
  have hroom : off + 8 ≤ sizeofTask := by
    unfold sizeofTask
    omega
  obtain ⟨m, hr, h'⟩ := h.setField (d := T t) ht hroom x fun V hV => by
    rw [← hV]
    unfold taskAt Mem.load64
    rw [Mem.load_store_apart _ _ (by omega), Mem.load_store_apart _ _ (by omega),
      Mem.load_store_apart _ _ (by omega)]
  refine ⟨m, hr, h'.congr fun u _ => ?_⟩
  rw [Function.update_eq_self]

theorem Tasks.setRsp (h : Tasks B T s) (ht : s.IsTask t) (x : Nat) :
    ∃ m, setRsp s t x = .ok (s.withMachine m) ∧ Tasks B T (s.withMachine m) := h.setUnread ht (.inl rfl) x

theorem Tasks.setId (h : Tasks B T s) (ht : s.IsTask t) (x : Nat) :
    ∃ m, setId s t x = .ok (s.withMachine m) ∧ Tasks B T (s.withMachine m) := h.setUnread ht (.inr rfl) x

theorem Tasks.setStackBase (h : Tasks B T s) (ht : s.IsTask t) (hx : x < 2 ^ 64) :
    ∃ m, setStackBase s t x = .ok (s.withMachine m) ∧
      Tasks B (Function.update T t {T t with base := x}) (s.withMachine m) := by
  refine h.setField ht (by decide) x fun V hV => ?_
  rw [← hV]
  unfold taskAt Mem.load64
  rw [Mem.load_store_same, Mem.load_store_apart _ _ (.inr (by omega)),
    Mem.load_store_apart _ _ (.inr (by omega)), Nat.mod_eq_of_lt (show x < 256 ^ 8 from hx)]

theorem Tasks.setState (h : Tasks B T s) (ht : s.IsTask t) (state : TaskState) :
    ∃ m, setState s t state = .ok (s.withMachine m) ∧
      Tasks B (Function.update T t {T t with state := state.code}) (s.withMachine m) := by
  refine h.setField ht (by decide) state.code fun V hV => ?_
  have hcode : state.code % 256 ^ 4 = state.code := by cases state <;> rfl
  rw [← hV]
  unfold taskAt Mem.load64
  rw [Mem.load_store_same, Mem.load_store_apart _ _ (.inl (by omega)),
    Mem.load_store_apart _ _ (.inr (by omega)), hcode]

theorem Tasks.setNext (h : Tasks B T s) (ht : s.IsTask t) (hx : x < 2 ^ 64) :
    ∃ m, setNext s t x = .ok (s.withMachine m) ∧
      Tasks B (Function.update T t {T t with next := x}) (s.withMachine m) := by
  refine h.setField ht (by decide) x fun V hV => ?_
  rw [← hV]
  unfold taskAt Mem.load64
  rw [Mem.load_store_same, Mem.load_store_apart _ _ (.inl (by omega)),
    Mem.load_store_apart _ _ (.inl (by omega)), Nat.mod_eq_of_lt (show x < 256 ^ 8 from hx)]

theorem Tasks.lt (h : Tasks B T s) (ht : s.IsTask t) : t < 2 ^ 64 := by
  obtain ⟨V, hV⟩ := h.client
  have := (hV.bounds ht).2.1
  omega

theorem Tasks.stack_lt (h : Tasks B T s) (hk : s.IsStack k) : k < 2 ^ 64 := by
  obtain ⟨V, hV⟩ := h.client
  have := (hV.bounds hk).2.1
  omega

/-! ### Stacks -/

/-- A write to a stack touches no task. -/
theorem Tasks.writeStack (h : Tasks B T s) (hk : s.IsStack k) {i n : Nat} (hi : i + n ≤ kstackSize)
    (x : Nat) : ∃ m, Virtual.writeBytes s.machine (add64 k i) n x = .ok m ∧ Tasks B T (s.withMachine m) := by
  have hne := fun t ht => h.ne (t := t) ht hk
  obtain ⟨V, hV, hT⟩ := h
  obtain ⟨m, hr, hV'⟩ := hV.write hk hi x
  refine ⟨m, hr, _, hV', fun t ht => ?_⟩
  rw [← hT t ht]
  refine taskAt_congr fun i hi => Mem.store_of_outside _ _ ?_
  have happart := hV.apart ht hk (hne t ht)
  omega

theorem Tasks.pushWords (h : Tasks B T s) (hk : s.IsStack k) {i : Nat} (ws : List Nat)
    (hroom : 8 * ws.length ≤ i) (hi : i ≤ kstackSize) :
    ∃ m, pushWords s (add64 k i) ws = .ok (add64 k (i - 8 * ws.length), s.withMachine m) ∧
      Tasks B T (s.withMachine m) := by
  have hne := fun t ht => h.ne (t := t) ht hk
  obtain ⟨V, hV, hT⟩ := h
  obtain ⟨m, hr, hV'⟩ := client_pushWords hV hk ws hroom hi
  refine ⟨m, hr, _, hV', fun t ht => ?_⟩
  rw [← hT t ht]
  refine taskAt_congr fun i hi => Mem.push_of_outside _ (by omega) ?_
  have happart := hV.apart ht hk (hne t ht)
  omega

theorem client_stackTop (hV : Client B V s.heap) (hk : s.IsStack k) : stackTop k = add64 k kstackSize := by
  obtain ⟨_, hlt, hmod⟩ := hV.bounds hk
  unfold Sched.stackTop
  rw [add64_eq hlt]
  refine and_bits_eq (by decide) hlt ?_
  unfold Heap.align at hmod
  unfold kstackSize
  omega

theorem Tasks.stackTop (h : Tasks B T s) (hk : s.IsStack k) : stackTop k = add64 k kstackSize := by
  obtain ⟨V, hV⟩ := h.client
  exact client_stackTop hV hk

/-! ### Calls of the heap -/

theorem Tasks.kmalloc (h : Tasks B T s) {size p : Nat} (hlt : size < 2 ^ 63)
    (hr : kmalloc s size = .ok (p, s')) :
    ∃ T' m, s' = {s with heap := ⟨m, Heap.record p size s.heap.live⟩} ∧ Tasks B T' s' ∧
      (∀ t, s.IsTask t → T' t = T t) ∧ ∀ q k, (q, k) ∈ s.heap.live → q ≠ p := by
  obtain ⟨V, hV, hT⟩ := h
  unfold Sched.kmalloc at hr
  cases hk : Heap.kmalloc s.machine size with
  | error f =>
    rw [hk] at hr
    cases hr
  | ok r =>
    obtain ⟨p', m⟩ := r
    rw [hk] at hr
    cases hr
    obtain ⟨V', hV', hsame, hfresh⟩ := hV.kmalloc hlt hk
    refine ⟨taskAt V', m, rfl, ⟨V', hV', fun _ _ => rfl⟩, fun t ht => ?_, hfresh⟩
    rw [← hT t ht]
    exact taskAt_congr fun i hi => hsame t sizeofTask ht i hi

theorem Tasks.kfree (h : Tasks B T s) (hp : s.heap.Live k) :
    ∃ m, kfree s k = .ok {s with heap := ⟨m, Heap.forget k s.heap.live⟩, trace := .free k :: s.trace} ∧
      Tasks B T {s with heap := ⟨m, Heap.forget k s.heap.live⟩, trace := .free k :: s.trace} := by
  obtain ⟨V, hV, hT⟩ := h
  obtain ⟨m, V', hr, hV', hsame, _⟩ := hV.kfree hp
  refine ⟨m, ?_, V', hV', fun t ht => ?_⟩
  · rw [Sched.kfree, Scheduler.machine, hr]
    rfl
  · rw [← hT t (Heap.mem_forget.mp ht).1]
    exact taskAt_congr fun i hi => hsame t sizeofTask ht i hi

end Tasks

end ArcMonark.Sched
