import ArcMonark.Drivers.Serial
import ArcMonark.Library.PolledQueue
import Mathlib.Algebra.Order.BigOperators.Group.Finset

/-! Tasks that share the serial port.

A task in `serial_write` looks until the transmitter is empty, and then gives it one byte.
The timer takes it off the processor anywhere, also between the look and the byte, so that
others look and write as well. `serial_delivers`: up to 16 tasks lose nothing, and what goes
out of the port is each task's bytes in their order. For this the port refines the queue of
`PolledQueue`, with the tasks as its writers. -/
namespace ArcMonark.Drivers
open Library Lib

/-- A chip, and the tasks that write on it. -/
structure Port (ι : Type) where
  uart : Uart
  /-- What a task's call of `serial_write` has still to write. -/
  todo : ι → List Byte
  /-- The task has found the transmitter empty, and writes its next byte. -/
  seen : ι → Bool

inductive PortEvent (ι : Type) where
  /-- The task calls `serial_write(s)`, with this memory. -/
  | call (t : ι) (m : Object) (s : Nat)
  /-- It looks at `tx_empty()`; `other` is what else the chip reports. -/
  | look (t : ι) (other : Byte)
  /-- `outb(COM1, c)` -/
  | put (t : ι)
  | transmit

namespace Port
variable {ι : Type} [DecidableEq ι]

/-- What a task does next in the loops of `serial_putc` and `serial_write`. It makes its next
call when the last one has returned. -/
inductive Step (echo : Byte → Byte) : Port ι → PortEvent ι → Port ι → Prop where
  | call {p t m s bytes} : p.todo t = [] → serialWrite m s = some bytes →
      Step echo p (.call t m s) {p with todo := Function.update p.todo t bytes}
  | look {p t other} : p.todo t ≠ [] → p.seen t = false →
      Step echo p (.look t other) {p with seen := Function.update p.seen t (decide (txEmpty p.uart other ≠ 0))}
  | put {p t c cs} : p.seen t = true → p.todo t = c :: cs →
      Step echo p (.put t)
        {uart := p.uart.out echo 0 c,
         todo := Function.update p.todo t cs,
         seen := Function.update p.seen t false}
  | transmit {p} : p.uart.queue ≠ [] → Step echo p .transmit {p with uart := p.uart.transmit}

/-- Nobody is in `serial_write`. -/
def start (ι : Type) (u : Uart) : Port ι where
  uart := u
  todo := fun _ => []
  seen := fun _ => false

/-- The tasks and the transmitter, in any order. -/
def system (ι : Type) [DecidableEq ι] (echo : Byte → Byte) (u : Uart) : System (Port ι) (PortEvent ι) where
  init := fun p => p = start ι u
  step := Step echo

end Port

/-! ### What the tasks write -/

/-- The calls that a task makes in a run. -/
def callsOf {ι : Type} [DecidableEq ι] (t : ι) (is : List (PortEvent ι)) : List (Object × Nat) :=
  is.filterMap fun
    | .call u m s => if u = t then some (m, s) else none
    | _ => none

/-- The bytes that these calls write. -/
def written (cs : List (Object × Nat)) : List Byte := cs.flatMap fun c => (serialWrite c.1 c.2).getD []

section Calls
variable {ι : Type} [DecidableEq ι] {is : List (PortEvent ι)} {cs cs' : List (Object × Nat)}

theorem written_append (cs cs' : List (Object × Nat)) : written (cs ++ cs') = written cs ++ written cs' :=
  List.flatMap_append

theorem callsOf_append (t : ι) (is is' : List (PortEvent ι)) : callsOf t (is ++ is') = callsOf t is ++ callsOf t is' :=
  List.filterMap_append

theorem written_mono (h : cs <+: cs') : written cs <+: written cs' := by
  obtain ⟨rest, rfl⟩ := h
  rw [written_append]
  exact List.prefix_append _ _

/-- For the queue a call asks for its bytes. -/
def PortEvent.queued : PortEvent ι → PolledQueue.Event ι Byte
  | .call t m s => .ask t ((serialWrite m s).getD [])
  | .look t _ => .look t
  | .put t => .put t
  | .transmit => .drain

theorem told_queued (t : ι) (is : List (PortEvent ι)) :
    PolledQueue.told t (is.map PortEvent.queued) = written (callsOf t is) := by
  induction is with
  | nil => rfl
  | cons i is ih =>
    rw [PolledQueue.told, List.map_cons, List.flatMap_cons, ← PolledQueue.told, ih]
    cases i with
    | call u m s => by_cases hu : u = t <;> simp [callsOf, written, PortEvent.queued, hu]
    | look => rfl
    | put => rfl
    | transmit => rfl

/-- Whoever asks for nothing makes no call. -/
theorem callsOf_silent (t : ι) (h : ∀ e ∈ is.map PortEvent.queued, ∀ u xs, e ≠ .ask u xs) : callsOf t is = [] := by
  refine List.filterMap_eq_nil_iff.mpr fun i hi => ?_
  have hsilent := h _ (List.mem_map_of_mem hi)
  cases i with
  | call u m s => exact absurd rfl (hsilent u _)
  | look => rfl
  | put => rfl
  | transmit => rfl

end Calls

/-! ### The queue behind the port -/

/-- The queue is the transmitter's, and what is out of it has gone out of the port behind `before`. -/
structure Queued {ι : Type} (before : List Byte) (p : Port ι) (s : PolledQueue.State ι Byte) : Prop where
  room : p.uart.room = 16
  data : p.uart.divisorLatch = false
  connected : p.uart.loopback = false
  sent : p.uart.sent = before ++ s.out.map Prod.snd
  queue : p.uart.queue = s.queue.map Prod.snd
  todo : p.todo = s.todo
  seen : p.seen = s.seen

namespace Queued
variable {ι : Type} {echo : Byte → Byte} {before : List Byte} {p p' : Port ι} {s s' : PolledQueue.State ι Byte}
  {i : PortEvent ι} {e : PolledQueue.Event ι Byte}

/-- A chip that has passed its test. -/
theorem start {u : Uart} (htest : (serialInit echo u).1 = 0) :
    Queued u.sent (Port.start ι (serialInit echo u).2) (PolledQueue.start ι Byte) := by
  obtain ⟨hroom, _, _, hdata, hconnected, _, hqueue, hsent⟩ := serialInit_sets echo u
  exact ⟨hroom, hdata, hconnected.mpr htest, by rw [PolledQueue.start, List.map_nil, List.append_nil]; exact hsent,
    hqueue, rfl, rfl⟩

theorem empty_iff (h : Queued before p s) (other : Byte) : decide (txEmpty p.uart other ≠ 0) = s.queue.isEmpty := by
  rw [Bool.eq_iff_iff, decide_eq_true_iff, txEmpty_iff, h.queue, List.map_eq_nil_iff, List.isEmpty_iff]

theorem transmit {x : ι × Byte} {xs : List (ι × Byte)} (h : Queued before p s) (hq : s.queue = x :: xs) :
    Queued before {p with uart := p.uart.transmit} {s with queue := xs, out := s.out ++ [x]} := by
  have hqueue : p.uart.queue = x.2 :: xs.map Prod.snd := by rw [h.queue, hq, List.map_cons]
  refine {h with sent := ?_, queue := ?_}
  · rw [Uart.transmit, hqueue, List.map_append, ← List.append_assoc, ← h.sent]
    rfl
  · rw [Uart.transmit, hqueue]
    rfl

variable [DecidableEq ι]

theorem look (h : Queued before p s) (t : ι) (other : Byte) :
    Queued before {p with seen := Function.update p.seen t (decide (txEmpty p.uart other ≠ 0))}
      {s with seen := Function.update s.seen t s.queue.isEmpty} :=
  {h with seen := by rw [h.seen, h.empty_iff]}

theorem put (h : Queued before p s) (t : ι) (c : Byte) (cs : List Byte) :
    Queued before
      {uart := p.uart.out echo 0 c, todo := Function.update p.todo t cs, seen := Function.update p.seen t false}
      {s with queue := if s.queue.length < 16 then s.queue ++ [(t, c)] else s.queue,
              todo := Function.update s.todo t cs,
              seen := Function.update s.seen t false} := by
  have hout := (Uart.out_data echo c h.data).trans (Uart.give_open echo c h.connected)
  have hlen : p.uart.queue.length = s.queue.length := by rw [h.queue, List.length_map]
  refine ⟨?_, ?_, ?_, ?_, ?_, congrArg (Function.update · t cs) h.todo, congrArg (Function.update · t false) h.seen⟩
  all_goals rw [hout]
  · exact h.room
  · exact h.data
  · exact h.connected
  · exact h.sent
  · dsimp only
    rw [h.room, hlen, h.queue]
    split
    · rw [List.map_append]
      rfl
    · rfl

/-- What a task or the transmitter does, the queue allows. -/
theorem step (h : Queued before p s) (hs : Port.Step echo p i p') :
    ∃ s', PolledQueue.Step 16 s i.queued s' ∧ Queued before p' s' := by
  cases hs with
  | @call t m a bytes hreturned hbytes =>
    refine ⟨_, .ask, {h with todo := ?_}⟩
    rw [hbytes, Option.getD_some, ← h.todo, hreturned, List.nil_append]
  | @look t other hsome hseen => exact ⟨_, .look (h.todo ▸ hsome) (h.seen ▸ hseen), h.look t other⟩
  | @put t c cs hseen htodo => exact ⟨_, .put (h.seen ▸ hseen) (h.todo ▸ htodo), h.put t c cs⟩
  | transmit hsome =>
    rw [h.queue, ne_eq, List.map_eq_nil_iff] at hsome
    obtain ⟨x, xs, hq⟩ := List.exists_cons_of_ne_nil hsome
    exact ⟨_, .drain hq, h.transmit hq⟩

/-- What the queue does by itself, the tasks and the transmitter do. -/
theorem follow (he : ∀ t xs, e ≠ .ask t xs) (h : Queued before p s) (hs : PolledQueue.Step 16 s e s') :
    ∃ i p', PortEvent.queued i = e ∧ Port.Step echo p i p' ∧ Queued before p' s' := by
  cases hs with
  | @ask t xs => exact absurd rfl (he t xs)
  | @look t hsome hseen =>
    exact ⟨.look t 0, _, rfl, .look (h.todo.symm ▸ hsome) (h.seen.symm ▸ hseen), h.look t 0⟩
  | @put t c cs hseen htodo =>
    exact ⟨.put t, _, rfl, .put (h.seen.symm ▸ hseen) (h.todo.symm ▸ htodo), h.put t c cs⟩
  | @drain x xs hq =>
    refine ⟨.transmit, _, rfl, .transmit ?_, h.transmit hq⟩
    rw [h.queue, hq]
    exact List.cons_ne_nil _ _

end Queued

section Runs
variable {ι : Type} [DecidableEq ι] {echo : Byte → Byte} {before : List Byte} {u : Uart} {p : Port ι}
  {s : PolledQueue.State ι Byte} {is : List (PortEvent ι)}

/-- Every run behind a test that was passed is one of the queue. -/
theorem Port.run_queued (htest : (serialInit echo u).1 = 0)
    (hrun : (system ι echo (serialInit echo u).2).Run (start ι (serialInit echo u).2) is p) :
    ∃ s, (PolledQueue.system ι Byte 16).Run (PolledQueue.start ι Byte) (is.map PortEvent.queued) s ∧
      Queued u.sent p s :=
  hrun.simulated (fun h hs => h.step hs) (.start htest)

/-- Without new calls the tasks and the transmitter can come to an end. -/
theorem Queued.finishes [Fintype ι] (echo : Byte → Byte) (v : Uart) (h : Queued before p s) :
    ∃ is' p', (Port.system ι echo v).Run p is' p' ∧
      (∀ t, callsOf t is' = []) ∧ p'.uart.queue = [] ∧ (∀ t, p'.todo t = []) ∧ ∃ s', Queued before p' s' := by
  obtain ⟨es, s', hrun, hes, hqueue, htodo⟩ := PolledQueue.finishes 16 s
  obtain ⟨is', p', rfl, hrun', h'⟩ : ∃ is' p', is'.map PortEvent.queued = es ∧
      (Port.system ι echo v).Run p is' p' ∧ Queued before p' s' :=
    hrun.lifted (R := fun s p => Queued before p s) (fun he h hs => h.follow he hs) hes h
  refine ⟨is', p', hrun', fun t => callsOf_silent t hes, ?_, fun t => ?_, s', h'⟩
  · rw [h'.queue, hqueue, List.map_nil]
  · rw [h'.todo]
    exact htodo t

/-- One call that is made is one less to make. -/
theorem callsOf_call (t : ι) {m : Object} {a : Nat} {rest : ι → List (Object × Nat)} {cs : List (Object × Nat)}
    (hcs : rest t = (m, a) :: cs) (r : ι) :
    callsOf r [.call t m a] ++ Function.update rest t cs r = rest r := by
  by_cases hr : r = t
  · subst hr
    simp [callsOf, hcs]
  · simp [callsOf, hr, Ne.symm hr]

/-- So they can with any calls that return. -/
theorem Queued.finishes_calls [Fintype ι] (echo : Byte → Byte) (v : Uart) (h : Queued before p s)
    (rest : ι → List (Object × Nat)) (hrest : ∀ t, ∀ c ∈ rest t, (serialWrite c.1 c.2).isSome) :
    ∃ is' p', (Port.system ι echo v).Run p is' p' ∧
      (∀ t, callsOf t is' = rest t) ∧ p'.uart.queue = [] ∧ ∀ t, p'.todo t = [] := by
  induction hn : ∑ t, (rest t).length using Nat.strong_induction_on generalizing p s rest with
  | _ n ih =>
    obtain ⟨is₁, p₁, hrun₁, hcalls₁, hqueue₁, htodo₁, s₁, h₁⟩ := h.finishes echo v
    by_cases hnone : ∀ t, rest t = []
    · exact ⟨is₁, p₁, hrun₁, fun t => (hcalls₁ t).trans (hnone t).symm, hqueue₁, htodo₁⟩
    · push Not at hnone
      obtain ⟨t, ht⟩ := hnone
      obtain ⟨⟨m, a⟩, cs, hcs⟩ := List.exists_cons_of_ne_nil ht
      have hall := hrest t
      rw [hcs, List.forall_mem_cons] at hall
      obtain ⟨bytes, hbytes⟩ := Option.isSome_iff_exists.mp hall.1
      have hcall : Port.Step echo p₁ (.call t m a) _ := .call (htodo₁ t) hbytes
      obtain ⟨s₂, _, h₂⟩ := h₁.step hcall
      have hless : ∑ r, (Function.update rest t cs r).length < n := by
        rw [← hn]
        refine Finset.sum_lt_sum (fun r _ => ?_) ⟨t, Finset.mem_univ t, ?_⟩
        · rw [← callsOf_call t hcs r, List.length_append]
          exact Nat.le_add_left _ _
        · rw [Function.update_self, hcs, List.length_cons]
          exact Nat.lt_succ_self _
      have hrest' : ∀ r, ∀ c ∈ Function.update rest t cs r, (serialWrite c.1 c.2).isSome := fun r c hc =>
        hrest r c (by rw [← callsOf_call t hcs r]; exact List.mem_append_right _ hc)
      obtain ⟨is₃, p₃, hrun₃, hcalls₃, hdone⟩ := ih _ hless h₂ _ hrest' rfl
      refine ⟨is₁ ++ .call t m a :: is₃, p₃, hrun₁.append (.cons hcall hrun₃), fun r => ?_, hdone⟩
      rw [callsOf_append, hcalls₁, ← List.singleton_append (l := is₃), callsOf_append, hcalls₃]
      exact callsOf_call t hcs r

/-- Of each task's bytes the first are out, the next wait, and the rest are still to be written. -/
theorem Queued.split [Fintype ι] (hcard : Fintype.card ι ≤ 16) (h : Queued before p s)
    (hrun : (PolledQueue.system ι Byte 16).Run (PolledQueue.start ι Byte) (is.map PortEvent.queued) s) (t : ι) :
    PolledQueue.items t s.out ++ PolledQueue.items t s.queue ++ p.todo t = written (callsOf t is) := by
  rw [h.todo, PolledQueue.delivers hcard (hrun.reachable rfl), PolledQueue.asked_told hrun, told_queued]

/-- What is out, when nothing waits and nothing is left to write. -/
theorem Port.out_all [Fintype ι] (hcard : Fintype.card ι ≤ 16) (htest : (serialInit echo u).1 = 0)
    (hrun : (system ι echo (serialInit echo u).2).Run (start ι (serialInit echo u).2) is p)
    (hqueue : p.uart.queue = []) (htodo : ∀ t, p.todo t = []) :
    ∃ out : List (ι × Byte), p.uart.sent = u.sent ++ out.map Prod.snd ∧
      ∀ t, PolledQueue.items t out = written (callsOf t is) := by
  obtain ⟨s, hqrun, h⟩ := run_queued htest hrun
  refine ⟨s.out, h.sent, fun t => ?_⟩
  have hnone : s.queue = [] := List.map_eq_nil_iff.mp (h.queue.symm.trans hqueue)
  rw [← h.split hcard hqrun t, hnone, htodo, List.append_nil]
  exact (List.append_nil _).symm

end Runs

/-- **Serial output.** The chip has passed its test, and up to 16 tasks call `serial_write`,
taken off the processor anywhere, also between finding the transmitter empty and writing.
Nobody writes to a full transmitter. What has gone out of the port is a mixture of the tasks'
bytes: of each task's the first are out, the next wait in the chip and the rest are still to be
written. And the tasks and the chip can always go on until all are out. -/
theorem serial_delivers {ι : Type} [Fintype ι] [DecidableEq ι] (hcard : Fintype.card ι ≤ 16) {echo : Byte → Byte}
    {u : Uart} (htest : (serialInit echo u).1 = 0) {is : List (PortEvent ι)} {p : Port ι}
    (hrun : (Port.system ι echo (serialInit echo u).2).Run (Port.start ι (serialInit echo u).2) is p) :
    (∀ t, p.seen t = true → p.uart.queue.length < p.uart.room) ∧
      (∃ out queue : List (ι × Byte),
        p.uart.sent = u.sent ++ out.map Prod.snd ∧ p.uart.queue = queue.map Prod.snd ∧
        ∀ t, PolledQueue.items t out ++ PolledQueue.items t queue ++ p.todo t = written (callsOf t is)) ∧
      ∃ is' p', (Port.system ι echo (serialInit echo u).2).Run p is' p' ∧ (∀ t, callsOf t is' = []) ∧
        ∃ out : List (ι × Byte), p'.uart.sent = u.sent ++ out.map Prod.snd ∧
          ∀ t, PolledQueue.items t out = written (callsOf t is) := by
  obtain ⟨s, hqrun, h⟩ := Port.run_queued htest hrun
  refine ⟨fun t hseen => ?_, ⟨s.out, s.queue, h.sent, h.queue, h.split hcard hqrun⟩, ?_⟩
  · rw [h.room, h.queue, List.length_map]
    exact PolledQueue.fits hcard (hqrun.reachable rfl) (h.seen ▸ hseen)
  · obtain ⟨is', p', hrun', hcalls, hqueue, htodo, _⟩ := h.finishes echo (serialInit echo u).2
    obtain ⟨out, hsent, hout⟩ := Port.out_all hcard htest (hrun.append hrun') hqueue htodo
    refine ⟨is', p', hrun', hcalls, out, hsent, fun t => ?_⟩
    rw [hout, callsOf_append, hcalls, List.append_nil]

/-- Two tasks are in `serial_write`, and both find the transmitter empty. -/
theorem both_seen (u : Uart) {m m' : Object} {a a' : Nat} {xs xs' : List Byte} (hcall : serialWrite m a = some xs)
    (hcall' : serialWrite m' a' = some xs') (hxs : xs ≠ []) (hxs' : xs' ≠ []) :
    ∃ p, (Port.system (Fin 2) id (serialInit id u).2).Run (Port.start (Fin 2) (serialInit id u).2)
      [.call 0 m a, .call 1 m' a', .look 0 0, .look 1 0] p ∧ p.seen 0 = true ∧ p.seen 1 = true := by
  obtain ⟨_, _, _, _, _, _, hqueue, _⟩ := serialInit_sets id u
  have hempty : decide (txEmpty (serialInit id u).2 0 ≠ 0) = true := decide_eq_true ((txEmpty_iff _ _).mpr hqueue)
  have hcalled : (Port.system (Fin 2) id (serialInit id u).2).Run (Port.start (Fin 2) (serialInit id u).2)
    ([] ++ [.call 0 m a] ++ [.call 1 m' a']) _ := .snoc (.snoc .nil (.call rfl hcall)) (.call rfl hcall')
  have hlooked : (Port.system (Fin 2) id (serialInit id u).2).Run (Port.start (Fin 2) (serialInit id u).2)
      ([] ++ [.call 0 m a] ++ [.call 1 m' a'] ++ [.look 0 0] ++ [.look 1 0]) _ :=
    .snoc (.snoc hcalled (.look (by simpa using hxs) rfl)) (.look (by simpa using hxs') rfl)
  exact ⟨_, hlooked, hempty, hempty⟩

/-- Both write into the empty transmitter, and nothing is lost. -/
theorem serial_delivers_twoTasks : ∃ (u : Uart) (p p' : Port (Fin 2)) (is' : List (PortEvent (Fin 2)))
    (out : List (Fin 2 × Byte)), p.seen 0 = true ∧ p.seen 1 = true ∧ (Port.system (Fin 2) id u).Run p is' p' ∧
      p'.uart.sent = out.map Prod.snd ∧ PolledQueue.items 0 out = [0x61, 0x0D, 0x0A] ∧
      PolledQueue.items 1 out = [0x62] := by
  let u : Uart := ⟨0xFF, 0xFF, 0x00, 0xFF, 0x0C, 0x00, 0xFF, [0x00], []⟩
  have htest : (serialInit id u).1 = 0 := (serialInit_sets id u).2.2.2.2.2.1.mpr rfl
  have ha : serialWrite (literal "a\n") literalAt = some [0x61, 0x0D, 0x0A] :=
    serialWrite_string (literal_string (w := "a\n") (.ofList (by decide) (by decide)))
  have hb : serialWrite (literal "b") literalAt = some [0x62] :=
    serialWrite_string (literal_string (w := "b") (.ofList (by decide) (by decide)))
  obtain ⟨p, hrun, hseen, hseen'⟩ := both_seen u ha hb (by decide) (by decide)
  obtain ⟨_, _, is', p', hrun', _, out, hsent, hout⟩ := serial_delivers (by decide) htest hrun
  refine ⟨_, p, p', is', out, hseen, hseen', hrun', hsent, (hout 0).trans ?_, (hout 1).trans ?_⟩
  · simp [callsOf, written, ha]
  · simp [callsOf, written, hb]

/-- A chip that is looped back, and has sent this. -/
structure Uart.Silent (before : List Byte) (u : Uart) : Prop where
  data : u.divisorLatch = false
  loop : u.loopback = true
  queue : u.queue = []
  sent : u.sent = before

/-- Left in loopback by a test that failed, the chip sends nothing. -/
theorem looped_silent {ι : Type} [DecidableEq ι] {echo : Byte → Byte} {u : Uart} (htest : (serialInit echo u).1 ≠ 0)
    {p : Port ι} (h : (Port.system ι echo (serialInit echo u).2).Reachable p) : p.uart.sent = u.sent := by
  obtain ⟨_, _, _, hdata, hconnected, _, hqueue, hsent⟩ := serialInit_sets echo u
  have hloop : (serialInit echo u).2.loopback = true := by
    rw [← Bool.not_eq_false]
    exact fun hopen => htest (hconnected.mp hopen)
  have hstep : ∀ (p : Port ι) i p', p.uart.Silent u.sent → (Port.system ι echo (serialInit echo u).2).step p i p' →
      p'.uart.Silent u.sent := by
    intro p i p' hp hs
    cases hs with
    | call _ _ => exact hp
    | look _ _ => exact hp
    | @put t c _ _ _ =>
      dsimp only
      rw [Uart.out_data echo c hp.data, Uart.give, if_pos hp.loop]
      exact ⟨hp.data, hp.loop, hp.queue, hp.sent⟩
    | transmit hsome => exact absurd hp.queue hsome
  exact (System.invariant (by rintro p rfl; exact ⟨hdata, hloop, hqueue, hsent⟩) hstep h).sent

end ArcMonark.Drivers
