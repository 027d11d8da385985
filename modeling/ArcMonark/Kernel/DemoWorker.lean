import ArcMonark.Drivers.SerialShared

/-! The tasks of `cmd_threads` (`kernel/kernel.c`).

A worker writes five lines with its number and the tick on the serial port, and sleeps behind
each. `workers_report`: as many workers as the transmitter has room for, interrupted anywhere,
mix their lines on the port and lose nothing of them. -/
namespace ArcMonark.Kernel
open Library Lib Drivers

/-- The loop of `demo_worker` from `i` on, with its calls of `serial_write` and what is in its
buffer at each. The buffer is on the worker's stack; what the stack holds where `u64_to_dec`
has its array is in `tmp`. -/
def demoWorkerFor (id buf : Nat) (tmp : Nat → Vector Byte 20) :
    (fuel i : Nat) → Object → Option (List (Object × Nat) × Object)
  | 0, _, m => some ([], m)
  | fuel + 1, i, m =>
    if i < 5 then do
      let (idDec, m₁) ← u64ToDec m id buf (tmp (2 * i))
      let (iDec, m₂) ← u64ToDec m₁ i buf (tmp (2 * i + 1))
      let (rest, m') ← demoWorkerFor id buf tmp fuel (i + 1) m₂
      return ([(literal "[task ", literalAt), (m₁, idDec), (literal "] tick ", literalAt), (m₂, iDec),
        (literal "\n", literalAt)] ++ rest, m')
    else return ([], m)

def demoWorker (m : Object) (id buf : Nat) (tmp : Nat → Vector Byte 20) : Option (List (Object × Nat) × Object) :=
  demoWorkerFor id buf tmp 5 0 m

/-- One line of a worker, as a terminal shows it. -/
def demoLine (id i : Nat) : List Byte :=
  text "[task " ++ numeral 10 id ++ text "] tick " ++ numeral 10 i ++ [0x0D, 0x0A]

/-- All that a worker has to say. -/
def report (id : Nat) : List Byte := (List.range 5).flatMap (demoLine id)

/-- The calls return, and this is what they write. -/
structure Writes (cs : List (Object × Nat)) (bytes : List Byte) : Prop where
  returns : ∀ c ∈ cs, (serialWrite c.1 c.2).isSome
  written : written cs = bytes

section Worker
variable {cs : List (Object × Nat)} {xs ys : List Byte} {m : Object} {a id buf : Nat}

theorem Writes.nil : Writes [] [] := ⟨nofun, rfl⟩

theorem Writes.cons (hcall : serialWrite m a = some xs) (h : Writes cs ys) : Writes ((m, a) :: cs) (xs ++ ys) := by
  refine ⟨List.forall_mem_cons.mpr ⟨?_, h.returns⟩, ?_⟩
  · rw [hcall]
    rfl
  · rw [← h.written, Drivers.written, List.flatMap_cons, hcall]
    rfl

/-- A literal with a newline at its end at most. -/
theorem Writes.literal {w : String} (hw : IsText w) (h : Writes cs ys) :
    Writes ((literal w, literalAt) :: cs) (lines (text w) ++ ys) :=
  .cons (serialWrite_string (literal_string hw)) h

/-- What `u64_to_dec` leaves in the buffer is written as it is. -/
theorem u64ToDec_write (tmp : Vector Byte 20) (hroom : m.Room buf 21) {v : Nat} (hv : v < 2 ^ 64) :
    ∃ s m', u64ToDec m v buf tmp = some (s, m') ∧ m'.Room buf 21 ∧ serialWrite m' s = some (numeral 10 v) := by
  obtain ⟨m', hdec, hwrote⟩ := u64ToDec_wrote tmp hroom hv
  obtain ⟨m'', hdec', _, hstring⟩ := u64ToDec_string tmp hroom hv
  cases hdec.symm.trans hdec'
  exact ⟨_, m', hdec, hwrote.room hroom, by rw [serialWrite_string hstring, lines_numeral]⟩

/-- From any tick on, whatever is in the buffer. -/
theorem demoWorkerFor_writes (tmp : Nat → Vector Byte 20) (hid : id < 2 ^ 64) {fuel i : Nat} (hroom : m.Room buf 21)
    (hfuel : i + fuel = 5) : ∃ cs m', demoWorkerFor id buf tmp fuel i m = some (cs, m') ∧
      Writes cs ((List.range' i fuel).flatMap (demoLine id)) := by
  induction fuel generalizing i m with
  | zero => exact ⟨[], m, rfl, .nil⟩
  | succ fuel ih =>
    obtain ⟨idDec, m₁, hid₁, hroom₁, hidText⟩ := u64ToDec_write (tmp (2 * i)) hroom hid
    obtain ⟨iDec, m₂, hi₂, hroom₂, hiText⟩ := u64ToDec_write (v := i) (tmp (2 * i + 1)) hroom₁ (by omega)
    obtain ⟨rest, m', hrest, hwrites⟩ := ih hroom₂ (show i + 1 + fuel = 5 by omega)
    have htask : lines (text "[task ") = text "[task " := lines_plain (by decide)
    have htick : lines (text "] tick ") = text "] tick " := lines_plain (by decide)
    have hend : lines (text "\n") = [0x0D, 0x0A] := by decide
    have hline := Writes.literal (w := "[task ") (.ofList (by decide) (by decide)) <| .cons hidText <|
      .literal (w := "] tick ") (.ofList (by decide) (by decide)) <| .cons hiText <|
      .literal (w := "\n") (.ofList (by decide) (by decide)) hwrites
    rw [htask, htick, hend] at hline
    rw [List.range'_succ, List.flatMap_cons, demoLine]
    simp only [List.append_assoc]
    refine ⟨_, m', ?_, hline⟩
    rw [demoWorkerFor, if_pos (by omega), hid₁, Option.bind_eq_bind, Option.bind_some]
    dsimp only
    rw [hi₂, Option.bind_some, hrest]
    rfl

/-- A worker's calls return, and write its five lines, each with its number and the tick in
decimal and a carriage return in front of the line feed, whatever its stack held. -/
theorem demoWorker_writes (tmp : Nat → Vector Byte 20) (hroom : m.Room buf 21) (hid : id < 2 ^ 64) :
    ∃ cs m', demoWorker m id buf tmp = some (cs, m') ∧ Writes cs (report id) := by
  rw [report, List.range_eq_range']
  exact demoWorkerFor_writes tmp hid hroom rfl

end Worker

/-- **Reports arrive whole.** The chip has passed its test, and up to 16 workers write on it,
each with its own number and stack, interrupted anywhere. What has gone out of the port is a
mixture of beginnings of their reports; it is a worker's whole report once the worker has made
its last call, which has returned, and nothing waits in the chip. And from everywhere the
workers can go on until all reports are out. -/
theorem workers_report {ι : Type} [Fintype ι] [DecidableEq ι] (hcard : Fintype.card ι ≤ 16) {echo : Byte → Byte}
    {u : Uart} (htest : (serialInit echo u).1 = 0) {number buf : ι → Nat} {m : ι → Object}
    {tmp : ι → Nat → Vector Byte 20} (hnumber : ∀ t, number t < 2 ^ 64) (hroom : ∀ t, (m t).Room (buf t) 21)
    {is : List (PortEvent ι)} {p : Port ι}
    (hrun : (Port.system ι echo (serialInit echo u).2).Run (Port.start ι (serialInit echo u).2) is p)
    (hworkers : ∀ t, ∃ cs m', demoWorker (m t) (number t) (buf t) (tmp t) = some (cs, m') ∧ callsOf t is <+: cs) :
    (∃ out : List (ι × Byte), p.uart.sent = u.sent ++ out.map Prod.snd ∧
      ∀ t, PolledQueue.items t out <+: report (number t) ∧
        ((∃ m', demoWorker (m t) (number t) (buf t) (tmp t) = some (callsOf t is, m')) → p.todo t = [] →
          p.uart.queue = [] → PolledQueue.items t out = report (number t))) ∧
      ∃ is' p', (Port.system ι echo (serialInit echo u).2).Run p is' p' ∧
        (∀ t, ∃ m', demoWorker (m t) (number t) (buf t) (tmp t) = some (callsOf t (is ++ is'), m')) ∧
        ∃ out : List (ι × Byte), p'.uart.sent = u.sent ++ out.map Prod.snd ∧
          ∀ t, PolledQueue.items t out = report (number t) := by
  choose cs m' hcs hcalls using hworkers
  have hwrites : ∀ t, Writes (cs t) (report (number t)) := fun t => by
    obtain ⟨cs', m'', hworker, hwrites⟩ := demoWorker_writes (tmp t) (hroom t) (hnumber t)
    obtain ⟨rfl, -⟩ := Prod.mk.inj (Option.some.inj ((hcs t).symm.trans hworker))
    exact hwrites
  obtain ⟨s, hqrun, h⟩ := Port.run_queued htest hrun
  refine ⟨⟨s.out, h.sent, fun t => ⟨?_, ?_⟩⟩, ?_⟩
  · have hout : PolledQueue.items t s.out <+: written (callsOf t is) := by
      rw [← h.split hcard hqrun t, List.append_assoc]
      exact List.prefix_append _ _
    rw [← (hwrites t).written]
    exact hout.trans (written_mono (hcalls t))
  · rintro ⟨m'', hall⟩ htodo hqueue
    obtain ⟨heq, -⟩ := Prod.mk.inj (Option.some.inj ((hcs t).symm.trans hall))
    have hnone : s.queue = [] := List.map_eq_nil_iff.mp (h.queue.symm.trans hqueue)
    rw [← (hwrites t).written, heq, ← h.split hcard hqrun t, htodo, hnone, List.append_nil]
    exact (List.append_nil _).symm
  · choose rest hrest using hcalls
    have hreturns : ∀ t, ∀ c ∈ rest t, (serialWrite c.1 c.2).isSome := fun t c hc =>
      (hwrites t).returns c (by rw [← hrest t]; exact List.mem_append_right _ hc)
    obtain ⟨is', p', hrun', hcalls', hqueue, htodo⟩ :=
      h.finishes_calls echo (serialInit echo u).2 rest hreturns
    have hall : ∀ t, callsOf t (is ++ is') = cs t := fun t => by rw [callsOf_append, hcalls', hrest]
    obtain ⟨out, hsent, hout⟩ := Port.out_all hcard htest (hrun.append hrun') hqueue htodo
    refine ⟨is', p', hrun', fun t => ⟨m' t, (hall t).symm ▸ hcs t⟩, out, hsent, fun t => ?_⟩
    rw [hout, hall, (hwrites t).written]

/-- Every worker begins with the same call. -/
theorem demoWorker_starts {m m' : Object} {id buf : Nat} {tmp : Nat → Vector Byte 20} {cs : List (Object × Nat)}
    (h : demoWorker m id buf tmp = some (cs, m')) : [(literal "[task ", literalAt)] <+: cs := by
  rw [demoWorker, demoWorkerFor, if_pos (by decide)] at h
  obtain ⟨⟨_, m₁⟩, _, h⟩ := Option.bind_eq_some_iff.mp h
  obtain ⟨⟨_, m₂⟩, _, h⟩ := Option.bind_eq_some_iff.mp h
  obtain ⟨⟨rest, m₃⟩, _, h⟩ := Option.bind_eq_some_iff.mp h
  obtain ⟨rfl, -⟩ := Prod.mk.inj (Option.some.inj h)
  exact ⟨_, rfl⟩

/-- Two workers that have both found the transmitter empty, until all is out. -/
theorem workers_report_twoWorkers : ∃ (u : Uart) (p p' : Port (Fin 2)) (is' : List (PortEvent (Fin 2)))
    (out : List (Fin 2 × Byte)), p.seen 0 = true ∧ p.seen 1 = true ∧ (Port.system (Fin 2) id u).Run p is' p' ∧
      p'.uart.sent = out.map Prod.snd ∧ PolledQueue.items 0 out = report 1 ∧ PolledQueue.items 1 out = report 2 := by
  let u : Uart := ⟨0xFF, 0xFF, 0x00, 0xFF, 0x0C, 0x00, 0xFF, [0x00], []⟩
  let stack : Object := .bytes 0x1000 (List.replicate 21 0xFF)
  have htest : (serialInit id u).1 = 0 := (serialInit_sets id u).2.2.2.2.2.1.mpr rfl
  have hstack : stack.Room 0x1000 21 := Object.bytes_room (by decide) (by decide)
  have hfirst : serialWrite (literal "[task ") literalAt = some (text "[task ") :=
    serialWrite_string (literal_string (w := "[task ") (.ofList (by decide) (by decide)))
  obtain ⟨p, hrun, hseen, hseen'⟩ := both_seen u hfirst hfirst (by decide) (by decide)
  have hcalls : ∀ t : Fin 2, callsOf t [.call 0 (literal "[task ") literalAt, .call 1 (literal "[task ") literalAt,
      .look 0 0, .look 1 0] = [(literal "[task ", literalAt)] := Fin.forall_fin_two.mpr ⟨rfl, rfl⟩
  have hworkers : ∀ t : Fin 2, ∃ cs m',
      demoWorker stack (t.val + 1) 0x1000 (fun _ => .replicate 20 0xCC) = some (cs, m') ∧
        callsOf t [.call 0 (literal "[task ") literalAt, .call 1 (literal "[task ") literalAt, .look 0 0, .look 1 0] <+:
          cs := fun t => by
    obtain ⟨cs, m', hcs, _⟩ := demoWorker_writes (fun _ => .replicate 20 0xCC) hstack (show t.val + 1 < 2 ^ 64 by omega)
    rw [hcalls]
    exact ⟨cs, m', hcs, demoWorker_starts hcs⟩
  have hnumber : ∀ t : Fin 2, t.val + 1 < 2 ^ 64 := fun t => by omega
  obtain ⟨_, is', p', hrun', _, out, hsent, hout⟩ := workers_report (by decide) htest hnumber (fun _ => hstack) hrun
    hworkers
  exact ⟨_, p, p', is', out, hseen, hseen', hrun', hsent, hout 0, hout 1⟩

end ArcMonark.Kernel
