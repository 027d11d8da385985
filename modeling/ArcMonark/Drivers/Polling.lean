import ArcMonark.Drivers.Ps2

/-! Input, from the devices to the task that polls.

Both handlers push what they make of their bytes into the one event queue, wherever the
task that polls it is interrupted. As long as it polls in time, it sees everything that
each device reports, in order, and so knows where the pointer is (`input_arrives`). -/
namespace ArcMonark.Drivers
open Library Kernel I8042

/-- The drivers with the event queue, and what the calls of `event_poll` have given. -/
structure Polling where
  ps2 : Ps2
  queue : EventQueue
  polled : List Event

/-- The events that a step pushes. -/
def emitted (s : Ps2) : Ps2Event → List Event
  | .accept .keyboard => (keyboardHandler s.keyboard s.chip.read.1).2.toList
  | .accept .aux => (mouseIrq s.mouse (s.chip.status false, s.chip.read.1)).2
  | .send _ _ | .arrive _ => []

inductive PollingEvent where
  | device (e : Ps2Event)
  | poll

inductive PollingStep (s : Polling) : PollingEvent → Polling → Prop where
  | device {e p} (hs : Ps2Step s.ps2 e p) :
      PollingStep s (.device e) {s with ps2 := p, queue := (emitted s.ps2 e).foldl eventPush s.queue}
  | poll : PollingStep s .poll
      {s with queue := (eventPoll s.queue).2, polled := s.polled ++ (eventPoll s.queue).1.toList}

/-- Behind the boot and `event_init`. -/
def polling : System Polling PollingEvent where
  init s := Booted s.ps2 ∧ (∃ q, s.queue = eventInit q) ∧ s.polled = []
  step := PollingStep

/-- How many events are pending. -/
def count (q : EventQueue) : Nat := (q.qHead + evqSize - q.qTail) % evqSize

/-- The queue has room for what a handler pushes. -/
def InTime (s : Polling) : PollingEvent → Prop
  | .device e => MouseWaits s.ps2 e ∧ count s.queue + (emitted s.ps2 e).length ≤ 255
  | .poll => True

instance (s : Polling) : (e : PollingEvent) → Decidable (InTime s e)
  | .device _ => inferInstanceAs (Decidable (_ ∧ _))
  | .poll => isTrue trivial

def devicesOf (es : List PollingEvent) : List Ps2Event := es.filterMap fun
  | .device e => some e
  | .poll => none

/-! ### What the devices report -/

/-- The handler on a scancode, and what it pushes. -/
def keyStep (s : Keyboard) (sc : UInt8) : Keyboard × List Event :=
  ((keyboardHandler s sc).1, (keyboardHandler s sc).2.toList)

def keyEvents (bytes : List UInt8) : List Event := (feed keyStep .start bytes).2

def mouseEvents (m : Mouse) (bytes : List UInt8) : List Event :=
  (feed mouseIrq m (bytes.map fun b => (stAuxData, b))).2

def fromKeyboard (e : Event) : Bool := decide (e.type = .keyDown ∨ e.type = .keyUp)

def fromMouse (e : Event) : Bool := !fromKeyboard e

/-- What the keyboard's handler makes of the mouse's acknowledge. -/
def strayEvent : Event := {Event.zero with type := .keyUp, scancode := 0x7A}

/-- The events are what both devices report, each in its order. -/
structure Reports (m : Mouse) (keys moves : List UInt8) (log : List Event) : Prop where
  keyboard : ∃ stray, (stray = [] ∨ stray = [strayEvent]) ∧ log.filter fromKeyboard = stray ++ keyEvents keys
  mouse : log.filter fromMouse = mouseEvents m moves

section Events
variable {s s' : Ps2} {e : Ps2Event}

theorem keyStep_state (s : Keyboard) (bytes : List UInt8) : (feed keyStep s bytes).1 = scan s bytes := by
  induction bytes generalizing s with
  | nil => rfl
  | cons b bytes ih => exact ih _

theorem keyEvents_append (bytes more : List UInt8) :
    keyEvents (bytes ++ more) = keyEvents bytes ++ (feed keyStep (scan .start bytes) more).2 := by
  rw [keyEvents, feed_append]
  dsimp only
  rw [keyStep_state, keyEvents]

theorem keyStep_events (s : Keyboard) (sc : UInt8) : ∀ e ∈ (keyStep s sc).2, fromKeyboard e = true := by
  unfold keyStep keyboardHandler
  split
  · exact fun _ he => absurd he List.not_mem_nil
  · intro e he
    rw [List.mem_singleton.mp he]
    dsimp only [fromKeyboard]
    split <;> rfl

theorem move_events (s : Pointer) (m : Motion) : ∀ e ∈ (move s m).2, fromKeyboard e = false := by
  intro e he
  rcases List.mem_append.mp he with hmove | hbutton
  · unfold moveEvent at hmove
    split at hmove
    · rw [List.mem_singleton.mp hmove]
      rfl
    · cases hmove
  · obtain ⟨bit, _, hbit⟩ := List.mem_flatMap.mp hbutton
    unfold buttonEvent at hbit
    split at hbit
    · cases hbit
    · rw [List.mem_singleton.mp hbit]
      dsimp only [fromKeyboard]
      split <;> rfl

theorem mouseIrq_events (s : Mouse) (port : UInt8 × UInt8) : ∀ e ∈ (mouseIrq s port).2, fromKeyboard e = false := by
  unfold mouseIrq
  dsimp only
  split
  · exact feed_outputs move_events _ _
  · exact fun _ he => absurd he List.not_mem_nil

theorem moveEvent_length (s : Pointer) (dx dy : Int) (new : UInt8) : (moveEvent s dx dy new).length ≤ 1 := by
  unfold moveEvent
  split <;> simp

theorem buttonEvent_length (s : Pointer) (new changed bit : UInt8) : (buttonEvent s new changed bit).length ≤ 1 := by
  unfold buttonEvent
  split <;> simp

theorem move_length (s : Pointer) (m : Motion) : (move s m).2.length ≤ 4 := by
  unfold move
  dsimp only
  simp only [List.length_append, List.flatMap_cons, List.flatMap_nil, List.length_nil]
  exact Nat.add_le_add (moveEvent_length _ _ _ _) (Nat.add_le_add (buttonEvent_length _ _ _ _)
    (Nat.add_le_add (buttonEvent_length _ _ _ _) (Nat.add_le_add (buttonEvent_length _ _ _ _) (Nat.le_refl 0))))

theorem packetByte_length (s : PacketState) (b : UInt8) : (packetByte s b).2.length ≤ 1 := by
  unfold packetByte
  split
  · split <;> simp
  · simp
  · dsimp only
    split <;> simp
  · simp

/-- A packet moves the pointer once and changes three buttons at most. -/
theorem mouseIrq_length (s : Mouse) (port : UInt8 × UInt8) : (mouseIrq s port).2.length ≤ 4 := by
  have hone := packetByte_length s.toPacketState port.2
  unfold mouseIrq
  dsimp only
  split
  · generalize (packetByte s.toPacketState port.2).2 = ms at hone ⊢
    match ms with
    | [] => exact Nat.zero_le 4
    | [m] =>
      have hfeed : (feed move s.toPointer [m]).2 = (move s.toPointer m).2 := List.append_nil _
      exact (congrArg List.length hfeed).trans_le (move_length s.toPointer m)
    | _ :: _ :: _ => simp at hone
  · exact Nat.zero_le 4

theorem emitted_length (s : Ps2) (e : Ps2Event) : (emitted s e).length ≤ 4 := by
  unfold emitted
  split
  · cases (keyboardHandler s.keyboard s.chip.read.1).2 <;> simp
  · exact mouseIrq_length _ _
  · simp
  · simp

/-- What a step pushes is what the drivers make of the bytes that it reads. -/
theorem emitted_spec (hs : Ps2Step s e s') : ∃ keys moves,
    s'.took .keyboard = s.took .keyboard ++ keys ∧ s'.took .aux = s.took .aux ++ moves ∧
      (emitted s e).filter fromKeyboard = (feed keyStep s.keyboard keys).2 ∧
      (emitted s e).filter fromMouse = (feed mouseIrq s.mouse (moves.map fun b => (stAuxData, b))).2 := by
  have hquiet : ∀ src, s.took src = s.took src ++ [] := fun src => (List.append_nil _).symm
  cases hs with
  | send _ => exact ⟨[], [], hquiet _, hquiet _, rfl, rfl⟩
  | arrive _ _ _ => exact ⟨[], [], hquiet _, hquiet _, rfl, rfl⟩
  | keyboard _ =>
    have hall := keyStep_events s.keyboard s.chip.read.1
    refine ⟨[s.chip.read.1], [], by simp [keyboardTurn], by simp [keyboardTurn], ?_, ?_⟩
    · refine (List.filter_eq_self.mpr hall).trans ?_
      exact (List.append_nil _).symm
    · exact List.filter_eq_nil_iff.mpr fun e he => by simp [fromMouse, hall e he]
  | mouse _ _ =>
    have hall := mouseIrq_events s.mouse (s.chip.status false, s.chip.read.1)
    have hnone : (emitted s (.accept .aux)).filter fromKeyboard = [] :=
      List.filter_eq_nil_iff.mpr fun e he => by simp [hall e he]
    have hself : (emitted s (.accept .aux)).filter fromMouse = emitted s (.accept .aux) :=
      List.filter_eq_self.mpr fun e he => by simp [fromMouse, hall e he]
    rw [hnone, hself]
    by_cases haux : ∃ b, s.chip.output = some (.aux, b)
    · obtain ⟨b, hout⟩ := haux
      have hread : s.chip.read.1 = b := by rw [Chip.read, hout]
      refine ⟨[], [b], by simp [mouseTurn_aux hout], by simp [mouseTurn_aux hout], rfl, ?_⟩
      rw [emitted, hread, mouseIrq_aux hout]
      exact (List.append_nil _).symm
    · have hother : ∀ b, s.chip.output ≠ some (.aux, b) := fun b hout => haux ⟨b, hout⟩
      refine ⟨[], [], by simp [mouseTurn_other hother], by simp [mouseTurn_other hother], rfl, ?_⟩
      rw [emitted, mouseIrq_other hother]
      rfl

end Events

/-! ### The queue -/

section Queue
variable {q : EventQueue} {pending : List Event}

theorem count_eq (h : q.Holds pending) : count q = pending.length := by
  have hroom := h.room
  have htail := h.tail_lt
  have hhead := h.head_eq
  unfold count
  unfold evqSize at *
  omega

/-- Nothing is dropped where there is room. -/
theorem pushes_hold (h : q.Holds pending) (es : List Event) (hroom : pending.length + es.length ≤ 255) :
    (es.foldl eventPush q).Holds (pending ++ es) := by
  induction es generalizing q pending with
  | nil => rwa [List.append_nil]
  | cons e es ih =>
    rw [List.length_cons] at hroom
    have hpush := eventPush_holds h e
    rw [DropQueue.push, if_neg (by omega)] at hpush
    have hrest := ih hpush (by rw [List.length_append, List.length_singleton]; omega)
    rwa [List.append_assoc] at hrest

end Queue

/-! ### Runs -/

/-- What has been polled and what is pending is what the drivers make of their bytes. -/
structure PollingOk (m₀ : Mouse) (es : List PollingEvent) (s : Polling) : Prop where
  routed : Routed m₀ (devicesOf es) s.ps2
  log : ∃ pending, s.queue.Holds pending ∧
    (s.polled ++ pending).filter fromKeyboard = keyEvents (s.ps2.took .keyboard) ∧
    (s.polled ++ pending).filter fromMouse = mouseEvents m₀ (s.ps2.took .aux)

section Runs
variable {m₀ : Mouse} {es : List PollingEvent} {s s' : Polling} {pending : List Event}

theorem PollingOk.device (h : PollingOk m₀ es s) {e : Ps2Event} {p : Ps2} (htime : InTime s (.device e))
    (hs : Ps2Step s.ps2 e p) :
    PollingOk m₀ (es ++ [.device e]) {s with ps2 := p, queue := (emitted s.ps2 e).foldl eventPush s.queue} := by
  obtain ⟨hwait, hroom⟩ := htime
  obtain ⟨pending, hholds, hkeys, hmoves⟩ := h.log
  obtain ⟨keys, moves, htook, htook', hemitted, hemitted'⟩ := emitted_spec hs
  have hdevices : devicesOf (es ++ [.device e]) = devicesOf es ++ [e] := by simp [devicesOf]
  rw [count_eq hholds] at hroom
  refine ⟨hdevices ▸ routed_step h.routed hwait hs, _, pushes_hold hholds _ hroom, ?_, ?_⟩
  · rw [← List.append_assoc, List.filter_append, hkeys, hemitted, htook, keyEvents_append, ← h.routed.keys]
  · rw [← List.append_assoc, List.filter_append, hmoves, hemitted', htook', mouseEvents, mouseEvents, List.map_append,
      feed_append, ← h.routed.moves]

theorem PollingOk.poll (h : PollingOk m₀ es s) :
    PollingOk m₀ (es ++ [.poll])
      {s with queue := (eventPoll s.queue).2, polled := s.polled ++ (eventPoll s.queue).1.toList} := by
  obtain ⟨pending, hholds, hkeys, hmoves⟩ := h.log
  obtain ⟨hfirst, hrest⟩ := eventPoll_holds hholds
  have hdevices : devicesOf (es ++ [.poll]) = devicesOf es := by simp [devicesOf]
  have hlog : s.polled ++ (eventPoll s.queue).1.toList ++ pending.tail = s.polled ++ pending := by
    rw [hfirst, List.append_assoc]
    cases pending <;> rfl
  refine ⟨hdevices ▸ h.routed, _, hrest, ?_, ?_⟩
  · rw [hlog]
    exact hkeys
  · rw [hlog]
    exact hmoves

theorem PollingOk.step (h : PollingOk m₀ es s) {e : PollingEvent} (hs : (polling.restrict InTime).step s e s') :
    PollingOk m₀ (es ++ [e]) s' := by
  obtain ⟨htime, hs⟩ := hs
  cases hs with
  | device hs => exact h.device htime hs
  | poll => exact h.poll

theorem PollingOk.run (h : PollingOk m₀ es s) {es' : List PollingEvent}
    (hrun : (polling.restrict InTime).Run s es' s') :
    PollingOk m₀ (es ++ es') s' := by
  induction hrun with
  | nil => rwa [List.append_nil]
  | snoc _ hs ih =>
    rw [← List.append_assoc]
    exact ih.step hs

theorem booted_took {p : Ps2} (h : Booted p) (src : Source) : p.took src = [] := by
  cases h
  rfl

/-- Behind the boot. -/
theorem polling_start (h : polling.init s) : PollingOk s.ps2.mouse [] s := by
  obtain ⟨hboot, ⟨q, hqueue⟩, hpolled⟩ := h
  have hempty : s.queue.Holds [] := hqueue ▸ eventInit_holds q
  refine ⟨routed_run hboot .nil, [], hempty, ?_, ?_⟩ <;> rw [hpolled, booted_took hboot] <;> rfl

/-- Polling empties the queue. -/
theorem polling_empties (h : s.queue.Holds pending) : ∃ es s', (polling.restrict InTime).Run s es s' ∧
    devicesOf es = [] ∧ s'.ps2 = s.ps2 ∧ s'.queue.Holds [] := by
  induction pending generalizing s with
  | nil => exact ⟨[], s, .nil, rfl, rfl, h⟩
  | cons x xs ih =>
    obtain ⟨_, hrest⟩ := eventPoll_holds h
    have hpoll : (polling.restrict InTime).step s .poll _ := ⟨trivial, .poll⟩
    obtain ⟨es, s', hrun, hdevices, hps2, hempty⟩ := ih
      (s := {s with queue := (eventPoll s.queue).2, polled := s.polled ++ (eventPoll s.queue).1.toList}) hrest
    exact ⟨.poll :: es, s', .cons hpoll hrun, hdevices, hps2, hempty⟩

/-- The devices silent, everything that they have sent is polled. -/
theorem polling_drains (h : PollingOk m₀ es s) : ∃ es' s', (polling.restrict InTime).Run s es' s' ∧
    (∀ src, sent src (devicesOf es') = []) ∧ (∀ src, s'.ps2.line src = []) ∧ s'.queue.Holds [] := by
  generalize hn : s.ps2.left = n
  induction n using Nat.strongRecOn generalizing s es with
  | ind n ih =>
    obtain ⟨pending, hholds, _⟩ := h.log
    obtain ⟨es₁, s₁, hrun₁, hdevices, hps2, hempty⟩ := polling_empties hholds
    have h₁ := h.run hrun₁
    by_cases hline : ∃ src, s₁.ps2.line src ≠ []
    · obtain ⟨e, p, hwait, hs, hquiet, hless⟩ := routed_progress h₁.routed hline
      have hroom : count s₁.queue + (emitted s₁.ps2 e).length ≤ 255 := by
        rw [count_eq hempty, List.length_nil, Nat.zero_add]
        exact (emitted_length s₁.ps2 e).trans (by decide)
      have hstep : (polling.restrict InTime).step s₁ (.device e) _ := ⟨⟨hwait, hroom⟩, .device hs⟩
      rw [hps2] at hless
      obtain ⟨es₂, s₂, hrun₂, hsent, hdone, hempty'⟩ := ih _ (hn ▸ hless) (h₁.step hstep) rfl
      refine ⟨es₁ ++ .device e :: es₂, s₂, hrun₁.append (.cons hstep hrun₂), fun src => ?_, hdone, hempty'⟩
      have hsplit : devicesOf (es₁ ++ .device e :: es₂) = devicesOf es₁ ++ ([e] ++ devicesOf es₂) := by simp [devicesOf]
      rw [hsplit, hdevices, List.nil_append, sent_append, hquiet, hsent]
      rfl
    · exact ⟨es₁, s₁, hrun₁, fun src => by rw [hdevices]; rfl,
        fun src => not_not.mp fun hne => hline ⟨src, hne⟩, hempty⟩

/-- The mouse's events lead to its pointer. -/
theorem mouseEvents_replay {screenW screenH : UInt32} {m : Mouse} (hon : m.toPointer.On screenW screenH)
    (bytes : List UInt8) :
    Replays m.view (mouseEvents m bytes) (feed mouseIrq m (bytes.map fun b => (stAuxData, b))).1.view := by
  have hstep : ∀ (s : Mouse) (port : UInt8 × UInt8), s.toPointer.On screenW screenH → True →
      (mouseIrq s port).1.toPointer.On screenW screenH ∧ Replays s.view (mouseIrq s port).2 (mouseIrq s port).1.view :=
    fun s port hs _ => mouseIrq_replays hs port
  exact (feed_follows hstep hon fun _ _ => trivial).2

/-- The bytes that have been read, and what has been made of them. -/
theorem PollingOk.reports {screenW screenH : UInt32} (h : PollingOk m₀ es s) (hon : m₀.toPointer.On screenW screenH) :
    ∃ pending keys moves, s.queue.Holds pending ∧
      sent .keyboard (devicesOf es) = keys ++ s.ps2.line .keyboard ∧
      sent .aux (devicesOf es) = moves ++ s.ps2.line .aux ∧ Reports m₀ keys moves (s.polled ++ pending) ∧
      Replays m₀.view ((s.polled ++ pending).filter fromMouse) s.ps2.mouse.view := by
  obtain ⟨pending, hholds, hkeys, hmoves⟩ := h.log
  obtain ⟨stray, seen, hstray, htook, hsent⟩ := h.routed.keyboard
  refine ⟨pending, seen, s.ps2.took .aux, hholds, hsent, h.routed.aux, ⟨?_, hmoves⟩, ?_⟩
  · rw [hkeys, htook]
    rcases hstray with rfl | rfl
    · exact ⟨[], .inl rfl, rfl⟩
    · exact ⟨[strayEvent], .inr rfl, rfl⟩
  · rw [hmoves, h.routed.moves]
    exact mouseEvents_replay hon _

end Runs

/-- **Input arrives.** Devices send when they like, and their handlers interrupt the task that
polls anywhere; but the mouse's first byte waits for an interrupt that the boot has left, and
the queue has room for what a handler pushes. What has been polled and what is pending is then
what the drivers make of the first bytes of each device, in order, and it leads a program
that sees nothing else to the pointer. Polling can always go on until everything that has been
sent is polled. -/
theorem input_arrives {s₀ s : Polling} {es : List PollingEvent} {screenW screenH : UInt32} (h₀ : polling.init s₀)
    (hon : s₀.ps2.mouse.toPointer.On screenW screenH) (hrun : (polling.restrict InTime).Run s₀ es s) :
    (∃ pending keys moves, s.queue.Holds pending ∧
      sent .keyboard (devicesOf es) = keys ++ s.ps2.line .keyboard ∧
      sent .aux (devicesOf es) = moves ++ s.ps2.line .aux ∧
      Reports s₀.ps2.mouse keys moves (s.polled ++ pending) ∧
      Replays s₀.ps2.mouse.view ((s.polled ++ pending).filter fromMouse) s.ps2.mouse.view) ∧
    ∃ es' s', (polling.restrict InTime).Run s es' s' ∧ (∀ src, sent src (devicesOf es') = []) ∧
      Reports s₀.ps2.mouse (sent .keyboard (devicesOf es)) (sent .aux (devicesOf es)) s'.polled ∧
      Replays s₀.ps2.mouse.view (s'.polled.filter fromMouse) s'.ps2.mouse.view := by
  have h : PollingOk s₀.ps2.mouse es s := (polling_start h₀).run hrun
  obtain ⟨es', s', hrun', hquiet, hline, hempty⟩ := polling_drains h
  have h' := h.run hrun'
  obtain ⟨pending, keys, moves, hholds, hkeys, hmoves, hreports, hreplays⟩ := h.reports hon
  obtain ⟨pending', keys', moves', hholds', hkeys', hmoves', hreports', hreplays'⟩ := h'.reports hon
  obtain rfl : pending' = [] := hholds'.head_eq_tail.mp (hempty.head_eq_tail.mpr rfl)
  have hall : ∀ src, sent src (devicesOf (es ++ es')) = sent src (devicesOf es) := fun src => by
    rw [devicesOf, List.filterMap_append]
    exact sent_append.trans (by rw [show List.filterMap _ es' = devicesOf es' from rfl, hquiet, List.append_nil]; rfl)
  rw [hall, hline, List.append_nil] at hkeys' hmoves'
  rw [List.append_nil] at hreports' hreplays'
  subst hkeys' hmoves'
  exact ⟨⟨pending, keys, moves, hholds, hkeys, hmoves, hreports, hreplays⟩, es', s', hrun', hquiet,
    hreports', hreplays'⟩

/-- A key is struck, and the interrupt that the boot has left comes between. -/
theorem input_arrives_key : ∃ s₀ s s' es es', polling.init s₀ ∧ (polling.restrict InTime).Run s₀ es s ∧
    sent .keyboard (devicesOf es) = [0x1E] ∧ (polling.restrict InTime).Run s es' s' ∧
    Reports s₀.ps2.mouse [0x1E] [] s'.polled := by
  have h₀ : polling.init ⟨bothWait, eventInit ⟨fun _ => .zero, 0, 0⟩, []⟩ := ⟨bothWait_booted, ⟨_, rfl⟩, rfl⟩
  have hside : Side 640 ∧ Side 480 := ⟨⟨by decide, by decide⟩, by decide, by decide⟩
  have hsend := System.Run.nil.snoc (S := polling.restrict InTime)
    (s := (⟨bothWait, eventInit ⟨fun _ => .zero, 0, 0⟩, []⟩ : Polling)) (i := .device (.send .keyboard 0x1E))
    ⟨⟨trivial, by decide⟩, .device (.send fun heq => by cases heq)⟩
  have hboot := hsend.snoc (i := PollingEvent.device (.accept .keyboard))
    ⟨⟨trivial, by decide⟩, .device (.keyboard rfl)⟩
  obtain ⟨_, es', s', hrun, _, hreports, _⟩ := input_arrives h₀ (mouseInit_on .start hside.1 hside.2).1 hboot
  exact ⟨_, _, s', _, es', h₀, hboot, rfl, hrun, hreports⟩

end ArcMonark.Drivers
