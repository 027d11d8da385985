import ArcMonark.Kernel.Repl
import ArcMonark.Library.Refine
import ArcMonark.Sched.SchedFailure

/-! The shell does what its commands mean.

Each function of the shell does to the console what it says to the terminal. The line that
`read_line` leaves in its buffer is the command that is run, and what was typed is on the
screen. `shell_session`: so it is for any lines, one after another. -/
namespace ArcMonark.Kernel
open Library Lib Drivers Gui

/-- The shell's variables are the session's, and its console shows the terminal. Of the local
variables no more is said than `P` says. -/
structure Shows (g : Framebuffer) (hfits : 4 * g.width ≤ g.pitch) (P : Locals → Prop) (s : Shell) (r : Repl) :
    Prop where
  shown : Shown g hfits s.console r.terminal
  settings : s.settings = r.settings
  ports : s.ports = r.ports
  locals : P s.locals

/-- The buffer has room for a number. -/
def HasBuffer (l : Locals) : Prop := l.m.Room l.buf 21

/-- The program says a text, and does nothing else. -/
def Says (g : Framebuffer) (hfits : 4 * g.width ≤ g.pitch) (P : Locals → Prop) (x : Shell → Option Shell)
    (str : List Byte) : Prop := Does (Shows g hfits P) x fun r => some (r.say str)

section Says
variable {g : Framebuffer} {hfits : 4 * g.width ≤ g.pitch} {P : Locals → Prop} {x y : Shell → Option Shell}
  {str str' : List Byte} {w : String} {f : Repl → Option Repl}

theorem Repl.say_append (r : Repl) (str str' : List Byte) : r.say (str ++ str') = (r.say str).say str' := by
  rw [say, Terminal.say_append]
  rfl

theorem Says.seq (hx : Says g hfits P x str) (hy : Says g hfits P y str') :
    Says g hfits P (fun s => (x s).bind y) (str ++ str') := by
  have hseq := Does.seq hx hy
  unfold Says
  simp only [Repl.say_append]
  exact hseq

/-- What is said before something else is done. -/
theorem Says.before (hx : Says g hfits P x str) (hy : Does (Shows g hfits P) y f) :
    Does (Shows g hfits P) (fun s => (x s).bind y) fun r => f (r.say str) := Does.seq hx hy

/-- A function of the console that says a text. -/
theorem says_of_console {u : Console → Option Console}
    (hu : ∀ s t, Shown g hfits s t → ∃ s', u s = some s' ∧ Shown g hfits s' (t.say str)) :
    Says g hfits P (fun s => (u s.console).map fun console => {s with console}) str := by
  refine Does.total fun s r h => ?_
  obtain ⟨console, hconsole, hdisplays⟩ := hu _ _ h.shown
  exact ⟨{s with console}, by rw [hconsole, Option.map_some], hdisplays, h.settings, h.ports, h.locals⟩

theorem putchar_shown (c : UInt8) : Says g hfits P (Shell.putchar g c) [c.toBitVec] :=
  says_of_console (u := fun s => Drivers.putchar g s c) fun _ _ h => h.putchar c

theorem print_shown (hw : IsText w) : Says g hfits P (Shell.print g w) (text w) :=
  says_of_console (u := printLiteral g w) fun _ _ h => printLiteral_shown hw h

theorem printFrom_shown_shell {m : Object} {a : Nat} (h : StringAt m a str) :
    Says g hfits P (Shell.printFrom g m a) str :=
  says_of_console (u := Drivers.printFrom g m a) fun _ _ hd => printFrom_shown h hd

theorem printDec_shown_shell {v : Nat} (hv : v < 2 ^ 64) :
    Says g hfits HasBuffer (Shell.printDec g v) (numeral 10 v) := by
  refine Does.total fun s r h => ?_
  obtain ⟨console, m, hdec, hdisplays, hroom⟩ := printDec_shown (s.locals.tmp 0) h.locals hv h.shown
  refine ⟨{s with console, locals := {s.locals with m, tmp := fun n => s.locals.tmp (n + 1)}}, ?_, ?_⟩
  · rw [Shell.printDec, hdec, Option.map_some]
  · exact ⟨hdisplays, h.settings, h.ports, hroom⟩

/-- `putchar('\n')` -/
theorem newline_shown : Says g hfits P (Shell.putchar g 0x0A) (text "\n") := putchar_shown 0x0A

theorem printMsg_does (id : MsgId) : Does (Shows g hfits P) (Shell.printMsg g id)
    fun r => some (r.say (message r.settings.language id)) := by
  refine Does.total fun s r h => ?_
  obtain ⟨console, hconsole, hdisplays⟩ := printMsg_shown s.settings id h.shown
  rw [h.settings] at hdisplays
  refine ⟨{s with console}, ?_, hdisplays, h.settings, h.ports, h.locals⟩
  rw [Shell.printMsg, hconsole, Option.map_some]

/-- A message and the end of its line. -/
theorem tell_does (id : MsgId) :
    Does (Shows g hfits P) (fun s => (s.printMsg g id).bind (Shell.putchar g 0x0A)) fun r => some (r.tell id) := by
  have hmsg : Does (Shows g hfits P) (Shell.printMsg g id) _ := printMsg_does id
  have hseq := hmsg.seq newline_shown
  refine cast ?_ hseq
  congr
  funext r
  exact congrArg some (Repl.say_append ..).symm

theorem clearScreen_does (hwidth : 8 ≤ g.width) (hheight : 16 ≤ g.height) :
    Does (Shows g hfits P) (fun s => some (s.clearScreen g)) fun r => some r.clear := by
  refine Does.change fun s r h => ⟨?_, h.settings, h.ports, h.locals⟩
  have hd := h.shown
  rw [Repl.clear, hd.cols, hd.rows, hd.fg, hd.bg]
  exact clearScreen_shown hwidth hheight hfits s.console

/-- A label, a number and the end of the line, in front of another text. -/
theorem Says.labelled {w : String} {v : Nat} (hw : IsText w) (hv : v < 2 ^ 64)
    (hy : Says g hfits HasBuffer y str) : Says g hfits HasBuffer
      (fun s => (s.print g w).bind fun s => (s.printDec g v).bind fun s => (s.putchar g 0x0A).bind y)
      (labelled w v ++ str) := by
  have hseq := (print_shown hw).seq ((printDec_shown_shell hv).seq (newline_shown.seq hy))
  rw [Kernel.labelled, List.append_assoc, List.append_assoc]
  exact hseq

/-- The same at the end of a command. -/
theorem labelled_shown {w : String} {v : Nat} (hw : IsText w) (hv : v < 2 ^ 64) : Says g hfits HasBuffer
    (fun s => (s.print g w).bind fun s => (s.printDec g v).bind (Shell.putchar g 0x0A)) (labelled w v) := by
  have hprint : Says g hfits HasBuffer (Shell.print g w) _ := print_shown hw
  have hseq := hprint.seq ((printDec_shown_shell hv).seq newline_shown)
  rw [Kernel.labelled, List.append_assoc]
  exact hseq

end Says

/-! ### The commands -/

section Commands
variable {g : Framebuffer} {hfits : 4 * g.width ≤ g.pitch} {P : Locals → Prop}

theorem cmdMem_shown {m : Machine} (hframes : ∃ P, Mm.Pmm.Allocator P m) (hheap : m.usedBytes < 2 ^ 64) :
    Says g hfits HasBuffer (cmdMem g m) (memReport m) := by
  obtain ⟨A, hA⟩ := hframes
  have htotal := hA.total_le
  have hused := hA.toCounted.used_le
  have hfree := hA.toCounted.free_eq
  have hmib : (m.totalFrames - m.usedFrames) * pageSize % 2 ^ 64 / (1024 * 1024) =
      (m.totalFrames - m.usedFrames) / 256 := by
    unfold pageSize
    omega
  have hlines : Says g hfits HasBuffer (cmdMem g m) _ :=
    .labelled (.ofList (by decide) (by decide)) (show m.totalFrames < 2 ^ 64 by omega) <|
    .labelled (.ofList (by decide) (by decide)) (show m.usedFrames < 2 ^ 64 by omega) <|
    .labelled (.ofList (by decide) (by decide)) (show Mm.Pmm.pmmFreeFrames m < 2 ^ 64 by omega) <|
    .labelled (.ofList (by decide) (by decide)) (by rw [hfree, hmib]; omega) <|
    labelled_shown (.ofList (by decide) (by decide)) hheap
  rw [hfree, hmib] at hlines
  unfold memReport
  simp only [List.append_assoc]
  exact hlines

/-- The count is that of the list in memory. -/
theorem Background.count_eq (b : Background) (n : Nat) : b.count n = some (b.alive n) ∧ b.alive n < 2 ^ 32 := by
  obtain ⟨T, hT⟩ := Sched.shared_reachable (b.reachable n)
  have halive : b.alive n = (b.sched n).others.length + 1 := by
    rw [alive, hT.tasks_eq]
    rfl
  have hlt := hT.count_lt
  rw [halive, count, hT.schedTaskCount, Nat.mod_eq_of_lt hlt]
  exact ⟨rfl, hlt⟩

/-- A task is created where there is memory for it. -/
theorem Background.create_iff (b : Background) (n id : Nat) (hid : id < 2 ^ 64) :
    (∃ r, b.create n id = some r) ↔ Sched.CanCreate (b.sched n).machine := by
  obtain ⟨T, hT⟩ := Sched.shared_reachable (b.reachable n)
  rw [← hT.tasks.servesBoth_iff]
  constructor
  · rintro ⟨⟨p, s'⟩, hcreate⟩
    unfold create at hcreate
    cases hr : Sched.taskCreate b.taskTrampoline.toNat (b.sched n) b.demoWorker.toNat id with
    | error f => rw [hr] at hcreate; cases hcreate
    | ok r => exact hT.servesBoth_of_ok hr
  · intro hboth
    obtain ⟨_, _, _, _, p, s', _, _, hr, _⟩ := hT.clean hboth b.taskTrampoline.isLt b.demoWorker.isLt hid
    exact ⟨(p, s'), by rw [create, hr]; rfl⟩

open Classical in
/-- What is behind the three calls is reached if all of them succeed. -/
theorem Background.creates (b : Background) {α : Type} (x : Option α) :
    ((b.create 0 1).bind fun _ => (b.create 1 2).bind fun _ => (b.create 2 3).bind fun _ => x) =
      if b.CanStart then x else none := by
  have hfault : ∀ n id, id < 2 ^ 64 → n < 3 → b.create n id = none → ¬ b.CanStart := fun n id hid hn hnone hcan => by
    obtain ⟨r, hr⟩ := (b.create_iff n id hid).mpr (hcan n hn)
    rw [hnone] at hr
    cases hr
  cases h₀ : b.create 0 1 with
  | none => rw [Option.bind_none, if_neg (hfault 0 1 (by decide) (by decide) h₀)]
  | some r₀ =>
    cases h₁ : b.create 1 2 with
    | none => rw [Option.bind_some, Option.bind_none, if_neg (hfault 1 2 (by decide) (by decide) h₁)]
    | some r₁ =>
      cases h₂ : b.create 2 3 with
      | none => rw [Option.bind_some, Option.bind_some, Option.bind_none, if_neg (hfault 2 3 (by decide) (by decide) h₂)]
      | some r₂ =>
        have hcan : b.CanStart := fun n hn => by
          obtain rfl | rfl | rfl : n = 0 ∨ n = 1 ∨ n = 2 := by omega
          · exact (b.create_iff 0 1 (by decide)).mp ⟨r₀, h₀⟩
          · exact (b.create_iff 1 2 (by decide)).mp ⟨r₁, h₁⟩
          · exact (b.create_iff 2 3 (by decide)).mp ⟨r₂, h₂⟩
        rw [if_pos hcan]
        rfl

theorem tasksFor_eq (b : Background) (fuel n : Nat) (hn : 0 < n) :
    tasksFor b fuel n = some (((List.range' n fuel).find? fun k => b.alive k ≤ 1).getD (n + fuel - 1) + 1) := by
  induction fuel generalizing n with
  | zero =>
    simp only [tasksFor, List.range'_zero, List.find?_nil, Option.getD_none, Option.some.injEq]
    omega
  | succ fuel ih =>
    rw [tasksFor, List.range'_succ, (b.count_eq n).1, Option.bind_eq_bind, Option.bind_some]
    by_cases hmore : b.alive n > 1
    · rw [if_pos hmore, ih (n + 1) (by omega), List.find?_cons_of_neg (by simpa using hmore)]
      congr 3
      omega
    · rw [if_neg hmore, List.find?_cons_of_pos (by simpa using hmore)]
      rfl

open Classical in
theorem cmdThreads_does (b : Background) : Does (Shows g hfits HasBuffer) (cmdThreads g b)
    fun r => if b.CanStart then some (r.say (threadsReport b)) else none := by
  have hcount : ∀ n, b.alive n < 2 ^ 64 := fun n => (b.count_eq n).2.trans (by decide)
  have hlast : tasksFor b 40 4 = some b.lastCount := tasksFor_eq b 40 4 (by decide)
  have hstart : Says g hfits HasBuffer (Shell.print g "3 arka plan task baslatiliyor (cikti seri portta)\n") _ :=
    print_shown (.ofList (by decide) (by decide))
  intro s r h
  unfold cmdThreads
  simp only [Option.bind_eq_bind, b.creates, (b.count_eq _).1, hlast, Option.bind_some]
  by_cases hcan : b.CanStart
  · have hlines : Says g hfits HasBuffer _ _ :=
      .labelled (w := "canli task: ") (.ofList (by decide) (by decide)) (hcount 3) <|
      labelled_shown (w := "bitince canli task: ") (.ofList (by decide) (by decide)) (hcount b.lastCount)
    have hall := hstart.seq hlines s r h
    simp only [if_pos hcan, threadsReport, List.append_assoc]
    exact hall
  · have hall := hstart.before Does.never s r h
    simp only [if_neg hcan]
    exact hall

theorem printKey_shown (e : Event) : Says g hfits P (printKey g e)
    (if e.ch ≠ '\x00' then [BitVec.ofNat 8 e.ch.toNat] else text "?") := by
  unfold printKey
  by_cases hch : e.ch = '\x00'
  · simp only [hch, ne_eq, not_true_eq_false, if_false]
    exact print_shown (.ofList (by decide) (by decide))
  · simp only [hch, ne_eq, not_false_eq_true, if_true]
    exact putchar_shown (.ofNat e.ch.toNat)

theorem printEvent_shown (e : Event) : Says g hfits HasBuffer (printEvent g e) (eventLine e) := by
  have hbyte : ∀ c : UInt8, c.toNat < 2 ^ 64 := fun c => c.toNat_lt.trans (by decide)
  have hhalf : ∀ x : Int16, x.toUInt16.toNat < 2 ^ 64 := fun x => x.toUInt16.toNat_lt.trans (by decide)
  unfold printEvent eventLine
  cases htype : e.type with
  | none => exact Does.done
  | keyUp => exact Does.done
  | mouseMove => exact Does.done
  | keyDown =>
    rw [List.append_assoc]
    exact .seq (print_shown (.ofList (by decide) (by decide))) <|
      .seq (printKey_shown e) <| labelled_shown (.ofList (by decide) (by decide)) (hbyte _)
  | mouseDown =>
    simp only [List.append_assoc]
    exact .seq (print_shown (.ofList (by decide) (by decide))) <| .seq (printDec_shown_shell (hbyte _)) <|
      .seq (print_shown (.ofList (by decide) (by decide))) <| .seq (printDec_shown_shell (hhalf _)) <|
      labelled_shown (.ofList (by decide) (by decide)) (hhalf _)
  | mouseUp => exact labelled_shown (.ofList (by decide) (by decide)) (hbyte _)

/-- The loop ends at the first Escape. -/
theorem eventsWhile_does (events : List Event) : Does (Shows g hfits HasBuffer) (eventsWhile g events)
    fun r => (eventLines events).map r.say := by
  induction events with
  | nil => exact Does.never
  | cons e events ih =>
    by_cases hescape : e.type = .keyDown ∧ e.scancode = 0x01
    · have hlines : eventLines (e :: events) = some [] := by simp [eventLines, isEscape, hescape]
      intro s r h
      rw [hlines, eventsWhile, if_pos hescape]
      exact .some h
    · have hlines : eventLines (e :: events) = (eventLines events).map (eventLine e ++ ·) := by
        have hnot : isEscape e = false := decide_eq_false hescape
        unfold eventLines
        rw [List.any_cons, hnot, Bool.false_or, List.takeWhile_cons_of_pos (by rw [hnot]; rfl), List.flatMap_cons]
        split <;> rfl
      have hmore : (fun r : Repl => (eventLines (e :: events)).map r.say) =
          fun r => (eventLines events).map (r.say (eventLine e)).say := by
        funext r
        rw [hlines, Option.map_map]
        exact congrArg (Option.map · _) (funext fun str => Repl.say_append ..)
      rw [hmore]
      intro s r h
      rw [eventsWhile, if_neg hescape]
      exact (printEvent_shown e).before ih s r h

theorem cmdEvents_does (input : Input g) : Does (Shows g hfits HasBuffer) (cmdEvents g input.events)
    fun r => Command.events.exec input r := by
  have hstart : Says g hfits HasBuffer (Shell.print g "olay dongusu - cikmak icin ESC\n") _ :=
    print_shown (.ofList (by decide) (by decide))
  have hend : Says g hfits HasBuffer (Shell.print g "olay dongusu bitti\n") _ :=
    print_shown (.ofList (by decide) (by decide))
  have hseq := hstart.before ((eventsWhile_does input.events).seq hend)
  have hexec : (fun r => Command.events.exec input r) = fun r =>
      ((eventLines input.events).map (r.say (text "olay dongusu - cikmak icin ESC\n")).say).bind fun r =>
        some (r.say (text "olay dongusu bitti\n")) := by
    funext r
    unfold Command.exec
    cases eventLines input.events with
    | none => rfl
    | some str => simp only [Option.map_some, Option.bind_some, Repl.say_append]
  rw [hexec]
  exact hseq

variable (hwidth : 8 ≤ g.width) (hheight : 16 ≤ g.height)
include hwidth hheight

/-- Whatever the demo has drawn, the screen is cleared behind it. -/
theorem cmdMouse_does (samples : List Sample) : Does (Shows g hfits P) (cmdMouse g samples)
    fun r => some (r.clear.say (text "mouse demo bitti\n")) := by
  intro s r h
  have hd := h.shown
  refine print_shown (.ofList (by decide) (by decide)) _ _ ⟨?_, h.settings, h.ports, h.locals⟩
  rw [Repl.clear, hd.cols, hd.rows, hd.fg, hd.bg]
  exact clearScreen_shown hwidth hheight hfits
    {s.console with buffers := (mouseDemo g s.console.buffers s.under samples).buffers}

theorem themeSet_does (t : Theme) : Does (Shows g hfits P)
    (fun s => themeSet g {s with settings := {s.settings with fg := t.fg, bg := t.bg}})
    fun r => some ((r.recolor t.fg t.bg).tell .themeSet) := by
  intro s r h
  have hd := h.shown
  refine tell_does .themeSet _ _
    ⟨?_, congrArg (fun settings => {settings with fg := t.fg, bg := t.bg}) h.settings, h.ports, h.locals⟩
  rw [Repl.recolor, hd.cols, hd.rows]
  exact clearScreen_shown hwidth hheight hfits (Drivers.setColor s.console t.fg t.bg)

omit hwidth hheight

theorem streqTo_eq {m : Object} {a : Nat} {str : List Byte} {w : String} (h : StringAt m a str) (hw : IsText w) :
    streqTo m a w = some (if str = text w then 1 else 0) := by
  obtain ⟨n, hn, _, heq, _⟩ := strcmp_sign h (literal_string hw)
  rw [streqTo, streq, hn]
  simp only [Option.bind_eq_bind, Option.bind_some, Option.pure_def, heq]

theorem flag_ne_zero (p : Prop) [Decidable p] : (if p then (1 : Int) else 0) ≠ 0 ↔ p := by
  split <;> simp [*]

theorem setLanguage_does (l : Lang) : Does (Shows g hfits P)
    (fun s => (Shell.printMsg g .langSet {s with settings := {s.settings with language := l}}).bind
      (Shell.putchar g 0x0A))
    fun r => some (Repl.tell {r with settings := {r.settings with language := l}} .langSet) := by
  intro s r h
  exact tell_does .langSet _ _
    ⟨h.shown, congrArg (fun settings => {settings with language := l}) h.settings, h.ports, h.locals⟩

theorem cmdLang_does (input : Input g) {m : Object} {arg : Nat} {str : List Byte} (h : StringAt m arg str) :
    Does (Shows g hfits P) (cmdLang g m arg) fun r => (Command.lang (langOf str)).exec input r := by
  intro s r hR
  rw [cmdLang, streqTo_eq h (.ofList (by decide) (by decide)), streqTo_eq h (.ofList (by decide) (by decide))]
  simp only [Option.bind_eq_bind, Option.bind_some, flag_ne_zero]
  unfold langOf
  split_ifs
  · exact setLanguage_does .tr s r hR
  · exact setLanguage_does .en s r hR
  · exact print_shown (.ofList (by decide) (by decide)) s r hR

include hwidth hheight in
theorem cmdTheme_does (input : Input g) {m : Object} {arg : Nat} {str : List Byte} (h : StringAt m arg str) :
    Does (Shows g hfits P) (cmdTheme g m arg) fun r => (Command.theme (themeOf str)).exec input r := by
  intro s r hR
  rw [cmdTheme, streqTo_eq h (.ofList (by decide) (by decide)), streqTo_eq h (.ofList (by decide) (by decide))]
  simp only [Option.bind_eq_bind, Option.bind_some, flag_ne_zero]
  unfold themeOf
  split_ifs
  · exact themeSet_does hwidth hheight .dark s r hR
  · exact themeSet_does hwidth hheight .light s r hR
  · exact print_shown (.ofList (by decide) (by decide)) s r hR

theorem cmdClose_does : Does (Shows g hfits P) (fun s => some (cmdClose s))
    fun r => some {r with ports := r.ports ++ [(0x604, 0x2000), (0xB004, 0x2000)]} := by
  refine Does.change fun s r h => ⟨h.shown, h.settings, ?_, h.locals⟩
  rw [← h.ports]
  exact List.append_assoc ..

theorem unknown_does {m : Object} {cmd : Nat} {str : List Byte} (h : StringAt m cmd str) :
    Does (Shows g hfits P)
      (fun s => (s.printMsg g .unknownCmd).bind fun s => (s.printFrom g m cmd).bind (Shell.putchar g 0x0A))
      fun r => some (r.say (message r.settings.language .unknownCmd ++ str ++ text "\n")) := by
  have hmsg : Does (Shows g hfits P) (Shell.printMsg g .unknownCmd) _ := printMsg_does .unknownCmd
  have hseq := hmsg.seq ((printFrom_shown_shell h).seq newline_shown)
  simp only [List.append_assoc, Repl.say_append] at hseq ⊢
  exact hseq

section Branches
variable {m : Object} {cmd : Nat} {str : List Byte} {w : String} {f : Option Repl}

/-- A comparison with a word. -/
theorem word_branch {x y : Option Shell} (h : StringAt m cmd str) (hw : IsText w)
    (hx : str = text w → Option.Rel (Shows g hfits P) x f) (hy : str ≠ text w → Option.Rel (Shows g hfits P) y f) :
    Option.Rel (Shows g hfits P) ((streqTo m cmd w).bind fun e => if e ≠ 0 then x else y) f := by
  rw [streqTo_eq h hw, Option.bind_some]
  simp only [flag_ne_zero]
  split
  · rename_i heq
    exact hx heq
  · rename_i hne
    exact hy hne

/-- A word with an argument. -/
theorem arg_branch {x : Nat → Option Shell} {y : Option Shell} (h : StringAt m cmd str) (hw : IsText w)
    (hx : ∀ arg rest, str = text w ++ rest → StringAt m arg rest → Option.Rel (Shows g hfits P) (x arg) f)
    (hy : ¬ text w <+: str → Option.Rel (Shows g hfits P) y f) :
    Option.Rel (Shows g hfits P) ((strStartsWith m (literal w) cmd literalAt).bind fun arg =>
      if arg ≠ null then x arg else y) f := by
  obtain ⟨arg, harg, hsome, hrest⟩ := strStartsWith_iff h (literal_string hw)
  rw [harg, Option.bind_some]
  split
  · rename_i hne
    obtain ⟨rest, rfl⟩ := hsome.mp hne
    exact hx arg rest rfl (hrest rest rfl).2
  · rename_i hnull
    exact hy fun ⟨rest, heq⟩ => hnull (hsome.mpr ⟨rest, heq.symm⟩)

end Branches

include hwidth hheight in
/-- A line in memory is run as the command that it is. -/
theorem runCommand_does (input : Input g) {m : Object} {cmd : Nat} {str : List Byte} (h : StringAt m cmd str) :
    Does (Shows g hfits HasBuffer) (runCommand g input m cmd) fun r => (parse str).exec input r := by
  intro s r hR
  have hword : ∀ w c, (w, c) ∈ words → str = text w → parse str = c :=
    fun w c hmem heq => heq ▸ (Parses.word hmem).parse
  have hfirst : ∃ c, m cmd = some c ∧ (c = 0 ↔ str = []) := by
    cases h with
    | stop _ _ hstop => exact ⟨0, hstop, by simp⟩
    | char _ hchar hc => exact ⟨_, hchar, iff_of_false hc (by simp)⟩
  obtain ⟨c, hc, hempty⟩ := hfirst
  rw [runCommand, hc, Option.bind_eq_bind, Option.bind_some]
  by_cases hnil : str = []
  · rw [if_pos (hempty.mpr hnil), hnil, Parses.empty.parse]
    exact .some hR
  rw [if_neg (mt hempty.mp hnil)]
  refine word_branch h (.ofList (by decide) (by decide)) (fun heq => ?_) fun hhelp => ?_
  · rw [hword "help" .help (by decide) heq]
    exact tell_does .helpList s r hR
  refine word_branch h (.ofList (by decide) (by decide)) (fun heq => ?_) fun hclear => ?_
  · rw [hword "clear" .clear (by decide) heq]
    exact clearScreen_does hwidth hheight s r hR
  refine word_branch h (.ofList (by decide) (by decide)) (fun heq => ?_) fun habout => ?_
  · rw [hword "about" .about (by decide) heq]
    exact tell_does .about s r hR
  refine word_branch h (.ofList (by decide) (by decide)) (fun heq => ?_) fun hmem => ?_
  · rw [hword "mem" .mem (by decide) heq]
    exact cmdMem_shown input.frames input.heap s r hR
  refine word_branch h (.ofList (by decide) (by decide)) (fun heq => ?_) fun hmouse => ?_
  · rw [hword "mouse" .mouse (by decide) heq]
    exact cmdMouse_does hwidth hheight input.samples s r hR
  refine word_branch h (.ofList (by decide) (by decide)) (fun heq => ?_) fun hthreads => ?_
  · rw [hword "threads" .threads (by decide) heq]
    exact cmdThreads_does input.tasks s r hR
  refine word_branch h (.ofList (by decide) (by decide)) (fun heq => ?_) fun hevents => ?_
  · rw [hword "events" .events (by decide) heq]
    exact cmdEvents_does input s r hR
  refine arg_branch h (.ofList (by decide) (by decide)) (fun arg rest heq harg => ?_) fun hlang => ?_
  · rw [heq, (parses_lang rest).parse]
    exact cmdLang_does input harg s r hR
  refine arg_branch h (.ofList (by decide) (by decide)) (fun arg rest heq harg => ?_) fun htheme => ?_
  · rw [heq, (parses_theme rest).parse]
    exact cmdTheme_does hwidth hheight input harg s r hR
  refine word_branch h (.ofList (by decide) (by decide)) (fun heq => ?_) fun hclose => ?_
  · rw [hword "close" .close (by decide) heq]
    exact cmdClose_does s r hR
  have hnone : ∀ w c, (w, c) ∈ words → str ≠ text w := by
    intro w c hword heq
    simp only [words, List.mem_cons, Prod.mk.injEq, List.not_mem_nil, or_false] at hword
    rcases hword with ⟨rfl, -⟩ | ⟨rfl, -⟩ | ⟨rfl, -⟩ | ⟨rfl, -⟩ | ⟨rfl, -⟩ | ⟨rfl, -⟩ | ⟨rfl, -⟩ | ⟨rfl, -⟩ | ⟨rfl, -⟩ |
      ⟨rfl, -⟩ | ⟨rfl, -⟩ | ⟨rfl, -⟩
    · exact hhelp heq
    · exact hclear heq
    · exact habout heq
    · exact hmem heq
    · exact hmouse heq
    · exact hthreads heq
    · exact hevents heq
    · exact hlang (heq ▸ by decide)
    · exact hlang (heq ▸ by decide)
    · exact htheme (heq ▸ by decide)
    · exact htheme (heq ▸ by decide)
    · exact hclose heq
  rw [(Parses.unknown hnil hnone hlang htheme).parse]
  exact unknown_does h s r hR

end Commands

/-! ### The line -/

section Line
variable {g : Framebuffer} {hfits : 4 * g.width ≤ g.pitch} {max : Int} {s s' : Reading} {t : Terminal}
  {line cs : List UInt8} {c : UInt8}

/-- A character is shown if it changes the line. -/
theorem typed_echo (h : Shown g hfits s.console t) (hholds : s.Holds line) (htyped : Typed g max s c s') :
    Shown g hfits s'.console (if edit max line c = line then t else t.put c) := by
  have hlen := hholds.len
  cases htyped with
  | erase hsome hput =>
    have hshorter : edit max line 0x08 ≠ line := fun heq => by
      have hlength := congrArg List.length heq
      rw [edit_erase, List.length_dropLast] at hlength
      omega
    rw [if_neg hshorter]
    exact h.put hput
  | empty hnone =>
    obtain rfl : line = [] := List.eq_nil_of_length_eq_zero (hlen.symm.trans hnone)
    exact h
  | store hc hroom hput =>
    have hlonger : edit max line c ≠ line := fun heq => by
      have hlength := congrArg List.length heq
      rw [edit_room hc.2 (hlen ▸ hroom), List.length_append, List.length_singleton] at hlength
      omega
    rw [if_neg hlonger]
    exact h.put hput
  | full hc hfull =>
    rw [if_pos (edit_full hc.2 (hlen ▸ hfull))]
    exact h

theorem readLine_echoes (h : Shown g hfits s.console t) (hholds : s.Holds line) (hcs : 0x0A ∉ cs) :
    ∃ s', readLine g max s cs = some (s', false) ∧ Shown g hfits s'.console (echo max t line cs) := by
  induction cs generalizing s t line with
  | nil => exact ⟨s, rfl, h⟩
  | cons c cs ih =>
    rw [List.mem_cons, not_or] at hcs
    obtain ⟨s₁, hs₁, htyped⟩ := readChar_typed max h.grid (Ne.symm hcs.1)
    obtain ⟨s', hs', h'⟩ := ih (typed_echo h hholds htyped) (htyped.holds hholds) hcs.2
    refine ⟨s', ?_, ?_⟩
    · rw [readLine, hs₁]
      exact hs'
    · rw [echo]
      by_cases hsame : edit max line c = line
      · rw [if_pos hsame] at h' ⊢
        rwa [hsame] at h'
      · rw [if_neg hsame] at h' ⊢
        exact h'

/-- The line is in the buffer and on the screen. -/
theorem readLine_line {console : Console} (h : Shown g hfits console t) (buf : Nat → UInt8) (hmax : 1 ≤ max)
    (hcs : 0x0A ∉ cs) : ∃ s, readLine g max (.start console buf) (cs ++ [0x0A]) = some (s, true) ∧
      s.Holds (edited max cs) ∧ s.buf s.len = 0 ∧ s.len < max ∧
      Shown g hfits s.console ((echo max t [] cs).put 0x0A) := by
  obtain ⟨s, hs, hholds, hzero, hlen⟩ := readLine_returns h.grid buf hmax hcs
  have hempty : (Reading.start console buf).Holds [] := ⟨rfl, nofun⟩
  have hechoes : ∃ s', readLine g max (.start console buf) cs = some (s', false) ∧
    Shown g hfits s'.console (echo max t [] cs) := readLine_echoes h hempty hcs
  obtain ⟨s₁, hs₁, h₁⟩ := hechoes
  obtain ⟨console', hconsole, h'⟩ := h₁.putchar 0x0A
  refine ⟨s, hs, hholds, hzero, hlen, ?_⟩
  rw [readLine_snoc hs₁, readChar, if_pos rfl, hconsole] at hs
  cases hs
  exact h'

theorem edited_subset (cs : List UInt8) : ∀ c ∈ edited max cs, c ∈ cs := by
  induction cs using List.reverseRecOn with
  | nil => exact fun c hc => hc
  | append_singleton cs d ih =>
    intro c hc
    rw [edited_snoc, edit] at hc
    split at hc
    · exact List.mem_append_left _ (ih c (List.mem_of_mem_dropLast hc))
    · split at hc
      · exact (List.mem_append.mp hc).elim (fun hold => List.mem_append_left _ (ih c hold)) (List.mem_append_right _)
      · exact List.mem_append_left _ (ih c hc)

/-- What the buffer holds is a string. -/
theorem lineObject_string (hholds : s.Holds line) (hzero : s.buf s.len = 0) (hlen : s.len < lineMax)
    (hline : ∀ c ∈ line, c ≠ 0) : StringAt (lineObject s.buf) lineAt (line.map UInt8.toBitVec) := by
  have hbyte : ∀ i, i < lineMax → lineObject s.buf (lineAt + i) = some (s.buf i).toBitVec := fun i hi => by
    rw [lineObject, if_pos (by omega), Nat.add_sub_cancel_left]
  have hwrote : Wrote (lineObject s.buf) (lineObject s.buf) lineAt (line.map UInt8.toBitVec ++ [0]) := by
    refine ⟨fun i hi => ?_, fun _ _ => rfl⟩
    rw [List.length_append, List.length_map, List.length_singleton, ← hholds.len] at hi
    rw [hbyte i (by omega)]
    by_cases hin : i < s.len
    · have hchar := hholds.char i hin
      rw [List.getElem?_eq_some_iff] at hchar
      obtain ⟨hi', hchar⟩ := hchar
      rw [List.getElem_append_left (by rwa [List.length_map]), List.getElem_map, hchar]
    · obtain rfl : i = s.len := by omega
      rw [hzero, List.getElem_append_right (by rw [List.length_map, ← hholds.len])]
      simp
  refine hwrote.string (by decide) ?_ ?_
  · rw [List.length_map, ← hholds.len]
    unfold lineMax at hlen
    unfold lineAt
    omega
  · intro c hc
    obtain ⟨d, hd, rfl⟩ := List.mem_map.mp hc
    exact fun heq => hline d hd (UInt8.toBitVec_inj.mp heq)

end Line

/-! ### Sessions -/

section Session
variable {g : Framebuffer} {hfits : 4 * g.width ≤ g.pitch} (hwidth : 8 ≤ g.width) (hheight : 16 ≤ g.height)
include hwidth hheight

theorem kmainRound_does (input : Input g) :
    Does (Shows g hfits fun _ => True) (kmainRound g input) (Repl.round input) := by
  intro s r h
  have hred : Shows g hfits (fun _ => True) (s.color colorRed) {r with terminal := {r.terminal with fg := colorRed}} :=
    ⟨h.shown.color colorRed, h.settings, h.ports, trivial⟩
  obtain ⟨s₁, hs₁, h₁⟩ := (print_shown (w := prompt) (.ofList (by decide) (by decide))).returns hred rfl
  have hnewline : 0x0A ∉ input.typed := fun hmem => (input.plain _ hmem).1 rfl
  obtain ⟨reading, hreading, hholds, hzero, hlen, hline⟩ :=
    readLine_line (h₁.shown.color colorWhite) s₁.line (show (1 : Int) ≤ lineMax by decide) hnewline
  have hstring := lineObject_string hholds hzero (by exact_mod_cast hlen) fun c hc =>
    (input.plain c (edited_subset input.typed c hc)).2
  have hrun : Does (Shows g hfits HasBuffer) (runCommand g input (lineObject reading.buf) lineAt) _ :=
    runCommand_does hwidth hheight input hstring
  have hrel := hrun {s₁ with console := reading.console, line := reading.buf, locals := input.locals}
    {r with terminal := _} ⟨hline, h₁.settings, h₁.ports, input.room⟩
  rw [kmainRound, hs₁]
  simp only [Option.bind_eq_bind, Option.bind_some]
  have hreads : readLine g lineMax (.start (s₁.color colorWhite).console (s₁.color colorWhite).line)
    (input.typed ++ [0x0A]) = some (reading, true) := hreading
  rw [hreads, Option.bind_some]
  exact rel_mono (fun _ _ h => ⟨h.shown, h.settings, h.ports, trivial⟩) hrel

/-- From anything on the screen, and in the variables. -/
theorem kmainStart_shows (s₀ : Shell) : ∃ s, kmainStart g s₀ = some s ∧
    Shows g hfits (fun _ => True) s (.start (g.width / 8) (g.height / 16) s₀.ports) := by
  have hclear : Shows g hfits (fun _ => True)
      ((Shell.setColor {s₀ with settings := settingsInit} settingsInit.fg settingsInit.bg).clearScreen g)
      {terminal := .cleared (g.width / 8) (g.height / 16) themeFg themeBg, settings := settingsInit,
        ports := s₀.ports} :=
    ⟨clearScreen_shown hwidth hheight hfits _, rfl, rfl, trivial⟩
  have hend : Says g hfits (fun _ => True) (Shell.print g "\n\n") _ := print_shown (.ofList (by decide) (by decide))
  obtain ⟨s, hs, hshows⟩ := ((tell_does .welcome).seq ((printMsg_does .helpHint).seq hend)).returns hclear rfl
  refine ⟨s, ?_, ?_⟩
  · rw [← hs]
    exact (Option.bind_assoc ..).symm
  · rw [Repl.start, Repl.say_append]
    exact hshows

end Session

/-- A line in memory is one command, and it is run. -/
theorem command_exact {g : Framebuffer} {hfits : 4 * g.width ≤ g.pitch} (hcursor : CursorFits g) (hheight : 16 ≤ g.height)
    (input : Input g) {m : Object} {cmd : Nat} {str : List Byte} (h : StringAt m cmd str) :
    (∃! c, Parses str c) ∧ ∀ c, Parses str c →
      Does (Shows g hfits HasBuffer) (runCommand g input m cmd) fun r => c.exec input r := by
  have hwidth : 8 ≤ g.width := Nat.le_trans (by decide) hcursor.width_ge
  refine ⟨⟨parse str, parses_iff.mpr rfl, fun c hc => hc.parse.symm⟩, fun c hc => ?_⟩
  rw [← hc.parse]
  exact runCommand_does hwidth hheight input h

/-- Any line can be typed, in a kernel that has just been started and has memory left. -/
theorem exists_input (g : Framebuffer) (typed : List UInt8) (plain : typed.all fun c => c ≠ 0x0A ∧ c ≠ 0) :
    ∃ input : Input g, input.typed = typed ∧ input.tasks.CanStart := by
  obtain ⟨m, _, hframes, _, honly⟩ := Mm.Pmm.pmmInit_ok Mm.Pmm.smallMap (.fresh (fun _ => 0) 0)
  have hheap : m.usedBytes < 2 ^ 64 := by
    rw [honly.fields]
    exact Nat.two_pow_pos 64
  have hroom : (Object.bytes 0x1000 (List.replicate 21 0xFF)).Room 0x1000 21 :=
    Object.bytes_room (by decide) (by decide)
  obtain ⟨T, s, hinit, hT, _, _, hleft⟩ := Sched.flatSched_start (n := 64) (by decide) (by decide) 0xffffffff80002000
  obtain ⟨_, t, k, m', hr, _⟩ := hT.create_serves (by omega) 0xffffffff80002000 0xffffffff80001000 1
  have hcan : Sched.CanCreate s.machine := hT.tasks.servesBoth_iff.mp (hT.servesBoth_of_ok hr)
  let tasks : Background := ⟨Sched.flatSched (n := 64) (by decide), 0xffffffff80002000, 0xffffffff80001000,
    fun _ => s, fun _ => .start hinit⟩
  exact ⟨⟨typed, by simpa using plain, ⟨_, _, fun _ => .replicate 20 0xCC⟩, hroom, m, ⟨_, hframes⟩, hheap, [], nofun,
    tasks, []⟩, rfl, fun _ _ => hcan⟩

/-- `threads`, which is a command, and no other. -/
theorem command_exact_threads : ∃ input : Input threeColumns, (∃! c, Parses (text "threads") c) ∧
    Does (Shows threeColumns (show 4 * threeColumns.width ≤ threeColumns.pitch by decide) HasBuffer)
      (runCommand threeColumns input (literal "threads") literalAt) fun r => some (r.say (threadsReport input.tasks)) := by
  obtain ⟨input, _, hcan⟩ := exists_input threeColumns [] rfl
  have hword : Parses (text "threads") .threads := .word (by decide)
  obtain ⟨hone, hdoes⟩ := command_exact (g := threeColumns) ⟨by decide, by decide, by decide, by decide⟩ (by decide) input
    (literal_string (w := "threads") (.ofList (by decide) (by decide)))
  refine ⟨input, hone, ?_⟩
  have hexec := hdoes .threads hword
  unfold Command.exec at hexec
  simpa only [if_pos hcan] using hexec

/-! ### The background -/

section Background
variable {g : Framebuffer} {t : Terminal}

theorem Terminal.put_bg (t : Terminal) (c : UInt8) : (t.put c).bg = t.bg := by
  have hnewline : ∀ t : Terminal, t.newline.bg = t.bg := fun t => by
    unfold Terminal.newline
    split <;> rfl
  unfold Terminal.put
  split
  · exact hnewline t
  · split
    · rfl
    · split
      · rfl
      · dsimp only
        split
        · rfl
        · exact hnewline _

theorem Terminal.say_bg (t : Terminal) (str : List Byte) : (t.say str).bg = t.bg := by
  induction str generalizing t with
  | nil => rfl
  | cons c str ih => exact (ih _).trans (put_bg t _)

theorem echo_bg (max : Int) (t : Terminal) (line cs : List UInt8) : (echo max t line cs).bg = t.bg := by
  induction cs generalizing t line with
  | nil => rfl
  | cons c cs ih =>
    rw [echo]
    split
    · exact ih t line
    · exact (ih _ _).trans (Terminal.put_bg t c)

/-- The background is that of the settings. -/
def Repl.Coloured (r : Repl) : Prop := r.terminal.bg = r.settings.bg

theorem Repl.Coloured.say {r : Repl} (h : r.Coloured) (str : List Byte) : (r.say str).Coloured :=
  (Terminal.say_bg _ _).trans h

theorem Repl.start_coloured (cols rows : Nat) (ports : List (Nat × Nat)) : (start cols rows ports).Coloured := by
  have hclear : Coloured {terminal := .cleared cols rows themeFg themeBg, settings := settingsInit, ports} := rfl
  exact (hclear.say _).say _

theorem Repl.Coloured.tell {r : Repl} (h : r.Coloured) (id : MsgId) : (r.tell id).Coloured := by
  unfold Repl.tell
  exact h.say _

theorem Repl.Coloured.exec {r r' : Repl} (h : r.Coloured) {input : Input g} {c : Command}
    (hexec : c.exec input r = some r') : r'.Coloured := by
  have hclear : r.clear.Coloured := h
  unfold Command.exec at hexec
  split at hexec
  case h_7 =>
    obtain ⟨-, hexec⟩ := Option.ite_none_right_eq_some.mp hexec
    obtain rfl := Option.some.inj hexec
    exact h.say _
  case h_8 =>
    obtain ⟨str, -, rfl⟩ := Option.map_eq_some_iff.mp hexec
    exact h.say _
  all_goals obtain rfl := Option.some.inj hexec
  · exact h
  · exact h.tell _
  · exact hclear
  · exact h.tell _
  · exact h.say _
  · exact hclear.say _
  · rename_i l
    have hlanguage : Coloured {r with settings := {r.settings with language := l}} := h
    exact hlanguage.tell _
  · exact h.say _
  · rename_i t
    have hcolours : (r.recolor t.fg t.bg).Coloured := rfl
    exact hcolours.tell _
  · exact h.say _
  · exact h
  · exact h.say _

theorem Repl.Coloured.round {r r' : Repl} (h : r.Coloured) {input : Input g} (hround : r.round input = some r') :
    r'.Coloured := by
  unfold Repl.round at hround
  refine Coloured.exec ?_ hround
  rw [Coloured, Terminal.put_bg, echo_bg]
  dsimp only
  rw [Terminal.say_bg]
  exact h

theorem Repl.Coloured.session {inputs : List (Input g)} {r r' : Repl} (h : r.Coloured) (hs : r.session inputs = some r') :
    r'.Coloured := by
  induction inputs generalizing r with
  | nil => cases hs; exact h
  | cons input inputs ih =>
    rw [Repl.session, List.foldlM_cons, Option.bind_eq_bind, Option.bind_eq_some_iff] at hs
    obtain ⟨r₁, hround, hrest⟩ := hs
    exact ih (h.round hround) hrest

end Background

/-- **The shell is what its commands mean.** Whatever is on the screen and in the variables
at first, it answers any lines as the session on a terminal does: it does not come back from a
line exactly where the session does not, because `events` waits for its Escape or `threads` has
no memory for its tasks; and otherwise the screen shows the terminal, the settings and the ports
are the session's, and the background is that of the settings. -/
theorem shell_session {g : Framebuffer} (hcursor : CursorFits g) (hheight : 16 ≤ g.height) (hfits : 4 * g.width ≤ g.pitch)
    (s₀ : Shell) (inputs : List (Input g)) :
    match (Repl.start (g.width / 8) (g.height / 16) s₀.ports).session inputs with
    | none => kmain g inputs s₀ = none
    | some r => ∃ s, kmain g inputs s₀ = some s ∧ Shown g hfits s.console r.terminal ∧ s.settings = r.settings ∧
        s.ports = r.ports ∧ s.console.conBg = s.settings.bg := by
  have hwidth : 8 ≤ g.width := Nat.le_trans (by decide) hcursor.width_ge
  have hshows : ∃ s, kmainStart g s₀ = some s ∧ Shows g hfits (fun _ => True) s _ := kmainStart_shows hwidth hheight s₀
  obtain ⟨s, hs, h⟩ := hshows
  have hmain : kmain g inputs s₀ = inputs.foldlM (fun s input => kmainRound g input s) s := by
    rw [kmain, hs]
    rfl
  have hrel : Option.Rel (Shows g hfits fun _ => True) (kmain g inputs s₀)
      ((Repl.start (g.width / 8) (g.height / 16) s₀.ports).session inputs) := by
    rw [hmain]
    exact Does.each (kmainRound_does hwidth hheight) inputs _ _ h
  have hstart := Repl.start_coloured (g.width / 8) (g.height / 16) s₀.ports
  generalize hsession : (Repl.start (g.width / 8) (g.height / 16) s₀.ports).session inputs = o at hrel ⊢
  generalize kmain g inputs s₀ = o' at hrel ⊢
  cases hrel with
  | none => rfl
  | @some s r hshows =>
    refine ⟨s, rfl, hshows.shown, hshows.settings, hshows.ports, ?_⟩
    rw [← hshows.shown.bg, hshows.settings]
    exact hstart.session hsession

/-- A shell with a back buffer, whose variables hold anything. -/
def anyShell : Shell :=
  {console := .start {hw := fun _ => 0xAA, back := some fun _ => 0x55}, settings := ⟨.tr, 1, 2⟩, line := fun _ => 0xFF,
    locals := ⟨fun _ => none, 0, fun _ => .replicate 20 0⟩, under := fun _ => 0, ports := []}

/-- `lang en`, with a typing error that is taken back. -/
theorem shell_session_threeColumns : ∃ (input : Input threeColumns) (s : Shell) (t : Terminal),
    input.typed = [0x6C, 0x61, 0x6E, 0x67, 0x20, 0x65, 0x6D, 0x08, 0x6E] ∧
      kmain threeColumns [input] anyShell = some s ∧ s.settings.language = .en ∧
      (threeColumns.raster (by decide)).Shows s.console.buffers.hw t.picture := by
  obtain ⟨input, htyped, _⟩ := exists_input threeColumns [0x6C, 0x61, 0x6E, 0x67, 0x20, 0x65, 0x6D, 0x08, 0x6E] (by decide)
  have hparse : parse ((edited lineMax input.typed).map UInt8.toBitVec) = .lang (some .en) := by
    rw [htyped]
    decide
  have hsession := shell_session (g := threeColumns) ⟨by decide, by decide, by decide, by decide⟩ (by decide) (by decide)
    anyShell [input]
  rw [Repl.session, List.foldlM_cons, Repl.round, hparse] at hsession
  obtain ⟨s, hs, hshown, hsettings, _⟩ := hsession
  exact ⟨input, s, _, htyped, hs, congrArg Settings.language hsettings, hshown.screen (by decide)⟩

end ArcMonark.Kernel
