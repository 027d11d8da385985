import ArcMonark.Kernel.Shell
import ArcMonark.Sched.SchedMemory

/-! What the shell is for: commands, read from a terminal.

A line is one of the commands' names, `lang` or `theme` with an argument, or unknown.
`parses_iff`: every line is exactly one command, so that it does not matter in which order
the code compares it with the names. A command writes on the terminal and changes the
settings, or does not come back. -/
namespace ArcMonark.Kernel
open Library Drivers Gui

/-! ### Commands -/

inductive Theme where
  | dark
  | light
  deriving DecidableEq, Repr

def Theme.fg : Theme → UInt32
  | dark => darkFg
  | light => lightFg

def Theme.bg : Theme → UInt32
  | dark => darkBg
  | light => lightBg

/-- `lang` and `theme` with an argument that names no language or theme have none. -/
inductive Command where
  | empty
  | help
  | clear
  | about
  | mem
  | mouse
  | threads
  | events
  | lang (l : Option Lang)
  | theme (t : Option Theme)
  | close
  | unknown (line : List Byte)
  deriving DecidableEq, Repr

/-- The lines that are commands by themselves. -/
def words : List (String × Command) := [
  ("help", .help), ("clear", .clear), ("about", .about), ("mem", .mem), ("mouse", .mouse), ("threads", .threads),
  ("events", .events), ("lang tr", .lang (some .tr)), ("lang en", .lang (some .en)),
  ("theme dark", .theme (some .dark)), ("theme light", .theme (some .light)), ("close", .close)]

inductive Parses : List Byte → Command → Prop where
  | empty : Parses [] .empty
  | word {w c} (hmem : (w, c) ∈ words) : Parses (text w) c
  | lang {arg} (hnone : arg ≠ text "tr" ∧ arg ≠ text "en") : Parses (text "lang " ++ arg) (.lang none)
  | theme {arg} (hnone : arg ≠ text "dark" ∧ arg ≠ text "light") : Parses (text "theme " ++ arg) (.theme none)
  | unknown {line} (hsome : line ≠ []) (hwords : ∀ w c, (w, c) ∈ words → line ≠ text w)
      (hlang : ¬ text "lang " <+: line) (htheme : ¬ text "theme " <+: line) : Parses line (.unknown line)

def langOf (arg : List Byte) : Option Lang :=
  if arg = text "tr" then some .tr else if arg = text "en" then some .en else none

def themeOf (arg : List Byte) : Option Theme :=
  if arg = text "dark" then some .dark else if arg = text "light" then some .light else none

def parse (line : List Byte) : Command :=
  if line = [] then .empty
  else
    match words.find? fun e => text e.1 = line with
    | some (_, c) => c
    | none =>
      if text "lang " <+: line then .lang none
      else if text "theme " <+: line then .theme none
      else .unknown line

section Parse
variable {line arg : List Byte} {c : Command} {w : String}

theorem words_distinct : ∀ e ∈ words, ∀ e' ∈ words, text e.1 = text e'.1 → e = e' := by decide

theorem words_some : ∀ e ∈ words, text e.1 ≠ [] := by decide

theorem words_lang : ∀ e ∈ words, text "lang " <+: text e.1 →
    text e.1 = text "lang " ++ text "tr" ∨ text e.1 = text "lang " ++ text "en" := by decide

theorem words_theme : ∀ e ∈ words, text "theme " <+: text e.1 →
    text e.1 = text "theme " ++ text "dark" ∨ text e.1 = text "theme " ++ text "light" := by decide

theorem find_word (hmem : (w, c) ∈ words) : (words.find? fun e => text e.1 = text w) = some (w, c) := by
  cases hfind : words.find? fun e => text e.1 = text w with
  | none => exact absurd rfl (of_decide_eq_false (eq_false_of_ne_true (List.find?_eq_none.mp hfind _ hmem)))
  | some e =>
    have hsame : text e.1 = text w := by simpa using List.find?_some hfind
    rw [words_distinct e (List.mem_of_find?_eq_some hfind) (w, c) hmem hsame]

theorem find_none (h : ∀ e ∈ words, text e.1 ≠ line) : (words.find? fun e => text e.1 = line) = none :=
  List.find?_eq_none.mpr fun e he => by simpa using h e he

theorem Parses.parse (h : Parses line c) : parse line = c := by
  unfold Kernel.parse
  cases h with
  | empty => rfl
  | @word w c hmem => rw [if_neg (words_some _ hmem), find_word hmem]
  | @lang arg hnone =>
    have hpre : text "lang " <+: text "lang " ++ arg := List.prefix_append _ _
    rw [if_neg (List.append_ne_nil_of_left_ne_nil (by decide) _), find_none, if_pos hpre]
    intro e he heq
    rcases words_lang e he (heq ▸ hpre) with hw | hw
    · exact hnone.1 (List.append_cancel_left (heq.symm.trans hw))
    · exact hnone.2 (List.append_cancel_left (heq.symm.trans hw))
  | @theme arg hnone =>
    have hpre : text "theme " <+: text "theme " ++ arg := List.prefix_append _ _
    have hlang : ¬ text "lang " <+: text "theme " ++ arg := by
      rintro ⟨rest, heq⟩
      have hfirst : some (0x6C : Byte) = some 0x74 := congrArg List.head? heq
      exact absurd hfirst (by decide)
    rw [if_neg (List.append_ne_nil_of_left_ne_nil (by decide) _), find_none, if_neg hlang, if_pos hpre]
    intro e he heq
    rcases words_theme e he (heq ▸ hpre) with hw | hw
    · exact hnone.1 (List.append_cancel_left (heq.symm.trans hw))
    · exact hnone.2 (List.append_cancel_left (heq.symm.trans hw))
  | unknown hsome hwords hlang htheme =>
    rw [if_neg hsome, find_none fun e he heq => hwords e.1 e.2 he heq.symm, if_neg hlang, if_neg htheme]

/-- An argument is a language or it is not. -/
theorem parses_lang (arg : List Byte) : Parses (text "lang " ++ arg) (.lang (langOf arg)) := by
  unfold langOf
  split
  · rename_i htr
    subst htr
    exact .word (w := "lang tr") (by decide)
  · rename_i htr
    split
    · rename_i hen
      subst hen
      exact .word (w := "lang en") (by decide)
    · rename_i hen
      exact .lang ⟨htr, hen⟩

theorem parses_theme (arg : List Byte) : Parses (text "theme " ++ arg) (.theme (themeOf arg)) := by
  unfold themeOf
  split
  · rename_i hdark
    subst hdark
    exact .word (w := "theme dark") (by decide)
  · rename_i hdark
    split
    · rename_i hlight
      subst hlight
      exact .word (w := "theme light") (by decide)
    · rename_i hlight
      exact .theme ⟨hdark, hlight⟩

theorem parses_total (line : List Byte) : ∃ c, Parses line c := by
  by_cases hempty : line = []
  · subst hempty
    exact ⟨_, .empty⟩
  by_cases hlang : text "lang " <+: line
  · obtain ⟨arg, rfl⟩ := hlang
    exact ⟨_, parses_lang arg⟩
  by_cases htheme : text "theme " <+: line
  · obtain ⟨arg, rfl⟩ := htheme
    exact ⟨_, parses_theme arg⟩
  by_cases hword : ∃ w c, (w, c) ∈ words ∧ line = text w
  · obtain ⟨w, c, hmem, rfl⟩ := hword
    exact ⟨c, .word hmem⟩
  · exact ⟨_, .unknown hempty (fun w c hmem heq => hword ⟨w, c, hmem, heq⟩) hlang htheme⟩

/-- Every line is one command. -/
theorem parses_iff : Parses line c ↔ parse line = c := by
  refine ⟨Parses.parse, ?_⟩
  rintro rfl
  obtain ⟨c, h⟩ := parses_total line
  rwa [h.parse]

end Parse

/-! ### What a command does -/

structure Repl where
  terminal : Terminal
  settings : Settings
  /-- What has been written to ports, with the ports. -/
  ports : List (Nat × Nat)

namespace Repl

def say (r : Repl) (s : List Byte) : Repl := {r with terminal := r.terminal.say s}

/-- A message and the end of its line. -/
def tell (r : Repl) (id : MsgId) : Repl := r.say (message r.settings.language id ++ text "\n")

def clear (r : Repl) : Repl :=
  {r with terminal := .cleared r.terminal.cols r.terminal.rows r.terminal.fg r.terminal.bg}

/-- A screen of other colours. -/
def recolor (r : Repl) (fg bg : UInt32) : Repl :=
  {r with
    terminal := .cleared r.terminal.cols r.terminal.rows fg bg, settings := {r.settings with fg, bg}}

end Repl

/-- A label and a number. -/
def labelled (label : String) (v : Nat) : List Byte := text label ++ numeral 10 v ++ text "\n"

/-- Of 256 frames there is a MiB. -/
def memReport (m : Machine) : List Byte :=
  labelled "total frames : " m.totalFrames ++ labelled "used  frames : " m.usedFrames ++
    labelled "free  frames : " (m.totalFrames - m.usedFrames) ++
    labelled "free  ram MiB: " ((m.totalFrames - m.usedFrames) / 256) ++ labelled "heap  used  B: " m.usedBytes

namespace Background

/-- There is memory for the three tasks, each time that one is created. -/
def CanStart (b : Background) : Prop := ∀ n < 3, Sched.CanCreate (b.sched n).machine

/-- How many tasks there are at a call: those on the scheduler's list, the shell among them. -/
def alive (b : Background) (n : Nat) : Nat := ((Sched.tasks (b.sched n)).toOption.getD []).length

/-- The call whose count `threads` prints in the end: the one behind the first of 40 that finds
one task at most, or behind all of them. -/
def lastCount (b : Background) : Nat := (((List.range' 4 40).find? fun n => b.alive n ≤ 1).getD 43) + 1

end Background

def threadsReport (b : Background) : List Byte :=
  text "3 arka plan task baslatiliyor (cikti seri portta)\n" ++ labelled "canli task: " (b.alive 3) ++
    labelled "bitince canli task: " (b.alive b.lastCount)

def eventLine (e : Event) : List Byte :=
  match e.type with
  | .keyDown =>
    text "tus  : '" ++ (if e.ch ≠ '\x00' then [BitVec.ofNat 8 e.ch.toNat] else text "?") ++
      labelled "'  sc=" e.scancode.toNat
  | .mouseDown =>
    text "fare down btn=" ++ numeral 10 e.button.toNat ++ text " @" ++ numeral 10 e.x.toUInt16.toNat ++
      labelled "," e.y.toUInt16.toNat
  | .mouseUp => labelled "fare up   btn=" e.button.toNat
  | _ => []

def isEscape (e : Event) : Bool := decide (e.type = .keyDown ∧ e.scancode = 0x01)

/-- The events up to the Escape that ends them. -/
def eventLines (events : List Event) : Option (List Byte) :=
  if events.any isEscape then some ((events.takeWhile fun e => !isEscape e).flatMap eventLine) else none

section Meaning
variable {g : Framebuffer}

open Classical in
/-- `none` if the command does not come back: it waits for an event that does not come, or there
is no memory for its tasks. -/
noncomputable def Command.exec (input : Input g) (r : Repl) : Command → Option Repl
  | empty => some r
  | help => some (r.tell .helpList)
  | clear => some r.clear
  | about => some (r.tell .about)
  | mem => some (r.say (memReport input.machine))
  | mouse => some (r.clear.say (text "mouse demo bitti\n"))
  | threads => if input.tasks.CanStart then some (r.say (threadsReport input.tasks)) else none
  | events => (eventLines input.events).map fun s =>
      r.say (text "olay dongusu - cikmak icin ESC\n" ++ s ++ text "olay dongusu bitti\n")
  | lang (some l) => some (Repl.tell {r with settings := {r.settings with language := l}} .langSet)
  | lang none => some (r.say (text "?\n"))
  | theme (some t) => some ((r.recolor t.fg t.bg).tell .themeSet)
  | theme none => some (r.say (text "?\n"))
  | close => some {r with ports := r.ports ++ [(0x604, 0x2000), (0xB004, 0x2000)]}
  | unknown line => some (r.say (message r.settings.language .unknownCmd ++ line ++ text "\n"))

/-! ### Sessions -/

/-- What is typed behind the line: a character is shown if it changes the line. -/
def echo (max : Int) (t : Terminal) (line : List UInt8) : List UInt8 → Terminal
  | [] => t
  | c :: cs => if edit max line c = line then echo max t line cs else echo max (t.put c) (edit max line c) cs

namespace Repl

/-- The prompt is red, and everything behind it white. -/
noncomputable def round (input : Input g) (r : Repl) : Option Repl :=
  let t := Terminal.say {r.terminal with fg := colorRed} (text prompt)
  let t := (echo lineMax {t with fg := colorWhite} [] input.typed).put 0x0A
  (parse ((edited lineMax input.typed).map UInt8.toBitVec)).exec input {r with terminal := t}

/-- A cleared screen with the greeting. -/
def start (cols rows : Nat) (ports : List (Nat × Nat)) : Repl :=
  let r : Repl := {terminal := .cleared cols rows themeFg themeBg, settings := settingsInit, ports}
  (r.tell .welcome).say (message r.settings.language .helpHint ++ text "\n\n")

noncomputable def session (inputs : List (Input g)) (r : Repl) : Option Repl := inputs.foldlM (fun r input => r.round input) r

end Repl

end Meaning

end ArcMonark.Kernel
