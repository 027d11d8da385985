import ArcMonark.Drivers.Print

/-! The settings and the messages (`kernel/settings.c`, `kernel/lang.c`, `config.h`).

A message is looked up in the table of the language that is set, and in the Turkish one if
it is missing there. Every message is in both tables (`table_total`). -/
namespace ArcMonark.Kernel
open Library Drivers Gui

inductive Lang where
  | tr
  | en
  deriving DecidableEq, Repr

/-- `enum msg_id` -/
inductive MsgId where
  | welcome
  | helpHint
  | helpList
  | about
  | unknownCmd
  | langSet
  | themeSet
  deriving DecidableEq, Repr

structure Settings where
  language : Lang
  fg : UInt32
  bg : UInt32
  deriving DecidableEq, Repr

def defaultLang : Lang := .tr
def themeFg : UInt32 := 0xFFFFFFFF
def themeBg : UInt32 := 0xFF000000
def darkFg : UInt32 := 0xFFE0E0E0
def darkBg : UInt32 := 0xFF101010
def lightFg : UInt32 := 0xFF202020
def lightBg : UInt32 := 0xFFF0F0F0
def colorWhite : UInt32 := 0xFFFFFFFF
def colorRed : UInt32 := 0xFFFF0000

def prompt : String := "Arc> "

def lineMax : Nat := 128

def settingsInit : Settings := {language := defaultLang, fg := themeFg, bg := themeBg}

/-- A null pointer where there is no text. -/
def table : Lang → MsgId → Option String
  | .tr, .welcome => some "ArcMonark 64-bit long mode"
  | .tr, .helpHint => some "'help' yaz."
  | .tr, .helpList => some "komutlar: help, clear, about, mem, mouse, threads, events, lang, theme, close"
  | .tr, .about => some "ArcMonark v0.1 - 64-bit hobi cekirdegi"
  | .tr, .unknownCmd => some "bilinmeyen komut: "
  | .tr, .langSet => some "dil degistirildi"
  | .tr, .themeSet => some "tema degistirildi"
  | .en, .welcome => some "ArcMonark 64-bit long mode"
  | .en, .helpHint => some "type 'help'."
  | .en, .helpList => some "commands: help, clear, about, mem, mouse, threads, events, lang, theme, close"
  | .en, .about => some "ArcMonark v0.1 - 64-bit hobby kernel"
  | .en, .unknownCmd => some "unknown command: "
  | .en, .langSet => some "language changed"
  | .en, .themeSet => some "theme changed"

def msg (settings : Settings) (id : MsgId) : Option String := (table settings.language id).or (table .tr id)

/-- The text of a message. -/
def message (l : Lang) (id : MsgId) : List Byte := text ((table l id).getD "")

/-- No message is missing, and each is a string. -/
theorem table_total (l : Lang) (id : MsgId) : ∃ w, table l id = some w ∧ IsText w := by
  cases l <;> cases id <;> exact ⟨_, rfl, .ofList (by decide) (by decide)⟩

/-- `print(msg(id))` -/
def printMsg (g : Framebuffer) (settings : Settings) (id : MsgId) (s : Console) : Option Console := do
  printLiteral g (← msg settings id) s

theorem printMsg_shown {g : Framebuffer} {hfits : 4 * g.width ≤ g.pitch} {s : Console} {t : Terminal}
    (settings : Settings) (id : MsgId) (h : Shown g hfits s t) :
    ∃ s', printMsg g settings id s = some s' ∧ Shown g hfits s' (t.say (message settings.language id)) := by
  obtain ⟨w, hw, htext⟩ := table_total settings.language id
  obtain ⟨s', hs', h'⟩ := printLiteral_shown htext h
  refine ⟨s', ?_, ?_⟩
  · rw [printMsg, msg, hw]
    exact hs'
  · rw [message, hw]
    exact h'

end ArcMonark.Kernel
