import ArcMonark.Cpu.Idt
import ArcMonark.Drivers.Print
import ArcMonark.Lib.Hex

/-! Exceptions (`cpu/exceptions.c`, `cpu/panic.c`).

The handler of an exception prints what happened and where, and stops. `exception_report`:
for every exception but the page fault the whole report is on the terminal, and it is the
report of nothing else. The gate of the page fault is set a second time, to a handler that
stops without a word. -/
namespace ArcMonark.Cpu
open Library Lib Drivers Gui

structure InterruptFrame where
  rip : UInt64
  cs : UInt64
  rflags : UInt64
  rsp : UInt64
  ss : UInt64
  deriving DecidableEq

section Code
variable (g : Framebuffer)

/-- The loop of `print_hex`. -/
def printHexFor (val buf : Nat) : (fuel i : Nat) → Object → Option Object
  | 0, _, m => some m
  | fuel + 1, i, m =>
    if i < 16 then do
      printHexFor val buf fuel (i + 1) (← m.write (add64 buf (2 + i)) (hexDigit ((val >>> ((15 - i) * 4)) &&& 0xF)))
    else some m

/-- What is shown, and the object that the buffer of 19 bytes is in. -/
def printHex (m : Object) (buf val : Nat) (s : Console) : Option (Console × Object) := do
  let m ← m.write (add64 buf 0) 0x30
  let m ← m.write (add64 buf 1) 0x78
  let m ← printHexFor val buf 16 0 m
  let m ← m.write (add64 buf 18) 0
  return (← printFrom g m buf s, m)

/-- `print(label); print_hex(val); print(behind);` -/
def printRegister (buf : Nat) (label : String) (val : UInt64) (behind : String) (r : Console × Object) :
    Option (Console × Object) := do
  let s ← printLiteral g label r.1
  let (s, m) ← printHex g r.2 buf val.toNat s
  return (← printLiteral g behind s, m)

/-- The console that `panic` stops with. -/
def panic (msg : String) (frame : InterruptFrame) (errorCode cr2 : UInt64) (m : Object) (buf : Nat) (s : Console) :
    Option Console := do
  let s := clearScreen g (setColor s 0xFFFFFFFF 0x00AA0000)
  let s ← printLiteral g "*** KERNEL PANIC ***\n\n" s
  let s ← printLiteral g msg s
  let s ← printLiteral g "\n\n" s
  let r ← printRegister g buf "RIP    = " frame.rip "\n" (s, m)
  let r ← printRegister g buf "CS     = " frame.cs "\n" r
  let r ← printRegister g buf "RFLAGS = " frame.rflags "\n" r
  let r ← printRegister g buf "RSP    = " frame.rsp "\n" r
  let r ← printRegister g buf "SS     = " frame.ss "\n" r
  let r ← printRegister g buf "ERRCODE= " errorCode "\n" r
  let r ← printRegister g buf "CR2    = " cr2 "  (sadece #PF icin)\n\n" r
  printLiteral g "Sistem donduruldu.\n" r.1

/-- The console that the handler of an exception stops with. The error code is the one that
the processor has pushed, if it has. -/
def runHandler (h : Handler) (frame : InterruptFrame) (err cr2 : UInt64) (m : Object) (buf : Nat) (s : Console) :
    Option Console :=
  match h with
  | .exc n => do
    let (takes, msg) ← exceptions[n]?
    panic g msg frame (if takes then err else 0) cr2 m buf s
  | .pageFault => some s
  | _ => none

end Code

/-! ### The report -/

/-- A line with a register. -/
def register (label : String) (val : UInt64) (behind : String) : List Byte :=
  text label ++ hexText val.toNat ++ text behind

def report (msg : String) (frame : InterruptFrame) (errorCode cr2 : UInt64) : List Byte :=
  text "*** KERNEL PANIC ***\n\n" ++ (text msg ++ (text "\n\n" ++ (register "RIP    = " frame.rip "\n" ++
    (register "CS     = " frame.cs "\n" ++ (register "RFLAGS = " frame.rflags "\n" ++
    (register "RSP    = " frame.rsp "\n" ++ (register "SS     = " frame.ss "\n" ++
    (register "ERRCODE= " errorCode "\n" ++ (register "CR2    = " cr2 "  (sadece #PF icin)\n\n" ++
    text "Sistem donduruldu.\n")))))))))

section Report
variable {g : Framebuffer} {hfits : 4 * g.width ≤ g.pitch} {s : Console} {t : Terminal} {m m₁ : Object} {buf val : Nat}
  {str : List Byte}

theorem printHexFor_wrote {fuel i : Nat} (hwrote : Wrote m m₁ buf str) (hroom : m.Room buf 19)
    (hlen : str.length = 2 + i)
    (hfuel : i + fuel = 16) : ∃ m', printHexFor val buf fuel i m₁ = some m' ∧
      Wrote m m' buf (str ++ (List.range' i fuel).map fun i => hexDigit (val / 16 ^ (15 - i) % 16)) := by
  induction fuel generalizing i m₁ str with
  | zero => exact ⟨m₁, rfl, by simpa using hwrote⟩
  | succ fuel ih =>
    obtain ⟨m₂, hwrite, hwrote₂⟩ := hwrote.next hroom hlen (by omega) (hexDigit ((val >>> ((15 - i) * 4)) &&& 0xF))
    obtain ⟨m', hrun, hwrote'⟩ := ih hwrote₂ (i := i + 1) (by rw [List.length_append, hlen]; rfl) (by omega)
    refine ⟨m', ?_, ?_⟩
    · rw [printHexFor, if_pos (by omega), hwrite]
      exact hrun
    · rw [List.range'_succ, List.map_cons]
      rw [nibble_eq, List.append_assoc] at hwrote'
      exact hwrote'

theorem printHex_shown (hroom : m.Room buf 19) (val : Nat) (h : Shown g hfits s t) :
    ∃ s' m', printHex g m buf val s = some (s', m') ∧ Shown g hfits s' (t.say (hexText val)) ∧ m'.Room buf 19 := by
  obtain ⟨m₁, hwrite₁, hwrote₁⟩ := (Wrote.nil m buf).next (j := 0) hroom rfl (by decide) 0x30
  obtain ⟨m₂, hwrite₂, hwrote₂⟩ := hwrote₁.next (j := 1) hroom rfl (by decide) 0x78
  have hloop : ∃ m', printHexFor val buf 16 0 m₂ = some m' ∧
      Wrote m m' buf ([0x30, 0x78] ++ fixed hexDigit 16 16 val) :=
    printHexFor_wrote hwrote₂ hroom rfl rfl
  obtain ⟨m₃, hdigits, hwrote₃⟩ := hloop
  obtain ⟨m₄, hwrite₄, hwrote₄⟩ := hwrote₃.next (j := 18) hroom (hexText_length val) (by decide) 0
  have hin := hroom.inside
  have hstring : StringAt m₄ buf (hexText val) := by
    refine hwrote₄.string hroom.notNull ?_ fun c hc => (hexText_plain val c hc).1
    show buf + (hexText val).length < 2 ^ 64
    rw [hexText_length]
    omega
  obtain ⟨s', hs', h'⟩ := printFrom_shown hstring h
  refine ⟨s', m₄, ?_, h', hwrote₄.room hroom⟩
  simp only [printHex, hwrite₁, hwrite₂, hdigits, hwrite₄, hs', Option.bind_eq_bind, Option.bind_some, Option.pure_def]

theorem printRegister_shown {label behind : String} (hlabel : IsText label) (hbehind : IsText behind) (val : UInt64)
    (hroom : m.Room buf 19) (h : Shown g hfits s t) :
    ∃ s' m', printRegister g buf label val behind (s, m) = some (s', m') ∧
      Shown g hfits s' (t.say (register label val behind)) ∧ m'.Room buf 19 := by
  obtain ⟨s₁, hs₁, h₁⟩ := printLiteral_shown hlabel h
  obtain ⟨s₂, m₂, hs₂, h₂, hroom₂⟩ := printHex_shown hroom val.toNat h₁
  obtain ⟨s₃, hs₃, h₃⟩ := printLiteral_shown hbehind h₂
  refine ⟨s₃, m₂, ?_, ?_, hroom₂⟩
  · simp only [printRegister, hs₁, hs₂, hs₃, Option.bind_eq_bind, Option.bind_some, Option.pure_def]
  · rw [register, Terminal.say_append, Terminal.say_append]
    exact h₃

theorem panic_shown (hwidth : 8 ≤ g.width) (hheight : 16 ≤ g.height) {msg : String} (hmsg : IsText msg)
    (frame : InterruptFrame) (errorCode cr2 : UInt64) (hroom : m.Room buf 19) (s : Console) :
    ∃ s', panic g msg frame errorCode cr2 m buf s = some s' ∧
      Shown g hfits s' (Terminal.say (.cleared (g.width / 8) (g.height / 16) 0xFFFFFFFF 0x00AA0000)
        (report msg frame errorCode cr2)) := by
  have hclear := clearScreen_shown hwidth hheight hfits (setColor s 0xFFFFFFFF 0x00AA0000)
  obtain ⟨s₁, hs₁, h₁⟩ := printLiteral_shown (w := "*** KERNEL PANIC ***\n\n") (.ofList (by decide) (by decide)) hclear
  obtain ⟨s₂, hs₂, h₂⟩ := printLiteral_shown hmsg h₁
  obtain ⟨s₃, hs₃, h₃⟩ := printLiteral_shown (w := "\n\n") (.ofList (by decide) (by decide)) h₂
  have hline : ∀ (label : String) {s : Console} {t : Terminal} {m : Object} (val : UInt64), IsText label →
      m.Room buf 19 → Shown g hfits s t → ∃ s' m', printRegister g buf label val "\n" (s, m) = some (s', m') ∧
        Shown g hfits s' (t.say (register label val "\n")) ∧ m'.Room buf 19 :=
    fun _ _ _ _ val hlabel => printRegister_shown hlabel (.ofList (by decide) (by decide)) val
  have hlast : ∀ {s : Console} {t : Terminal} {m : Object} (val : UInt64), m.Room buf 19 → Shown g hfits s t →
      ∃ s' m', printRegister g buf "CR2    = " val "  (sadece #PF icin)\n\n" (s, m) = some (s', m') ∧
        Shown g hfits s' (t.say (register "CR2    = " val "  (sadece #PF icin)\n\n")) ∧ m'.Room buf 19 :=
    fun val => printRegister_shown (.ofList (by decide) (by decide)) (.ofList (by decide) (by decide)) val
  obtain ⟨s₄, m₄, hs₄, h₄, hroom₄⟩ := hline "RIP    = " frame.rip (.ofList (by decide) (by decide)) hroom h₃
  obtain ⟨s₅, m₅, hs₅, h₅, hroom₅⟩ := hline "CS     = " frame.cs (.ofList (by decide) (by decide)) hroom₄ h₄
  obtain ⟨s₆, m₆, hs₆, h₆, hroom₆⟩ := hline "RFLAGS = " frame.rflags (.ofList (by decide) (by decide)) hroom₅ h₅
  obtain ⟨s₇, m₇, hs₇, h₇, hroom₇⟩ := hline "RSP    = " frame.rsp (.ofList (by decide) (by decide)) hroom₆ h₆
  obtain ⟨s₈, m₈, hs₈, h₈, hroom₈⟩ := hline "SS     = " frame.ss (.ofList (by decide) (by decide)) hroom₇ h₇
  obtain ⟨s₉, m₉, hs₉, h₉, hroom₉⟩ := hline "ERRCODE= " errorCode (.ofList (by decide) (by decide)) hroom₈ h₈
  obtain ⟨s₁₀, m₁₀, hs₁₀, h₁₀, -⟩ := hlast cr2 hroom₉ h₉
  obtain ⟨s', hs', h'⟩ := printLiteral_shown (w := "Sistem donduruldu.\n") (.ofList (by decide) (by decide)) h₁₀
  refine ⟨s', ?_, ?_⟩
  · simp only [panic, hs₁, hs₂, hs₃, hs₄, hs₅, hs₆, hs₇, hs₈, hs₉, hs₁₀, hs', Option.bind_eq_bind, Option.bind_some]
  · simp only [report, Terminal.say_append]
    exact h'

end Report

/-! ### What a report tells -/

/-- A literal of one line, in ASCII. -/
structure IsLine (w : String) : Prop where
  text : IsText w
  line : 0x0A ∉ Library.text w
  ascii : ∀ c ∈ w.toList, c.toNat < 128

section IsLine
variable {w w' : String}

theorem IsLine.ofList {l : List Char} (hall : l.all fun c => c.toNat < 128 ∧ c ≠ '\x00' ∧ c ≠ '\n')
    (hlen : l.length < 2 ^ 32) : IsLine (.ofList l) := by
  have h : ∀ c ∈ l, c.toNat < 128 ∧ c ≠ '\x00' ∧ c ≠ '\n' := fun c hc => by simpa using List.all_eq_true.mp hall c hc
  have hbyte : ∀ c ∈ l, (BitVec.ofNat 8 c.toNat).toNat = c.toNat := fun c hc => by
    have hascii := (h c hc).1
    rw [BitVec.toNat_ofNat, Nat.mod_eq_of_lt (by omega)]
  have hother : ∀ d : Char, d.toNat < 256 → ∀ c ∈ l, c ≠ d → BitVec.ofNat 8 c.toNat ≠ BitVec.ofNat 8 d.toNat := by
    intro d hd c hc hne heq
    have hsame := congrArg BitVec.toNat heq
    rw [hbyte c hc, BitVec.toNat_ofNat, Nat.mod_eq_of_lt hd] at hsame
    exact hne (Char.toNat_inj.mp hsame)
  have hzero : ∀ c ∈ l, BitVec.ofNat 8 c.toNat ≠ 0 := fun c hc => hother '\x00' (by decide) c hc (h c hc).2.1
  refine ⟨.ofList (by simpa using hzero) hlen, ?_, ?_⟩
  · rw [text_ofList, List.mem_map]
    rintro ⟨c, hc, heq⟩
    exact hother '\n' (by decide) c hc (h c hc).2.2 heq
  · rw [String.toList_ofList]
    exact fun c hc => (h c hc).1

theorem IsLine.text_inj (h : IsLine w) (h' : IsLine w') (heq : Library.text w = Library.text w') : w = w' := by
  have hback : ∀ {w : String}, IsLine w → (Library.text w).map (fun c => Char.ofNat c.toNat) = w.toList := by
    intro w h
    rw [Library.text, List.map_map]
    refine (List.map_congr_left fun c hc => ?_).trans (List.map_id _)
    have hascii := h.ascii c hc
    simp only [Function.comp, BitVec.toNat_ofNat, Nat.mod_eq_of_lt (show c.toNat < 2 ^ 8 by omega),
      Char.ofNat_toNat, id]
  rw [← String.toList_inj, ← hback h, ← hback h', heq]

end IsLine

/-- What is in front of the first newline. -/
theorem line_cancel {a b s t : List Byte} (ha : 0x0A ∉ a) (hb : 0x0A ∉ b) (h : a ++ 0x0A :: s = b ++ 0x0A :: t) :
    a = b ∧ s = t := by
  have hfirst : ∀ {a : List Byte} (s : List Byte), 0x0A ∉ a → (a ++ 0x0A :: s).takeWhile (· ≠ 0x0A) = a := by
    intro a s ha
    have hother : ∀ c ∈ a, decide (c ≠ 0x0A) = true := fun c hc => decide_eq_true fun heq => ha (heq ▸ hc)
    rw [List.takeWhile_append_of_pos hother, List.takeWhile_cons_of_neg (by simp), List.append_nil]
  have hsame := congrArg (List.takeWhile (· ≠ 0x0A)) h
  rw [hfirst s ha, hfirst t hb] at hsame
  subst hsame
  exact ⟨rfl, (List.cons.inj (List.append_cancel_left h)).2⟩

theorem register_cancel {label behind : String} {v v' : UInt64} {s t : List Byte}
    (h : register label v behind ++ s = register label v' behind ++ t) : v = v' ∧ s = t := by
  simp only [register, List.append_assoc] at h
  obtain ⟨hhex, hrest⟩ := List.append_inj (List.append_cancel_left h) (by rw [hexText_length, hexText_length])
  exact ⟨UInt64.toNat_inj.mp (hexText_inj v.toNat_lt v'.toNat_lt hhex), List.append_cancel_left hrest⟩

/-- Different reports are of different things. -/
theorem report_inj {msg msg' : String} {f f' : InterruptFrame} {e e' c c' : UInt64} (hmsg : IsLine msg)
    (hmsg' : IsLine msg') (h : report msg f e c = report msg' f' e' c') : msg = msg' ∧ f = f' ∧ e = e' ∧ c = c' := by
  obtain ⟨htext, hrest⟩ := line_cancel hmsg.line hmsg'.line (List.append_cancel_left h)
  obtain ⟨hrip, hrest⟩ := register_cancel (List.cons.inj hrest).2
  obtain ⟨hcs, hrest⟩ := register_cancel hrest
  obtain ⟨hrflags, hrest⟩ := register_cancel hrest
  obtain ⟨hrsp, hrest⟩ := register_cancel hrest
  obtain ⟨hss, hrest⟩ := register_cancel hrest
  obtain ⟨he, hrest⟩ := register_cancel hrest
  obtain ⟨hc, -⟩ := register_cancel hrest
  cases f
  cases f'
  cases hrip
  cases hcs
  cases hrflags
  cases hrsp
  cases hss
  exact ⟨hmsg.text_inj hmsg' htext, rfl, he, hc⟩

theorem exceptions_lines : ∀ e ∈ exceptions, IsLine e.2 := by
  unfold exceptions
  repeat refine List.forall_mem_cons.mpr ⟨.ofList (by decide) (by decide), ?_⟩
  exact List.forall_mem_nil _

/-! ### Exceptions -/

/-- The message of an exception. -/
def exceptionMessage (vec : Nat) : String := (exceptions[vec]?.map Prod.snd).getD ""

/-- The report of an exception: its own message, and an error code of zero where the processor
pushes none. -/
def exceptionReport (vec : Nat) (frame : InterruptFrame) (err cr2 : UInt64) : List Byte :=
  report (exceptionMessage vec) frame (if pushesError vec then err else 0) cr2

theorem message_get {vec : Nat} (hvec : vec < 32) :
    (exceptions.map Prod.snd)[vec]? = some (exceptionMessage vec) := by
  have hin : vec < (exceptions.map Prod.snd).length := hvec
  rw [exceptionMessage, ← List.getElem?_map, List.getElem?_eq_getElem hin]
  rfl

theorem message_line {vec : Nat} (hvec : vec < 32) : IsLine (exceptionMessage vec) := by
  obtain ⟨e, he, heq⟩ := List.mem_map.mp (List.mem_of_getElem? (message_get hvec))
  exact heq ▸ exceptions_lines e he

/-- No two exceptions have one message. -/
theorem message_inj {vec vec' : Nat} (hvec : vec < 32) (hvec' : vec' < 32)
    (h : exceptionMessage vec = exceptionMessage vec') : vec = vec' := by
  have hdistinct : (exceptions.map Prod.snd).Nodup := by decide +kernel
  refine (List.getElem?_inj (show vec < (exceptions.map Prod.snd).length from hvec) hdistinct).mp ?_
  rw [message_get hvec, message_get hvec', h]

theorem exceptions_pushesError : ∀ vec < 32, (exceptions[vec]?).map Prod.fst = some (pushesError vec) := by decide

/-- **Exceptions are reported exactly.** The gate of every exception leads to a handler for
the frame that the processor pushes. That of the page fault shows nothing. Any other one
clears the screen and shows its message, the frame, the error code and `cr2`, whatever the
screen and the memory hold; and the same text is shown for no other exception, frame, error
code or `cr2`. -/
theorem exception_report {g : Framebuffer} (hwidth : 8 ≤ g.width) (hheight : 16 ≤ g.height)
    (hfits : 4 * g.width ≤ g.pitch)
    (c : Image) {vec : Nat} (hvec : vec < 32) (frame : InterruptFrame) (err cr2 : UInt64) {m : Object} {buf : Nat}
    (hroom : m.Room buf 19) (s : Console) :
    ∃ h, (setGates c Idt.zeroed bootGates vec).gate = some ⟨c.addr h, kernelCs, true⟩ ∧ h.takesError = pushesError vec ∧
      (vec = 14 → runHandler g h frame err cr2 m buf s = some s) ∧
      (vec ≠ 14 → ∃ s', runHandler g h frame err cr2 m buf s = some s' ∧
        Shown g hfits s' (Terminal.say (.cleared (g.width / 8) (g.height / 16) 0xFFFFFFFF 0x00AA0000)
          (exceptionReport vec frame err cr2))) ∧
      ∀ vec' frame' err' cr2', vec' < 32 → exceptionReport vec frame err cr2 = exceptionReport vec' frame' err' cr2' →
        vec = vec' ∧ frame = frame' ∧ (pushesError vec → err = err') ∧ cr2 = cr2' := by
  have hgate : (setGates c Idt.zeroed bootGates vec).gate = (handlerOf vec).map fun h => ⟨c.addr h, kernelCs, true⟩ :=
    bootIdt_gate c vec
  have hother : ∀ vec' frame' err' cr2', vec' < 32 →
      exceptionReport vec frame err cr2 = exceptionReport vec' frame' err' cr2' →
        vec = vec' ∧ frame = frame' ∧ (pushesError vec → err = err') ∧ cr2 = cr2' := by
    intro vec' frame' err' cr2' hvec' hreport
    obtain ⟨hmsg, hframe, herr, hcr2⟩ := report_inj (message_line hvec) (message_line hvec') hreport
    obtain rfl := message_inj hvec hvec' hmsg
    refine ⟨rfl, hframe, fun hpush => ?_, hcr2⟩
    rwa [if_pos hpush, if_pos hpush] at herr
  by_cases hfault : vec = 14
  · have hh : handlerOf vec = some .pageFault := if_pos hfault
    refine ⟨.pageFault, ?_, handlerOf_takesError hh, fun _ => rfl, fun hne => absurd hfault hne, hother⟩
    rw [hgate, hh]
    rfl
  · have hh : handlerOf vec = some (.exc ⟨vec, hvec⟩) := by rw [handlerOf, if_neg hfault, dif_pos hvec]
    refine ⟨_, ?_, handlerOf_takesError hh, fun heq => absurd heq hfault, fun _ => ?_, hother⟩
    · rw [hgate, hh]
      rfl
    · obtain ⟨⟨takes, msg⟩, he⟩ : ∃ e, exceptions[vec]? = some e := ⟨_, List.getElem?_eq_getElem hvec⟩
      have htakes := exceptions_pushesError vec hvec
      rw [he] at htakes
      obtain rfl : takes = pushesError vec := Option.some.inj htakes
      obtain ⟨s', hs', h'⟩ := panic_shown hwidth hheight
        (exceptions_lines _ (List.mem_of_getElem? he)).text frame (if pushesError vec then err else 0) cr2 hroom s
      refine ⟨s', ?_, ?_⟩
      · rw [runHandler]
        simp only [Fin.getElem?_fin, he, Option.bind_eq_bind, Option.bind_some]
        exact hs'
      · rw [exceptionReport, exceptionMessage, he]
        exact h'

/-- A general protection fault, with other bytes on the stack. -/
theorem exception_report_protection : ∃ h s',
    (setGates smallImage Idt.zeroed bootGates 13).gate = some ⟨smallImage.addr h, kernelCs, true⟩ ∧
      runHandler Drivers.twoColumns h ⟨0x401000, 8, 0x202, 0x7FFF0, 0x10⟩ 0x18 0
        (.bytes 0x1000 (List.replicate 19 0xFF)) 0x1000 (.start {hw := fun _ => 0, back := none}) = some s' := by
  have hroom : (Object.bytes 0x1000 (List.replicate 19 0xFF)).Room 0x1000 19 :=
    Object.bytes_room (by decide) (by decide)
  obtain ⟨h, hgate, _, _, hshown, _⟩ := exception_report (g := Drivers.twoColumns) (by decide) (by decide) (by decide)
    smallImage (show 13 < 32 by decide) ⟨0x401000, 8, 0x202, 0x7FFF0, 0x10⟩ 0x18 0
      hroom (.start {hw := fun _ => 0, back := none})
  obtain ⟨s', hs', _⟩ := hshown (by decide)
  exact ⟨h, s', hgate, hs'⟩

end ArcMonark.Cpu
