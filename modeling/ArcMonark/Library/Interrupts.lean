import ArcMonark.Library.Runs
import Mathlib.Logic.Function.Basic
import Mathlib.Tactic.Cases

/-! Kernel code as far as the interrupt flag goes.

There is one flag for all tasks. Code that must not be interrupted saves the flag
on its stack, clears it, and puts the saved value back; functions call each other
inside and outside of such sections, the processor may go on with another task in
the middle of one, and an interrupt may come wherever the flag is set.

`Code` keeps of a program its calls, its accesses to shared variables and what it
does to the flag; a branch may go either way and a loop may run any number of times.
`Code.flow` computes what is known of the flag behind a piece of code from what is
known in front of it. Where it accepts the body of every function, shared variables
are touched only with the flag cleared, every call leaves the flag as it found it
however often the processor changes tasks in between, and new tasks begin with the
flag set (`Program.Checked.touches`, `returns`, `enters`). -/
namespace ArcMonark.Library

inductive Code (V F : Type) where
  | skip
  | touch (v : V)
  /-- Saves the flag and clears it. -/
  | save
  /-- Puts back the saved flag. -/
  | restore
  | clear
  | set
  | seq (a b : Code V F)
  | either (a b : Code V F)
  | loop (a : Code V F)
  | call (f : F)
  /-- Another task goes on; this one waits here until the processor comes back. -/
  | switch
  /-- A new task may be switched to. -/
  | spawn
  /-- The current task may not be switched to any more. -/
  | retire
  | hang
  deriving DecidableEq

namespace Code
variable {V F : Type}

/-- One after the other. -/
def block : List (Code V F) → Code V F
  | [] => skip
  | a :: as => seq a (block as)

/-- `if (test) a` -/
def whenever (test a : Code V F) : Code V F := seq test (either a skip)

/-- `while (test) a` -/
def repeating (test a : Code V F) : Code V F := seq test (loop (seq a test))

end Code

/-! ### What is known of the flag -/

/-- Inside a function: of the flag, of what the function has saved, and of the flag
when it was called. -/
inductive Mode where
  /-- Nothing. -/
  | free
  /-- The flag is set. -/
  | on
  /-- The flag is as it was when the function was called. -/
  | called
  /-- It is cleared, and was when the function was called. -/
  | masked
  /-- It is cleared, and the function has saved what it was when it was called. -/
  | held
  /-- It is cleared. -/
  | lost
  /-- Control does not get here. -/
  | dead
  deriving DecidableEq

namespace Mode

def Holds : Mode → (flag saved entry : Bool) → Prop
  | free, _, _, _ => True
  | on, flag, _, _ => flag = true
  | called, flag, _, entry => flag = entry
  | masked, flag, _, entry => flag = false ∧ entry = false
  | held, flag, saved, entry => flag = false ∧ saved = entry
  | lost, flag, _, _ => flag = false
  | dead, _, _, _ => False

/-- The flag is known to be cleared. -/
def off : Mode → Bool
  | masked | held | lost | dead => true
  | free | on | called => false

/-- Whatever `m` knows, `n` knows no more. -/
def le (m n : Mode) : Bool := m == n || m == dead || n == free

def join (m n : Mode) : Option Mode := if m.le n then some n else if n.le m then some m else none

/-- How a function that is called in this mode must end. -/
def post : Mode → Mode
  | free => free
  | called => called
  | masked => masked
  | held => called
  | on | lost | dead => dead

variable {m n k : Mode} {flag saved entry : Bool}

theorem off_flag (h : m.Holds flag saved entry) (hoff : m.off = true) : flag = false := by
  cases m <;> simp_all [Holds, off]

theorem le_holds (h : m.Holds flag saved entry) (hle : m.le n = true) : n.Holds flag saved entry := by
  simp only [le, Bool.or_eq_true, beq_iff_eq] at hle
  rcases hle with (rfl | rfl) | rfl
  · exact h
  · exact h.elim
  · trivial

theorem le_trans (h : m.le n = true) (h' : n.le k = true) : m.le k = true := by
  simp only [le, Bool.or_eq_true, beq_iff_eq] at h h' ⊢
  rcases h with (rfl | rfl) | rfl
  · exact h'
  · exact .inl (.inr rfl)
  · rcases h' with (rfl | h') | rfl
    · exact .inr rfl
    · cases h'
    · exact .inr rfl

theorem join_le (h : m.join n = some k) : m.le k = true ∧ n.le k = true := by
  have hself : ∀ m : Mode, m.le m = true := fun m => by simp [le]
  unfold join at h
  split at h
  · obtain rfl := Option.some.inj h
    exact ⟨‹_›, hself _⟩
  · split at h
    · obtain rfl := Option.some.inj h
      exact ⟨hself _, ‹_›⟩
    · cases h

/-- A function that ends as it must leaves the flag as it was, unless it is free to. -/
theorem post_entry (h : m.post.Holds flag saved entry) (hne : m ≠ free) : flag = entry := by
  cases m <;> simp_all [post, Holds]

end Mode

namespace Code
variable {V F : Type}

/-- What is known of the flag behind the code; `none` where the code breaks a rule.
`pre f` is the mode in which `f` wants to be called. -/
def flow (pre : F → Mode) : Code V F → Mode → Option Mode
  | skip, m => some m
  | touch _, m => if m.off then some m else none
  | save, m => if m = .called then some .held else none
  | restore, m => if m = .held then some .called else none
  | clear, m => if m = .called then some .lost else if m = .free ∨ m = .on then some .free else none
  | set, m => if m = .free ∨ m = .on ∨ m = .lost then some .on else none
  | seq a b, m => (a.flow pre m).bind (b.flow pre)
  | either a b, m => (a.flow pre m).bind fun x => (b.flow pre m).bind x.join
  | loop a, m => (a.flow pre m).bind fun x => if x.le m then some m else none
  | call f, m =>
    match pre f with
    | .free => if m = .on then some .free else none
    | .called => some m
    | .masked => if m.off then some m else none
    | _ => none
  | switch, m => if m.off then some m else none
  | spawn, m => some m
  | retire, m => some m
  | hang, _ => some .dead

end Code

/-! ### Tasks -/

/-- A call in progress. -/
structure Frame (V F : Type) where
  fn : F
  /-- What is left to run. -/
  code : List (Code V F)
  saved : Bool
  /-- The flag at the call. -/
  entry : Bool
  deriving DecidableEq

/-- The processor, and for each task the calls it is in, the innermost first. -/
structure Processor (V F : Type) where
  flag : Bool
  current : Nat
  stack : Nat → List (Frame V F)
  live : Nat → Bool

structure Program (V F : Type) where
  body : F → Code V F
  pre : F → Mode
  /-- Where the first task begins. -/
  boot : F
  /-- Where a new task begins. -/
  trampoline : F
  /-- Handles an interrupt; it ends by restoring the flag that the interrupt saved. -/
  handler : F

inductive Event (F : Type) where
  | run
  | call (f : F)
  | ret
  | interrupt
  | switch (t : Nat)
  | spawn (t : Nat)
  | retire

/-- What the innermost call does on its own; the flags are those before and after. -/
inductive Runs {V F : Type} (flag : Bool) : Frame V F → Bool → Frame V F → Prop where
  | skip {f k saved entry} : Runs flag ⟨f, .skip :: k, saved, entry⟩ flag ⟨f, k, saved, entry⟩
  | touch {f v k saved entry} : Runs flag ⟨f, .touch v :: k, saved, entry⟩ flag ⟨f, k, saved, entry⟩
  | save {f k saved entry} : Runs flag ⟨f, .save :: k, saved, entry⟩ false ⟨f, k, flag, entry⟩
  | restore {f k saved entry} : Runs flag ⟨f, .restore :: k, saved, entry⟩ saved ⟨f, k, saved, entry⟩
  | clear {f k saved entry} : Runs flag ⟨f, .clear :: k, saved, entry⟩ false ⟨f, k, saved, entry⟩
  | set {f k saved entry} : Runs flag ⟨f, .set :: k, saved, entry⟩ true ⟨f, k, saved, entry⟩
  | seq {f a b k saved entry} : Runs flag ⟨f, .seq a b :: k, saved, entry⟩ flag ⟨f, a :: b :: k, saved, entry⟩
  | left {f a b k saved entry} : Runs flag ⟨f, .either a b :: k, saved, entry⟩ flag ⟨f, a :: k, saved, entry⟩
  | right {f a b k saved entry} : Runs flag ⟨f, .either a b :: k, saved, entry⟩ flag ⟨f, b :: k, saved, entry⟩
  | again {f a k saved entry} :
    Runs flag ⟨f, .loop a :: k, saved, entry⟩ flag ⟨f, a :: .loop a :: k, saved, entry⟩
  | done {f a k saved entry} : Runs flag ⟨f, .loop a :: k, saved, entry⟩ flag ⟨f, k, saved, entry⟩

/-- The processor with other calls of a task. -/
def Processor.setStack {V F : Type} (s : Processor V F) (t : Nat) (frames : List (Frame V F)) : Processor V F :=
  {s with stack := Function.update s.stack t frames}

theorem Processor.setStack_self {V F : Type} {s : Processor V F} {t : Nat} {frames : List (Frame V F)} :
    (s.setStack t frames).stack t = frames := Function.update_self _ _ _

theorem Processor.setStack_other {V F : Type} {s : Processor V F} {t u : Nat} {frames : List (Frame V F)}
    (h : u ≠ t) : (s.setStack t frames).stack u = s.stack u := Function.update_of_ne h _ _

/-- One step of the processor. -/
inductive Program.Step {V F : Type} (P : Program V F) (s : Processor V F) : Event F → Processor V F → Prop where
  | run {fr rest flag fr'} (h : s.stack s.current = fr :: rest) (hr : Runs s.flag fr flag fr') :
    P.Step s .run {s.setStack s.current (fr' :: rest) with flag := flag}
  | call {f g k saved entry rest} (h : s.stack s.current = ⟨f, .call g :: k, saved, entry⟩ :: rest) :
    P.Step s (.call g)
      (s.setStack s.current (⟨g, [P.body g], false, s.flag⟩ :: ⟨f, k, saved, entry⟩ :: rest))
  | ret {f saved entry fr rest} (h : s.stack s.current = ⟨f, [], saved, entry⟩ :: fr :: rest) :
    P.Step s .ret (s.setStack s.current (fr :: rest))
  | interrupt (h : s.flag = true) :
    P.Step s .interrupt {s.setStack s.current
      (⟨P.handler, [P.body P.handler], true, true⟩ :: s.stack s.current) with flag := false}
  | switch {f k saved entry rest t} (h : s.stack s.current = ⟨f, .switch :: k, saved, entry⟩ :: rest)
      (ht : t ≠ s.current) (hlive : s.live t = true) :
    P.Step s (.switch t) {s.setStack s.current (⟨f, k, saved, entry⟩ :: rest) with current := t}
  | spawn {f k saved entry rest t} (h : s.stack s.current = ⟨f, .spawn :: k, saved, entry⟩ :: rest)
      (ht : s.stack t = []) :
    P.Step s (.spawn t) {(s.setStack s.current (⟨f, k, saved, entry⟩ :: rest)).setStack t
      [⟨P.trampoline, [P.body P.trampoline], false, false⟩] with live := Function.update s.live t true}
  | retire {f k saved entry rest} (h : s.stack s.current = ⟨f, .retire :: k, saved, entry⟩ :: rest) :
    P.Step s .retire {s.setStack s.current (⟨f, k, saved, entry⟩ :: rest) with
      live := Function.update s.live s.current false}

/-- One task runs, from the boot function on. -/
def Program.system {V F : Type} (P : Program V F) : System (Processor V F) (Event F) where
  init s := s.stack s.current = [⟨P.boot, [P.body P.boot], false, s.flag⟩] ∧
    (∀ t, t ≠ s.current → s.stack t = []) ∧ ∀ t, s.live t = true → t = s.current
  step := P.Step

/-- The code that the current task runs next. -/
def Processor.next {V F : Type} (s : Processor V F) : Option (Code V F) :=
  (s.stack s.current).head?.bind fun fr => fr.code.head?

/-- The call of `f`, made when the flag was `entry`, returns next. -/
def Processor.Returns {V F : Type} (s : Processor V F) (f : F) (entry : Bool) : Prop :=
  ∃ saved rest, s.stack s.current = ⟨f, [], saved, entry⟩ :: rest

namespace Program
variable {V F : Type}

/-- Every function keeps the rules, in the mode in which it is called. -/
structure Checked (P : Program V F) : Prop where
  bodies : ∀ f, ∃ m, (P.body f).flow P.pre (P.pre f) = some m ∧ m.le (P.pre f).post = true
  boot : P.pre P.boot = .free
  trampoline : P.pre P.trampoline = .lost
  handler : P.pre P.handler = .held

/-! ### The invariant -/

/-- What is left of a function leads from what is known now to how it must end. -/
inductive Flows (P : Program V F) : List (Code V F) → Mode → Mode → Prop where
  | nil {m m'} (hle : m.le m' = true) : P.Flows [] m m'
  | cons {c k m n n' m'} (hflow : c.flow P.pre m = some n) (hle : n.le n' = true) (h : P.Flows k n' m') :
    P.Flows (c :: k) m m'

/-- Something is known of the flag that carries the function to its end. -/
def FrameOk (P : Program V F) (flag : Bool) (fr : Frame V F) : Prop :=
  ∃ m, m.Holds flag fr.saved fr.entry ∧ P.Flows fr.code m (P.pre fr.fn).post

/-- So it is for every call in progress: each will find the flag as the call inside it
found it. -/
def StackOk (P : Program V F) : Bool → List (Frame V F) → Prop
  | _, [] => True
  | flag, fr :: rest => P.FrameOk flag fr ∧ (P.pre fr.fn = .free → ∀ b, P.StackOk b rest) ∧
    (P.pre fr.fn ≠ .free → P.StackOk fr.entry rest)

/-- A task that waits was left with the flag cleared. -/
structure Ok (P : Program V F) (s : Processor V F) : Prop where
  current : P.StackOk s.flag (s.stack s.current)
  others : ∀ t, t ≠ s.current → P.StackOk false (s.stack t)

variable {P : Program V F} {s s' : Processor V F} {e : Event F} {f g : F} {c : Code V F} {m n : Mode}
  {k : List (Code V F)} {flag flag' saved entry : Bool} {fr fr' : Frame V F} {rest : List (Frame V F)}

/-- What is known in front of a piece of code leads behind it. -/
theorem FrameOk.cons (h : P.FrameOk flag ⟨f, c :: k, saved, entry⟩) :
    ∃ m n n', m.Holds flag saved entry ∧ c.flow P.pre m = some n ∧ n.le n' = true ∧
      P.Flows k n' (P.pre f).post := by
  obtain ⟨m, hm, hflows⟩ := h
  cases hflows with
  | cons hflow hle h => exact ⟨m, _, _, hm, hflow, hle, h⟩

/-- A function may be called where its mode holds. -/
theorem Checked.frameOk (hP : P.Checked) (h : (P.pre f).Holds flag saved entry) :
    P.FrameOk flag ⟨f, [P.body f], saved, entry⟩ := by
  obtain ⟨m, hflow, hle⟩ := hP.bodies f
  exact ⟨_, h, .cons hflow hle (.nil (by simp [Mode.le]))⟩

/-! ### Steps -/

theorem FrameOk.intro {n' : Mode} (hn : n.Holds flag saved entry) (hle : n.le n' = true)
    (hflows : P.Flows k n' (P.pre f).post) : P.FrameOk flag ⟨f, k, saved, entry⟩ :=
  ⟨n', Mode.le_holds hn hle, hflows⟩

/-- A step inside a function leads on. -/
theorem FrameOk.runs (h : P.FrameOk flag fr) (hr : Runs flag fr flag' fr') : P.FrameOk flag' fr' := by
  have hself : ∀ m : Mode, m.le m = true := fun m => by simp [Mode.le]
  cases hr with
  | skip =>
    obtain ⟨m, n, n', hm, hflow, hle, hk⟩ := h.cons
    cases hflow
    exact .intro hm hle hk
  | touch =>
    obtain ⟨m, n, n', hm, hflow, hle, hk⟩ := h.cons
    simp only [Code.flow, Option.ite_none_right_eq_some, Option.some.injEq] at hflow
    exact .intro (hflow.2 ▸ hm) hle hk
  | save =>
    obtain ⟨m, n, n', hm, hflow, hle, hk⟩ := h.cons
    simp only [Code.flow, Option.ite_none_right_eq_some, Option.some.injEq] at hflow
    obtain ⟨rfl, rfl⟩ := hflow
    exact .intro (n := .held) ⟨rfl, hm⟩ hle hk
  | restore =>
    obtain ⟨m, n, n', hm, hflow, hle, hk⟩ := h.cons
    simp only [Code.flow, Option.ite_none_right_eq_some, Option.some.injEq] at hflow
    obtain ⟨rfl, rfl⟩ := hflow
    exact .intro (n := .called) hm.2 hle hk
  | clear =>
    obtain ⟨m, n, n', hm, hflow, hle, hk⟩ := h.cons
    simp only [Code.flow] at hflow
    split at hflow
    · cases hflow
      exact .intro (n := .lost) rfl hle hk
    · simp only [Option.ite_none_right_eq_some, Option.some.injEq] at hflow
      obtain ⟨_, rfl⟩ := hflow
      exact .intro (n := .free) trivial hle hk
  | set =>
    obtain ⟨m, n, n', hm, hflow, hle, hk⟩ := h.cons
    simp only [Code.flow, Option.ite_none_right_eq_some, Option.some.injEq] at hflow
    obtain ⟨_, rfl⟩ := hflow
    exact .intro (n := .on) rfl hle hk
  | seq =>
    obtain ⟨m, n, n', hm, hflow, hle, hk⟩ := h.cons
    obtain ⟨x, ha, hb⟩ := Option.bind_eq_some_iff.mp hflow
    exact ⟨m, hm, .cons ha (hself x) (.cons hb hle hk)⟩
  | left =>
    obtain ⟨m, n, n', hm, hflow, hle, hk⟩ := h.cons
    obtain ⟨x, ha, hflow⟩ := Option.bind_eq_some_iff.mp hflow
    obtain ⟨y, hb, hjoin⟩ := Option.bind_eq_some_iff.mp hflow
    exact ⟨m, hm, .cons ha (Mode.le_trans (Mode.join_le hjoin).1 hle) hk⟩
  | right =>
    obtain ⟨m, n, n', hm, hflow, hle, hk⟩ := h.cons
    obtain ⟨x, ha, hflow⟩ := Option.bind_eq_some_iff.mp hflow
    obtain ⟨y, hb, hjoin⟩ := Option.bind_eq_some_iff.mp hflow
    exact ⟨m, hm, .cons hb (Mode.le_trans (Mode.join_le hjoin).2 hle) hk⟩
  | again =>
    obtain ⟨m, n, n', hm, hflow, hle, hk⟩ := h.cons
    obtain ⟨x, ha, hx⟩ := Option.bind_eq_some_iff.mp hflow
    simp only [Option.ite_none_right_eq_some, Option.some.injEq] at hx
    obtain ⟨hx, rfl⟩ := hx
    exact ⟨m, hm, .cons ha hx (.cons hflow hle hk)⟩
  | done =>
    obtain ⟨m, n, n', hm, hflow, hle, hk⟩ := h.cons
    obtain ⟨x, ha, hx⟩ := Option.bind_eq_some_iff.mp hflow
    simp only [Option.ite_none_right_eq_some, Option.some.injEq] at hx
    obtain ⟨_, rfl⟩ := hx
    exact .intro hm hle hk

/-- A step inside a function stays in its call. -/
theorem runs_same (hr : Runs flag fr flag' fr') : fr'.fn = fr.fn ∧ fr'.entry = fr.entry := by
  cases hr <;> exact ⟨rfl, rfl⟩

/-- The innermost call may go on as long as it stays the same call. -/
theorem StackOk.top (h : P.StackOk flag (fr :: rest)) (hfr : P.FrameOk flag' fr') (hfn : fr'.fn = fr.fn)
    (hentry : fr'.entry = fr.entry) : P.StackOk flag' (fr' :: rest) := by
  refine ⟨hfr, ?_, ?_⟩
  · rw [hfn]
    exact h.2.1
  · rw [hfn, hentry]
    exact h.2.2

/-- At its end a call leaves the flag as it was, unless it is free to. -/
theorem FrameOk.ret (h : P.FrameOk flag ⟨f, [], saved, entry⟩) (hne : P.pre f ≠ .free) : flag = entry := by
  obtain ⟨m, hm, hflows⟩ := h
  cases hflows with
  | nil hle => exact Mode.post_entry (Mode.le_holds hm hle) hne

/-- So the caller goes on. -/
theorem StackOk.ret (h : P.StackOk flag (⟨f, [], saved, entry⟩ :: rest)) : P.StackOk flag rest := by
  by_cases hfree : P.pre f = .free
  · exact h.2.1 hfree flag
  · rw [h.1.ret hfree]
    exact h.2.2 hfree

/-- A call finds the mode it wants, and its caller goes on behind it. -/
theorem StackOk.call (hP : P.Checked) (h : P.StackOk flag (⟨f, .call g :: k, saved, entry⟩ :: rest)) :
    P.StackOk flag (⟨g, [P.body g], false, flag⟩ :: ⟨f, k, saved, entry⟩ :: rest) := by
  obtain ⟨m, n, n', hm, hflow, hle, hk⟩ := h.1.cons
  simp only [Code.flow] at hflow
  split at hflow
  · rename_i hg
    simp only [Option.ite_none_right_eq_some, Option.some.injEq] at hflow
    obtain ⟨_, rfl⟩ := hflow
    refine ⟨hP.frameOk (by rw [hg]; trivial), fun _ b => ?_, fun hne => absurd hg hne⟩
    exact h.top (.intro (n := .free) trivial hle hk) rfl rfl
  · rename_i hg
    cases hflow
    refine ⟨hP.frameOk (by rw [hg]; rfl), fun hfree => ?_, fun _ => ?_⟩
    · rw [hg] at hfree
      cases hfree
    · exact h.top (.intro hm hle hk) rfl rfl
  · rename_i hg
    simp only [Option.ite_none_right_eq_some, Option.some.injEq] at hflow
    obtain ⟨hoff, rfl⟩ := hflow
    have hflag := Mode.off_flag hm hoff
    refine ⟨hP.frameOk (by rw [hg]; exact ⟨hflag, hflag⟩), fun hfree => ?_, fun _ => ?_⟩
    · rw [hg] at hfree
      cases hfree
    · exact h.top (.intro hm hle hk) rfl rfl
  · cases hflow

/-- An interrupt finds the flag set and leaves it set. -/
theorem StackOk.interrupt (hP : P.Checked) (h : P.StackOk true rest) :
    P.StackOk false (⟨P.handler, [P.body P.handler], true, true⟩ :: rest) := by
  refine ⟨hP.frameOk ?_, fun hfree => ?_, fun _ => h⟩
  · rw [hP.handler]
    exact ⟨rfl, rfl⟩
  · rw [hP.handler] at hfree
    cases hfree

/-- The processor leaves a task only with the flag cleared. -/
theorem StackOk.switch (h : P.StackOk flag (⟨f, .switch :: k, saved, entry⟩ :: rest)) :
    flag = false ∧ P.StackOk false (⟨f, k, saved, entry⟩ :: rest) := by
  obtain ⟨m, n, n', hm, hflow, hle, hk⟩ := h.1.cons
  simp only [Code.flow, Option.ite_none_right_eq_some, Option.some.injEq] at hflow
  obtain ⟨hoff, rfl⟩ := hflow
  have hflag := Mode.off_flag hm hoff
  subst hflag
  exact ⟨rfl, h.top (.intro hm hle hk) rfl rfl⟩

/-- Nothing is known or forgotten where tasks come and go. -/
theorem StackOk.pass (h : P.StackOk flag (⟨f, c :: k, saved, entry⟩ :: rest)) (hc : ∀ m, c.flow P.pre m = some m) :
    P.StackOk flag (⟨f, k, saved, entry⟩ :: rest) := by
  obtain ⟨m, n, n', hm, hflow, hle, hk⟩ := h.1.cons
  cases (hc m).symm.trans hflow
  exact h.top (.intro hm hle hk) rfl rfl

/-- A new task begins with the flag cleared. -/
theorem Checked.fresh (hP : P.Checked) :
    P.StackOk false [⟨P.trampoline, [P.body P.trampoline], false, false⟩] := by
  refine ⟨hP.frameOk ?_, fun _ _ => trivial, fun _ => trivial⟩
  rw [hP.trampoline]
  rfl

/-- **Every step keeps the invariant.** -/
theorem Ok.step (hP : P.Checked) (h : P.Ok s) (hs : P.Step s e s') : P.Ok s' := by
  have hcurrent := h.current
  have hothers : ∀ frames t, t ≠ s.current → P.StackOk false ((s.setStack s.current frames).stack t) := by
    intro frames t ht
    rw [Processor.setStack_other ht]
    exact h.others t ht
  have hsame : ∀ flag frames, P.StackOk flag frames →
      P.StackOk flag ((s.setStack s.current frames).stack s.current) := by
    intro flag frames hframes
    rw [Processor.setStack_self]
    exact hframes
  cases hs with
  | @run fr rest flag fr' htop hr =>
    rw [htop] at hcurrent
    obtain ⟨hfn, hentry⟩ := runs_same hr
    exact ⟨hsame _ _ (hcurrent.top (hcurrent.1.runs hr) hfn hentry), hothers _⟩
  | call htop =>
    rw [htop] at hcurrent
    exact ⟨hsame _ _ (hcurrent.call hP), hothers _⟩
  | ret htop =>
    rw [htop] at hcurrent
    exact ⟨hsame _ _ hcurrent.ret, hothers _⟩
  | interrupt hflag =>
    rw [hflag] at hcurrent
    exact ⟨hsame _ _ (hcurrent.interrupt hP), hothers _⟩
  | @switch f k saved entry rest u htop hu hlive =>
    rw [htop] at hcurrent
    obtain ⟨hflag, hwaits⟩ := hcurrent.switch
    refine ⟨?_, fun t ht => ?_⟩
    · show P.StackOk s.flag _
      rw [hflag]
      exact hothers _ u hu
    · by_cases hts : t = s.current
      · subst hts
        exact hsame _ _ hwaits
      · exact hothers _ t hts
  | @spawn f k saved entry rest u htop hu =>
    have hne : s.current ≠ u := by
      rintro rfl
      rw [hu] at htop
      cases htop
    rw [htop] at hcurrent
    refine ⟨?_, fun t ht => ?_⟩
    · show P.StackOk s.flag (((s.setStack s.current _).setStack u _).stack s.current)
      rw [Processor.setStack_other hne]
      exact hsame _ _ (hcurrent.pass fun _ => rfl)
    · show P.StackOk false (((s.setStack s.current _).setStack u _).stack t)
      by_cases htu : t = u
      · rw [htu, Processor.setStack_self]
        exact hP.fresh
      · rw [Processor.setStack_other htu]
        exact hothers _ t ht
  | retire htop =>
    rw [htop] at hcurrent
    exact ⟨hsame _ _ (hcurrent.pass fun _ => rfl), hothers _⟩

theorem ok_reachable (hP : P.Checked) (h : P.system.Reachable s) : P.Ok s := by
  refine System.invariant (P := P.Ok) (fun s hs => ?_) (fun s e s' hok hstep => hok.step hP hstep) h
  obtain ⟨hboot, hothers, _⟩ := hs
  refine ⟨?_, fun t ht => ?_⟩
  · rw [hboot]
    refine ⟨hP.frameOk ?_, fun _ _ => trivial, fun _ => trivial⟩
    rw [hP.boot]
    trivial
  · rw [hothers t ht]
    trivial

/-! ### What the rules give -/

/-- The innermost call and the piece of code that it runs next. -/
theorem next_frame (h : s.next = some c) :
    ∃ f k saved entry rest, s.stack s.current = ⟨f, c :: k, saved, entry⟩ :: rest := by
  unfold Processor.next at h
  cases hstack : s.stack s.current with
  | nil =>
    rw [hstack] at h
    cases h
  | cons fr rest =>
    rw [hstack] at h
    obtain ⟨f, code, saved, entry⟩ := fr
    cases code with
    | nil => cases h
    | cons c' k =>
      cases h
      exact ⟨f, k, saved, entry, rest, rfl⟩

/-- **Shared variables** are touched only with the flag cleared. -/
theorem Checked.touches (hP : P.Checked) (h : P.system.Reachable s) {v : V} (hv : s.next = some (.touch v)) :
    s.flag = false := by
  obtain ⟨f, k, saved, entry, rest, hstack⟩ := next_frame hv
  have hok := (ok_reachable hP h).current
  rw [hstack] at hok
  obtain ⟨m, n, n', hm, hflow, _⟩ := hok.1.cons
  simp only [Code.flow, Option.ite_none_right_eq_some] at hflow
  exact Mode.off_flag hm hflow.1

/-- **A call returns** with the flag as it was when it was made, unless it is free not to. -/
theorem Checked.returns (hP : P.Checked) (h : P.system.Reachable s) (hf : s.Returns f entry)
    (hne : P.pre f ≠ .free) : s.flag = entry := by
  obtain ⟨saved, rest, hstack⟩ := hf
  have hok := (ok_reachable hP h).current
  rw [hstack] at hok
  exact hok.1.ret hne

/-- **Code of the tasks' own** is entered with the flag set. -/
theorem Checked.enters (hP : P.Checked) (h : P.system.Reachable s) (hf : s.next = some (.call f))
    (hfree : P.pre f = .free) : s.flag = true := by
  obtain ⟨_, k, saved, entry, rest, hstack⟩ := next_frame hf
  have hok := (ok_reachable hP h).current
  rw [hstack] at hok
  obtain ⟨m, n, n', hm, hflow, _⟩ := hok.1.cons
  simp only [Code.flow, hfree, Option.ite_none_right_eq_some] at hflow
  rw [hflow.1] at hm
  exact hm

/-! ### Playing a run -/

/-- What happens next, where that is open. -/
inductive Move where
  /-- The current task goes on, where it cannot go but one way. -/
  | go
  | left
  | right
  | again
  | done
  | interrupt
  | switch (t : Nat)
  | spawn (t : Nat)

/-- A move of the innermost call on its own. -/
def moveFrame (flag : Bool) : Frame V F → Move → Option (Bool × Frame V F)
  | ⟨f, c :: k, saved, entry⟩, move =>
    match c, move with
    | .skip, .go | .touch _, .go => some (flag, ⟨f, k, saved, entry⟩)
    | .save, .go => some (false, ⟨f, k, flag, entry⟩)
    | .restore, .go => some (saved, ⟨f, k, saved, entry⟩)
    | .clear, .go => some (false, ⟨f, k, saved, entry⟩)
    | .set, .go => some (true, ⟨f, k, saved, entry⟩)
    | .seq a b, .go => some (flag, ⟨f, a :: b :: k, saved, entry⟩)
    | .either a _, .left => some (flag, ⟨f, a :: k, saved, entry⟩)
    | .either _ b, .right => some (flag, ⟨f, b :: k, saved, entry⟩)
    | .loop a, .again => some (flag, ⟨f, a :: .loop a :: k, saved, entry⟩)
    | .loop _, .done => some (flag, ⟨f, k, saved, entry⟩)
    | _, _ => none
  | ⟨_, [], _, _⟩, _ => none

/-- The processor after a move; it stays as it is where the move cannot be made. -/
def move (P : Program V F) (s : Processor V F) (mv : Move) : Processor V F :=
  match s.stack s.current, mv with
  | frames, .interrupt =>
    if s.flag then
      {s.setStack s.current (⟨P.handler, [P.body P.handler], true, true⟩ :: frames) with flag := false}
    else s
  | ⟨f, .call g :: k, saved, entry⟩ :: rest, .go =>
    s.setStack s.current (⟨g, [P.body g], false, s.flag⟩ :: ⟨f, k, saved, entry⟩ :: rest)
  | ⟨_, [], _, _⟩ :: fr :: rest, .go => s.setStack s.current (fr :: rest)
  | ⟨f, .retire :: k, saved, entry⟩ :: rest, .go =>
    {s.setStack s.current (⟨f, k, saved, entry⟩ :: rest) with live := Function.update s.live s.current false}
  | ⟨f, .switch :: k, saved, entry⟩ :: rest, .switch t =>
    if t ≠ s.current ∧ s.live t = true then
      {s.setStack s.current (⟨f, k, saved, entry⟩ :: rest) with current := t}
    else s
  | ⟨f, .spawn :: k, saved, entry⟩ :: rest, .spawn t =>
    if (s.stack t).isEmpty then
      {(s.setStack s.current (⟨f, k, saved, entry⟩ :: rest)).setStack t
        [⟨P.trampoline, [P.body P.trampoline], false, false⟩] with live := Function.update s.live t true}
    else s
  | fr :: rest, mv =>
    match moveFrame s.flag fr mv with
    | some (flag, fr') => {s.setStack s.current (fr' :: rest) with flag := flag}
    | none => s
  | [], _ => s

/-- The processor after some moves. -/
def play (P : Program V F) (s : Processor V F) (moves : List Move) : Processor V F := moves.foldl P.move s

theorem moveFrame_runs {mv : Move} (h : moveFrame flag fr mv = some (flag', fr')) : Runs flag fr flag' fr' := by
  obtain ⟨f, code, saved, entry⟩ := fr
  cases code with
  | nil => cases h
  | cons c k => cases c <;> cases mv <;> cases h <;> constructor

/-- A move is a step, or nothing. -/
theorem move_step (s : Processor V F) (mv : Move) : P.move s mv = s ∨ ∃ e, P.Step s e (P.move s mv) := by
  unfold move
  split
  · split
    · exact .inr ⟨_, .interrupt ‹_›⟩
    · exact .inl rfl
  · exact .inr ⟨_, .call ‹_›⟩
  · exact .inr ⟨_, .ret ‹_›⟩
  · exact .inr ⟨_, .retire ‹_›⟩
  · split
    · rename_i hok
      exact .inr ⟨_, .switch ‹_› hok.1 hok.2⟩
    · exact .inl rfl
  · split
    · rename_i hempty
      exact .inr ⟨_, .spawn ‹_› (List.isEmpty_iff.mp hempty)⟩
    · exact .inl rfl
  · split
    · rename_i hmove
      exact .inr ⟨_, .run ‹_› (moveFrame_runs hmove)⟩
    · exact .inl rfl
  · exact .inl rfl

/-- Whatever the moves are, they lead to a reachable state. -/
theorem play_reachable (h : P.system.Reachable s) (moves : List Move) : P.system.Reachable (P.play s moves) := by
  induction moves generalizing s with
  | nil => exact h
  | cons mv moves ih =>
    refine ih ?_
    rcases move_step (P := P) s mv with hsame | ⟨e, hstep⟩
    · rwa [hsame]
    · exact h.step hstep

end Program

end ArcMonark.Library
