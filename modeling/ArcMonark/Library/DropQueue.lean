import Mathlib.Data.List.Basic
import Mathlib.Data.List.Range
import Mathlib.Data.List.ReduceOption

/-! Queues that drop the oldest item when they are full.

`DropQueue` is the abstract queue. What it delivers is told by numbering the items
in the order in which they are pushed: the queue always holds the latest ones
(`numbered`), so it delivers increasing numbers, and an item that is neither delivered
nor pending has been pushed out by as many later ones as the queue holds
(`delivered_numbers`). -/
namespace ArcMonark.Library.DropQueue

inductive Call (α : Type) where
  | push (x : α)
  | poll
  deriving DecidableEq

variable {α β : Type} {capacity : Nat}

/-- Appends, after dropping the oldest item of a full queue. -/
def push (capacity : Nat) (xs : List α) (x : α) : List α :=
  if xs.length = capacity then xs.tail ++ [x] else xs ++ [x]

/-- The queue after a call. -/
def step (capacity : Nat) (xs : List α) : Call α → List α
  | .push x => push capacity xs x
  | .poll => xs.tail

/-- What a call delivers. -/
def delivers (xs : List α) : Call α → Option α
  | .push _ => none
  | .poll => xs.head?

/-- The queue after some calls. -/
def run (capacity : Nat) (xs : List α) (calls : List (Call α)) : List α := calls.foldl (step capacity) xs

/-- What they deliver, in order. -/
def delivered (capacity : Nat) (xs : List α) : List (Call α) → List α
  | [] => []
  | call :: calls => (delivers xs call).toList ++ delivered capacity (step capacity xs call) calls

/-- What each poll answers. -/
def answers (capacity : Nat) (xs : List α) : List (Call α) → List (Option α)
  | [] => []
  | .push x :: calls => answers capacity (push capacity xs x) calls
  | .poll :: calls => xs.head? :: answers capacity xs.tail calls

theorem answers_delivered (xs : List α) (calls : List (Call α)) :
    (answers capacity xs calls).reduceOption = delivered capacity xs calls := by
  induction calls generalizing xs with
  | nil => rfl
  | cons call calls ih =>
    cases call with
    | push x => exact ih _
    | poll => cases xs <;> simp [answers, delivered, delivers, step, ih, List.reduceOption_cons_of_some,
        List.reduceOption_cons_of_none]

def pushed : List (Call α) → List α
  | [] => []
  | .push x :: calls => x :: pushed calls
  | .poll :: calls => pushed calls

theorem run_snoc (xs : List α) (calls : List (Call α)) (call : Call α) :
    run capacity xs (calls ++ [call]) = step capacity (run capacity xs calls) call := by
  simp [run]

theorem delivered_snoc (xs : List α) (calls : List (Call α)) (call : Call α) :
    delivered capacity xs (calls ++ [call]) =
      delivered capacity xs calls ++ (delivers (run capacity xs calls) call).toList := by
  induction calls generalizing xs with
  | nil => simp [delivered, run]
  | cons c calls ih =>
    rw [List.cons_append, delivered, delivered, ih, List.append_assoc]
    rfl

theorem pushed_snoc (calls : List (Call α)) (call : Call α) :
    pushed (calls ++ [call]) = pushed calls ++ pushed [call] := by
  induction calls with
  | nil => rfl
  | cons c calls ih => cases c <;> simp [pushed, ih]

/-- Whatever is queued or delivered was pushed. -/
theorem mem_pushed {calls : List (Call α)} {xs : List α} {x : α}
    (h : x ∈ run capacity xs calls ∨ x ∈ delivered capacity xs calls) : x ∈ xs ∨ x ∈ pushed calls := by
  induction calls generalizing xs with
  | nil => exact .inl (h.resolve_right List.not_mem_nil)
  | cons call calls ih =>
    rw [delivered, List.mem_append, or_left_comm] at h
    rcases h with hhead | hrest
    · cases call with
      | push y => cases hhead
      | poll => exact .inl (List.mem_of_mem_head? (Option.mem_toList.mp hhead))
    · have hcases := ih hrest
      cases call with
      | push y =>
        rcases hcases with hmem | hmem
        · change x ∈ push capacity xs y at hmem
          unfold push at hmem
          split at hmem
          · rcases List.mem_append.mp hmem with hold | hnew
            · exact .inl (List.mem_of_mem_tail hold)
            · exact .inr (List.mem_singleton.mp hnew ▸ List.mem_cons_self)
          · rcases List.mem_append.mp hmem with hold | hnew
            · exact .inl hold
            · exact .inr (List.mem_singleton.mp hnew ▸ List.mem_cons_self)
        · exact .inr (List.mem_cons_of_mem _ hmem)
      | poll => exact hcases.imp_left List.mem_of_mem_tail

/-! ### The queue does not look at its items -/

def Call.map (f : α → β) : Call α → Call β
  | .push x => .push (f x)
  | .poll => .poll

theorem step_map (f : α → β) (xs : List α) (call : Call α) :
    step capacity (xs.map f) (call.map f) = (step capacity xs call).map f := by
  cases call with
  | push x =>
    simp only [Call.map, step, push, List.length_map]
    split <;> simp
  | poll => simp [Call.map, step]

theorem run_map (f : α → β) (xs : List α) (calls : List (Call α)) :
    run capacity (xs.map f) (calls.map (Call.map f)) = (run capacity xs calls).map f := by
  induction calls generalizing xs with
  | nil => rfl
  | cons call calls ih =>
    show run capacity (step capacity (xs.map f) (call.map f)) (calls.map (Call.map f)) = _
    rw [step_map, ih]
    rfl

theorem delivered_map (f : α → β) (xs : List α) (calls : List (Call α)) :
    delivered capacity (xs.map f) (calls.map (Call.map f)) = (delivered capacity xs calls).map f := by
  induction calls generalizing xs with
  | nil => rfl
  | cons call calls ih =>
    rw [List.map_cons, delivered, delivered, step_map, ih, List.map_append]
    congr 1
    cases call with
    | push x => rfl
    | poll => cases xs <;> rfl

/-! ### Numbers -/

/-- The same calls, each item with its number, from `n` on. -/
def number (n : Nat) : List (Call α) → List (Call (Nat × α))
  | [] => []
  | .push x :: calls => .push (n, x) :: number (n + 1) calls
  | .poll :: calls => .poll :: number n calls

theorem number_snd (n : Nat) (calls : List (Call α)) : (number n calls).map (Call.map Prod.snd) = calls := by
  induction calls generalizing n with
  | nil => rfl
  | cons call calls ih => cases call <;> simp [number, Call.map, ih]

theorem mem_number {n : Nat} {calls : List (Call α)} {a : Nat × α} (h : a ∈ pushed (number n calls)) :
    n ≤ a.1 ∧ (pushed calls)[a.1 - n]? = some a.2 := by
  induction calls generalizing n with
  | nil => cases h
  | cons call calls ih =>
    cases call with
    | push x =>
      rcases List.mem_cons.mp h with rfl | h
      · exact ⟨Nat.le_refl n, by simp [pushed]⟩
      · obtain ⟨hle, hget⟩ := ih h
        obtain ⟨k, hk⟩ := Nat.exists_eq_add_of_lt hle
        refine ⟨by omega, ?_⟩
        rw [hk] at hget ⊢
        rw [show n + k + 1 - n = k + 1 by omega]
        rw [show n + k + 1 - (n + 1) = k by omega] at hget
        exact hget
    | poll => exact ih h

/-- A queue of numbers, of which `n` were pushed, and what it has delivered: the queue
holds the latest ones, and what is missing was pushed out. -/
structure Numbered (capacity n : Nat) (queue out : List Nat) : Prop where
  short : queue.length ≤ capacity
  le : queue.length ≤ n
  latest : queue = List.range' (n - queue.length) queue.length
  increasing : out.Pairwise (· < ·)
  before : ∀ j ∈ out, j < n - queue.length
  lost : ∀ j, j < n - queue.length → j ∉ out → j + capacity < n

theorem Numbered.push {n : Nat} {queue out : List Nat} (h : Numbered capacity n queue out)
    (hpos : 0 < capacity) : Numbered capacity (n + 1) (push capacity queue n) out := by
  have hshort := h.short
  have hle := h.le
  unfold DropQueue.push
  split
  · rename_i hfull
    have hlen : (queue.tail ++ [n]).length = queue.length := by
      rw [List.length_append, List.length_tail, List.length_singleton]
      omega
    refine ⟨by omega, by omega, ?_, h.increasing, fun j hj => ?_, fun j hj hout => ?_⟩
    · rw [hlen]
      have hlatest := h.latest
      obtain ⟨k, hk⟩ := Nat.exists_eq_succ_of_ne_zero (show queue.length ≠ 0 by omega)
      rw [hk] at hlatest ⊢
      rw [hlatest, List.range'_succ, List.tail_cons, List.range'_1_concat]
      congr 2 <;> omega
    · have hbefore := h.before j hj
      omega
    · rw [hlen] at hj
      by_cases hold : j < n - queue.length
      · have hlost := h.lost j hold hout
        omega
      · omega
  · have hlen : (queue ++ [n]).length = queue.length + 1 := by simp
    refine ⟨by omega, by omega, ?_, h.increasing, fun j hj => ?_, fun j hj hout => ?_⟩
    · rw [hlen, List.range'_1_concat, show n + 1 - (queue.length + 1) = n - queue.length by omega, ← h.latest]
      congr 2
      omega
    · have hbefore := h.before j hj
      omega
    · have hlost := h.lost j (by omega) hout
      omega

theorem Numbered.poll {n : Nat} {queue out : List Nat} (h : Numbered capacity n queue out) :
    Numbered capacity n queue.tail (out ++ queue.head?.toList) := by
  cases queue with
  | nil => simpa using h
  | cons x queue =>
    have hshort := h.short
    have hle := h.le
    have hlatest := h.latest
    rw [List.length_cons] at hshort hle
    rw [List.length_cons, List.range'_succ] at hlatest
    obtain ⟨hx, hqueue⟩ := List.cons.inj hlatest
    have hbefore := h.before
    rw [List.length_cons] at hbefore
    refine ⟨by simp; omega, by simp; omega, ?_, ?_, fun j hj => ?_, fun j hj hout => ?_⟩
    · rw [List.tail_cons]
      rw [hqueue, List.length_range']
      congr 1
      omega
    · refine List.pairwise_append.mpr ⟨h.increasing, List.pairwise_singleton _ _, fun j hj i hi => ?_⟩
      have hj := hbefore j hj
      have hi : i = x := by simpa using hi
      omega
    · rw [List.tail_cons]
      rcases List.mem_append.mp hj with hj | hj
      · have hj := hbefore j hj
        omega
      · have hj : j = x := by simpa using hj
        omega
    · rw [List.tail_cons] at hj
      have hne : j ≠ x ∧ j ∉ out := by simpa [and_comm] using hout
      have hlost := h.lost j (by rw [List.length_cons]; omega) hne.2
      exact hlost

/-- The numbers that some calls deliver. -/
def deliveredNumbers (capacity : Nat) (calls : List (Call α)) : List Nat :=
  (delivered capacity [] (number 0 calls)).map Prod.fst

theorem number_snoc (n : Nat) (calls : List (Call α)) (call : Call α) :
    number n (calls ++ [call]) = number n calls ++ number (n + (pushed calls).length) [call] := by
  induction calls generalizing n with
  | nil => rfl
  | cons c calls ih =>
    cases c with
    | push x => simp [number, pushed, ih, Nat.add_assoc, Nat.add_comm 1]
    | poll => simp [number, pushed, ih]

/-- Every call keeps the queue of numbers as it should be. -/
theorem numbered (hpos : 0 < capacity) (calls : List (Call α)) :
    Numbered capacity (pushed calls).length ((run capacity [] (number 0 calls)).map Prod.fst)
      (deliveredNumbers capacity calls) := by
  induction calls using List.reverseRecOn with
  | nil => exact ⟨Nat.zero_le _, Nat.le_refl _, rfl, .nil, nofun, nofun⟩
  | append_singleton calls call ih =>
    unfold deliveredNumbers at ih ⊢
    rw [number_snoc, Nat.zero_add, pushed_snoc]
    cases call with
    | push x =>
      rw [number, number, run_snoc, delivered_snoc, ← step_map]
      simpa [pushed, delivers, Call.map, step] using ih.push hpos
    | poll =>
      rw [number, number, run_snoc, delivered_snoc, ← step_map]
      have hhead : ∀ o : Option (Nat × α), o.toList.map Prod.fst = (o.map Prod.fst).toList := by
        rintro (_ | a) <;> rfl
      simpa [pushed, delivers, Call.map, step, List.head?_map, hhead] using ih.poll

/-- **What the queue delivers**, item for item: the numbers increase, so that each item
is delivered once and in order; an item that is neither delivered nor pending was
pushed out by later ones. -/
theorem delivered_numbers (hpos : 0 < capacity) (calls : List (Call α)) :
    (deliveredNumbers capacity calls).Pairwise (· < ·) ∧
    (deliveredNumbers capacity calls).map (fun j => (pushed calls)[j]?) =
      (delivered capacity [] calls).map some ∧
    ∀ j, j < (pushed calls).length → j ∉ deliveredNumbers capacity calls →
      (pushed calls).length ≤ j + (run capacity [] calls).length ∨ j + capacity < (pushed calls).length := by
  have hnumbered := numbered hpos calls
  have hrun := @run_map _ _ capacity Prod.snd [] (number 0 calls)
  have hdelivered := @delivered_map _ _ capacity Prod.snd [] (number 0 calls)
  rw [number_snd, List.map_nil] at hrun hdelivered
  refine ⟨hnumbered.increasing, ?_, fun j hj hnot => ?_⟩
  · rw [hdelivered, deliveredNumbers, List.map_map, List.map_map]
    refine List.map_congr_left fun a ha => ?_
    have hmem := (mem_pushed (.inr ha)).resolve_left List.not_mem_nil
    exact (mem_number hmem).2
  · rw [hrun, List.length_map]
    by_cases hlt : j < (pushed calls).length - (run capacity [] (number 0 calls)).length
    · exact .inr (hnumbered.lost j (by simpa using hlt) hnot)
    · exact .inl (by omega)

end ArcMonark.Library.DropQueue
