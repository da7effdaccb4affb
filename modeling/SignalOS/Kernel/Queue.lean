import SignalOS.Kernel.State
import SignalOS.Lib.Runs
import Mathlib.Data.List.ReduceOption

/-!
# The task queue

`struct queue` of `queue.c`, which the kernel's state has as a list.

* `initQueue`, `pushQueue`, `popQueue` — the queue in its array.
* `Queue.Holds q l` — **the array holds the list `l`**; the operations keep it.
* `queue_fifo` — **every run of pushes and pops is that of a FIFO list**.
* `pushQueue_refines`, `popQueue_refines` — the list of the kernel's state.
-/

namespace SignalOS

open Runs

variable {α : Type}

/-- `struct queue`; `NULL` is `none`.  The array has `QUEUE_SIZE` elements, and the indices stay
below `NPROC`. -/
structure Queue (α : Type) where
  data : Nat → Option α
  front : Nat
  tail : Nat
  empty : Bool

def QUEUE_SIZE : Nat := 1024

/-- `init_queue(q)`. -/
def initQueue (q : Queue α) : Queue α := { q with front := 0, tail := 0, empty := true }

/-- `push_queue(q, data)`, of a pointer to an object; `none` is the panic. -/
def pushQueue (q : Queue α) (data : α) : Option (Queue α) :=
  if !q.empty ∧ q.front = q.tail then none
  else some { q with
    empty := false
    data := Function.update q.data q.tail (some data)
    tail := (q.tail + 1) % NPROC }

/-- `pop_queue(q)`: its result, and the queue after it. -/
def popQueue (q : Queue α) : Option α × Queue α :=
  if q.empty then (none, q)
  else
    let front := (q.front + 1) % NPROC
    (q.data q.front, { q with front := front, empty := if front = q.tail then true else q.empty })

/-! ## The list in the array -/

/-- The array holds the list, from `front` on. -/
structure Queue.Holds (q : Queue α) (l : List α) : Prop where
  front : q.front < NPROC
  tail : q.tail = (q.front + l.length) % NPROC
  empty : q.empty = true ↔ l = []
  le : l.length ≤ NPROC
  data : ∀ i (h : i < l.length), q.data ((q.front + i) % NPROC) = some l[i]

section Holds

variable {q q' : Queue α} {l : List α} {x : α}

theorem initQueue_holds (q : Queue α) : (initQueue q).Holds [] :=
  ⟨(by decide : 0 < NPROC), rfl, iff_of_true rfl rfl, Nat.zero_le _,
    fun _ h => absurd h (Nat.not_lt_zero _)⟩

theorem Queue.Holds.tail_lt (h : q.Holds l) : q.tail < NPROC := by
  rw [h.tail]
  exact Nat.mod_lt _ (by decide)

/-- The indices are those of elements of the array. -/
theorem Queue.Holds.in_array (h : q.Holds l) : q.front < QUEUE_SIZE ∧ q.tail < QUEUE_SIZE := by
  have hle : NPROC ≤ QUEUE_SIZE := by decide
  exact ⟨h.front.trans_le hle, h.tail_lt.trans_le hle⟩

/-- `front` and `tail` are equal when the array is full, and when it is empty. -/
theorem Queue.Holds.front_eq_tail (h : q.Holds l) :
    q.front = q.tail ↔ l.length = 0 ∨ l.length = NPROC := by
  have hfront : q.front < 512 := h.front
  have htail : q.tail = (q.front + l.length) % 512 := h.tail
  have hle : l.length ≤ 512 := h.le
  show _ ↔ l.length = 0 ∨ l.length = 512
  omega

/-- **A push panics exactly if the array is full.** -/
theorem pushQueue_eq_none (h : q.Holds l) : pushQueue q x = none ↔ l.length = NPROC := by
  have hempty : (!q.empty) = true ↔ l.length ≠ 0 := by
    rw [Bool.not_eq_true', Bool.eq_false_iff, ne_eq, h.empty, ne_eq, List.length_eq_zero_iff]
  rw [pushQueue]
  split
  · rename_i hfull
    refine iff_of_true rfl ?_
    rw [hempty, h.front_eq_tail] at hfull
    exact hfull.2.resolve_left hfull.1
  · rename_i hroom
    refine iff_of_false (by simp) fun hfull => hroom ?_
    rw [hempty, h.front_eq_tail]
    have hnproc : NPROC = 512 := rfl
    exact ⟨by rw [hfull, hnproc]; decide, .inr hfull⟩

/-- A push appends to the list. -/
theorem pushQueue_holds (h : q.Holds l) (hpush : pushQueue q x = some q') :
    q'.Holds (l ++ [x]) := by
  have hroom : l.length ≠ 512 := fun hfull => by
    rw [(pushQueue_eq_none h).2 hfull] at hpush
    cases hpush
  have hfront : q.front < 512 := h.front
  have htail : q.tail = (q.front + l.length) % 512 := h.tail
  have hle : l.length ≤ 512 := h.le
  rw [pushQueue] at hpush
  split at hpush
  · cases hpush
  · cases hpush
    refine ⟨hfront, ?_, iff_of_false (by simp) (by simp), ?_, fun i hi => ?_⟩
    · rw [List.length_append, List.length_singleton]
      show (q.tail + 1) % 512 = (q.front + (l.length + 1)) % 512
      omega
    · rw [List.length_append, List.length_singleton]
      show l.length + 1 ≤ 512
      omega
    · show Function.update q.data q.tail (some x) ((q.front + i) % 512) = _
      rw [List.length_append, List.length_singleton] at hi
      by_cases hlast : i = l.length
      · subst hlast
        rw [← htail, Function.update_self, List.getElem_concat_length rfl]
      · have hne : (q.front + i) % 512 ≠ q.tail := by omega
        rw [Function.update_of_ne hne, List.getElem_append_left (by omega)]
        exact h.data i (by omega)

/-- **A pop returns the first element of the list.** -/
theorem popQueue_result (h : q.Holds l) : (popQueue q).1 = l.head? := by
  rw [popQueue]
  split
  · rename_i hempty
    rw [h.empty.1 hempty]
    rfl
  · rename_i hempty
    cases l with
    | nil => exact absurd (h.empty.2 rfl) hempty
    | cons x l =>
      have hdata := h.data 0 (Nat.succ_pos _)
      rw [Nat.add_zero, Nat.mod_eq_of_lt h.front] at hdata
      exact hdata

/-- A pop removes it. -/
theorem popQueue_holds (h : q.Holds l) : (popQueue q).2.Holds l.tail := by
  have hfront : q.front < 512 := h.front
  have htail : q.tail = (q.front + l.length) % 512 := h.tail
  have hle : l.length ≤ 512 := h.le
  rw [popQueue]
  split
  · rename_i hempty
    obtain rfl := h.empty.1 hempty
    exact h
  · rename_i hempty
    cases l with
    | nil => exact absurd (h.empty.2 rfl) hempty
    | cons x l =>
      rw [List.length_cons] at htail hle
      rw [List.tail_cons]
      refine ⟨Nat.mod_lt _ (by decide), ?_, ?_, (Nat.le_succ _).trans hle, fun i hi => ?_⟩
      · show q.tail = ((q.front + 1) % 512 + l.length) % 512
        omega
      · show (if (q.front + 1) % 512 = q.tail then true else q.empty) = true ↔ l = []
        rw [← List.length_eq_zero_iff]
        split
        · exact iff_of_true rfl (by omega)
        · exact iff_of_false hempty (by omega)
      · have hdata := h.data (i + 1) (by rw [List.length_cons]; omega)
        have hindex : (q.front + (i + 1)) % 512 = ((q.front + 1) % 512 + i) % 512 := by omega
        show q.data (((q.front + 1) % 512 + i) % 512) = _
        rw [← hindex]
        exact hdata

end Holds

/-! ## Runs -/

/-- A call of one of the operations. -/
inductive QueueOp (α : Type) where
  | push (data : α)
  | pop

/-- A call; with the queue goes what the pops have returned so far. -/
def queueStep (s : Queue α × List (Option α)) : QueueOp α → Option (Queue α × List (Option α))
  | .push data => (pushQueue s.1 data).map fun q => (q, s.2)
  | .pop => some ((popQueue s.1).2, s.2 ++ [(popQueue s.1).1])

/-- What was pushed, in order. -/
def pushed (ops : List (QueueOp α)) : List α :=
  ops.filterMap fun | .push data => some data | .pop => none

/-- What successful pops returned, in order. -/
def popped (results : List (Option α)) : List α := results.reduceOption

/-- The queue after these calls and results is a FIFO queue of `NPROC` places. -/
structure Fifo (ops : List (QueueOp α)) (q : Queue α) (results : List (Option α)) : Prop where
  /-- What came out is what went in first. -/
  order : popped results <+: pushed ops
  /-- What comes out next is what went in next. -/
  next : (popQueue q).1 = (pushed ops)[(popped results).length]?
  null : (popQueue q).1 = none ↔ (pushed ops).length = (popped results).length
  panics : ∀ data, pushQueue q data = none ↔ (pushed ops).length = (popped results).length + NPROC
  front : q.front < NPROC
  tail : q.tail < NPROC

/-- **One call**: what was pushed is what was popped and what the array holds. -/
theorem queueStep_holds {ops : List (QueueOp α)} {s s' : Queue α × List (Option α)}
    {op : QueueOp α} {l : List α}
    (h : s.1.Holds l) (hpushed : pushed ops = popped s.2 ++ l) (hstep : queueStep s op = some s') :
    ∃ l', s'.1.Holds l' ∧ pushed (ops ++ [op]) = popped s'.2 ++ l' := by
  have happend (op : QueueOp α) : pushed (ops ++ [op]) = pushed ops ++ pushed [op] :=
    List.filterMap_append ..
  cases op with
  | push data =>
    obtain ⟨q', hpush, rfl⟩ := Option.map_eq_some_iff.1 hstep
    refine ⟨l ++ [data], pushQueue_holds h hpush, ?_⟩
    rw [happend, hpushed, List.append_assoc]
    rfl
  | pop =>
    cases hstep
    refine ⟨l.tail, popQueue_holds h, ?_⟩
    have hresults : popped (s.2 ++ [(popQueue s.1).1]) = popped s.2 ++ l.head?.toList := by
      rw [popped, List.reduceOption_append, popQueue_result h]
      cases l <;> rfl
    rw [happend, hpushed]
    show popped s.2 ++ l ++ [] = popped (s.2 ++ [(popQueue s.1).1]) ++ l.tail
    rw [hresults]
    cases l <;> simp

/-- **Every run of pushes and pops is that of a FIFO list.** -/
theorem queue_fifo {q₀ q : Queue α} {ops : List (QueueOp α)} {results : List (Option α)}
    (h : run queueStep (initQueue q₀, []) ops = some (q, results)) : Fifo ops q results := by
  have hinv : ∃ l, (q, results).1.Holds l ∧ pushed ops = popped (q, results).2 ++ l :=
    run_induct_history (I := fun ops s => ∃ l, s.1.Holds l ∧ pushed ops = popped s.2 ++ l)
      (fun ops t op u _ ⟨l, hl, hpushed⟩ _ hstep => queueStep_holds hl hpushed hstep)
      ⟨[], initQueue_holds q₀, rfl⟩ h along_true
  obtain ⟨l, hl, hpushed⟩ := hinv
  dsimp only at hl hpushed
  have hlen : (pushed ops).length = (popped results).length + l.length := by
    rw [hpushed, List.length_append]
  refine ⟨?_, ?_, ?_, fun data => ?_, hl.front, hl.tail_lt⟩
  · rw [hpushed]
    exact List.prefix_append _ _
  · rw [popQueue_result hl, hpushed, List.getElem?_append_right le_rfl, Nat.sub_self,
      List.head?_eq_getElem?]
  · rw [popQueue_result hl, List.head?_eq_none_iff, ← List.length_eq_zero_iff]
    omega
  · rw [pushQueue_eq_none hl]
    omega

/-- Two pushes and three pops. -/
theorem queue_fifo_twice : ∃ q, run queueStep (initQueue ⟨fun _ => none, 7, 9, false⟩, [])
    [.push 'a', .push 'b', .pop, .pop, .pop] = some (q, [some 'a', some 'b', none]) ∧
      Fifo [.push 'a', .push 'b', .pop, .pop, .pop] q [some 'a', some 'b', none] :=
  ⟨_, rfl, queue_fifo rfl⟩

/-! ## The kernel's list -/

theorem pushQueue_refines {q : Queue Slot} {k : Kernel} {i : Slot} (h : q.Holds k.taskQueue) :
    match pushQueue q i with
    | none => k.pushQueue i = k.report .overflow
    | some q' => q'.Holds (k.pushQueue i).taskQueue := by
  cases hpush : pushQueue q i with
  | none => exact if_pos ((pushQueue_eq_none h).1 hpush)
  | some q' =>
    have hroom : k.taskQueue.length ≠ NPROC := by
      rw [ne_eq, ← pushQueue_eq_none (x := i) h, hpush]
      simp
    rw [Kernel.pushQueue, if_neg hroom]
    exact pushQueue_holds h hpush

theorem popQueue_refines {q : Queue Slot} {k : Kernel} {i : Slot} {rest : List Slot}
    (h : q.Holds k.taskQueue)
    (hlist : k.taskQueue = i :: rest) : (popQueue q).1 = some i ∧ (popQueue q).2.Holds rest := by
  rw [hlist] at h
  exact ⟨popQueue_result h, popQueue_holds h⟩

end SignalOS
