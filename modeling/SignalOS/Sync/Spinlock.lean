import SignalOS.Proc.Proc
import SignalOS.Lib.Runs
import Mathlib.Logic.Function.Basic

/-!
# Spinlocks and interrupts of several CPUs

`lock.c` and the switches of `sched.c`, for any CPUs, processes and locks.  The kernel
threads are the scheduler of each CPU and the processes.

* `Cpu.pushOff`, `Cpu.popOff`, `holding` — `push_off`, `pop_off` and `holding` on a CPU.
* `State`, `Op`, `step` — one action of the thread that a CPU runs.  `acquire` is two: up to
  its loop, and the swap that takes the lock; so is `release`: the lock becomes free, and
  `pop_off`.
* `Thread.outstanding` — the locks a thread holds and its `push_off`s, and `Thread.was`, the
  interrupts before the first of them.  No action of the kernel reads these.
* `Disciplined` — a release of a held lock, a `pop_off` of a `push_off`.
-/

namespace SignalOS.Sync

open Function (update)

/-- The panics and failed assertions of the code modelled here. -/
inductive Panic where
  | alreadyAcquired
  | release
  /-- `pop_off - interruptible`. -/
  | interruptible
  /-- `pop_off - unpair`. -/
  | unpair
  | intrOnInKernelTrap
  | nestedKernelTrap
  | notHolding
  | holdingAnotherLocks
  | schedRunning
  | schedInKernelTrap
  | notHoldingAfterSwtch
  /-- `assert(!intr_get())`. -/
  | intrOn
  /-- `assert(mycpu()->inkernel_trap == 1)`. -/
  | inKernelTrap
  deriving DecidableEq

/-! ## One CPU -/

/-- `struct cpu`, with the bit `sstatus.SIE` of its hart. -/
structure Cpu (P : Type) where
  proc : Option P
  inkernelTrap : Nat
  noff : Nat
  interruptOn : Bool
  intr : Bool
  deriving DecidableEq

/-- `push_off()`. -/
def Cpu.pushOff {P : Type} (k : Cpu P) : Cpu P :=
  let old := k.intr
  let k := { k with intr := false }
  let k := if k.noff = 0 then { k with interruptOn := old } else k
  { k with noff := k.noff + 1 }

/-- `pop_off()`. -/
def Cpu.popOff {P : Type} (k : Cpu P) : Except Panic (Cpu P) :=
  if k.intr then .error .interruptible
  else if k.noff < 1 then .error .unpair
  else
    let k := { k with noff := k.noff - 1 }
    if k.noff = 0 ∧ k.interruptOn then
      if k.inkernelTrap ≠ 0 then .error .intrOnInKernelTrap else .ok { k with intr := true }
    else .ok k

/-- `struct spinlock`. -/
structure Spinlock (C : Type) where
  locked : Bool
  cpu : Option C
  deriving DecidableEq

/-- `holding(lk)` on the CPU `c`. -/
def holding {C : Type} [DecidableEq C] (lk : Spinlock C) (c : C) : Bool :=
  lk.locked && lk.cpu = some c

/-! ## The threads -/

/-- The locks: `p->lock` of a process, and the others. -/
inductive Lock (P L : Type) where
  | proc (p : P)
  | other (lk : L)
  deriving DecidableEq

/-- The kernel threads. -/
inductive Tid (C P : Type) where
  | scheduler (c : C)
  | process (p : P)
  deriving DecidableEq

/-- Where a thread stands in `acquire` and `release`. -/
inductive Pc (L : Type) where
  | running
  /-- In the loop of `acquire(lk)`. -/
  | spinning (lk : L)
  /-- Before the `pop_off` of `release`. -/
  | released
  deriving DecidableEq

/-- A kernel thread. -/
structure Thread (L : Type) where
  pc : Pc L
  /-- The local `interrupt_on` of `sched`, while the thread is switched away; `none` if it
  starts in `first_sched_ret`. -/
  saved : Option Bool
  /-- The locks that it took and did not make free. -/
  held : List L
  /-- Its `push_off`s without a `pop_off`, but not those of the held locks. -/
  pushes : Nat
  /-- Were interrupts on just before the thread had the first of these?  `none` if it started
  with its lock held. -/
  was : Option Bool
  deriving DecidableEq

/-- How often the thread has to pop. -/
def Thread.outstanding {L : Type} (th : Thread L) : Nat := th.held.length + th.pushes

structure State (C P L : Type) where
  cpu : C → Cpu P
  lock : Lock P L → Spinlock C
  state : P → ProcState
  thread : Tid C P → Thread (Lock P L)

section

variable {C P L : Type} [DecidableEq C] [DecidableEq P] [DecidableEq L]

/-- The thread of a process that `allocproc` prepares: `first_sched_ret` releases `p->lock`. -/
def firstThread (p : P) : Thread (Lock P L) := ⟨.running, none, [.proc p], 0, none⟩

/-- All CPUs run their schedulers, and no slot is used. -/
def State.init : State C P L where
  cpu _ := ⟨none, 0, 0, false, false⟩
  lock _ := ⟨false, none⟩
  state _ := .unused
  thread
    | .scheduler _ => ⟨.running, none, [], 0, none⟩
    | .process p => firstThread p

namespace State

variable (s : State C P L) (c : C)

/-- The thread that the CPU runs. -/
def current : Tid C P :=
  match (s.cpu c).proc with
  | none => .scheduler c
  | some p => .process p

def running : Thread (Lock P L) := s.thread (s.current c)

/-- The CPU, and the record of the thread that it runs. -/
def set (k : Cpu P) (th : Thread (Lock P L)) : State C P L :=
  { s with cpu := update s.cpu c k, thread := update s.thread (s.current c) th }

def pushOff : State C P L :=
  let th := s.running c
  s.set c (s.cpu c).pushOff { th with
    pushes := th.pushes + 1
    was := if th.outstanding = 0 then some (s.cpu c).intr else th.was }

def popOff : Except Panic (State C P L) :=
  let th := s.running c
  (s.cpu c).popOff.map fun k => s.set c k { th with pc := .running, pushes := th.pushes - 1 }

/-- `acquire(lk)` up to its loop. -/
def acquire (lk : Lock P L) : Except Panic (State C P L) :=
  let s := s.pushOff c
  if holding (s.lock lk) c then .error .alreadyAcquired
  else .ok (s.set c (s.cpu c) { s.running c with pc := .spinning lk })

/-- The swap of `acquire(lk)` that found the lock free, and the rest of the function. -/
def take (lk : Lock P L) : State C P L :=
  let th := s.running c
  let s' :=
    s.set c (s.cpu c) { th with pc := .running, held := lk :: th.held, pushes := th.pushes - 1 }
  { s' with lock := update s.lock lk ⟨true, some c⟩ }

/-- `release(lk)` up to its `pop_off`. -/
def release (lk : Lock P L) : Except Panic (State C P L) :=
  if !holding (s.lock lk) c then .error .release
  else
    let th := s.running c
    let s' :=
      s.set c (s.cpu c)
        { th with pc := .released, held := th.held.erase lk, pushes := th.pushes + 1 }
    .ok { s' with lock := update s.lock lk ⟨false, none⟩ }

/-- The process `p` sets its state and calls `sched()`, which continues in `scheduler()`: what
that asserts, `sched` has checked. -/
def sched (p : P) (st : ProcState) : Except Panic (State C P L) :=
  let k := s.cpu c
  if !holding (s.lock (.proc p)) c then .error .notHolding
  else if k.noff ≠ 1 then .error .holdingAnotherLocks
  else if st = .running then .error .schedRunning
  else if k.inkernelTrap ≠ 0 then .error .schedInKernelTrap
  else if k.intr then .error .intrOn
  else .ok { s with
    cpu := update s.cpu c { k with proc := none }
    state := update s.state p st
    thread := update s.thread (.process p)
      { s.thread (.process p) with saved := some k.interruptOn } }

/-- `scheduler()` switches to `p`, which continues in `first_sched_ret` or in `sched`. -/
def swtch (p : P) : Except Panic (State C P L) :=
  let k := { s.cpu c with proc := some p }
  let s' := { s with state := update s.state p .running }
  match (s.thread (.process p)).saved with
  | none => .ok { s' with cpu := update s.cpu c k }
  | some on =>
    if !holding (s.lock (.proc p)) c then .error .notHoldingAfterSwtch
    else .ok { s' with cpu := update s.cpu c { k with interruptOn := on } }

/-- An interrupt enters `kernel_trap`. -/
def trap : Except Panic (State C P L) :=
  let k := { s.cpu c with intr := false, inkernelTrap := (s.cpu c).inkernelTrap + 1 }
  if k.inkernelTrap > 1 then .error .nestedKernelTrap else .ok (s.set c k (s.running c))

/-- The end of `kernel_trap`; the interrupted code had interrupts on. -/
def trapReturn : Except Panic (State C P L) :=
  let k := s.cpu c
  if k.intr then .error .intrOn
  else if k.inkernelTrap ≠ 1 then .error .inKernelTrap
  else .ok (s.set c { k with inkernelTrap := 0, intr := true } (s.running c))

end State

/-- What the thread of a CPU does. -/
inductive Op (P L : Type) where
  | intrOn
  | intrOff
  | trap
  | trapReturn
  | pushOff
  /-- A call of `pop_off`, or that of `release`. -/
  | popOff
  | acquire (lk : Lock P L)
  | take
  | release (lk : Lock P L)
  | sched (st : ProcState)
  | swtch (p : P)
  /-- The state of a process that does not run changes, as in `wakeup`. -/
  | setState (p : P) (st : ProcState)
  /-- `allocproc` prepares the slot. -/
  | allocproc (p : P)
  deriving DecidableEq

/-- A call by the thread of a CPU; there is none where a test of the code says otherwise. -/
def State.call (s : State C P L) (c : C) (op : Op P L) : Option (Except Panic (State C P L)) :=
  let k := s.cpu c
  match op with
  | .intrOn => some (.ok (s.set c { k with intr := true } (s.running c)))
  | .intrOff => some (.ok (s.set c { k with intr := false } (s.running c)))
  | .trap => if k.intr then some (s.trap c) else none
  | .trapReturn => if k.inkernelTrap ≠ 0 then some (s.trapReturn c) else none
  | .pushOff => some (.ok (s.pushOff c))
  | .popOff => some (s.popOff c)
  | .acquire lk => some (s.acquire c lk)
  | .take => none
  | .release lk => some (s.release c lk)
  | .sched st => k.proc.map fun p => s.sched c p st
  | .swtch p => if k.proc = none ∧ s.state p = .runnable then some (s.swtch c p) else none
  | .setState p st =>
    if holding (s.lock (.proc p)) c ∧ s.state p ≠ .running ∧ st ≠ .running then
      some (.ok { s with state := update s.state p st })
    else none
  | .allocproc p =>
    if holding (s.lock (.proc p)) c ∧ s.state p = .unused then
      some (.ok { s with
        state := update s.state p .used
        thread := update s.thread (.process p) (firstThread p) })
    else none

/-- One action on a CPU: its thread goes on in `acquire`, once the lock is free, or in `release`,
or makes a call. -/
def step (s : State C P L) (a : C × Op P L) : Option (Except Panic (State C P L)) :=
  match a.2, (s.running a.1).pc with
  | .take, .spinning lk => if (s.lock lk).locked then none else some (.ok (s.take a.1 lk))
  | .popOff, .released => some (s.popOff a.1)
  | op, .running => s.call a.1 op
  | _, _ => none

/-- One action that does not panic. -/
def next (s : State C P L) (a : C × Op P L) : Option (State C P L) :=
  (step s a).bind Except.toOption

/-- **The discipline of the threads**: releases match acquires and pops match pushes, in any
order; interrupts are switched on with nothing outstanding, and the scheduler switches holding only
the lock of the process. -/
def Disciplined (s : State C P L) (a : C × Op P L) : Prop :=
  let th := s.running a.1
  match a.2 with
  | .intrOn | .trapReturn => th.outstanding = 0
  | .popOff => th.pc = .released ∨ 0 < th.pushes
  | .release lk => lk ∈ th.held
  | .swtch p => th.held = [.proc p] ∧ th.pushes = 0
  | _ => True

instance (s : State C P L) (a : C × Op P L) : Decidable (Disciplined s a) := by
  unfold Disciplined
  cases a.2 <;> infer_instance

end

end SignalOS.Sync
