import SignalOS.Kernel.Console
import SignalOS.Lib.Partial
import SignalOS.Proc.Loader
import SignalOS.Signal.Siginit
import SignalOS.Signal.Sigkill

/-!
# The kernel's state

The process table, the task queue, the CPUs and the locks under which processes
sleep, with the operations of `proc.c` and `sched.c` that work on a process under
its lock.

* `Kernel` — the state; `KM` — computations on it, without a result when the
  kernel panics.
* `findByPid`, `allocproc`, `freeproc`, `wakeup`, `addTask` — `proc.c`, `sched.c`.
* `sysSigkill`, `kill` — sending a signal.
-/

namespace SignalOS

open Partial

/-- A CPU.  The code has `NCPU` of them; how many there are changes nothing here. -/
abbrev CpuId := Nat

/-- What a CPU is doing: looking for a task in `scheduler`, holding a task it took from the
queue, or running a process. -/
inductive CpuState where
  | idle
  | popped (p : Slot)
  | running (p : Slot)
  deriving DecidableEq

/-- The locks that are passed to `sleep`. -/
inductive SleepLock where
  | wait
  | ticks
  | cons
  deriving DecidableEq

/-- What the scheduler reports: the warnings of `add_task` and of `scheduler`, and the panic of
`push_queue`. -/
inductive Message where
  /-- `add_task` of a process that is not `RUNNABLE`. -/
  | notRunnable (p : Slot)
  /-- A process from the queue that is not `RUNNABLE`. -/
  | skipped (p : Slot)
  /-- `panic("queue overflow")`. -/
  | overflow
  deriving DecidableEq

structure Kernel where
  vm : Vm
  pool : Slot → Proc
  /-- How many pids `allocpid` has handed out; its counter `PID` started at 1. -/
  pids : Nat
  taskQueue : List Slot
  initProc : Option Slot
  cpus : CpuId → CpuState
  /-- The process that holds each lock, between two of its steps. -/
  locks : SleepLock → Option Slot
  ticks : Uint64
  cons : Cons
  userApps : List UserApp
  log : List Message

/-- A computation on the kernel's state; no result is a panic, or a lock that is not free. -/
abbrev KM := StateT Kernel Option

def panic {α : Type} : KM α := fun _ => none

/-- `acquire` of a lock that another process holds: the step has to wait. -/
def spin {α : Type} : KM α := fun _ => none

/-- A computation on memory. -/
def liftVm {α : Type} (x : VmM α) : KM α := fun k =>
  (x k.vm).map fun r => (r.1, { k with vm := r.2 })

def Kernel.setProc (k : Kernel) (i : Slot) (p : Proc) : Kernel :=
  { k with pool := Function.update k.pool i p }

/-- Change one process. -/
def modifyProc (i : Slot) (f : Proc → Proc) : KM Unit :=
  modify fun k => k.setProc i (f (k.pool i))

def getProc (i : Slot) : KM Proc := do
  return (← get).pool i

/-- `p->mm`, for an access to it. -/
def getMm (i : Slot) : KM Mm := do
  match (← getProc i).mm with
  | none => panic
  | some mm => return mm

section Inversion

variable {α : Type} {k k' : Kernel} {i : Slot} {p : Proc}

@[simp] theorem Kernel.setProc_pool_self (k : Kernel) (i : Slot) (p : Proc) :
    (k.setProc i p).pool i = p := Function.update_self _ _ _

@[simp] theorem Kernel.setProc_pool_of_ne {j : Slot} (h : j ≠ i) (k : Kernel) (p : Proc) :
    (k.setProc i p).pool j = k.pool j := Function.update_of_ne h _ _

@[simp] theorem Kernel.setProc_pids (k : Kernel) (i : Slot) (p : Proc) :
    (k.setProc i p).pids = k.pids := rfl

@[simp] theorem Kernel.setProc_cpus (k : Kernel) (i : Slot) (p : Proc) :
    (k.setProc i p).cpus = k.cpus := rfl

@[simp] theorem Kernel.setProc_vm (k : Kernel) (i : Slot) (p : Proc) :
    (k.setProc i p).vm = k.vm := rfl

theorem liftVm_eq_some {x : VmM α} {a : α} :
    liftVm x k = some (a, k') ↔ ∃ vm, x k.vm = some (a, vm) ∧ k' = { k with vm := vm } := by
  constructor
  · intro h
    obtain ⟨⟨b, vm⟩, hx, hr⟩ := Option.map_eq_some_iff.1 h
    cases hr
    exact ⟨vm, hx, rfl⟩
  · rintro ⟨vm, hx, rfl⟩
    exact Option.map_eq_some_iff.2 ⟨(a, vm), hx, rfl⟩

theorem modifyProc_eq_some {f : Proc → Proc} {u : Unit} :
    modifyProc i f k = some (u, k') ↔ k' = k.setProc i (f (k.pool i)) := modify_eq_some

theorem getProc_eq_some : getProc i k = some (p, k') ↔ p = k.pool i ∧ k' = k := by
  constructor
  · intro h
    have hpair : (k.pool i, k) = (p, k') := Option.some.inj h
    exact ⟨(congrArg Prod.fst hpair).symm, (congrArg Prod.snd hpair).symm⟩
  · rintro ⟨rfl, rfl⟩
    rfl

theorem getProc_bind {f : Proc → KM α} : (getProc i >>= f) k = f (k.pool i) k := rfl

theorem modifyProc_bind {g : Proc → Proc} {f : Unit → KM α} :
    (modifyProc i g >>= f) k = f () (k.setProc i (g (k.pool i))) := rfl

theorem getMm_eq_some {mm : Mm} :
    getMm i k = some (mm, k') ↔ (k.pool i).mm = some mm ∧ k' = k := by
  rw [getMm, getProc_bind]
  cases (k.pool i).mm with
  | none => exact iff_of_false (fun h => by cases h) fun h => by cases h.1
  | some mm' =>
    show some (mm', k) = some (mm, k') ↔ some mm' = some mm ∧ k' = k
    simp [eq_comm]

end Inversion

/-! ## The task queue -/

def Kernel.report (k : Kernel) (m : Message) : Kernel := { k with log := k.log ++ [m] }

/-- `push_queue(&task_queue, p)`; nothing happens after its panic (`step`). -/
def Kernel.pushQueue (k : Kernel) (i : Slot) : Kernel :=
  if k.taskQueue.length = NPROC then k.report .overflow
  else { k with taskQueue := k.taskQueue ++ [i] }

/-- `add_task(p)`. -/
def addTask (i : Slot) : KM Unit := do
  if (← getProc i).state ≠ .runnable then
    modify fun k => k.report (.notRunnable i)
    modifyProc i fun p => { p with state := .runnable }
  modify fun k => k.pushQueue i

/-- Store a process that was changed under its lock; the flag says that it was made runnable,
and `add_task` is called. -/
def storeProc (i : Slot) (r : Proc × Bool) : KM Unit := do
  modifyProc i fun _ => r.1
  if r.2 then
    addTask i

/-- The process sleeps on `chan`. -/
def Proc.sleepsOn (p : Proc) (chan : Option Chan) : Bool :=
  p.state = .sleeping && p.sleepChan = chan

/-- `wakeup(chan)`. -/
def wakeup (chan : Option Chan) : KM Unit :=
  (List.finRange NPROC).forM fun i => do
    let p ← getProc i
    if p.sleepsOn chan then
      storeProc i ({ p with state := .runnable }, true)

section Queue

variable (k : Kernel) (i : Slot)

@[simp] theorem Kernel.pushQueue_pool : (k.pushQueue i).pool = k.pool := by
  rw [pushQueue]
  split <;> rfl

@[simp] theorem Kernel.pushQueue_pids : (k.pushQueue i).pids = k.pids := by
  rw [pushQueue]
  split <;> rfl

@[simp] theorem Kernel.pushQueue_cpus : (k.pushQueue i).cpus = k.cpus := by
  rw [pushQueue]
  split <;> rfl

@[simp] theorem Kernel.pushQueue_locks : (k.pushQueue i).locks = k.locks := by
  rw [pushQueue]
  split <;> rfl

@[simp] theorem Kernel.pushQueue_initProc : (k.pushQueue i).initProc = k.initProc := by
  rw [pushQueue]
  split <;> rfl

variable {k i}

theorem addTask_eq_some {k' : Kernel} {u : Unit} (hstate : (k.pool i).state = .runnable) :
    addTask i k = some (u, k') ↔ k' = k.pushQueue i := by
  simp only [addTask, getProc_bind, hstate, ne_eq, not_true_eq_false, if_false, modify_eq_some]

theorem storeProc_eq_some {k' : Kernel} {r : Proc × Bool} {u : Unit}
    (hflag : r.2 = true → r.1.state = .runnable) :
    storeProc i r k = some (u, k') ↔
      k' = if r.2 then (k.setProc i r.1).pushQueue i else k.setProc i r.1 := by
  simp only [storeProc, modifyProc_bind]
  split
  · rename_i hset
    exact addTask_eq_some (by rw [Kernel.setProc_pool_self, hflag hset])
  · exact pure_eq_some.trans (by simp)

end Queue

/-! ## The process table -/

/-- `findByPid(pid)`: the first slot with the pid, whatever its state. -/
def findByPid (pool : Slot → Proc) (pid : Int) : Option Slot :=
  (List.finRange NPROC).find? fun i => (pool i).pid = pid

/-- The fields `allocproc` sets. -/
def Proc.allocate (p : Proc) (pid : Int) : Proc :=
  { p with
    parent := none
    exitCode := 0
    sleepChan := none
    pid := pid
    state := .used
    needStop := 0
    mm := none
    vmaBrk := 0
    context := .firstSchedRet
    trapframe := Trapframe.zero
    signal := siginit p.signal }

/-- `allocproc()`; `allocpid` hands out `PID++`, an `int`. -/
def allocproc : KM (Option Slot) := do
  let k ← get
  match (List.finRange NPROC).find? fun i => (k.pool i).state = .unused with
  | none => return none
  | some i =>
    modify fun k => { k with pids := k.pids + 1 }
    modifyProc i fun p => p.allocate (wrapInt (k.pids + 1))
    return some i

/-- The fields `freeproc` sets. -/
def Proc.release (p : Proc) : Proc :=
  { p with
    state := .unused
    pid := -1
    exitCode := wrapInt 0xdeadbeef
    sleepChan := none
    killed := 0
    parent := none
    mm := none
    vmaBrk := 0
    context := .none }

/-- `freeproc(p)`. -/
def freeproc (i : Slot) : KM Unit := do
  match (← getProc i).mm with
  | none => pure ()
  | some mm => liftVm (mmFree mm)
  modifyProc i Proc.release

/-! ## Sending signals -/

/-- `sys_sigkill(pid, signo, code)`, called by the process in slot `curr`. -/
def sysSigkill (curr : Slot) (pid signo code : Int) : KM Int := do
  match toSigno signo with
  | none => return -EINVAL
  | some signo =>
    let k ← get
    match findByPid k.pool pid with
    | none => return -EINVAL
    | some i =>
      storeProc i ((k.pool i).receive signo code (k.pool curr).pid)
      return 0

/-- What `kill` does to the process it found. -/
def Proc.receiveKill (p : Proc) : Proc × Bool :=
  Proc.wakeFrom { p with killed := -10 - SIGKILL.val } .sleeping

/-- `kill(pid)`.  The call of `sys_sigkill` is made with the lock of the victim held, so its
search for the parent panics when it comes to the slot of the victim. -/
def kill (curr : Slot) (pid : Int) : KM Int := do
  match findByPid (← get).pool pid with
  | none => return -EINVAL
  | some i =>
    storeProc i (← getProc i).receiveKill
    match (← getProc i).parent with
    | none => return 0
    | some parentProc =>
      let ppid := (← getProc parentProc).pid
      match findByPid (← get).pool ppid with
      | none => panic
      | some j =>
        if i ≤ j then
          panic
        else
          discard (sysSigkill curr ppid SIGCHLD.val (-1))
          return 0

end SignalOS
