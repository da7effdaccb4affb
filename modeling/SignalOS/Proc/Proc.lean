import SignalOS.Signal.Ksignal
import SignalOS.Vm.Walk

/-!
# Processes

`struct proc` of `proc.h`, with the point at which the process's kernel thread
stands.

* `Proc` — the fields of a process; `Context` — where its kernel thread stands,
  which for a process off the CPU is what `swtch` saved in `p->context`.
* `Proc.delPending`, `Proc.addPending`, `Proc.postSiginfo` — the updates of the
  signal state.
-/

namespace SignalOS

def NPROC : Nat := 512

instance : NeZero NPROC := ⟨by decide⟩

/-- A slot of `pool`. -/
abbrev Slot := Fin NPROC

/-- `enum procstate`. -/
inductive ProcState where
  | unused | used | sleeping | runnable | running | zombie | stopped
  deriving DecidableEq

/-- What a process sleeps on: a process, `&ticks` or `&cons`. -/
inductive Chan where
  | proc (p : Slot)
  | ticks
  | cons
  deriving DecidableEq

/-- The system calls that may sleep, with the locals of their loops. -/
inductive Blocking where
  /-- `wait(pid, code)`. -/
  | wait (pid : Int) (code : Uint64)
  /-- `sys_sleep(n)`; `ticks0` is read under the lock in the first turn. -/
  | sleep (n : Uint64) (ticks0 : Option Uint64)
  /-- `user_console_read(buf, n)`; `target` is the requested count. -/
  | read (buf n target : Uint64)
  deriving DecidableEq

/-- Why a process entered `usertrap`. -/
inductive Cause where
  | timer
  | external
  /-- Any other interrupt. -/
  | interrupt
  | ecall
  /-- A page fault with its address, and whether a store caused it. -/
  | pageFault (addr : Uint64) (store : Bool)
  | exception
  deriving DecidableEq

/-- Where a kernel thread stands. -/
inductive Context where
  /-- No thread: the slot is unused. -/
  | none
  /-- `p->context.ra` of a new process. -/
  | firstSchedRet
  /-- In user mode. -/
  | user
  /-- At the start of `usertrap`. -/
  | usertrap (cause : Cause)
  /-- In `usertrap`, before `syscall()`. -/
  | syscall
  /-- At the head of the loop of a system call that may sleep. -/
  | call (b : Blocking)
  /-- About to call `sleep`, with the lock of the loop held. -/
  | sleep (b : Blocking)
  /-- In `sched()` inside `sleep`. -/
  | asleep (b : Blocking)
  /-- In `sched()` inside the `yield` of `sys_yield`. -/
  | sysYield
  /-- In `usertrap`, at the killed check after the trap was handled. -/
  | stillAlive (timer : Bool)
  /-- In `usertrap`, before `yield()`. -/
  | yield
  /-- In `sched()` inside the `yield` of `usertrap`. -/
  | yielded
  /-- In `do_signal`, before the turns for these signals. -/
  | doSignal (signos : List Signo)
  /-- In `do_signal` in the turn for `signo`, with these fields of its siginfo still to be copied
  to `info`; with none left, before `acquire(&p->mm->lock)` and the copies to the user stack. -/
  | copyInfo (signo : Signo) (rest : List Signo) (fields : List SiginfoField) (info : Siginfo)
  /-- In `usertrap`, at the killed check after `do_signal`. -/
  | stillAliveAfterSignal
  /-- At the start of `usertrapret`. -/
  | usertrapret
  /-- In `usertrapret`, after the test of `need_stop`. -/
  | clearNeedStop
  /-- In `usertrapret`, before `acquire(&p->lock)` and `p->state = STOPPED`. -/
  | stop
  /-- In `sched()` inside `usertrapret`. -/
  | stopped
  /-- In `usertrapret`, before the jump to user mode. -/
  | jump
  /-- At the start of `exit(code)`. -/
  | exit (code : Int)
  /-- In `exit`, before `acquire(&wait_lock)`, with `parent_proc`. -/
  | reparent (code : Int) (parentProc : Option Slot)
  /-- In `exit`, before `wakeup(init_proc)`, with `wait_lock` held. -/
  | wakeInit (code : Int)
  /-- In `exit`, before `sys_sigkill(ppid, SIGCHLD, code)`. -/
  | notifyParent (code : Int) (ppid : Int)
  /-- In `exit`, before `wakeup(p->parent)`; `wait_lock` may have to be taken again. -/
  | wakeParent (code : Int)
  /-- In `exit`, before `p->state = ZOMBIE`, with `wait_lock` held. -/
  | finish (code : Int)
  /-- After the last `sched()` of `exit`. -/
  | dead
  deriving DecidableEq

/-- `struct proc`. -/
structure Proc where
  state : ProcState
  pid : Int
  exitCode : Int
  sleepChan : Option Chan
  killed : Int
  parent : Option Slot
  mm : Option Mm
  /-- The address of the heap's `struct vma` in the list of `mm`. -/
  vmaBrk : Uint64
  brk : Uint64
  trapframe : Trapframe
  /-- The physical address of the trapframe page. -/
  trapframePa : Uint64
  context : Context
  signal : Ksignal
  needStop : Int

namespace Proc

def delPending (p : Proc) (signo : Signo) : Proc :=
  { p with signal := { p.signal with sigpending := sigdelset p.signal.sigpending signo } }

def addPending (p : Proc) (signo : Signo) : Proc :=
  { p with signal := { p.signal with sigpending := sigaddset p.signal.sigpending signo } }

/-- Store a siginfo: `p->signal.siginfos[signo] = info`. -/
def postSiginfo (p : Proc) (signo : Signo) (info : Siginfo) : Proc :=
  { p with signal := { p.signal with siginfos := Function.update p.signal.siginfos signo info } }

/-- The signal is pending. -/
def pending (p : Proc) (signo : Signo) : Bool := sigismember p.signal.sigpending signo

/-- The signal is blocked. -/
def masked (p : Proc) (signo : Signo) : Bool := sigismember p.signal.sigmask signo

variable (p : Proc) (m n : Signo) (info : Siginfo)

@[simp] theorem pending_delPending :
    (p.delPending m).pending n = (p.pending n && !decide (n = m)) :=
  sigismember_sigdelset _ _ _

@[simp] theorem pending_addPending :
    (p.addPending m).pending n = (p.pending n || decide (n = m)) :=
  sigismember_sigaddset _ _ _

theorem pending_of_delPending {p : Proc} {m n : Signo} (h : (p.delPending m).pending n = true) :
    p.pending n = true := by
  rw [pending_delPending, Bool.and_eq_true] at h
  exact h.1

theorem delPending_of_not_pending {p : Proc} {m : Signo} (h : p.pending m = false) :
    p.delPending m = p := by
  rw [delPending, sigdelset_of_not_member h]

theorem delPending_if_pending (p : Proc) (m : Signo) :
    (if p.pending m then p.delPending m else p) = p.delPending m := by
  split
  · rfl
  · rename_i h
    exact (delPending_of_not_pending (Bool.not_eq_true _ ▸ h)).symm

@[simp] theorem pending_postSiginfo : (p.postSiginfo m info).pending n = p.pending n := rfl

@[simp] theorem masked_delPending : (p.delPending m).masked n = p.masked n := rfl
@[simp] theorem masked_addPending : (p.addPending m).masked n = p.masked n := rfl
@[simp] theorem masked_postSiginfo : (p.postSiginfo m info).masked n = p.masked n := rfl

@[simp] theorem state_delPending : (p.delPending m).state = p.state := rfl
@[simp] theorem state_addPending : (p.addPending m).state = p.state := rfl
@[simp] theorem state_postSiginfo : (p.postSiginfo m info).state = p.state := rfl

@[simp] theorem killed_delPending : (p.delPending m).killed = p.killed := rfl
@[simp] theorem killed_addPending : (p.addPending m).killed = p.killed := rfl
@[simp] theorem killed_postSiginfo : (p.postSiginfo m info).killed = p.killed := rfl

@[simp] theorem needStop_delPending : (p.delPending m).needStop = p.needStop := rfl
@[simp] theorem needStop_addPending : (p.addPending m).needStop = p.needStop := rfl
@[simp] theorem needStop_postSiginfo : (p.postSiginfo m info).needStop = p.needStop := rfl

@[simp] theorem trapframe_delPending : (p.delPending m).trapframe = p.trapframe := rfl
@[simp] theorem sa_delPending : (p.delPending m).signal.sa = p.signal.sa := rfl
@[simp] theorem sigmask_delPending : (p.delPending m).signal.sigmask = p.signal.sigmask := rfl
@[simp] theorem siginfos_delPending : (p.delPending m).signal.siginfos = p.signal.siginfos := rfl

end Proc

end SignalOS
