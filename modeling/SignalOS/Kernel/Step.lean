import SignalOS.Kernel.Syscall
import SignalOS.Lib.Runs
import SignalOS.Signal.DoSignal

/-!
# Steps of the machine

The scheduler of `sched.c`, the path of a process through `trap.c` and `exit` of
`proc.c`, as a step function on the kernel's state.  A step ends where another CPU
may come in between: where a lock is released or a field is used without its lock.
Two things that a process does without its lock are one step each: the look at a
pending signal in `do_signal`, with the flag it sets (`takeSignal`), and the read of
a field.

* `Act` — what may happen next; `act`, `step` — its effect.
* `thread` — the next step of the kernel thread of a process, by its `Context`.
* `boot` — the state after `proc_init`; `Reachable` — the states runs lead to.
-/

namespace SignalOS

/-- What may happen next. -/
inductive Act where
  /-- `load_init_app` of the boot CPU. -/
  | loadInitApp
  /-- The scheduler of a CPU pops a task. -/
  | fetch (c : CpuId)
  /-- It locks the task and switches to it. -/
  | switchTo (c : CpuId)
  /-- A timer interrupt of CPU 0 outside of user mode. -/
  | tick
  /-- A character arrives at the console. -/
  | consIntr (ch : Byte)
  /-- The process on a CPU stores a byte in user mode. -/
  | userStore (c : CpuId) (va : Uint64) (b : Byte)
  /-- The process on a CPU leaves user mode with these registers. -/
  | trap (c : CpuId) (cause : Cause) (tf : Trapframe)
  /-- The kernel thread of the process on a CPU takes its next step. -/
  | exec (c : CpuId)

/-- How a kernel thread goes on: elsewhere, by `sched()` after a change of state, or by its last
`sched()` in `exit(code)`. -/
inductive Next where
  | goto (context : Context)
  | sched (state : ProcState) (context : Context)
  | die (code : Int)

/-! ## Traps -/

/-- `ticks++` and `wakeup(&ticks)` under `tickslock`. -/
def timerTick : KM Unit := do
  if (← get).locks .ticks ≠ none then
    spin
  else
    modify fun k => { k with ticks := k.ticks + 1 }
    wakeup (some .ticks)

/-- `setkilled(p, reason)`. -/
def setkilled (i : Slot) (reason : Int) : KM Unit :=
  modifyProc i fun p => { p with killed := reason }

/-- The entry of `handle_pgfault` with its accessed and dirty bits, when one that is missing is
the reason for the fault. -/
def missingBits (e : Uint64) (store : Bool) : Option Uint64 :=
  if e &&& PTE_V ≠ 0 ∧ e &&& PTE_U ≠ 0 ∧ (e &&& PTE_A = 0 ∨ (store ∧ e &&& PTE_D = 0)) then
    some (if store then e ||| PTE_A ||| PTE_D else e ||| PTE_A)
  else none

/-- `handle_pgfault()`: does it repair the entry? -/
def repairFault (mm : Mm) (addr : Uint64) (store : Bool) : VmM Bool := do
  match ← walk mm addr false with
  | none => return false
  | some pte =>
    match missingBits (← loadPte pte) store with
    | none => return false
    | some e =>
      storePte pte e
      return true

/-- `usertrap()` up to the system call, or to the killed check after the trap. -/
def usertrap (c : CpuId) (i : Slot) : Cause → KM Next
  | .timer => do
    if c = 0 then
      timerTick
    return .goto (.stillAlive true)
  | .external => return .goto (.stillAlive false)
  | .interrupt => return .goto (.stillAlive false)
  | .ecall => do
    let killed := (← getProc i).killed
    if killed ≠ 0 then
      return .goto (.exit killed)
    else
      modifyProc i fun p => { p with trapframe := { p.trapframe with epc := p.trapframe.epc + 4 } }
      return .goto .syscall
  | .pageFault addr store => do
    let mm ← getMm i
    if ← liftVm (repairFault mm addr store) then
      return .goto (.stillAlive false)
    else
      setkilled i (-2)
      return .goto (.stillAlive false)
  | .exception => do
    setkilled i (-3)
    return .goto (.stillAlive false)

/-- The look of `do_signal` at `signo`, of the process in slot `i`. -/
def signalTurn (i : Slot) (signo : Signo) (rest : List Signo) : KM Next := do
  match takeSignal signo (← getProc i) with
  | .next p =>
    modifyProc i fun _ => p
    return .goto (.doSignal rest)
  | .handler p =>
    modifyProc i fun _ => p
    return .goto (.copyInfo signo rest Siginfo.fields .zero)

/-- The rest of the turn, under `p->mm->lock`, with the siginfo that was copied. -/
def handlerTurn (i : Slot) (signo : Signo) (rest : List Signo) (info : Siginfo) : KM Next := do
  let mm ← getMm i
  match startHandler mm signo info (← getProc i) (← get).vm with
  | .next p vm =>
    modifyProc i fun _ => p
    modify fun k => { k with vm := vm }
    return .goto (.doSignal rest)
  | .installed p vm =>
    modifyProc i fun _ => p
    modify fun k => { k with vm := vm }
    return .goto .stillAliveAfterSignal

/-! ## Exit -/

/-- The loop of `exit` that gives the children to init: `wakeinit`. -/
def reparent (i : Slot) : KM Bool := do
  let k ← get
  set { k with
    pool := fun j =>
      if j ≠ i ∧ (k.pool j).parent = some i then { k.pool j with parent := k.initProc }
        else k.pool j }
  return haveKids k.pool i

/-- The steps of `exit(code)`. -/
def exitStart (i : Slot) (code : Int) : KM Next := do
  if (← get).initProc = some i then
    panic
  else
    return .goto (.reparent code (← getProc i).parent)

def exitReparent (i : Slot) (code : Int) (parentProc : Option Slot) : KM Next := do
  acquireLock .wait i
  if ← reparent i then
    return .goto (.wakeInit code)
  else
    match parentProc with
    | none => return .goto (.wakeParent code)
    | some parent =>
      if some parent ≠ (← get).initProc then
        let ppid := (← getProc parent).pid
        releaseLock .wait
        return .goto (.notifyParent code ppid)
      else
        return .goto (.wakeParent code)

def exitWakeInit (code : Int) : KM Next := do
  wakeup ((← get).initProc.map .proc)
  return .goto (.wakeParent code)

def exitWakeParent (i : Slot) (code : Int) : KM Next := do
  acquireLock .wait i
  wakeup ((← getProc i).parent.map .proc)
  return .goto (.finish code)

def exitFinish (code : Int) : KM Next := do
  releaseLock .wait
  return .die code

/-! ## The kernel thread of a process -/

/-- The next step of the kernel thread of the process in slot `i`, on CPU `c`. -/
def thread (c : CpuId) (i : Slot) : Context → KM Next
  | .none => panic
  | .firstSchedRet => do
    if (← getProc i).state = .running then return .goto .usertrapret else panic
  | .user => panic
  | .usertrap cause => usertrap c i cause
  | .syscall => do
    match ← syscall i with
    | .ret _ => return .goto (.stillAlive false)
    | .goto context => return .goto context
    | .yield => return .sched .runnable .sysYield
  | .call b => do
    acquireLock b.lock i
    match ← b.turn i with
    | .ret r =>
      releaseLock b.lock
      setReturn i r
      return .goto (.stillAlive false)
    | .sleep b => return .goto (.sleep b)
  | .sleep b => do
    releaseLock b.lock
    modifyProc i fun p => { p with sleepChan := some (b.chan i) }
    return .sched .sleeping (.asleep b)
  | .asleep b => do
    modifyProc i fun p => { p with sleepChan := none }
    return .goto (.call b)
  | .sysYield => do
    setReturn i 0
    return .goto (.stillAlive false)
  | .stillAlive timer => do
    let killed := (← getProc i).killed
    if killed ≠ 0 then return .goto (.exit killed)
    else if timer then return .goto .yield
    else return .goto (.doSignal allSignos)
  | .yield => return .sched .runnable .yielded
  | .yielded => return .goto (.doSignal allSignos)
  | .doSignal [] => return .goto .stillAliveAfterSignal
  | .doSignal (signo :: rest) => signalTurn i signo rest
  | .copyInfo signo rest [] info => handlerTurn i signo rest info
  | .copyInfo signo rest (f :: fields) info => do
    -- `p->lock` is not held: another CPU may send the signal between two fields
    let src := (← getProc i).signal.siginfos signo
    return .goto (.copyInfo signo rest fields (info.copyField src f))
  | .stillAliveAfterSignal => do
    let killed := (← getProc i).killed
    if killed ≠ 0 then return .goto (.exit killed) else return .goto .usertrapret
  | .usertrapret => do
    if (← getProc i).needStop ≠ 0 then return .goto .clearNeedStop else return .goto .jump
  | .clearNeedStop => do
    modifyProc i fun p => { p with needStop := 0 }
    return .goto .stop
  | .stop => return .sched .stopped .stopped
  | .stopped => return .goto .jump
  | .jump => return .goto .user
  | .exit code => exitStart i code
  | .reparent code parentProc => exitReparent i code parentProc
  | .notifyParent code ppid => do
    discard (sysSigkill i ppid SIGCHLD.val code)
    return .goto (.wakeParent code)
  | .wakeInit code => exitWakeInit code
  | .wakeParent code => exitWakeParent i code
  | .finish code => exitFinish code
  | .dead => panic

/-! ## The step function -/

def setCpu (c : CpuId) (s : CpuState) : KM Unit :=
  modify fun k => { k with cpus := Function.update k.cpus c s }

/-- What follows a step of the kernel thread: the scheduler queues a process that came from
`yield`. -/
def carryOn (c : CpuId) (i : Slot) : Next → KM Unit
  | .goto context => modifyProc i fun p => { p with context := context }
  | .sched state context => do
    modifyProc i fun p => { p with state := state, context := context }
    setCpu c .idle
    if state = .runnable then
      addTask i
  | .die code => do
    modifyProc i fun p => { p with exitCode := code, state := .zombie, context := .dead }
    setCpu c .idle

/-- The process that CPU `c` runs. -/
def runningOn (c : CpuId) : KM Slot := do
  match (← get).cpus c with
  | .running i => return i
  | _ => panic

def act : Act → KM Unit
  | .loadInitApp => do
    if (← get).initProc = none then loadInitApp else panic
  | .fetch c => do
    let k ← get
    match k.cpus c, k.taskQueue with
    | .idle, i :: rest =>
      set { k with taskQueue := rest, cpus := Function.update k.cpus c (.popped i) }
    | _, _ => panic
  | .switchTo c => do
    match (← get).cpus c with
    | .popped i =>
      if (← getProc i).state = .runnable then
        modifyProc i fun p => { p with state := .running }
        setCpu c (.running i)
      else
        modify fun k => k.report (.skipped i)
        setCpu c .idle
    | _ => panic
  | .tick => timerTick
  | .consIntr ch => do
    if (← get).locks .cons ≠ none then
      spin
    else
      let r := consintr (← get).cons ch
      modify fun k => { k with cons := r.1 }
      if r.2 then
        wakeup (some .cons)
  | .userStore c va b => do
    let i ← runningOn c
    let mm ← getMm i
    if (← getProc i).context = .user then
      match userStorePa (← get).vm mm va with
      | none => panic
      | some pa => modify fun k => { k with vm := k.vm.store pa [b] }
    else
      panic
  | .trap c cause tf => do
    let i ← runningOn c
    if (← getProc i).context = .user then
      modifyProc i fun p => { p with trapframe := tf, context := .usertrap cause }
    else
      panic
  | .exec c => do
    let i ← runningOn c
    let next ← thread c i (← getProc i).context
    carryOn c i next
where
  /-- Where a store to a user address goes: its page has to be a writable user page. -/
  userStorePa (vm : Vm) (mm : Mm) (va : Uint64) : Option Uint64 :=
    match slotOf vm.pte mm.pgt va with
    | none => none
    | some (pagetable, j) =>
      if vm.pte pagetable j &&& PTE_W = 0 then none else userPa vm mm va

/-- The state after an act; none when it cannot happen now, or the kernel panics or has done so. -/
def step (k : Kernel) (a : Act) : Option Kernel :=
  if .overflow ∈ k.log then none else (act a k).map Prod.snd

theorem act_of_step {k k' : Kernel} {a : Act} (h : step k a = some k') :
    act a k = some ((), k') := by
  rw [step] at h
  split at h
  · cases h
  · obtain ⟨⟨_, _⟩, hact, rfl⟩ := Option.map_eq_some_iff.1 h
    exact hact

/-! ## The first state -/

def Ksignal.zero : Ksignal := ⟨fun _ => ⟨0, 0, 0⟩, fun _ => ⟨0, 0, 0, 0, 0⟩, 0, 0⟩

/-- What `proc_init` puts into a slot: zeros, and a page for the trapframe. -/
def Proc.zero (trapframePa : Uint64) (trapframe : Trapframe) : Proc where
  state := .unused
  pid := 0
  exitCode := 0
  sleepChan := none
  killed := 0
  parent := none
  mm := none
  vmaBrk := 0
  brk := 0
  trapframe := trapframe
  trapframePa := trapframePa
  context := .none
  signal := .zero
  needStop := 0

/-- What the kernel finds when it boots: memory, the programs in its image, and for each slot
a trapframe page with what is in it. -/
structure Machine where
  vm : Vm
  userApps : List UserApp
  trapframePa : Slot → Uint64
  trapframe : Slot → Trapframe

/-- The state after `proc_init`. -/
def boot (m : Machine) : Kernel where
  vm := m.vm
  pool := fun i => .zero (m.trapframePa i) (m.trapframe i)
  pids := 0
  taskQueue := []
  initProc := none
  cpus := fun _ => .idle
  locks := fun _ => none
  ticks := 0
  cons := .zero
  userApps := m.userApps
  log := []

/-- The states of the kernel. -/
def Reachable (k : Kernel) : Prop := ∃ m, Runs.Reachable step (boot m) k

/-! ## A machine to run -/

/-- A program without code: what it does is up to the acts. -/
def noCode (name : List Byte) : UserApp := ⟨name, 0x1000, [], fun _ => none, by simp⟩

/-- Its only program is `init`. -/
def initMachine : Machine where
  vm := initVm
  userApps := [noCode INIT_PROC]
  trapframePa _ := 0x90000000
  trapframe _ := .zero

/-- Take a new process from the queue and go to user mode with it. -/
def enterUser (c : CpuId) : List Act := [.fetch c, .switchTo c] ++ List.replicate 3 (.exec c)

/-- Make the system call of these registers. -/
def ecall (c : CpuId) (tf : Trapframe) : List Act := [.trap c .ecall tf, .exec c, .exec c]

/-- Go back to user mode after a call, when no signal is pending. -/
def leave (c : CpuId) : List Act := List.replicate 15 (.exec c)

/-- Registers for a call with three arguments. -/
def callRegs (n : Sysno) (a0 a1 a2 : Uint64) : Trapframe :=
  { Trapframe.zero with sp := 0xfffefff0, a7 := ofInt n.id, a0 := a0, a1 := a1, a2 := a2 }

/-- `init` has forked a child, with pid 2, and is back in user mode. -/
def forkChild : List Act :=
  .loadInitApp :: enterUser 0 ++ ecall 0 (callRegs .fork 0 0 0) ++ leave 0

/-- CPU 1 runs the child until it yields at a timer interrupt. -/
def yieldChild : List Act := enterUser 1 ++ [.trap 1 .timer .zero] ++ List.replicate 3 (.exec 1)

/-- CPU 1 takes it up again, up to the killed check after `do_signal`. -/
def resumeChild : List Act := [.fetch 1, .switchTo 1] ++ List.replicate 12 (.exec 1)

/-- CPU 1 runs the child, which exits. -/
def exitChild : List Act :=
  enterUser 1 ++ ecall 1 (callRegs .exit 0 0 0) ++ List.replicate 4 (.exec 1)

/-- `init` is about to send the child a signal. -/
def sendChild (signo : Signo) : List Act :=
  [.trap 0 .ecall (callRegs .sigkill 2 (ofInt signo.val) 0), .exec 0]

end SignalOS
