import SignalOS.Kernel.Process
import SignalOS.Signal.Sigcalls

/-!
# The system call dispatcher

The handlers of `syscall.c` and `console.c` that are not in a module of their own,
and `syscall()`.

* `Sysno` — the system calls of `syscall_ids.h`.
* `Blocking.turn` — one turn of the loop of a system call that may sleep.
* `syscall` — the call a process makes with the registers of its trapframe.
-/

namespace SignalOS

/-- The system calls that `syscall()` knows. -/
inductive Sysno where
  | fork | exec | exit | wait | getpid | getppid | kill | sleep | yield | sbrk | mmap
  | read | write | sigaction | sigreturn | sigprocmask | sigkill | sigpending | ktest
  deriving DecidableEq

/-- `SYS_*` of `syscall_ids.h`. -/
def Sysno.id : Sysno → Int
  | fork => 1 | exec => 2 | exit => 3 | wait => 4 | getpid => 5 | getppid => 6 | kill => 7
  | sleep => 10 | yield => 11 | sbrk => 20 | mmap => 21 | read => 22 | write => 23
  | sigaction => 30 | sigreturn => 31 | sigprocmask => 32 | sigkill => 33 | sigpending => 34
  | ktest => 99

def Sysno.all : List Sysno :=
  [fork, exec, exit, wait, getpid, getppid, kill, sleep, yield, sbrk, mmap, read, write,
    sigaction, sigreturn, sigprocmask, sigkill, sigpending, ktest]

/-- The case of the `switch` for an id; none is `default`. -/
def Sysno.ofId (id : Int) : Option Sysno := Sysno.all.find? fun n => n.id = id

/-! ## The handlers -/

/-- `sys_getppid()`. -/
def sysGetppid (curr : Slot) : KM Int := do
  match (← getProc curr).parent with
  | none => return 0
  | some parentProc => return (← getProc parentProc).pid

/-- `sys_sbrk(n)`. -/
def sysSbrk (curr : Slot) (n : Uint64) : KM Uint64 := do
  let p ← getProc curr
  let mm ← getMm curr
  match mm.vma.find? fun vma => vma.addr = p.vmaBrk with
  | none => panic
  | some vmaBrk =>
    let newBrk := p.brk + n
    if newBrk < vmaBrk.vmStart then
      return ofInt (-EINVAL)
    else
      let roundup := PGROUNDUP newBrk
      let (ret, mm) ← liftVm <|
        if roundup = vmaBrk.vmEnd then pure (0, mm)
        else mmRemap mm vmaBrk vmaBrk.vmStart roundup vmaBrk.pteFlags
      if ret = 0 then
        modifyProc curr fun q => { q with mm := some mm, brk := newBrk }
        return p.brk
      else
        modifyProc curr fun q => { q with mm := some mm }
        return ofInt ret

/-- `user_console_write(buf, len)`. -/
def userConsoleWrite (curr : Slot) (buf len : Uint64) : KM Uint64 := do
  if len.sle 0 then
    return ofInt (-EINVAL)
  else
    let len := MIN len PGSIZE
    let kbuf ← liftVm kallocpage
    if kbuf = 0 then
      return ofInt (-ENOMEM)
    else
      let mm ← getMm curr
      let r := copyFromUser (← get).vm mm buf len.toNat
      liftVm (storeBytes kbuf r.2)
      liftVm (kfreepage kbuf)
      return if r.1 < 0 then ofInt r.1 else len

/-- What the loop of `user_console_read` comes to: it is done, with `n` bytes left to read, or
it waits for input. -/
inductive ReadEnd where
  | done (n : Uint64)
  | wait (buf n : Uint64)

/-- The loop of `user_console_read` on the ring and on memory; every turn takes a character, so
that `fuel` is at least the number of characters in the ring. -/
def consoleReadLoop (mm : Mm) (target : Uint64) :
    Nat → (buf n : Uint64) → Cons → Vm → ReadEnd × Cons × Vm
  | 0, buf, n, cons, vm => (.wait buf n, cons, vm)
  | fuel + 1, buf, n, cons, vm =>
    if n.sle 0 then (.done n, cons, vm)
    else if cons.r = cons.w then (.wait buf n, cons, vm)
    else
      let c := cons.buf (ringIndex cons.r)
      if c = C 'D' then
        -- save ^D for next time when there are bytes to return
        (.done n, if n.slt target then cons else { cons with r := cons.r + 1 }, vm)
      else
        let cons := { cons with r := cons.r + 1 }
        let w := copyToUser vm mm buf [c]
        if w.1 < 0 then (.done n, cons, w.2)
        else if c = newline then (.done (n - 1), cons, w.2)
        else consoleReadLoop mm target fuel (buf + 1) (n - 1) cons w.2

/-- `ktest_syscall(args)`. -/
def ktestSyscall (curr : Slot) (tf : Trapframe) : KM Uint64 := do
  if tf.a0 = 1 then
    discard (getMm curr)
    return 0
  else if tf.a0 = 3 then
    return BitVec.ofNat 64 (← get).vm.freelist.length
  else if tf.a0 = 4 then
    return BitVec.ofNat 64 (← get).vm.kstrbuf.length
  else if tf.a0 = 5 then
    return ofInt (← sysSigkill curr (toInt tf.a1) SIGUSR2.val 0)
  else
    return 0

/-- A handler of `ksignal.c` that works on the caller, its address space and memory. -/
def onCaller (curr : Slot) (f : Mm → Proc → Vm → Int × Proc × Vm) : KM Int := do
  let mm ← getMm curr
  let r := f mm (← getProc curr) (← get).vm
  modifyProc curr fun _ => r.2.1
  modify fun k => { k with vm := r.2.2 }
  return r.1

/-! ## Calls that may sleep -/

/-- The lock the loop holds. -/
def Blocking.lock : Blocking → SleepLock
  | wait .. => .wait
  | sleep .. => .ticks
  | read .. => .cons

/-- What the loop sleeps on. -/
def Blocking.chan (curr : Slot) : Blocking → Chan
  | wait .. => .proc curr
  | sleep .. => .ticks
  | read .. => .cons

/-- `acquire(lk)` of the process in slot `curr`, or the lock it still holds. -/
def acquireLock (lk : SleepLock) (curr : Slot) : KM Unit := do
  if (← get).locks lk = none ∨ (← get).locks lk = some curr then
    modify fun k => { k with locks := Function.update k.locks lk (some curr) }
  else
    spin

def releaseLock (lk : SleepLock) : KM Unit :=
  modify fun k => { k with locks := Function.update k.locks lk none }

/-- What a turn of a loop that may sleep comes to. -/
inductive BlockingEnd where
  | ret (r : Uint64)
  | sleep (b : Blocking)

/-- One turn of the loop, under its lock. -/
def Blocking.turn (curr : Slot) : Blocking → KM BlockingEnd
  | .wait pid code => do
    match ← SignalOS.wait curr pid code with
    | some r => return .ret (ofInt r)
    | none => return .sleep (.wait pid code)
  | .sleep n ticks0 => do
    let k ← get
    let ticks0 := ticks0.getD k.ticks
    if k.ticks - ticks0 < n then
      if (k.pool curr).killed ≠ 0 then return .ret (ofInt (-1))
      else return .sleep (.sleep n (some ticks0))
    else
      return .ret 0
  | .read buf n target => do
    let mm ← getMm curr
    let k ← get
    let (r, cons, vm) :=
      consoleReadLoop mm target ((k.cons.w - k.cons.r).toNat + 1) buf n k.cons k.vm
    modify fun k => { k with cons := cons, vm := vm }
    match r with
    | .done n => return .ret (target - n)
    | .wait buf n => return .sleep (.read buf n target)

/-! ## The dispatcher -/

/-- How a system call goes on: it returns, its thread goes on elsewhere, or it yields. -/
inductive Outcome where
  | ret (r : Uint64)
  | goto (context : Context)
  | yield

/-- The `switch` of `syscall()`. -/
def syscallSwitch (curr : Slot) (tf : Trapframe) : KM Outcome := do
  match Sysno.ofId (toInt tf.a7) with
  | none => return .ret (ofInt (-1))
  | some .fork => return .ret (ofInt (← fork curr))
  | some .exec => return .ret (ofInt (← sysExec curr tf.a0 tf.a1))
  | some .exit => return .goto (.exit (toInt tf.a0))
  | some .wait => return .goto (.call (.wait (toInt tf.a0) tf.a1))
  | some .getpid => return .ret (ofInt (← getProc curr).pid)
  | some .getppid => return .ret (ofInt (← sysGetppid curr))
  | some .kill => return .ret (ofInt (← kill curr (toInt tf.a0)))
  | some .sleep => return .goto (.call (.sleep tf.a0 none))
  | some .yield => return .yield
  | some .sbrk => return .ret (← sysSbrk curr tf.a0)
  | some .mmap => panic
  | some .read =>
    return .goto (.call (.read tf.a1 tf.a2 ((tf.a2.setWidth 32).setWidth 64)))
  | some .write => return .ret (← userConsoleWrite curr tf.a1 ((tf.a2.setWidth 32).setWidth 64))
  | some .ktest => return .ret (← ktestSyscall curr tf)
  | some .sigkill =>
    return .ret (ofInt (← sysSigkill curr (toInt tf.a0) (toInt tf.a1) (toInt tf.a2)))
  | some .sigaction =>
    return .ret (ofInt (← onCaller curr fun mm p vm =>
      sysSigaction mm p vm (toInt tf.a0) tf.a1 tf.a2))
  | some .sigreturn =>
    return .ret (ofInt (← onCaller curr fun mm p vm =>
      ((sysSigreturn mm p vm).1, (sysSigreturn mm p vm).2, vm)))
  | some .sigprocmask =>
    return .ret (ofInt (← onCaller curr fun mm p vm =>
      sysSigprocmask mm p vm (toInt tf.a0) tf.a1 tf.a2))
  | some .sigpending =>
    return .ret (ofInt (← onCaller curr fun mm p vm =>
      ((sysSigpending mm p vm tf.a0).1, p, (sysSigpending mm p vm tf.a0).2)))

/-- `trapframe->a0 = ret`. -/
def setReturn (curr : Slot) (ret : Uint64) : KM Unit :=
  modifyProc curr fun p => { p with trapframe := { p.trapframe with a0 := ret } }

/-- `syscall()`, up to the point where the call returns, sleeps, yields or exits. -/
def syscall (curr : Slot) : KM Outcome := do
  let tf := (← getProc curr).trapframe
  match ← syscallSwitch curr tf with
  | .ret r => do
    setReturn curr r
    return .ret r
  | outcome => return outcome

end SignalOS
