import SignalOS.Kernel.State

/-!
# Process system calls

`fork`, `exec` and `wait` of `proc.c`, `sys_exec` of `syscall.c` and
`load_init_app` of `loader.c`.

* `fork`, `exec`, `sysExec` — as one step of the caller, which holds its own lock
  and that of its address space.
* `wait` — one pass over the table under `wait_lock`.
-/

namespace SignalOS

open LittleEndian

/-- `p->vma_brk->vm_start`. -/
def brkStart (p : Proc) (mm : Mm) : KM Uint64 := do
  match mm.vma.find? fun vma => vma.addr = p.vmaBrk with
  | none => panic
  | some vma => return vma.vmStart

/-- The child of a `fork`, once its address space `mm` is complete. -/
def Proc.becomeChild (np p : Proc) (parent : Slot) (mm : Mm) (start : Uint64) : Proc :=
  { np with
    mm := some mm
    vmaBrk := ((mmFindVma mm start).map Vma.addr).getD 0
    brk := p.brk
    trapframe := { p.trapframe with a0 := 0 }
    signal := siginitFork p.signal np.signal
    parent := some parent
    state := .runnable }

/-- `fork()`, called by the process in slot `curr`. -/
def fork (curr : Slot) : KM Int := do
  match ← allocproc with
  | none => return -ENOMEM
  | some np =>
    match ← liftVm (mmCreate (← getProc np).trapframePa) with
    | none =>
      freeproc np
      return -ENOMEM
    | some npMm =>
      let p ← getProc curr
      let mm ← getMm curr
      let (ret, npMm) ← liftVm (mmCopy mm npMm)
      if ret < 0 then
        modifyProc np fun np => { np with mm := some npMm }
        freeproc np
        return ret
      else
        let start ← brkStart p mm
        modifyProc np fun np => np.becomeChild p curr npMm start
        addTask np
        return (← getProc np).pid

/-- `exec(name, args)`. -/
def exec (curr : Slot) (name : List Byte) (args : List (List Byte)) : KM Int := do
  match getElf (← get).userApps name with
  | none => return -ENOENT
  | some app =>
    let p ← getProc curr
    let (ret, p) ← liftVm (loadUserElf app p args)
    if ret < 0 then
      return ret
    else
      modifyProc curr fun _ => { p with signal := siginitExec p.signal }
      return toInt p.trapframe.a0

/-- The loop of `sys_exec` over `argv`, of which `entries` entries of `arg` are left: the result,
the string buffers it took and the strings.  When the last entry of `arg` is used, the loops that
come after read beyond its end. -/
def readArgs (mm : Mm) (argv : Uint64) : Nat → VmM (Int × List Uint64 × List (List Byte))
  | 0 => kpanic
  | entries + 1 => do
    let r := copyFromUser (← get) mm argv 8
    if r.1 < 0 then
      return (r.1, [], [])
    else if wordAt r.2 0 = 0 then
      return (r.1, [], [])
    else
      let obj ← kallocStr
      let s := copystrFromUser (← get) mm (wordAt r.2 0) KSTRING_MAX
      if s.1 < 0 then
        if entries = 0 then kpanic else return (s.1, [obj], [])
      else
        let (ret, objs, args) ← readArgs mm (argv + 8) entries
        return (ret, obj :: objs, s.2.dropLast :: args)

/-- `sys_exec(path, argv)`. -/
def sysExec (curr : Slot) (path argv : Uint64) : KM Int := do
  let kpath ← liftVm kallocStr
  let mm ← getMm curr
  let name := copystrFromUser (← get).vm mm path KSTRING_MAX
  if name.1 < 0 then
    liftVm (kfreeStr kpath)
    return name.1
  else
    let (ret, objs, args) ← liftVm (readArgs mm argv MAXARG)
    let ret ← if ret < 0 then pure ret else exec curr name.2.dropLast args
    liftVm (kfreeStr kpath)
    liftVm (objs.forM kfreeStr)
    return ret

/-- The child `wait(pid, code)` collects. -/
def waitChild (pool : Slot → Proc) (curr : Slot) (pid : Int) : Option Slot :=
  (List.finRange NPROC).find? fun i => i ≠ curr ∧ (pool i).parent = some curr ∧
    (pool i).state = .zombie ∧ (pid ≤ 0 ∨ (pool i).pid = pid)

/-- `havekids` after a pass that collected nothing. -/
def haveKids (pool : Slot → Proc) (curr : Slot) : Bool :=
  (List.finRange NPROC).any fun i => i ≠ curr ∧ (pool i).parent = some curr

/-- One pass of the loop of `wait(pid, code)`: the result, or nothing when it goes to sleep. -/
def wait (curr : Slot) (pid : Int) (code : Uint64) : KM (Option Int) := do
  let k ← get
  match waitChild k.pool curr pid with
  | some child =>
    let cpid := (k.pool child).pid
    if code ≠ 0 then
      let mm ← getMm curr
      let status := intBytes (k.pool child).exitCode
      modify fun k => { k with vm := (copyToUser k.vm mm code status).2 }
    freeproc child
    return some cpid
  | none =>
    if !haveKids k.pool curr || (k.pool curr).killed ≠ 0 then
      return some (-ECHILD)
    else
      return none

/-- The string `init`. -/
def INIT_PROC : List Byte := [0x69, 0x6e, 0x69, 0x74]

/-- `load_init_app()`. -/
def loadInitApp : KM Unit := do
  match getElf (← get).userApps INIT_PROC with
  | none => panic
  | some app =>
    match ← allocproc with
    | none => panic
    | some i =>
      let p ← getProc i
      let (ret, p) ← liftVm (loadUserElf app p [])
      if ret < 0 then
        panic
      else
        modifyProc i fun _ => { p with state := .runnable }
        addTask i
        modify fun k => { k with initProc := some i }

end SignalOS
