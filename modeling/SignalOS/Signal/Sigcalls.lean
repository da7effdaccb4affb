import SignalOS.Proc.Proc
import SignalOS.Vm.Uaccess

/-!
# The signal system calls on the calling process

`sys_sigaction`, `sys_sigreturn`, `sys_sigprocmask` and `sys_sigpending` of
`ksignal.c`, on the process that makes the call, its address space and memory.
An address argument of 0 is `NULL`.
-/

namespace SignalOS

open LittleEndian

/-- `p->signal.sa[signo] = sa`. -/
def Proc.setSa (p : Proc) (signo : Signo) (sa : Sigaction) : Proc :=
  { p with signal := { p.signal with sa := Function.update p.signal.sa signo sa } }

@[simp] theorem Proc.sa_setSa_self (p : Proc) (signo : Signo) (sa : Sigaction) :
    (p.setSa signo sa).signal.sa signo = sa := Function.update_self _ _ _

@[simp] theorem Proc.sa_setSa_of_ne {signo n : Signo} (h : n ≠ signo) (p : Proc) (sa : Sigaction) :
    (p.setSa signo sa).signal.sa n = p.signal.sa n := Function.update_of_ne h _ _

def Proc.setSigmask (p : Proc) (mask : Sigset) : Proc :=
  { p with signal := { p.signal with sigmask := mask } }

/-- The check on a new action for `SIGKILL` or `SIGSTOP`: it is read from user memory and
must be `SIG_DFL`. -/
def sigactionAllowed (vm : Vm) (mm : Mm) (act : Uint64) : Bool :=
  let r := copyFromUser vm mm act sizeofSigaction
  !(r.1 < 0) && (Sigaction.ofBytes r.2).saSigaction == SIG_DFL

/-- `sys_sigaction(signo, act, oldact)`.  The new action is copied over the old one in
place, so a copy that stops half way leaves the first bytes of the new one. -/
def sysSigaction (mm : Mm) (p : Proc) (vm : Vm) (signo : Int) (act oldact : Uint64) :
    Int × Proc × Vm :=
  match toSigno signo with
  | none => (-EINVAL, p, vm)
  | some signo =>
    if (signo = SIGKILL ∨ signo = SIGSTOP) ∧ act ≠ 0 ∧ !sigactionAllowed vm mm act then
      (-EINVAL, p, vm)
    else
      let oldSa := p.signal.sa signo
      let w := if oldact ≠ 0 then copyToUser vm mm oldact oldSa.toBytes else (0, vm)
      if w.1 < 0 then (-EINVAL, p, w.2)
      else if act ≠ 0 then
        let r := copyFromUser w.2 mm act sizeofSigaction
        let p := p.setSa signo (Sigaction.ofBytes (splice r.2 oldSa.toBytes))
        (if r.1 < 0 then -EINVAL else 0, p, w.2)
      else (0, p, w.2)

/-- `sys_sigreturn()`. -/
def sysSigreturn (mm : Mm) (p : Proc) (vm : Vm) : Int × Proc :=
  let r := copyFromUser vm mm (p.trapframe.sp + BitVec.ofNat 64 sizeofSiginfo) sizeofUcontext
  if r.1 < 0 then (-EINVAL, p)
  else
    let uc := Ucontext.ofBytes r.2
    (0, { p.setSigmask uc.ucSigmask with trapframe := uc.restore })

/-- `sys_sigprocmask(how, set, oldset)`. -/
def sysSigprocmask (mm : Mm) (p : Proc) (vm : Vm) (how : Int) (set oldset : Uint64) :
    Int × Proc × Vm :=
  let w :=
    if oldset ≠ 0 then copyToUser vm mm oldset (bytesOfWords [p.signal.sigmask]) else (0, vm)
  if w.1 < 0 then (-EINVAL, p, w.2)
  else if set ≠ 0 then
    let r := copyFromUser w.2 mm set sizeofSigset
    if r.1 < 0 then (-EINVAL, p, w.2)
    else
      let tmp := wordAt r.2 0
      if how = SIG_BLOCK then (0, p.setSigmask (p.signal.sigmask ||| tmp), w.2)
      else if how = SIG_UNBLOCK then (0, p.setSigmask (p.signal.sigmask &&& ~~~tmp), w.2)
      else if how = SIG_SETMASK then (0, p.setSigmask tmp, w.2)
      else (-EINVAL, p, w.2)
  else (0, p, w.2)

/-- `sys_sigpending(set)`. -/
def sysSigpending (mm : Mm) (p : Proc) (vm : Vm) (set : Uint64) : Int × Vm :=
  if set = 0 then (-EINVAL, vm)
  else
    let w := copyToUser vm mm set (bytesOfWords [p.signal.sigpending])
    (if w.1 < 0 then -EINVAL else 0, w.2)

/-! ## What the calls leave alone -/

theorem sysSigaction_pte (mm : Mm) (p : Proc) (vm : Vm) (signo : Int) (act oldact : Uint64) :
    (sysSigaction mm p vm signo act oldact).2.2.pte = vm.pte := by
  rw [sysSigaction]
  cases toSigno signo with
  | none => rfl
  | some signo =>
    dsimp only
    split
    · rfl
    · by_cases hold : oldact ≠ 0
      · simp only [if_pos hold]
        split_ifs <;> exact copyToUser_pte _ _ _ _
      · simp only [if_neg hold]
        split_ifs <;> rfl

/-- `sys_sigaction` changes nothing of the process but a disposition. -/
theorem sysSigaction_proc (mm : Mm) (p : Proc) (vm : Vm) (signo : Int) (act oldact : Uint64) :
    ∃ sa, (sysSigaction mm p vm signo act oldact).2.1 =
      { p with signal := { p.signal with sa := sa } } := by
  rw [sysSigaction]
  cases toSigno signo with
  | none => exact ⟨p.signal.sa, rfl⟩
  | some signo =>
    dsimp only
    split_ifs <;> first | exact ⟨p.signal.sa, rfl⟩ | exact ⟨_, rfl⟩

theorem sysSigprocmask_pte (mm : Mm) (p : Proc) (vm : Vm) (how : Int) (set oldset : Uint64) :
    (sysSigprocmask mm p vm how set oldset).2.2.pte = vm.pte := by
  rw [sysSigprocmask]
  by_cases hold : oldset ≠ 0
  · simp only [if_pos hold]
    split_ifs <;> exact copyToUser_pte _ _ _ _
  · simp only [if_neg hold]
    split_ifs <;> rfl

end SignalOS
