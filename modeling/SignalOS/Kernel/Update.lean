import Mathlib.Data.Fintype.Card
import Mathlib.Logic.Relation
import SignalOS.Kernel.Step

/-!
# What a step can do to a process

Every invariant of the process table is about what one step may do to one slot.
This module says once what that is.

* `Act.sends`, `Act.kills` — the process an act sends a signal to, or kills.
* `Upd` — the updates of a slot that leave its kernel thread where it is; `Born` —
  those that fill an unused slot; `Own` — the step of the process that runs.
* `Queues` — the processes that become runnable are queued.
* `Within` — a computation makes only such updates, and queues what it wakes.
-/

namespace SignalOS

open Partial Relation

/-! ## Who is sent what -/

/-- The call of `sys_sigkill` in the next step of the process: `pid`, `signo` and `code`. -/
def sigkillCall (k : Kernel) (i : Slot) : Option (Int × Int × Int) :=
  let p := k.pool i
  match p.context with
  | .notifyParent code ppid => some (ppid, SIGCHLD.val, code)
  | .syscall =>
    match Sysno.ofId (toInt p.trapframe.a7) with
    | some .sigkill => some (toInt p.trapframe.a0, toInt p.trapframe.a1, toInt p.trapframe.a2)
    | some .ktest =>
      if p.trapframe.a0 = 5 then some (toInt p.trapframe.a1, SIGUSR2.val, 0) else none
    | some .kill =>
      (findByPid k.pool (toInt p.trapframe.a0)).bind fun victim =>
        (k.pool victim).parent.map fun parent => ((k.pool parent).pid, SIGCHLD.val, -1)
    | _ => none
  | _ => none

/-- A signal on its way: the target, the signal, its code and the sender's pid. -/
structure Sent where
  target : Slot
  signo : Signo
  code : Int
  sender : Int
  deriving DecidableEq

/-- What a call of `sys_sigkill` sends. -/
def sentBy (k : Kernel) (curr : Slot) (call : Int × Int × Int) : Option Sent :=
  (toSigno call.2.1).bind fun signo =>
    (findByPid k.pool call.1).map fun j => ⟨j, signo, call.2.2, (k.pool curr).pid⟩

/-- The process that takes a step. -/
def Act.runner (k : Kernel) : Act → Option Slot
  | .exec c | .trap c .. | .userStore c .. =>
    match k.cpus c with
    | .running i => some i
    | _ => none
  | _ => none

/-- The signal an act sends. -/
def Act.sends (k : Kernel) : Act → Option Sent
  | .exec c =>
    (Act.runner k (.exec c)).bind fun i => (sigkillCall k i).bind fun call => sentBy k i call
  | _ => none

/-- The process an act kills by `kill`. -/
def Act.kills (k : Kernel) : Act → Option Slot
  | .exec c => (Act.runner k (.exec c)).bind fun i =>
      let p := k.pool i
      if p.context = .syscall ∧ Sysno.ofId (toInt p.trapframe.a7) = some .kill then
        findByPid k.pool (toInt p.trapframe.a0)
      else none
  | _ => none

/-- The zombie that an act frees in `wait`. -/
def Act.reaps (k : Kernel) : Act → Option Slot
  | .exec c => (Act.runner k (.exec c)).bind fun i =>
      match (k.pool i).context with
      | .call (.wait pid _) => waitChild k.pool i pid
      | _ => none
  | _ => none

/-! ## Updates -/

/-- The updates of the process in slot `j` during the act `a` from `k` that leave its kernel
thread where it is. -/
inductive Upd (k : Kernel) (a : Act) (j : Slot) (p : Proc) : Proc → Prop
  | receive {signo : Signo} {code sender : Int} (h : a.sends k = some ⟨j, signo, code, sender⟩)
      (hctx : p.context = (k.pool j).context) (hstate : p.state = (k.pool j).state) :
      Upd k a j p (p.receive signo code sender).1
  | receiveKill (h : a.kills k = some j) (hp : p = k.pool j) : Upd k a j p p.receiveKill.1
  | wakeup (h : p.state = .sleeping) : Upd k a j p { p with state := .runnable }
  | reparent {i : Slot} {code : Int} {parentProc : Option Slot} (h : a.runner k = some i)
      (hctx : (k.pool i).context = .reparent code parentProc) (hparent : p.parent = some i) :
      Upd k a j p { p with parent := k.initProc }
  | free (h : a.reaps k = some j) (hp : p = k.pool j) : Upd k a j p p.release
  | memory (h : a.runner k = some j) (mm : Option Mm) (vmaBrk brk : Uint64) (tf : Trapframe) :
      Upd k a j p { p with mm := mm, vmaBrk := vmaBrk, brk := brk, trapframe := tf }
  | sigmask (h : a.runner k = some j) (hp : p = k.pool j) (hctx : p.context = .syscall)
      (hid : Sysno.ofId (toInt p.trapframe.a7) = some .sigprocmask ∨
        Sysno.ofId (toInt p.trapframe.a7) = some .sigreturn) (mask : Sigset) :
      Upd k a j p (p.setSigmask mask)
  | sigaction {mm : Mm} {signo : Int} {act oldact : Uint64} (h : a.runner k = some j)
      (hp : p = k.pool j) (hmm : p.mm = some mm) (hctx : p.context = .syscall)
      (hid : Sysno.ofId (toInt p.trapframe.a7) = some .sigaction)
      (hsigno : signo = toInt p.trapframe.a0) (hact : act = p.trapframe.a1)
      (hold : oldact = p.trapframe.a2) : Upd k a j p (sysSigaction mm p k.vm signo act oldact).2.1
  | exec {ret : Int} {k₁ : Kernel} (h : a.runner k = some j) (hp : p = k.pool j)
      (hctx : p.context = .syscall) (hid : Sysno.ofId (toInt p.trapframe.a7) = some .exec)
      (hcall : sysExec j p.trapframe.a0 p.trapframe.a1 k = some (ret, k₁)) (hret : 0 ≤ ret) :
      Upd k a j p { p with signal := siginitExec p.signal }
  | sleepChan (h : a.runner k = some j) (chan : Option Chan) :
    Upd k a j p { p with sleepChan := chan }
  | clearNeedStop (h : a.runner k = some j) (hctx : p.context = .clearNeedStop) :
      Upd k a j p { p with needStop := 0 }

/-- The updates that put a process with the given pid into an unused slot, or try to. -/
inductive Born (k : Kernel) (a : Act) (pid : Int) (p : Proc) : Proc → Prop
  | fork {i : Slot} (h : a.runner k = some i) (hctx : (k.pool i).context = .syscall) (mm : Mm)
      (start : Uint64) :
      Born k a pid p ((p.allocate pid).becomeChild (k.pool i) i mm start)
  | failed : Born k a pid p (p.allocate pid).release
  | init (h : a = .loadInitApp) (img : Image) (eEntry : Uint64) :
      Born k a pid p { (p.allocate pid).installImage img eEntry 0 with state := .runnable }

/-- One change of the process table during the act `a` from `k₀`. -/
inductive Change (k₀ : Kernel) (a : Act) (k k' : Kernel) : Prop
  | update (pool : ∀ j, k'.pool j = k.pool j ∨ Upd k₀ a j (k.pool j) (k'.pool j))
      (pids : k'.pids = k.pids)
  | born (j : Slot) (start : k.pool j = k₀.pool j) (unused : (k.pool j).state = .unused)
      (others : ∀ i, i ≠ j → k'.pool i = k.pool i)
      (born : Born k₀ a (wrapInt (k.pids + 1)) (k.pool j) (k'.pool j))
      (pids : k'.pids = k.pids + 1)

/-- The process table, the CPUs and the locks are the same in both states. -/
structure Frame (k k' : Kernel) : Prop where
  pool : k'.pool = k.pool
  pids : k'.pids = k.pids
  cpus : k'.cpus = k.cpus
  locks : k'.locks = k.locks
  initProc : k'.initProc = k.initProc

namespace Frame

variable {k k' k'' : Kernel} {i : Slot} {p q : Proc}

theorem trans (h : Frame k k') (h' : Frame k' k'') : Frame k k'' :=
  ⟨h'.pool.trans h.pool, h'.pids.trans h.pids, h'.cpus.trans h.cpus, h'.locks.trans h.locks,
    h'.initProc.trans h.initProc⟩

/-- A second store to the same slot. -/
theorem overwrite (h : Frame (k.setProc i p) k') : Frame (k.setProc i q) (k'.setProc i q) := by
  refine ⟨?_, h.pids, h.cpus, h.locks, h.initProc⟩
  rw [Kernel.setProc, h.pool]
  exact Function.update_idem _ _ _

theorem pool_self (h : Frame (k.setProc i p) k') : k'.pool i = p := by
  rw [h.pool, Kernel.setProc_pool_self]

end Frame

/-! ## The task queue -/

/-- The queue has only runnable processes, and none twice. -/
structure Queued (k : Kernel) : Prop where
  nodup : k.taskQueue.Nodup
  runnable : ∀ i ∈ k.taskQueue, (k.pool i).state = .runnable

/-- The process has become runnable. -/
def Woken (k k' : Kernel) (i : Slot) : Prop :=
  (k.pool i).state ≠ .runnable ∧ (k'.pool i).state = .runnable

/-- The processes that become runnable are queued, and nothing is reported. -/
structure Queues (k k' : Kernel) : Prop where
  stays : ∀ i, (k.pool i).state = .runnable → (k'.pool i).state = .runnable
  added : Queued k → k'.log = k.log ∧ ∃ woken : List Slot, k'.taskQueue = k.taskQueue ++ woken ∧
    woken.Nodup ∧ ∀ i, i ∈ woken ↔ Woken k k' i

/-- The queue and the log are the same in both states. -/
structure SameQueue (k k' : Kernel) : Prop where
  taskQueue : k'.taskQueue = k.taskQueue
  log : k'.log = k.log

theorem SameQueue.trans {k k' k'' : Kernel} (h : SameQueue k k') (h' : SameQueue k' k'') :
    SameQueue k k'' := ⟨h'.taskQueue.trans h.taskQueue, h'.log.trans h.log⟩

theorem SameQueue.of_setProc {k k' : Kernel} {i : Slot} {p : Proc}
    (h : SameQueue (k.setProc i p) k') :
    SameQueue k k' :=
  ⟨h.taskQueue, h.log⟩

namespace Queues

variable {k k₁ k' k'' : Kernel} {i : Slot} {p : Proc}

theorem of_same (hstate : ∀ i, (k'.pool i).state = .runnable ↔ (k.pool i).state = .runnable)
    (hsame : SameQueue k k') : Queues k k' := by
  refine ⟨fun i => (hstate i).2, fun _ => ⟨hsame.log, [], ?_, .nil, fun i => ?_⟩⟩
  · rw [hsame.taskQueue, List.append_nil]
  · refine iff_of_false List.not_mem_nil fun hwoken => ?_
    exact hwoken.1 ((hstate i).1 hwoken.2)

theorem refl (k : Kernel) : Queues k k := of_same (fun _ => Iff.rfl) ⟨rfl, rfl⟩

/-- The queue stays in order. -/
theorem queued (h : Queues k k') (hq : Queued k) : Queued k' := by
  obtain ⟨-, woken, hqueue, hnodup, hwoken⟩ := h.added hq
  refine ⟨?_, fun i hi => ?_⟩
  · rw [hqueue]
    refine hq.nodup.append hnodup fun i hi hi' => ?_
    exact ((hwoken i).1 hi').1 (hq.runnable i hi)
  · rw [hqueue, List.mem_append] at hi
    exact hi.elim (fun hold => h.stays i (hq.runnable i hold)) fun hnew => ((hwoken i).1 hnew).2

theorem trans (h : Queues k k') (h' : Queues k' k'') : Queues k k'' := by
  refine ⟨fun i hi => h'.stays i (h.stays i hi), fun hq => ?_⟩
  obtain ⟨hlog, woken, hqueue, hnodup, hwoken⟩ := h.added hq
  obtain ⟨hlog', woken', hqueue', hnodup', hwoken'⟩ := h'.added (h.queued hq)
  refine ⟨hlog'.trans hlog, woken ++ woken', ?_, ?_, fun i => ?_⟩
  · rw [hqueue', hqueue, List.append_assoc]
  · refine hnodup.append hnodup' fun i hi hi' => ?_
    exact ((hwoken' i).1 hi').1 ((hwoken i).1 hi).2
  · rw [List.mem_append, hwoken, hwoken']
    constructor
    · rintro (⟨hbefore, hmid⟩ | ⟨hmid, hafter⟩)
      · exact ⟨hbefore, h'.stays i hmid⟩
      · exact ⟨fun hbefore => hmid (h.stays i hbefore), hafter⟩
    · rintro ⟨hbefore, hafter⟩
      by_cases hmid : (k'.pool i).state = .runnable
      · exact .inl ⟨hbefore, hmid⟩
      · exact .inr ⟨hmid, hafter⟩

/-- A queue in order has room for a process that it does not hold. -/
theorem room (hq : Queued k) (hi : (k.pool i).state ≠ .runnable) : k.taskQueue.length < NPROC := by
  have hnodup : (i :: k.taskQueue).Nodup :=
    hq.nodup.cons fun hmem => hi (hq.runnable i hmem)
  have hlength := hnodup.length_le_card
  simpa [Nat.succ_le_iff] using hlength

/-- One process becomes runnable and is pushed. -/
theorem of_push (hbefore : (k.pool i).state ≠ .runnable) (hafter : (k₁.pool i).state = .runnable)
    (hothers : ∀ j, j ≠ i → ((k₁.pool j).state = .runnable ↔ (k.pool j).state = .runnable))
    (hsame : SameQueue k k₁) : Queues k (k₁.pushQueue i) := by
  refine ⟨fun j hj => ?_, fun hq => ?_⟩
  · rw [Kernel.pushQueue_pool]
    by_cases hji : j = i
    · exact hji ▸ hafter
    · exact (hothers j hji).2 hj
  · have hroom : k₁.taskQueue.length ≠ NPROC := by
      rw [hsame.taskQueue]
      exact (room hq hbefore).ne
    rw [Kernel.pushQueue, if_neg hroom]
    refine ⟨hsame.log, [i], ?_, List.nodup_singleton i, fun j => ?_⟩
    · rw [hsame.taskQueue]
    · rw [List.mem_singleton]
      constructor
      · rintro rfl
        exact ⟨hbefore, hafter⟩
      · rintro ⟨hj, hj'⟩
        by_contra hji
        exact hj ((hothers j hji).1 hj')

theorem of_setProc_push (hbefore : (k.pool i).state ≠ .runnable) (hafter : p.state = .runnable) :
    Queues k ((k.setProc i p).pushQueue i) := by
  refine of_push hbefore (by rwa [Kernel.setProc_pool_self]) (fun j hj => ?_) ⟨rfl, rfl⟩
  rw [Kernel.setProc_pool_of_ne hj]

end Queues

/-- The table goes from one state to the other by such changes, the CPUs stay what they are, and
so do the locks of all processes but the one that takes the step. -/
structure Within (k₀ : Kernel) (a : Act) (k k' : Kernel) : Prop where
  changes : ReflTransGen (Change k₀ a) k k'
  cpus : k'.cpus = k.cpus
  queues : Queues k k'
  locks : ∀ lk j, k.locks lk = some j → a.runner k₀ ≠ some j → k'.locks lk = some j
  initProc : a ≠ .loadInitApp → k'.initProc = k.initProc

/-! ## The thread that runs -/

/-- The ways of a kernel thread that does not leave its CPU. -/
inductive Moves (p : Proc) : Context → Context → Prop
  | firstRun : Moves p .firstSchedRet .usertrapret
  | interrupted {cause : Cause} (timer : Bool) (h : cause ≠ .ecall) :
      Moves p (.usertrap cause) (.stillAlive timer)
  | ecallKilled (h : p.killed ≠ 0) : Moves p (.usertrap .ecall) (.exit p.killed)
  | ecall (h : p.killed = 0) : Moves p (.usertrap .ecall) .syscall
  | sysExit (code : Int) : Moves p .syscall (.exit code)
  | sysCall (b : Blocking) : Moves p .syscall (.call b)
  | sysReturn : Moves p .syscall (.stillAlive false)
  | callReturn (b : Blocking) : Moves p (.call b) (.stillAlive false)
  | callSleep (b b' : Blocking) (h : b'.lock = b.lock) : Moves p (.call b) (.sleep b')
  | wake (b : Blocking) : Moves p (.asleep b) (.call b)
  | yieldReturn : Moves p .sysYield (.stillAlive false)
  | killed (timer : Bool) (h : p.killed ≠ 0) : Moves p (.stillAlive timer) (.exit p.killed)
  | yield (h : p.killed = 0) : Moves p (.stillAlive true) .yield
  | signals (h : p.killed = 0) : Moves p (.stillAlive false) (.doSignal allSignos)
  | yielded : Moves p .yielded (.doSignal allSignos)
  | scanned : Moves p (.doSignal []) .stillAliveAfterSignal
  | copied (signo : Signo) (rest : List Signo) (f : SiginfoField) (fields : List SiginfoField)
      (info : Siginfo) :
      Moves p (.copyInfo signo rest (f :: fields) info)
        (.copyInfo signo rest fields (info.copyField (p.signal.siginfos signo) f))
  | dropped (signo : Signo) (rest : List Signo) (info : Siginfo) :
      Moves p (.copyInfo signo rest [] info) (.doSignal rest)
  | killedBySignal (h : p.killed ≠ 0) : Moves p .stillAliveAfterSignal (.exit p.killed)
  | leave (h : p.killed = 0) : Moves p .stillAliveAfterSignal .usertrapret
  | needStop (h : p.needStop ≠ 0) : Moves p .usertrapret .clearNeedStop
  | noStop (h : p.needStop = 0) : Moves p .usertrapret .jump
  | stopping : Moves p .clearNeedStop .stop
  | continued : Moves p .stopped .jump
  | jump : Moves p .jump .user
  | exit (code : Int) (parentProc : Option Slot) : Moves p (.exit code) (.reparent code parentProc)
  | notify (code : Int) (parentProc : Option Slot) (ppid : Int) :
      Moves p (.reparent code parentProc) (.notifyParent code ppid)
  | childless (code : Int) (parentProc : Option Slot) :
      Moves p (.reparent code parentProc) (.wakeParent code)
  | reparented (code : Int) (parentProc : Option Slot) :
      Moves p (.reparent code parentProc) (.wakeInit code)
  | initWoken (code : Int) : Moves p (.wakeInit code) (.wakeParent code)
  | notified (code ppid : Int) : Moves p (.notifyParent code ppid) (.wakeParent code)
  | parentWoken (code : Int) : Moves p (.wakeParent code) (.finish code)

/-- The ways of a kernel thread into `sched()`. -/
inductive Parks : Context → ProcState → Context → Prop
  | sleep (b : Blocking) : Parks (.sleep b) .sleeping (.asleep b)
  | yield : Parks .yield .runnable .yielded
  | sysYield : Parks .syscall .runnable .sysYield
  | stop : Parks .stop .stopped .stopped

/-- The reason for which the trap marks the process killed. -/
def faultReason (k : Kernel) (i : Slot) : Cause → Option Int
  | .pageFault addr store =>
    ((k.pool i).mm.bind fun mm => repairFault mm addr store k.vm).bind fun repaired =>
      if repaired.1 then none else some (-2)
  | .exception => some (-3)
  | .timer | .external | .interrupt | .ecall => none

/-- The end of a step of the process that runs in slot `i`. -/
inductive Own (k : Kernel) (i : Slot) (p : Proc) : Proc → Prop
  | goto {context : Context} (h : Moves p p.context context) :
    Own k i p { p with context := context }
  | park {state : ProcState} {context : Context} (h : Parks p.context state context) :
      Own k i p { p with state := state, context := context }
  | die {code : Int} (hctx : p.context = .finish code) :
      Own k i p { p with exitCode := code, state := .zombie, context := .dead }
  | trap (hctx : p.context = .user) (cause : Cause) (tf : Trapframe) :
      Own k i p { p with trapframe := tf, context := .usertrap cause }
  | fault {cause : Cause} {reason : Int} (hp : p = k.pool i) (hctx : p.context = .usertrap cause)
      (hkills : faultReason k i cause = some reason) :
      Own k i p { p with killed := reason, context := .stillAlive false }
  | turn {signo : Signo} {rest : List Signo} {q : Proc} (hp : p = k.pool i)
      (hctx : p.context = .doSignal (signo :: rest)) (h : takeSignal signo p = .next q) :
      Own k i p { q with context := .doSignal rest }
  | take {signo : Signo} {rest : List Signo} (hp : p = k.pool i)
      (hctx : p.context = .doSignal (signo :: rest))
      (h : takeSignal signo p = .handler (p.delPending signo)) :
      Own k i p { p.delPending signo with context := .copyInfo signo rest Siginfo.fields .zero }
  | install {signo : Signo} {rest : List Signo} {info : Siginfo} (hp : p = k.pool i)
      (hctx : p.context = .copyInfo signo rest [] info) :
      Own k i p { p.enterHandler signo with context := .stillAliveAfterSignal }

/-! ## Computations that change the table only in these ways -/

namespace Within

variable {k₀ k k' k'' : Kernel} {a : Act} {i : Slot} {α β : Type}

theorem refl (k : Kernel) : Within k₀ a k k :=
  ⟨.refl, rfl, .refl k, fun _ _ h _ => h, fun _ => rfl⟩

theorem trans (h : Within k₀ a k k') (h' : Within k₀ a k' k'') : Within k₀ a k k'' where
  changes := h.changes.trans h'.changes
  cpus := h'.cpus.trans h.cpus
  queues := h.queues.trans h'.queues
  locks lk j hlk hj := h'.locks lk j (h.locks lk j hlk hj) hj
  initProc ha := (h'.initProc ha).trans (h.initProc ha)

theorem of_frame (h : Frame k k') (hsame : SameQueue k k') : Within k₀ a k k' where
  changes := .single (.update (fun j => .inl (congrFun h.pool j)) h.pids)
  cpus := h.cpus
  queues := .of_same (fun j => by rw [h.pool]) hsame
  locks lk j hlk _ := by rwa [h.locks]
  initProc _ := h.initProc

theorem change_setProc {p : Proc} (h : Upd k₀ a i (k.pool i) p) :
    Change k₀ a k (k.setProc i p) := by
  refine .update (fun j => ?_) rfl
  by_cases hj : j = i
  · subst hj
    exact .inr (by rwa [Kernel.setProc_pool_self])
  · exact .inl (Kernel.setProc_pool_of_ne hj k p)

/-- An update that does not wake the process. -/
theorem setProc {p : Proc} (h : Upd k₀ a i (k.pool i) p)
    (hstate : p.state = .runnable ↔ (k.pool i).state = .runnable) :
    Within k₀ a k (k.setProc i p) where
  changes := .single (change_setProc h)
  cpus := rfl
  queues := by
    refine .of_same (fun j => ?_) ⟨rfl, rfl⟩
    by_cases hj : j = i
    · rw [hj, Kernel.setProc_pool_self, hstate]
    · rw [Kernel.setProc_pool_of_ne hj]
  locks _ _ hlk _ := hlk
  initProc _ := rfl

/-- Two updates of one process, made in one store. -/
theorem setProc_two {p q : Proc} (hp : Upd k₀ a i (k.pool i) p) (hq : Upd k₀ a i p q)
    (hstate : p.state = .runnable ↔ (k.pool i).state = .runnable)
    (hstate' : q.state = .runnable ↔ p.state = .runnable) :
    Within k₀ a k (k.setProc i q) := by
  have hlast : Frame ((k.setProc i p).setProc i q) (k.setProc i q) :=
    ⟨(Function.update_idem _ _ _).symm, rfl, rfl, rfl, rfl⟩
  rw [← Kernel.setProc_pool_self k i p] at hq hstate'
  exact (setProc hp hstate).trans ((setProc hq hstate').trans (of_frame hlast ⟨rfl, rfl⟩))

/-- An update that wakes the process, which is pushed on the queue. -/
theorem setProc_push {p : Proc} (h : Upd k₀ a i (k.pool i) p)
    (hbefore : (k.pool i).state ≠ .runnable) (hafter : p.state = .runnable) :
    Within k₀ a k ((k.setProc i p).pushQueue i) where
  changes := by
    have hlast : Change k₀ a (k.setProc i p) ((k.setProc i p).pushQueue i) :=
      .update (fun j => .inl (by rw [Kernel.pushQueue_pool])) (Kernel.pushQueue_pids _ _)
    exact ReflTransGen.tail (.single (change_setProc h)) hlast
  cpus := Kernel.pushQueue_cpus _ _
  queues := .of_setProc_push hbefore hafter
  locks lk j hlk _ := by rwa [Kernel.pushQueue_locks]
  initProc _ := Kernel.pushQueue_initProc _ _

/-- An update whose flag says whether it wakes the process. -/
theorem of_storeProc {r : Proc × Bool} {u : Unit} (h : Upd k₀ a i (k.pool i) r.1)
    (hwakes : r.2 = true → (k.pool i).state ≠ .runnable ∧ r.1.state = .runnable)
    (hkeeps : r.2 = false → r.1.state = (k.pool i).state)
    (hstore : storeProc i r k = some (u, k')) : Within k₀ a k k' := by
  rw [storeProc_eq_some fun hset => (hwakes hset).2] at hstore
  rw [hstore]
  split
  · rename_i hset
    exact setProc_push h (hwakes hset).1 (hwakes hset).2
  · rename_i hset
    exact setProc h (by rw [hkeeps (Bool.eq_false_iff.2 hset)])

theorem keeps_pure (x : α) : Keeps (Within k₀ a) (pure x : KM α) := .pure refl x

theorem keeps_bind {x : KM α} {f : α → KM β} (hx : Keeps (Within k₀ a) x)
    (hf : ∀ b, Keeps (Within k₀ a) (f b)) : Keeps (Within k₀ a) (x >>= f) :=
  .bind (fun _ _ _ => trans) hx hf

theorem keeps_get : Keeps (Within k₀ a) (get : KM Kernel) := by
  intro k b k' h
  obtain ⟨-, rfl⟩ := get_eq_some.1 h
  exact refl _

theorem keeps_modify {f : Kernel → Kernel} (hf : ∀ k, Frame k (f k) ∧ SameQueue k (f k)) :
    Keeps (Within k₀ a) (modify f : KM PUnit) := by
  intro k b k' h
  rw [modify_eq_some.1 h]
  exact of_frame (hf k).1 (hf k).2

theorem keeps_liftVm (x : VmM α) : Keeps (Within k₀ a) (liftVm x) := by
  intro k b k' h
  obtain ⟨vm, -, rfl⟩ := liftVm_eq_some.1 h
  exact of_frame ⟨rfl, rfl, rfl, rfl, rfl⟩ ⟨rfl, rfl⟩

theorem keeps_getProc (j : Slot) : Keeps (Within k₀ a) (getProc j) := by
  intro k p k' h
  obtain ⟨-, rfl⟩ := getProc_eq_some.1 h
  exact refl _

theorem keeps_getMm (j : Slot) : Keeps (Within k₀ a) (getMm j) := by
  intro k mm k' h
  obtain ⟨-, rfl⟩ := getMm_eq_some.1 h
  exact refl _

theorem keeps_modifyProc {f : Proc → Proc} (h : ∀ p, Upd k₀ a i p (f p))
    (hstate : ∀ p, (f p).state = p.state) :
    Keeps (Within k₀ a) (modifyProc i f) := by
  intro k b k' hf
  rw [modifyProc_eq_some.1 hf]
  exact setProc (h _) (by rw [hstate])

theorem keeps_wakeup (chan : Option Chan) : Keeps (Within k₀ a) (wakeup chan) := by
  refine Keeps.forM refl (fun _ _ _ => trans) fun i => ?_
  intro k b k' h
  rw [getProc_bind] at h
  split at h
  · rename_i hsleeps
    simp only [Proc.sleepsOn, Bool.and_eq_true, decide_eq_true_eq] at hsleeps
    refine of_storeProc (.wakeup hsleeps.1) (fun _ => ⟨?_, rfl⟩) (by simp) h
    rw [hsleeps.1]
    decide
  · exact (pure_eq_some.1 h).2 ▸ refl _

/-! ## Locks -/

theorem acquireLock_eq_some {lk : SleepLock} {u : Unit} :
    acquireLock lk i k = some (u, k') ↔ (k.locks lk = none ∨ k.locks lk = some i) ∧
      k' = { k with locks := Function.update k.locks lk (some i) } := by
  simp only [acquireLock, get_bind]
  split
  · rename_i hfree
    exact modify_eq_some.trans (and_iff_right hfree).symm
  · rename_i hheld
    exact iff_of_false (by rintro ⟨⟩) fun h => hheld h.1

/-- The process that takes the step changes a lock that no other process holds. -/
theorem of_lock {lk : SleepLock} (holder : Option Slot) (hrun : a.runner k₀ = some i)
    (hfree : k.locks lk = none ∨ k.locks lk = some i) :
    Within k₀ a k { k with locks := Function.update k.locks lk holder } where
  changes := .single (.update (fun _ => .inl rfl) rfl)
  cpus := rfl
  queues := .of_same (fun _ => Iff.rfl) ⟨rfl, rfl⟩
  initProc _ := rfl
  locks lk' j hlk hj := by
    have hne : lk' ≠ lk := by
      rintro rfl
      rcases hfree with hfree | hfree
      · exact nomatch hfree.symm.trans hlk
      · exact hj (hrun.trans (hfree.symm.trans hlk))
    exact (Function.update_of_ne hne _ _).trans hlk

theorem of_acquireLock {lk : SleepLock} {u : Unit} (hrun : a.runner k₀ = some i)
    (h : acquireLock lk i k = some (u, k')) : Within k₀ a k k' := by
  obtain ⟨hfree, rfl⟩ := acquireLock_eq_some.1 h
  exact of_lock _ hrun hfree

theorem of_releaseLock {lk : SleepLock} {u : Unit} (hrun : a.runner k₀ = some i)
    (hheld : k.locks lk = some i) (h : releaseLock lk k = some (u, k')) : Within k₀ a k k' := by
  rw [modify_eq_some.1 h]
  exact of_lock none hrun (.inr hheld)

end Within

end SignalOS
