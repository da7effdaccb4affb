import SignalOS.Kernel.Inversion

/-!
# The tick counter

Only a timer interrupt of CPU 0 changes `ticks`.

* `KeepsTicks` — no run of a computation changes the counter.
* `Act.ticks` — the ticks of an act, 0 or 1.
* `step_ticks` — **what a step does to the counter**.
-/

namespace SignalOS

open Partial

variable {α β : Type} {k k' : Kernel} {a : Act} {c : CpuId} {i : Slot}

/-- The counter is the same in both states. -/
def SameTicks (k k' : Kernel) : Prop := k'.ticks = k.ticks

/-- No run of the computation changes the counter. -/
def KeepsTicks (x : KM α) : Prop := Keeps SameTicks x

namespace KeepsTicks

theorem pure (x : α) : KeepsTicks (Pure.pure x) := Keeps.pure (R := SameTicks) (fun _ => rfl) x

theorem fail : KeepsTicks (fun _ => none : KM α) := Keeps.fail

theorem bind {x : KM α} {f : α → KM β} (hx : KeepsTicks x) (hf : ∀ b, KeepsTicks (f b)) :
    KeepsTicks (x >>= f) :=
  Keeps.bind (fun _ _ _ h h' => Eq.trans h' h) hx hf

theorem get : KeepsTicks (MonadState.get : KM Kernel) := Keeps.get (R := SameTicks) fun _ => rfl

/-- Other fields are set. -/
theorem modify {f : Kernel → Kernel} (hf : ∀ k, (f k).ticks = k.ticks) :
    KeepsTicks (modify f : KM Unit) :=
  Keeps.modify hf

theorem ite {p : Prop} [Decidable p] {x y : KM α} (hx : KeepsTicks x) (hy : KeepsTicks y) :
    KeepsTicks (if p then x else y) := Keeps.ite hx hy

theorem forM {l : List β} {g : β → KM Unit} (hg : ∀ b, KeepsTicks (g b)) : KeepsTicks (l.forM g) :=
  Keeps.forM (fun _ => rfl) (fun _ _ _ h h' => Eq.trans h' h) hg

theorem discard {x : KM α} (hx : KeepsTicks x) : KeepsTicks (Functor.discard x) := by
  intro k u k' h
  obtain ⟨b, hx'⟩ := discard_eq_some.1 h
  exact hx _ _ _ hx'

theorem getProc (i : Slot) : KeepsTicks (getProc i) := bind get fun _ => pure _

theorem modifyProc (i : Slot) (f : Proc → Proc) : KeepsTicks (modifyProc i f) :=
  modify fun _ => rfl

theorem liftVm (x : VmM α) : KeepsTicks (liftVm x) := by
  intro k b k' h
  obtain ⟨vm, -, rfl⟩ := liftVm_eq_some.1 h
  rfl

theorem getMm (i : Slot) : KeepsTicks (getMm i) := by
  intro k mm k' h
  obtain ⟨-, rfl⟩ := getMm_eq_some.1 h
  rfl

end KeepsTicks

/-! ## The operations of the kernel -/

theorem pushQueue_ticks (k : Kernel) (i : Slot) : (k.pushQueue i).ticks = k.ticks := by
  rw [Kernel.pushQueue]
  split <;> rfl

theorem addTask_ticks (i : Slot) : KeepsTicks (addTask i) := by
  refine .bind (.getProc i) fun p => ?_
  dsimp only
  split
  · exact .bind (.modify fun _ => rfl) fun _ => .bind (.modifyProc i _) fun _ => .modify fun k =>
      pushQueue_ticks k i
  · exact .modify fun k => pushQueue_ticks k i

theorem storeProc_ticks (i : Slot) (r : Proc × Bool) : KeepsTicks (storeProc i r) := by
  refine .bind (.modifyProc i _) fun _ => ?_
  split
  · exact addTask_ticks i
  · exact .pure _

theorem wakeup_ticks (chan : Option Chan) : KeepsTicks (wakeup chan) := by
  refine .forM fun i => .bind (.getProc i) fun p => ?_
  split
  · exact storeProc_ticks i _
  · exact .pure _

theorem allocproc_ticks : KeepsTicks allocproc := by
  refine .bind .get fun k => ?_
  split
  · exact .pure _
  · exact .bind (.modify fun _ => rfl) fun _ => .bind (.modifyProc _ _) fun _ => .pure _

theorem freeproc_ticks (i : Slot) : KeepsTicks (freeproc i) := by
  refine .bind (.getProc i) fun p => ?_
  dsimp only
  split
  · exact .modifyProc i _
  · exact .bind (.liftVm _) fun _ => .modifyProc i _

theorem sysSigkill_ticks (curr : Slot) (pid signo code : Int) :
    KeepsTicks (sysSigkill curr pid signo code) := by
  rw [sysSigkill]
  split
  · exact .pure _
  · refine .bind .get fun k => ?_
    split
    · exact .pure _
    · exact .bind (storeProc_ticks _ _) fun _ => .pure _

theorem kill_ticks (curr : Slot) (pid : Int) : KeepsTicks (kill curr pid) := by
  refine .bind .get fun k => ?_
  split
  · exact .pure _
  · refine .bind (.getProc _) fun p => .bind (storeProc_ticks _ _) fun _ =>
      .bind (.getProc _) fun p => ?_
    split
    · exact .pure _
    · refine .bind (.getProc _) fun p => .bind .get fun k => ?_
      split
      · exact .fail
      · split
        · exact .fail
        · exact .bind (.discard (sysSigkill_ticks _ _ _ _)) fun _ => .pure _

theorem fork_ticks (curr : Slot) : KeepsTicks (fork curr) := by
  refine .bind allocproc_ticks fun np => ?_
  split
  · exact .pure _
  · refine .bind (.getProc _) fun p => .bind (.liftVm _) fun npMm => ?_
    split
    · exact .bind (freeproc_ticks _) fun _ => .pure _
    · refine .bind (.getProc _) fun p => .bind (.getMm _) fun mm => .bind (.liftVm _) fun r => ?_
      dsimp only
      split
      · exact .bind (.modifyProc _ _) fun _ => .bind (freeproc_ticks _) fun _ => .pure _
      · refine .bind ?_ fun start => .bind (.modifyProc _ _) fun _ =>
          .bind (addTask_ticks _) fun _ =>
          .bind (.getProc _) fun p => .pure _
        rw [brkStart]
        split
        · exact .fail
        · exact .pure _

theorem exec_ticks (curr : Slot) (name : List Byte) (args : List (List Byte)) :
    KeepsTicks (exec curr name args) := by
  refine .bind .get fun k => ?_
  split
  · exact .pure _
  · refine .bind (.getProc _) fun p => .bind (.liftVm _) fun r => ?_
    dsimp only
    split
    · exact .pure _
    · exact .bind (.modifyProc _ _) fun _ => .pure _

theorem sysExec_ticks (curr : Slot) (path argv : Uint64) :
    KeepsTicks (sysExec curr path argv) := by
  refine .bind (.liftVm _) fun kpath => .bind (.getMm _) fun mm => .bind .get fun k => ?_
  dsimp only
  split
  · exact .bind (.liftVm _) fun _ => .pure _
  · refine .bind (.liftVm _) fun r => ?_
    split
    · exact .bind (.pure _) fun _ => .bind (.liftVm _) fun _ => .bind (.liftVm _) fun _ => .pure _
    · exact .bind (exec_ticks _ _ _) fun _ => .bind (.liftVm _) fun _ => .bind (.liftVm _) fun _ =>
        .pure _

theorem wait_ticks (curr : Slot) (pid : Int) (code : Uint64) :
    KeepsTicks (wait curr pid code) := by
  refine .bind .get fun k => ?_
  split
  · dsimp only
    split
    · exact .bind (.getMm _) fun mm => .bind (.modify fun _ => rfl) fun _ =>
        .bind (freeproc_ticks _) fun _ => .pure _
    · exact .bind (freeproc_ticks _) fun _ => .pure _
  · split
    all_goals exact .pure _

theorem turn_ticks (curr : Slot) (b : Blocking) : KeepsTicks (b.turn curr) := by
  cases b with
  | wait pid code =>
    refine .bind (wait_ticks curr pid code) fun r => ?_
    split
    all_goals exact .pure _
  | sleep n ticks0 =>
    refine .bind .get fun k => ?_
    dsimp only
    split
    · split
      all_goals exact .pure _
    · exact .pure _
  | read buf n target =>
    refine .bind (.getMm _) fun mm => .bind .get fun k => ?_
    dsimp only
    refine .bind (.modify fun _ => rfl) fun _ => ?_
    split
    all_goals exact .pure _

theorem acquireLock_ticks (lk : SleepLock) (curr : Slot) : KeepsTicks (acquireLock lk curr) := by
  refine .bind .get fun k => .bind .get fun k => ?_
  split
  · exact .modify fun _ => rfl
  · exact .fail

theorem releaseLock_ticks (lk : SleepLock) : KeepsTicks (releaseLock lk) := .modify fun _ => rfl

/-! ## System calls -/

theorem sysGetppid_ticks (curr : Slot) : KeepsTicks (sysGetppid curr) := by
  refine .bind (.getProc _) fun p => ?_
  split
  · exact .pure _
  · exact .bind (.getProc _) fun p => .pure _

theorem sysSbrk_ticks (curr : Slot) (n : Uint64) : KeepsTicks (sysSbrk curr n) := by
  refine .bind (.getProc _) fun p => .bind (.getMm _) fun mm => ?_
  split
  · exact .fail
  · dsimp only
    split
    · exact .pure _
    · refine .bind (.liftVm _) fun r => ?_
      split
      all_goals exact .bind (.modifyProc _ _) fun _ => .pure _

theorem userConsoleWrite_ticks (curr : Slot) (buf len : Uint64) :
    KeepsTicks (userConsoleWrite curr buf len) := by
  rw [userConsoleWrite]
  split
  · exact .pure _
  · refine .bind (.liftVm _) fun kbuf => ?_
    split
    · exact .pure _
    · exact .bind (.getMm _) fun mm => .bind .get fun k => .bind (.liftVm _) fun _ =>
        .bind (.liftVm _) fun _ => .pure _

theorem ktestSyscall_ticks (curr : Slot) (tf : Trapframe) : KeepsTicks (ktestSyscall curr tf) := by
  rw [ktestSyscall]
  refine .ite (.bind (.discard (.getMm _)) fun _ => .pure _) (.ite (.bind .get fun k => .pure _)
    (.ite (.bind .get fun k => .pure _) (.ite (.bind (sysSigkill_ticks _ _ _ _) fun _ => .pure _)
      (.pure _))))

theorem onCaller_ticks (curr : Slot) (f : Mm → Proc → Vm → Int × Proc × Vm) :
    KeepsTicks (onCaller curr f) :=
  .bind (.getMm _) fun _ => .bind (.getProc _) fun _ => .bind .get fun _ =>
    .bind (.modifyProc _ _) fun _ =>
    .bind (.modify fun _ => rfl) fun _ => .pure _

theorem syscall_ticks (curr : Slot) : KeepsTicks (syscall curr) := by
  refine .bind (.getProc _) fun p => .bind ?_ fun o => ?_
  · rw [syscallSwitch]
    cases Sysno.ofId (toInt p.trapframe.a7) with
    | none => exact .pure _
    | some n =>
      cases n with
      | fork => exact .bind (fork_ticks _) fun _ => .pure _
      | exec => exact .bind (sysExec_ticks _ _ _) fun _ => .pure _
      | getpid => exact .bind (.getProc _) fun _ => .pure _
      | getppid => exact .bind (sysGetppid_ticks _) fun _ => .pure _
      | kill => exact .bind (kill_ticks _ _) fun _ => .pure _
      | sbrk => exact .bind (sysSbrk_ticks _ _) fun _ => .pure _
      | mmap => exact .fail
      | write => exact .bind (userConsoleWrite_ticks _ _ _) fun _ => .pure _
      | ktest => exact .bind (ktestSyscall_ticks _ _) fun _ => .pure _
      | sigkill => exact .bind (sysSigkill_ticks _ _ _ _) fun _ => .pure _
      | exit | wait | sleep | yield | read => exact .pure _
      | sigaction | sigreturn | sigprocmask | sigpending =>
        exact .bind (onCaller_ticks _ _) fun _ => .pure _
  · split
    · exact .bind (.modifyProc _ _) fun _ => .pure _
    · exact .pure _

theorem reparent_ticks (i : Slot) : KeepsTicks (reparent i) := by
  intro k r k' h
  simp only [reparent, get_bind, bind_eq_some (x := set _)] at h
  obtain ⟨_, _, hset, h⟩ := h
  cases hset
  obtain ⟨-, rfl⟩ := pure_eq_some.1 h
  rfl

theorem loadInitApp_ticks : KeepsTicks loadInitApp := by
  refine .bind .get fun k => ?_
  split
  · exact .fail
  · refine .bind allocproc_ticks fun np => ?_
    split
    · exact .fail
    · refine .bind (.getProc _) fun p => .bind (.liftVm _) fun r => ?_
      dsimp only
      split
      · exact .fail
      · exact .bind (.modifyProc _ _) fun _ => .bind (addTask_ticks _) fun _ =>
          .modify fun _ => rfl

/-! ## Steps -/

/-- How often an act adds one to the counter. -/
def Act.ticks (k : Kernel) : Act → Nat
  | .tick => 1
  | .exec c =>
    match k.cpus c with
    | .running i => if c = 0 ∧ (k.pool i).context = .usertrap .timer then 1 else 0
    | _ => 0
  | _ => 0

theorem timerTick_ticks {u : Unit} (h : timerTick k = some (u, k')) : k'.ticks = k.ticks + 1 := by
  simp only [timerTick, get_bind] at h
  split at h
  · cases h
  · rw [modify_bind] at h
    exact wakeup_ticks _ _ _ _ h

theorem signalTurn_ticks (i : Slot) (signo : Signo) (rest : List Signo) :
    KeepsTicks (signalTurn i signo rest) := by
  refine .bind (.getProc _) fun p => ?_
  split
  all_goals exact .bind (.modifyProc _ _) fun _ => .pure _

theorem handlerTurn_ticks (i : Slot) (signo : Signo) (rest : List Signo) (info : Siginfo) :
    KeepsTicks (handlerTurn i signo rest info) := by
  refine .bind (.getMm _) fun mm => .bind (.getProc _) fun p => .bind .get fun k => ?_
  split
  all_goals exact .bind (.modifyProc _ _) fun _ => .bind (.modify fun _ => rfl) fun _ => .pure _

/-- No trap but the timer interrupt of CPU 0 changes the counter. -/
theorem usertrap_ticks {cause : Cause} (h : ¬ (c = 0 ∧ cause = .timer)) :
    KeepsTicks (usertrap c i cause) := by
  cases cause with
  | timer =>
    rw [usertrap, if_neg fun hc => h ⟨hc, rfl⟩]
    exact .bind (.pure _) fun _ => .pure _
  | external | interrupt => exact .pure _
  | ecall =>
    refine .bind (.getProc _) fun p => ?_
    dsimp only
    split
    · exact .pure _
    · exact .bind (.modifyProc _ _) fun _ => .pure _
  | pageFault addr store =>
    refine .bind (.getMm _) fun mm => .bind (.liftVm _) fun repaired => ?_
    split
    · exact .pure _
    · exact .bind (.modifyProc _ _) fun _ => .pure _
  | exception => exact .bind (.modifyProc _ _) fun _ => .pure _

/-- No other step of a kernel thread does. -/
theorem thread_ticks {context : Context} (h : ¬ (c = 0 ∧ context = .usertrap .timer)) :
    KeepsTicks (thread c i context) := by
  cases context with
  | none | user | dead => exact .fail
  | firstSchedRet => exact .bind (.getProc _) fun p => .ite (.pure _) .fail
  | usertrap cause => exact usertrap_ticks fun ⟨hc, hcause⟩ => h ⟨hc, by rw [hcause]⟩
  | syscall =>
    refine .bind (syscall_ticks i) fun o => ?_
    split
    all_goals exact .pure _
  | call b =>
    refine .bind (acquireLock_ticks _ _) fun _ => .bind (turn_ticks _ _) fun r => ?_
    split
    · exact .bind (releaseLock_ticks _) fun _ => .bind (.modifyProc _ _) fun _ => .pure _
    · exact .pure _
  | sleep b => exact .bind (releaseLock_ticks _) fun _ => .bind (.modifyProc _ _) fun _ => .pure _
  | asleep b => exact .bind (.modifyProc _ _) fun _ => .pure _
  | sysYield => exact .bind (.modifyProc _ _) fun _ => .pure _
  | stillAlive timer => exact .bind (.getProc _) fun p => .ite (.pure _) (.ite (.pure _) (.pure _))
  | yield | yielded | stop | stopped | jump => exact .pure _
  | doSignal signos =>
    cases signos with
    | nil => exact .pure _
    | cons signo rest => exact signalTurn_ticks _ _ _
  | copyInfo signo rest fields info =>
    cases fields with
    | nil => exact handlerTurn_ticks _ _ _ _
    | cons f fields => exact .bind (.getProc _) fun p => .pure _
  | stillAliveAfterSignal => exact .bind (.getProc _) fun p => .ite (.pure _) (.pure _)
  | usertrapret => exact .bind (.getProc _) fun p => .ite (.pure _) (.pure _)
  | clearNeedStop => exact .bind (.modifyProc _ _) fun _ => .pure _
  | exit code => exact .bind .get fun k => .ite .fail (.bind (.getProc _) fun p => .pure _)
  | reparent code parentProc =>
    refine .bind (acquireLock_ticks _ _) fun _ => .bind (reparent_ticks i) fun wakeinit =>
      .ite (.pure _) ?_
    split
    · exact .pure _
    · exact .bind .get fun k =>
        .ite (.bind (.getProc _) fun p => .bind (releaseLock_ticks _) fun _ => .pure _) (.pure _)
  | notifyParent code ppid => exact .bind (.discard (sysSigkill_ticks _ _ _ _)) fun _ => .pure _
  | wakeInit code => exact .bind .get fun k => .bind (wakeup_ticks _) fun _ => .pure _
  | wakeParent code =>
    exact .bind (acquireLock_ticks _ _) fun _ => .bind (.getProc _) fun p =>
      .bind (wakeup_ticks _) fun _ => .pure _
  | finish code => exact .bind (releaseLock_ticks _) fun _ => .pure _

theorem carryOn_ticks (c : CpuId) (i : Slot) (next : Next) : KeepsTicks (carryOn c i next) := by
  cases next with
  | goto context => exact KeepsTicks.modifyProc i fun p => { p with context := context }
  | sched state context =>
    refine .bind (.modifyProc _ _) fun _ => .bind (.modify fun _ => rfl) fun _ => ?_
    split
    · exact addTask_ticks i
    · exact .pure _
  | die code => exact .bind (.modifyProc _ _) fun _ => .modify fun _ => rfl

/-- The step of a kernel thread. -/
theorem exec_ticks_of_step (h : step k (.exec c) = some k') :
    k'.ticks = k.ticks + BitVec.ofNat 64 (Act.ticks k (.exec c)) := by
  have hact := act_of_step h
  simp only [act, bind_eq_some (x := runningOn _), runningOn_eq_some] at hact
  obtain ⟨i, _, ⟨hcpu, rfl⟩, hact⟩ := hact
  simp only [getProc_bind, bind_eq_some] at hact
  obtain ⟨next, k₁, hthread, hcarry⟩ := hact
  rw [carryOn_ticks _ _ _ _ _ _ hcarry]
  simp only [Act.ticks, hcpu]
  split
  · rename_i htimer
    obtain ⟨rfl, hctx⟩ := htimer
    simp only [hctx, thread, usertrap, if_true, bind_eq_some, pure_eq_some] at hthread
    obtain ⟨_, _, htick, -, rfl⟩ := hthread
    exact timerTick_ticks htick
  · rename_i hother
    rw [thread_ticks hother _ _ _ hthread]
    exact (BitVec.add_zero _).symm

/-- **A step adds the ticks of its act to the counter.** -/
theorem step_ticks (h : step k a = some k') :
    k'.ticks = k.ticks + BitVec.ofNat 64 (a.ticks k) := by
  have hkeeps (hact : KeepsTicks (act a)) (ha : a.ticks k = 0) :
      k'.ticks = k.ticks + BitVec.ofNat 64 (a.ticks k) := by
    rw [ha, hact _ _ _ (act_of_step h)]
    exact (BitVec.add_zero _).symm
  cases a with
  | loadInitApp => exact hkeeps (.bind .get fun k => .ite loadInitApp_ticks .fail) rfl
  | fetch c =>
    have hact := act_of_step h
    simp only [act, get_bind] at hact
    cases hcpu : k.cpus c with
    | idle =>
      cases hqueue : k.taskQueue with
      | nil =>
        simp only [hcpu, hqueue] at hact
        cases hact
      | cons i rest =>
        simp only [hcpu, hqueue] at hact
        cases hact
        exact (BitVec.add_zero _).symm
    | _ =>
      simp only [hcpu] at hact
      cases hact
  | switchTo c =>
    refine hkeeps (.bind .get fun k => ?_) rfl
    split
    · exact .bind (.getProc _) fun p =>
        .ite (.bind (.modifyProc _ _) fun _ => .modify fun _ => rfl)
        (.bind (.modify fun _ => rfl) fun _ => .modify fun _ => rfl)
    · exact .fail
  | tick => exact timerTick_ticks (act_of_step h)
  | consIntr ch =>
    refine hkeeps (.bind .get fun k => .ite .fail (.bind .get fun k =>
      .bind (.modify fun _ => rfl) fun _ => ?_)) rfl
    split
    · exact wakeup_ticks _
    · exact .pure _
  | userStore c va b =>
    refine hkeeps (.bind ?_ fun i => .bind (.getMm _) fun mm => .bind (.getProc _) fun p =>
      .ite (.bind .get fun k => ?_) .fail) rfl
    · refine .bind .get fun k => ?_
      split
      · exact .pure _
      · exact .fail
    · split
      · exact .fail
      · exact .modify fun _ => rfl
  | trap c cause tf =>
    refine hkeeps (.bind ?_ fun i => .bind (.getProc _) fun p => .ite (.modifyProc _ _) .fail) rfl
    refine .bind .get fun k => ?_
    split
    · exact .pure _
    · exact .fail
  | exec c => exact exec_ticks_of_step h

end SignalOS
