import SignalOS.Kernel.Effects

/-!
# What a step can do

* `Sched` — every CPU that runs a process runs one of its own, whose state is
  `RUNNING`.
* `step_cases` — **everything a step can do**: updates of the table, and then at
  most one step of a kernel thread or of the scheduler.
* `Sched.step` — a step keeps the CPUs and the table in agreement.
-/

namespace SignalOS

open Partial Relation

variable {k₀ k k' : Kernel} {a : Act} {c : CpuId} {i j : Slot} {p q : Proc}

/-! ## What updates leave alone -/

/-- `q` is the process `p` with its thread where it was, perhaps killed by `SIGKILL` or woken
up. -/
structure SameProc (p q : Proc) : Prop where
  pid : q.pid = p.pid
  exitCode : q.exitCode = p.exitCode
  context : q.context = p.context
  killed : q.killed = p.killed ∨ q.killed = -10 - SIGKILL.val
  state : q.state = p.state ∨ (p.state = .sleeping ∨ p.state = .stopped) ∧ q.state = .runnable

namespace SameProc

theorem refl (p : Proc) : SameProc p p := ⟨rfl, rfl, rfl, .inl rfl, .inl rfl⟩

theorem receive (p : Proc) (signo : Signo) (code sender : Int) :
    SameProc p (p.receive signo code sender).1 := by
  have hsignalled := signalled_receive p signo code sender
  refine ⟨hsignalled.pid_eq, hsignalled.exitCode_eq, hsignalled.context_eq, ?_, ?_⟩
  · rw [receive_killed]
    split
    · exact .inr rfl
    · exact .inl rfl
  · rw [(receive_state p signo code sender).1]
    split
    · rename_i hwakes
      exact .inr ⟨hwakes.imp And.right And.right, rfl⟩
    · exact .inl rfl

theorem receiveKill (p : Proc) : SameProc p p.receiveKill.1 := by
  have hsignalled : Signalled p p.receiveKill.1 :=
    Signalled.trans (q := { p with killed := -10 - SIGKILL.val }) rfl (.wakeFrom _ _)
  refine ⟨hsignalled.pid_eq, hsignalled.exitCode_eq, hsignalled.context_eq, ?_, ?_⟩
  · exact .inr (killed_wakeFrom _ _)
  · rw [Proc.receiveKill, state_wakeFrom]
    split
    · rename_i hsleeping
      exact .inr ⟨.inl hsleeping, rfl⟩
    · exact .inl rfl

end SameProc

/-- `wait` frees a zombie child of the process that calls it. -/
theorem reaps_zombie (h : a.reaps k = some j) (hp : p = k.pool j) :
    p.state = .zombie ∧ ∃ i, a.runner k = some i ∧ p.parent = some i := by
  cases a with
  | exec c =>
    obtain ⟨i, hrun, h⟩ := Option.bind_eq_some_iff.1 h
    split at h
    · have hsome := List.find?_some h
      simp only [decide_eq_true_eq] at hsome
      exact hp ▸ ⟨hsome.2.2.1, i, hrun, hsome.2.1⟩
    · cases h
  | _ => cases h

/-- **An update frees a zombie or leaves the process where it is.** -/
theorem Upd.cases (h : Upd k a j p q) : SameProc p q ∨ p.state = .zombie ∧ q = p.release := by
  cases h with
  | receive => exact .inl (.receive p _ _ _)
  | receiveKill => exact .inl (.receiveKill p)
  | wakeup hsleeping => exact .inl ⟨rfl, rfl, rfl, .inl rfl, .inr ⟨.inl hsleeping, rfl⟩⟩
  | free hreap hp => exact .inr ⟨(reaps_zombie hreap hp).1, rfl⟩
  | sigaction =>
    obtain ⟨sa, hsa⟩ := sysSigaction_proc _ p k.vm _ _ _
    exact .inl (hsa ▸ ⟨rfl, rfl, rfl, .inl rfl, .inl rfl⟩)
  | _ => exact .inl ⟨rfl, rfl, rfl, .inl rfl, .inl rfl⟩

/-- A process that does not sleep, is not stopped and no zombie keeps its state and its place. -/
theorem Upd.stays {s : ProcState} (h : Upd k a j p q) (hp : p.state = s)
    (hs : s ≠ .sleeping ∧ s ≠ .stopped ∧ s ≠ .zombie) : q.state = s ∧ q.context = p.context := by
  obtain ⟨hsleeping, hstopped, hzombie⟩ := hs
  rcases h.cases with hsame | ⟨hfree, -⟩
  · refine ⟨?_, hsame.context⟩
    rcases hsame.state with heq | ⟨hwoken | hwoken, -⟩
    · exact heq.trans hp
    · exact absurd (hp.symm.trans hwoken) hsleeping
    · exact absurd (hp.symm.trans hwoken) hstopped
  · exact absurd (hp.symm.trans hfree) hzombie

/-- An update leaves a running process on its CPU and where it is. -/
theorem Upd.running (h : Upd k a j p q) (hp : p.state = .running) :
    q.state = .running ∧ q.context = p.context := h.stays hp (by decide)

/-- The process in the slot is running, and its thread stands at the context. -/
def RunsAt (k : Kernel) (j : Slot) (context : Context) : Prop :=
  (k.pool j).state = .running ∧ (k.pool j).context = context

theorem Change.runsAt {context : Context} (h : Change k₀ a k k') (hrun : RunsAt k j context) :
    RunsAt k' j context := by
  cases h with
  | update pool =>
    rcases pool j with hj | hj
    · rwa [RunsAt, hj]
    · obtain ⟨hstate, hctx⟩ := hj.running hrun.1
      exact ⟨hstate, hctx.trans hrun.2⟩
  | born i _ hunused others =>
    have hne : j ≠ i := by
      rintro rfl
      have hstate := hrun.1
      rw [hunused] at hstate
      cases hstate
    rwa [RunsAt, others j hne]

theorem Within.runsAt {context : Context} (h : Within k₀ a k k') (hrun : RunsAt k j context) :
    RunsAt k' j context := by
  have hchanges := h.changes
  clear h
  induction hchanges with
  | refl => exact hrun
  | tail _ hlast ih => exact hlast.runsAt ih

/-! ## The kernel thread -/

/-- The thread may go on in this way. -/
def Continues (p : Proc) : Next → Prop
  | .goto context => Moves p p.context context
  | .sched state context => Parks p.context state context
  | .die code => p.context = .finish code

theorem continues_goto {context context' : Context} (h : Moves p context context')
    (hp : p.context = context) : Continues p (.goto context') := by
  rwa [Continues, hp]

theorem continues_sched {context context' : Context} {state : ProcState}
    (h : Parks context state context') (hp : p.context = context) :
    Continues p (.sched state context') := by
  rwa [Continues, hp]

/-- The lock that a thread holds between two of its steps. -/
def Context.holds : Context → Option SleepLock
  | .sleep b => some b.lock
  | .wakeInit _ | .finish _ => some .wait
  | _ => .none

/-- What a step of the thread in slot `i` can do before it goes on: updates that leave it where
it is, or a change of its own process.  Where it goes it holds the lock that belongs there. -/
inductive ThreadCase (k : Kernel) (a : Act) (i : Slot) (k' : Kernel) : Next → Prop
  | within {next : Next} (h : Within k a k k') (hnext : Continues (k'.pool i) next)
      (hlock : ∀ context lk, next = .goto context → context.holds = some lk →
      k'.locks lk = some i) :
      ThreadCase k a i k' next
  | own {q : Proc} {context : Context} (hframe : Frame (k.setProc i q) k') (hsame : SameQueue k k')
      (hstate : q.state = (k.pool i).state) (hctx : context.holds = none)
      (h : Own k i (k.pool i) { q with context := context }) : ThreadCase k a i k' (.goto context)

/-- Updates at a place from which the thread always goes on in this way. -/
theorem ThreadCase.of_runsAt {context : Context} {next : Next} (h : Within k a k k')
    (hrun : RunsAt k i context) (hnext : ∀ p : Proc, p.context = context → Continues p next)
    (hlock : ∀ context lk, next = .goto context → context.holds = some lk →
        k'.locks lk = some i := by
      rintro _ _ ⟨⟩ ⟨⟩) :
    ThreadCase k a i k' next :=
  .within h (hnext _ (h.runsAt hrun).2) hlock

theorem keeps_timerTick : Keeps (Within k₀ a) timerTick := by
  refine Within.keeps_bind Within.keeps_get fun k => ?_
  split
  · exact .fail
  · exact Within.keeps_bind (Within.keeps_modify fun _ => ⟨⟨rfl, rfl, rfl, rfl, rfl⟩, ⟨rfl, rfl⟩⟩)
      fun _ => Within.keeps_wakeup _

/-- Marking a process killed and going on. -/
theorem ThreadCase.of_fault {cause : Cause} {reason : Int}
    (hctx : (k.pool i).context = .usertrap cause)
    (hkills : faultReason k i cause = some reason) (hframe : Frame k k') (hsame : SameQueue k k') :
    ThreadCase k a i (k'.setProc i { k'.pool i with killed := reason })
      (.goto (.stillAlive false)) := by
  have hproc : k'.pool i = k.pool i := congrFun hframe.pool i
  refine .own (q := { k.pool i with killed := reason }) ?_ (hsame.trans ⟨rfl, rfl⟩) rfl rfl
    (.fault rfl hctx hkills)
  refine ⟨?_, hframe.pids, hframe.cpus, hframe.locks, hframe.initProc⟩
  simp only [Kernel.setProc, hframe.pool]

theorem SameLocks.keeps_timerTick : Keeps SameLocks timerTick := by
  refine SameLocks.keeps_bind SameLocks.keeps_get fun k => ?_
  split
  · exact .fail
  · exact SameLocks.keeps_bind (SameLocks.keeps_modify fun _ => rfl) fun _ =>
      SameLocks.keeps_wakeup _

theorem usertrap_case {cause : Cause} {next : Next} (hrun : RunsAt k i (.usertrap cause))
    (hrunner : a.runner k = some i) (h : usertrap c i cause k = some (next, k')) :
    ThreadCase k a i k' next := by
  have hback {cause : Cause} (timer : Bool) (hcause : cause ≠ .ecall) (p : Proc)
      (hp : p.context = .usertrap cause) : Continues p (.goto (.stillAlive timer)) :=
    continues_goto (.interrupted timer hcause) hp
  cases cause with
  | timer =>
    rw [usertrap] at h
    split at h
    · simp only [bind_eq_some, pure_eq_some] at h
      obtain ⟨_, _, htick, rfl, rfl⟩ := h
      exact .of_runsAt (keeps_timerTick _ _ _ htick) hrun (hback true (by simp))
    · obtain ⟨rfl, rfl⟩ := pure_eq_some.1 h
      exact .of_runsAt (.refl _) hrun (hback true (by simp))
  | external =>
    obtain ⟨rfl, rfl⟩ := pure_eq_some.1 h
    exact .of_runsAt (.refl _) hrun (hback false (by simp))
  | interrupt =>
    obtain ⟨rfl, rfl⟩ := pure_eq_some.1 h
    exact .of_runsAt (.refl _) hrun (hback false (by simp))
  | ecall =>
    simp only [usertrap, getProc_bind] at h
    split at h
    · rename_i hkilled
      obtain ⟨rfl, rfl⟩ := pure_eq_some.1 h
      exact .within (.refl _) (continues_goto (.ecallKilled hkilled) hrun.2) (by rintro _ _ ⟨⟩ ⟨⟩)
    · rename_i hkilled
      simp only [modifyProc_bind, pure_eq_some] at h
      obtain ⟨rfl, rfl⟩ := h
      refine .within (.setProc (.memory hrunner (k.pool i).mm (k.pool i).vmaBrk (k.pool i).brk _)
        Iff.rfl) ?_
        (by rintro _ _ ⟨⟩ ⟨⟩)
      rw [Kernel.setProc_pool_self]
      exact continues_goto (.ecall (not_not.1 hkilled)) hrun.2
  | pageFault addr store =>
    simp only [usertrap, bind_eq_some (x := getMm _), getMm_eq_some, bind_eq_some (x := liftVm _),
      liftVm_eq_some] at h
    obtain ⟨mm, k1, ⟨hmm, rfl⟩, repaired, k2, ⟨vm, hrepair, rfl⟩, h⟩ := h
    cases repaired with
    | true =>
      obtain ⟨rfl, rfl⟩ := pure_eq_some.1 h
      exact .of_runsAt (.of_frame ⟨rfl, rfl, rfl, rfl, rfl⟩ ⟨rfl, rfl⟩) hrun
        (hback false (by simp))
    | false =>
      simp only [Bool.false_eq_true, if_false, setkilled, modifyProc_bind, pure_eq_some] at h
      obtain ⟨rfl, rfl⟩ := h
      have hreason : faultReason k1 i (.pageFault addr store) = some (-2) := by
        simp [faultReason, hmm, hrepair]
      have hframe : Frame k1 { k1 with vm := vm } := ⟨rfl, rfl, rfl, rfl, rfl⟩
      exact .of_fault hrun.2 hreason hframe ⟨rfl, rfl⟩
  | exception =>
    simp only [usertrap, setkilled, modifyProc_bind, pure_eq_some] at h
    obtain ⟨rfl, rfl⟩ := h
    exact .of_fault hrun.2 rfl ⟨rfl, rfl, rfl, rfl, rfl⟩ ⟨rfl, rfl⟩

/-- `do_signal` leaves a running process running. -/
theorem takeSignal_state {signo : Signo} (hp : p.state = .running)
    (h : takeSignal signo p = .next q) :
    q.state = p.state := by
  have hcase := h ▸ takeSignal_cases signo p
  cases hcase with
  | cont => simp [Proc.cancelStop, hp]
  | _ => rfl

theorem signalTurn_case {signo : Signo} {rest : List Signo} {next : Next}
    (hrun : RunsAt k i (.doSignal (signo :: rest)))
    (h : signalTurn i signo rest k = some (next, k')) : ThreadCase k a i k' next := by
  simp only [signalTurn, getProc_bind] at h
  cases htaken : takeSignal signo (k.pool i) with
  | next q =>
    simp only [htaken, modifyProc_bind, pure_eq_some] at h
    obtain ⟨rfl, rfl⟩ := h
    exact .own (q := q) ⟨rfl, rfl, rfl, rfl, rfl⟩ ⟨rfl, rfl⟩ (takeSignal_state hrun.1 htaken) rfl
      (.turn rfl hrun.2 htaken)
  | handler q =>
    obtain ⟨-, -, rfl⟩ := takeSignal_handler htaken
    simp only [htaken, modifyProc_bind, pure_eq_some] at h
    obtain ⟨rfl, rfl⟩ := h
    exact .own ⟨rfl, rfl, rfl, rfl, rfl⟩ ⟨rfl, rfl⟩ rfl rfl (.take rfl hrun.2 htaken)

theorem handlerTurn_case {signo : Signo} {rest : List Signo} {info : Siginfo} {next : Next}
    (hrun : RunsAt k i (.copyInfo signo rest [] info))
    (h : handlerTurn i signo rest info k = some (next, k')) : ThreadCase k a i k' next := by
  simp only [handlerTurn, bind_eq_some (x := getMm _), getMm_eq_some] at h
  obtain ⟨mm, k1, ⟨-, rfl⟩, h⟩ := h
  simp only [getProc_bind, get_bind] at h
  by_cases hmap : FrameMapped k1.vm mm (k1.pool i)
  · simp only [startHandler_of_mapped hmap, modifyProc_bind, modify_bind, pure_eq_some] at h
    obtain ⟨rfl, rfl⟩ := h
    exact .own ⟨rfl, rfl, rfl, rfl, rfl⟩ ⟨rfl, rfl⟩ rfl rfl (.install rfl hrun.2)
  · simp only [startHandler_of_unmapped hmap, modifyProc_bind, modify_bind, pure_eq_some] at h
    obtain ⟨rfl, rfl⟩ := h
    exact .own ⟨rfl, rfl, rfl, rfl, rfl⟩ ⟨rfl, rfl⟩ rfl rfl
      (.goto (hrun.2.symm ▸ .dropped signo rest info))

/-! ## Exit -/

theorem reparent_within {r : Bool} {code : Int} {parentProc : Option Slot}
    (hrunner : a.runner k₀ = some i)
    (hctx : (k₀.pool i).context = .reparent code parentProc) (h : reparent i k = some (r, k'))
    (hinit : k.initProc = k₀.initProc) : Within k₀ a k k' ∧ k'.locks = k.locks := by
  simp only [reparent, get_bind, bind_eq_some (x := set _)] at h
  obtain ⟨_, _, hset, h⟩ := h
  cases hset
  have hgive : Within k₀ a k { k with
      pool := fun j => if j ≠ i ∧ (k.pool j).parent = some i then
        { k.pool j with parent := k.initProc }
        else k.pool j } := by
    refine ⟨.single (.update (fun j => ?_) rfl), rfl, .of_same (fun j => ?_) ⟨rfl, rfl⟩,
      fun _ _ h _ => h,
      fun _ => rfl⟩
    · dsimp only
      split
      · rename_i hchild
        exact .inr (hinit ▸ .reparent hrunner hctx hchild.2)
      · exact .inl rfl
    · dsimp only
      split <;> rfl
  exact (pure_eq_some.1 h).2 ▸ ⟨hgive, rfl⟩

theorem exitReparent_case {code : Int} {parentProc : Option Slot} {next : Next}
    (hrun : RunsAt k i (.reparent code parentProc)) (hrunner : a.runner k = some i)
    (h : exitReparent i code parentProc k = some (next, k')) : ThreadCase k a i k' next := by
  have hchildless (p : Proc) (hp : p.context = .reparent code parentProc) :
      Continues p (.goto (.wakeParent code)) := continues_goto (.childless code parentProc) hp
  have hnotify (ppid : Int) (p : Proc) (hp : p.context = .reparent code parentProc) :
      Continues p (.goto (.notifyParent code ppid)) :=
    continues_goto (.notify code parentProc ppid) hp
  simp only [exitReparent, bind_eq_some (x := acquireLock _ _), bind_eq_some (x := reparent _)]
    at h
  obtain ⟨_, k1, hlock, wakeinit, k2, hrep, h⟩ := h
  have hacquire : Within k a k k1 := .of_acquireLock hrunner hlock
  obtain ⟨-, rfl⟩ := Within.acquireLock_eq_some.1 hlock
  obtain ⟨hreparent, hlocks⟩ := reparent_within hrunner hrun.2 hrep rfl
  have hwithin : Within k a k k2 := hacquire.trans hreparent
  have hheld : k2.locks .wait = some i :=
    hlocks ▸ Function.update_self SleepLock.wait (some i) k.locks
  split at h
  · obtain ⟨rfl, rfl⟩ := pure_eq_some.1 h
    refine .of_runsAt hwithin hrun (fun p => continues_goto (.reparented code parentProc)) ?_
    rintro _ _ ⟨⟩ ⟨⟩
    exact hheld
  · cases parentProc with
    | none =>
      obtain ⟨rfl, rfl⟩ := pure_eq_some.1 h
      exact .of_runsAt hwithin hrun hchildless
    | some parent =>
      simp only [get_bind] at h
      split at h
      · simp only [getProc_bind, bind_eq_some, pure_eq_some] at h
        obtain ⟨_, _, hrel, rfl, rfl⟩ := h
        exact .of_runsAt (hwithin.trans (.of_releaseLock hrunner hheld hrel)) hrun (hnotify _)
      · obtain ⟨rfl, rfl⟩ := pure_eq_some.1 h
        exact .of_runsAt hwithin hrun hchildless

theorem exitWakeInit_case {code : Int} {next : Next} (hrun : RunsAt k i (.wakeInit code))
    (h : exitWakeInit code k = some (next, k')) : ThreadCase k a i k' next := by
  simp only [exitWakeInit, get_bind, bind_eq_some, pure_eq_some] at h
  obtain ⟨_, k1, hwake, rfl, rfl⟩ := h
  exact .of_runsAt (Within.keeps_wakeup _ _ _ _ hwake) hrun fun p =>
    continues_goto (.initWoken code)

theorem exitWakeParent_case {code : Int} {next : Next} (hrun : RunsAt k i (.wakeParent code))
    (hrunner : a.runner k = some i) (h : exitWakeParent i code k = some (next, k')) :
    ThreadCase k a i k' next := by
  simp only [exitWakeParent, bind_eq_some (x := acquireLock _ _), getProc_bind] at h
  obtain ⟨_, k1, hlock, h⟩ := h
  simp only [bind_eq_some, pure_eq_some] at h
  obtain ⟨_, k2, hwake, rfl, rfl⟩ := h
  have hwithin : Within k a k k' :=
    (Within.of_acquireLock hrunner hlock).trans (Within.keeps_wakeup _ _ _ _ hwake)
  obtain ⟨-, rfl⟩ := Within.acquireLock_eq_some.1 hlock
  refine .of_runsAt hwithin hrun (fun p => continues_goto (.parentWoken code)) ?_
  rintro _ _ ⟨⟩ ⟨⟩
  have hlocks := SameLocks.keeps_wakeup _ _ _ _ hwake
  exact hlocks ▸ Function.update_self SleepLock.wait (some i) k.locks

theorem exitFinish_case {code : Int} {next : Next} (hrun : RunsAt k i (.finish code))
    (hrunner : a.runner k = some i) (hheld : k.locks .wait = some i)
    (h : exitFinish code k = some (next, k')) : ThreadCase k a i k' next := by
  simp only [exitFinish, bind_eq_some, pure_eq_some] at h
  obtain ⟨_, k1, hrel, rfl, rfl⟩ := h
  exact .of_runsAt (.of_releaseLock hrunner hheld hrel) hrun fun p hp => hp

/-! ## The next step of a thread -/

theorem goto_of_returns {tf : Trapframe} :
    Returns (fun o => ∀ context, o = .goto context → (∀ p, Moves p .syscall context) ∧
      context.holds = none)
      (syscallSwitch i tf) := by
  rw [syscallSwitch]
  cases Sysno.ofId (toInt tf.a7) with
  | none => exact .pure (by rintro _ ⟨⟩)
  | some n =>
    cases n
    case exit => exact .pure (by rintro _ ⟨⟩; exact ⟨fun p => .sysExit _, rfl⟩)
    case wait => exact .pure (by rintro _ ⟨⟩; exact ⟨fun p => .sysCall _, rfl⟩)
    case sleep => exact .pure (by rintro _ ⟨⟩; exact ⟨fun p => .sysCall _, rfl⟩)
    case read => exact .pure (by rintro _ ⟨⟩; exact ⟨fun p => .sysCall _, rfl⟩)
    case yield => exact .pure (by rintro _ ⟨⟩)
    case mmap => exact .fail
    all_goals exact .bind fun r => .pure (by rintro _ ⟨⟩)

theorem syscall_case {next : Next} (hrun : RunsAt k i .syscall) (hcpu : k.cpus c = .running i)
    (h : thread c i .syscall k = some (next, k')) : ThreadCase k (.exec c) i k' next := by
  have hunused : (k.pool i).state ≠ .unused := by
    rw [hrun.1]
    decide
  simp only [thread, bind_eq_some] at h
  obtain ⟨o, k2, hcall, h⟩ := h
  simp only [syscall, getProc_bind, bind_eq_some (x := syscallSwitch _ _)] at hcall
  obtain ⟨o1, k1, hswitch, hcall⟩ := hcall
  have hwithin := Within.of_syscallSwitch hcpu hunused hrun.2 hswitch
  cases o1 with
  | ret r =>
    simp only [bind_eq_some, pure_eq_some] at hcall
    obtain ⟨_, _, hret, rfl, rfl⟩ := hcall
    obtain ⟨rfl, rfl⟩ := pure_eq_some.1 h
    have hset := Within.keeps_setReturn (Within.runner_exec hcpu) r _ _ _ hret
    exact .of_runsAt (hwithin.trans hset) hrun fun p => continues_goto .sysReturn
  | goto context =>
    obtain ⟨rfl, rfl⟩ := pure_eq_some.1 hcall
    obtain ⟨rfl, rfl⟩ := pure_eq_some.1 h
    obtain ⟨hmoves, hholds⟩ := goto_of_returns _ _ _ hswitch context rfl
    refine .of_runsAt hwithin hrun (fun p => continues_goto (hmoves p)) ?_
    rintro _ lk ⟨⟩ hlk
    cases hholds.symm.trans hlk
  | yield =>
    obtain ⟨rfl, rfl⟩ := pure_eq_some.1 hcall
    obtain ⟨rfl, rfl⟩ := pure_eq_some.1 h
    exact .of_runsAt hwithin hrun fun p => continues_sched .sysYield

theorem call_case {b : Blocking} {next : Next} (hrun : RunsAt k i (.call b))
    (hcpu : k.cpus c = .running i) (h : thread c i (.call b) k = some (next, k')) :
    ThreadCase k (.exec c) i k' next := by
  have hrunner := Within.runner_exec hcpu
  simp only [thread, bind_eq_some (x := acquireLock _ _), bind_eq_some (x := b.turn i)] at h
  obtain ⟨_, k1, hlock, r, k2, hturn, h⟩ := h
  have hacquire : Within k (.exec c) k k1 := .of_acquireLock hrunner hlock
  obtain ⟨-, rfl⟩ := Within.acquireLock_eq_some.1 hlock
  have hreap (pid : Int) (code : Uint64) (hb : b = .wait pid code) :
      Act.reaps k (.exec c) = waitChild k.pool i pid := by
    simp only [Act.reaps, hrunner, Option.bind_some, hrun.2, hb]
  have hwithin := hacquire.trans (Within.of_turn hreap rfl hturn)
  have hheld : k2.locks b.lock = some i := by
    rw [SameLocks.keeps_turn b _ _ _ hturn]
    exact Function.update_self _ _ _
  cases r with
  | ret r =>
    simp only [bind_eq_some, pure_eq_some] at h
    obtain ⟨_, k3, hrel, _, k4, hret, rfl, rfl⟩ := h
    have hback : Within k (.exec c) k2 k' := (Within.of_releaseLock hrunner hheld hrel).trans
      (Within.keeps_setReturn hrunner r _ _ _ hret)
    exact .of_runsAt (hwithin.trans hback) hrun fun p => continues_goto (.callReturn b)
  | sleep b' =>
    obtain ⟨rfl, rfl⟩ := pure_eq_some.1 h
    have hlock := Within.turn_sleep_lock hturn
    refine .of_runsAt hwithin hrun (fun p => continues_goto (.callSleep b b' hlock)) ?_
    rintro _ _ ⟨⟩ ⟨⟩
    rw [hlock, hheld]

/-- A step that only goes elsewhere. -/
theorem ThreadCase.of_pure {next next' : Next}
    (hnext : Continues (k.pool i) next) (h : (pure next : KM Next) k = some (next', k'))
    (hlock : ∀ context, next = .goto context → context.holds = none := by rintro _ ⟨⟩ <;> rfl) :
    ThreadCase k a i k' next' := by
  obtain ⟨rfl, rfl⟩ := pure_eq_some.1 h
  exact .within (.refl _) hnext fun context lk hgoto hlk =>
    nomatch (hlock context hgoto).symm.trans hlk

/-- **What the next step of a kernel thread can do.** -/
theorem thread_case {context : Context} {next : Next} (hrun : RunsAt k i context)
    (hcpu : k.cpus c = .running i) (hholder : ∀ lk, context.holds = some lk → k.locks lk = some i)
    (h : thread c i context k = some (next, k')) :
    ThreadCase k (.exec c) i k' next := by
  have hrunner := Within.runner_exec hcpu
  cases context with
  | none => cases h
  | user => cases h
  | dead => cases h
  | usertrap cause => exact usertrap_case hrun hrunner h
  | syscall => exact syscall_case hrun hcpu h
  | firstSchedRet =>
    simp only [thread, getProc_bind, hrun.1, if_true] at h
    exact .of_pure (continues_goto .firstRun hrun.2) h
  | call b => exact call_case hrun hcpu h
  | sleep b =>
    simp only [thread, bind_eq_some, pure_eq_some] at h
    obtain ⟨_, k1, hrel, _, k2, hchan, rfl, rfl⟩ := h
    have hwithin : Within k (.exec c) k k' :=
      (Within.of_releaseLock hrunner (hholder b.lock rfl) hrel).trans
        (Within.keeps_modifyProc (fun p => .sleepChan hrunner (some (b.chan i))) (fun _ => rfl)
          _ _ _ hchan)
    exact .of_runsAt hwithin hrun fun p => continues_sched (.sleep b)
  | asleep b =>
    simp only [thread, bind_eq_some, pure_eq_some] at h
    obtain ⟨_, k1, hchan, rfl, rfl⟩ := h
    have hwithin : Within k (.exec c) k k' :=
      Within.keeps_modifyProc (fun p => .sleepChan hrunner none) (fun _ => rfl) _ _ _ hchan
    exact .of_runsAt hwithin hrun fun p => continues_goto (.wake b)
  | sysYield =>
    simp only [thread, bind_eq_some, pure_eq_some] at h
    obtain ⟨_, k1, hret, rfl, rfl⟩ := h
    exact .of_runsAt (Within.keeps_setReturn hrunner 0 _ _ _ hret) hrun fun p =>
      continues_goto .yieldReturn
  | stillAlive timer =>
    simp only [thread, getProc_bind] at h
    split at h
    · rename_i hkilled
      exact .of_pure (continues_goto (.killed timer hkilled) hrun.2) h
    · rename_i hkilled
      have hzero := not_not.1 hkilled
      cases timer with
      | true => exact .of_pure (continues_goto (.yield hzero) hrun.2) h
      | false => exact .of_pure (continues_goto (.signals hzero) hrun.2) h
  | yield => exact .of_pure (continues_sched .yield hrun.2) h
  | yielded => exact .of_pure (continues_goto .yielded hrun.2) h
  | doSignal signos =>
    cases signos with
    | nil => exact .of_pure (continues_goto .scanned hrun.2) h
    | cons signo rest => exact signalTurn_case hrun h
  | copyInfo signo rest fields info =>
    cases fields with
    | nil => exact handlerTurn_case hrun h
    | cons f fields =>
      simp only [thread, getProc_bind] at h
      exact .of_pure (continues_goto (.copied signo rest f fields info) hrun.2) h
  | stillAliveAfterSignal =>
    simp only [thread, getProc_bind] at h
    split at h
    · rename_i hkilled
      exact .of_pure (continues_goto (.killedBySignal hkilled) hrun.2) h
    · rename_i hkilled
      exact .of_pure (continues_goto (.leave (not_not.1 hkilled)) hrun.2) h
  | usertrapret =>
    simp only [thread, getProc_bind] at h
    split at h
    · rename_i hneed
      exact .of_pure (continues_goto (.needStop hneed) hrun.2) h
    · rename_i hneed
      exact .of_pure (continues_goto (.noStop (not_not.1 hneed)) hrun.2) h
  | clearNeedStop =>
    simp only [thread, modifyProc_bind, pure_eq_some] at h
    obtain ⟨rfl, rfl⟩ := h
    exact .of_runsAt (.setProc (.clearNeedStop hrunner hrun.2) Iff.rfl) hrun fun p =>
      continues_goto .stopping
  | stop => exact .of_pure (continues_sched .stop hrun.2) h
  | stopped => exact .of_pure (continues_goto .continued hrun.2) h
  | jump => exact .of_pure (continues_goto .jump hrun.2) h
  | exit code =>
    simp only [thread, exitStart, get_bind] at h
    split at h
    · cases h
    · simp only [getProc_bind] at h
      exact .of_pure (continues_goto (.exit code _) hrun.2) h
  | reparent code parentProc => exact exitReparent_case hrun hrunner h
  | notifyParent code ppid =>
    simp only [thread, bind_eq_some, discard_eq_some, pure_eq_some] at h
    obtain ⟨_, k1, ⟨_, hsend⟩, rfl, rfl⟩ := h
    have hsends : Act.sends k (.exec c) = sentBy k i (ppid, SIGCHLD.val, code) := by
      simp only [Within.sends_exec hcpu, sigkillCall, hrun.2, Option.bind_some]
    exact .of_runsAt (.of_sysSigkill hsends (fun _ _ => rfl) hsend) hrun fun p =>
      continues_goto (.notified code ppid)
  | wakeInit code => exact exitWakeInit_case hrun h
  | wakeParent code => exact exitWakeParent_case hrun hrunner h
  | finish code => exact exitFinish_case hrun hrunner (hholder .wait rfl) h

/-! ## The step function -/

/-- Every CPU that runs a process runs one of its own, whose state is `RUNNING`, and a process
holds the lock that belongs to the place where its thread stands. -/
structure Sched (k : Kernel) : Prop where
  running : ∀ c i, k.cpus c = .running i → (k.pool i).state = .running
  unique : ∀ c c' i, k.cpus c = .running i → k.cpus c' = .running i → c = c'
  holder : ∀ i lk, (k.pool i).context.holds = some lk → k.locks lk = some i

/-- Everything a step can do: updates of the table, a turn of the scheduler with a task, or
updates and then the end of a step of the process that a CPU runs. -/
inductive StepCase (k : Kernel) (a : Act) (k' : Kernel) : Prop
  | table (h : Within k a k k') (locks : k'.locks = k.locks)
  | fetch (c : CpuId) (j : Slot) (rest : List Slot) (hcpu : k.cpus c = .idle)
      (hqueue : k.taskQueue = j :: rest)
      (h : k' = { k with taskQueue := rest, cpus := Function.update k.cpus c (.popped j) })
  | skip (c : CpuId) (j : Slot) (hcpu : k.cpus c = .popped j) (hstate : (k.pool j).state ≠
    .runnable)
      (h : k' = { k.report (.skipped j) with cpus := Function.update k.cpus c .idle })
  | switch (c : CpuId) (j : Slot) (hcpu : k.cpus c = .popped j) (hstate : (k.pool j).state =
    .runnable)
      (h : k' = { k.setProc j { k.pool j with state := .running } with
        cpus := Function.update k.cpus c (.running j) })
  | own (c : CpuId) (i : Slot) (k1 : Kernel) (p : Proc) (hcpu : k.cpus c = .running i)
      (hrun : a.runner k = some i) (h : Within k a k k1) (hown : Own k i (k1.pool i) p)
      (pool : k'.pool = (k1.setProc i p).pool) (pids : k'.pids = k1.pids)
      (cpus : k'.cpus = if p.state = .running then k.cpus else Function.update k.cpus c .idle)
      (queues : Queues k1 k') (locks : k'.locks = k1.locks) (initProc : k'.initProc = k1.initProc)
      (holder : ∀ lk, p.context.holds = some lk → k1.locks lk = some i)

theorem Parks.state_ne {context context' : Context} {state : ProcState}
    (h : Parks context state context') : state ≠ .running := by
  cases h <;> decide

theorem Parks.holds {context context' : Context} {state : ProcState}
    (h : Parks context state context') : context'.holds = none := by
  cases h <;> rfl

/-- A change of one process that does not wake it. -/
theorem Queues.of_setProc (h : p.state = .runnable ↔ (k.pool i).state = .runnable)
    (hpool : k'.pool = (k.setProc i p).pool) (hsame : SameQueue k k') : Queues k k' := by
  refine .of_same (fun j => ?_) hsame
  rw [hpool]
  by_cases hj : j = i
  · rw [hj, Kernel.setProc_pool_self, h]
  · rw [Kernel.setProc_pool_of_ne hj]

/-- A process that leaves its CPU is pushed on the queue when it is runnable. -/
theorem carryOn_sched {context : Context} {state : ProcState} {u : Unit}
    (hrun : (k.pool i).state = .running) (h : carryOn c i (.sched state context) k = some
    (u, k')) :
    k'.pool = (k.setProc i { k.pool i with state := state, context := context }).pool ∧
      k'.pids = k.pids ∧ k'.cpus = Function.update k.cpus c .idle ∧ Queues k k' ∧
      k'.locks = k.locks ∧ k'.initProc = k.initProc := by
  simp only [carryOn, modifyProc_bind, setCpu, modify_bind] at h
  split at h
  · rename_i hrunnable
    rw [addTask_eq_some (by simp [hrunnable])] at h
    rw [h]
    refine ⟨Kernel.pushQueue_pool _ _, Kernel.pushQueue_pids _ _, Kernel.pushQueue_cpus _ _, ?_,
      Kernel.pushQueue_locks _ _, Kernel.pushQueue_initProc _ _⟩
    refine .of_push (by simp [hrun]) (by simp [hrunnable]) (fun j hj => ?_) ⟨rfl, rfl⟩
    simp [Kernel.setProc_pool_of_ne hj]
  · rename_i hrunnable
    obtain ⟨-, rfl⟩ := pure_eq_some.1 h
    refine ⟨rfl, rfl, rfl, .of_setProc (p := { k.pool i with state := state, context := context })
      ?_ rfl ⟨rfl, rfl⟩, rfl, rfl⟩
    simp [hrun, hrunnable]

theorem exec_case {context : Context} {next : Next} {k1 : Kernel} {u : Unit}
    (hrun : RunsAt k i context) (hcpu : k.cpus c = .running i)
    (hthread : ThreadCase k (.exec c) i k1 next) (h : carryOn c i next k1 = some (u, k')) :
    StepCase k (.exec c) k' := by
  have hrunner := Within.runner_exec hcpu
  cases hthread with
  | within hwithin hnext hlock =>
    have hstate : (k1.pool i).state = .running := (hwithin.runsAt hrun).1
    cases next with
    | goto context' =>
      rw [carryOn, modifyProc_eq_some] at h
      subst h
      have hcpus : k1.cpus = if (k1.pool i).state = .running then k.cpus
          else Function.update k.cpus c .idle := by
        rw [hwithin.cpus, if_pos hstate]
      exact .own c i k1 _ hcpu hrunner hwithin (.goto hnext) rfl rfl hcpus
        (.of_setProc (p := { k1.pool i with context := context' }) Iff.rfl rfl ⟨rfl, rfl⟩) rfl rfl
        fun lk => hlock context' lk rfl
    | sched state context' =>
      obtain ⟨hpool, hpids, hcpus, hqueues, hlocks, hinit⟩ := carryOn_sched hstate h
      refine .own c i k1 _ hcpu hrunner hwithin (.park hnext) hpool hpids ?_ hqueues hlocks
        hinit ?_
      · rw [hcpus, hwithin.cpus]
        exact (if_neg (Parks.state_ne hnext)).symm
      · intro lk hlk
        exact nomatch (Parks.holds hnext).symm.trans hlk
    | die code =>
      simp only [carryOn, modifyProc_bind, setCpu, modify_eq_some] at h
      subst h
      refine .own c i k1 _ hcpu hrunner hwithin (.die hnext) rfl rfl ?_
        (.of_setProc (p := { k1.pool i with exitCode := code, state := .zombie, context := .dead })
          (by simp [hstate]) rfl ⟨rfl, rfl⟩) rfl rfl (by rintro _ ⟨⟩)
      rw [if_neg (by simp)]
      exact congrArg (Function.update · c CpuState.idle) hwithin.cpus
  | @own q context' hframe hsame hstate hctx hown =>
    rw [carryOn, modifyProc_eq_some, hframe.pool_self] at h
    subst h
    have hlast : Frame (k.setProc i { q with context := context' })
        (k1.setProc i { q with context := context' }) := hframe.overwrite
    have hqueues : Queues k (k1.setProc i { q with context := context' }) :=
      .of_setProc (p := { q with context := context' }) (by rw [← hstate]) hlast.pool
        (hsame.trans ⟨rfl, rfl⟩)
    refine .own c i k _ hcpu hrunner (.refl k) hown hlast.pool hlast.pids ?_ hqueues hlast.locks
      hlast.initProc fun lk hlk => nomatch hctx.symm.trans hlk
    rw [hlast.cpus]
    exact (if_pos (hstate.trans hrun.1)).symm

theorem runningOn_eq_some : runningOn c k = some (i, k') ↔ k.cpus c = .running i ∧ k' = k := by
  simp only [runningOn, get_bind]
  cases hcpu : k.cpus c with
  | running j =>
    simp only [pure_eq_some, CpuState.running.injEq]
    exact and_congr_left fun _ => eq_comm
  | _ =>
    refine iff_of_false ?_ (by simp)
    rintro ⟨⟩

/-- A step of a kernel thread, and what follows it. -/
theorem exec_of_step (hcpu : k.cpus c = .running i) (h : step k (.exec c) = some k') :
    ∃ next k₁, thread c i (k.pool i).context k = some (next, k₁) ∧
      carryOn c i next k₁ = some ((), k') := by
  have hact := act_of_step h
  simp only [act, bind_eq_some (x := runningOn _), runningOn_eq_some] at hact
  obtain ⟨_, _, ⟨hcpu', rfl⟩, hact⟩ := hact
  cases hcpu.symm.trans hcpu'
  simpa only [getProc_bind, bind_eq_some] using hact

/-- **Everything a step can do.** -/
theorem step_cases (hsched : Sched k) (h : step k a = some k') : StepCase k a k' := by
  have hact := act_of_step h
  cases a with
  | loadInitApp =>
    simp only [act, get_bind] at hact
    split at hact
    · refine .table (.of_loadInitApp hact) ?_
      obtain ⟨i, _, _, k₁, -, hframe, -, rfl⟩ := Within.loadInitApp_cases hact
      exact (Kernel.pushQueue_locks _ _).trans hframe.locks
    · cases hact
  | fetch c =>
    simp only [act, get_bind] at hact
    cases hcpu : k.cpus c with
    | idle =>
      cases hqueue : k.taskQueue with
      | nil =>
        simp only [hcpu, hqueue] at hact
        cases hact
      | cons i rest =>
        simp only [hcpu, hqueue] at hact
        cases hact
        exact .fetch c i rest hcpu hqueue rfl
    | _ =>
      simp only [hcpu] at hact
      cases hact
  | switchTo c =>
    simp only [act, get_bind] at hact
    cases hcpu : k.cpus c with
    | popped j =>
      simp only [hcpu, getProc_bind] at hact
      split at hact
      · rename_i hrunnable
        simp only [modifyProc_bind, setCpu, modify_eq_some] at hact
        exact .switch c j hcpu hrunnable hact
      · rename_i hskip
        simp only [modify_bind, setCpu, modify_eq_some] at hact
        exact .skip c j hcpu hskip hact
    | _ =>
      simp only [hcpu] at hact
      cases hact
  | tick => exact .table (keeps_timerTick _ _ _ hact) (SameLocks.keeps_timerTick _ _ _ hact)
  | consIntr ch =>
    simp only [act, get_bind] at hact
    split at hact
    · cases hact
    · rw [get_bind, modify_bind] at hact
      have hintr : Within k (.consIntr ch) k { k with cons := (consintr k.cons ch).1 } :=
        .of_frame ⟨rfl, rfl, rfl, rfl, rfl⟩ ⟨rfl, rfl⟩
      split at hact
      · have hlocks := SameLocks.keeps_wakeup _ _ _ _ hact
        exact .table (hintr.trans (Within.keeps_wakeup _ _ _ _ hact)) hlocks
      · obtain ⟨-, rfl⟩ := pure_eq_some.1 hact
        exact .table hintr rfl
  | userStore c va b =>
    simp only [act, bind_eq_some (x := runningOn _), runningOn_eq_some,
      bind_eq_some (x := getMm _), getMm_eq_some] at hact
    obtain ⟨i, k1, ⟨-, rfl⟩, mm, k2, ⟨-, rfl⟩, hact⟩ := hact
    rw [getProc_bind] at hact
    split at hact
    · rw [get_bind] at hact
      cases hpa : act.userStorePa k2.vm mm va with
      | none =>
        simp only [hpa] at hact
        cases hact
      | some pa =>
        simp only [hpa, modify_eq_some] at hact
        subst hact
        exact .table (.of_frame ⟨rfl, rfl, rfl, rfl, rfl⟩ ⟨rfl, rfl⟩) rfl
    · cases hact
  | trap c cause tf =>
    simp only [act, bind_eq_some (x := runningOn _), runningOn_eq_some] at hact
    obtain ⟨i, k1, ⟨hcpu, rfl⟩, hact⟩ := hact
    rw [getProc_bind] at hact
    split at hact
    · rename_i hctx
      rw [modifyProc_eq_some] at hact
      subst hact
      have hrunner : Act.runner k1 (.trap c cause tf) = some i := by simp only [Act.runner, hcpu]
      refine .own c i k1 _ hcpu hrunner (.refl k1) (.trap hctx cause tf) rfl rfl ?_
        (.of_setProc (p := { k1.pool i with trapframe := tf, context := .usertrap cause }) Iff.rfl
          rfl ⟨rfl, rfl⟩)
        rfl rfl (by rintro _ ⟨⟩)
      exact (if_pos (hsched.running c i hcpu)).symm
    · cases hact
  | exec c =>
    simp only [act, bind_eq_some (x := runningOn _), runningOn_eq_some] at hact
    obtain ⟨i, k1, ⟨hcpu, rfl⟩, -⟩ := hact
    obtain ⟨next, k2, hthread, hcarry⟩ := exec_of_step hcpu h
    have hrun : RunsAt k1 i (k1.pool i).context := ⟨hsched.running c i hcpu, rfl⟩
    exact exec_case hrun hcpu (thread_case hrun hcpu (hsched.holder i) hthread) hcarry

/-! ## The scheduler's invariant -/

theorem Within.running (h : Within k₀ a k k') (hrun : (k.pool j).state = .running) :
    (k'.pool j).state = .running := (h.runsAt ⟨hrun, rfl⟩).1

theorem Within.slot_induct {I : Proc → Prop}
    (hupd : ∀ p q, I p → Upd k₀ a j p q → I q)
    (hborn : ∀ pid q, (k₀.pool j).state = .unused → Born k₀ a pid (k₀.pool j) q → I q)
    (h : Within k₀ a k k') (hI : I (k.pool j)) : I (k'.pool j) := by
  have hchanges := h.changes
  clear h
  induction hchanges with
  | refl => exact hI
  | tail _ hlast ih =>
    cases hlast with
    | update pool =>
      rcases pool j with hj | hj
      · exact hj ▸ ih
      · exact hupd _ _ ih hj
    | born i hstart hunused others hnew =>
      by_cases hj : j = i
      · subst hj
        rw [hstart] at hunused hnew
        exact hborn _ _ hunused hnew
      · exact others j hj ▸ ih

/-- Updates bring no process to a place where it holds a lock. -/
theorem Within.context_holds {lk : SleepLock} (h : Within k₀ a k k')
    (hctx : (k'.pool j).context.holds = some lk) : (k.pool j).context.holds = some lk := by
  refine h.slot_induct (I := fun p => p.context.holds = some lk → (k.pool j).context.holds =
    some lk)
    (fun p q hp hupd hq => ?_) (fun pid q _ hborn hq => ?_) id hctx
  · rcases hupd.cases with hsame | ⟨-, rfl⟩
    · exact hp (hsame.context ▸ hq)
    · cases hq
  · cases hborn <;> cases hq

namespace Sched

/-- No CPU gets a process to run, and those that keep theirs keep it running. -/
theorem of_fewer (hsched : Sched k) (hcpus : ∀ c i, k'.cpus c = .running i → k.cpus c = .running i)
    (hstate : ∀ c i, k'.cpus c = .running i → (k'.pool i).state = .running)
    (hholder : ∀ i lk, (k'.pool i).context.holds = some lk → k'.locks lk = some i) : Sched k' :=
  ⟨hstate, fun c c' i hc hc' => hsched.unique c c' i (hcpus c i hc) (hcpus c' i hc'), hholder⟩

theorem running_of_update {cpus : CpuId → CpuState} {c c' : CpuId} {s : CpuState}
    (hs : ∀ j, s ≠ .running j) (h : Function.update cpus c s c' = .running i) :
    c' ≠ c ∧ cpus c' = .running i := by
  by_cases hc : c' = c
  · subst hc
    rw [Function.update_self] at h
    exact absurd h (hs i)
  · rw [Function.update_of_ne hc] at h
    exact ⟨hc, h⟩

/-- A turn of the scheduler that leaves the process table alone. -/
theorem of_scheduler {s : CpuState} (hsched : Sched k) (hs : ∀ j, s ≠ .running j)
    (hpool : k'.pool = k.pool) (hlocks : k'.locks = k.locks)
    (hcpus : k'.cpus = Function.update k.cpus c s) : Sched k' := by
  have hold (c' : CpuId) (i : Slot) (hcpu : k'.cpus c' = .running i) : k.cpus c' = .running i :=
    (running_of_update hs (hcpus ▸ hcpu)).2
  refine hsched.of_fewer hold (fun c i hcpu => hpool ▸ hsched.running c i (hold c i hcpu)) ?_
  intro i lk hctx
  rw [hlocks]
  exact hsched.holder i lk (hpool ▸ hctx)

theorem step (hsched : Sched k) (h : step k a = some k') : Sched k' := by
  cases step_cases hsched h with
  | table h hlocks =>
    refine hsched.of_fewer (fun c i => h.cpus ▸ id) (fun c i hcpu => ?_) fun i lk hctx => ?_
    · exact h.running (hsched.running c i (h.cpus ▸ hcpu))
    · rw [hlocks]
      exact hsched.holder i lk (h.context_holds hctx)
  | fetch c j rest hcpu hqueue h =>
    subst h
    exact hsched.of_scheduler (s := .popped j) nofun rfl rfl rfl
  | skip c j hcpu hstate h =>
    subst h
    exact hsched.of_scheduler (s := .idle) nofun rfl rfl rfl
  | switch c j hcpu hstate h =>
    subst h
    have hfree (c' : CpuId) : k.cpus c' ≠ .running j := fun h => by
      have hrun := hsched.running c' j h
      rw [hstate] at hrun
      cases hrun
    have hold (c' : CpuId) (i : Slot) (hc : c' ≠ c)
        (h : Function.update k.cpus c (.running j) c' = .running i) : k.cpus c' = .running i := by
      rwa [Function.update_of_ne hc] at h
    have hnew (i : Slot) (h : Function.update k.cpus c (.running j) c = .running i) : i = j := by
      rw [Function.update_self] at h
      exact (CpuState.running.inj h).symm
    refine ⟨fun c' i h => ?_, fun c' c'' i h h' => ?_, fun i lk hctx => hsched.holder i lk ?_⟩
    · dsimp only at h ⊢
      by_cases hi : i = j
      · rw [hi, Kernel.setProc_pool_self]
      · rw [Kernel.setProc_pool_of_ne hi]
        have hc : c' ≠ c := by
          rintro rfl
          exact hi (hnew i h)
        exact hsched.running c' i (hold c' i hc h)
    · by_cases hc : c' = c <;> by_cases hc' : c'' = c
      · rw [hc, hc']
      · cases hnew i (hc ▸ h)
        exact absurd (hold c'' _ hc' h') (hfree c'')
      · cases hnew i (hc' ▸ h')
        exact absurd (hold c' _ hc h) (hfree c')
      · exact hsched.unique c' c'' i (hold c' i hc h) (hold c'' i hc' h')
    · dsimp only at hctx
      by_cases hi : i = j
      · rw [hi, Kernel.setProc_pool_self] at hctx
        rw [hi]
        exact hctx
      · rwa [Kernel.setProc_pool_of_ne hi] at hctx
  | own c i k1 p hcpu hrun h hown pool pids cpus queues locks initProc holder =>
    have hcpus (c' : CpuId) (i' : Slot) (h' : k'.cpus c' = .running i') :
        k.cpus c' = .running i' ∧ (i' = i → p.state = .running) := by
      rw [cpus] at h'
      split at h'
      · rename_i hstate
        exact ⟨h', fun _ => hstate⟩
      · obtain ⟨hne, h'⟩ := running_of_update (by simp) h'
        refine ⟨h', fun hi => absurd (hsched.unique c' c i' h' (hi ▸ hcpu)) hne⟩
    refine hsched.of_fewer (fun c' i' h' => (hcpus c' i' h').1) (fun c' i' h' => ?_)
      fun i' lk hctx => ?_
    · obtain ⟨hold, hsame⟩ := hcpus c' i' h'
      rw [pool]
      by_cases hi : i' = i
      · rw [hi, Kernel.setProc_pool_self]
        exact hsame hi
      · rw [Kernel.setProc_pool_of_ne hi]
        exact h.running (hsched.running c' i' hold)
    · rw [pool] at hctx
      rw [locks]
      by_cases hi : i' = i
      · rw [hi, Kernel.setProc_pool_self] at hctx
        exact hi ▸ holder lk hctx
      · rw [Kernel.setProc_pool_of_ne hi] at hctx
        refine h.locks _ _ (hsched.holder i' lk (h.context_holds hctx)) ?_
        rw [hrun]
        exact fun heq => hi (Option.some.inj heq).symm

theorem boot (m : Machine) : Sched (boot m) := by
  refine ⟨fun c i h => ?_, fun c c' i h => ?_, fun i lk h => ?_⟩
  all_goals cases h

end Sched

theorem Reachable.sched (h : Reachable k) : Sched k := by
  obtain ⟨m, h⟩ := h
  exact h.induct (Sched.boot m) fun _ _ _ hs hstep => hs.step hstep

/-! ## The invariant rule of a slot -/

/-- **The invariant rule of a slot**: what updates, the scheduler and the steps of its own thread
preserve holds after every step. -/
theorem slot_step {I : Proc → Prop} (hsched : Sched k) (h : step k a = some k')
    (hupd : ∀ p q, I p → Upd k a j p q → I q)
    (hborn : ∀ pid q, (k.pool j).state = .unused → Born k a pid (k.pool j) q → I q)
    (hswitch : I (k.pool j) → (k.pool j).state = .runnable → I { k.pool j with state := .running })
    (hown : a.runner k = some j → ∀ p q, I p → RunsAt k j p.context → p.state = .running →
      Own k j p q → I q)
    (hI : I (k.pool j)) : I (k'.pool j) := by
  cases step_cases hsched h with
  | table hwithin => exact hwithin.slot_induct hupd hborn hI
  | fetch c i rest hcpu hqueue h => exact h ▸ hI
  | skip c i hcpu hstate h => exact h ▸ hI
  | switch c i hcpu hstate h =>
    subst h
    dsimp only
    by_cases hj : j = i
    · subst hj
      rw [Kernel.setProc_pool_self]
      exact hswitch hI hstate
    · rwa [Kernel.setProc_pool_of_ne hj]
  | own c i k1 p hcpu hrun hwithin hend pool =>
    have hI1 : I (k1.pool j) := hwithin.slot_induct hupd hborn hI
    rw [pool]
    by_cases hj : j = i
    · subst hj
      rw [Kernel.setProc_pool_self]
      have hrunsAt : RunsAt k j (k.pool j).context := ⟨hsched.running c j hcpu, rfl⟩
      obtain ⟨hstate, hctx⟩ := hwithin.runsAt hrunsAt
      exact hown hrun _ _ hI1 (hctx ▸ hrunsAt) hstate hend
    · rwa [Kernel.setProc_pool_of_ne hj]

/-- A running process stays on its CPU and where it is in the steps of others. -/
theorem step_other (hsched : Sched k) (h : step k a = some k') (hrun : a.runner k ≠ some j)
    (hj : (k.pool j).state = .running) :
    (k'.pool j).state = .running ∧ (k'.pool j).context = (k.pool j).context :=
  slot_step (I := fun p => p.state = .running ∧ p.context = (k.pool j).context) hsched h
    (fun _ _ hp hupd => (hupd.running hp.1).imp_right (Eq.trans · hp.2))
    (fun _ _ hunused => nomatch hunused.symm.trans hj) (fun hp _ => ⟨rfl, hp.2⟩)
    (fun hrunner => absurd hrunner hrun) ⟨hj, rfl⟩

/-- **The invariant rule of the table**, for what depends on all slots and the pids handed out. -/
theorem table_step {I : (Slot → Proc) → Nat → Prop} (hsched : Sched k) (h : step k a = some k')
    (hchange : ∀ k₁ k₂, Change k a k₁ k₂ → I k₁.pool k₁.pids → I k₂.pool k₂.pids)
    (hswitch : ∀ j, (k.pool j).state = .runnable → I k.pool k.pids →
      I (k.setProc j { k.pool j with state := .running }).pool k.pids)
    (hown : ∀ (i : Slot) (k₁ : Kernel) (p : Proc), a.runner k = some i →
      RunsAt k i (k₁.pool i).context →
      (k₁.pool i).state = .running → Own k i (k₁.pool i) p → I k₁.pool k₁.pids →
      I (k₁.setProc i p).pool k₁.pids)
    (hI : I k.pool k.pids) : I k'.pool k'.pids := by
  have hwithin {k₁ : Kernel} (h : Within k a k k₁) : I k₁.pool k₁.pids := by
    have hchanges := h.changes
    clear h
    induction hchanges with
    | refl => exact hI
    | tail _ hlast ih => exact hchange _ _ hlast ih
  cases step_cases hsched h with
  | table h => exact hwithin h
  | fetch c i rest hcpu hqueue h => exact h ▸ hI
  | skip c i hcpu hstate h => exact h ▸ hI
  | switch c j hcpu hstate h =>
    subst h
    exact hswitch j hstate hI
  | own c i k1 p hcpu hrun h hend pool pids =>
    have hrunsAt : RunsAt k i (k.pool i).context := ⟨hsched.running c i hcpu, rfl⟩
    obtain ⟨hstate, hctx⟩ := h.runsAt hrunsAt
    rw [pool, pids]
    exact hown i k1 p hrun (hctx ▸ hrunsAt) hstate hend (hwithin h)

/-- **The run rule of a slot**: what each step along the condition preserves holds at the end. -/
theorem slot_run {I : Proc → Prop} {ok : Kernel → Act → Prop} {as : List Act}
    (hstep : ∀ k a k', Sched k → ok k a → step k a = some k' → I (k.pool j) → I (k'.pool j))
    (hsched : Sched k) (hrun : Runs.run step k as = some k') (hok : Runs.Along step ok k as)
    (hI : I (k.pool j)) : I (k'.pool j) := by
  have hinv := Runs.run_induct (I := fun k => Sched k ∧ I (k.pool j))
    (fun k a k' hI hok h => ⟨hI.1.step h, hstep k a k' hI.1 hok h hI.2⟩) ⟨hsched, hI⟩ hrun hok
  exact hinv.2

/-- The slot has not been freed. -/
def InUse (j : Slot) (k : Kernel) (_ : Act) : Prop := (k.pool j).state ≠ .unused

instance (j : Slot) (k : Kernel) (a : Act) : Decidable (InUse j k a) :=
  inferInstanceAs (Decidable (_ ≠ _))

end SignalOS
