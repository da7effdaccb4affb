import SignalOS.Kernel.Tree
import SignalOS.Signal.Delivery

/-!
# `init` does not exit

What makes `exit` panic: `init` is killed like any other process.

* `InitProgram` — the program of `init`: it calls `fork`, `exec`, `wait` and `write`,
  and does not fault.
* `SparesInit` — nobody sends `init` a signal that kills it, or finds it with `kill`.
* `InitUnharmed` — the invariant: `init` is not killed, and nothing that would kill it
  is pending.
* `init_does_not_exit` — **then `init` does not call `exit`**; `init_killed` — otherwise
  it does.
-/

namespace SignalOS

open Partial Runs

variable {k k' : Kernel} {a : Act} {c : CpuId} {i j : Slot} {p q : Proc}

/-- The trap is a fault of the program. -/
def Cause.isFault : Cause → Bool
  | .pageFault .. | .exception => true
  | .timer | .external | .interrupt | .ecall => false

/-- The system calls of the program of `init`. -/
def Sysno.ofInit : Sysno → Bool
  | .fork | .exec | .wait | .write => true
  | _ => false

/-- The cause of a trap. -/
def Act.cause : Act → Option Cause
  | .trap _ cause _ => some cause
  | _ => none

/-- What the program of `init` does: the traps it takes are no faults, and the calls it makes are
these four. -/
def InitProgram (k : Kernel) (a : Act) : Prop :=
  ∀ i ∈ a.runner k, k.initProc = some i →
    (∀ cause ∈ a.cause, cause.isFault = false) ∧
    ((k.pool i).context = .syscall →
      (Sysno.ofId (toInt (k.pool i).trapframe.a7)).any Sysno.ofInit = true)

instance (k : Kernel) (a : Act) : Decidable (InitProgram k a) :=
  @Option.decidableForallMem _ _ (fun _ => inferInstanceAs (Decidable (_ → _ ∧ (_ → _)))) _

/-- A signal that does not kill a process with the default dispositions. -/
def Harmless (signo : Signo) : Prop := signo = SIGSTOP ∨ signo = SIGCONT ∨ signo = SIGCHLD

instance (signo : Signo) : Decidable (Harmless signo) := inferInstanceAs (Decidable (_ ∨ _ ∨ _))

theorem not_harmless_sigkill : ¬ Harmless SIGKILL := by decide

/-- No signal that could kill `init` is sent to it, and no `kill` finds it. -/
def SparesInit (k : Kernel) (a : Act) : Prop :=
  (∀ s ∈ a.sends k, k.initProc = some s.target → Harmless s.signo) ∧
    ∀ j ∈ a.kills k, k.initProc ≠ some j

instance (k : Kernel) (a : Act) : Decidable (SparesInit k a) :=
  @instDecidableAnd _ _ (Option.decidableForallMem _) (Option.decidableForallMem _)

/-! ## What `init` is -/

/-- A process that is not killed and will not be by what is pending. -/
structure Unharmed (p : Proc) : Prop where
  killed : p.killed = 0
  pending : ∀ n, p.pending n = true → Harmless n

theorem Unharmed.of_same (hp : Unharmed p) (hkilled : q.killed = p.killed)
    (hpending : ∀ n, q.pending n = true → p.pending n = true) : Unharmed q :=
  ⟨hkilled.trans hp.killed, fun n hn => hp.pending n (hpending n hn)⟩

theorem Upd.unharmed (hspares : SparesInit k a) (hj : k.initProc = some j) (h : Upd k a j p q)
    (hp : Unharmed p) : Unharmed q := by
  cases h with
  | @receive signo code sender hsends =>
    have hharmless := hspares.1 _ hsends hj
    have hkill : signo ≠ SIGKILL := by
      rintro rfl
      exact not_harmless_sigkill hharmless
    refine ⟨?_, fun n hn => ?_⟩
    · rw [receive_killed, if_neg hkill]
      exact hp.killed
    · rw [receive_pending, if_neg hkill] at hn
      split at hn
      · simp only [Bool.and_eq_true, Bool.or_eq_true, decide_eq_true_eq] at hn
        exact hn.1.elim (hp.pending n) fun heq => .inr (.inl heq)
      · simp only [Bool.or_eq_true, decide_eq_true_eq] at hn
        exact hn.elim (hp.pending n) fun heq => heq ▸ hharmless
  | receiveKill hkills => exact absurd hj (hspares.2 j hkills)
  | sigaction =>
    obtain ⟨sa, hsa⟩ := sysSigaction_proc _ p k.vm _ _ _
    exact hsa ▸ hp.of_same rfl fun _ => id
  | free => exact ⟨rfl, hp.pending⟩
  | _ => exact hp.of_same rfl fun _ => id

/-- A turn of `do_signal` for a signal that does not kill. -/
theorem Unharmed.turn {signo : Signo} (hp : Unharmed p) (h : takeSignal signo p = .next q) :
    Unharmed q := by
  refine hp.of_same ?_ fun n hn => pending_of_taken h hn
  have hcase := h ▸ takeSignal_cases signo p
  cases hcase with
  | kill hpend => exact absurd (hp.pending SIGKILL hpend) not_harmless_sigkill
  | default hdel _ hchld =>
    rcases hp.pending signo hdel.pending with rfl | rfl | rfl
    · exact absurd (.inr (.inl rfl)) hdel.blockable
    · exact absurd (.inr (.inr rfl)) hdel.blockable
    · exact absurd rfl hchld
  | _ => rfl

theorem Own.unharmed (h : Own k j p q)
    (hfault : ∀ cause, (k.pool j).context = .usertrap cause → cause.isFault = false)
    (hp : Unharmed p) : Unharmed q := by
  cases h with
  | @fault cause reason hk hctx hkills =>
    have hno := hfault cause (hk ▸ hctx)
    cases cause with
    | pageFault => cases hno
    | exception => cases hno
    | _ => cases hkills
  | turn _ _ hturn =>
    have hq := hp.turn hturn
    exact ⟨hq.killed, hq.pending⟩
  | @take signo =>
    refine hp.of_same rfl fun n hn => ?_
    have hn : (p.delPending signo).pending n = true := hn
    rw [Proc.pending_delPending, Bool.and_eq_true] at hn
    exact hn.1
  | _ => exact hp.of_same rfl fun _ => id

/-! ## Before `init` -/

theorem runner_of_sends {s : Sent} (h : a.sends k = some s) : ∃ i, a.runner k = some i := by
  cases a with
  | exec c =>
    obtain ⟨i, hrun, -⟩ := Option.bind_eq_some_iff.1 h
    exact ⟨i, hrun⟩
  | _ => cases h

theorem runner_of_kills (h : a.kills k = some j) : ∃ i, a.runner k = some i := by
  cases a with
  | exec c =>
    obtain ⟨i, hrun, -⟩ := Option.bind_eq_some_iff.1 h
    exact ⟨i, hrun⟩
  | _ => cases h

/-- A process that has nothing to be killed for; a free slot keeps its old pending signals. -/
structure Unmarked (p : Proc) : Prop where
  killed : p.killed = 0
  pending : p.state ≠ .unused → ∀ n, p.pending n = false

theorem Unmarked.unharmed (h : Unmarked p) (hused : p.state ≠ .unused) : Unharmed p :=
  ⟨h.killed, fun n hn => nomatch hn.symm.trans (h.pending hused n)⟩

/-- Nothing is sent while there is no process. -/
theorem Upd.unmarked (hrun : ∀ i, a.runner k ≠ some i) (h : Upd k a j p q) (hp : Unmarked p) :
    Unmarked q := by
  cases h with
  | receive hsends =>
    obtain ⟨i, hi⟩ := runner_of_sends hsends
    exact absurd hi (hrun i)
  | receiveKill hkills =>
    obtain ⟨i, hi⟩ := runner_of_kills hkills
    exact absurd hi (hrun i)
  | wakeup hsleeping => exact ⟨hp.killed, fun _ => hp.pending (by simp [hsleeping])⟩
  | free => exact ⟨rfl, fun hused => absurd rfl hused⟩
  | reparent hrunner => exact absurd hrunner (hrun _)
  | memory hrunner => exact absurd hrunner (hrun _)
  | sigmask hrunner => exact absurd hrunner (hrun _)
  | sigaction hrunner => exact absurd hrunner (hrun _)
  | exec hrunner => exact absurd hrunner (hrun _)
  | sleepChan hrunner => exact absurd hrunner (hrun _)
  | clearNeedStop hrunner => exact absurd hrunner (hrun _)

theorem Born.unmarked {pid : Int} (h : Born k a pid p q) (hp : Unmarked p) : Unmarked q := by
  have hempty (n : Signo) : sigismember sigemptyset n = false := sigismember_sigemptyset n
  cases h with
  | fork => exact ⟨hp.killed, fun _ => hempty⟩
  | failed => exact ⟨rfl, fun hused => absurd rfl hused⟩
  | init => exact ⟨hp.killed, fun _ => hempty⟩

theorem step_unmarked (hk : Reachable k) (hnone : k.initProc = none) (h : step k a = some k')
    (hj : Unmarked (k.pool j)) : Unmarked (k'.pool j) := by
  have hrun (i : Slot) : a.runner k ≠ some i := fun hrun =>
    nomatch (hk.sched.runner hrun).symm.trans (hk.tree.empty hnone i)
  exact slot_step hk.sched h (fun p q hp hupd => hupd.unmarked hrun hp) (fun _ _ _ hborn =>
    hborn.unmarked hj)
    (fun hp hrunnable => ⟨hp.killed, fun _ => hp.pending (by simp [hrunnable])⟩)
    (fun hrunner => absurd hrunner (hrun j)) hj

/-! ## Ways into `exit` -/

/-- A process gets to the start of `usertrap` by a trap. -/
theorem step_usertrap {cause : Cause} (hsched : Sched k) (h : step k a = some k')
    (hctx : (k'.pool i).context = .usertrap cause) :
    (k.pool i).context = .usertrap cause ∨ a.runner k = some i ∧ ∃ c tf, a = .trap c cause tf := by
  rcases step_context hsched h hctx nofun nofun with hold | ⟨hrun, p, q, hown, hp, -, hq⟩
  · exact .inl hold
  have huser : (k.pool i).context = .user := by
    cases hown with
    | trap huser => exact hp.symm.trans huser
    | @goto context hmoves =>
      obtain rfl : context = .usertrap cause := hq
      generalize p.context = start at hmoves
      cases hmoves
    | @park state context hparks =>
      obtain rfl : context = .usertrap cause := hq
      generalize p.context = start at hparks
      cases hparks
    | _ => cases hq
  have hact := act_of_step h
  cases a with
  | exec c =>
    obtain ⟨i', hcpu, hrunner⟩ : ∃ i', k.cpus c = .running i' ∧ i' = i := by
      simp only [Act.runner] at hrun
      split at hrun
      · rename_i i' hcpu
        exact ⟨i', hcpu, Option.some.inj hrun⟩
      · cases hrun
    subst hrunner
    obtain ⟨next, k₁, hthread, -⟩ := exec_of_step hcpu h
    rw [huser] at hthread
    cases hthread
  | trap c cause' tf =>
    simp only [act, bind_eq_some (x := runningOn _), runningOn_eq_some] at hact
    obtain ⟨i', k₁, ⟨hcpu, rfl⟩, hact⟩ := hact
    obtain rfl : i' = i := by simpa [Act.runner, hcpu] using hrun
    rw [getProc_bind, if_pos huser, modifyProc_eq_some] at hact
    rw [hact, Kernel.setProc_pool_self] at hctx
    cases hctx
    exact .inr ⟨hrun, c, tf, rfl⟩
  | userStore c va b =>
    simp only [act, bind_eq_some (x := runningOn _), runningOn_eq_some,
      bind_eq_some (x := getMm _), getMm_eq_some] at hact
    obtain ⟨i', k₁, ⟨hcpu, rfl⟩, mm, k₂, ⟨-, rfl⟩, hact⟩ := hact
    obtain rfl : i' = i := by simpa [Act.runner, hcpu] using hrun
    rw [getProc_bind, if_pos huser, get_bind] at hact
    cases hpa : act.userStorePa k₂.vm mm va with
    | none =>
      simp only [hpa] at hact
      cases hact
    | some pa =>
      simp only [hpa, modify_eq_some] at hact
      rw [hact] at hctx
      exact .inl hctx
  | _ => cases hrun

theorem exit_of_returns {tf : Trapframe} :
    Returns (fun o => ∀ code, o = .goto (.exit code) → Sysno.ofId (toInt tf.a7) = some .exit)
      (syscallSwitch i tf) := by
  rw [syscallSwitch]
  cases hid : Sysno.ofId (toInt tf.a7) with
  | none => exact .pure (by rintro _ ⟨⟩)
  | some n =>
    cases n
    case exit => exact .pure fun _ _ => rfl
    case wait => exact .pure (by rintro _ ⟨⟩)
    case sleep => exact .pure (by rintro _ ⟨⟩)
    case read => exact .pure (by rintro _ ⟨⟩)
    case yield => exact .pure (by rintro _ ⟨⟩)
    case mmap => exact .fail
    all_goals exact .bind fun r => .pure (by rintro _ ⟨⟩)

/-- A system call that leads to `exit` is `sys_exit`. -/
theorem step_syscall_exit {code : Int} (hcpu : k.cpus c = .running i)
    (hctx : (k.pool i).context = .syscall) (h : step k (.exec c) = some k')
    (hexit : (k'.pool i).context = .exit code) :
    Sysno.ofId (toInt (k.pool i).trapframe.a7) = some .exit := by
  obtain ⟨next, k₁, hthread, hcarry⟩ := exec_of_step hcpu h
  simp only [hctx, thread, syscall, getProc_bind, bind_eq_some (x := _ >>= _),
    bind_eq_some (x := syscallSwitch _ _)] at hthread
  obtain ⟨o, k₂, ⟨o', k₃, hswitch, hreturn⟩, hnext⟩ := hthread
  -- elsewhere the thread goes to `stillAlive` or to the scheduler
  have hgoto {context : Context} (hgo : next = .goto context) : context = .exit code := by
    subst hgo
    rw [carryOn, modifyProc_eq_some] at hcarry
    rw [hcarry, Kernel.setProc_pool_self] at hexit
    exact hexit
  cases o' with
  | ret r =>
    simp only [bind_eq_some, pure_eq_some] at hreturn
    obtain ⟨_, _, -, rfl, rfl⟩ := hreturn
    cases hgoto (pure_eq_some.1 hnext).1
  | goto context =>
    obtain ⟨rfl, rfl⟩ := pure_eq_some.1 hreturn
    refine exit_of_returns _ _ _ hswitch code ?_
    rw [hgoto (pure_eq_some.1 hnext).1]
  | yield =>
    obtain ⟨rfl, rfl⟩ := pure_eq_some.1 hreturn
    obtain ⟨rfl, rfl⟩ := pure_eq_some.1 hnext
    simp only [carryOn, modifyProc_bind, setCpu, modify_bind, if_true] at hcarry
    rw [addTask_eq_some (by simp)] at hcarry
    rw [hcarry, Kernel.pushQueue_pool] at hexit
    dsimp only at hexit
    rw [Kernel.setProc_pool_self] at hexit
    cases hexit

/-- A process that is not killed gets into `exit` only by a system call. -/
theorem Own.to_exit {code : Int} (h : Own k i p q) (hp : p.killed = 0)
    (hq : q.context = .exit code) :
    p.context = .syscall := by
  cases h with
  | @goto context hmoves =>
    obtain rfl : context = .exit code := hq
    generalize p.context = start at hmoves ⊢
    cases hmoves with
    | sysExit => rfl
    | ecallKilled hkilled => exact absurd hp hkilled
    | killed _ hkilled => exact absurd hp hkilled
    | killedBySignal hkilled => exact absurd hp hkilled
  | @park state context hparks =>
    obtain rfl : context = .exit code := hq
    generalize p.context = start at hparks
    cases hparks
  | _ => cases hq

/-! ## The invariant -/

/-- `init` is unharmed, has taken no fault and is not in `exit`. -/
structure InitUnharmed (k : Kernel) (i : Slot) : Prop where
  unharmed : Unharmed (k.pool i)
  noFault : ∀ cause, (k.pool i).context = .usertrap cause → cause.isFault = false
  noExit : ∀ code, (k.pool i).context ≠ .exit code

/-- **Every step that spares `init` keeps it unharmed.** -/
theorem InitUnharmed.step (hI : InitUnharmed k i) (hk : Reachable k) (hi : k.initProc = some i)
    (hprogram : InitProgram k a) (hspares : SparesInit k a) (h : SignalOS.step k a = some k') :
    InitUnharmed k' i := by
  have hsched := hk.sched
  have hused := (hk.tree.init i hi).2.1.used
  have hinv : Unharmed (k'.pool i) ∧ ∀ code, (k'.pool i).context = .exit code →
      (k.pool i).context = .exit code ∨ a.runner k = some i ∧ (k.pool i).context = .syscall := by
    refine slot_step (I := fun p => Unharmed p ∧ ∀ code, p.context = .exit code →
      (k.pool i).context = .exit code ∨ a.runner k = some i ∧
        (k.pool i).context = .syscall) hsched h
      (fun p q hp hupd => ⟨hupd.unharmed hspares hi hp.1, fun code hq => ?_⟩)
      (fun _ _ hunused => absurd hunused hused) (fun hp _ => ⟨⟨hp.1.killed, hp.1.pending⟩, hp.2⟩)
      (fun hrun p q hp hrunsAt _ hown => ⟨hown.unharmed hI.noFault hp.1, fun code hq => ?_⟩)
      ⟨hI.unharmed, fun _ => .inl⟩
    · rcases hupd.cases with hsame | ⟨-, rfl⟩
      · exact hp.2 code (hsame.context.symm.trans hq)
      · cases hq
    · exact .inr ⟨hrun, hrunsAt.2.trans (hown.to_exit hp.1.killed hq)⟩
  refine ⟨hinv.1, fun cause hctx => ?_, fun code hctx => ?_⟩
  · rcases step_usertrap hsched h hctx with hold | ⟨hrun, c, tf, rfl⟩
    · exact hI.noFault cause hold
    · exact (hprogram i hrun hi).1 cause rfl
  · rcases hinv.2 code hctx with hold | ⟨hrun, hsyscall⟩
    · exact hI.noExit code hold
    · have hcall := (hprogram i hrun hi).2 hsyscall
      obtain ⟨c, rfl, hcpu⟩ := exec_of_runner h hrun (by simp [hsyscall])
      rw [step_syscall_exit hcpu hsyscall h hctx] at hcall
      cases hcall

/-- There is no process, or `init` is unharmed. -/
structure InitSafe (k : Kernel) : Prop where
  before : k.initProc = none → ∀ j, Unmarked (k.pool j)
  unharmed : ∀ i, k.initProc = some i → InitUnharmed k i

theorem InitSafe.step (hI : InitSafe k) (hk : Reachable k) (hprogram : InitProgram k a)
    (hspares : SparesInit k a) (h : SignalOS.step k a = some k') : InitSafe k' := by
  by_cases ha : a = .loadInitApp
  · subst ha
    obtain ⟨hnone, i, -, hinit, hstate, hctx, -⟩ := step_loadInitApp h
    refine ⟨fun hnone' => (nomatch hnone'.symm.trans hinit), fun i' hi' => ?_⟩
    cases hinit.symm.trans hi'
    have hmarks := step_unmarked hk hnone h (hI.before hnone i)
    refine ⟨hmarks.unharmed (by simp [hstate]), ?_, ?_⟩ <;> simp [hctx]
  · have hinit := step_initProc hk.sched h ha
    refine ⟨fun hnone j => ?_, fun i hi => ?_⟩
    · rw [hinit] at hnone
      exact step_unmarked hk hnone h (hI.before hnone j)
    · rw [hinit] at hi
      exact (hI.unharmed i hi).step hk hi hprogram hspares h

/-- **`init` does not exit**, in any run in which its program makes only the calls `fork`, `exec`,
`wait` and `write` and does not fault, no signal but `SIGSTOP`, `SIGCONT` and `SIGCHLD` is sent to
it and no `kill` finds it. -/
theorem init_does_not_exit (m : Machine) (as : List Act) (k : Kernel)
    (hrun : run step (boot m) as = some k) (hprogram : Along step InitProgram (boot m) as)
    (hspares : Along step SparesInit (boot m) as) :
    ∀ i code, k.initProc = some i → (k.pool i).context ≠ .exit code := by
  have hboot : InitSafe (boot m) := ⟨fun _ _ => ⟨rfl, fun hused => absurd rfl hused⟩, nofun⟩
  have hok : Along step (fun k a => InitProgram k a ∧ SparesInit k a) (boot m) as :=
    fun p hp => ⟨hprogram p hp, hspares p hp⟩
  have hinv := run_induct (I := fun k => Reachable k ∧ InitSafe k)
    (fun k a k' hI hok hstep => ⟨hI.1.step hstep, hI.2.step hI.1 hok.1 hok.2 hstep⟩)
    ⟨⟨m, .refl⟩, hboot⟩ hrun hok
  exact fun i code hi => (hinv.2.unharmed i hi).noExit code

/-- The child sends `init` the signal `SIGCHLD` and `init` takes an interrupt. -/
def signalInit : List Act :=
  forkChild ++ enterUser 1 ++ ecall 1 (callRegs .sigkill 1 (ofInt SIGCHLD.val) 0) ++
    [.trap 0 .external .zero, .exec 0] ++ leave 0

theorem init_does_not_exit_signalInit :
    ∃ k, run step (boot initMachine) signalInit = some k ∧ k.initProc = some 0 ∧
      (k.pool 0).context = .user ∧ ∀ i code, k.initProc = some i →
        (k.pool i).context ≠ .exit code := by
  have hobs : (run step (boot initMachine) signalInit).map
      (fun k => decide (k.initProc = some 0 ∧ (k.pool 0).context = .user)) = some true := by
    decide +kernel
  simp only [Option.map_eq_some_iff, decide_eq_true_eq] at hobs
  obtain ⟨k, hrun, hinit, hctx⟩ := hobs
  exact ⟨k, hrun, hinit, hctx,
    init_does_not_exit initMachine signalInit k hrun (by decide +kernel) (by decide +kernel)⟩

/-- The child calls `kill(1)`, and `init` takes a timer interrupt. -/
def killInit : List Act :=
  forkChild ++ enterUser 1 ++ ecall 1 (callRegs .kill 1 0 0) ++ [.trap 0 .timer .zero, .exec 0,
    .exec 0]

/-- `init` calls `exit`, and the kernel panics. -/
theorem init_killed :
    ¬ ∀ (m : Machine) (as : List Act) (k : Kernel), run step (boot m) as = some k →
      Along step InitProgram (boot m) as →
        ∀ i code, k.initProc = some i → (k.pool i).context ≠ .exit code := by
  intro hall
  have hobs : (run step (boot initMachine) killInit).map
      (fun k => decide (k.initProc = some 0 ∧ (k.pool 0).context = .exit (-14))) = some true := by
    decide +kernel
  simp only [Option.map_eq_some_iff, decide_eq_true_eq] at hobs
  obtain ⟨k, hrun, hinit, hctx⟩ := hobs
  exact hall initMachine killInit k hrun (by decide +kernel) 0 (-14) hinit hctx

end SignalOS
