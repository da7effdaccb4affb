import SignalOS.Kernel.Inversion
import SignalOS.Signal.Disposition

/-!
# Dispositions over whole runs

`SIGKILL` and `SIGSTOP` keep the default action in every process, along the runs
in which no call of `sys_sigaction` writes the old action over the new one.
-/

namespace SignalOS

open Runs

variable {k k' : Kernel} {a : Act} {j : Slot} {p q : Proc}

/-- If the act is a call of `sys_sigaction`, the call is not one that writes the old action over
the handler of the new one. -/
def KeepsDispositions (k : Kernel) (a : Act) : Prop :=
  ∀ i ∈ a.runner k, ∀ mm ∈ (k.pool i).mm, (k.pool i).context = .syscall →
    Sysno.ofId (toInt (k.pool i).trapframe.a7) = some .sigaction →
    ¬ Clobbers k.vm mm (k.pool i) (toInt (k.pool i).trapframe.a0) (k.pool i).trapframe.a1
      (k.pool i).trapframe.a2

instance (k : Kernel) (a : Act) : Decidable (KeepsDispositions k a) :=
  @Option.decidableForallMem _ _ (fun _ => inferInstanceAs (Decidable (∀ _ ∈ _, _))) _

theorem protected_siginit (sig : Ksignal) : Protected (siginit sig) := by
  rintro signo (rfl | rfl) <;> rfl

theorem protected_siginitFork {parent : Ksignal} (h : Protected parent) (child : Ksignal) :
    Protected (siginitFork parent child) := by
  rintro signo (rfl | rfl)
  exacts [h SIGKILL (.inl rfl), h SIGSTOP (.inr rfl)]

theorem protected_siginitExec {sig : Ksignal} (h : Protected sig) :
    Protected (siginitExec sig) := by
  have hdfl (signo : Signo) (hfixed : Fixed signo) (hzero : signo ≠ 0) :
      ((siginitExec sig).sa signo).saSigaction = SIG_DFL := by
    have hne : (sig.sa signo).saSigaction ≠ SIG_IGN := by
      rw [h signo hfixed]
      decide
    simp only [siginitExec, if_neg hzero, if_pos hne]
    rfl
  rintro signo (rfl | rfl)
  exacts [hdfl _ (.inl rfl) (by decide), hdfl _ (.inr rfl) (by decide)]

theorem Protected.of_sa {sig sig' : Ksignal} (h : Protected sig) (hsa : sig'.sa = sig.sa) :
    Protected sig' := by
  rwa [Protected, hsa]

theorem Upd.protected (hok : KeepsDispositions k a) (h : Upd k a j p q) (hp : Protected p.signal) :
    Protected q.signal := by
  cases h with
  | receive => exact hp.of_sa (signalled_receive _ _ _ _).sa_eq
  | receiveKill => exact hp.of_sa (Signalled.wakeFrom _ _).sa_eq
  | exec => exact protected_siginitExec hp
  | @sigaction mm signo act oldact h hpk hmm hctx hid hsigno hact hold =>
    subst hpk hsigno hact hold
    exact sysSigaction_protected hp (hok j h mm hmm hctx hid)
  | _ => exact hp

theorem Born.protected {pid : Int} (h : Born k a pid p q)
    (hall : ∀ i, Protected (k.pool i).signal) : Protected q.signal := by
  cases h with
  | fork => exact protected_siginitFork (hall _) _
  | failed => exact protected_siginit _
  | init => exact protected_siginit _

/-- `do_signal` changes no disposition. -/
theorem takeSignal_sa {signo : Signo} (h : takeSignal signo p = .next q) :
    q.signal.sa = p.signal.sa := by
  have hcase := h ▸ takeSignal_cases signo p
  cases hcase <;> rfl

theorem Own.protected {i : Slot} (h : Own k i p q) (hp : Protected p.signal) :
    Protected q.signal := by
  cases h with
  | turn _ _ hturn =>
    have hsa := takeSignal_sa hturn
    exact hp.of_sa hsa
  | _ => exact hp

/-- A step that keeps dispositions keeps those of all processes. -/
theorem step_protected (hsched : Sched k) (hok : KeepsDispositions k a) (h : step k a = some k')
    (hall : ∀ i, Protected (k.pool i).signal) (j : Slot) : Protected (k'.pool j).signal :=
  slot_step (I := fun p => Protected p.signal) hsched h (fun _ _ hp hupd => hupd.protected hok hp)
    (fun _ _ _ hborn => hborn.protected hall) (fun hp _ => hp)
    (fun _ _ _ hp _ _ hown => hown.protected hp) (hall j)

/-- **`SIGKILL` and `SIGSTOP` keep their disposition** in every state of a run along which no
call of `sys_sigaction` writes the old action over the new one. -/
theorem dispositions_kept (m : Machine) (as : List Act) (k : Kernel)
    (hrun : run step (boot m) as = some k) (hok : Along step KeepsDispositions (boot m) as)
    (j : Slot) (signo : Signo) (hsigno : signo = SIGKILL ∨ signo = SIGSTOP) :
    ((k.pool j).signal.sa signo).saSigaction = SIG_DFL := by
  have hboot : Sched (boot m) ∧ ∀ i, Protected ((boot m).pool i).signal :=
    ⟨Sched.boot m, fun _ _ _ => rfl⟩
  have hinv := run_induct (I := fun k => Sched k ∧ ∀ i, Protected (k.pool i).signal)
    (fun _ _ _ hI hok hstep => ⟨hI.1.step hstep, step_protected hI.1 hok hstep hI.2⟩) hboot
      hrun hok
  exact hinv.2 j signo hsigno

/-- `init` gives `SIGSTOP` an action with the default handler and a mask, which it has put at
`0xfffef100`. -/
def maskedStop : List Act :=
  .loadInitApp :: enterUser 0 ++ [.userStore 0 0xfffef108 1] ++
    ecall 0 (callRegs .sigaction 7 0xfffef100 0)

theorem dispositions_kept_maskedStop :
    ∃ k, run step (boot initMachine) maskedStop = some k ∧
      ((k.pool 0).signal.sa SIGSTOP).saSigaction = SIG_DFL := by
  have hsome : (run step (boot initMachine) maskedStop).isSome = true := by decide +kernel
  obtain ⟨k, hrun⟩ := Option.isSome_iff_exists.1 hsome
  exact ⟨k, hrun, dispositions_kept initMachine maskedStop k hrun (by decide +kernel) 0 SIGSTOP
    (.inr rfl)⟩

/-- It then passes the same action again and asks for the old one 8 bytes before it. -/
def overwrittenStop : List Act :=
  maskedStop ++ leave 0 ++ ecall 0 (callRegs .sigaction 7 0xfffef100 0xfffef0f8)

/-- Now `SIGSTOP` is ignored. -/
theorem sigstop_disposition_changed :
    ¬ ∀ (k : Kernel) (j : Slot) (signo : Signo), Reachable k → signo = SIGKILL ∨ signo = SIGSTOP →
      ((k.pool j).signal.sa signo).saSigaction = SIG_DFL := by
  intro hall
  have hign : (run step (boot initMachine) overwrittenStop).map
      (fun k => ((k.pool 0).signal.sa SIGSTOP).saSigaction) = some SIG_IGN := by
    decide +kernel
  obtain ⟨k, hrun, hk⟩ := Option.map_eq_some_iff.1 hign
  have hdfl := hall k 0 SIGSTOP ⟨initMachine, overwrittenStop, hrun⟩ (.inr rfl)
  exact absurd (hk.symm.trans hdfl) (by decide)

end SignalOS
