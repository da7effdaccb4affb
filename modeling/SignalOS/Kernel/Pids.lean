import SignalOS.Kernel.Target

/-!
# Pids

Who has which pid, and what a call of `sys_sigkill` finds.

* `PidsOk` — the live processes have different pids, between 1 and the last one handed
  out, and an unused slot has 0 or -1; `Reachable.pidsOk` — **in every reachable state**
  before the counter overflows.
* `sigkill_live_iff` — a call of `sys_sigkill` acts on live processes only, exactly if no
  unused slot has the pid it is given.
* `unused_slot_killed` — one that has: a child that starts killed.
-/

namespace SignalOS

open Partial Relation

variable {k k' : Kernel} {a : Act} {i j : Slot} {p q : Proc} {pool pool' : Slot → Proc}
  {pids pids' : Nat}

/-! ## The pids of the table -/

/-- The pids of the table when `pids` have been handed out. -/
structure PidsOk (pool : Slot → Proc) (pids : Nat) : Prop where
  unused : ∀ j, (pool j).state = .unused → (pool j).pid = 0 ∨ (pool j).pid = -1
  live : ∀ j, (pool j).state ≠ .unused → 0 < (pool j).pid ∧ (pool j).pid ≤ pids
  inj : ∀ i j, (pool i).state ≠ .unused → (pool j).state ≠ .unused → (pool i).pid = (pool j).pid →
    i = j

/-- The slot keeps its process, or is free afterwards. -/
def SlotKept (p q : Proc) : Prop :=
  (q.pid = p.pid ∧ (q.state = .unused ↔ p.state = .unused)) ∨ (q.state = .unused ∧ q.pid = -1)

theorem SlotKept.refl (p : Proc) : SlotKept p p := .inl ⟨rfl, Iff.rfl⟩

/-- A process that is live afterwards was so before, with the same pid. -/
theorem SlotKept.of_live (h : SlotKept p q) (hq : q.state ≠ .unused) :
    p.state ≠ .unused ∧ q.pid = p.pid := by
  rcases h with ⟨hpid, hstate⟩ | ⟨hunused, -⟩
  · exact ⟨fun hp => hq (hstate.2 hp), hpid⟩
  · exact absurd hunused hq

theorem PidsOk.of_kept (h : PidsOk pool pids) (hkept : ∀ j, SlotKept (pool j) (pool' j)) :
    PidsOk pool' pids := by
  refine ⟨fun j hj => ?_, fun j hj => ?_, fun i j hi hj heq => ?_⟩
  · rcases hkept j with ⟨hpid, hstate⟩ | ⟨-, hpid⟩
    · rw [hpid]
      exact h.unused j (hstate.1 hj)
    · exact .inr hpid
  · obtain ⟨hlive, hpid⟩ := (hkept j).of_live hj
    rw [hpid]
    exact h.live j hlive
  · obtain ⟨hlive, hpid⟩ := (hkept i).of_live hi
    obtain ⟨hlive', hpid'⟩ := (hkept j).of_live hj
    exact h.inj i j hlive hlive' (hpid.symm.trans (heq.trans hpid'))

theorem PidsOk.mono (h : PidsOk pool pids) (hle : pids ≤ pids') : PidsOk pool pids' := by
  refine ⟨h.unused, fun j hj => ?_, h.inj⟩
  obtain ⟨hpos, hmax⟩ := h.live j hj
  omega

/-- The next pid goes to a new process. -/
theorem PidsOk.born (h : PidsOk pool pids) (hothers : ∀ i, i ≠ j → pool' i = pool i)
    (hpid : (pool' j).pid = pids + 1) (hstate : (pool' j).state ≠ .unused) :
    PidsOk pool' (pids + 1) := by
  have hnew (i : Slot) (hi : i ≠ j) (hlive : (pool' i).state ≠ .unused) :
      (pool' i).pid ≠ pids + 1 := by
    rw [hothers i hi] at hlive ⊢
    have := (h.live i hlive).2
    omega
  refine ⟨fun i hi => ?_, fun i hi => ?_, fun i i' hi hi' heq => ?_⟩
  · have hij : i ≠ j := fun hij => hstate (hij ▸ hi)
    rw [hothers i hij] at hi ⊢
    exact h.unused i hi
  · by_cases hij : i = j
    · rw [hij, hpid]
      omega
    · rw [hothers i hij] at hi ⊢
      have := h.live i hi
      omega
  · by_cases hij : i = j <;> by_cases hij' : i' = j
    · rw [hij, hij']
    · exact absurd (heq.symm.trans (hij ▸ hpid)) (hnew i' hij' hi')
    · exact absurd (heq.trans (hij' ▸ hpid)) (hnew i hij hi)
    · rw [hothers i hij] at hi heq
      rw [hothers i' hij'] at hi' heq
      exact h.inj i i' hi hi' heq

/-! ## Every step keeps them -/

theorem wrapInt_of_lt {n : Nat} (h : n + 1 < 2 ^ 31) : wrapInt (n + 1) = n + 1 := by
  rw [wrapInt, BitVec.toInt_ofInt]
  exact Int.bmod_eq_of_le (by omega) (by omega)

theorem SameProc.unused_iff (h : SameProc p q) : q.state = .unused ↔ p.state = .unused := by
  rcases h.state with heq | ⟨hasleep, hwoken⟩
  · rw [heq]
  · rw [hwoken]
    rcases hasleep with hp | hp <;> simp [hp]

theorem Upd.kept (h : Upd k a j p q) : SlotKept p q := by
  rcases h.cases with hsame | ⟨-, rfl⟩
  · exact .inl ⟨hsame.pid, hsame.unused_iff⟩
  · exact .inr ⟨rfl, rfl⟩

/-- A new process has the pid it is given, or the slot is free again. -/
theorem Born.cases {pid : Int} (h : Born k a pid p q) :
    (q.pid = pid ∧ q.state = .runnable) ∨ (q.state = .unused ∧ q.pid = -1) := by
  cases h with
  | fork => exact .inl ⟨rfl, rfl⟩
  | failed => exact .inr ⟨rfl, rfl⟩
  | init => exact .inl ⟨rfl, rfl⟩

theorem takeSignal_pid {signo : Signo} (h : takeSignal signo p = .next q) : q.pid = p.pid := by
  have hcase := h ▸ takeSignal_cases signo p
  cases hcase with
  | cont => simp only [Proc.delPending, Proc.cancelStop]
  | _ => rfl

theorem Own.pid (h : Own k i p q) : q.pid = p.pid := by
  cases h with
  | turn hp hctx hturn =>
    have hpid := takeSignal_pid hturn
    exact hpid
  | _ => rfl

theorem Parks.state_used {context context' : Context} {state : ProcState}
    (h : Parks context state context') : state ≠ .unused := by
  cases h <;> decide

theorem Own.used (h : Own k i p q) (hp : p.state = .running) : q.state ≠ .unused := by
  have hrunning {s : ProcState} (hs : s = p.state) : s ≠ .unused := by
    rw [hs, hp]
    decide
  cases h with
  | park hparks => exact hparks.state_used
  | die => nofun
  | turn _ _ hturn =>
    have hstate := takeSignal_state hp hturn
    exact hrunning hstate
  | _ => exact hrunning rfl

theorem Own.kept (h : Own k i p q) (hp : p.state = .running) : SlotKept p q :=
  .inl ⟨h.pid, iff_of_false (h.used hp) (by simp [hp])⟩

/-- A change of one slot. -/
theorem SlotKept.setProc (h : SlotKept (k.pool i) p) (j : Slot) :
    SlotKept (k.pool j) ((k.setProc i p).pool j) := by
  by_cases hj : j = i
  · rw [hj, Kernel.setProc_pool_self]
    exact h
  · rw [Kernel.setProc_pool_of_ne hj]
    exact .refl _

theorem Change.pidsOk {k₀ : Kernel} (hpids : k'.pids < 2 ^ 31) (h : Change k₀ a k k')
    (hI : PidsOk k.pool k.pids) : PidsOk k'.pool k'.pids := by
  cases h with
  | update pool pids =>
    rw [pids]
    refine hI.of_kept fun j => ?_
    rcases pool j with hj | hj
    · exact hj ▸ .refl _
    · exact hj.kept
  | born j start hunused others born pids =>
    rw [pids] at hpids ⊢
    have hwrap : wrapInt (k.pids + 1) = k.pids + 1 := wrapInt_of_lt hpids
    rcases born.cases with ⟨hpid, hstate⟩ | hfree
    · exact hI.born others (hpid.trans hwrap) (by simp [hstate])
    · refine (hI.of_kept fun i => ?_).mono (Nat.le_succ _)
      by_cases hi : i = j
      · exact hi ▸ .inr hfree
      · exact others i hi ▸ .refl _

/-- The counter only goes up. -/
theorem step_pids (hsched : Sched k) (h : step k a = some k') : k.pids ≤ k'.pids := by
  refine table_step (I := fun _ pids => k.pids ≤ pids) hsched h (fun k₁ k₂ hchange hle => ?_)
    (fun _ _ hle => hle) (fun _ _ _ _ _ _ _ hle => hle) le_rfl
  cases hchange with
  | update _ pids => exact pids ▸ hle
  | born j _ _ _ _ pids => omega

theorem step_pidsOk (hsched : Sched k) (h : step k a = some k') (hpids : k'.pids < 2 ^ 31)
    (hI : PidsOk k.pool k.pids) : PidsOk k'.pool k'.pids := by
  refine table_step (I := fun pool pids => pids < 2 ^ 31 → PidsOk pool pids) hsched h
    (fun k₁ k₂ hchange hI hpids => ?_) (fun j hstate hI hpids => ?_)
    (fun i k₁ p _ _ hstate hown hI hpids => ?_) (fun _ => hI) hpids
  · refine hchange.pidsOk hpids (hI ?_)
    cases hchange with
    | update _ pids => exact pids ▸ hpids
    | born j _ _ _ _ pids => omega
  · have hkept : SlotKept (k.pool j) { k.pool j with state := .running } :=
      .inl ⟨rfl, iff_of_false nofun (by simp [hstate])⟩
    exact (hI hpids).of_kept hkept.setProc
  · exact (hI hpids).of_kept (hown.kept hstate).setProc

theorem Reachable.pidsOk (h : Reachable k) (hpids : k.pids < 2 ^ 31) : PidsOk k.pool k.pids := by
  obtain ⟨m, h⟩ := h
  have hboot : PidsOk (boot m).pool (boot m).pids :=
    ⟨fun _ _ => .inl rfl, fun _ h => absurd rfl h, fun _ _ h => absurd rfl h⟩
  have hinv := h.induct (I := fun k => Sched k ∧ (k.pids < 2 ^ 31 → PidsOk k.pool k.pids))
    ⟨Sched.boot m, fun _ => hboot⟩ fun k a k' hI hstep =>
      ⟨hI.1.step hstep, fun hpids =>
        step_pidsOk hI.1 hstep hpids (hI.2 ((step_pids hI.1 hstep).trans_lt hpids))⟩
  exact hinv.2 hpids

/-! ## What a pid finds -/

theorem findByPid_pid {pid : Int} (h : findByPid pool pid = some j) : (pool j).pid = pid := by
  simpa using List.find?_some h

theorem findByPid_none {pid : Int} (h : findByPid pool pid = none) (j : Slot) :
    (pool j).pid ≠ pid := by
  have hall := List.find?_eq_none.1 h j (List.mem_finRange j)
  simpa using hall

/-- The pid of a live process finds this process. -/
theorem PidsOk.find (h : PidsOk pool pids) (hj : (pool j).state ≠ .unused) :
    findByPid pool (pool j).pid = some j := by
  cases hfind : findByPid pool (pool j).pid with
  | none => exact absurd rfl (findByPid_none hfind j)
  | some i =>
    have hpid := findByPid_pid hfind
    have hlive : (pool i).state ≠ .unused := by
      intro hi
      have hpos := (h.live j hj).1
      rcases h.unused i hi with hzero | hzero <;> omega
    rw [h.inj i j hlive hj hpid]

/-! ## Sending to a live process -/

section Sigkill

variable {curr : Slot} {pid n code : Int} {signo : Signo}

/-- `sys_sigkill` changes the process it finds. -/
theorem sysSigkill_found (hsigno : toSigno n = some signo)
    (hfind : findByPid k.pool pid = some j) :
    ∃ k', sysSigkill curr pid n code k = some (0, k') ∧
      k'.pool = (k.setProc j ((k.pool j).receive signo code (k.pool curr).pid).1).pool := by
  let r := (k.pool j).receive signo code (k.pool curr).pid
  have hstore : storeProc j r k =
      some ((), if r.2 then (k.setProc j r.1).pushQueue j else k.setProc j r.1) :=
    (storeProc_eq_some Within.receive_flag).2 rfl
  refine ⟨if r.2 then (k.setProc j r.1).pushQueue j else k.setProc j r.1, ?_, ?_⟩
  · simp only [sysSigkill, hsigno, get_bind, hfind]
    exact bind_eq_some.2 ⟨(), _, hstore, rfl⟩
  · split
    · exact Kernel.pushQueue_pool _ _
    · rfl

theorem sysSigkill_not_found (hsigno : toSigno n = some signo)
    (hfind : findByPid k.pool pid = none) :
    sysSigkill curr pid n code k = some (-EINVAL, k) := by
  simp only [sysSigkill, hsigno, get_bind, hfind]
  rfl

/-- The call returns 0 and changes no process but the one live process with the pid, or it
returns `-EINVAL`, no live process has the pid, and the table stays as it is. -/
def SigkillLive (k : Kernel) (curr : Slot) (pid n code : Int) : Prop :=
  ∃ r k', sysSigkill curr pid n code k = some (r, k') ∧
    ((r = 0 ∧ ∃ j, (k.pool j).state ≠ .unused ∧ (k.pool j).pid = pid ∧
        (∀ i, (k.pool i).state ≠ .unused → (k.pool i).pid = pid → i = j) ∧
        ∀ i, i ≠ j → k'.pool i = k.pool i) ∨
      (r = -EINVAL ∧ (∀ j, (k.pool j).state ≠ .unused → (k.pool j).pid ≠ pid) ∧ k'.pool = k.pool))

/-- A call acts on live processes only, exactly if no unused slot has the pid. -/
theorem sysSigkill_live_iff (hpids : PidsOk k.pool k.pids) (hn : toSigno n ≠ none) :
    SigkillLive k curr pid n code ↔ ∀ j, (k.pool j).state = .unused → (k.pool j).pid ≠ pid := by
  obtain ⟨signo, hsigno⟩ := Option.ne_none_iff_exists'.1 hn
  have hfound (j : Slot) (hfind : findByPid k.pool pid = some j) :
      ∃ k', sysSigkill curr pid n code k = some (0, k') ∧ k'.pool = _ :=
        sysSigkill_found hsigno hfind
  constructor
  · rintro ⟨r, k', hcall, hcases⟩ j hunused hj
    cases hfind : findByPid k.pool pid with
    | none => exact findByPid_none hfind j hj
    | some i =>
      obtain ⟨k'', hcall', -⟩ := hfound i hfind
      obtain ⟨rfl, -⟩ := Prod.mk.inj (Option.some.inj (hcall.symm.trans hcall'))
      rcases hcases with ⟨-, i', hlive, hi', -⟩ | ⟨hr, -⟩
      · have hpos := (hpids.live i' hlive).1
        rcases hpids.unused j hunused with hzero | hzero <;> omega
      · exact absurd hr (by decide)
  · intro hnone
    cases hfind : findByPid k.pool pid with
    | none =>
      exact ⟨-EINVAL, k, sysSigkill_not_found hsigno hfind,
        .inr ⟨rfl, fun j _ => findByPid_none hfind j, rfl⟩⟩
    | some j =>
      have hj := findByPid_pid hfind
      have hlive : (k.pool j).state ≠ .unused := fun hunused => hnone j hunused hj
      obtain ⟨k', hcall, hpool⟩ := hfound j hfind
      refine ⟨0, k', hcall, .inl ⟨rfl, j, hlive, hj, fun i hi hpid => ?_, fun i hi => ?_⟩⟩
      · exact hpids.inj i j hi hlive (hpid.trans hj.symm)
      · rw [hpool, Kernel.setProc_pool_of_ne hi]

end Sigkill

/-! ## New processes -/

/-- A process with nothing sent to it. -/
structure Fresh (p : Proc) : Prop where
  killed : p.killed = 0
  needStop : p.needStop = 0
  pending : p.signal.sigpending = sigemptyset
  mask : p.signal.sigmask = sigemptyset
  dispositions : ∀ signo, signo ≠ 0 → (p.signal.sa signo).saSigaction = SIG_DFL

/-- No `SIGKILL` and no `kill` of the step finds an unused slot. -/
def SparesUnused (k : Kernel) (a : Act) : Prop :=
  (∀ s ∈ a.sends k, s.signo = SIGKILL → (k.pool s.target).state ≠ .unused) ∧
    ∀ j ∈ a.kills k, (k.pool j).state ≠ .unused

instance (k : Kernel) (a : Act) : Decidable (SparesUnused k a) :=
  @instDecidableAnd _ _ (Option.decidableForallMem _) (Option.decidableForallMem _)

/-- A slot that is not in use is not marked killed. -/
def UnmarkedUnused (p : Proc) : Prop := p.state = .unused → p.killed = 0

theorem Upd.unmarkedUnused (hspares : SparesUnused k a) (h : Upd k a j p q)
    (hp : UnmarkedUnused p) :
    UnmarkedUnused q := by
  intro hunused
  cases h with
  | receive hsends hctx hstate =>
    have hp' := (SameProc.receive p _ _ _).unused_iff.1 hunused
    rw [receive_killed, if_neg]
    · exact hp hp'
    · rintro rfl
      exact hspares.1 _ hsends rfl (hstate ▸ hp')
  | receiveKill hkills hk =>
    subst hk
    exact absurd ((SameProc.receiveKill _).unused_iff.1 hunused) (hspares.2 j hkills)
  | wakeup => cases hunused
  | free => rfl
  | sigaction hrun hk hmm hctx hid hsigno hact hold =>
    obtain ⟨sa, hsa⟩ := sysSigaction_proc _ p k.vm _ _ _
    rw [hsa] at hunused ⊢
    exact hp hunused
  | _ => exact hp hunused

theorem step_unmarkedUnused (hsched : Sched k) (hspares : SparesUnused k a)
    (h : step k a = some k')
    (hj : UnmarkedUnused (k.pool j)) : UnmarkedUnused (k'.pool j) := by
  refine slot_step hsched h (fun p q hp hupd => hupd.unmarkedUnused hspares hp)
    (fun pid q _ hborn => ?_)
    (fun _ _ => nofun) (fun _ p q _ _ hstate hown hunused => absurd hunused (hown.used hstate)) hj
  cases hborn with
  | failed => exact fun _ => rfl
  | _ => nofun

theorem run_unmarkedUnused {m : Machine} {as : List Act}
    (hrun : Runs.run step (boot m) as = some k)
    (hspares : Runs.Along step SparesUnused (boot m) as) (j : Slot) : UnmarkedUnused (k.pool j) :=
  slot_run (fun _ _ _ hsched hok hstep hj => step_unmarkedUnused hsched hok hstep hj)
    (Sched.boot m)
    hrun hspares fun _ => rfl

/-- `allocproc` returns the unused slot it has filled. -/
theorem allocproc_returns (h : allocproc k = some (some i, k')) :
    (k.pool i).state = .unused ∧ k'.pool i = (k.pool i).allocate (wrapInt (k.pids + 1)) := by
  rcases Within.allocproc_cases h with ⟨hnone, -⟩ | ⟨j, hj, hunused, hframe, -⟩
  · cases hnone
  · cases hj
    exact ⟨hunused, hframe.pool_self⟩

/-- The rest of the process is reset by `allocproc`. -/
theorem fresh_allocate {pid : Int} (h : p.killed = 0) : Fresh (p.allocate pid) where
  killed := h
  needStop := rfl
  pending := rfl
  mask := rfl
  dispositions _ hne := congrArg Sigaction.saSigaction (if_neg hne)

/-- **`sys_sigkill` acts on live processes only, exactly if no unused slot has its pid**: one that
was never used has 0, and one that was freed -1.  While no `SIGKILL` and no `kill` has found such
a slot, every process `allocproc` returns is fresh. -/
theorem sigkill_live_iff (m : Machine) (as : List Act) (k : Kernel)
    (hrun : Runs.run step (boot m) as = some k) (hpids : k.pids < 2 ^ 31) :
    (∀ curr pid n code, toSigno n ≠ none →
      (SigkillLive k curr pid n code ↔ ∀ j, (k.pool j).state = .unused → (k.pool j).pid ≠ pid)) ∧
    (Runs.Along step SparesUnused (boot m) as →
      ∀ i k', allocproc k = some (some i, k') → Fresh (k'.pool i)) := by
  refine ⟨fun curr pid n code hn => sysSigkill_live_iff (Reachable.pidsOk ⟨m, as, hrun⟩ hpids) hn,
    fun hspares i k' halloc => ?_⟩
  obtain ⟨hunused, hproc⟩ := allocproc_returns halloc
  rw [hproc]
  exact fresh_allocate (run_unmarkedUnused hrun hspares i hunused)

theorem sigkill_live_iff_forkChild :
    ∃ k, Runs.run step (boot initMachine) forkChild = some k ∧
      (SigkillLive k 0 2 SIGKILL.val 0 ↔ ∀ j, (k.pool j).state = .unused → (k.pool j).pid ≠ 2) ∧
      ∀ i k', allocproc k = some (some i, k') → Fresh (k'.pool i) := by
  have hobs : (Runs.run step (boot initMachine) forkChild).map
      (fun k => decide (k.pids < 2 ^ 31)) = some true := by decide +kernel
  simp only [Option.map_eq_some_iff, decide_eq_true_eq] at hobs
  obtain ⟨k, hrun, hpids⟩ := hobs
  obtain ⟨hlive, hfresh⟩ := sigkill_live_iff initMachine forkChild k hrun hpids
  exact ⟨k, hrun, hlive 0 2 SIGKILL.val 0 (by decide), hfresh (by decide +kernel)⟩

/-- `init` sends `SIGKILL` to pid 0. -/
def killPidZero : List Act :=
  .loadInitApp :: enterUser 0 ++ ecall 0 (callRegs .sigkill 0 (ofInt SIGKILL.val) 0)

/-- The signal reaches a slot that was never used, and its next process starts killed. -/
theorem unused_slot_killed :
    ¬ ∀ (m : Machine) (as : List Act) (k : Kernel), Runs.run step (boot m) as = some k →
      k.pids < 2 ^ 31 → (∀ curr pid n code, toSigno n ≠ none → SigkillLive k curr pid n code) ∧
        ∀ i k', allocproc k = some (some i, k') → Fresh (k'.pool i) := by
  intro hall
  have hobs : ((Runs.run step (boot initMachine) killPidZero).bind fun k =>
    (allocproc k).map fun r =>
      decide (k.pids < 2 ^ 31 ∧ r.1 = some 1 ∧ (r.2.pool 1).killed ≠ 0)) = some true := by
    decide +kernel
  simp only [Option.bind_eq_some_iff, Option.map_eq_some_iff, decide_eq_true_eq] at hobs
  obtain ⟨k, hrun, ⟨r, k'⟩, halloc, hpids, hr, hkilled⟩ := hobs
  dsimp only at hr hkilled
  subst hr
  exact hkilled ((hall initMachine killPidZero k hrun hpids).2 1 k' halloc).killed

end SignalOS
