import SignalOS.Kernel.ReturnValue
import SignalOS.Kernel.Update

/-!
# What the operations do to the process table

For each operation of the kernel that a step is made of: it changes the table only
in the ways of `Upd` and `Born`.

* `of_sysSigkill`, `of_kill`, `of_fork`, `of_sysExec`, … — the system calls.
* `of_syscallSwitch` — **all of them together**.
-/

namespace SignalOS

open Partial Relation

variable {k₀ k k' : Kernel} {a : Act} {i : Slot}

namespace Within

theorem keeps_setReturn (hrun : a.runner k₀ = some i) (ret : Uint64) :
    Keeps (Within k₀ a) (setReturn i ret) :=
  keeps_modifyProc (fun p => .memory hrun p.mm p.vmaBrk p.brk { p.trapframe with a0 := ret })
    fun _ => rfl

/-! ## Calls on the caller's memory -/

theorem keeps_sysGetppid : Keeps (Within k₀ a) (sysGetppid i) := by
  refine keeps_bind (keeps_getProc i) fun p => ?_
  split
  · exact keeps_pure 0
  · exact keeps_bind (keeps_getProc _) fun parent => keeps_pure _

theorem keeps_sysSbrk (hrun : a.runner k₀ = some i) (n : Uint64) :
    Keeps (Within k₀ a) (sysSbrk i n) := by
  have hset (mm : Mm) (brk : Proc → Uint64) :
      Keeps (Within k₀ a) (modifyProc i fun q => { q with mm := some mm, brk := brk q }) :=
    keeps_modifyProc (fun q => .memory hrun (some mm) q.vmaBrk (brk q) q.trapframe) fun _ => rfl
  refine keeps_bind (keeps_getProc i) fun p => keeps_bind (keeps_getMm i) fun mm => ?_
  split
  · exact .fail
  · dsimp only
    split
    · exact keeps_pure _
    · refine keeps_bind (keeps_liftVm _) ?_
      rintro ⟨ret, mm'⟩
      by_cases hret : ret = 0
      · simp only [if_pos hret]
        exact keeps_bind (hset mm' fun _ => p.brk + n) fun _ => keeps_pure _
      · simp only [if_neg hret]
        exact keeps_bind (hset mm' Proc.brk) fun _ => keeps_pure _

theorem keeps_userConsoleWrite (buf len : Uint64) :
    Keeps (Within k₀ a) (userConsoleWrite i buf len) := by
  rw [userConsoleWrite]
  split
  · exact keeps_pure _
  · refine keeps_bind (keeps_liftVm _) fun kbuf => ?_
    split
    · exact keeps_pure _
    · exact keeps_bind (keeps_getMm i) fun mm => keeps_bind keeps_get fun k =>
        keeps_bind (keeps_liftVm _) fun _ => keeps_bind (keeps_liftVm _) fun _ => keeps_pure _

/-- A handler on the caller changes it as the handler says. -/
theorem of_onCaller {f : Mm → Proc → Vm → Int × Proc × Vm} {ret : Int}
    (h : onCaller i f k = some (ret, k'))
    (hupd : ∀ mm, (k.pool i).mm = some mm →
      Within k₀ a k (k.setProc i (f mm (k.pool i) k.vm).2.1)) : Within k₀ a k k' := by
  rw [onCaller, bind_eq_some] at h
  obtain ⟨mm, k1, hget, h⟩ := h
  obtain ⟨hmm, rfl⟩ := getMm_eq_some.1 hget
  simp only [getProc_bind, get_bind, modifyProc_bind, modify_bind, pure_eq_some] at h
  rw [h.2]
  exact (hupd mm hmm).trans (of_frame ⟨rfl, rfl, rfl, rfl, rfl⟩ ⟨rfl, rfl⟩)

/-! ## Signals -/

theorem receive_flag {p : Proc} {signo : Signo} {code sender : Int}
    (h : (p.receive signo code sender).2 = true) :
    (p.receive signo code sender).1.state = .runnable := by
  rw [(receive_state p signo code sender).2, decide_eq_true_eq] at h
  rw [(receive_state p signo code sender).1, if_pos h]

theorem receiveKill_flag {p : Proc} (h : p.receiveKill.2 = true) :
    p.receiveKill.1.state = .runnable := by
  rw [Proc.receiveKill, flag_wakeFrom, decide_eq_true_eq] at h
  rw [Proc.receiveKill, state_wakeFrom, if_pos h]

/-- A process that received a signal is stored, and queued when the signal woke it. -/
theorem of_storeProc_receive {signo : Signo} {code sender : Int} {u : Unit}
    (hupd : Upd k₀ a i (k.pool i) ((k.pool i).receive signo code sender).1)
    (h : storeProc i ((k.pool i).receive signo code sender) k = some (u, k')) :
    Within k₀ a k k' := by
  refine of_storeProc hupd (fun hflag => ⟨?_, receive_flag hflag⟩) (fun hflag => ?_) h
  · rw [(receive_state _ _ _ _).2, decide_eq_true_eq] at hflag
    rcases hflag with ⟨-, hstate⟩ | ⟨-, hstate⟩ <;> simp [hstate]
  · rw [(receive_state _ _ _ _).2, decide_eq_false_iff_not] at hflag
    rw [(receive_state _ _ _ _).1, if_neg hflag]

theorem of_storeProc_receiveKill {u : Unit} (hupd : Upd k₀ a i (k.pool i) (k.pool i).receiveKill.1)
    (h : storeProc i (k.pool i).receiveKill k = some (u, k')) : Within k₀ a k k' := by
  refine of_storeProc hupd (fun hflag => ⟨?_, receiveKill_flag hflag⟩) (fun hflag => ?_) h
  · rw [Proc.receiveKill, flag_wakeFrom, decide_eq_true_eq] at hflag
    simp [show (k.pool i).state = .sleeping from hflag]
  · rw [Proc.receiveKill, flag_wakeFrom, decide_eq_false_iff_not] at hflag
    rw [Proc.receiveKill, state_wakeFrom, if_neg hflag]

/-- What a store leaves in the table. -/
theorem storeProc_frame {r : Proc × Bool} {u : Unit} (hflag : r.2 = true → r.1.state = .runnable)
    (h : storeProc i r k = some (u, k')) : Frame (k.setProc i r.1) k' := by
  rw [storeProc_eq_some hflag] at h
  rw [h]
  split
  · exact ⟨Kernel.pushQueue_pool _ _, Kernel.pushQueue_pids _ _, Kernel.pushQueue_cpus _ _,
      Kernel.pushQueue_locks _ _, Kernel.pushQueue_initProc _ _⟩
  · exact ⟨rfl, rfl, rfl, rfl, rfl⟩

/-- A call of `sys_sigkill` posts the signal that the act sends, to a process that the step has
left alone so far. -/
theorem of_sysSigkill {pid s code r : Int} (hsends : a.sends k₀ = sentBy k i (pid, s, code))
    (hsame : ∀ j, findByPid k.pool pid = some j → k.pool j = k₀.pool j)
    (h : sysSigkill i pid s code k = some (r, k')) : Within k₀ a k k' := by
  rw [sysSigkill] at h
  cases hsigno : toSigno s with
  | none =>
    simp only [hsigno, pure_eq_some] at h
    exact h.2 ▸ refl _
  | some signo =>
    simp only [hsigno, get_bind] at h
    cases hfind : findByPid k.pool pid with
    | none =>
      simp only [hfind, pure_eq_some] at h
      exact h.2 ▸ refl _
    | some j =>
      simp only [sentBy, hsigno, hfind, Option.bind_some, Option.map_some] at hsends
      simp only [hfind, bind_eq_some, pure_eq_some] at h
      obtain ⟨_, _, hstore, -, rfl⟩ := h
      have hj := hsame j hfind
      exact of_storeProc_receive (.receive hsends (congrArg _ hj) (congrArg _ hj)) hstore

theorem sentBy_congr (hpid : ∀ j, (k'.pool j).pid = (k.pool j).pid) (call : Int × Int × Int) :
    sentBy k' i call = sentBy k i call := by
  simp only [sentBy, findByPid, hpid]

/-- The pids are those of before after the store of `kill`. -/
theorem pid_of_receiveKill {victim : Slot}
    (hframe : Frame (k.setProc victim (k.pool victim).receiveKill.1) k')
    (j : Slot) : (k'.pool j).pid = (k.pool j).pid := by
  by_cases hj : j = victim
  · rw [hj, hframe.pool_self, Proc.receiveKill, Proc.wakeFrom]
    split <;> rfl
  · rw [hframe.pool, Kernel.setProc_pool_of_ne hj]

/-- A call of `kill` finds nobody, or marks a victim without a parent, or marks a victim and calls
`sys_sigkill` for its parent, whose slot comes before that of the victim. -/
theorem kill_cases {pid r : Int} (h : kill i pid k = some (r, k')) :
    (findByPid k.pool pid = none ∧ k' = k) ∨
    ∃ victim k₁, findByPid k.pool pid = some victim ∧
      storeProc victim (k.pool victim).receiveKill k = some ((), k₁) ∧
      ((k.pool victim).parent = none ∧ k' = k₁ ∨
        ∃ parent j r', (k.pool victim).parent = some parent ∧
          findByPid k.pool (k.pool parent).pid = some j ∧ j < victim ∧
          sysSigkill i (k.pool parent).pid SIGCHLD.val (-1) k₁ = some (r', k')) := by
  simp only [kill, get_bind] at h
  cases hfind : findByPid k.pool pid with
  | none =>
    simp only [hfind, pure_eq_some] at h
    exact .inl ⟨rfl, h.2⟩
  | some victim =>
    simp only [hfind, getProc_bind, bind_eq_some (x := storeProc _ _)] at h
    obtain ⟨_, k1, hstore, h⟩ := h
    have hframe := storeProc_frame receiveKill_flag hstore
    have hpid := pid_of_receiveKill hframe
    have hfound (pid : Int) : findByPid k1.pool pid = findByPid k.pool pid := by
      simp only [findByPid, hpid]
    have hparent : (k1.pool victim).parent = (k.pool victim).parent := by
      rw [hframe.pool_self, Proc.receiveKill, Proc.wakeFrom]
      split <;> rfl
    refine .inr ⟨victim, k1, rfl, hstore, ?_⟩
    rw [hparent] at h
    cases hpar : (k.pool victim).parent with
    | none =>
      simp only [hpar, pure_eq_some] at h
      exact .inl ⟨rfl, h.2⟩
    | some parent =>
      simp only [hpar, getProc_bind, get_bind, hpid, hfound] at h
      cases hj : findByPid k.pool (k.pool parent).pid with
      | none =>
        simp only [hj] at h
        cases h
      | some j =>
        simp only [hj] at h
        split at h
        · cases h
        · rename_i hlt
          simp only [bind_eq_some, pure_eq_some, discard_eq_some] at h
          obtain ⟨_, k2, ⟨r', hsend⟩, -, rfl⟩ := h
          exact .inr ⟨parent, j, r', rfl, hj, not_le.1 hlt, hsend⟩

theorem of_kill {pid r : Int} (hkills : a.kills k = findByPid k.pool pid)
    (hsends : ∀ victim parent, findByPid k.pool pid = some victim →
      (k.pool victim).parent = some parent →
      a.sends k = sentBy k i ((k.pool parent).pid, SIGCHLD.val, -1))
    (h : kill i pid k = some (r, k')) : Within k a k k' := by
  rcases kill_cases h with ⟨-, rfl⟩ | ⟨victim, k1, hfind, hstore, hend⟩
  · exact refl _
  · have hframe := storeProc_frame receiveKill_flag hstore
    have hpid := pid_of_receiveKill hframe
    have hkilled : Within k a k k1 :=
      of_storeProc_receiveKill (.receiveKill (hkills.trans hfind) rfl) hstore
    rcases hend with ⟨-, rfl⟩ | ⟨parent, j, r', hpar, hj, hlt, hsend⟩
    · exact hkilled
    · refine hkilled.trans (of_sysSigkill ?_ (fun j' hj' => ?_) hsend)
      · rw [hsends victim parent hfind hpar, sentBy_congr hpid]
      · simp only [findByPid, hpid] at hj'
        cases hj.symm.trans hj'
        rw [hframe.pool, Kernel.setProc_pool_of_ne hlt.ne]

/-! ## Processes that come and go -/

theorem freeproc_frame {u : Unit} (h : freeproc i k = some (u, k')) :
    Frame (k.setProc i (k.pool i).release) k' ∧ SameQueue (k.setProc i (k.pool i).release) k' := by
  simp only [freeproc, getProc_bind] at h
  cases hmm : (k.pool i).mm with
  | none =>
    simp only [hmm, modifyProc_eq_some] at h
    subst h
    exact ⟨⟨rfl, rfl, rfl, rfl, rfl⟩, ⟨rfl, rfl⟩⟩
  | some mm =>
    simp only [hmm, bind_eq_some, liftVm_eq_some, modifyProc_eq_some] at h
    obtain ⟨_, _, ⟨vm, -, rfl⟩, rfl⟩ := h
    exact ⟨⟨rfl, rfl, rfl, rfl, rfl⟩, ⟨rfl, rfl⟩⟩

/-- `allocproc` finds no unused slot, or fills one. -/
theorem allocproc_cases {r : Option Slot} (h : allocproc k = some (r, k')) :
    (r = none ∧ k' = k) ∨ ∃ j, r = some j ∧ (k.pool j).state = .unused ∧
      Frame ({ k with pids := k.pids + 1 }.setProc j ((k.pool j).allocate (wrapInt (k.pids + 1))))
        k' ∧
      SameQueue k k' := by
  simp only [allocproc, get_bind] at h
  cases hfind : (List.finRange NPROC).find? fun j => (k.pool j).state = .unused with
  | none =>
    simp only [hfind, pure_eq_some] at h
    exact .inl h
  | some j =>
    have hunused : (k.pool j).state = .unused := by simpa using List.find?_some hfind
    simp only [hfind, modify_bind, modifyProc_bind, pure_eq_some] at h
    obtain ⟨hr, rfl⟩ := h
    exact .inr ⟨j, hr, hunused, ⟨rfl, rfl, rfl, rfl, rfl⟩, ⟨rfl, rfl⟩⟩

theorem liftVm_frame {α : Type} {x : VmM α} {r : α} (h : liftVm x k = some (r, k')) :
    Frame k k' ∧ SameQueue k k' := by
  obtain ⟨vm, -, rfl⟩ := liftVm_eq_some.1 h
  exact ⟨⟨rfl, rfl, rfl, rfl, rfl⟩, ⟨rfl, rfl⟩⟩

theorem of_born {j : Slot} {p : Proc} (hunused : (k.pool j).state = .unused)
    (hborn : Born k a (wrapInt (k.pids + 1)) (k.pool j) p)
    (hframe : Frame ({ k with pids := k.pids + 1 }.setProc j p) k') (hqueues : Queues k k') :
    Within k a k k' := by
  refine ⟨.single (.born j rfl hunused ?_ ?_ hframe.pids), hframe.cpus, hqueues, ?_, ?_⟩
  · intro i hi
    rw [hframe.pool, Kernel.setProc_pool_of_ne hi]
  · rwa [hframe.pool_self]
  · intro lk i hlk _
    rwa [hframe.locks]
  · exact fun _ => hframe.initProc

/-- The slot stays unused. -/
theorem of_failed {j : Slot} (hunused : (k.pool j).state = .unused)
    (hframe : Frame ({ k with pids := k.pids + 1 }.setProc j
      ((k.pool j).allocate (wrapInt (k.pids + 1))).release) k')
    (hsame : SameQueue k k') : Within k a k k' := by
  refine of_born hunused .failed hframe (.of_same (fun i => ?_) hsame)
  rw [hframe.pool]
  by_cases hi : i = j
  · rw [hi, Kernel.setProc_pool_self, hunused]
    simp [Proc.release]
  · rw [Kernel.setProc_pool_of_ne hi]

/-- A new process is pushed on the queue. -/
theorem of_born_push {j : Slot} {p : Proc} (hunused : (k.pool j).state = .unused)
    (hborn : Born k a (wrapInt (k.pids + 1)) (k.pool j) p) (hstate : p.state = .runnable)
    {k₁ : Kernel} (hframe : Frame ({ k with pids := k.pids + 1 }.setProc j p) k₁)
    (hsame : SameQueue k k₁) : Within k a k (k₁.pushQueue j) := by
  have hpush : Frame k₁ (k₁.pushQueue j) := ⟨Kernel.pushQueue_pool _ _, Kernel.pushQueue_pids _ _,
    Kernel.pushQueue_cpus _ _, Kernel.pushQueue_locks _ _, Kernel.pushQueue_initProc _ _⟩
  refine of_born hunused hborn (hframe.trans hpush) (.of_push ?_ ?_ (fun i hi => ?_) hsame)
  · simp [hunused]
  · rwa [hframe.pool_self]
  · rw [hframe.pool, Kernel.setProc_pool_of_ne hi]

theorem brkStart_frame {p : Proc} {mm : Mm} {start : Uint64}
    (h : brkStart p mm k = some (start, k')) : k' = k := by
  rw [brkStart] at h
  cases hfind : mm.vma.find? fun vma => vma.addr = p.vmaBrk with
  | none =>
    simp only [hfind] at h
    cases h
  | some vma =>
    simp only [hfind, pure_eq_some] at h
    exact h.2

theorem of_fork {r : Int} (hrun : a.runner k = some i) (hstate : (k.pool i).state ≠ .unused)
    (hctx : (k.pool i).context = .syscall) (h : fork i k = some (r, k')) : Within k a k k' := by
  simp only [fork, bind_eq_some (x := allocproc)] at h
  obtain ⟨np, k1, halloc, h⟩ := h
  rcases allocproc_cases halloc with ⟨rfl, rfl⟩ | ⟨j, rfl, hunused, hframe, hsame⟩
  · exact (pure_eq_some.1 h).2 ▸ refl _
  simp only [getProc_bind, bind_eq_some (x := liftVm _)] at h
  obtain ⟨newMm, k2, hcreate, h⟩ := h
  have hframe2 := hframe.trans (liftVm_frame hcreate).1
  have hsame2 := hsame.trans (liftVm_frame hcreate).2
  cases newMm with
  | none =>
    simp only [bind_eq_some, pure_eq_some] at h
    obtain ⟨_, k3, hfree, -, rfl⟩ := h
    obtain ⟨hframe3, hsame3⟩ := freeproc_frame hfree
    rw [hframe2.pool_self] at hframe3
    exact of_failed hunused (hframe2.overwrite.trans hframe3) (hsame2.trans hsame3.of_setProc)
  | some npMm =>
    simp only [getProc_bind, bind_eq_some (x := getMm _), getMm_eq_some,
      bind_eq_some (x := liftVm _)] at h
    obtain ⟨mm, k2', ⟨hmm, rfl⟩, ⟨ret, childMm⟩, k3, hcopy, h⟩ := h
    have hframe3 := hframe2.trans (liftVm_frame hcopy).1
    have hsame3 := hsame2.trans (liftVm_frame hcopy).2
    by_cases hret : ret < 0
    · simp only [if_pos hret, modifyProc_bind, bind_eq_some, pure_eq_some] at h
      obtain ⟨_, k4, hfree, -, rfl⟩ := h
      obtain ⟨hframe4, hsame4⟩ := freeproc_frame hfree
      rw [Kernel.setProc_pool_self, hframe3.pool_self] at hframe4
      exact of_failed hunused (hframe3.overwrite.overwrite.trans hframe4)
        (hsame3.trans hsame4.of_setProc.of_setProc)
    · have hne : i ≠ j := by
        rintro rfl
        exact hstate hunused
      have hcurr : k2'.pool i = k.pool i := by
        rw [hframe2.pool, Kernel.setProc_pool_of_ne hne]
      simp only [if_neg hret, bind_eq_some (x := brkStart _ _)] at h
      obtain ⟨start, _, hstart, h⟩ := h
      cases brkStart_frame hstart
      simp only [modifyProc_bind, bind_eq_some, getProc_eq_some, pure_eq_some] at h
      obtain ⟨_, k4, hadd, _, _, ⟨-, rfl⟩, -, rfl⟩ := h
      rw [hframe3.pool_self, hcurr] at hadd
      rw [addTask_eq_some (by rw [Kernel.setProc_pool_self]; rfl)] at hadd
      rw [hadd]
      exact of_born_push hunused (.fork hrun hctx childMm start) rfl hframe3.overwrite
        (hsame3.trans ⟨rfl, rfl⟩)

theorem of_sysExec {ret : Int} (hrun : a.runner k = some i) (hctx : (k.pool i).context = .syscall)
    (hid : Sysno.ofId (toInt (k.pool i).trapframe.a7) = some .exec)
    (h : sysExec i (k.pool i).trapframe.a0 (k.pool i).trapframe.a1 k = some (ret, k')) :
    Within k a k k' := by
  obtain ⟨vm, ⟨-, rfl⟩ | ⟨args, img, eEntry, -, hlen, hret, rfl⟩⟩ := sysExec_cases h
  · exact of_frame ⟨rfl, rfl, rfl, rfl, rfl⟩ ⟨rfl, rfl⟩
  · have hexec : Upd k a i (k.pool i) { k.pool i with signal := siginitExec (k.pool i).signal } :=
      .exec hrun rfl hctx hid h (hret ▸ toInt_ofNat_nonneg hlen)
    exact (setProc_two hexec (.memory hrun (some img.mm) img.vmaBrk img.brk _) Iff.rfl
      Iff.rfl).trans (of_frame ⟨rfl, rfl, rfl, rfl, rfl⟩ ⟨rfl, rfl⟩)

/-- One pass of `wait` frees the zombie it finds, and nothing else. -/
theorem of_wait {pid : Int} {code : Uint64} {r : Option Int}
    (hreap : a.reaps k₀ = waitChild k.pool i pid)
    (hpool : k.pool = k₀.pool) (h : wait i pid code k = some (r, k')) : Within k₀ a k k' := by
  simp only [wait, get_bind] at h
  cases hfind : waitChild k.pool i pid with
  | none =>
    simp only [hfind] at h
    split at h
    all_goals exact (pure_eq_some.1 h).2 ▸ refl _
  | some child =>
    have hzombie : (k.pool child).state = .zombie := by
      have hsome := List.find?_some hfind
      simp only [decide_eq_true_eq] at hsome
      exact hsome.2.2.1
    have hfree {k1 k2 : Kernel} {u : Unit} (hrel : freeproc child k1 = some (u, k2))
        (hframe : Frame k k1) (hsame : SameQueue k k1) : Within k₀ a k k2 := by
      have hproc : k1.pool child = k.pool child := congrFun hframe.pool child
      have hupd : Upd k₀ a child (k1.pool child) (k1.pool child).release :=
        .free (hreap.trans hfind) (by rw [hproc, hpool])
      have hstate : (k1.pool child).release.state = .runnable ↔
          (k1.pool child).state = .runnable := by
        rw [hproc, hzombie]
        simp [Proc.release]
      obtain ⟨hframe', hsame'⟩ := freeproc_frame hrel
      exact (of_frame hframe hsame).trans ((setProc hupd hstate).trans (of_frame hframe' hsame'))
    simp only [hfind] at h
    split at h
    · simp only [bind_eq_some (x := getMm _), getMm_eq_some, modify_bind, bind_eq_some,
        pure_eq_some] at h
      obtain ⟨mm, k1, ⟨-, rfl⟩, _, k2, hrel, -, rfl⟩ := h
      exact hfree hrel ⟨rfl, rfl, rfl, rfl, rfl⟩ ⟨rfl, rfl⟩
    · simp only [bind_eq_some, pure_eq_some] at h
      obtain ⟨_, k2, hrel, -, rfl⟩ := h
      exact hfree hrel ⟨rfl, rfl, rfl, rfl, rfl⟩ ⟨rfl, rfl⟩

theorem of_turn {b : Blocking} {r : BlockingEnd}
    (hreap : ∀ pid code, b = .wait pid code → a.reaps k₀ = waitChild k.pool i pid)
    (hpool : k.pool = k₀.pool) (h : b.turn i k = some (r, k')) : Within k₀ a k k' := by
  cases b with
  | wait pid code =>
    simp only [Blocking.turn, bind_eq_some (x := wait _ _ _)] at h
    obtain ⟨r, k1, hwait, h⟩ := h
    refine (of_wait (hreap pid code rfl) hpool hwait).trans ?_
    split at h
    all_goals exact (pure_eq_some.1 h).2 ▸ refl _
  | sleep n ticks0 =>
    simp only [Blocking.turn, get_bind] at h
    split at h
    · split at h
      all_goals exact (pure_eq_some.1 h).2 ▸ refl _
    · exact (pure_eq_some.1 h).2 ▸ refl _
  | read buf n target =>
    have hread : Keeps (Within k₀ a) (Blocking.turn i (.read buf n target)) := by
      refine keeps_bind (keeps_getMm i) fun mm => keeps_bind keeps_get fun k => ?_
      dsimp only
      refine keeps_bind (keeps_modify fun _ => ⟨⟨rfl, rfl, rfl, rfl, rfl⟩, ⟨rfl, rfl⟩⟩) fun _ => ?_
      split
      all_goals exact keeps_pure _
    exact hread _ _ _ h

/-- A turn goes to sleep in the same system call. -/
theorem turn_sleep_lock {b b' : Blocking} (h : b.turn i k = some (.sleep b', k')) :
    b'.lock = b.lock := by
  have hreturns : Returns (fun r => ∀ b', r = .sleep b' → b'.lock = b.lock) (b.turn i) := by
    cases b with
    | wait pid code =>
      refine .bind fun r => ?_
      split
      · exact .pure (by rintro _ ⟨⟩)
      · exact .pure (by rintro _ ⟨⟩; rfl)
    | sleep n ticks0 =>
      refine .bind fun k => ?_
      dsimp only
      split
      · split
        · exact .pure (by rintro _ ⟨⟩)
        · exact .pure (by rintro _ ⟨⟩; rfl)
      · exact .pure (by rintro _ ⟨⟩)
    | read buf n target =>
      refine .bind fun mm => .bind fun k => ?_
      dsimp only
      refine .bind fun _ => ?_
      split
      · exact .pure (by rintro _ ⟨⟩)
      · exact .pure (by rintro _ ⟨⟩; rfl)
  exact hreturns _ _ _ h b' rfl

/-- Loading the init program sets `init_proc`. -/
theorem of_setInit {i : Slot} (ha : a = .loadInitApp) :
    Within k₀ a k { k with initProc := some i } where
  changes := .single (.update (fun _ => .inl rfl) rfl)
  cpus := rfl
  queues := .of_same (fun _ => Iff.rfl) ⟨rfl, rfl⟩
  locks _ _ hlk _ := hlk
  initProc hne := absurd ha hne

/-- `load_init_app` puts init into an unused slot. -/
theorem loadInitApp_cases {u : Unit} (h : loadInitApp k = some (u, k')) :
    ∃ (i : Slot) (img : Image) (eEntry : Uint64) (k₁ : Kernel), (k.pool i).state = .unused ∧
      Frame ({ k with pids := k.pids + 1 }.setProc i
        { ((k.pool i).allocate (wrapInt (k.pids + 1))).installImage img eEntry 0 with
          state := .runnable }) k₁ ∧
      SameQueue k k₁ ∧ k' = { k₁.pushQueue i with initProc := some i } := by
  simp only [loadInitApp, get_bind] at h
  cases hfind : getElf k.userApps INIT_PROC with
  | none =>
    simp only [hfind] at h
    cases h
  | some app =>
    simp only [hfind, bind_eq_some (x := allocproc)] at h
    obtain ⟨np, k1, halloc, h⟩ := h
    rcases allocproc_cases halloc with ⟨rfl, rfl⟩ | ⟨j, rfl, hunused, hframe, hsame⟩
    · cases h
    simp only [getProc_bind, hframe.pool_self, bind_eq_some (x := liftVm _)] at h
    obtain ⟨⟨ret, p⟩, k2, hlift, h⟩ := h
    have hframe2 := hframe.trans (liftVm_frame hlift).1
    have hsame2 := hsame.trans (liftVm_frame hlift).2
    obtain ⟨vm, hload, -⟩ := liftVm_eq_some.1 hlift
    rcases loadUserElf_cases app _ [] _ _ _ hload with ⟨hneg, -⟩ | ⟨hret, img, himg⟩
    · simp only [if_pos hneg] at h
      cases h
    · simp only at hret himg
      simp only [hret, lt_irrefl, if_false, modifyProc_bind, bind_eq_some, modify_eq_some] at h
      obtain ⟨_, k3, hadd, rfl⟩ := h
      rw [addTask_eq_some (by rw [Kernel.setProc_pool_self])] at hadd
      refine ⟨j, img, app.eEntry, k2.setProc j { p with state := .runnable }, hunused, ?_,
        hsame2.trans ⟨rfl, rfl⟩, by rw [hadd]⟩
      exact himg ▸ hframe2.overwrite

theorem of_loadInitApp {u : Unit} (h : loadInitApp k = some (u, k')) :
    Within k .loadInitApp k k' := by
  obtain ⟨i, img, eEntry, k₁, hunused, hframe, hsame, rfl⟩ := loadInitApp_cases h
  exact (of_born_push hunused (.init rfl img eEntry) rfl hframe hsame).trans (of_setInit rfl)

/-! ## The dispatcher -/

variable {c : CpuId}

theorem runner_exec (hcpu : k.cpus c = .running i) : Act.runner k (.exec c) = some i := by
  simp only [Act.runner, hcpu]

theorem sends_exec (hcpu : k.cpus c = .running i) :
    Act.sends k (.exec c) = (sigkillCall k i).bind fun call => sentBy k i call := by
  simp only [Act.sends, runner_exec hcpu, Option.bind_some]

/-- The call of `sys_sigaction` is one the updates allow for. -/
theorem upd_sigaction {mm : Mm} (hcpu : k.cpus c = .running i)
    (hctx : (k.pool i).context = .syscall)
    (hid : Sysno.ofId (toInt (k.pool i).trapframe.a7) = some .sigaction)
    (hmm : (k.pool i).mm = some mm) :
    Upd k (.exec c) i (k.pool i) (sysSigaction mm (k.pool i) k.vm (toInt (k.pool i).trapframe.a0)
      (k.pool i).trapframe.a1 (k.pool i).trapframe.a2).2.1 :=
  .sigaction (runner_exec hcpu) rfl hmm hctx hid rfl rfl rfl

theorem of_sysSigreturn {mm : Mm} (hrun : a.runner k = some i)
    (hctx : (k.pool i).context = .syscall)
    (hid : Sysno.ofId (toInt (k.pool i).trapframe.a7) = some .sigreturn) (vm : Vm) :
    Within k a k (k.setProc i (sysSigreturn mm (k.pool i) vm).2) := by
  rw [sysSigreturn]
  dsimp only
  split
  · exact setProc (.memory hrun (k.pool i).mm (k.pool i).vmaBrk (k.pool i).brk
      (k.pool i).trapframe) Iff.rfl
  · exact setProc_two (.sigmask hrun rfl hctx (.inr hid) _)
      (.memory hrun (k.pool i).mm (k.pool i).vmaBrk (k.pool i).brk _) Iff.rfl Iff.rfl

theorem of_sysSigprocmask {mm : Mm} (hrun : a.runner k = some i)
    (hctx : (k.pool i).context = .syscall)
    (hid : Sysno.ofId (toInt (k.pool i).trapframe.a7) = some .sigprocmask) (vm : Vm) (how : Int)
    (set oldset : Uint64) :
    Within k a k (k.setProc i (sysSigprocmask mm (k.pool i) vm how set oldset).2.1) := by
  have hmask (mask : Sigset) : Within k a k (k.setProc i ((k.pool i).setSigmask mask)) :=
    setProc (.sigmask hrun rfl hctx (.inl hid) mask) Iff.rfl
  have hsame : Within k a k (k.setProc i (k.pool i)) := hmask (k.pool i).signal.sigmask
  rw [sysSigprocmask]
  dsimp only
  split_ifs <;> first | exact hsame | exact hmask _

theorem of_ktestSyscall {tf : Trapframe} {r : Uint64}
    (hsends : tf.a0 = 5 → a.sends k = sentBy k i (toInt tf.a1, SIGUSR2.val, 0))
    (h : ktestSyscall i tf k = some (r, k')) : Within k a k k' := by
  rw [ktestSyscall] at h
  split at h
  · simp only [bind_eq_some, discard_eq_some, getMm_eq_some, pure_eq_some] at h
    obtain ⟨_, _, ⟨_, -, rfl⟩, -, rfl⟩ := h
    exact refl _
  split at h
  · simp only [get_bind, pure_eq_some] at h
    exact h.2 ▸ refl _
  split at h
  · simp only [get_bind, pure_eq_some] at h
    exact h.2 ▸ refl _
  split at h
  · rename_i ha0
    simp only [bind_eq_some, pure_eq_some] at h
    obtain ⟨r, _, hcall, -, rfl⟩ := h
    exact of_sysSigkill (hsends ha0) (fun _ _ => rfl) hcall
  · exact (pure_eq_some.1 h).2 ▸ refl _

/-- **What `syscall()` does to the process table.** -/
theorem of_syscallSwitch {o : Outcome} (hcpu : k.cpus c = .running i)
    (hstate : (k.pool i).state ≠ .unused) (hctx : (k.pool i).context = .syscall)
    (h : syscallSwitch i (k.pool i).trapframe k = some (o, k')) : Within k (.exec c) k k' := by
  have hrun := runner_exec hcpu
  rw [syscallSwitch] at h
  cases hid : Sysno.ofId (toInt (k.pool i).trapframe.a7) with
  | none =>
    simp only [hid, pure_eq_some] at h
    exact h.2 ▸ refl _
  | some n =>
    cases n
    case fork =>
      simp only [hid, bind_eq_some, pure_eq_some] at h
      obtain ⟨r, _, hfork, -, rfl⟩ := h
      exact of_fork hrun hstate hctx hfork
    case exec =>
      simp only [hid, bind_eq_some, pure_eq_some] at h
      obtain ⟨r, _, hexec, -, rfl⟩ := h
      exact of_sysExec hrun hctx hid hexec
    case getppid =>
      simp only [hid, bind_eq_some, pure_eq_some] at h
      obtain ⟨r, _, hcall, -, rfl⟩ := h
      exact keeps_sysGetppid _ _ _ hcall
    case kill =>
      simp only [hid, bind_eq_some, pure_eq_some] at h
      obtain ⟨r, _, hcall, -, rfl⟩ := h
      refine of_kill ?_ ?_ hcall
      · simp only [Act.kills, hrun, Option.bind_some, hctx, hid, and_self, if_true]
      · intro victim parent hvictim hparent
        simp only [sends_exec hcpu, sigkillCall, hctx, hid, hvictim, hparent, Option.bind_some,
          Option.map_some]
    case sbrk =>
      simp only [hid, bind_eq_some, pure_eq_some] at h
      obtain ⟨r, _, hcall, -, rfl⟩ := h
      exact keeps_sysSbrk hrun _ _ _ _ hcall
    case mmap =>
      simp only [hid] at h
      cases h
    case write =>
      simp only [hid, bind_eq_some, pure_eq_some] at h
      obtain ⟨r, _, hcall, -, rfl⟩ := h
      exact keeps_userConsoleWrite _ _ _ _ _ hcall
    case sigaction =>
      simp only [hid, bind_eq_some, pure_eq_some] at h
      obtain ⟨r, _, hcall, -, rfl⟩ := h
      refine of_onCaller hcall fun mm hmm => setProc (upd_sigaction hcpu hctx hid hmm) ?_
      obtain ⟨sa, hsa⟩ := sysSigaction_proc mm (k.pool i) k.vm (toInt (k.pool i).trapframe.a0)
        (k.pool i).trapframe.a1 (k.pool i).trapframe.a2
      rw [hsa]
    case sigreturn =>
      simp only [hid, bind_eq_some, pure_eq_some] at h
      obtain ⟨r, _, hcall, -, rfl⟩ := h
      exact of_onCaller hcall fun mm hmm => of_sysSigreturn hrun hctx hid _
    case sigprocmask =>
      simp only [hid, bind_eq_some, pure_eq_some] at h
      obtain ⟨r, _, hcall, -, rfl⟩ := h
      exact of_onCaller hcall fun mm hmm => of_sysSigprocmask hrun hctx hid _ _ _ _
    case sigpending =>
      simp only [hid, bind_eq_some, pure_eq_some] at h
      obtain ⟨r, _, hcall, -, rfl⟩ := h
      exact of_onCaller hcall fun mm hmm => setProc (.memory hrun (k.pool i).mm (k.pool i).vmaBrk
        (k.pool i).brk (k.pool i).trapframe) Iff.rfl
    case sigkill =>
      simp only [hid, bind_eq_some, pure_eq_some] at h
      obtain ⟨r, _, hcall, -, rfl⟩ := h
      refine of_sysSigkill ?_ (fun _ _ => rfl) hcall
      simp only [sends_exec hcpu, sigkillCall, hctx, hid, Option.bind_some]
    case ktest =>
      simp only [hid, bind_eq_some, pure_eq_some] at h
      obtain ⟨r, _, hcall, -, rfl⟩ := h
      refine of_ktestSyscall (fun ha0 => ?_) hcall
      simp only [sends_exec hcpu, sigkillCall, hctx, hid, ha0, if_true, Option.bind_some]
    case getpid =>
      simp only [hid, getProc_bind, pure_eq_some] at h
      exact h.2 ▸ refl _
    all_goals
      simp only [hid, pure_eq_some] at h
      exact h.2 ▸ refl _

end Within

/-! ## Locks -/

/-- The locks are the same in both states. -/
def SameLocks (k k' : Kernel) : Prop := k'.locks = k.locks

namespace SameLocks

variable {α β : Type}

theorem keeps_pure (x : α) : Keeps SameLocks (pure x : KM α) :=
  .pure (R := SameLocks) (fun _ => rfl) x

theorem keeps_bind {x : KM α} {f : α → KM β} (hx : Keeps SameLocks x)
    (hf : ∀ b, Keeps SameLocks (f b)) : Keeps SameLocks (x >>= f) :=
  .bind (fun _ _ _ h h' => Eq.trans h' h) hx hf

theorem keeps_get : Keeps SameLocks (get : KM Kernel) := by
  intro k b k' h
  obtain ⟨-, rfl⟩ := get_eq_some.1 h
  rfl

theorem keeps_getMm : Keeps SameLocks (getMm i) := by
  intro k b k' h
  obtain ⟨-, rfl⟩ := getMm_eq_some.1 h
  rfl

theorem keeps_modify {f : Kernel → Kernel} (hf : ∀ k, (f k).locks = k.locks) :
    Keeps SameLocks (modify f : KM PUnit) := by
  intro k b k' h
  rw [modify_eq_some.1 h]
  exact hf k

theorem keeps_freeproc : Keeps SameLocks (freeproc i) :=
  fun _ _ _ h => (Within.freeproc_frame h).1.locks

theorem keeps_wait (pid : Int) (code : Uint64) : Keeps SameLocks (wait i pid code) := by
  refine keeps_bind keeps_get fun k => ?_
  split
  · dsimp only
    split
    · exact keeps_bind keeps_getMm fun mm => keeps_bind (keeps_modify fun _ => rfl) fun _ =>
        keeps_bind keeps_freeproc fun _ => keeps_pure _
    · exact keeps_bind keeps_freeproc fun _ => keeps_pure _
  · split
    all_goals exact keeps_pure _

theorem keeps_wakeup (chan : Option Chan) : Keeps SameLocks (wakeup chan) := by
  refine Keeps.forM (fun _ => rfl) (fun _ _ _ h h' => Eq.trans h' h) fun i => ?_
  intro k b k' h
  rw [getProc_bind] at h
  split at h
  · exact (Within.storeProc_frame (fun _ => rfl) h).locks
  · exact (pure_eq_some.1 h).2 ▸ rfl

/-- A turn leaves the locks alone. -/
theorem keeps_turn (b : Blocking) : Keeps SameLocks (b.turn i) := by
  cases b with
  | wait pid code =>
    refine keeps_bind (keeps_wait pid code) fun r => ?_
    split
    all_goals exact keeps_pure _
  | sleep n ticks0 =>
    refine keeps_bind keeps_get fun k => ?_
    dsimp only
    split
    · split
      all_goals exact keeps_pure _
    · exact keeps_pure _
  | read buf n target =>
    refine keeps_bind keeps_getMm fun mm => keeps_bind keeps_get fun k => ?_
    dsimp only
    refine keeps_bind (keeps_modify fun _ => rfl) fun _ => ?_
    split
    all_goals exact keeps_pure _

end SameLocks

end SignalOS
