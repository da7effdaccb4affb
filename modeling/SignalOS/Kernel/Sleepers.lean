import SignalOS.Kernel.Wait

/-!
# Killed processes that sleep

A `SIGKILL` or a `kill` wakes a process that sleeps.  One that is about to sleep in
`wait` or `user_console_read` is not woken, and the loop of `user_console_read` does
not look at `killed` before it sleeps again.

* `RunsOut` — the ring has less than a read still wants, and no end of a line;
  `readLoop_waits` — the loop of `user_console_read` waits for input only then.
* `WakesKilled` — the condition on a step: no process is killed where it is about to
  sleep, and no killed process goes on reading when the ring runs out.
* `killed_does_not_sleep` — **in every run along the condition, no killed process sleeps**
  in `wait` or `user_console_read`.
* `killed_reader_sleeps` — one that does.
-/

namespace SignalOS

open Partial

variable {k k' : Kernel} {a : Act} {c : CpuId} {i j : Slot} {p q : Proc}

/-! ## The loop of `user_console_read` -/

/-- The characters in the ring that have not been read. -/
def Cons.unread (cons : Cons) : List Byte :=
  (List.range (cons.w - cons.r).toNat).map fun m =>
    cons.buf (ringIndex (cons.r + BitVec.ofNat 32 m))

/-- A read of `n` more bytes to `buf` uses up the ring: it holds less than `n` characters, none of
which ends the read, and they can all be stored. -/
def RunsOut (vm : Vm) (mm : Mm) (cons : Cons) (buf n : Uint64) : Prop :=
  (cons.unread.length : Int) < n.toInt ∧ (∀ ch ∈ cons.unread, ch ≠ C 'D' ∧ ch ≠ newline) ∧
    ∀ m < cons.unread.length, userPa vm mm (buf + BitVec.ofNat 64 m) ≠ none

instance (vm : Vm) (mm : Mm) (cons : Cons) (buf n : Uint64) :
    Decidable (RunsOut vm mm cons buf n) :=
  inferInstanceAs (Decidable (_ ∧ _ ∧ _))

theorem unread_of_empty {cons : Cons} (h : cons.r = cons.w) : cons.unread = [] := by
  simp [Cons.unread, h]

theorem unread_cons {cons : Cons} (h : cons.r ≠ cons.w) :
    cons.unread = cons.buf (ringIndex cons.r) :: { cons with r := cons.r + 1 }.unread := by
  obtain ⟨m, hm, hm'⟩ : ∃ m, (cons.w - cons.r).toNat = m + 1 ∧
      (cons.w - (cons.r + 1)).toNat = m := by
    refine ⟨(cons.w - (cons.r + 1)).toNat, ?_, rfl⟩
    have hne : cons.r.toNat ≠ cons.w.toNat := fun heq => h (BitVec.eq_of_toNat_eq heq)
    bv_omega
  simp only [Cons.unread, hm, hm', List.range_succ_eq_map, List.map_cons, List.map_map,
    BitVec.add_zero,
    List.cons.injEq, true_and]
  refine List.map_congr_left fun n _ => congrArg (fun r => cons.buf (ringIndex r)) ?_
  have hsucc : BitVec.ofNat 32 (n + 1) = BitVec.ofNat 32 n + 1 := BitVec.ofNat_add n 1
  rw [Nat.succ_eq_add_one, hsucc]
  ac_rfl

theorem toInt_pred {n : Uint64} (h : ¬ n.sle 0 = true) :
    0 < n.toInt ∧ (n - 1).toInt = n.toInt - 1 := by
  have hpos : 0 < n.toInt := by simpa [BitVec.sle] using h
  refine ⟨hpos, ?_⟩
  have hlt := BitVec.toInt_lt (x := n)
  rw [BitVec.toInt_sub, show (1 : Uint64).toInt = 1 from rfl]
  exact Int.bmod_eq_of_le (by omega) (by omega)

/-- Bytes that are stored change no mapping. -/
theorem userPa_copyToUser (vm : Vm) (mm mm' : Mm) (va dstva : Uint64) (src : List Byte) :
    userPa (copyToUser vm mm' dstva src).2 mm va = userPa vm mm va := by
  obtain ⟨byte, hbyte⟩ := copyToUser_frame vm mm' dstva src
  exact userPa_congr (by rw [hbyte]) va

/-- **A read waits for input only when the ring runs out.** -/
theorem readLoop_waits {mm : Mm} {target buf n buf' n' : Uint64} {fuel : Nat} {cons : Cons}
    {vm : Vm}
    (hfuel : cons.unread.length < fuel)
    (h : (consoleReadLoop mm target fuel buf n cons vm).1 = .wait buf' n') :
    RunsOut vm mm cons buf n := by
  induction fuel generalizing buf n cons vm with
  | zero => omega
  | succ fuel ih =>
    rw [consoleReadLoop] at h
    split at h
    · cases h
    rename_i hpositive
    obtain ⟨hn, hpred⟩ := toInt_pred hpositive
    split at h
    · rename_i hempty
      rw [RunsOut, unread_of_empty hempty]
      exact ⟨hn, nofun, nofun⟩
    rename_i hunread
    rw [RunsOut, unread_cons hunread]
    rw [unread_cons hunread, List.length_cons] at hfuel
    dsimp only at h
    split at h
    · cases h
    rename_i heof
    split at h
    · cases h
    rename_i hcopied
    split at h
    · cases h
    rename_i hline
    obtain ⟨hlength, hchars, hmapped⟩ := ih (Nat.lt_of_succ_lt_succ hfuel) h
    refine ⟨?_, ?_, fun m hm => ?_⟩
    · rw [List.length_cons]
      omega
    · exact List.forall_mem_cons.2 ⟨⟨heof, hline⟩, hchars⟩
    · cases m with
      | zero => exact copyToUser_mapped vm mm buf _ hcopied Nat.zero_lt_one
      | succ m =>
        rw [List.length_cons] at hm
        have hrest := hmapped m (Nat.lt_of_succ_lt_succ hm)
        rw [userPa_copyToUser] at hrest
        have hsucc : BitVec.ofNat 64 (m + 1) = BitVec.ofNat 64 m + 1 := BitVec.ofNat_add m 1
        rwa [hsucc, BitVec.add_comm (BitVec.ofNat 64 m), ← BitVec.add_assoc]

/-! ## Going to sleep -/

/-- The loop is that of `wait` or `user_console_read`, not of `sys_sleep`. -/
def Blocking.waitOrRead : Blocking → Bool
  | .wait .. | .read .. => true
  | .sleep .. => false

/-- The thread is about to sleep in `wait` or `user_console_read`. -/
def Context.aboutToSleep : Context → Bool
  | .sleep b => b.waitOrRead
  | _ => false

/-- The address space, the buffer and the count of a process that takes a turn of the loop of
`user_console_read`. -/
def Proc.reading (p : Proc) : Option (Mm × Uint64 × Uint64) :=
  match p.context with
  | .call (.read buf n _) => p.mm.map fun mm => (mm, buf, n)
  | _ => none

/-- No process is killed that is about to sleep in `wait` or `user_console_read`, and no killed
process goes on reading when the ring runs out. -/
def WakesKilled (k : Kernel) (a : Act) : Prop :=
  (∀ s ∈ a.sends k, s.signo = SIGKILL → (k.pool s.target).context.aboutToSleep = false) ∧
    (∀ j ∈ a.kills k, (k.pool j).context.aboutToSleep = false) ∧
    ∀ i ∈ a.runner k, (k.pool i).killed ≠ 0 →
      ∀ r ∈ (k.pool i).reading, ¬ RunsOut k.vm r.1 k.cons r.2.1 r.2.2

-- decided on the process itself, not by a search of all slots
instance (k : Kernel) (a : Act) : Decidable (WakesKilled k a) :=
  @instDecidableAnd _ _ (Option.decidableForallMem _)
    (@instDecidableAnd _ _ (Option.decidableForallMem _) (Option.decidableForallMem _))

/-- A turn of the loop of `user_console_read` that goes to sleep. -/
theorem step_read {buf n target : Uint64} {b : Blocking} (hcpu : k.cpus c = .running i)
    (hctx : (k.pool i).context = .call (.read buf n target)) (h : step k (.exec c) = some k')
    (hsleep : (k'.pool i).context = .sleep b) :
    (∃ mm, (k.pool i).mm = some mm ∧ RunsOut k.vm mm k.cons buf n) ∧
      (k'.pool i).killed = (k.pool i).killed := by
  obtain ⟨next, k₁, hthread, hcarry⟩ := exec_of_step hcpu h
  simp only [hctx, thread, Blocking.turn, bind_eq_some (x := acquireLock _ _),
    bind_eq_some (x := _ >>= _), bind_eq_some (x := getMm _), getMm_eq_some] at hthread
  obtain ⟨_, k₂, hlock, o, k₃, ⟨mm, k₄, ⟨hmm, rfl⟩, hturn⟩, hthread⟩ := hthread
  obtain ⟨-, rfl⟩ := Within.acquireLock_eq_some.1 hlock
  simp only [get_bind] at hturn
  generalize hloop : consoleReadLoop _ _ _ _ _ _ _ = out at hturn
  obtain ⟨r, cons, vm⟩ := out
  cases r with
  | done m =>
    obtain ⟨rfl, rfl⟩ := pure_eq_some.1 hturn
    simp only [releaseLock, setReturn, modify_bind, modifyProc_bind, pure_eq_some] at hthread
    obtain ⟨rfl, rfl⟩ := hthread
    rw [carryOn, modifyProc_eq_some] at hcarry
    rw [hcarry, Kernel.setProc_pool_self] at hsleep
    cases hsleep
  | wait buf' n' =>
    obtain ⟨rfl, rfl⟩ := pure_eq_some.1 hturn
    obtain ⟨rfl, rfl⟩ := pure_eq_some.1 hthread
    rw [carryOn, modifyProc_eq_some] at hcarry
    refine ⟨⟨mm, hmm, @readLoop_waits mm _ _ _ buf' n' _ _ _ ?_ (congrArg Prod.fst hloop)⟩, ?_⟩
    · simp [Cons.unread]
    · rw [hcarry, Kernel.setProc_pool_self]

/-! ## The invariant -/

/-- A process that sleeps in `wait` or `user_console_read`, or is about to, is not killed. -/
structure SleeperUnkilled (p : Proc) : Prop where
  aboutToSleep : ∀ b, b.waitOrRead = true → p.context = .sleep b → p.killed = 0
  asleep : ∀ b, b.waitOrRead = true → p.state = .sleeping → p.context = .asleep b → p.killed = 0

/-- What the updates and the turns of the scheduler keep during a step from `k`. -/
structure StillUnkilled (k : Kernel) (j : Slot) (p : Proc) : Prop where
  aboutToSleep : ∀ b, b.waitOrRead = true → (k.pool j).context = .sleep b → p.context = .sleep b →
    p.killed = 0
  asleep : ∀ b, b.waitOrRead = true → p.state = .sleeping → p.context = .asleep b → p.killed = 0

theorem StillUnkilled.of_same (hp : StillUnkilled k j p) (hkilled : q.killed = p.killed)
    (hcontext : q.context = p.context) (hstate : q.state = p.state ∨ q.state = .runnable) :
    StillUnkilled k j q := by
  refine ⟨fun b hb hold hq => ?_, fun b hb hs hq => ?_⟩
  · rw [hkilled]
    exact hp.aboutToSleep b hb hold (hcontext.symm.trans hq)
  · rw [hkilled]
    rcases hstate with heq | hrunnable
    · exact hp.asleep b hb (heq.symm.trans hs) (hcontext.symm.trans hq)
    · exact nomatch hrunnable.symm.trans hs

/-- A process that is killed where it is not about to sleep does not sleep afterwards. -/
theorem StillUnkilled.of_killed (hspares : (k.pool j).context.aboutToSleep = false)
    (hstate : q.state ≠ .sleeping) : StillUnkilled k j q := by
  refine ⟨fun b hb hold _ => ?_, fun b _ hs => absurd hs hstate⟩
  rw [hold] at hspares
  exact nomatch hb.symm.trans hspares

theorem Upd.stillUnkilled (hok : WakesKilled k a) (h : Upd k a j p q) (hp : StillUnkilled k j p) :
    StillUnkilled k j q := by
  cases h with
  | @receive signo code sender hsends hctx hstate =>
    have hsame := SameProc.receive p signo code sender
    by_cases hkill : signo = SIGKILL
    · refine .of_killed (hok.1 _ hsends hkill) ?_
      rw [(receive_state p signo code sender).1]
      split
      · intro hrunnable
        cases hrunnable
      · rename_i hawake
        exact fun hsleeping => hawake (.inl ⟨by rw [hkill]; decide, hsleeping⟩)
    · have hkilled : (p.receive signo code sender).1.killed = p.killed := by
        rw [receive_killed, if_neg hkill]
      exact hp.of_same hkilled hsame.context (hsame.state.imp_right And.right)
  | receiveKill hkills =>
    refine .of_killed (hok.2.1 j hkills) ?_
    rw [Proc.receiveKill, state_wakeFrom]
    split
    · intro hrunnable
      cases hrunnable
    · rename_i hawake
      exact hawake
  | wakeup => exact hp.of_same rfl rfl (.inr rfl)
  | free =>
    refine ⟨fun b _ _ hctx => ?_, fun b _ _ hctx => ?_⟩ <;> cases hctx
  | sigaction =>
    obtain ⟨sa, hsa⟩ := sysSigaction_proc _ p k.vm _ _ _
    exact hsa ▸ hp.of_same rfl rfl (.inl rfl)
  | _ => exact hp.of_same rfl rfl (.inl rfl)

theorem Own.stillUnkilled (h : Own k j p q) (hp : StillUnkilled k j p)
    (hctx : p.context = (k.pool j).context) (hrun : p.state = .running) : StillUnkilled k j q := by
  refine ⟨fun b hb hold hq => ?_, fun b hb hs hq => ?_⟩
  · obtain ⟨b', hcall, -⟩ := h.to_sleep hq
    exact nomatch hold.symm.trans (hctx.symm.trans hcall)
  · have hsleep := h.to_asleep hrun hs hq
    have hkilled := hp.aboutToSleep b hb (hctx.symm.trans hsleep) hsleep
    cases h with
    | park => exact hkilled
    | goto => exact nomatch hrun.symm.trans hs
    | _ => cases hq

theorem step_sleeperUnkilled (hsched : Sched k) (hok : WakesKilled k a) (h : step k a = some k')
    (hj : SleeperUnkilled (k.pool j)) : SleeperUnkilled (k'.pool j) := by
  have hstill : StillUnkilled k j (k'.pool j) := by
    refine slot_step hsched h (fun p q hp hupd => hupd.stillUnkilled hok hp)
      (fun pid q _ hborn => ?_) (fun hp _ => ⟨hp.aboutToSleep, nofun⟩)
      (fun _ p q hp hrunsAt hstate hown => hown.stillUnkilled hp hrunsAt.2.symm hstate)
      ⟨fun b hb hold _ => hj.aboutToSleep b hb hold, hj.asleep⟩
    cases hborn <;> exact ⟨nofun, nofun⟩
  refine ⟨fun b hb hctx => ?_, hstill.asleep⟩
  rcases step_context hsched h hctx nofun nofun with hold | ⟨hrun, p, q, hown, hp, -, hq⟩
  · exact hstill.aboutToSleep b hb hold hctx
  · obtain ⟨b', hcall, hlock⟩ := hown.to_sleep hq
    rw [hp] at hcall
    obtain ⟨c, rfl, hcpu⟩ := exec_of_runner h hrun (by simp [hcall])
    cases b' with
    | wait pid code =>
      obtain ⟨-, hcase⟩ := step_wait hcpu hcall h
      cases hcase with
      | reaped child hfind hchild hself => exact nomatch (hself ▸ hctx)
      | failed hnone hfails hpool =>
        rw [hpool, Kernel.setProc_pool_self] at hctx
        cases hctx
      | sleeps hnone hkids hkilled hpool =>
        rw [hpool, Kernel.setProc_pool_self]
        exact hkilled
    | read buf n target =>
      obtain ⟨⟨mm, hmm, hrunsOut⟩, hkilled⟩ := step_read hcpu hcall h hctx
      rw [hkilled]
      have hreading : (k.pool j).reading = some (mm, buf, n) := by
        rw [Proc.reading, hcall, hmm]
        rfl
      by_contra hne
      exact hok.2.2 j hrun hne _ hreading hrunsOut
    | sleep n ticks0 =>
      cases b with
      | sleep => cases hb
      | wait => cases hlock
      | read => cases hlock

/-- **A killed process does not stay asleep** in `wait` or `user_console_read`, in any state of a
run in which no process is killed where it is about to sleep there and no killed process goes on
reading when the ring runs out. -/
theorem killed_does_not_sleep (m : Machine) (as : List Act) (k : Kernel)
    (hrun : Runs.run step (boot m) as = some k) (hok : Runs.Along step WakesKilled (boot m) as) :
    ∀ j b, b.waitOrRead = true → (k.pool j).state = .sleeping → (k.pool j).context = .asleep b →
      (k.pool j).killed = 0 := by
  intro j
  have hj : SleeperUnkilled (k.pool j) :=
    slot_run (fun _ _ _ hsched hok hstep hj => step_sleeperUnkilled hsched hok hstep hj)
      (Sched.boot m) hrun hok ⟨nofun, nofun⟩
  exact hj.asleep

/-- `init` calls `read(0, buf, 1)`, finds the ring empty and goes to sleep. -/
def initReads : List Act :=
  .loadInitApp :: enterUser 0 ++ ecall 0 (callRegs .read 0 0 1) ++ [.exec 0, .exec 0]

theorem killed_does_not_sleep_initReads :
    ∃ k, Runs.run step (boot initMachine) initReads = some k ∧ (k.pool 0).state = .sleeping ∧
      (k.pool 0).context = .asleep (.read 0 1 1) ∧ (k.pool 0).killed = 0 := by
  have hobs : (Runs.run step (boot initMachine) initReads).map (fun k =>
      decide ((k.pool 0).state = .sleeping ∧ (k.pool 0).context = .asleep (.read 0 1 1))) =
        some true := by
    decide +kernel
  simp only [Option.map_eq_some_iff, decide_eq_true_eq] at hobs
  obtain ⟨k, hrun, hstate, hctx⟩ := hobs
  exact ⟨k, hrun, hstate, hctx,
    killed_does_not_sleep initMachine initReads k hrun (by decide +kernel) 0 _ rfl hstate hctx⟩

/-- The child calls `read(0, buf, 1)`; before it has gone to sleep, `init` sends it `SIGKILL`. -/
def killReader : List Act :=
  forkChild ++ enterUser 1 ++ ecall 1 (callRegs .read 0 0 1) ++ [.exec 1] ++ sendChild SIGKILL ++
    [.exec 0, .exec 1]

/-- The child sleeps although it is killed: nothing but input wakes it. -/
theorem killed_reader_sleeps :
    ¬ ∀ (m : Machine) (as : List Act) (k : Kernel), Runs.run step (boot m) as = some k →
      ∀ j b, b.waitOrRead = true → (k.pool j).state = .sleeping → (k.pool j).context = .asleep b →
        (k.pool j).killed = 0 := by
  intro hall
  have hobs : (Runs.run step (boot initMachine) killReader).map
      (fun k => decide ((k.pool 1).state = .sleeping ∧ (k.pool 1).context = .asleep (.read 0 1 1) ∧
        (k.pool 1).killed ≠ 0)) = some true := by decide +kernel
  simp only [Option.map_eq_some_iff, decide_eq_true_eq] at hobs
  obtain ⟨k, hrun, hstate, hctx, hkilled⟩ := hobs
  exact hkilled (hall initMachine killReader k hrun 1 _ rfl hstate hctx)

end SignalOS
