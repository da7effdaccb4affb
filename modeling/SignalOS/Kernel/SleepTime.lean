import SignalOS.Kernel.Clock
import SignalOS.Kernel.Wait

/-!
# How long `sys_sleep` sleeps

The loop of `sys_sleep(n)` compares `ticks - ticks0` with `n` as unsigned numbers.

* `clockStep` — a step, with the ticks since each process has read the counter.
* `SleepTurn` — what a turn of the loop should do; `step_sleepTurn` — what it does.
* `Counting` — **the counter and what a sleeper has read of it tell the ticks that passed**, modulo
  `2^64`.
* `sysSleep_time` — **the runs in which `sys_sleep` sleeps for the time it is asked for**.
-/

namespace SignalOS

open Partial Runs

variable {k k' : Kernel} {a : Act} {c : CpuId} {i j : Slot} {p q : Proc} {n : Uint64}
  {ticks0 : Option Uint64}

/-! ## The ticks that passed -/

/-- The loop of `sys_sleep(n)` that a thread is in, and what it has read of the counter. -/
def Context.sleepCall : Context → Option (Uint64 × Option Uint64)
  | .call (.sleep n ticks0) | .sleep (.sleep n ticks0) | .asleep (.sleep n ticks0) =>
    some (n, ticks0)
  | _ => Option.none

/-- The loop of `sys_sleep(n)` that the thread takes a turn of. -/
def Context.sleepTurn : Context → Option (Uint64 × Option Uint64)
  | .call (.sleep n ticks0) => some (n, ticks0)
  | _ => Option.none

theorem sleepTurn_eq_some {context : Context} {call : Uint64 × Option Uint64} :
    context.sleepTurn = some call ↔ context = .call (.sleep call.1 call.2) := by
  cases context with
  | call b =>
    cases b with
    | sleep n ticks0 => simp [Context.sleepTurn, Prod.ext_iff]
    | _ => simp [Context.sleepTurn]
  | _ => simp [Context.sleepTurn]

/-- The process reads the counter in this act: it takes the first turn of the loop. -/
def Act.readsTicks (k : Kernel) (a : Act) (i : Slot) : Prop :=
  a.runner k = some i ∧ ∃ call ∈ (k.pool i).context.sleepTurn, call.2 = none

instance (k : Kernel) (a : Act) (i : Slot) : Decidable (a.readsTicks k i) :=
  inferInstanceAs (Decidable (_ ∧ _))

/-- A kernel, and for each slot the ticks since its process has read the counter. -/
abbrev Clocked := Kernel × (Slot → Nat)

/-- The next state; the ticks of a process that reads the counter start at 0. -/
def clockStep (s : Clocked) (a : Act) : Option Clocked :=
  (step s.1 a).map fun k => (k, fun i => if a.readsTicks s.1 i then 0 else s.2 i + a.ticks s.1)

/-- The first state of a run. -/
def clockBoot (m : Machine) : Clocked := (boot m, fun _ => 0)

/-- The ticks that passed when a turn starts with what the loop has read of the counter. -/
def Clocked.passed (s : Clocked) (i : Slot) (ticks0 : Option Uint64) : Nat :=
  if ticks0 = none then 0 else s.2 i

theorem clockStep_eq_some {s s' : Clocked} :
    clockStep s a = some s' ↔ step s.1 a = some s'.1 ∧
      s'.2 = fun i => if a.readsTicks s.1 i then 0 else s.2 i + a.ticks s.1 := by
  rw [clockStep, Option.map_eq_some_iff]
  constructor
  · rintro ⟨k, hstep, rfl⟩
    exact ⟨hstep, rfl⟩
  · rintro ⟨hstep, hpassed⟩
    exact ⟨s'.1, hstep, by rw [← hpassed]⟩

/-! ## A turn of the loop -/

/-- A turn of `sys_sleep(n)` when this many ticks have passed. -/
inductive SleepTurn (n : Int) (passed : Nat) (p q : Proc) : Prop
  | done (h : q = p.returns 0) (hpassed : max n 0 ≤ passed)
  | killed (h : q = p.returns (-1)) (hkilled : p.killed ≠ 0)
  | sleeps (b : Blocking) (h : q = { p with context := .sleep b }) (hpos : 0 < n)
    (hpassed : passed < n)

/-- **What a turn does.** -/
theorem step_sleepTurn (hcpu : k.cpus c = .running i)
    (hctx : (k.pool i).context = .call (.sleep n ticks0))
    (h : step k (.exec c) = some k') :
    k'.pool i = if k.ticks - ticks0.getD k.ticks < n then
        if (k.pool i).killed ≠ 0 then (k.pool i).returns (-1)
        else { k.pool i with context := .sleep (.sleep n (some (ticks0.getD k.ticks))) }
      else (k.pool i).returns 0 := by
  obtain ⟨next, k₁, hthread, hcarry⟩ := exec_of_step hcpu h
  simp only [hctx, thread, Blocking.turn, bind_eq_some (x := acquireLock _ _),
    bind_eq_some (x := _ >>= _)] at hthread
  obtain ⟨_, k₂, hlock, o, k₃, hturn, hthread⟩ := hthread
  obtain ⟨-, rfl⟩ := Within.acquireLock_eq_some.1 hlock
  simp only [get_bind] at hturn
  split at hturn
  · rename_i hless
    split at hturn
    · rename_i hkilled
      obtain ⟨rfl, rfl⟩ := pure_eq_some.1 hturn
      simp only [releaseLock, setReturn, modify_bind, modifyProc_bind, pure_eq_some] at hthread
      obtain ⟨rfl, rfl⟩ := hthread
      rw [carryOn, modifyProc_eq_some] at hcarry
      rw [if_pos hless, if_pos hkilled, hcarry, Kernel.setProc_pool_self, Kernel.setProc_pool_self]
      rfl
    · rename_i hkilled
      obtain ⟨rfl, rfl⟩ := pure_eq_some.1 hturn
      obtain ⟨rfl, rfl⟩ := pure_eq_some.1 hthread
      rw [carryOn, modifyProc_eq_some] at hcarry
      rw [if_pos hless, if_neg hkilled, hcarry, Kernel.setProc_pool_self]
  · rename_i hless
    obtain ⟨rfl, rfl⟩ := pure_eq_some.1 hturn
    simp only [releaseLock, setReturn, modify_bind, modifyProc_bind, pure_eq_some] at hthread
    obtain ⟨rfl, rfl⟩ := hthread
    rw [carryOn, modifyProc_eq_some] at hcarry
    rw [if_neg hless, hcarry, Kernel.setProc_pool_self, Kernel.setProc_pool_self]
    rfl

/-! ## The ways into the loop -/

theorem Own.to_call {b : Blocking} (h : Own k i p q) (hq : q.context = .call b) :
    p.context = .syscall ∨ p.context = .asleep b := by
  cases h with
  | @goto context hmoves =>
    obtain rfl : context = .call b := hq
    generalize p.context = start at hmoves ⊢
    cases hmoves with
    | sysCall => exact .inl rfl
    | wake => exact .inr rfl
  | @park state context hparks =>
    obtain rfl : context = .call b := hq
    generalize p.context = start at hparks
    cases hparks
  | _ => cases hq

theorem Own.of_asleep {b : Blocking} (h : Own k i p q) (hq : q.context = .asleep b) :
    p.context = .sleep b := by
  cases h with
  | @goto context hmoves =>
    obtain rfl : context = .asleep b := hq
    generalize p.context = start at hmoves ⊢
    cases hmoves
  | @park state context hparks =>
    obtain rfl : context = .asleep b := hq
    generalize p.context = start at hparks ⊢
    cases hparks
    rfl
  | _ => cases hq

/-- `sys_sleep` starts without having read the counter. -/
theorem syscall_sleep {o : Outcome} (h : syscall i k = some (o, k'))
    (ho : o = .goto (.call (.sleep n ticks0))) :
    ticks0 = none := by
  have hswitch (tf : Trapframe) :
      Returns (fun o => ∀ n ticks0, o = .goto (.call (.sleep n ticks0)) → ticks0 = none)
        (syscallSwitch i tf) := by
    rw [syscallSwitch]
    cases Sysno.ofId (toInt tf.a7) with
    | none => exact .pure (by rintro _ _ ⟨⟩)
    | some m =>
      cases m
      case sleep => exact .pure (by rintro _ _ ⟨⟩; rfl)
      case exit | wait | read | yield => exact .pure (by rintro _ _ ⟨⟩)
      case mmap => exact .fail
      all_goals exact .bind fun r => .pure (by rintro _ _ ⟨⟩)
  simp only [syscall, getProc_bind, bind_eq_some (x := syscallSwitch _ _)] at h
  obtain ⟨o', k₁, hcall, h⟩ := h
  cases o' with
  | ret r =>
    simp only [bind_eq_some, pure_eq_some] at h
    obtain ⟨_, _, -, rfl, rfl⟩ := h
    cases ho
  | goto context =>
    obtain ⟨rfl, rfl⟩ := pure_eq_some.1 h
    exact hswitch _ _ _ _ hcall n ticks0 ho
  | yield =>
    obtain ⟨rfl, rfl⟩ := pure_eq_some.1 h
    cases ho

theorem step_syscall_sleep (hcpu : k.cpus c = .running i) (hctx : (k.pool i).context = .syscall)
    (h : step k (.exec c) = some k') (hctx' : (k'.pool i).context = .call (.sleep n ticks0)) :
    ticks0 = none := by
  obtain ⟨next, k₁, hthread, hcarry⟩ := exec_of_step hcpu h
  simp only [hctx, thread, bind_eq_some] at hthread
  obtain ⟨o, k₂, hcall, hthread⟩ := hthread
  cases o with
  | ret r =>
    obtain ⟨rfl, rfl⟩ := pure_eq_some.1 hthread
    rw [carryOn, modifyProc_eq_some] at hcarry
    rw [hcarry, Kernel.setProc_pool_self] at hctx'
    cases hctx'
  | goto context =>
    obtain ⟨rfl, rfl⟩ := pure_eq_some.1 hthread
    rw [carryOn, modifyProc_eq_some] at hcarry
    rw [hcarry, Kernel.setProc_pool_self] at hctx'
    exact syscall_sleep hcall (congrArg Outcome.goto hctx')
  | yield =>
    obtain ⟨rfl, rfl⟩ := pure_eq_some.1 hthread
    simp only [carryOn, modifyProc_bind, setCpu, modify_bind, if_true] at hcarry
    rw [addTask_eq_some (by rw [Kernel.setProc_pool_self])] at hcarry
    rw [hcarry, Kernel.pushQueue_pool, Kernel.setProc_pool_self] at hctx'
    cases hctx'

/-- How a thread comes to be in the loop after a step. -/
inductive LoopStep (k : Kernel) (a : Act) (k' : Kernel) (j : Slot)
    (call : Uint64 × Option Uint64) : Prop
  | same (h : (k.pool j).context = (k'.pool j).context)
  | starts (h : (k'.pool j).context = .call (.sleep call.1 none))
  | turns (c : CpuId) (n : Uint64) (ticks0 : Option Uint64) (ha : a = .exec c)
    (hcpu : k.cpus c = .running j)
      (hctx : (k.pool j).context = .call (.sleep n ticks0)) (h : (k'.pool j).context = .sleep
      (.sleep call.1 call.2))
  | goes (hticks : a.ticks k = 0) (hcall : (k.pool j).context.sleepCall = some call)
      (hturn : (k.pool j).context.sleepTurn = none)

theorem ticks_eq_zero (hcpu : k.cpus c = .running i)
    (hctx : (k.pool i).context ≠ .usertrap .timer) :
    Act.ticks k (.exec c) = 0 := by
  simp only [Act.ticks, hcpu]
  exact if_neg fun h => hctx h.2

theorem step_sleepCall {call : Uint64 × Option Uint64} (hsched : Sched k) (h : step k a = some k')
    (hcall : (k'.pool j).context.sleepCall = some call) : LoopStep k a k' j call := by
  have hne : (k'.pool j).context ≠ .none := fun hctx => by rw [hctx] at hcall; cases hcall
  have hne' : (k'.pool j).context ≠ .firstSchedRet :=
    fun hctx => by rw [hctx] at hcall; cases hcall
  rcases step_context hsched h rfl hne hne' with hsame | ⟨hrun, p, q, hown, hp, -, hq⟩
  · exact .same hsame
  have hexec {context : Context} (hctx : p.context = context) (huser : context ≠ .user) :
      ∃ c, a = .exec c ∧ k.cpus c = .running j ∧ (k.pool j).context = context := by
    rw [hp] at hctx
    obtain ⟨c, ha, hcpu⟩ := exec_of_runner h hrun (by rwa [hctx])
    exact ⟨c, ha, hcpu, hctx⟩
  cases hctx' : (k'.pool j).context with
  | call b =>
    rw [hctx'] at hcall hq
    cases b with
    | sleep n ticks0 =>
      cases hcall
      rcases hown.to_call hq with hctx | hctx
      · obtain ⟨c, rfl, hcpu, hctx⟩ := hexec hctx (by simp)
        rw [step_syscall_sleep hcpu hctx h hctx'] at hctx'
        exact .starts hctx'
      · obtain ⟨c, rfl, hcpu, hctx⟩ := hexec hctx (by simp)
        exact .goes (ticks_eq_zero hcpu (by simp [hctx])) (by rw [hctx]; rfl) (by rw [hctx]; rfl)
    | _ => cases hcall
  | sleep b =>
    rw [hctx'] at hcall hq
    cases b with
    | sleep n ticks0 =>
      cases hcall
      obtain ⟨b', hctx, hlock⟩ := hown.to_sleep hq
      cases b' with
      | sleep n' ticks0' =>
        obtain ⟨c, rfl, hcpu, hctx⟩ := hexec hctx (by simp)
        exact .turns c n' ticks0' rfl hcpu hctx hctx'
      | _ => cases hlock
    | _ => cases hcall
  | asleep b =>
    rw [hctx'] at hcall hq
    cases b with
    | sleep n ticks0 =>
      cases hcall
      obtain ⟨c, rfl, hcpu, hctx⟩ := hexec (hown.of_asleep hq) (by simp)
      exact .goes (ticks_eq_zero hcpu (by simp [hctx])) (by rw [hctx]; rfl) (by rw [hctx]; rfl)
    | _ => cases hcall
  | _ =>
    rw [hctx'] at hcall
    cases hcall

/-! ## The invariant -/

/-- What a loop has read of the counter: nothing before its first turn, and from then on the
counter of `passed` ticks ago. -/
def Counting (ticks : Uint64) (passed : Nat) (context : Context) : Prop :=
  ∀ call, context.sleepCall = some call →
    context = .call (.sleep call.1 none) ∨ ∃ t, call.2 = some t ∧
      ticks = t + BitVec.ofNat 64 passed

theorem sleepCall_of_turn {context : Context} {call : Uint64 × Option Uint64}
    (h : context.sleepTurn = some call) :
    context.sleepCall = some call := by
  rw [sleepTurn_eq_some.1 h]
  rfl

/-- **One step**: the counter and the ticks that passed go on together. -/
theorem step_counting {passed : Nat} (hsched : Sched k) (h : step k a = some k')
    (hj : Counting k.ticks passed (k.pool j).context) :
    Counting k'.ticks (if a.readsTicks k j then 0 else passed + a.ticks k)
      (k'.pool j).context := by
  intro call hcall
  have hadd {t : Uint64} (hticks : k.ticks = t + BitVec.ofNat 64 passed) :
      k'.ticks = t + BitVec.ofNat 64 (passed + a.ticks k) := by
    rw [step_ticks h, hticks, BitVec.ofNat_add, BitVec.add_assoc]
  cases step_sleepCall hsched h hcall with
  | same hsame =>
    rw [← hsame] at hcall ⊢
    refine (hj call hcall).imp_right fun ⟨t, ht, hticks⟩ => ⟨t, ht, ?_⟩
    have hreads : ¬ a.readsTicks k j := by
      rintro ⟨-, turn, hturn, hnone⟩
      obtain rfl := Option.some.inj ((sleepCall_of_turn hturn).symm.trans hcall)
      exact nomatch hnone.symm.trans ht
    rw [if_neg hreads]
    exact hadd hticks
  | starts hctx => exact .inl hctx
  | turns c n ticks0 ha hcpu hctx hctx' =>
    subst ha
    have hticks : Act.ticks k (.exec c) = 0 := ticks_eq_zero hcpu (by simp [hctx])
    refine .inr ⟨ticks0.getD k.ticks, ?_, ?_⟩
    · rw [step_sleepTurn hcpu hctx h] at hctx'
      split at hctx'
      · split at hctx'
        · cases hctx'
        · exact (Blocking.sleep.inj (Context.sleep.inj hctx')).2.symm
      · cases hctx'
    · have hrunner := Within.runner_exec hcpu
      cases ticks0 with
      | none =>
        rw [if_pos ⟨hrunner, (n, none), by rw [hctx]; rfl, rfl⟩, step_ticks h, hticks]
        rfl
      | some t =>
        have hreads : ¬ Act.readsTicks k (.exec c) j := by
          rintro ⟨-, turn, hsome, hnone⟩
          rw [hctx] at hsome
          cases hsome
          cases hnone
        rw [if_neg hreads]
        rcases hj (n, some t) (by rw [hctx]; rfl) with hstart | ⟨t', ht, hk⟩
        · rw [hctx] at hstart
          cases hstart
        · cases ht
          exact hadd hk
  | goes hticks hcall hturn =>
    have hreads : ¬ a.readsTicks k j := by
      rintro ⟨-, turn, hsome, -⟩
      exact nomatch hturn.symm.trans hsome
    rcases hj call hcall with hstart | ⟨t, ht, hk⟩
    · rw [hstart] at hturn
      cases hturn
    · rw [if_neg hreads]
      exact .inr ⟨t, ht, hadd hk⟩

/-! ## Runs -/

/-- A turn of `sys_sleep` that the act takes does what it should. -/
def TurnRight (s : Clocked) (a : Act) : Prop :=
  ∀ i ∈ a.runner s.1, ∀ call ∈ (s.1.pool i).context.sleepTurn, ∀ k', step s.1 a = some k' →
    SleepTurn call.1.toInt (s.passed i call.2) (s.1.pool i) (k'.pool i)

/-- `sys_sleep` sleeps for the time it is asked for, in every turn of the run. -/
def SleepsFor (m : Machine) (as : List Act) : Prop := Along clockStep TurnRight (clockBoot m) as

/-- No process that is not killed takes a turn of `sys_sleep(n)` with a negative `n`, or after `n`
ticks that are fewer than `n` modulo `2^64`. -/
def InTime (s : Clocked) (a : Act) : Prop :=
  ∀ i ∈ a.runner s.1, ∀ call ∈ (s.1.pool i).context.sleepTurn, (s.1.pool i).killed = 0 →
    0 ≤ call.1.toInt ∧ (call.1.toInt ≤ s.passed i call.2 →
      call.1.toInt ≤ (s.passed i call.2 % 2 ^ 64 : Nat))

-- decided on the runner and its own call
instance (s : Clocked) (a : Act) : Decidable (InTime s a) :=
  @Option.decidableForallMem _ _ (fun _ => Option.decidableForallMem _) _

/-- A loop that has read the counter is asked for a positive time. -/
def Positive (context : Context) : Prop :=
  ∀ call, context.sleepCall = some call → context = .call (.sleep call.1 none) ∨ 0 < call.1.toInt

/-- The invariant of the runs. -/
structure Sleeping (s : Clocked) : Prop where
  sched : Sched s.1
  counting : ∀ j, Counting s.1.ticks (s.2 j) (s.1.pool j).context

theorem Sleeping.boot (m : Machine) : Sleeping (clockBoot m) :=
  ⟨.boot m, fun _ _ hcall => nomatch hcall⟩

theorem Sleeping.step {s s' : Clocked} (hs : Sleeping s) (h : clockStep s a = some s') :
    Sleeping s' := by
  obtain ⟨hstep, hpassed⟩ := clockStep_eq_some.1 h
  refine ⟨hs.sched.step hstep, fun j => ?_⟩
  rw [hpassed]
  exact step_counting hs.sched hstep (hs.counting j)

/-- What the comparison of the loop compares. -/
theorem Sleeping.elapsed {s : Clocked} (hs : Sleeping s)
    (hctx : (s.1.pool i).context = .call (.sleep n ticks0)) :
    (s.1.ticks - ticks0.getD s.1.ticks).toNat = s.passed i ticks0 % 2 ^ 64 := by
  cases ticks0 with
  | none => simp [Clocked.passed]
  | some t =>
    rcases hs.counting i (n, some t) (by rw [hctx]; rfl) with hstart | ⟨t', ht, hticks⟩
    · rw [hctx] at hstart
      cases hstart
    · cases ht
      rw [hticks, Option.getD_some, BitVec.add_comm, BitVec.add_sub_cancel, BitVec.toNat_ofNat]
      rfl

theorem toInt_eq_toNat_of_nonneg {x : Uint64} (h : 0 ≤ x.toInt) : x.toInt = x.toNat := by
  rw [BitVec.toInt_eq_toNat_cond] at h ⊢
  split at h
  · rename_i hsmall
    exact if_pos hsmall
  · omega

/-- **A turn that is in time does what it should.** -/
theorem turnRight_of_inTime {s : Clocked} (hs : Sleeping s) (hok : InTime s a) :
    TurnRight s a := by
  intro i hrun call hcall k' h
  have hctx := sleepTurn_eq_some.1 hcall
  obtain ⟨c, rfl, hcpu⟩ := exec_of_runner h hrun (by simp [hctx])
  have helapsed := hs.elapsed hctx
  have htoInt : call.1.toInt ≤ call.1.toNat := by
    rw [BitVec.toInt_eq_toNat_cond]
    split <;> omega
  rw [step_sleepTurn hcpu hctx h]
  split
  · rename_i hless
    rw [BitVec.lt_def, helapsed] at hless
    split
    · rename_i hkilled
      exact .killed rfl hkilled
    · rename_i hkilled
      obtain ⟨hpos, htime⟩ := hok i hrun call hcall (not_not.1 hkilled)
      have hnat := toInt_eq_toNat_of_nonneg hpos
      refine .sleeps _ rfl ?_ ?_
      · omega
      · by_contra hge
        have := htime (not_lt.1 hge)
        omega
  · rename_i hless
    rw [BitVec.lt_def, helapsed] at hless
    have hmod := Nat.mod_le (s.passed i call.2) (2 ^ 64)
    exact .done rfl (max_le (by omega) (by omega))

/-- A turn that sleeps was asked for a positive time. -/
theorem step_positive {s s' : Clocked} (hsched : Sched s.1) (hright : TurnRight s a)
    (h : step s.1 a = some s'.1)
    (hj : Positive (s.1.pool j).context) : Positive (s'.1.pool j).context := by
  intro call hcall
  cases step_sleepCall hsched h hcall with
  | same hsame =>
    rw [← hsame] at hcall ⊢
    exact hj call hcall
  | starts hctx => exact .inl hctx
  | turns c n ticks0 ha hcpu hctx hctx' =>
    subst ha
    have hn : n = call.1 := by
      rw [step_sleepTurn hcpu hctx h] at hctx'
      split at hctx'
      · split at hctx'
        · cases hctx'
        · exact (Blocking.sleep.inj (Context.sleep.inj hctx')).1
      · cases hctx'
    have hturn := hright j (Within.runner_exec hcpu) (n, ticks0) (by rw [hctx]; rfl) s'.1 h
    cases hturn with
    | done hdone =>
      rw [hdone] at hctx'
      cases hctx'
    | killed hkilled =>
      rw [hkilled] at hctx'
      cases hctx'
    | sleeps b _ hpos => exact .inr (hn ▸ hpos)
  | goes hticks hcall hturn =>
    rcases hj call hcall with hstart | hpos
    · rw [hstart] at hturn
      cases hturn
    · exact .inr hpos

/-- A turn that does what it should is in time. -/
theorem inTime_of_turnRight {s s' : Clocked} (hs : Sleeping s)
    (hpos : ∀ j, Positive (s.1.pool j).context)
    (h : step s.1 a = some s'.1) (hright : TurnRight s a) : InTime s a := by
  intro i hrun call hcall hkilled
  have hctx := sleepTurn_eq_some.1 hcall
  obtain ⟨c, rfl, hcpu⟩ := exec_of_runner h hrun (by simp [hctx])
  have helapsed := hs.elapsed hctx
  have hturn := hright i hrun call hcall s'.1 h
  rw [step_sleepTurn hcpu hctx h] at hturn
  split at hturn
  · rw [if_neg (not_not.2 hkilled)] at hturn
    cases hturn with
    | done hdone => exact nomatch congrArg Proc.context hdone
    | killed hreturn => exact nomatch congrArg Proc.context hreturn
    | sleeps b _ hpos hpassed => exact ⟨hpos.le, fun hge => absurd hpassed (not_lt.2 hge)⟩
  · rename_i hless
    rw [BitVec.lt_def, helapsed, not_lt] at hless
    have hnonneg : 0 ≤ call.1.toInt := by
      rcases hpos i call (sleepCall_of_turn hcall) with hstart | hpos
      · -- the first turn, at which no ticks have passed
        obtain ⟨n, ticks0⟩ := call
        cases hctx.symm.trans hstart
        have hzero : n = 0 := BitVec.eq_of_toNat_eq (Nat.le_zero.1 hless)
        rw [hzero]
        rfl
      · exact hpos.le
    rw [toInt_eq_toNat_of_nonneg hnonneg]
    exact ⟨Int.natCast_nonneg _, fun _ => Int.ofNat_le.2 hless⟩

/-- Along a run, turns that do what they should and turns that are in time are the same. -/
theorem along_turnRight_iff {s s' : Clocked} {as : List Act} (hs : Sleeping s)
    (hpos : ∀ j, Positive (s.1.pool j).context) (hrun : run clockStep s as = some s') :
    Along clockStep TurnRight s as ↔ Along clockStep InTime s as := by
  induction as generalizing s with
  | nil => exact iff_of_true (fun _ hp => nomatch hp) fun _ hp => nomatch hp
  | cons a as ih =>
    obtain ⟨t, ht, hrest⟩ := run_cons_eq_some.1 hrun
    have hstep := (clockStep_eq_some.1 ht).1
    have hturn : TurnRight s a ↔ InTime s a :=
      ⟨inTime_of_turnRight hs hpos hstep, turnRight_of_inTime hs⟩
    rw [along_cons ht, along_cons ht, hturn]
    refine and_congr_right fun hok => ih (hs.step ht) (fun j => ?_) hrest
    exact step_positive hs.sched (hturn.2 hok) hstep (hpos j)

/-- **`sys_sleep` sleeps for the time it is asked for in exactly the runs whose turns are in
time.** -/
theorem sysSleep_time {m : Machine} {as : List Act} {s : Clocked}
    (hrun : run clockStep (clockBoot m) as = some s) :
    SleepsFor m as ↔ Along clockStep InTime (clockBoot m) as :=
  along_turnRight_iff (.boot m) (fun _ _ hcall => nomatch hcall) hrun

/-- `init` calls `sleep(n)`. -/
def callSleep (n : Uint64) : List Act :=
  .loadInitApp :: enterUser 0 ++ ecall 0 (callRegs .sleep n 0 0)

/-- It goes to sleep, is woken by a tick and takes another turn. -/
def sleepTick : List Act :=
  callSleep 1 ++ [.exec 0, .exec 0, .tick, .fetch 0, .switchTo 0, .exec 0, .exec 0]

/-- It sleeps for one tick. -/
theorem sysSleep_time_one : ∃ s, run clockStep (clockBoot initMachine) sleepTick = some s ∧
    (s.1.pool 0).context = .stillAlive false ∧ (s.1.pool 0).trapframe.a0 = 0 ∧ s.2 0 = 1 ∧
      SleepsFor initMachine sleepTick := by
  have hobs : (run clockStep (clockBoot initMachine) sleepTick).map (fun s =>
      decide ((s.1.pool 0).context = .stillAlive false ∧ (s.1.pool 0).trapframe.a0 = 0 ∧
        s.2 0 = 1)) = some true := by
    decide +kernel
  simp only [Option.map_eq_some_iff, decide_eq_true_eq] at hobs
  obtain ⟨s, hrun, hctx, hret, hpassed⟩ := hobs
  exact ⟨s, hrun, hctx, hret, hpassed, (sysSleep_time hrun).2 (by decide +kernel)⟩

/-- `sleep(-1)` sleeps. -/
theorem sysSleep_sleeps_negative :
    ¬ SleepsFor initMachine (callSleep (ofInt (-1)) ++ [.exec 0]) := by
  intro hall
  have hobs : (run clockStep (clockBoot initMachine) (callSleep (ofInt (-1)))).bind (fun s =>
      (step s.1 (.exec 0)).map fun k => decide (s.1.cpus 0 = .running 0 ∧
        (s.1.pool 0).context = .call (.sleep (ofInt (-1)) none) ∧
        (k.pool 0).context = .sleep (.sleep (ofInt (-1)) (some 0)))) =
          some true := by decide +kernel
  simp only [Option.bind_eq_some_iff, Option.map_eq_some_iff, decide_eq_true_eq] at hobs
  obtain ⟨s, hrun, k, hstep, hcpu, hctx, hsleeps⟩ := hobs
  have hright : TurnRight s (.exec 0) :=
    ((along_append hrun).1 hall).2 (s, .exec 0) (by simp [trace_singleton])
  have hturn := hright 0 (Within.runner_exec hcpu) (ofInt (-1), none) (by rw [hctx]; rfl) k hstep
  cases hturn with
  | done hdone =>
    rw [hdone] at hsleeps
    cases hsleeps
  | killed hkilled =>
    rw [hkilled] at hsleeps
    cases hsleeps
  | sleeps b _ hpos => exact absurd hpos (by decide)

end SignalOS
