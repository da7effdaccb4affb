import SignalOS.Kernel.Target

/-!
# The steps of `exit`, `sleep` and `wait`

What these steps leave in the process table, slot by slot.

* `wakeup_pool` — `wakeup(chan)` makes the sleepers on `chan` runnable.
* `step_exit`, `step_reparent`, `step_wakeInit`, `step_wakeParent`, `step_finish` — the
  steps of `exit`.
* `step_sleep`, `step_wait` — going to sleep, and one pass of `wait`.
-/

namespace SignalOS

open Partial

variable {k k' : Kernel} {c : CpuId} {i : Slot}

/-! ## Waking up -/

/-- The process after `wakeup(chan)`. -/
def Proc.woken (p : Proc) (chan : Option Chan) : Proc :=
  if p.sleepsOn chan then { p with state := .runnable } else p

theorem Proc.woken_of_state {p : Proc} (chan : Option Chan) (h : p.state ≠ .sleeping) :
    p.woken chan = p := by
  rw [woken, if_neg]
  simp [sleepsOn, h]

theorem Proc.woken_woken (p : Proc) (chan : Option Chan) :
    (p.woken chan).woken chan = p.woken chan := by
  by_cases h : p.sleepsOn chan
  · have hwoken : p.woken chan = { p with state := .runnable } := if_pos h
    rw [hwoken]
    exact woken_of_state chan nofun
  · rw [show p.woken chan = p from if_neg h]
    exact if_neg h

/-- A process does not sleep on the channel that was woken. -/
theorem Proc.not_sleepsOn_woken (p : Proc) (chan : Option Chan) :
    (p.woken chan).sleepsOn chan = false := by
  by_cases h : p.sleepsOn chan
  · rw [show p.woken chan = { p with state := .runnable } from if_pos h]
    rfl
  · rw [show p.woken chan = p from if_neg h]
    exact Bool.eq_false_iff.2 h

/-- The turns of the loop for a list of slots. -/
theorem wakeup_loop {chan : Option Chan} {l : List Slot} {u : Unit}
    (h : (l.forM fun i => do
      let p ← getProc i
      if p.sleepsOn chan then
        storeProc i ({ p with state := .runnable }, true)) k = some (u, k')) :
    (∀ j, k'.pool j = if j ∈ l then (k.pool j).woken chan else k.pool j) ∧
      k'.initProc = k.initProc := by
  induction l generalizing k with
  | nil =>
    obtain ⟨-, rfl⟩ := pure_eq_some.1 h
    simp
  | cons i l ih =>
    obtain ⟨_, k₁, hturn, hrest⟩ := bind_eq_some.1 h
    obtain ⟨hpool, hinit⟩ := ih hrest
    have hfirst : (∀ j, k₁.pool j = if j = i then (k.pool j).woken chan else k.pool j) ∧
        k₁.initProc = k.initProc := by
      dsimp only at hturn
      rw [getProc_bind] at hturn
      split at hturn
      · rename_i hsleeps
        have hframe := Within.storeProc_frame (fun _ => rfl) hturn
        refine ⟨fun j => ?_, hframe.initProc⟩
        rw [hframe.pool]
        by_cases hj : j = i
        · rw [hj, if_pos rfl, Kernel.setProc_pool_self]
          exact (if_pos hsleeps).symm
        · rw [if_neg hj, Kernel.setProc_pool_of_ne hj]
      · rename_i hsleeps
        obtain ⟨-, rfl⟩ := pure_eq_some.1 hturn
        refine ⟨fun j => ?_, rfl⟩
        by_cases hj : j = i
        · rw [if_pos hj, hj]
          exact (if_neg hsleeps).symm
        · rw [if_neg hj]
    refine ⟨fun j => ?_, hinit.trans hfirst.2⟩
    rw [hpool, hfirst.1]
    by_cases hj : j = i <;> by_cases hl : j ∈ l <;> simp [hj, hl, Proc.woken_woken]

/-- **`wakeup(chan)` makes the sleepers on `chan` runnable**, and changes no other process. -/
theorem wakeup_pool {chan : Option Chan} {u : Unit} (h : wakeup chan k = some (u, k')) :
    (∀ j, k'.pool j = (k.pool j).woken chan) ∧ k'.initProc = k.initProc := by
  obtain ⟨hpool, hinit⟩ := wakeup_loop h
  refine ⟨fun j => ?_, hinit⟩
  rw [hpool, if_pos (List.mem_finRange j)]

/-! ## Exit -/

/-- `exit` is not called by `init`; it reads the parent. -/
theorem step_exit {code : Int} (hcpu : k.cpus c = .running i)
    (hctx : (k.pool i).context = .exit code)
    (h : step k (.exec c) = some k') :
    k.initProc ≠ some i ∧
      k' = k.setProc i { k.pool i with context := .reparent code (k.pool i).parent } := by
  obtain ⟨next, k₁, hthread, hcarry⟩ := exec_of_step hcpu h
  simp only [hctx, thread, exitStart, get_bind] at hthread
  split at hthread
  · cases hthread
  · rename_i hinit
    simp only [getProc_bind, pure_eq_some] at hthread
    obtain ⟨rfl, rfl⟩ := hthread
    rw [carryOn, modifyProc_eq_some] at hcarry
    exact ⟨hinit, hcarry⟩

/-- A process whose parent exits is given to `init`. -/
def Proc.givenBy (p : Proc) (i : Slot) (initProc : Option Slot) : Proc :=
  if p.parent = some i then { p with parent := initProc } else p

theorem haveKids_iff {pool : Slot → Proc} :
    haveKids pool i = true ↔ ∃ j, j ≠ i ∧ (pool j).parent = some i := by
  simp [haveKids]

/-- The next step of `exit` after the children have been given away. -/
def afterReparent (k : Kernel) (i : Slot) (code : Int) (parentProc : Option Slot) : Context :=
  if haveKids k.pool i then .wakeInit code
  else
    match parentProc with
    | none => .wakeParent code
    | some parent =>
      if some parent ≠ k.initProc then .notifyParent code (k.pool parent).pid else .wakeParent code

theorem reparent_pool {r : Bool} (h : reparent i k = some (r, k')) :
    r = haveKids k.pool i ∧ k'.initProc = k.initProc ∧ k'.pool i = k.pool i ∧
      ∀ j, j ≠ i → k'.pool j = (k.pool j).givenBy i k.initProc := by
  simp only [reparent, get_bind, bind_eq_some (x := set _)] at h
  obtain ⟨_, _, hset, h⟩ := h
  cases hset
  obtain ⟨hr, rfl⟩ := pure_eq_some.1 h
  refine ⟨hr, rfl, ?_, fun j hj => ?_⟩
  · simp
  · simp only [Proc.givenBy, hj, ne_eq, not_false_eq_true, true_and]

/-- Nobody has a parent that has no children. -/
theorem Proc.givenBy_of_childless {pool : Slot → Proc} {j : Slot} {initProc : Option Slot}
    (hkids : haveKids pool i ≠ true) (hj : j ≠ i) : (pool j).givenBy i initProc = pool j := by
  refine if_neg fun hparent => hkids (haveKids_iff.2 ⟨j, hj, hparent⟩)

/-- **The step in which `exit` gives the children away.** -/
theorem step_reparent {code : Int} {parentProc : Option Slot} (hcpu : k.cpus c = .running i)
    (hctx : (k.pool i).context = .reparent code parentProc) (h : step k (.exec c) = some k') :
    (k.locks .wait = none ∨ k.locks .wait = some i) ∧
      k'.pool i = { k.pool i with context := afterReparent k i code parentProc } ∧
      ∀ j, j ≠ i → k'.pool j = (k.pool j).givenBy i k.initProc := by
  obtain ⟨next, k₁, hthread, hcarry⟩ := exec_of_step hcpu h
  simp only [hctx, thread, exitReparent, bind_eq_some (x := acquireLock _ _),
    bind_eq_some (x := reparent _)] at hthread
  obtain ⟨_, k₂, hlock, wakeinit, k₃, hreparent, hthread⟩ := hthread
  obtain ⟨hfree, rfl⟩ := Within.acquireLock_eq_some.1 hlock
  obtain ⟨hkids, hinit, hself, hothers⟩ := reparent_pool hreparent
  have hnext : next = .goto (afterReparent k i code parentProc) ∧ k₁.pool = k₃.pool := by
    rw [hkids] at hthread
    rw [afterReparent.eq_def]
    split at hthread
    · rename_i hkids
      obtain ⟨rfl, rfl⟩ := pure_eq_some.1 hthread
      exact ⟨by rw [if_pos hkids], rfl⟩
    · rename_i hkids
      rw [if_neg hkids]
      cases parentProc with
      | none =>
        obtain ⟨rfl, rfl⟩ := pure_eq_some.1 hthread
        exact ⟨rfl, rfl⟩
      | some parent =>
        have hpid : (k₃.pool parent).pid = (k.pool parent).pid := by
          by_cases hparent : parent = i
          · rw [hparent, hself]
          · rw [hothers parent hparent]
            exact congrArg Proc.pid (Proc.givenBy_of_childless hkids hparent)
        simp only [get_bind, hinit] at hthread ⊢
        split at hthread
        · rename_i hnotify
          simp only [getProc_bind, releaseLock, modify_bind, pure_eq_some] at hthread
          obtain ⟨rfl, rfl⟩ := hthread
          rw [if_pos hnotify, hpid]
          exact ⟨rfl, rfl⟩
        · rename_i hquiet
          obtain ⟨rfl, rfl⟩ := pure_eq_some.1 hthread
          rw [if_neg hquiet]
          exact ⟨rfl, rfl⟩
  obtain ⟨rfl, hpool⟩ := hnext
  rw [carryOn, modifyProc_eq_some] at hcarry
  refine ⟨hfree, ?_, fun j hj => ?_⟩
  · rw [hcarry, Kernel.setProc_pool_self, hpool, hself]
  · rw [hcarry, Kernel.setProc_pool_of_ne hj, hpool, hothers j hj]

/-- A step that wakes up the sleepers on a channel and goes on. -/
theorem carryOn_woken {chan : Option Chan} {context : Context} {k₁ : Kernel} {u u' : Unit}
    (hwake : wakeup chan k = some (u, k₁)) (hrun : (k.pool i).state ≠ .sleeping)
    (hcarry : carryOn c i (.goto context) k₁ = some (u', k')) :
    k'.pool i = { k.pool i with context := context } ∧
      ∀ j, j ≠ i → k'.pool j = (k.pool j).woken chan := by
  obtain ⟨hpool, -⟩ := wakeup_pool hwake
  rw [carryOn, modifyProc_eq_some] at hcarry
  refine ⟨?_, fun j hj => ?_⟩
  · rw [hcarry, Kernel.setProc_pool_self, hpool, Proc.woken_of_state _ hrun]
  · rw [hcarry, Kernel.setProc_pool_of_ne hj, hpool]

theorem step_wakeInit {code : Int} (hsched : Sched k) (hcpu : k.cpus c = .running i)
    (hctx : (k.pool i).context = .wakeInit code) (h : step k (.exec c) = some k') :
    k'.pool i = { k.pool i with context := .wakeParent code } ∧
      ∀ j, j ≠ i → k'.pool j = (k.pool j).woken (k.initProc.map .proc) := by
  obtain ⟨next, k₁, hthread, hcarry⟩ := exec_of_step hcpu h
  simp only [hctx, thread, exitWakeInit, get_bind, bind_eq_some (x := wakeup _), pure_eq_some]
    at hthread
  obtain ⟨_, _, hwake, rfl, rfl⟩ := hthread
  exact carryOn_woken hwake (by simp [hsched.running c i hcpu]) hcarry

theorem step_wakeParent {code : Int} (hsched : Sched k) (hcpu : k.cpus c = .running i)
    (hctx : (k.pool i).context = .wakeParent code) (h : step k (.exec c) = some k') :
    (k.locks .wait = none ∨ k.locks .wait = some i) ∧
      k'.pool i = { k.pool i with context := .finish code } ∧
      ∀ j, j ≠ i → k'.pool j = (k.pool j).woken ((k.pool i).parent.map .proc) := by
  obtain ⟨next, k₁, hthread, hcarry⟩ := exec_of_step hcpu h
  simp only [hctx, thread, exitWakeParent, bind_eq_some (x := acquireLock _ _), getProc_bind,
    bind_eq_some (x := wakeup _), pure_eq_some] at hthread
  obtain ⟨_, k₂, hlock, _, _, hwake, rfl, rfl⟩ := hthread
  obtain ⟨hfree, rfl⟩ := Within.acquireLock_eq_some.1 hlock
  have hrun : (k.pool i).state ≠ .sleeping := by simp [hsched.running c i hcpu]
  have hwoken := carryOn_woken hwake hrun hcarry
  exact ⟨hfree, hwoken⟩

/-- **The last step of `exit`**: the process is a zombie. -/
theorem step_finish {code : Int} (hcpu : k.cpus c = .running i)
    (hctx : (k.pool i).context = .finish code) (h : step k (.exec c) = some k') :
    k'.pool = (k.setProc i
      { k.pool i with exitCode := code, state := .zombie, context := .dead }).pool := by
  obtain ⟨next, k₁, hthread, hcarry⟩ := exec_of_step hcpu h
  simp only [hctx, thread, exitFinish, releaseLock, modify_bind, pure_eq_some] at hthread
  obtain ⟨rfl, rfl⟩ := hthread
  simp only [carryOn, modifyProc_bind, setCpu, modify_eq_some] at hcarry
  rw [hcarry]
  rfl

/-! ## Sleep and wait -/

/-- **The step that goes to sleep.** -/
theorem step_sleep {b : Blocking} (hcpu : k.cpus c = .running i)
    (hctx : (k.pool i).context = .sleep b)
    (h : step k (.exec c) = some k') :
    k'.pool = (k.setProc i { k.pool i with
      sleepChan := some (b.chan i)
      state := .sleeping
      context := .asleep b }).pool := by
  obtain ⟨next, k₁, hthread, hcarry⟩ := exec_of_step hcpu h
  simp only [hctx, thread, releaseLock, modify_bind, modifyProc_bind, pure_eq_some] at hthread
  obtain ⟨rfl, rfl⟩ := hthread
  simp only [carryOn, modifyProc_bind, setCpu, modify_bind] at hcarry
  obtain ⟨-, rfl⟩ := pure_eq_some.1 hcarry
  dsimp only
  rw [Kernel.setProc_pool_self]
  exact Function.update_idem _ _ _

/-- The process returns from a system call. -/
def Proc.returns (p : Proc) (r : Int) : Proc :=
  { p with trapframe := { p.trapframe with a0 := ofInt r }, context := .stillAlive false }

/-- What one pass of `wait(pid, code)` by the process in slot `i` comes to. -/
inductive WaitCase (k : Kernel) (i : Slot) (pid : Int) (code : Uint64) (pool : Slot → Proc) : Prop
  | reaped (child : Slot) (hfind : waitChild k.pool i pid = some child)
      (hchild : pool child = (k.pool child).release)
      (hself : pool i = (k.pool i).returns (k.pool child).pid)
      (hothers : ∀ j, j ≠ i → j ≠ child → pool j = k.pool j)
  | failed (hnone : waitChild k.pool i pid = none)
      (hfails : haveKids k.pool i = false ∨ (k.pool i).killed ≠ 0)
      (hpool : pool = (k.setProc i ((k.pool i).returns (-ECHILD))).pool)
  | sleeps (hnone : waitChild k.pool i pid = none) (hkids : haveKids k.pool i = true)
      (hkilled : (k.pool i).killed = 0)
      (hpool : pool = (k.setProc i { k.pool i with context := .sleep (.wait pid code) }).pool)

theorem waitChild_spec {pool : Slot → Proc} {pid : Int} {child : Slot}
    (h : waitChild pool i pid = some child) :
    child ≠ i ∧ (pool child).parent = some i ∧ (pool child).state = .zombie ∧
      (pid ≤ 0 ∨ (pool child).pid = pid) := by
  simpa using List.find?_some h

/-- The table after a pass of `wait` that frees a child. -/
theorem wait_reaps {pid : Int} {code : Uint64} {r : Option Int} {child : Slot}
    (h : wait i pid code k = some (r, k')) (hfind : waitChild k.pool i pid = some child) :
    r = some (k.pool child).pid ∧ k'.pool = (k.setProc child (k.pool child).release).pool := by
  simp only [wait, get_bind, hfind] at h
  split at h
  · simp only [bind_eq_some (x := getMm _), getMm_eq_some, modify_bind, bind_eq_some,
      pure_eq_some] at h
    obtain ⟨mm, k₁, ⟨-, rfl⟩, _, k₂, hfree, rfl, rfl⟩ := h
    exact ⟨rfl, (Within.freeproc_frame hfree).1.pool⟩
  · simp only [bind_eq_some, pure_eq_some] at h
    obtain ⟨_, k₂, hfree, rfl, rfl⟩ := h
    exact ⟨rfl, (Within.freeproc_frame hfree).1.pool⟩

/-- **One pass of `wait`.** -/
theorem step_wait {pid : Int} {code : Uint64} (hcpu : k.cpus c = .running i)
    (hctx : (k.pool i).context = .call (.wait pid code)) (h : step k (.exec c) = some k') :
    (k.locks .wait = none ∨ k.locks .wait = some i) ∧ WaitCase k i pid code k'.pool := by
  obtain ⟨next, k₁, hthread, hcarry⟩ := exec_of_step hcpu h
  simp only [hctx, thread, Blocking.turn, bind_eq_some (x := acquireLock _ _),
    bind_eq_some (x := _ >>= _), bind_eq_some (x := wait _ _ _)] at hthread
  obtain ⟨_, k₂, hlock, o, k₃, ⟨r, k₄, hwait, hend⟩, hthread⟩ := hthread
  obtain ⟨hfree, rfl⟩ := Within.acquireLock_eq_some.1 hlock
  refine ⟨hfree, ?_⟩
  -- the end of a call that returns `n`
  have hreturn {n : Int} (hr : r = some n) :
      k'.pool = (k₄.setProc i ((k₄.pool i).returns n)).pool := by
    subst hr
    obtain ⟨rfl, rfl⟩ := pure_eq_some.1 hend
    simp only [releaseLock, setReturn, modify_bind, modifyProc_bind, pure_eq_some] at hthread
    obtain ⟨rfl, rfl⟩ := hthread
    rw [carryOn, modifyProc_eq_some] at hcarry
    rw [hcarry, Kernel.setProc_pool_self]
    exact Function.update_idem _ _ _
  cases hfind : waitChild k.pool i pid with
  | some child =>
    obtain ⟨hr, hpool⟩ := wait_reaps hwait hfind
    have hne : child ≠ i := (waitChild_spec hfind).1
    have hself : k₄.pool i = k.pool i := by
      rw [hpool]
      exact Kernel.setProc_pool_of_ne hne.symm _ _
    have hend := hreturn hr
    refine .reaped child hfind ?_ ?_ fun j hj hjc => ?_
    · rw [hend, Kernel.setProc_pool_of_ne hne, hpool]
      exact Kernel.setProc_pool_self _ _ _
    · rw [hend, Kernel.setProc_pool_self, hself]
    · rw [hend, Kernel.setProc_pool_of_ne hj, hpool]
      exact Kernel.setProc_pool_of_ne hjc _ _
  | none =>
    simp only [wait, get_bind, hfind] at hwait
    split at hwait
    · rename_i hfails
      obtain ⟨hr, rfl⟩ := pure_eq_some.1 hwait
      refine .failed hfind ?_ (hreturn hr)
      simpa using hfails
    · rename_i hsleeps
      obtain ⟨rfl, rfl⟩ := pure_eq_some.1 hwait
      obtain ⟨rfl, rfl⟩ := pure_eq_some.1 hend
      obtain ⟨rfl, rfl⟩ := pure_eq_some.1 hthread
      rw [carryOn, modifyProc_eq_some] at hcarry
      simp only [Bool.or_eq_true, Bool.not_eq_true', decide_eq_true_eq, not_or, Bool.not_eq_false,
        not_not] at hsleeps
      exact .sleeps hfind hsleeps.1 hsleeps.2 (hcarry ▸ rfl)

end SignalOS
