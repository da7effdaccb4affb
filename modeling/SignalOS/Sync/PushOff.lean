import SignalOS.Sync.Spinlock
import Mathlib.Data.Set.Card

/-!
# `push_off` and `pop_off` across switches

* `Balanced` — **the counter of a CPU is what its thread has to pop**.
* `Inv` — every CPU is balanced, and a thread that is switched away holds its lock alone.
* `step_inv` — every action that keeps the discipline keeps the invariant.
* `nesting_exact` — **the nesting is exact in every run, on every CPU**.
-/

namespace SignalOS.Sync

open Function (update)
open Runs

/-! ## One CPU -/

section

variable {P L : Type} {k k' : Cpu P} {th : Thread L} {holds holds' : L → Prop}

/-- The CPU counts what its thread has to pop; `holds` are the locks that name the CPU. -/
structure Balanced (k : Cpu P) (th : Thread L) (holds : L → Prop) : Prop where
  count : k.noff = th.outstanding
  held : ∀ lk, lk ∈ th.held ↔ holds lk
  nodup : th.held.Nodup
  mid : th.pc ≠ .running → 0 < th.pushes
  off : 0 < k.noff → k.intr = false
  /-- A process has its interrupts in `interrupt_on`; the scheduler may have those of another
  thread. -/
  was : k.proc ≠ none → 0 < th.outstanding → ∀ b, th.was = some b → k.interruptOn = b

theorem Balanced.pushOff (h : Balanced k th holds) : Balanced k.pushOff { th with
    pushes := th.pushes + 1
    was := if th.outstanding = 0 then some k.intr else th.was } holds := by
  have hcount := h.count
  refine ⟨?_, h.held, h.nodup, fun _ => Nat.succ_pos _, fun _ => ?_, fun hproc _ b hb => ?_⟩
  · simp only [Cpu.pushOff, Thread.outstanding] at hcount ⊢
    split <;> simp only at hcount ⊢ <;> omega
  · simp only [Cpu.pushOff]
    split <;> rfl
  · simp only [Cpu.pushOff] at hproc ⊢
    by_cases hzero : th.outstanding = 0
    · simp_all
    · have hpos : 0 < th.outstanding := Nat.pos_of_ne_zero hzero
      have hnoff : k.noff ≠ 0 := hcount ▸ hzero
      simp only [hzero, if_false] at hb
      simp only [hnoff, if_false] at hproc ⊢
      exact h.was hproc hpos b hb

/-- **`pop_off` of a `push_off`** can panic only in a kernel trap; the last one of a process sets
the interrupts to what they were. -/
theorem Balanced.popOff (h : Balanced k th holds) (hpush : 0 < th.pushes) :
    (∀ e, k.popOff = .error e → e = .intrOnInKernelTrap) ∧
    ∀ k', k.popOff = .ok k' → k'.proc = k.proc ∧
      Balanced k' { th with pc := .running, pushes := th.pushes - 1 } holds ∧
      (k.proc ≠ none → th.outstanding = 1 → ∀ b, th.was = some b → k'.intr = b) := by
  have hcount := h.count
  have hpos : 0 < th.outstanding := Nat.lt_of_lt_of_le hpush (Nat.le_add_left _ _)
  have hintr : k.intr = false := h.off (hcount ▸ hpos)
  have hnoff : ¬ k.noff < 1 := by omega
  have hless : th.held.length + (th.pushes - 1) = k.noff - 1 := by
    rw [hcount, Thread.outstanding]
    omega
  simp only [Cpu.popOff, hintr, hnoff, Bool.false_eq_true, if_false]
  by_cases hlast : k.noff - 1 = 0 ∧ k.interruptOn = true
  · rw [if_pos hlast]
    split
    · exact ⟨fun e he => by simpa using he.symm, fun k' hk' => by simp at hk'⟩
    · refine ⟨fun e he => by simp at he, fun k' hk' => ?_⟩
      cases hk'
      refine ⟨rfl, ⟨hless.symm, h.held, h.nodup, fun hrun => absurd rfl hrun, fun hgt => ?_,
        fun _ hgt => ?_⟩, ?_⟩
      · exact absurd hgt (by simp [hlast.1])
      · rw [Thread.outstanding, hless, hlast.1] at hgt
        exact absurd hgt (lt_irrefl 0)
      · intro hproc _ b hb
        rw [← h.was hproc hpos b hb, hlast.2]
  · rw [if_neg hlast]
    refine ⟨fun e he => by simp at he, fun k' hk' => ?_⟩
    cases hk'
    refine ⟨rfl, ⟨hless.symm, h.held, h.nodup, fun hrun => absurd rfl hrun, fun _ => rfl, ?_⟩, ?_⟩
    · intro hproc _ b hb
      exact h.was hproc hpos b hb
    · intro hproc hone b hb
      have hzero : k.noff - 1 = 0 := by omega
      have hoff : k.interruptOn = false := by
        simpa [hzero] using hlast
      rw [← h.was hproc hpos b hb, hoff]

/-- The interrupts change; they are switched on only with nothing to pop. -/
theorem Balanced.intr (h : Balanced k th holds) (hproc : k'.proc = k.proc)
    (hnoff : k'.noff = k.noff)
    (hon : k'.interruptOn = k.interruptOn) (hintr : k'.intr = false ∨ th.outstanding = 0) :
    Balanced k' th holds := by
  refine ⟨hnoff.trans h.count, h.held, h.nodup, h.mid, fun hpos => ?_, fun hne => ?_⟩
  · rw [hnoff, h.count] at hpos
    exact hintr.resolve_right hpos.ne'
  · rw [hproc] at hne
    rw [hon]
    exact h.was hne

/-- The lock that the thread waits for names the CPU. -/
theorem Balanced.take [DecidableEq L] {lk : L} (h : Balanced k th holds) (hpc : th.pc ≠ .running)
    (hfree : ¬ holds lk)
    (hholds : ∀ l, holds' l ↔ l = lk ∨ holds l) :
    Balanced k { th with pc := .running, held := lk :: th.held, pushes := th.pushes - 1 }
      holds' := by
  have hpush := h.mid hpc
  have hcount : (lk :: th.held).length + (th.pushes - 1) = th.outstanding := by
    rw [List.length_cons, Thread.outstanding]
    omega
  refine ⟨h.count.trans hcount.symm, fun l => ?_, ?_, fun hrun => absurd rfl hrun, h.off,
    fun hproc hpos => ?_⟩
  · rw [List.mem_cons, hholds, h.held]
  · exact List.nodup_cons.2 ⟨mt (h.held lk).1 hfree, h.nodup⟩
  · exact h.was hproc (by rwa [← hcount])

/-- The lock no longer names the CPU, and the thread still has to pop. -/
theorem Balanced.release [DecidableEq L] {lk : L} (h : Balanced k th holds) (hmem : lk ∈ th.held)
    (hholds : ∀ l, holds' l ↔ l ≠ lk ∧ holds l) :
    Balanced k { th with pc := .released, held := th.held.erase lk, pushes := th.pushes + 1 }
      holds' := by
  have hlen := List.length_erase_of_mem hmem
  have hone := List.length_pos_of_mem hmem
  have hcount : (th.held.erase lk).length + (th.pushes + 1) = th.outstanding := by
    rw [Thread.outstanding]
    omega
  refine ⟨h.count.trans hcount.symm, fun l => ?_, h.nodup.erase lk, fun _ => Nat.succ_pos _, h.off,
    fun hproc hpos => ?_⟩
  · rw [h.nodup.mem_erase_iff, hholds, h.held]
  · exact h.was hproc (by rwa [← hcount])

end

/-! ## All CPUs -/

section

variable {C P L : Type} [DecidableEq C] [DecidableEq P] {s s' : State C P L} {c c' : C} {p : P}

/-- A thread that is switched away holds the lock of the process, and has nothing else to pop. -/
structure Suspended (th : Thread (Lock P L)) (p : P) : Prop where
  pc : th.pc = .running
  held : th.held = [.proc p]
  pushes : th.pushes = 0

/-- **The invariant of the kernel.** -/
structure Inv (s : State C P L) : Prop where
  cpu : ∀ c, Balanced (s.cpu c) (s.running c) fun lk => holding (s.lock lk) c
  lock : ∀ lk, (s.lock lk).locked = (s.lock lk).cpu.isSome
  unique : ∀ c c' p, (s.cpu c).proc = some p → (s.cpu c').proc = some p → c = c'
  state : ∀ c p, (s.cpu c).proc = some p → s.state p = .running
  scheduler : ∀ c p, (s.cpu c).proc = some p → Suspended (s.thread (.scheduler c)) p
  process : ∀ p, s.state p ≠ .running → Suspended (s.thread (.process p)) p ∧
    ∀ b, (s.thread (.process p)).was = some b → (s.thread (.process p)).saved = some b

omit [DecidableEq P] in
theorem Inv.init : Inv (State.init : State C P L) where
  cpu c := by
    refine ⟨rfl, fun lk => ?_, List.nodup_nil, fun hrun => absurd rfl hrun,
      fun h => absurd h (lt_irrefl 0), ?_⟩
    · simp [State.init, State.running, State.current, holding]
    · exact fun hproc => absurd rfl hproc
  lock _ := rfl
  unique _ _ _ h := nomatch h
  state _ _ h := nomatch h
  scheduler _ _ h := nomatch h
  process _ _ := ⟨⟨rfl, rfl, rfl⟩, fun _ h => nomatch h⟩

omit [DecidableEq C] [DecidableEq P] in
theorem current_of_none (h : (s.cpu c).proc = none) : s.current c = .scheduler c := by
  rw [State.current, h]

omit [DecidableEq C] [DecidableEq P] in
theorem current_of_some (h : (s.cpu c).proc = some p) : s.current c = .process p := by
  rw [State.current, h]

omit [DecidableEq C] [DecidableEq P] in
theorem current_congr (h : (s'.cpu c).proc = (s.cpu c).proc) : s'.current c = s.current c := by
  rw [State.current, State.current, h]

omit [DecidableEq P] in
/-- No two CPUs run one thread. -/
theorem Inv.current_ne (h : Inv s) (hne : c' ≠ c) : s.current c' ≠ s.current c := by
  intro heq
  cases hc : (s.cpu c).proc with
  | none =>
    cases hc' : (s.cpu c').proc with
    | none =>
      rw [current_of_none hc, current_of_none hc'] at heq
      exact hne (Tid.scheduler.inj heq)
    | some p' =>
      rw [current_of_none hc, current_of_some hc'] at heq
      cases heq
  | some p =>
    cases hc' : (s.cpu c').proc with
    | none =>
      rw [current_of_some hc, current_of_none hc'] at heq
      cases heq
    | some p' =>
      rw [current_of_some hc, current_of_some hc'] at heq
      cases heq
      exact hne (h.unique c' c p hc' hc)

omit [DecidableEq C] [DecidableEq P] in
theorem scheduler_ne (hproc : (s.cpu c').proc = some p) : .scheduler c' ≠ s.current c := by
  intro heq
  cases hc : (s.cpu c).proc with
  | none =>
    rw [current_of_none hc] at heq
    cases heq
    rw [hproc] at hc
    cases hc
  | some p' =>
    rw [current_of_some hc] at heq
    cases heq

omit [DecidableEq P] in
theorem Inv.process_ne (h : Inv s) (hstate : s.state p ≠ .running) : .process p ≠ s.current c := by
  intro heq
  cases hc : (s.cpu c).proc with
  | none =>
    rw [current_of_none hc] at heq
    cases heq
  | some p' =>
    rw [current_of_some hc] at heq
    cases heq
    exact hstate (h.state c p hc)

/-- **An action of one thread**: its CPU stays balanced, and the other CPUs hold the locks they
held. -/
theorem Inv.set {k : Cpu P} {th : Thread (Lock P L)} {f : Lock P L → Spinlock C} (h : Inv s)
    (hproc : k.proc = (s.cpu c).proc) (hown : Balanced k th fun lk => holding (f lk) c)
    (hlock : ∀ lk, (f lk).locked = (f lk).cpu.isSome)
    (hother : ∀ c' ≠ c, ∀ lk, holding (f lk) c' = holding (s.lock lk) c') :
    Inv { s.set c k th with lock := f } := by
  have hcpu : ∀ c', (update s.cpu c k c').proc = (s.cpu c').proc := by
    intro c'
    by_cases hc : c' = c
    · rw [hc, Function.update_self, hproc]
    · rw [Function.update_of_ne hc]
  have hcurrent : ∀ c', ({ s.set c k th with lock := f } : State C P L).current c' =
      s.current c' :=
    fun c' => current_congr (hcpu c')
  refine ⟨fun c' => ?_, hlock, fun c₁ c₂ p h₁ h₂ => ?_, fun c' p hp => ?_, fun c' p hp => ?_,
    fun p hp => ?_⟩
  · rw [State.running, hcurrent]
    show Balanced (update s.cpu c k c') (update s.thread (s.current c) th (s.current c')) fun lk =>
      holding (f lk) c'
    by_cases hc : c' = c
    · rw [hc, Function.update_self, Function.update_self]
      exact hown
    · rw [Function.update_of_ne hc, Function.update_of_ne (h.current_ne hc)]
      simp only [hother c' hc]
      exact h.cpu c'
  · exact h.unique c₁ c₂ p ((hcpu c₁).symm.trans h₁) ((hcpu c₂).symm.trans h₂)
  · exact h.state c' p ((hcpu c').symm.trans hp)
  · have hp' := (hcpu c').symm.trans hp
    show Suspended (update s.thread (s.current c) th (.scheduler c')) p
    rw [Function.update_of_ne (scheduler_ne hp')]
    exact h.scheduler c' p hp'
  · show Suspended (update s.thread (s.current c) th (.process p)) p ∧ _
    simp only [State.set, Function.update_of_ne (h.process_ne (c := c) hp)]
    exact h.process p hp

/-! ## The actions -/

theorem running_set {k : Cpu P} {th : Thread (Lock P L)} (hproc : k.proc = (s.cpu c).proc) :
    (s.set c k th).running c = th := by
  have hcurrent : (s.set c k th).current c = s.current c :=
    current_congr (by simp [State.set, hproc])
  rw [State.running, hcurrent]
  exact Function.update_self ..

omit [DecidableEq P] in
theorem pushOff_proc {k : Cpu P} : k.pushOff.proc = k.proc := by
  simp only [Cpu.pushOff]
  split <;> rfl

theorem Inv.pushOff (h : Inv s) (c : C) : Inv (s.pushOff c) :=
  h.set pushOff_proc (h.cpu c).pushOff h.lock fun _ _ _ => rfl

theorem Inv.acquire {lk : Lock P L} (h : Inv s) (hok : s.acquire c lk = .ok s') : Inv s' := by
  simp only [State.acquire] at hok
  split at hok
  · cases hok
  · cases hok
    have hpush := h.pushOff c
    have hown := hpush.cpu c
    have hrun : (s.pushOff c).running c = _ := running_set pushOff_proc
    refine hpush.set rfl ⟨hown.count, hown.held, hown.nodup, fun _ => ?_, hown.off,
      hown.was⟩ hpush.lock fun _ _ _ => rfl
    rw [hrun]
    exact Nat.succ_pos _

omit [DecidableEq P] in
theorem holding_unique {lk : Spinlock C} (h : holding lk c = true) (h' : holding lk c' = true) :
    c' = c := by
  simp only [holding, Bool.and_eq_true, decide_eq_true_eq] at h h'
  exact Option.some.inj (h'.2.symm.trans h.2)

theorem Inv.popOff (h : Inv s) (hpush : 0 < (s.running c).pushes) (hok : s.popOff c = .ok s') :
    Inv s' := by
  unfold State.popOff at hok
  cases hpop : (s.cpu c).popOff with
  | error e =>
    rw [hpop] at hok
    cases hok
  | ok k =>
    rw [hpop] at hok
    cases hok
    obtain ⟨hproc, hown, -⟩ := ((h.cpu c).popOff hpush).2 k hpop
    exact h.set hproc hown h.lock fun _ _ _ => rfl

/-- **The thread of a process is switched away**, and the scheduler holds its lock. -/
theorem Inv.sched {st : ProcState} (h : Inv s) (hpc : (s.running c).pc = .running)
    (hproc : (s.cpu c).proc = some p)
    (hok : s.sched c p st = .ok s') : Inv s' := by
  have hown := h.cpu c
  have hrunning : s.running c = s.thread (.process p) := by
    rw [State.running, current_of_some hproc]
  rw [hrunning] at hown hpc
  simp only [State.sched] at hok
  split at hok
  · cases hok
  rename_i hholding
  split at hok
  · cases hok
  rename_i hnoff
  split at hok
  · cases hok
  rename_i hst
  split at hok
  · cases hok
  split at hok
  · cases hok
  cases hok
  simp only [Bool.not_eq_true', Bool.not_eq_false, not_not] at hholding hnoff
  -- the count of one is the process lock
  have hone : (s.thread (.process p)).held.length + (s.thread (.process p)).pushes = 1 :=
    hown.count.symm.trans hnoff
  have hmem := (hown.held _).2 hholding
  have hpos := List.length_pos_of_mem hmem
  have hpushes : (s.thread (.process p)).pushes = 0 := by omega
  have hheld : (s.thread (.process p)).held = [.proc p] := by
    obtain ⟨lk, hlk⟩ :=
      List.length_eq_one_iff.1 (show (s.thread (.process p)).held.length = 1 by omega)
    rw [hlk] at hmem ⊢
    rw [List.mem_singleton.1 hmem]
  have hne : ∀ c' ≠ c, (s.cpu c').proc ≠ some p := fun c' hc' hp => hc' (h.unique c' c p hp hproc)
  have hcpu : ∀ c' p', (update s.cpu c { s.cpu c with proc := none } c').proc = some p' → c' ≠ c ∧
      (s.cpu c').proc = some p' := by
    intro c' p' hp
    by_cases hc : c' = c
    · rw [hc, Function.update_self] at hp
      cases hp
    · rw [Function.update_of_ne hc] at hp
      exact ⟨hc, hp⟩
  refine ⟨fun c' => ?_, h.lock, fun c₁ c₂ p' h₁ h₂ => ?_, fun c' p' hp => ?_, fun c' p' hp => ?_,
    fun p' hp => ?_⟩
  · by_cases hc : c' = c
    · subst hc
      have hsched := h.scheduler c' p hproc
      have hcur : State.current { s with
          cpu := update s.cpu c' { s.cpu c' with proc := none }
          state := update s.state p st
          thread := update s.thread (.process p)
            { s.thread (.process p) with saved := some (s.cpu c').interruptOn } } c' =
          .scheduler c' := current_of_none (by simp)
      rw [State.running, hcur]
      simp only [Function.update_self, ne_eq, reduceCtorEq, not_false_eq_true,
        Function.update_of_ne]
      refine ⟨?_, fun lk => ?_, ?_, fun hrun => absurd hsched.pc hrun, hown.off,
        fun hnone => absurd rfl hnone⟩
      · simp [Thread.outstanding, hsched.held, hsched.pushes, hnoff]
      · rw [hsched.held, ← hheld]
        exact hown.held lk
      · simp [hsched.held]
    · have hcur : State.current { s with
          cpu := update s.cpu c { s.cpu c with proc := none }
          state := update s.state p st
          thread := update s.thread (.process p)
            { s.thread (.process p) with saved := some (s.cpu c).interruptOn } } c' =
          s.current c' := by simp [State.current, hc]
      have hcurne := h.current_ne hc
      rw [current_of_some hproc] at hcurne
      rw [State.running, hcur]
      simp only [Function.update_of_ne hc, Function.update_of_ne hcurne]
      exact h.cpu c'
  · exact h.unique c₁ c₂ p' (hcpu c₁ p' h₁).2 (hcpu c₂ p' h₂).2
  · obtain ⟨hc, hp⟩ := hcpu c' p' hp
    have hp' : p' ≠ p := fun heq => hne c' hc (heq ▸ hp)
    simp only [Function.update_of_ne hp']
    exact h.state c' p' hp
  · exact h.scheduler c' p' (hcpu c' p' hp).2
  · by_cases hp' : p' = p
    · subst hp'
      simp only [Function.update_self]
      refine ⟨⟨hpc, hheld, hpushes⟩, fun b hb => ?_⟩
      rw [hown.was (by simp [hproc]) (by rw [Thread.outstanding]; omega) b hb]
    · have hcurne : (Tid.process p' : Tid C P) ≠ .process p := fun heq => hp' (Tid.process.inj heq)
      simp only [Function.update_of_ne hp', Function.update_of_ne hcurne] at hp ⊢
      exact h.process p' hp

/-- **The thread of a process goes on**, with the interrupts it was switched away with. -/
theorem Inv.swtch (h : Inv s) (hpc : (s.running c).pc = .running) (hnone : (s.cpu c).proc = none)
    (hstate : s.state p = .runnable) (hheld : (s.running c).held = [.proc p])
    (hpushes : (s.running c).pushes = 0)
    (hok : s.swtch c p = .ok s') : Inv s' := by
  have hnot : s.state p ≠ .running := by rw [hstate]; nofun
  obtain ⟨hsuspended, hsaved⟩ := h.process p hnot
  have hoff : ∀ c', (s.cpu c').proc ≠ some p := fun c' hp => hnot (h.state c' p hp)
  obtain ⟨on, hon, rfl⟩ : ∃ on, (∀ b, (s.thread (.process p)).was = some b → on = b) ∧
    s' = { s with
      cpu := update s.cpu c { s.cpu c with proc := some p, interruptOn := on }
      state := update s.state p .running } := by
    simp only [State.swtch] at hok
    split at hok
    · rename_i hfirst
      cases hok
      refine ⟨(s.cpu c).interruptOn, fun b hb => ?_, rfl⟩
      cases hfirst.symm.trans (hsaved b hb)
    · rename_i on hon
      split at hok
      · cases hok
      · cases hok
        exact ⟨on, fun b hb => Option.some.inj (hon.symm.trans (hsaved b hb)), rfl⟩
  have hown := h.cpu c
  have hrunning : s.running c = s.thread (.scheduler c) := by
    rw [State.running, current_of_none hnone]
  have hcount : (s.cpu c).noff = 1 := by rw [hown.count, Thread.outstanding, hheld, hpushes]; rfl
  set k : Cpu P := { s.cpu c with proc := some p, interruptOn := on } with hk
  have hcpu : ∀ c' p', (update s.cpu c k c').proc = some p' →
      c' = c ∧ p' = p ∨ c' ≠ c ∧ (s.cpu c').proc = some p' := by
    intro c' p' hp
    by_cases hc : c' = c
    · rw [hc, Function.update_self] at hp
      exact .inl ⟨hc, (Option.some.inj hp).symm⟩
    · rw [Function.update_of_ne hc] at hp
      exact .inr ⟨hc, hp⟩
  refine ⟨fun c' => ?_, h.lock, fun c₁ c₂ p' h₁ h₂ => ?_, fun c' p' hp => ?_, fun c' p' hp => ?_,
    fun p' hp => ?_⟩
  · by_cases hc : c' = c
    · subst hc
      have hcur : State.current
        { s with cpu := update s.cpu c' k, state := update s.state p .running } c' =
          .process p := current_of_some (by simp [hk])
      rw [State.running, hcur]
      simp only [Function.update_self]
      refine ⟨?_, fun lk => ?_, ?_, fun hrun => absurd hsuspended.pc hrun, hown.off,
        fun _ _ b hb => hon b hb⟩
      · simp [hk, Thread.outstanding, hsuspended.held, hsuspended.pushes, hcount]
      · rw [hsuspended.held, ← hheld]
        exact hown.held lk
      · simp [hsuspended.held]
    · have hcur : State.current
        { s with cpu := update s.cpu c k, state := update s.state p .running } c' =
          s.current c' := by simp [State.current, hc]
      rw [State.running, hcur]
      simp only [Function.update_of_ne hc]
      exact h.cpu c'
  · rcases hcpu c₁ p' h₁ with ⟨rfl, rfl⟩ | ⟨-, hp₁⟩ <;> rcases hcpu c₂ _ h₂ with ⟨rfl,
      heq⟩ | ⟨-, hp₂⟩
    · rfl
    · exact absurd hp₂ (hoff c₂)
    · exact absurd (heq ▸ hp₁) (hoff c₁)
    · exact h.unique c₁ c₂ p' hp₁ hp₂
  · rcases hcpu c' p' hp with ⟨-, rfl⟩ | ⟨-, hp₁⟩
    · exact Function.update_self ..
    · have hp' : p' ≠ p := fun heq => hoff c' (heq ▸ hp₁)
      simp only [Function.update_of_ne hp']
      exact h.state c' p' hp₁
  · rcases hcpu c' p' hp with ⟨rfl, rfl⟩ | ⟨-, hp₁⟩
    · exact hrunning ▸ ⟨hpc, hheld, hpushes⟩
    · exact h.scheduler c' p' hp₁
  · have hp' : p' ≠ p := fun heq => hp (heq ▸ Function.update_self ..)
    simp only [Function.update_of_ne hp'] at hp
    exact h.process p' hp

/-- The state of a process that does not run changes. -/
theorem Inv.offCpu {st : ProcState} {th : Thread (Lock P L)} (h : Inv s)
    (hstate : s.state p ≠ .running)
    (hth : Suspended th p) (hsaved : ∀ b, th.was = some b → th.saved = some b) :
    Inv { s with state := update s.state p st, thread := update s.thread (.process p) th } := by
  have hne : ∀ c' p', (s.cpu c').proc = some p' → p' ≠ p :=
    fun c' p' hp heq => hstate (heq ▸ h.state c' p' hp)
  refine ⟨fun c' => ?_, h.lock, h.unique, fun c' p' hp => ?_, h.scheduler, fun p' hp => ?_⟩
  · show Balanced (s.cpu c') (update s.thread (.process p) th (s.current c')) _
    rw [Function.update_of_ne (h.process_ne hstate).symm]
    exact h.cpu c'
  · simp only [Function.update_of_ne (hne c' p' hp)]
    exact h.state c' p' hp
  · by_cases hp' : p' = p
    · subst hp'
      simp only [Function.update_self]
      exact ⟨hth, hsaved⟩
    · have hcurne : (Tid.process p' : Tid C P) ≠ .process p := fun heq => hp' (Tid.process.inj heq)
      simp only [Function.update_of_ne hp', Function.update_of_ne hcurne] at hp ⊢
      exact h.process p' hp

section

variable [DecidableEq L]

theorem Inv.take {lk : Lock P L} (h : Inv s) (hpc : (s.running c).pc = .spinning lk)
    (hfree : (s.lock lk).locked = false) : Inv (s.take c lk) := by
  have hnone : ∀ c', holding (s.lock lk) c' = false := fun c' => by simp [holding, hfree]
  refine h.set rfl ((h.cpu c).take (by rw [hpc]; nofun) (by simp [hnone]) fun l => ?_)
    (fun l => ?_) fun c' hne l => ?_
  · by_cases hl : l = lk <;> simp [holding, hl]
  · by_cases hl : l = lk <;> simp [hl, h.lock]
  · by_cases hl : l = lk
    · simp [holding, hl, hfree, Ne.symm hne]
    · simp [hl]

theorem Inv.release {lk : Lock P L} (h : Inv s) (hmem : lk ∈ (s.running c).held)
    (hok : s.release c lk = .ok s') :
    Inv s' := by
  have hheld : holding (s.lock lk) c = true := ((h.cpu c).held lk).1 hmem
  simp only [State.release, hheld, Bool.not_true, Bool.false_eq_true, if_false] at hok
  cases hok
  refine h.set rfl ((h.cpu c).release hmem fun l => ?_) (fun l => ?_) fun c' hne l => ?_
  · by_cases hl : l = lk <;> simp [holding, hl]
  · by_cases hl : l = lk <;> simp [hl, h.lock]
  · by_cases hl : l = lk
    · have hnot : holding (s.lock lk) c' = false := by
        by_contra hc'
        exact hne (holding_unique hheld (by simpa using hc'))
      rw [hl, hnot, Function.update_self]
      rfl
    · simp [hl]

/-- **The discipline keeps the invariant in a call.** -/
theorem Inv.call {op : Op P L} (h : Inv s) (hpc : (s.running c).pc = .running)
    (hd : Disciplined s (c, op))
    (hstep : s.call c op = some (.ok s')) : Inv s' := by
  have hown := h.cpu c
  cases op with
  | intrOn =>
    cases hstep
    exact h.set rfl (hown.intr rfl rfl rfl (.inr hd)) h.lock fun _ _ _ => rfl
  | intrOff =>
    cases hstep
    exact h.set rfl (hown.intr rfl rfl rfl (.inl rfl)) h.lock fun _ _ _ => rfl
  | trap =>
    simp only [State.call, State.trap] at hstep
    split at hstep
    · split at hstep
      · cases hstep
      · cases hstep
        exact h.set rfl (hown.intr rfl rfl rfl (.inl rfl)) h.lock fun _ _ _ => rfl
    · cases hstep
  | trapReturn =>
    simp only [State.call, State.trapReturn] at hstep
    split at hstep
    · split at hstep
      · cases hstep
      · split at hstep
        · cases hstep
        · cases hstep
          exact h.set rfl (hown.intr rfl rfl rfl (.inr hd)) h.lock fun _ _ _ => rfl
    · cases hstep
  | pushOff =>
    cases hstep
    exact h.pushOff c
  | popOff => exact h.popOff (hd.resolve_left (by rw [hpc]; nofun)) (Option.some.inj hstep)
  | acquire lk => exact h.acquire (Option.some.inj hstep)
  | take => cases hstep
  | release lk => exact h.release hd (Option.some.inj hstep)
  | sched st =>
    obtain ⟨p, hproc, hok⟩ := Option.map_eq_some_iff.1 hstep
    exact h.sched hpc hproc hok
  | swtch p =>
    simp only [State.call] at hstep
    split at hstep
    · rename_i hguard
      exact h.swtch hpc hguard.1 hguard.2 hd.1 hd.2 (Option.some.inj hstep)
    · cases hstep
  | setState p st =>
    simp only [State.call] at hstep
    split at hstep
    · rename_i hguard
      cases hstep
      obtain ⟨hsuspended, hsaved⟩ := h.process p hguard.2.1
      have hoff := @Inv.offCpu _ _ _ _ _ s p st _ h hguard.2.1 hsuspended hsaved
      rwa [Function.update_eq_self] at hoff
    · cases hstep
  | allocproc p =>
    simp only [State.call] at hstep
    split at hstep
    · rename_i hguard
      cases hstep
      exact h.offCpu (by rw [hguard.2]; nofun) ⟨rfl, rfl, rfl⟩ (by nofun)
    · cases hstep

/-- **One action keeps the invariant.** -/
theorem step_inv {a : C × Op P L} (h : Inv s) (hd : Disciplined s a)
    (hstep : step s a = some (.ok s')) : Inv s' := by
  obtain ⟨c, op⟩ := a
  unfold step at hstep
  split at hstep
  · rename_i lk hop hpc
    split at hstep
    · cases hstep
    · rename_i hfree
      cases hstep
      exact h.take hpc (by simpa using hfree)
  · rename_i hop hpc
    exact h.popOff ((h.cpu c).mid (by rw [hpc]; nofun)) (Option.some.inj hstep)
  · rename_i hpc
    exact h.call hpc hd hstep
  · cases hstep

/-! ## Runs -/

theorem next_eq_some {a : C × Op P L} : next s a = some s' ↔ step s a = some (.ok s') := by
  unfold next
  cases step s a with
  | none => simp
  | some r => cases r <;> simp [Except.toOption]

theorem run_inv {as : List (C × Op P L)} (hrun : run next State.init as = some s)
    (hd : Along next Disciplined State.init as) : Inv s :=
  run_induct (fun _ _ _ h hok hnext => step_inv h hok (next_eq_some.1 hnext)) Inv.init hrun hd

/-- An action `pop_off` is a `pop_off` of a `push_off`. -/
theorem Inv.pops {r : Except Panic (State C P L)} (h : Inv s) (hd : Disciplined s (c, .popOff))
    (hstep : step s (c, .popOff) = some r) : s.popOff c = r ∧ 0 < (s.running c).pushes := by
  unfold step at hstep
  cases hpc : (s.running c).pc with
  | running =>
    rw [hpc] at hstep
    exact ⟨Option.some.inj hstep, hd.resolve_left (by rw [hpc]; nofun)⟩
  | spinning lk =>
    rw [hpc] at hstep
    cases hstep
  | released =>
    rw [hpc] at hstep
    exact ⟨Option.some.inj hstep, (h.cpu c).mid (by rw [hpc]; nofun)⟩

/-- The other calls have other panics. -/
theorem call_panics {op : Op P L} {e : Panic} (hpop : op ≠ .popOff)
    (hstep : s.call c op = some (.error e)) :
    e ≠ .interruptible ∧ e ≠ .unpair := by
  cases op with
  | popOff => exact absurd rfl hpop
  | sched st =>
    obtain ⟨p, -, hres⟩ := Option.map_eq_some_iff.1 hstep
    simp only [State.sched] at hres
    repeat' split at hres
    all_goals cases hres
    all_goals decide
  | _ =>
    simp only [State.call, State.trap, State.trapReturn, State.acquire, State.release, State.swtch]
      at hstep
    repeat' split at hstep
    all_goals cases hstep
    all_goals decide

/-- **The two panics of an unmatched `pop_off` are not reached.** -/
theorem Inv.panics {a : C × Op P L} {e : Panic} (h : Inv s) (hd : Disciplined s a)
    (hstep : step s a = some (.error e)) : e ≠ .interruptible ∧ e ≠ .unpair := by
  obtain ⟨c, op⟩ := a
  by_cases hpop : op = .popOff
  · subst hpop
    obtain ⟨hres, hpush⟩ := h.pops hd hstep
    unfold State.popOff at hres
    cases hcpu : (s.cpu c).popOff with
    | error e' =>
      rw [hcpu] at hres
      cases hres
      rw [((h.cpu c).popOff hpush).1 e hcpu]
      decide
    | ok k =>
      rw [hcpu] at hres
      cases hres
  · unfold step at hstep
    split at hstep
    · split at hstep <;> cases hstep
    · rename_i hop _
      exact absurd hop hpop
    · exact call_panics hpop hstep
    · cases hstep

/-- **The last `pop_off` of a process sets the interrupts to what they were.** -/
theorem Inv.restores {b : Bool} (h : Inv s) (hd : Disciplined s (c, .popOff))
    (hstep : step s (c, .popOff) = some (.ok s')) (hproc : (s.cpu c).proc = some p)
    (hzero : (s'.thread (.process p)).outstanding = 0)
    (hwas : (s.thread (.process p)).was = some b) :
    (s'.cpu c).intr = b := by
  obtain ⟨hres, hpush⟩ := h.pops hd hstep
  have hrunning : s.running c = s.thread (.process p) := by
    rw [State.running, current_of_some hproc]
  unfold State.popOff at hres
  cases hcpu : (s.cpu c).popOff with
  | error e =>
    rw [hcpu] at hres
    cases hres
  | ok k =>
    rw [hcpu] at hres
    cases hres
    obtain ⟨-, -, hrestores⟩ := ((h.cpu c).popOff hpush).2 k hcpu
    rw [hrunning] at hpush hrestores
    simp only [State.set, current_of_some hproc, hrunning, Function.update_self] at hzero ⊢
    refine hrestores (by simp [hproc]) ?_ b hwas
    simp only [Thread.outstanding] at hzero ⊢
    omega

/-- The locks that a CPU holds are those of its thread. -/
theorem Inv.encard (h : Inv s) (c : C) :
    {lk | holding (s.lock lk) c = true}.encard = (s.running c).held.length := by
  have hset : {lk | holding (s.lock lk) c = true} = ((s.running c).held.toFinset : Set
      (Lock P L)) := by
    ext lk
    simp [(h.cpu c).held]
  rw [hset, Set.encard_coe_eq_coe_finsetCard, List.toFinset_card_of_nodup (h.cpu c).nodup]

/-- **The nesting of interrupt-disabling is exact**, in every run and on every CPU: the counter is
the number of held locks and outstanding `push_off`s, interrupts are off while it is positive,
`pop_off` finds its `push_off`, and the last one of a process sets the interrupts to what they were
before its first `push_off`. -/
theorem nesting_exact {as : List (C × Op P L)} (hrun : run next State.init as = some s)
    (hd : Along next Disciplined State.init as) :
    (∀ c, ((s.cpu c).noff : ℕ∞) = {lk | holding (s.lock lk) c = true}.encard +
      (s.running c).pushes) ∧
      (∀ c, 0 < (s.cpu c).noff → (s.cpu c).intr = false) ∧
      (∀ a e, Disciplined s a → step s a = some (.error e) → e ≠ .interruptible ∧ e ≠ .unpair) ∧
      ∀ c p b s', Disciplined s (c, .popOff) → step s (c, .popOff) = some (.ok s') →
        (s.cpu c).proc = some p →
        (s'.thread (.process p)).outstanding = 0 → (s.thread (.process p)).was = some b →
          (s'.cpu c).intr = b := by
  have hinv := run_inv hrun hd
  refine ⟨fun c => ?_, fun c => (hinv.cpu c).off, fun a e => hinv.panics,
    fun c p b s' => hinv.restores⟩
  rw [hinv.encard, (hinv.cpu c).count, Thread.outstanding, Nat.cast_add]

/-- A process starts, enables interrupts, yields on CPU 0 and goes on to its last `pop_off` on CPU
1. -/
def yieldAway : List (Fin 2 × Op Unit Unit) :=
  [.acquire (.proc ()), .take, .allocproc (), .setState () .runnable, .release (.proc ()), .popOff,
    .acquire (.proc ()), .take, .swtch (), .release (.proc ()), .popOff, .intrOn,
      .acquire (.proc ()), .take,
    .sched .runnable, .release (.proc ()), .popOff].map (0, ·) ++
  [.acquire (.proc ()), .take, .swtch (), .release (.proc ())].map (1, ·)

/-- Interrupts are enabled then, as they were before it took its lock to yield. -/
theorem nesting_exact_yield : ∃ s s', run next State.init yieldAway = some s ∧
    step s (1, .popOff) = some (.ok s') ∧ (s'.cpu 1).intr = true := by
  have hobs : ((run next State.init yieldAway).bind fun s => (next s (1, .popOff)).map fun s' =>
      decide ((s.cpu 1).proc = some () ∧ (s'.thread (.process ())).outstanding = 0 ∧
        (s.thread (.process ())).was = some true ∧ Disciplined s (1, .popOff))) =
          some true := by decide +kernel
  simp only [Option.bind_eq_some_iff, Option.map_eq_some_iff, decide_eq_true_eq] at hobs
  obtain ⟨s, hrun, s', hnext, hproc, hzero, hwas, hd⟩ := hobs
  have hstep := next_eq_some.1 hnext
  exact ⟨s, s', hrun, hstep, (nesting_exact hrun (by decide +kernel)).2.2.2 1
    () true s' hd hstep hproc hzero hwas⟩

end

end

end SignalOS.Sync
