import SignalOS.Kernel.Inversion

/-!
# The run queue

The processes in `task_queue`, the processes that a CPU has popped and the
processes whose state is `RUNNABLE`.

* `RunQueue` — a runnable process waits in the queue once, or one CPU has popped it;
  `RunQueue.step` — every step keeps it so.
* `runQueue_reachable` — **in every reachable state**, and nothing has been reported:
  the scheduler has skipped no process, `add_task` has changed no state, and the
  queue has not overflowed.
-/

namespace SignalOS

variable {k k' : Kernel} {a : Act}

/-- A runnable process is in the queue, or a CPU has popped it; no other process is. -/
structure RunQueue (k : Kernel) : Prop where
  queued : Queued k
  popped : ∀ c j, k.cpus c = .popped j → (k.pool j).state = .runnable ∧ j ∉ k.taskQueue
  unique : ∀ c c' j, k.cpus c = .popped j → k.cpus c' = .popped j → c = c'
  runnable : ∀ j, (k.pool j).state = .runnable → j ∈ k.taskQueue ∨ ∃ c, k.cpus c = .popped j
  quiet : k.log = []

namespace RunQueue

/-- Processes are queued as they become runnable, and the CPUs keep what they have popped. -/
theorem of_queues (hI : RunQueue k) (hqueues : Queues k k')
    (hcpus : ∀ c j, k'.cpus c = .popped j ↔ k.cpus c = .popped j) : RunQueue k' := by
  obtain ⟨hlog, woken, hqueue, -, hwoken⟩ := hqueues.added hI.queued
  refine ⟨hqueues.queued hI.queued, fun c j hpop => ?_, fun c c' j hpop hpop' => ?_,
    fun j hj => ?_,
    hlog.trans hI.quiet⟩
  · obtain ⟨hrunnable, hnotin⟩ := hI.popped c j ((hcpus c j).1 hpop)
    refine ⟨hqueues.stays j hrunnable, ?_⟩
    rw [hqueue, List.mem_append, not_or, hwoken]
    exact ⟨hnotin, fun h => h.1 hrunnable⟩
  · exact hI.unique c c' j ((hcpus c j).1 hpop) ((hcpus c' j).1 hpop')
  · simp only [hqueue, List.mem_append, hcpus]
    by_cases hbefore : (k.pool j).state = .runnable
    · exact (hI.runnable j hbefore).imp .inl id
    · exact .inl (.inr ((hwoken j).2 ⟨hbefore, hj⟩))

/-- A CPU pops the first process of the queue. -/
theorem fetch {c : CpuId} {j : Slot} {rest : List Slot} (hI : RunQueue k) (hcpu : k.cpus c = .idle)
    (hqueue : k.taskQueue = j :: rest) :
    RunQueue { k with taskQueue := rest, cpus := Function.update k.cpus c (.popped j) } := by
  have hnodup : j ∉ rest ∧ rest.Nodup := by
    have h := hI.queued.nodup
    rwa [hqueue, List.nodup_cons] at h
  have hhead : j ∈ k.taskQueue := hqueue ▸ List.mem_cons_self
  have hrest {i : Slot} (hi : i ∈ rest) : i ∈ k.taskQueue := hqueue ▸ List.mem_cons_of_mem j hi
  have hcases {c' : CpuId} {i : Slot} (h : Function.update k.cpus c (.popped j) c' = .popped i) :
      c' = c ∧ i = j ∨ c' ≠ c ∧ k.cpus c' = .popped i := by
    by_cases hc : c' = c
    · subst hc
      rw [Function.update_self] at h
      exact .inl ⟨rfl, (CpuState.popped.inj h).symm⟩
    · rw [Function.update_of_ne hc] at h
      exact .inr ⟨hc, h⟩
  refine ⟨⟨hnodup.2, fun i hi => hI.queued.runnable i (hrest hi)⟩, fun c' i h => ?_,
    fun c' c'' i h h' => ?_, fun i hi => ?_, hI.quiet⟩
  · rcases hcases h with ⟨-, rfl⟩ | ⟨-, h⟩
    · exact ⟨hI.queued.runnable i hhead, hnodup.1⟩
    · exact ⟨(hI.popped c' i h).1, fun hi => (hI.popped c' i h).2 (hrest hi)⟩
  · rcases hcases h with ⟨rfl, rfl⟩ | ⟨-, hold⟩ <;> rcases hcases h' with ⟨rfl, heq⟩ | ⟨-, hold'⟩
    · rfl
    · exact absurd hhead (hI.popped c'' i hold').2
    · exact absurd hhead (heq ▸ (hI.popped c' i hold).2)
    · exact hI.unique c' c'' i hold hold'
  · dsimp only
    by_cases hij : i = j
    · exact .inr ⟨c, by rw [Function.update_self, hij]⟩
    · rcases hI.runnable i hi with hmem | ⟨c', hpop⟩
      · rw [hqueue, List.mem_cons] at hmem
        exact .inl (hmem.resolve_left hij)
      · refine .inr ⟨c', ?_⟩
        rw [Function.update_of_ne, hpop]
        rintro rfl
        exact nomatch hcpu.symm.trans hpop

/-- A CPU runs the process it has popped. -/
theorem switch {c : CpuId} {j : Slot} (hI : RunQueue k) (hcpu : k.cpus c = .popped j) :
    RunQueue { k.setProc j { k.pool j with state := .running } with
      cpus := Function.update k.cpus c (.running j) } := by
  have hne {i : Slot} (h : ((k.setProc j { k.pool j with state := .running }).pool i).state =
    .runnable) :
      i ≠ j := by
    rintro rfl
    rw [Kernel.setProc_pool_self] at h
    cases h
  have hnotin := (hI.popped c j hcpu).2
  have hstays {i : Slot} (hij : i ≠ j) :
      (k.setProc j { k.pool j with state := .running }).pool i = k.pool i :=
    Kernel.setProc_pool_of_ne hij _ _
  have hcases {c' : CpuId} {i : Slot} (h : Function.update k.cpus c (.running j) c' = .popped i) :
      i ≠ j ∧ k.cpus c' = .popped i := by
    have hc : c' ≠ c := by
      rintro rfl
      rw [Function.update_self] at h
      cases h
    rw [Function.update_of_ne hc] at h
    refine ⟨?_, h⟩
    rintro rfl
    exact hc (hI.unique c' c i h hcpu)
  refine ⟨⟨hI.queued.nodup, fun i hi => ?_⟩, fun c' i h => ?_, fun c' c'' i h h' => ?_,
    fun i hi => ?_,
    hI.quiet⟩
  · have hij : i ≠ j := by
      rintro rfl
      exact hnotin hi
    dsimp only
    rw [hstays hij]
    exact hI.queued.runnable i hi
  · obtain ⟨hij, hpop⟩ := hcases h
    dsimp only
    rw [hstays hij]
    exact hI.popped c' i hpop
  · exact hI.unique c' c'' i (hcases h).2 (hcases h').2
  · have hij := hne hi
    dsimp only at hi ⊢
    rw [hstays hij] at hi
    refine (hI.runnable i hi).imp id fun ⟨c', hpop⟩ => ⟨c', ?_⟩
    rw [Function.update_of_ne, hpop]
    rintro rfl
    exact hij (CpuState.popped.inj (hpop.symm.trans hcpu))

/-- **Every step keeps the run queue.** -/
theorem step (hsched : Sched k) (hI : RunQueue k) (h : step k a = some k') : RunQueue k' := by
  cases step_cases hsched h with
  | table h => exact hI.of_queues h.queues fun c j => by rw [h.cpus]
  | fetch c j rest hcpu hqueue h => exact h ▸ hI.fetch hcpu hqueue
  | skip c j hcpu hstate => exact absurd (hI.popped c j hcpu).1 hstate
  | switch c j hcpu hstate h => exact h ▸ hI.switch hcpu
  | own c i k1 p hcpu hrun h hown pool pids cpus queues =>
    refine hI.of_queues (h.queues.trans queues) fun c' j => ?_
    rw [cpus]
    split
    · exact Iff.rfl
    · by_cases hc : c' = c
      · rw [hc, Function.update_self, hcpu]
        exact iff_of_false nofun nofun
      · rw [Function.update_of_ne hc]

theorem boot (m : Machine) : RunQueue (boot m) :=
  ⟨⟨.nil, nofun⟩, nofun, nofun, nofun, rfl⟩

end RunQueue

theorem Reachable.runQueue (h : Reachable k) : RunQueue k := by
  obtain ⟨m, h⟩ := h
  have hinv := h.induct (I := fun k => Sched k ∧ RunQueue k) ⟨Sched.boot m, RunQueue.boot m⟩
    fun _ _ _ hI hstep => ⟨hI.1.step hstep, hI.2.step hI.1 hstep⟩
  exact hinv.2

/-- **The run queue.**  In every reachable state a runnable process is in the queue once and no CPU
has popped it, or it is not in the queue and exactly one CPU has; any other process is neither; no
process runs on two CPUs; and nothing has been reported. -/
theorem runQueue_reachable (h : Reachable k) :
    (∀ j, (k.pool j).state = .runnable →
      (k.taskQueue.count j = 1 ∧ ∀ c, k.cpus c ≠ .popped j) ∨
        (k.taskQueue.count j = 0 ∧ ∃! c, k.cpus c = .popped j)) ∧
    (∀ j, (k.pool j).state ≠ .runnable → j ∉ k.taskQueue ∧ ∀ c, k.cpus c ≠ .popped j) ∧
    (∀ c c' j, k.cpus c = .running j → k.cpus c' = .running j → c = c') ∧ k.log = [] := by
  have hI := h.runQueue
  refine ⟨fun j hj => ?_, fun j hj => ⟨?_, ?_⟩, h.sched.unique, hI.quiet⟩
  · by_cases hmem : j ∈ k.taskQueue
    · exact .inl ⟨List.count_eq_one_of_mem hI.queued.nodup hmem,
        fun c hpop => (hI.popped c j hpop).2 hmem⟩
    · obtain ⟨c, hpop⟩ := (hI.runnable j hj).resolve_left hmem
      exact .inr ⟨List.count_eq_zero.2 hmem, c, hpop, fun c' hpop' => hI.unique c' c j hpop' hpop⟩
  · exact fun hmem => hj (hI.queued.runnable j hmem)
  · exact fun c hpop => hj (hI.popped c j hpop).1

/-- The child of `init` waits in the queue. -/
theorem runQueue_reachable_forkChild :
    ∃ k, Runs.run step (boot initMachine) forkChild = some k ∧ (k.pool 1).state = .runnable ∧
      ((k.taskQueue.count 1 = 1 ∧ ∀ c, k.cpus c ≠ .popped 1) ∨
        (k.taskQueue.count 1 = 0 ∧ ∃! c, k.cpus c = .popped 1)) ∧ k.log = [] := by
  have hobs : ((Runs.run step (boot initMachine) forkChild).map fun k =>
      decide ((k.pool 1).state = .runnable)) = some true := by decide +kernel
  simp only [Option.map_eq_some_iff, decide_eq_true_eq] at hobs
  obtain ⟨k, hrun, hrunnable⟩ := hobs
  obtain ⟨hqueue, -, -, hlog⟩ := runQueue_reachable ⟨initMachine, forkChild, hrun⟩
  exact ⟨k, hrun, hrunnable, hqueue 1 hrunnable, hlog⟩

end SignalOS
