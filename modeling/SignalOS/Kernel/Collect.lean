import SignalOS.Kernel.SpacesRun
import SignalOS.Kernel.Wait
import SignalOS.Kernel.WriteProtect
import SignalOS.Vm.UserRange

/-!
# What `wait` comes to

* `Awaited` — a child that a call of `wait` can wait for.
* `wait_blocks_iff` — **`wait` sleeps only for such a child** exactly if there is one, or
  the caller has no child at all, or it is killed: the loop looks at the pid only of a zombie.
* `wait_collects` — a pass that finds a zombie stores its status where it can, and frees it.
* `wait_delivers_iff` — **the status is delivered or kept** exactly if the address is
  `NULL`, there is nothing to collect, or the status can be stored.
-/

namespace SignalOS

open Partial

variable {k k' : Kernel} {i j child : Slot} {pid : Int} {code : Uint64} {mm : Mm}

/-! ## Going to sleep -/

/-- The process in slot `j` is a child that `wait(pid, code)` of the process in slot `i` can wait
for. -/
def Awaited (pool : Slot → Proc) (i : Slot) (pid : Int) (j : Slot) : Prop :=
  j ≠ i ∧ (pool j).parent = some i ∧ (pool j).state ≠ .unused ∧ (pid ≤ 0 ∨ (pool j).pid = pid)

/-- A pass that collects nothing. -/
theorem wait_of_none (hnone : waitChild k.pool i pid = none) :
    wait i pid code k =
      some (if !haveKids k.pool i || (k.pool i).killed ≠ 0 then some (-ECHILD) else none, k) := by
  rw [wait, get_bind]
  simp only [hnone]
  split <;> rfl

theorem awaited_of_waitChild (h : waitChild k.pool i pid = some j) : Awaited k.pool i pid j := by
  obtain ⟨hne, hparent, hzombie, hwanted⟩ := waitChild_spec h
  exact ⟨hne, hparent, by simp [hzombie], hwanted⟩

theorem waitChild_of_not_awaited (h : ∀ j, ¬ Awaited k.pool i pid j) :
    waitChild k.pool i pid = none :=
  Option.eq_none_iff_forall_ne_some.2 fun j hj => h j (awaited_of_waitChild hj)

/-- A pass that goes to sleep has found children, none of them to collect. -/
theorem wait_blocks (h : wait i pid code k = some (none, k')) :
    waitChild k.pool i pid = none ∧ haveKids k.pool i = true ∧ (k.pool i).killed = 0 := by
  cases hfind : waitChild k.pool i pid with
  | some child => exact absurd (wait_reaps h hfind).1 nofun
  | none =>
    rw [wait_of_none hfind] at h
    have hresult := congrArg Prod.fst (Option.some.inj h)
    dsimp only at hresult
    split at hresult
    · cases hresult
    · rename_i hstays
      simp only [Bool.or_eq_true, Bool.not_eq_true', decide_eq_true_eq, not_or, Bool.not_eq_false,
        not_not] at hstays
      exact ⟨rfl, hstays⟩

/-- `wait(pid, code)` sleeps only if it can succeed, and fails if it cannot. -/
structure WaitsForChild (k : Kernel) (i : Slot) (pid : Int) (code : Uint64) : Prop where
  blocks : ∀ k', wait i pid code k = some (none, k') → ∃ j, Awaited k.pool i pid j
  fails : (∀ j, ¬ Awaited k.pool i pid j) → wait i pid code k = some (some (-ECHILD), k)

/-- **`wait` sleeps only for a child it can wait for** exactly if there is such a child, or no
process at all has the caller as its parent, or the caller is killed. -/
theorem wait_blocks_iff (k : Kernel) (i : Slot) (pid : Int) (code : Uint64) :
    WaitsForChild k i pid code ↔ (∃ j, Awaited k.pool i pid j) ∨
      (∀ j, j ≠ i → (k.pool j).parent ≠ some i) ∨ (k.pool i).killed ≠ 0 := by
  have hkids : haveKids k.pool i = false ↔ ∀ j, j ≠ i → (k.pool j).parent ≠ some i := by
    rw [← Bool.not_eq_true, haveKids_iff]
    simp only [not_exists, not_and, ne_eq]
  constructor
  · intro h
    by_contra hcond
    push Not at hcond
    obtain ⟨hnone, hchild, hkilled⟩ := hcond
    have hfails := h.fails hnone
    have hkids : haveKids k.pool i = true := haveKids_iff.2 hchild
    rw [wait_of_none (waitChild_of_not_awaited hnone), hkids, hkilled] at hfails
    cases hfails
  · intro h
    refine ⟨fun k' hblocks => ?_, fun hnone => ?_⟩
    · obtain ⟨-, hchild, hkilled⟩ := wait_blocks hblocks
      rcases h with hawaited | hnokids | hdead
      · exact hawaited
      · exact absurd (hkids.2 hnokids) (by simp [hchild])
      · exact absurd hkilled hdead
    · rw [wait_of_none (waitChild_of_not_awaited hnone)]
      rcases h with ⟨j, hj⟩ | hnokids | hdead
      · exact absurd hj (hnone j)
      · rw [hkids.2 hnokids]
        rfl
      · simp [hdead]

/-- `init` has one child, with pid 2, and calls `wait(7, NULL)`. -/
def waitForStranger : List Act := forkChild ++ ecall 0 (callRegs .wait 7 0 0)

theorem wait_blocks_for_stranger :
    ∃ k, Reachable k ∧ (k.pool 0).context = .call (.wait 7 0) ∧ ¬ WaitsForChild k 0 7 0 := by
  have hobs : (Runs.run step (boot initMachine) waitForStranger).map
      (fun k => decide ((k.pool 0).context = .call (.wait 7 0) ∧ (k.pool 1).parent = some 0 ∧
        (k.pool 0).killed = 0 ∧ ∀ j, (k.pool j).pid ≠ 7)) = some true := by
    decide +kernel
  simp only [Option.map_eq_some_iff, decide_eq_true_eq] at hobs
  obtain ⟨k, hrun, hcontext, hparent, hkilled, hpids⟩ := hobs
  refine ⟨k, ⟨initMachine, waitForStranger, hrun⟩, hcontext, fun h => ?_⟩
  have hnone : ∀ j, ¬ Awaited k.pool 0 7 j := fun j ⟨_, _, _, hwanted⟩ =>
    hwanted.elim (by decide) (hpids j)
  have hkids : haveKids k.pool 0 = true := haveKids_iff.2 ⟨1, by decide, hparent⟩
  have hfails := h.fails hnone
  rw [wait_of_none (waitChild_of_not_awaited hnone), hkids, hkilled] at hfails
  cases hfails

/-! ## The status -/

/-- Memory with the status differs from the one before in its bytes alone. -/
theorem waitStore_same (k : Kernel) (i : Slot) (mm : Mm) (pid : Int) (code : Uint64) :
    ∃ b, waitStore k i mm pid code = { k.vm with byte := b } := by
  rw [waitStore]
  split
  · obtain ⟨n, -, hmemory⟩ := copyToUser_bytewise k.vm mm code (waitStatus k i pid)
    exact ⟨_, hmemory⟩
  · exact ⟨k.vm.byte, rfl⟩

/-- **A pass that finds a zombie** stores its status where it can, and frees it. -/
theorem wait_collects (h : AddressSpaces k.vm k.pool) (hmm : (k.pool i).mm = some mm)
    (hfind : waitChild k.pool i pid = some child) :
    Ends (wait i pid code) k fun r k' => r = some (k.pool child).pid ∧
      k'.pool = Function.update k.pool child (k.pool child).release ∧
      ∀ va, userByte k'.vm mm va = userByte (waitStore k i mm pid code) mm va := by
  have hne : child ≠ i := (waitChild_spec hfind).1
  have hstatus : waitStatus k i pid = intBytes (k.pool child).exitCode := by
    rw [waitStatus, hfind]
    rfl
  -- the child is freed in memory with the status
  have hfree {k₁ : Kernel} (hpool : k₁.pool = k.pool) (hvm : k₁.vm = waitStore k i mm pid code) :
      Ends (do
        freeproc child
        return some (k.pool child).pid) k₁ fun r k' => r = some (k.pool child).pid ∧
          k'.pool = Function.update k.pool child (k.pool child).release ∧
          ∀ va, userByte k'.vm mm va = userByte (waitStore k i mm pid code) mm va := by
    obtain ⟨b, hb⟩ := waitStore_same k i mm pid code
    have hspaces : AddressSpaces k₁.vm k₁.pool := by
      rw [hpool, hvm, hb]
      exact h.of_tables ⟨rfl, rfl, rfl, rfl⟩
    refine .bind (hspaces.freeproc_ends child) fun _ k' hfreed => ?_
    obtain ⟨hk', hevolves, -⟩ := hfreed
    refine .pure ⟨rfl, ?_, ?_⟩
    · rw [hk', ← hpool]
      rfl
    · have hi : (k₁.pool i).mm = some mm := by rw [hpool]; exact hmm
      intro va
      rw [hevolves.userByte_eq (hspaces.wf i mm hi).good (hspaces.others hevolves hi hne.symm).1,
        hvm]
  refine .get_bind ?_
  rw [hfind]
  refine .ite (fun hcode => ?_) fun hcode => ?_
  · refine .bind_of_eq (getMm_eq_some.2 ⟨hmm, rfl⟩) (.modify_bind (hfree rfl ?_))
    rw [waitStore, if_pos hcode, hstatus]
  · exact hfree rfl (by rw [waitStore, if_neg hcode])

/-- A call of `wait` that finds a child and is given an address delivers the status of the child,
or it fails and leaves the child to be collected later. -/
structure DeliversStatus (k : Kernel) (i : Slot) (mm : Mm) (pid : Int) (code : Uint64) : Prop where
  delivered : ∀ child k', code ≠ 0 → waitChild k.pool i pid = some child →
    wait i pid code k = some (some (k.pool child).pid, k') →
      UserHolds k'.vm mm code (intBytes (k.pool child).exitCode)
  kept : ∀ child r k', code ≠ 0 → waitChild k.pool i pid = some child →
    ¬ UserRange k.vm mm code 4 →
    wait i pid code k = some (some r, k') →
    r < 0 ∧ (k'.pool child).state = .zombie ∧ (k'.pool child).parent = some i ∧
      (k'.pool child).exitCode = (k.pool child).exitCode

/-- **`wait` delivers the status of the child or keeps the child** exactly if it is given no
address, finds no child, or can store the status: it does not look at the result of
`copy_to_user`. -/
theorem wait_delivers_iff (h : AddressSpaces k.vm k.pool) (hmm : (k.pool i).mm = some mm) :
    DeliversStatus k i mm pid code ↔
      code = 0 ∨ waitChild k.pool i pid = none ∨ UserRange k.vm mm code 4 := by
  constructor
  · intro hdelivers
    by_contra hcond
    push Not at hcond
    obtain ⟨hcode, hsome, hrange⟩ := hcond
    obtain ⟨child, hfind⟩ := Option.ne_none_iff_exists'.1 hsome
    obtain ⟨r, k', hrun, rfl, hpool, -⟩ := @wait_collects _ _ _ _ code _ h hmm hfind
    obtain ⟨-, hzombie, -⟩ := hdelivers.kept child _ k' hcode hfind hrange hrun
    rw [hpool, Function.update_self] at hzombie
    exact nomatch hzombie
  · intro hcond
    refine ⟨fun child k' hcode hfind hrun => ?_, fun child r k' hcode hfind hno _ => ?_⟩
    · have hrange : UserRange k.vm mm code 4 :=
        (hcond.resolve_left hcode).resolve_left fun hnone => nomatch hnone.symm.trans hfind
      obtain ⟨-, -, hbytes⟩ := (@wait_collects _ _ _ _ code _ h hmm hfind).elim hrun
      have hstatus : waitStatus k i pid = intBytes (k.pool child).exitCode := by
        rw [waitStatus, hfind]
        rfl
      have hholds :=
        @copyToUser_holds _ _ _ (intBytes (k.pool child).exitCode) (h.wf i mm hmm).good hrange
      intro j hj
      rw [hbytes, waitStore, if_pos hcode, hstatus, hholds j hj]
    · exact absurd ((hcond.resolve_left hcode).resolve_left fun hnone =>
        nomatch hnone.symm.trans hfind) hno

/-- The child of `init` has exited, and `init` calls `wait(-1, code)` with an address in its
stack. -/
def waitAtStack : List Act :=
  forkChild ++ exitChild ++ ecall 0 (callRegs .wait (ofInt (-1)) 0xfffef000 0)

theorem wait_delivers_at_page : ∃ k mm, Reachable k ∧ (k.pool 0).mm = some mm ∧
    (k.pool 0).context = .call (.wait (-1) 0xfffef000) ∧ waitChild k.pool 0 (-1) = some 1 ∧
    (k.pool 1).mm.isSome ∧ DeliversStatus k 0 mm (-1) 0xfffef000 := by
  have hother : Runs.Along step (fun k a => a.callsOther k) (boot initMachine) waitAtStack := by
    decide +kernel
  have hobs : (Runs.run step (boot initMachine) waitAtStack).map (fun k => decide
      ((k.pool 0).context = .call (.wait (-1) 0xfffef000) ∧ waitChild k.pool 0 (-1) = some 1 ∧
        (k.pool 1).mm.isSome ∧
        (k.pool 0).mm.map (fun mm => decide (Reached k.vm mm 0xfffef000 3)) = some true)) =
          some true := by
    decide +kernel
  simp only [Option.map_eq_some_iff, decide_eq_true_eq] at hobs
  obtain ⟨k, hrun, hcontext, hfind, hchild, mm, hmm, hreached⟩ := hobs
  have hspaces := addressSpaces_initMachine hrun hother
  exact ⟨k, mm, ⟨initMachine, waitAtStack, hrun⟩, hmm, hcontext, hfind, hchild,
    (wait_delivers_iff hspaces hmm).2 (.inr (.inr (reached_iff.1 hreached)))⟩

/-- The child of `init` has exited, and `init` calls `wait(-1, 8)`, with nothing mapped at 8. -/
def waitAtBadAddress : List Act :=
  forkChild ++ exitChild ++ ecall 0 (callRegs .wait (ofInt (-1)) 8 0)

theorem wait_loses_status : ∃ k mm, Reachable k ∧ (k.pool 0).mm = some mm ∧
    (k.pool 0).context = .call (.wait (-1) 8) ∧ ¬ DeliversStatus k 0 mm (-1) 8 := by
  have hobs : (Runs.run step (boot initMachine) waitAtBadAddress).map (fun k => decide
      ((k.pool 0).context = .call (.wait (-1) 8) ∧ waitChild k.pool 0 (-1) = some 1 ∧
        (k.pool 0).mm.map (fun mm => walkaddr k.vm mm 0) = some 0 ∧
        (wait 0 (-1) 8 k).map (fun r => (r.1, (r.2.pool 1).state)) = some (some 2, .unused))) =
          some true := by
    decide +kernel
  simp only [Option.map_eq_some_iff, decide_eq_true_eq] at hobs
  obtain ⟨k, hrun, hcontext, hfind, ⟨mm, hmm, hwalk⟩, ⟨r, k'⟩, hwait, hresult⟩ := hobs
  rw [Prod.mk.injEq] at hresult
  obtain ⟨hr, hstate⟩ := hresult
  dsimp only at hr hstate
  subst hr
  refine ⟨k, mm, ⟨initMachine, waitAtBadAddress, hrun⟩, hmm, hcontext, fun hdelivers => ?_⟩
  have hrange : ¬ UserRange k.vm mm 8 4 := by
    intro hrange
    have hvalid := (hrange 0 (by decide)).2
    exact userPa_ne_none.2 hvalid (userPa_eq_none.2 hwalk)
  obtain ⟨hneg, -⟩ := hdelivers.kept 1 2 k' (by decide) hfind hrange hwait
  exact absurd hneg (by decide)

end SignalOS
