import SignalOS.Kernel.SpacesCalls
import SignalOS.Vm.Contents

/-!
# The address spaces of all processes, over whole runs

* `AddressSpaces.repairFault` — the handler of page faults.
* `thread_separate`, `step_separate` — **a step keeps the address spaces apart**.
* `addressSpaces_run` — **so does every run whose calls of `exec` and `sbrk` meet their
  contracts**.
-/

namespace SignalOS

open Partial

variable {vm vm' : Vm} {mm : Mm} {pool : Slot → Proc} {i : Slot} {p : Proc} {k k' : Kernel}
  {a : Act} {c : CpuId}

/-! ## Page faults -/

/-- Bits of the entry of a page are set that are not about who may use it. -/
theorem MmWf.setBits {v : Vpn} {t bits : Uint64} (h : MmWf vm mm) (hbits : IsFlags bits)
    (hother : bits &&& (PTE_V ||| PERM) = 0)
    (ht : tableAt vm.pte mm.pgt (.last v.l2 v.l1) = some t)
    (hvalid : entryAt vm.pte mm.pgt v &&& PTE_V ≠ 0) :
    MmWf (vm.setPte t v.l0.word (entryAt vm.pte mm.pgt v ||| bits)) mm ∧
      Evolves (Owns vm mm.pgt) (Owns (vm.setPte t v.l0.word (entryAt vm.pte mm.pgt v ||| bits))
        mm.pgt) vm (vm.setPte t v.l0.word (entryAt vm.pte mm.pgt v ||| bits)) := by
  have hkeep {m : Uint64} (e : Uint64) (hm : m &&& (PTE_V ||| PERM) = m) :
      (e ||| bits) &&& m = e &&& m := by
    have hzero : bits &&& m = 0 := by
      rw [← hm, BitVec.and_comm m, ← BitVec.and_assoc, hother]
      exact BitVec.zero_and
    rw [BitVec.and_or_distrib_right, hzero]
    exact BitVec.or_zero
  have hframe (e : Uint64) : frameOf (e ||| bits) = frameOf e := by
    rw [frameOf, frameOf, hkeep e (by decide), hkeep e (by decide), PTE2PA_or hbits]
  have hleaf : Leaf (entryAt vm.pte mm.pgt v ||| bits) := by
    rw [Leaf, hkeep _ (by decide), hkeep _ (by decide)]
    refine (h.good.leaf v).resolve_left fun hzero => ?_
    rw [hzero] at hvalid
    exact hvalid zero_and_V
  have hbecomes := h.good.setFlags ht (hframe _) hleaf
  -- the entries differ in these bits alone
  have hsame {m : Uint64} (w : Vpn) (hm : m &&& (PTE_V ||| PERM) = m) :
      Function.update (entryAt vm.pte mm.pgt) v (entryAt vm.pte mm.pgt v ||| bits) w &&& m =
        entryAt vm.pte mm.pgt w &&& m := by
    rw [Function.update_apply]
    split
    · rename_i heq
      rw [heq, hkeep _ hm]
    · rfl
  refine ⟨⟨⟨hbecomes.good, h.range, fun w => ?_, fun w q => ?_⟩, h.flags,
    fun vma hvma va hva => ?_, h.disjoint⟩, hbecomes.evolves⟩
  · rw [hbecomes.entries, hsame w (by decide), hsame w (by decide)]
    exact h.kernel w
  · rw [frameAt, hbecomes.entries, Function.update_apply]
    split
    · rename_i heq
      rw [hframe, heq]
      exact h.covered v q
    · exact h.covered w q
  · rw [Permits, hbecomes.entries, hsame _ (by decide), hsame _ (by decide)]
    exact h.mapped vma hvma va hva

/-- The handler of page faults sets accessed and dirty bits. -/
theorem AddressSpaces.repairFault {addr : Uint64} {store r : Bool} (h : AddressSpaces vm pool)
    (hi : (pool i).mm = some mm) (hrun : SignalOS.repairFault mm addr store vm = some (r, vm')) :
    AddressSpaces vm' pool := by
  have hwf := h.wf i mm hi
  have hkept (hrun' : SignalOS.repairFault mm addr store vm = some (false, vm)) :
      AddressSpaces vm' pool := by
    rw [hrun, Option.some.injEq, Prod.mk.injEq] at hrun'
    rw [hrun'.2]
    exact h
  -- the process has the same pages before and after
  have hset {v : Vpn} {t bits : Uint64} (hbits : IsFlags bits)
      (hother : bits &&& (PTE_V ||| PERM) = 0)
      (ht : tableAt vm.pte mm.pgt (.last v.l2 v.l1) = some t)
      (hvalid : entryAt vm.pte mm.pgt v &&& PTE_V ≠ 0) :
      AddressSpaces (vm.setPte t v.l0.word (entryAt vm.pte mm.pgt v ||| bits)) pool := by
    obtain ⟨hset, hevolves⟩ := hwf.setBits hbits hother ht hvalid
    rw [← Function.update_eq_self i pool]
    refine h.replace (hevolves.congr (Proc.owns_some hi) fun _ => Iff.rfl) hset.good.free
      (fun mm' hmm => ?_) fun q => (Proc.owns_some hi q).1
    obtain rfl := Option.some.inj (hi.symm.trans hmm)
    exact ⟨hset, h.refcnt i mm hi⟩
  cases hva : IS_USER_VA addr with
  | false =>
    refine hkept (bind_eq_some.2 ⟨none, vm, ?_, rfl⟩)
    rw [walk, hva]
    rfl
  | true =>
    have hwalk := walk_find hva vm mm
    cases ht : tableAt vm.pte mm.pgt (.last (vpn addr).l2 (vpn addr).l1) with
    | none =>
      rw [ht] at hwalk
      exact hkept (bind_eq_some.2 ⟨none, vm, hwalk, rfl⟩)
    | some t =>
      rw [ht] at hwalk
      rw [SignalOS.repairFault, bind_apply hwalk] at hrun
      dsimp only [Option.map_some] at hrun
      rw [bind_apply (loadPte_entry ht)] at hrun
      cases he : missingBits (entryAt vm.pte mm.pgt (vpn addr)) store with
      | none =>
        rw [he] at hrun
        obtain ⟨-, rfl⟩ := pure_eq_some.1 hrun
        exact h
      | some e =>
        rw [he] at hrun
        obtain ⟨-, rfl⟩ : r = true ∧ vm' = vm.setPte t (vpn addr).l0.word e := by
          cases hrun
          exact ⟨rfl, rfl⟩
        rw [missingBits] at he
        split at he
        · rename_i hmissing
          obtain rfl := Option.some.inj he
          split
          · rw [BitVec.or_assoc]
            exact hset (by decide) (by decide) ht hmissing.1
          · exact hset (by decide) (by decide) ht hmissing.1
        · cases he

/-! ## Steps -/

theorem reparent_separate (i : Slot) : KeepsSeparate (reparent i) := by
  intro k r k' h hk
  simp only [reparent, get_bind, bind_eq_some (x := set _)] at h
  obtain ⟨_, _, hset, h⟩ := h
  cases hset
  obtain ⟨-, rfl⟩ := pure_eq_some.1 h
  refine hk.of_same ⟨.refl _, fun j => ?_, rfl⟩
  dsimp only
  split
  · rfl
  · rfl

theorem timerTick_separate : KeepsSeparate timerTick :=
  .bind .get fun _ => .ite .fail (.bind (.modify fun _ => ⟨.refl _, fun _ => rfl, rfl⟩) fun _ =>
    wakeup_separate _)

theorem takeSignal_mm {signo : Signo} {q : Proc}
    (h : takeSignal signo p = .next q ∨ takeSignal signo p = .handler q) : q.mm = p.mm := by
  have hcase := takeSignal_cases signo p
  rcases h with h | h
  · rw [h] at hcase
    cases hcase with
    | cont => simp only [Proc.delPending, Proc.cancelStop]
    | _ => rfl
  · rw [h] at hcase
    cases hcase
    rfl

theorem signalTurn_separate (signo : Signo) (rest : List Signo) :
    KeepsSeparate (signalTurn i signo rest) := by
  intro k r k' h hk
  simp only [signalTurn, getProc_bind] at h
  cases htaken : takeSignal signo (k.pool i) with
  | next q =>
    simp only [htaken, modifyProc_bind, pure_eq_some] at h
    exact h.2 ▸ hk.of_same (.of_setProc (takeSignal_mm (.inl htaken)))
  | handler q =>
    simp only [htaken, modifyProc_bind, pure_eq_some] at h
    exact h.2 ▸ hk.of_same (.of_setProc (takeSignal_mm (.inr htaken)))

theorem handlerTurn_separate (signo : Signo) (rest : List Signo) (info : Siginfo) :
    KeepsSeparate (handlerTurn i signo rest info) := by
  intro k r k' h hk
  simp only [handlerTurn, bind_eq_some (x := getMm _), getMm_eq_some, getProc_bind, get_bind] at h
  obtain ⟨mm, k₁, ⟨-, rfl⟩, h⟩ := h
  by_cases hmap : FrameMapped k₁.vm mm (k₁.pool i)
  · simp only [startHandler_of_mapped hmap, modifyProc_bind, modify_bind, pure_eq_some] at h
    obtain ⟨-, rfl⟩ := h
    refine (hk.of_same (.of_setProc ?_)).of_same ⟨⟨rfl, rfl, rfl, rfl⟩, fun _ => rfl, rfl⟩
    rfl
  · simp only [startHandler_of_unmapped hmap, modifyProc_bind, modify_bind, pure_eq_some] at h
    obtain ⟨-, rfl⟩ := h
    exact (hk.of_same (.of_setProc rfl)).of_same ⟨.refl _, fun _ => rfl, rfl⟩

theorem usertrap_separate (cause : Cause) : KeepsSeparate (usertrap c i cause) := by
  cases cause with
  | timer =>
    rw [usertrap]
    split
    · exact .bind timerTick_separate fun _ => .pure _
    · exact .bind (.pure _) fun _ => .pure _
  | external | interrupt => exact .pure _
  | ecall =>
    refine .bind (.getProc _) fun p => ?_
    dsimp only
    split
    · exact .pure _
    · exact .bind (.modifyProc fun _ => rfl) fun _ => .pure _
  | pageFault addr store =>
    intro k r k' h hk
    simp only [usertrap, bind_eq_some (x := getMm _), getMm_eq_some,
      bind_eq_some (x := liftVm _)] at h
    obtain ⟨mm, k₁, ⟨hmm, rfl⟩, repaired, k₂, hlift, h⟩ := h
    obtain ⟨vm', hrun, rfl⟩ := liftVm_eq_some.1 hlift
    have hk₁ : Separate { k₁ with vm := vm' } := ⟨hk.spaces.repairFault hmm hrun, hk.loadable⟩
    split at h
    · exact (pure_eq_some.1 h).2 ▸ hk₁
    · have hlast : KeepsSeparate (do
          setkilled i (-2)
          return .goto (.stillAlive false) : KM Next) :=
        .bind (.modifyProc fun _ => rfl) fun _ => .pure _
      exact hlast _ _ _ h hk₁
  | exception => exact .bind (.modifyProc fun _ => rfl) fun _ => .pure _

/-- A step of a kernel thread keeps the address spaces apart, when its system call meets its
contract. -/
theorem thread_separate {context : Context} {next : Next}
    (hmeets : context = .syscall → CallMeets k i)
    (h : thread c i context k = some (next, k')) (hk : Separate k) : Separate k' := by
  have hkeeps (hx : KeepsSeparate (thread c i context)) : Separate k' := hx _ _ _ h hk
  cases context with
  | none | user | dead => exact hkeeps .fail
  | firstSchedRet => exact hkeeps (.bind (.getProc _) fun p => .ite (.pure _) .fail)
  | usertrap cause => exact hkeeps (usertrap_separate cause)
  | syscall =>
    obtain ⟨o, k₁, hcall, h⟩ := bind_eq_some.1 h
    have hk₁ := syscall_separate (hmeets rfl) hcall hk
    split at h
    all_goals exact (pure_eq_some.1 h).2 ▸ hk₁
  | call b =>
    refine hkeeps (.bind (acquireLock_separate _ _) fun _ => .bind (turn_separate _ _) fun r => ?_)
    split
    · exact .bind (releaseLock_separate _) fun _ => .bind (.modifyProc fun _ => rfl) fun _ =>
        .pure _
    · exact .pure _
  | sleep b =>
    exact hkeeps (.bind (releaseLock_separate _) fun _ => .bind (.modifyProc fun _ => rfl) fun _ =>
      .pure _)
  | asleep b => exact hkeeps (.bind (.modifyProc fun _ => rfl) fun _ => .pure _)
  | sysYield => exact hkeeps (.bind (.modifyProc fun _ => rfl) fun _ => .pure _)
  | stillAlive timer =>
    exact hkeeps (.bind (.getProc _) fun p => .ite (.pure _) (.ite (.pure _) (.pure _)))
  | yield | yielded | stop | stopped | jump => exact hkeeps (.pure _)
  | doSignal signos =>
    cases signos with
    | nil => exact hkeeps (.pure _)
    | cons signo rest => exact hkeeps (signalTurn_separate _ _)
  | copyInfo signo rest fields info =>
    cases fields with
    | nil => exact hkeeps (handlerTurn_separate _ _ _)
    | cons f fields => exact hkeeps (.bind (.getProc _) fun p => .pure _)
  | stillAliveAfterSignal => exact hkeeps (.bind (.getProc _) fun p => .ite (.pure _) (.pure _))
  | usertrapret => exact hkeeps (.bind (.getProc _) fun p => .ite (.pure _) (.pure _))
  | clearNeedStop => exact hkeeps (.bind (.modifyProc fun _ => rfl) fun _ => .pure _)
  | exit code =>
    exact hkeeps (.bind .get fun k => .ite .fail (.bind (.getProc _) fun p => .pure _))
  | reparent code parentProc =>
    refine hkeeps (.bind (acquireLock_separate _ _) fun _ => .bind (reparent_separate i)
      fun wakeinit => .ite (.pure _) ?_)
    split
    · exact .pure _
    · exact .bind .get fun k => .ite
        (.bind (.getProc _) fun p => .bind (releaseLock_separate _) fun _ => .pure _) (.pure _)
  | notifyParent code ppid =>
    exact hkeeps (.bind (.discard (sysSigkill_separate _ _ _ _)) fun _ => .pure _)
  | wakeInit code =>
    exact hkeeps (.bind .get fun k => .bind (wakeup_separate _) fun _ => .pure _)
  | wakeParent code =>
    exact hkeeps (.bind (acquireLock_separate _ _) fun _ => .bind (.getProc _) fun p =>
      .bind (wakeup_separate _) fun _ => .pure _)
  | finish code => exact hkeeps (.bind (releaseLock_separate _) fun _ => .pure _)

theorem carryOn_separate (c : CpuId) (i : Slot) (next : Next) :
    KeepsSeparate (carryOn c i next) := by
  have hcpu (s : CpuState) : KeepsSeparate (setCpu c s) :=
    .modify fun _ => ⟨.refl _, fun _ => rfl, rfl⟩
  cases next with
  | goto context =>
    exact KeepsSeparate.modifyProc (f := fun p => { p with context := context }) fun _ => rfl
  | sched state context =>
    refine .bind (.modifyProc fun _ => rfl) fun _ => .bind (hcpu _) fun _ => ?_
    split
    · exact addTask_separate i
    · exact .pure _
  | die code => exact .bind (.modifyProc fun _ => rfl) fun _ => hcpu _

/-- A system call that an act makes meets its contract. -/
def Act.Meets (k : Kernel) : Act → Prop
  | .exec c => ∀ i, k.cpus c = .running i → (k.pool i).context = .syscall → CallMeets k i
  | _ => True

/-- **A step keeps the address spaces apart.** -/
theorem step_separate (hmeets : a.Meets k) (h : step k a = some k') (hk : Separate k) :
    Separate k' := by
  have hkeeps (hx : KeepsSeparate (act a)) : Separate k' := hx _ _ _ (act_of_step h) hk
  have hrunning (c : CpuId) : KeepsSeparate (runningOn c) := by
    refine .bind .get fun k => ?_
    split
    · exact .pure _
    · exact .fail
  have hcpu (c : CpuId) (s : CpuState) : KeepsSeparate (setCpu c s) :=
    .modify fun _ => ⟨.refl _, fun _ => rfl, rfl⟩
  cases a with
  | loadInitApp => exact hkeeps (.bind .get fun k => .ite loadInitApp_separate .fail)
  | fetch c =>
    have hact := act_of_step h
    simp only [act, get_bind] at hact
    cases hidle : k.cpus c with
    | idle =>
      cases hqueue : k.taskQueue with
      | nil =>
        simp only [hidle, hqueue] at hact
        cases hact
      | cons i rest =>
        simp only [hidle, hqueue] at hact
        cases hact
        exact hk.of_same ⟨.refl _, fun _ => rfl, rfl⟩
    | _ =>
      simp only [hidle] at hact
      cases hact
  | switchTo c =>
    refine hkeeps (.bind .get fun k => ?_)
    split
    · exact .bind (.getProc _) fun p => .ite
        (.bind (.modifyProc fun _ => rfl) fun _ => hcpu _ _)
        (.bind (.modify fun _ => ⟨.refl _, fun _ => rfl, rfl⟩) fun _ => hcpu _ _)
    · exact .fail
  | tick => exact hkeeps timerTick_separate
  | consIntr ch =>
    refine hkeeps (.bind .get fun k => .ite .fail (.bind .get fun k =>
      .bind (.modify fun _ => ⟨.refl _, fun _ => rfl, rfl⟩) fun _ => ?_))
    split
    · exact wakeup_separate _
    · exact .pure _
  | userStore c va b =>
    refine hkeeps (.bind (hrunning c) fun i => .bind (.getMm _) fun mm =>
      .bind (.getProc _) fun p => .ite (.bind .get fun k => ?_) .fail)
    split
    · exact .fail
    · exact .modify fun _ => ⟨⟨rfl, rfl, rfl, rfl⟩, fun _ => rfl, rfl⟩
  | trap c cause tf =>
    exact hkeeps (.bind (hrunning c) fun i => .bind (.getProc _) fun p =>
      .ite (.modifyProc fun _ => rfl) .fail)
  | exec c =>
    have hact := act_of_step h
    simp only [act, bind_eq_some (x := runningOn _), runningOn_eq_some] at hact
    obtain ⟨i, _, ⟨hrun, rfl⟩, hact⟩ := hact
    simp only [getProc_bind, bind_eq_some] at hact
    obtain ⟨next, k₁, hthread, hcarry⟩ := hact
    exact carryOn_separate _ _ _ _ _ _ hcarry (thread_separate (hmeets i hrun) hthread hk)

/-! ## Runs -/

theorem separate_boot {m : Machine} (hfree : FreeOk m.vm)
    (hload : ∀ app ∈ m.userApps, ∀ phdr ∈ loads app.phdrs, phdr.Loadable) : Separate (boot m) := by
  have hnone (i : Slot) : ((boot m).pool i).mm = none := rfl
  refine ⟨⟨hfree, fun i mm hmm => ?_, fun i mm hmm => ?_, fun i j q _ hown => ?_⟩, hload⟩
  · exact nomatch (hnone i).symm.trans hmm
  · exact nomatch (hnone i).symm.trans hmm
  · exact absurd hown (Proc.owns_none (hnone i) q)

/-- **The address spaces of all processes are in good order and apart** at the end of every run
whose calls of `exec` and `sbrk` meet their contracts. -/
theorem addressSpaces_run {m : Machine} {as : List Act} (hfree : FreeOk m.vm)
    (hload : ∀ app ∈ m.userApps, ∀ phdr ∈ loads app.phdrs, phdr.Loadable)
    (hrun : Runs.run step (boot m) as = some k)
    (hmeets : Runs.Along step (fun k a => a.Meets k) (boot m) as) : AddressSpaces k.vm k.pool :=
  (Runs.run_induct (I := Separate) (fun _ _ _ hk ha h => step_separate ha h hk)
    (separate_boot hfree hload) hrun hmeets).spaces

/-- The act makes no call of `exec` or `sbrk`. -/
def Act.callsOther (k : Kernel) : Act → Bool
  | .exec c =>
    match k.cpus c with
    | .running i => Sysno.ofId (toInt (k.pool i).trapframe.a7) ∉ [some .exec, some .sbrk]
    | _ => true
  | _ => true

theorem Act.meets_of_callsOther (h : a.callsOther k) : a.Meets k := by
  cases a with
  | exec c =>
    intro i hrun _
    rw [Act.callsOther, hrun] at h
    have hother := of_decide_eq_true h
    rw [List.mem_pair, not_or] at hother
    exact ⟨fun hexec => absurd hexec hother.1, fun hsbrk => absurd hsbrk hother.2⟩
  | _ => trivial

/-- A run without calls of `exec` and `sbrk`, of the machine whose only program is `init`. -/
theorem addressSpaces_initMachine {as : List Act}
    (hrun : Runs.run step (boot initMachine) as = some k)
    (hother : Runs.Along step (fun k a => a.callsOther k) (boot initMachine) as) :
    AddressSpaces k.vm k.pool := by
  refine addressSpaces_run freeOk_initVm (fun app happ phdr hphdr => ?_) hrun
    (hother.mono fun _ _ => Act.meets_of_callsOther)
  obtain rfl := List.mem_singleton.1 happ
  exact nomatch hphdr

end SignalOS
