import SignalOS.Kernel.Step
import SignalOS.Kernel.Spaces
import SignalOS.Proc.Exhaustion
import SignalOS.Proc.LoadElf
import SignalOS.Vm.Copy

/-!
# `fork` and `exec` without memory

* `Starved` — a call needs a page when none is left: with more free pages it would have
  done something else.
* `Unchanged` — the free pages, the pools of objects, the slots and the caller are as
  they were.
* `fork_exec_atomic` — **`fork` and `exec` fail as a whole.**
-/

namespace SignalOS

open Partial

/-- The same kernel with more free pages. -/
def Kernel.more (l : List Uint64) (k : Kernel) : Kernel := { k with vm := k.vm.more l }

/-- From `k`, the call asks for a page when none is left. -/
def Starved {α : Type} (x : KM α) (k : Kernel) : Prop := ∃ l, ¬ CommutesAt (Kernel.more l) x k

/-- What a failed call leaves behind. -/
structure Unchanged (k : Kernel) (curr : Slot) (mm : Mm) (k' : Kernel) : Prop where
  /-- The same free pages, each of them once. -/
  free : k'.vm.freelist.Perm k.vm.freelist
  mms : k'.vm.mmAllocator = k.vm.mmAllocator
  vmas : k'.vm.vmaAllocator = k.vm.vmaAllocator
  slots : ∀ i, (k'.pool i).state = (k.pool i).state
  caller : k'.pool curr = k.pool curr
  entries : entryAt k'.vm.pte mm.pgt = entryAt k.vm.pte mm.pgt
  memory : ∀ va, userByte k'.vm mm va = userByte k.vm mm va

/-- A process that calls `fork` or `exec`, and pools of objects. -/
structure Caller (k : Kernel) (curr : Slot) (mm : Mm) : Prop where
  state : (k.pool curr).state ≠ .unused
  space : (k.pool curr).mm = some mm
  wf : MmWf k.vm mm
  refcnt : 0 < mm.refcnt
  ordered : ∀ vma ∈ mm.vma, vma.vmStart ≤ vma.vmEnd
  mms : 0 ∉ k.vm.mmAllocator
  vmas : 0 ∉ k.vm.vmaAllocator

variable {k k' : Kernel} {curr i : Slot} {mm new child : Mm} {vm vm₁ vm₂ vm' : Vm}
  {l : List Uint64} {α : Type}

/-- The overlap check lets the vmas of the caller pass. -/
theorem Caller.clear (h : Caller k curr mm) : mm.vma.reverse.Pairwise Clear := by
  refine List.pairwise_reverse.2 (h.wf.disjoint.imp_of_mem fun {a b} ha hb hdisjoint => ?_)
  by_cases heq : b.vmStart = b.vmEnd
  · exact .inl heq
  · have hlt : b.vmStart < b.vmEnd := by
      have hle := h.ordered b hb
      rw [← BitVec.toNat_inj] at heq
      rw [BitVec.le_def] at hle
      rw [BitVec.lt_def]
      omega
    refine .inr (Bool.eq_false_iff.2 fun hhit => ?_)
    obtain ⟨va, h₁, h₂, h₃, h₄⟩ := (meets_iff hlt).2 (.inl (hit_iff.1 hhit))
    exact hdisjoint _ ((h.wf.range a ha).page_mem h₃ h₄) ((h.wf.range b hb).page_mem h₁ h₂)

/-! ## What the kernel notices -/

theorem liftVm_commutesAt {x : VmM α} (h : CommutesAt (Vm.more l) x k.vm) :
    CommutesAt (Kernel.more l) (liftVm x) k := by
  show (x (k.vm.more l)).map _ = ((x k.vm).map _).map _
  rw [h, Option.map_map, Option.map_map]
  rfl

theorem getProc_commutes (i : Slot) : Commutes (Kernel.more l) (getProc i) :=
  .get_bind (fun _ => rfl) fun _ => .pure _

theorem modifyProc_commutes (i : Slot) (f : Proc → Proc) :
    Commutes (Kernel.more l) (modifyProc i f) :=
  .modify fun _ => rfl

theorem allocproc_commutes : Commutes (Kernel.more l) allocproc := by
  have hpool (k : Kernel) : (k.more l).pool = k.pool := rfl
  have hpids (k : Kernel) : (k.more l).pids = k.pids := rfl
  refine .get_bind (fun k => by rw [hpool, hpids]) fun k => ?_
  cases (List.finRange NPROC).find? fun i => (k.pool i).state = .unused with
  | none => exact .pure _
  | some i =>
    exact .bind (.modify fun _ => rfl) fun _ => .bind (modifyProc_commutes _ _) fun _ => .pure _

theorem addTask_commutes (i : Slot) : Commutes (Kernel.more l) (addTask i) := by
  have hpush : Commutes (Kernel.more l) (modify fun k => k.pushQueue i : KM Unit) := by
    refine .modify fun k => ?_
    show (if k.taskQueue.length = NPROC then _ else _) = Kernel.more l (if k.taskQueue.length =
      NPROC then _ else _)
    split
    · rfl
    · rfl
  refine .bind (getProc_commutes i) fun p => .ite ?_ hpush
  exact .bind (.modify fun _ => rfl) fun _ => .bind (modifyProc_commutes _ _) fun _ => hpush

theorem brkStart_commutes (p : Proc) (mm : Mm) : Commutes (Kernel.more l) (brkStart p mm) := by
  unfold brkStart
  cases mm.vma.find? fun vma => vma.addr = p.vmaBrk with
  | none => exact .fail
  | some vma => exact .pure _

/-! ## Nothing is lost -/

theorem Unchanged.of_evolves (h : Caller k curr mm)
    (hevolves : Evolves (fun _ => False) (fun _ => False) k.vm k'.vm)
    (hfree : FreeOk k'.vm) (hmms : k'.vm.mmAllocator = k.vm.mmAllocator)
    (hvmas : k'.vm.vmaAllocator = k.vm.vmaAllocator)
    (hslots : ∀ i, (k'.pool i).state = (k.pool i).state) (hcaller : k'.pool curr = k.pool curr) :
    Unchanged k curr mm k' := by
  have havoids : Avoids k.vm mm.pgt fun _ => False := fun _ _ hno => hno
  refine ⟨?_, hmms, hvmas, hslots, hcaller, hevolves.entryAt_eq h.wf.good havoids,
    hevolves.userByte_eq h.wf.good havoids⟩
  refine (List.perm_ext_iff_of_nodup hfree.nodup h.wf.good.free.nodup).2 fun p => ?_
  have hpages := hevolves.pages p
  rwa [or_false, or_false] at hpages

/-! ## `fork` -/

section Fork

variable {k₁ : Kernel} (halloc : allocproc k = some (some i, k₁))
  (hcreate : mmCreate (k₁.pool i).trapframePa k₁.vm = some (some new, vm₁))

theorem allocproc_eq (h : allocproc k = some (some i, k₁)) : (k.pool i).state = .unused ∧
    k₁ = { k with pids := k.pids + 1 }.setProc i ((k.pool i).allocate (wrapInt (k.pids + 1))) := by
  simp only [allocproc, get_bind] at h
  cases hfind : (List.finRange NPROC).find? fun j => (k.pool j).state = .unused with
  | none =>
    simp only [hfind, pure_eq_some] at h
    cases h.1
  | some j =>
    simp only [hfind, modify_bind, modifyProc_bind, pure_eq_some] at h
    obtain ⟨hr, rfl⟩ := h
    cases hr
    exact ⟨by simpa using List.find?_some hfind, rfl⟩

include halloc hcreate

/-- Up to the copy of the address space. -/
theorem fork_run (hspace : (k₁.pool curr).mm = some mm) {r : Int × Mm}
    (hcopy : mmCopy mm new vm₁ = some (r, vm₂)) :
    fork curr k = (if r.1 < 0 then do
      modifyProc i fun np => { np with mm := some r.2 }
      freeproc i
      return r.1
    else do
      let start ← brkStart (k₁.pool curr) mm
      modifyProc i fun np => np.becomeChild (k₁.pool curr) curr r.2 start
      addTask i
      return (← getProc i).pid : KM Int) { k₁ with vm := vm₂ } := by
  rw [fork, bind_apply halloc]
  show (getProc i >>= _) k₁ = _
  rw [getProc_bind, bind_apply (liftVm_eq_some.2 ⟨vm₁, hcreate, rfl⟩)]
  have hmm : getMm curr { k₁ with vm := vm₁ } = some (mm, { k₁ with vm := vm₁ }) :=
    getMm_eq_some.2 ⟨hspace, rfl⟩
  show (getProc curr >>= _) { k₁ with vm := vm₁ } = _
  rw [getProc_bind, bind_apply hmm, bind_apply (liftVm_eq_some.2 ⟨vm₂, hcopy, rfl⟩)]

/-- If the copy succeeds, no page was missing. -/
theorem fork_commutesAt (hspace : (k₁.pool curr).mm = some mm) {r : Int × Mm}
    (hcopy : mmCopy mm new vm₁ = some (r, vm₂))
    (hr : 0 ≤ r.1) : CommutesAt (Kernel.more l) (fork curr) k := by
  have halloc' : allocproc (k.more l) = some (some i, k₁.more l) := by
    rw [allocproc_commutes k, halloc]
    rfl
  have hcreate' := mmCreate_commutesIf (l := l) _ _ _ _ hcreate rfl
  have hcopy' := mmCopyLoop_commutesIf (l := l) _ _ _ _ _ _ hcopy hr
  show fork curr (k.more l) = (fork curr k).map _
  rw [fork_run halloc hcreate hspace hcopy,
    fork_run (k := k.more l) halloc' hcreate' hspace hcopy']
  rw [if_neg (not_lt.2 hr), if_neg (not_lt.2 hr)]
  have htail : Commutes (Kernel.more l) (do
      let start ← brkStart (k₁.pool curr) mm
      modifyProc i fun np => np.becomeChild (k₁.pool curr) curr r.2 start
      addTask i
      return (← getProc i).pid : KM Int) :=
    .bind (brkStart_commutes _ _) fun _ => .bind (modifyProc_commutes _ _) fun _ =>
      .bind (addTask_commutes _) fun _ =>
      .bind (getProc_commutes _) fun _ => .pure _
  exact htail { k₁ with vm := vm₂ }

omit hcreate in
/-- The caller is not the new process. -/
theorem Caller.ne (h : Caller k curr mm) : curr ≠ i := by
  rintro rfl
  exact h.state (allocproc_eq halloc).1

/-- **`fork` fails as a whole.** -/
theorem fork_starved (h : Caller k curr mm) (hpool : mm.vma.length ≤ vm₁.vmaAllocator.length)
    (hstarved : Starved (fork curr) k) : Ends (fork curr) k fun ret k' => ret < 0 ∧
    Unchanged k curr mm k' := by
  obtain ⟨hunused, hk₁⟩ := allocproc_eq halloc
  have hne := h.ne halloc
  have hvm : k₁.vm = k.vm := by rw [hk₁]; rfl
  have hcurr : k₁.pool curr = k.pool curr := by rw [hk₁, Kernel.setProc_pool_of_ne hne]
  have hspace : (k₁.pool curr).mm = some mm := by rw [hcurr, h.space]
  have hcreated :=
    (@mmCreate_ends _ True _ h.wf.good.free (.inl trivial) (.inl trivial)).elim (hvm ▸ hcreate)
  cases hcreated with
  | @created _ obj pgt good evolves entries mms vmas =>
    have havoids : Avoids k.vm mm.pgt fun _ => False := fun _ _ hno => hno
    have hwf₁ := h.wf.other evolves havoids good.free
    have hends : Ends (mmCopy mm ⟨obj, pgt, [], 1⟩) vm₁ (CopyEnds mm ⟨obj, pgt, [],
        1⟩ mm.vma vm₁) :=
      (mmCopyLoop_ends (C := False) hwf₁.good (.created good entries)
        (evolves.apart h.wf.good havoids)
        (fun vma hvma => ⟨h.wf.range vma hvma, h.wf.flags vma hvma⟩)
        (fun vma hvma va hva => ⟨_, (hwf₁.mapped vma hvma va hva).frame (h.wf.flags vma hvma)⟩)
          (.inr hpool)).total not_false
    obtain ⟨r, vm₂, hcopy, hr⟩ := hends
    cases hr with
    | copied hcopied =>
      obtain ⟨l, hno⟩ := hstarved
      exact absurd (fork_commutesAt halloc hcreate hspace hcopy le_rfl) hno
    | failed tidy evolves' mms' objs =>
      -- the slot with the empty address space is freed
      have hclear : (mm.vma.reverse ++ []).Pairwise Clear := by
        rw [List.append_nil]
        exact h.clear
      have hvmas₂ : vm₂.vmaAllocator = k.vm.vmaAllocator := by
        rw [objs (by rw [vmas]; exact h.vmas) hclear, vmas]
        rfl
      let k₂ : Kernel := { k₁ with vm := vm₂ }
      let k₃ := k₂.setProc i { k₂.pool i with mm := some ⟨obj, pgt, [], 1⟩ }
      have hmm : (k₃.pool i).mm = some ⟨obj, pgt, [], 1⟩ := by rw [Kernel.setProc_pool_self]
      have hfreed : Ends (freeproc i >>= fun _ => pure (-ENOMEM) : KM Int) k₃ fun ret k' =>
          ret < 0 ∧ Unchanged k curr mm k' := by
        refine .bind (freeproc_ends hmm tidy (show (0 : Int) < 1 by decide)) ?_
        rintro _ k₄ ⟨hk₄, hevolves, hfree, hmms, hvmas⟩
        have hpool₄ : k₄.pool = Function.update k₃.pool i (k₃.pool i).release := by rw [hk₄]; rfl
        have hothers {j : Slot} (hji : j ≠ i) : k₄.pool j = k.pool j := by
          rw [hpool₄, Function.update_of_ne hji, Kernel.setProc_pool_of_ne hji]
          show k₁.pool j = k.pool j
          rw [hk₁, Kernel.setProc_pool_of_ne hji]
        refine .pure ⟨by decide, .of_evolves h ((evolves.trans evolves').trans hevolves)
          hfree ?_ ?_ (fun j => ?_) ?_⟩
        · have hobj : obj ≠ 0 := fun heq => h.mms (by rw [mms, heq]; exact List.mem_cons_self)
          rw [hmms, mms]
          show pushObj obj vm₂.mmAllocator = _
          rw [mms']
          exact if_neg hobj
        · rw [hvmas]
          exact hvmas₂
        · by_cases hji : j = i
          · rw [hji, hpool₄, Function.update_self]
            exact hunused.symm
          · rw [hothers hji]
        · exact hothers hne
      obtain ⟨ret, k', hrun, hQ⟩ := hfreed
      exact ⟨ret, k', (fork_run halloc hcreate hspace hcopy).trans hrun, hQ⟩

end Fork

/-! ## `exec` -/

section Exec

variable {app : UserApp} {p : Proc} {args : List (List Byte)} {ret : Int} {name : List Byte}
  {space : Mm × Uint64 × Uint64}

/-- If the pages of the image are mapped, none was missing. -/
theorem buildImage_commutesAt (h : mapImage app new vm = some (.ok space, vm')) :
    CommutesAt (Vm.more l) (buildImage app new args) vm := by
  rw [buildImage_eq]
  refine .bind ((mapImage_commutesIf app new).commutesAt h trivial) fun b vm _ => ?_
  cases b with
  | bad ret mm => exact Commutes.pure _ vm
  | ok space =>
    exact Commutes.bind (pushStrings_commutes _ _ _)
      (fun _ => .bind (pushArgv_commutes _ _ _) fun _ => .pure _) vm

/-- If they are not, the arguments make no difference. -/
theorem buildImage_of_bad (h : mapImage app new vm = some (.bad ret child, vm'))
    (args : List (List Byte)) :
    buildImage app new args vm = some (.bad ret child, vm') := by
  rw [buildImage_eq]
  exact bind_eq_some.2 ⟨_, _, h, rfl⟩

theorem loadUserElf_commutesAt (hstate : p.state ≠ .unused)
    (hcreate : mmCreate p.trapframePa vm = some (some new, vm₁))
    (h : mapImage app new vm₁ = some (.ok space, vm')) :
    CommutesAt (Vm.more l) (loadUserElf app p args) vm := by
  refine .bind (kassert_commutes _ vm) fun _ vm₀ hassert => ?_
  rw [kassert_true (bne_iff_ne.2 hstate)] at hassert
  cases hassert
  refine .bind ((mmCreate_commutesIf _).commutesAt hcreate rfl) fun r vm₀ hr => ?_
  rw [hcreate] at hr
  cases hr
  refine .bind (buildImage_commutesAt h) fun r vm₀ _ => ?_
  cases r with
  | bad ret child => exact Commutes.bind (mmFree_commutes child) (fun _ => .pure _) vm₀
  | ok img =>
    dsimp only
    cases p.mm with
    | none => exact Commutes.pure _ vm₀
    | some old => exact Commutes.bind (mmFree_commutes old) (fun _ => .pure _) vm₀

theorem exec_commutesAt (happ : getElf k.userApps name = some app)
    (h : CommutesAt (Vm.more l) (loadUserElf app (k.pool curr) args) k.vm) :
    CommutesAt (Kernel.more l) (exec curr name args) k := by
  refine .get_bind rfl ?_
  rw [happ]
  refine .bind (getProc_commutes curr k) fun p k₀ hp => ?_
  obtain ⟨rfl, rfl⟩ := getProc_eq_some.1 hp
  refine .bind (liftVm_commutesAt h) fun r k₁ _ => ?_
  refine Commutes.ite (.pure _) ?_ k₁
  exact .bind (modifyProc_commutes _ _) fun _ => .pure _

/-- **`exec` fails as a whole.** -/
theorem exec_starved (h : Caller k curr mm) (happ : getElf k.userApps name = some app)
    (hload : ∀ phdr ∈ loads app.phdrs, phdr.Loadable)
    (hclear : (imageVmas (loads app.phdrs) ((loads app.phdrs).map fun _ => 0) 0 0).Pairwise Clear)
    (hcreate : mmCreate (k.pool curr).trapframePa k.vm = some (some new, vm₁))
    (hpool : (loads app.phdrs).length + 2 ≤ vm₁.vmaAllocator.length)
    (hstarved : Starved (exec curr name args) k) :
    Ends (exec curr name args) k fun ret k' => ret < 0 ∧ Unchanged k curr mm k' := by
  have hcreated :=
    (@mmCreate_ends _ True _ h.wf.good.free (.inl trivial) (.inl trivial)).elim hcreate
  cases hcreated with
  | @created _ obj pgt good evolves entries mms vmas =>
    -- the arguments come after the last page
    have hends : Ends (buildImage app ⟨obj, pgt, [], 1⟩ []) vm₁ (BuildEnds app [] ⟨obj, pgt, [],
        1⟩ vm₁) :=
      (buildImage_ends (C := False) hload (by decide) (.created good entries) (.inr hpool)).total
        not_false
    obtain ⟨r, vm₂, hbuild, hr⟩ := hends
    rw [buildImage_eq] at hbuild
    obtain ⟨b, vm₃, hspace, hfill⟩ := bind_eq_some.1 hbuild
    cases b with
    | ok space =>
      obtain ⟨l, hno⟩ := hstarved
      exact absurd (exec_commutesAt happ (loadUserElf_commutesAt h.state hcreate hspace)) hno
    | bad ret child =>
      obtain ⟨rfl, rfl⟩ := pure_eq_some.1 hfill
      cases hr with
      | bad neg tidy evolves' mms' pool =>
        have hbad := buildImage_of_bad hspace args
        have hfreed := freeImage_ends evolves mms vmas tidy evolves' mms' pool
        have hrun : Ends (loadUserElf app (k.pool curr) args) k.vm fun r vm' =>
          r = (ret, k.pool curr) ∧
            Evolves (fun _ => False) (fun _ => False) k.vm vm' ∧ FreeOk vm' ∧
              vm'.mmAllocator = k.vm.mmAllocator ∧
            vm'.vmaAllocator = k.vm.vmaAllocator := by
          refine .bind_of_eq (kassert_true (bne_iff_ne.2 h.state))
            (.bind_of_eq hcreate (.bind_of_eq hbad ?_))
          refine .bind hfreed fun _ vm' hall => .pure ⟨rfl, ?_⟩
          obtain ⟨hevolves, hfree, hmms, hvmas⟩ := hall
          exact ⟨hevolves, hfree, hmms h.mms, hvmas h.vmas hclear⟩
        refine .get_bind ?_
        rw [happ]
        refine .bind_of_eq (a := k.pool curr) (t := k) rfl (.bind (liftVm_ends hrun) ?_)
        rintro _ k₁ ⟨hk₁, rfl, hevolves, hfree, hmms, hvmas⟩
        refine .ite (fun _ => .pure ⟨neg, .of_evolves h hevolves hfree hmms hvmas
          (fun i => ?_) ?_⟩) fun hno => absurd neg hno
        · rw [hk₁]
        · rw [hk₁]

end Exec

/-- **`fork` and `exec` fail as a whole** if a page is missing once the new address space was made:
they return an error, and nothing is lost. -/
theorem fork_exec_atomic (h : Caller k curr mm) :
    (∀ i k₁ new vm₁, allocproc k = some (some i, k₁) →
      mmCreate (k₁.pool i).trapframePa k₁.vm = some (some new, vm₁) →
        mm.vma.length ≤ vm₁.vmaAllocator.length →
      Starved (fork curr) k → Ends (fork curr) k fun ret k' => ret < 0 ∧ Unchanged k curr mm k') ∧
    (∀ name args app new vm₁, getElf k.userApps name = some app → (∀ phdr ∈ loads app.phdrs,
      phdr.Loadable) →
      (imageVmas (loads app.phdrs) ((loads app.phdrs).map fun _ => 0) 0 0).Pairwise Clear →
      mmCreate (k.pool curr).trapframePa k.vm = some (some new, vm₁) →
      (loads app.phdrs).length + 2 ≤ vm₁.vmaAllocator.length →
      Starved (exec curr name args) k → Ends (exec curr name args) k fun ret k' => ret < 0 ∧
        Unchanged k curr mm k') :=
  ⟨fun _ _ _ _ halloc hcreate hpool => fork_starved halloc hcreate h hpool,
    fun _ _ _ _ _ happ hload hclear hcreate hpool =>
      exec_starved h happ hload hclear hcreate hpool⟩

theorem Starved.of_returned {x : KM Int} (h : (x (k.more l)).map Prod.fst ≠ (x k).map Prod.fst) :
    Starved x k := by
  refine ⟨l, fun hcommutes => h ?_⟩
  rw [hcommutes, Option.map_map]
  rfl

def morePages : List Uint64 := (List.range 32).map fun n => BitVec.ofNat 64 (0x200000 + 0x1000 * n)

/-- A process with one page; the slots after it are unused. -/
def onePageKernel (mm : Option Mm) (vm : Vm) : Kernel :=
  { boot ⟨vm, [twoSegments], fun _ => 0x90000000, fun _ => .zero⟩ with
    pool := fun i =>
      if i = 0 then { Proc.zero 0x90000000 .zero with
        state := .running, pid := 1, mm := mm, vmaBrk := 7 }
      else Proc.zero 0x90001000 .zero }

/-- Both calls would end in another way if there were more pages. -/
theorem fork_exec_atomic_onePage : ∃ vm mm, Caller (onePageKernel (some mm) vm) 0 mm ∧
    Ends (fork 0) (onePageKernel (some mm) vm) (fun ret k' => ret < 0 ∧
      Unchanged (onePageKernel (some mm) vm) 0 mm k') ∧
    Ends (exec 0 INIT_PROC []) (onePageKernel (some mm) vm)
      (fun ret k' => ret < 0 ∧ Unchanged (onePageKernel (some mm) vm) 0 mm k') := by
  have hobs : (mmWith ⟨7, 0x1000, 0x2000, PTE_R ||| PTE_W ||| PTE_U⟩ (fewPages 10)).map
    (fun r => decide (r.1.isSome ∧
      ((fork 0 ((onePageKernel r.1 r.2).more morePages)).map Prod.fst ≠
        (fork 0 (onePageKernel r.1 r.2)).map Prod.fst ∧
      (exec 0 INIT_PROC [] ((onePageKernel r.1 r.2).more morePages)).map Prod.fst ≠
        (exec 0 INIT_PROC [] (onePageKernel r.1 r.2)).map Prod.fst) ∧
      ((mmCreate 0x90001000 r.2).map (fun c => decide (c.1.isSome ∧ 1 ≤ c.2.vmaAllocator.length)) =
        some true ∧
      (mmCreate 0x90000000 r.2).map (fun c => decide (c.1.isSome ∧ 4 ≤ c.2.vmaAllocator.length)) =
        some true) ∧
      (allocproc (onePageKernel r.1 r.2)).map Prod.fst = some (some 1) ∧
      0 ∉ r.2.mmAllocator ∧ 0 ∉ r.2.vmaAllocator ∧ r.1.map Mm.refcnt = some 1)) =
        some true := by decide +kernel
  obtain ⟨⟨r, vm⟩, hwith, hobs⟩ := Option.map_eq_some_iff.1 hobs
  obtain ⟨hsome, ⟨hfork, hexec⟩, ⟨hchild, himage⟩, halloc, hmms, hvmas, hrefcnt⟩ :=
    of_decide_eq_true hobs
  obtain ⟨mm, rfl⟩ := Option.isSome_iff_exists.1 hsome
  obtain ⟨⟨child, vm₁⟩, hchild, hobs⟩ := Option.map_eq_some_iff.1 hchild
  obtain ⟨hsome, hpool⟩ := of_decide_eq_true hobs
  obtain ⟨child, rfl⟩ := Option.isSome_iff_exists.1 hsome
  obtain ⟨⟨image, vm₂⟩, himage, hobs⟩ := Option.map_eq_some_iff.1 himage
  obtain ⟨hsome, hpool₂⟩ := of_decide_eq_true hobs
  obtain ⟨image, rfl⟩ := Option.isSome_iff_exists.1 hsome
  obtain ⟨hwf, hvma⟩ := mmWith_wf (freeOk_fewPages 10) ⟨by decide, by decide, by decide, by decide⟩
    ⟨by decide, by decide, by decide⟩ hwith
  have hcaller : Caller (onePageKernel (some mm) vm) 0 mm := by
    refine ⟨?_, rfl, hwf, ?_, ?_, hmms, hvmas⟩
    · show ProcState.running ≠ .unused
      decide
    · rw [Option.some.inj hrefcnt]
      decide
    · rw [hvma]
      simp
  obtain ⟨⟨i, k₁⟩, halloc, rfl⟩ := Option.map_eq_some_iff.1 halloc
  obtain ⟨-, rfl⟩ := allocproc_eq halloc
  obtain ⟨hforks, hexecs⟩ := fork_exec_atomic hcaller
  refine ⟨vm, mm, hcaller, hforks 1 _ child vm₁ halloc ?_ ?_ (.of_returned hfork),
    hexecs INIT_PROC [] twoSegments image vm₂ rfl twoSegments_loadable (by decide) himage hpool₂
      (.of_returned hexec)⟩
  · rw [Kernel.setProc_pool_self]
    exact hchild
  · rw [hvma]
    exact hpool

end SignalOS
