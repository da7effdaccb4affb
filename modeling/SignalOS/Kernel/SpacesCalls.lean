import SignalOS.Kernel.ExecArgs
import SignalOS.Kernel.Inversion
import SignalOS.Kernel.NoMemory
import SignalOS.Kernel.Sbrk
import SignalOS.Kernel.WriteProtect
import SignalOS.Vm.UserRange

/-!
# System calls and the address spaces of all processes

* `Separate` — the address spaces are in good order and apart, and the programs in the
  kernel's image can be loaded.
* `SameSpaces`, `KeepsSeparate` — what leaves the address spaces alone, and what does not
  break the invariant.
* `fork_separate`, `exec_separate`, `sysSbrk_separate`, … — the operations of the kernel.
* `CallMeets` — the contract of a call: what `exec` and `sbrk` rely on and do not check.
* `syscall_separate` — **a system call that meets its contract keeps the invariant**.
-/

namespace SignalOS

open Partial

variable {vm vm' : Vm} {mm : Mm} {pool : Slot → Proc} {i : Slot} {p : Proc} {k k' : Kernel}
  {α β : Type}

/-! ## The page tables -/

/-- No run of a computation on memory changes the page tables. -/
def KeepsTables (x : VmM α) : Prop := Keeps SameTables x

theorem kallocStr_tables : KeepsTables kallocStr := by
  intro vm obj vm' h
  rw [kallocStr, kalloc] at h
  split at h
  · cases h
  · cases h
    exact ⟨rfl, rfl, rfl, rfl⟩

theorem kfreeStr_tables (obj : Uint64) : KeepsTables (kfreeStr obj) := by
  intro vm u vm' h
  cases h
  split
  · exact .refl vm
  · exact ⟨rfl, rfl, rfl, rfl⟩

theorem kfreeStrs_tables (objs : List Uint64) : KeepsTables (objs.forM kfreeStr) :=
  Keeps.forM SameTables.refl (fun _ _ _ => SameTables.trans) kfreeStr_tables

theorem readArgs_tables (mm : Mm) (argv : Uint64) (n : Nat) :
    KeepsTables (readArgs mm argv n) := by
  induction n generalizing argv with
  | zero => exact Keeps.fail
  | succ n ih =>
    refine Keeps.bind (fun _ _ _ => SameTables.trans) (.get .refl) fun vm => ?_
    refine .ite (.pure .refl _) (.ite (.pure .refl _) ?_)
    refine Keeps.bind (fun _ _ _ => SameTables.trans) kallocStr_tables fun obj =>
      Keeps.bind (fun _ _ _ => SameTables.trans) (.get .refl) fun vm => ?_
    dsimp only
    refine .ite (.ite .fail (.pure .refl _)) ?_
    exact Keeps.bind (fun _ _ _ => SameTables.trans) (ih (argv + 8)) fun r => .pure .refl _

/-! ## The invariant -/

/-- The address spaces are in good order and apart, and new ones can be made. -/
structure Separate (k : Kernel) : Prop where
  spaces : AddressSpaces k.vm k.pool
  /-- The programs in the kernel's image can be loaded. -/
  loadable : ∀ app ∈ k.userApps, ∀ phdr ∈ loads app.phdrs, phdr.Loadable

/-- The address spaces of both states are the same. -/
structure SameSpaces (k k' : Kernel) : Prop where
  tables : SameTables k.vm k'.vm
  mm : ∀ i, (k'.pool i).mm = (k.pool i).mm
  userApps : k'.userApps = k.userApps

theorem Separate.of_same (h : Separate k) (hsame : SameSpaces k k') : Separate k' :=
  ⟨(h.spaces.of_tables hsame.tables).congr_pool hsame.mm, hsame.userApps ▸ h.loadable⟩

theorem SameSpaces.of_setProc (hmm : p.mm = (k.pool i).mm) : SameSpaces k (k.setProc i p) := by
  refine ⟨.refl _, fun j => ?_, rfl⟩
  by_cases hj : j = i
  · rw [hj, Kernel.setProc_pool_self, hmm]
  · rw [Kernel.setProc_pool_of_ne hj]

/-- No run of the computation breaks the invariant. -/
def KeepsSeparate (x : KM α) : Prop := Keeps (fun k k' => Separate k → Separate k') x

namespace KeepsSeparate

theorem pure (x : α) : KeepsSeparate (Pure.pure x) := Keeps.pure (fun _ => id) x

theorem fail : KeepsSeparate (fun _ => none : KM α) := Keeps.fail

theorem bind {x : KM α} {f : α → KM β} (hx : KeepsSeparate x) (hf : ∀ b, KeepsSeparate (f b)) :
    KeepsSeparate (x >>= f) :=
  Keeps.bind (fun _ _ _ h h' hk => h' (h hk)) hx hf

theorem get : KeepsSeparate (MonadState.get : KM Kernel) := Keeps.get fun _ => id

/-- The address spaces are left alone. -/
theorem modify {f : Kernel → Kernel} (hf : ∀ k, SameSpaces k (f k)) :
    KeepsSeparate (modify f : KM Unit) :=
  Keeps.modify fun k hk => hk.of_same (hf k)

theorem ite {c : Prop} [Decidable c] {x y : KM α} (hx : KeepsSeparate x) (hy : KeepsSeparate y) :
    KeepsSeparate (if c then x else y) := Keeps.ite hx hy

theorem forM {l : List β} {g : β → KM Unit} (hg : ∀ b, KeepsSeparate (g b)) :
    KeepsSeparate (l.forM g) :=
  Keeps.forM (fun _ => id) (fun _ _ _ h h' hk => h' (h hk)) hg

theorem discard {x : KM α} (hx : KeepsSeparate x) : KeepsSeparate (Functor.discard x) := by
  intro k u k' h
  obtain ⟨b, hx'⟩ := discard_eq_some.1 h
  exact hx _ _ _ hx'

theorem getProc (i : Slot) : KeepsSeparate (getProc i) := bind get fun _ => pure _

theorem getMm (i : Slot) : KeepsSeparate (getMm i) := by
  intro k mm k' h
  obtain ⟨-, rfl⟩ := getMm_eq_some.1 h
  exact id

theorem modifyProc {f : Proc → Proc} (hf : ∀ p, (f p).mm = p.mm) :
    KeepsSeparate (modifyProc i f) :=
  modify fun _ => .of_setProc (hf _)

theorem liftVm {x : VmM α} (hx : KeepsTables x) : KeepsSeparate (liftVm x) := by
  intro k b k' h hk
  obtain ⟨vm', hx', rfl⟩ := liftVm_eq_some.1 h
  exact hk.of_same ⟨hx _ _ _ hx', fun _ => rfl, rfl⟩

end KeepsSeparate

/-! ## The operations of the kernel -/

theorem pushQueue_separate (k : Kernel) (i : Slot) : SameSpaces k (k.pushQueue i) := by
  rw [Kernel.pushQueue]
  split
  · exact ⟨.refl _, fun _ => rfl, rfl⟩
  · exact ⟨.refl _, fun _ => rfl, rfl⟩

theorem addTask_separate (i : Slot) : KeepsSeparate (addTask i) := by
  refine .bind (.getProc i) fun p => ?_
  dsimp only
  split
  · exact .bind (.modify fun _ => ⟨.refl _, fun _ => rfl, rfl⟩) fun _ =>
      .bind (.modifyProc fun _ => rfl) fun _ => .modify fun k => pushQueue_separate k i
  · exact .modify fun k => pushQueue_separate k i

/-- A process that was changed under its lock has the address space that it had. -/
theorem storeProc_separate {r : Proc × Bool} {u : Unit} (hmm : r.1.mm = (k.pool i).mm)
    (h : storeProc i r k = some (u, k')) (hk : Separate k) : Separate k' := by
  rw [storeProc, modifyProc_bind] at h
  have hset : Separate (k.setProc i r.1) := hk.of_same (.of_setProc hmm)
  split at h
  · exact addTask_separate i _ _ _ h hset
  · exact (pure_eq_some.1 h).2 ▸ hset

theorem wakeup_separate (chan : Option Chan) : KeepsSeparate (wakeup chan) := by
  refine .forM fun i => ?_
  intro k u k' h
  rw [getProc_bind] at h
  split at h
  · exact storeProc_separate rfl h
  · exact (pure_eq_some.1 h).2 ▸ id

theorem freeproc_separate (i : Slot) : KeepsSeparate (freeproc i) := by
  intro k u k' h hk
  obtain ⟨hk', -, hspaces⟩ := (hk.spaces.freeproc_ends i).elim h
  refine ⟨hspaces, ?_⟩
  rw [hk']
  exact hk.loadable

theorem sysSigkill_separate (curr : Slot) (pid signo code : Int) :
    KeepsSeparate (sysSigkill curr pid signo code) := by
  intro k r k' h
  rw [sysSigkill] at h
  cases hsigno : toSigno signo with
  | none =>
    simp only [hsigno, pure_eq_some] at h
    exact h.2 ▸ id
  | some s =>
    simp only [hsigno, get_bind] at h
    cases hfind : findByPid k.pool pid with
    | none =>
      simp only [hfind, pure_eq_some] at h
      exact h.2 ▸ id
    | some j =>
      simp only [hfind, bind_eq_some, pure_eq_some] at h
      obtain ⟨_, k₁, hstore, -, rfl⟩ := h
      exact storeProc_separate (signalled_receive _ _ _ _).mm_eq hstore

theorem kill_separate (curr : Slot) (pid : Int) : KeepsSeparate (kill curr pid) := by
  intro k r k' h
  rcases Within.kill_cases h with ⟨-, rfl⟩ | ⟨victim, k₁, -, hstore, hend⟩
  · exact id
  · intro hk
    have hmm : (k.pool victim).receiveKill.1.mm = (k.pool victim).mm :=
      (Signalled.wakeFrom _ _).mm_eq
    have hk₁ := storeProc_separate hmm hstore hk
    rcases hend with ⟨-, rfl⟩ | ⟨parent, j, r', -, -, -, hsend⟩
    · exact hk₁
    · exact sysSigkill_separate _ _ _ _ _ _ _ hsend hk₁

/-! ## Calls that work on whole address spaces -/

/-- A process gets a new program. -/
theorem AddressSpaces.loadUserElf {app : UserApp} {args : List (List Byte)} {r : Int × Proc}
    (h : AddressSpaces vm pool) (hp : p.mm = (pool i).mm)
    (hload : ∀ phdr ∈ loads app.phdrs, phdr.Loadable) (hfit : stringsSize args ≤ 4096)
    (hrun : SignalOS.loadUserElf app p args vm = some (r, vm')) :
    (r.1 < 0 → AddressSpaces vm' pool) ∧
      (¬ r.1 < 0 → ∀ q : Proc, q.mm = r.2.mm → AddressSpaces vm' (Function.update pool i q)) := by
  have hold (old : Mm) (hmm : p.mm = some old) : Tidy vm old ∧ 0 < old.refcnt := by
    rw [hp] at hmm
    refine ⟨(h.wf i old hmm).toTidy, ?_⟩
    rw [h.refcnt i old hmm]
    decide
  have hends := (loadUserElf_ends (C := True) h.free hold hload hfit (.inl trivial)
    (.inl trivial) (.inl trivial) (.inl trivial)).elim hrun
  cases hends with
  | noMm create =>
    cases create with
    | failed evolves free =>
      exact ⟨fun _ => h.evolve evolves free, fun hno => absurd (show -ENOMEM < 0 by decide) hno⟩
  | bad neg evolves free => exact ⟨fun _ => h.evolve evolves free, fun hno => absurd neg hno⟩
  | @ok img _ loaded =>
    refine ⟨fun hneg => absurd hneg (lt_irrefl _), fun _ q hq => ?_⟩
    replace hq : q.mm = some img.mm := hq
    have howns (x : Uint64) : (pool i).owns vm x ↔ p.owns vm x := by rw [Proc.owns, Proc.owns, hp]
    refine h.replace (loaded.evolves.congr howns fun _ => Iff.rfl) loaded.wf.good.free
      (fun mm hmm => ?_) fun x => (Proc.owns_some hq x).1
    obtain rfl := Option.some.inj (hq.symm.trans hmm)
    exact ⟨loaded.wf, loaded.refcnt⟩

theorem exec_separate {name : List Byte} {args : List (List Byte)} {r : Int}
    (hfit : stringsSize args ≤ 4096) (h : exec i name args k = some (r, k')) (hk : Separate k) :
    Separate k' := by
  simp only [exec, get_bind] at h
  cases hfind : getElf k.userApps name with
  | none =>
    simp only [hfind, pure_eq_some] at h
    exact h.2 ▸ hk
  | some app =>
    simp only [hfind, getProc_bind, bind_eq_some (x := liftVm _)] at h
    obtain ⟨⟨ret, p⟩, k₁, hlift, h⟩ := h
    obtain ⟨vm', hrun, rfl⟩ := liftVm_eq_some.1 hlift
    have hloads := hk.spaces.loadUserElf rfl (hk.loadable app (getElf_mem hfind)) hfit hrun
    dsimp only at h hloads
    by_cases hneg : ret < 0
    · simp only [if_pos hneg, pure_eq_some] at h
      rw [h.2]
      exact ⟨hloads.1 hneg, hk.loadable⟩
    · simp only [if_neg hneg, modifyProc_bind, pure_eq_some] at h
      rw [h.2]
      exact ⟨hloads.2 hneg _ rfl, hk.loadable⟩

theorem allocproc_separate : KeepsSeparate allocproc := by
  intro k r k' h hk
  cases r with
  | none =>
    rcases Within.allocproc_cases h with ⟨-, rfl⟩ | ⟨j, hr, -⟩
    · exact hk
    · cases hr
  | some j =>
    obtain ⟨-, rfl⟩ := allocproc_eq h
    exact ⟨hk.spaces.drop rfl, hk.loadable⟩

theorem loadInitApp_separate : KeepsSeparate loadInitApp := by
  intro k u k' h hk
  simp only [loadInitApp, get_bind] at h
  cases hfind : getElf k.userApps INIT_PROC with
  | none =>
    simp only [hfind] at h
    cases h
  | some app =>
    simp only [hfind, bind_eq_some (x := allocproc)] at h
    obtain ⟨np, k₁, halloc, h⟩ := h
    have hk₁ := allocproc_separate _ _ _ halloc hk
    cases np with
    | none => cases h
    | some i =>
      obtain ⟨-, rfl⟩ := allocproc_eq halloc
      simp only [getProc_bind, bind_eq_some (x := liftVm _)] at h
      obtain ⟨⟨ret, p⟩, k₂, hlift, h⟩ := h
      obtain ⟨vm', hrun, rfl⟩ := liftVm_eq_some.1 hlift
      have hloads := hk₁.spaces.loadUserElf rfl (hk.loadable app (getElf_mem hfind)) (by decide)
        hrun
      dsimp only at h hloads
      by_cases hneg : ret < 0
      · simp only [if_pos hneg] at h
        cases h
      · simp only [if_neg hneg, modifyProc_bind, bind_eq_some, modify_eq_some] at h
        obtain ⟨_, k₃, hadd, rfl⟩ := h
        have hk₃ := addTask_separate i _ _ _ hadd ⟨hloads.2 hneg _ rfl, hk.loadable⟩
        exact hk₃.of_same ⟨.refl _, fun _ => rfl, rfl⟩

/-- **`fork`**: the child gets pages that were free. -/
theorem fork_separate {r : Int} (h : fork i k = some (r, k')) (hk : Separate k) : Separate k' := by
  simp only [fork, bind_eq_some (x := allocproc)] at h
  obtain ⟨np, k₁, halloc, h⟩ := h
  have hk₁ := allocproc_separate _ _ _ halloc hk
  cases np with
  | none => exact (pure_eq_some.1 h).2 ▸ hk₁
  | some j =>
    have hnone : (k₁.pool j).mm = none := by
      obtain ⟨-, rfl⟩ := allocproc_eq halloc
      rw [Kernel.setProc_pool_self]
      rfl
    simp only [getProc_bind, bind_eq_some (x := liftVm _)] at h
    obtain ⟨newMm, k₂, hlift, h⟩ := h
    obtain ⟨vm₁, hcreate, rfl⟩ := liftVm_eq_some.1 hlift
    have hends := (mmCreate_ends (C := True) hk₁.spaces.free (.inl trivial) (.inl trivial)).elim
      hcreate
    cases hends with
    | failed evolves free =>
      simp only [bind_eq_some, pure_eq_some] at h
      obtain ⟨_, k₃, hfreed, -, rfl⟩ := h
      exact freeproc_separate j _ _ _ hfreed ⟨hk₁.spaces.evolve evolves free, hk₁.loadable⟩
    | @created _ obj pgt good evolves entries =>
      simp only [getProc_bind, bind_eq_some (x := getMm _), getMm_eq_some,
        bind_eq_some (x := liftVm _)] at h
      obtain ⟨mm, _, ⟨hmm, rfl⟩, ⟨ret, childMm⟩, k₃, hlift, h⟩ := h
      obtain ⟨vm₂, hcopy, rfl⟩ := liftVm_eq_some.1 hlift
      have hold := hk₁.spaces.wf i mm hmm
      have havoids : Avoids k₁.vm mm.pgt fun _ => False := fun _ _ hno => hno
      have hold₁ := hold.other evolves havoids good.free
      have hcopied := (mmCopyLoop_ends (C := True) hold₁.good (.created good entries)
        (evolves.apart hold.good havoids) (fun vma hvma => ⟨hold.range vma hvma,
          hold.flags vma hvma⟩)
        (fun vma hvma va hva => ⟨_, (hold₁.mapped vma hvma va hva).frame (hold.flags vma hvma)⟩)
        (.inl trivial)).elim hcopy
      cases hcopied with
      | failed tidy evolves' =>
        -- the slot with the empty address space is freed
        simp only [if_pos (show -ENOMEM < 0 by decide), modifyProc_bind, bind_eq_some,
          pure_eq_some] at h
        obtain ⟨_, k₄, hfreed, -, rfl⟩ := h
        have hends := (freeproc_ends (by rw [Kernel.setProc_pool_self]) tidy
          (show (0 : Int) < 1 by decide)).elim hfreed
        obtain ⟨hk₄, hreleases, hfree, -, -⟩ := hends
        have hspaces := hk₁.spaces.evolve ((evolves.trans evolves').trans hreleases) hfree
        rw [hk₄]
        refine ⟨?_, hk₁.loadable⟩
        show AddressSpaces _ (Function.update (Function.update k₁.pool j _) j _)
        rw [Function.update_idem]
        exact hspaces.drop rfl
      | copied hcopied =>
        obtain ⟨copies, rfl, -⟩ := hcopied.list
        simp only [lt_irrefl, if_false, bind_eq_some (x := brkStart _ _)] at h
        obtain ⟨start, _, hstart, h⟩ := h
        cases Within.brkStart_frame hstart
        simp only [modifyProc_bind, bind_eq_some, getProc_eq_some, pure_eq_some] at h
        obtain ⟨_, k₄, hadd, _, _, ⟨-, rfl⟩, -, rfl⟩ := h
        refine addTask_separate j _ _ _ hadd ⟨?_, hk₁.loadable⟩
        refine hk₁.spaces.add hnone ?_ hcopied.wf rfl rfl
        exact evolves.trans hcopied.evolves

/-- The process has a heap, and its request meets the contract of `sbrk`. -/
def SbrkMeets (k : Kernel) (i : Slot) (n : Uint64) : Prop :=
  ∃ mm vma, HeapReady k i mm vma ∧ SbrkFits k i mm vma n

/-- What `mm_remap` leaves of the address space. -/
theorem HeapReady.remap {vma : Vma} {n : Uint64} {r : Int × Mm} (h : HeapReady k i mm vma)
    (hfits : SbrkFits k i mm vma n) (hstart : ¬ (k.pool i).brk + n < vma.vmStart)
    (hrun : sbrkRemap mm vma (PGROUNDUP ((k.pool i).brk + n)) k.vm = some (r, vm')) :
    MmWf vm' r.2 ∧ r.2.pgt = mm.pgt ∧ r.2.refcnt = mm.refcnt ∧
      Evolves (Owns k.vm mm.pgt) (Owns vm' mm.pgt) k.vm vm' := by
  rw [sbrkRemap] at hrun
  split at hrun
  · obtain ⟨rfl, rfl⟩ := pure_eq_some.1 hrun
    exact ⟨h.wf, rfl, rfl, .refl _ _⟩
  · rcases hfits with hcheck | ⟨hpos, hroom⟩
    · rw [mmRemap_refused h.range.start (pageStart_PGROUNDUP _) h.flags.rwx hcheck,
        Option.some.injEq, Prod.mk.injEq] at hrun
      obtain ⟨rfl, rfl⟩ := hrun
      exact ⟨h.wf, rfl, rfl, .refl _ _⟩
    · have hsum := (h.newBreak_cases n).resolve_right fun hneg => absurd hpos (not_le.2 hneg.1)
      have hle : vma.vmStart ≤ (k.pool i).brk + n := by
        rw [BitVec.lt_def] at hstart
        rw [BitVec.le_def]
        omega
      have hresize := h.resize (pageStart_PGROUNDUP _) (h.start_le_round hsum.2 hle) hroom
      cases (mmRemap_ends hresize).elim hrun with
      | resized hnew => exact ⟨hnew.wf, rfl, rfl, hnew.evolves⟩
      | unresized hold => exact ⟨hold.wf, rfl, rfl, hold.evolves⟩

theorem sbrkDone_state (k : Kernel) (i : Slot) (newBrk : Uint64) (r : (Int × Mm) × Vm) :
    ∃ brk, (sbrkDone k i newBrk r).2 = { k with vm := r.2 }.setProc i
      { k.pool i with mm := some r.1.2, brk := brk } := by
  rw [sbrkDone]
  split
  · exact ⟨newBrk, rfl⟩
  · exact ⟨(k.pool i).brk, rfl⟩

/-- **`sbrk`**: the heap gets pages that were free. -/
theorem sysSbrk_separate {n r : Uint64} (hmeets : SbrkMeets k i n)
    (h : sysSbrk i n k = some (r, k')) (hk : Separate k) : Separate k' := by
  obtain ⟨mm, vma, hready, hfits⟩ := hmeets
  rw [hready.run] at h
  split at h
  · cases h
    exact hk
  · rename_i hstart
    obtain ⟨⟨⟨ret, mm'⟩, vm'⟩, hrun, hdone⟩ := Option.map_eq_some_iff.1 h
    obtain ⟨hwf, hpgt, href, hevolves⟩ := hready.remap hfits hstart hrun
    obtain ⟨brk, hstate⟩ := sbrkDone_state k i ((k.pool i).brk + n) ((ret, mm'), vm')
    rw [hdone] at hstate
    dsimp only at hwf hpgt href hevolves hstate
    rw [hstate]
    refine ⟨hk.spaces.replace (hevolves.congr (Proc.owns_some hready.space) fun _ => Iff.rfl)
      hwf.good.free (fun mm'' hmm => ?_) fun q hown => ?_, hk.loadable⟩
    · obtain rfl : mm' = mm'' := Option.some.inj hmm
      rw [href]
      exact ⟨hwf, hk.spaces.refcnt i mm hready.space⟩
    · rw [← hpgt]
      exact (Proc.owns_some rfl q).1 hown

/-- What is written to the console goes through a page that is free again after it. -/
theorem userConsoleWrite_same {buf len r : Uint64} (hfree : FreeOk k.vm)
    (h : userConsoleWrite i buf len k = some (r, k')) : SameSpaces k k' := by
  have hrefl : SameSpaces k k := ⟨.refl _, fun _ => rfl, rfl⟩
  rw [userConsoleWrite] at h
  split at h
  · exact (pure_eq_some.1 h).2 ▸ hrefl
  · rw [bind_eq_some] at h
    obtain ⟨kbuf, k₁, hlift, h⟩ := h
    obtain ⟨vm₁, halloc, rfl⟩ := liftVm_eq_some.1 hlift
    cases hlist : k.vm.freelist with
    | nil =>
      rw [kallocpage_nil hlist] at halloc
      cases halloc
      exact (pure_eq_some.1 h).2 ▸ hrefl
    | cons q rest =>
      have hmanaged := hfree.managed q (by rw [hlist]; exact List.mem_cons_self)
      rw [kallocpage_cons hlist] at halloc
      cases halloc
      rw [if_neg hmanaged.ne_zero] at h
      simp only [bind_eq_some (x := getMm _), getMm_eq_some] at h
      obtain ⟨mm, _, ⟨-, rfl⟩, h⟩ := h
      simp only [get_bind, bind_eq_some, pure_eq_some] at h
      obtain ⟨_, k₂, hlift₂, _, k₃, hlift₃, -, rfl⟩ := h
      obtain ⟨vm₂, hstore, rfl⟩ := liftVm_eq_some.1 hlift₂
      obtain ⟨vm₃, hgive, rfl⟩ := liftVm_eq_some.1 hlift₃
      have htaken : SameTables (k.vm.take kbuf rest) vm₂ := by
        cases hstore
        exact ⟨rfl, rfl, rfl, rfl⟩
      have hmanaged₂ : vm₂.Manages kbuf :=
        ⟨hmanaged.start, hmanaged.ne_zero, htaken.base ▸ hmanaged.lower,
          htaken.base ▸ htaken.size ▸ hmanaged.upper⟩
      rw [kfreepage_eq hmanaged₂] at hgive
      cases hgive
      refine ⟨⟨htaken.pte, ?_, htaken.base, htaken.size⟩, fun _ => rfl, rfl⟩
      exact (congrArg (kbuf :: ·) htaken.freelist).trans hlist.symm

/-! ## Calls on the memory of the process -/

theorem copyToUser_tables (vm : Vm) (mm : Mm) (va : Uint64) (src : List Byte) :
    SameTables vm (copyToUser vm mm va src).2 := by
  obtain ⟨n, -, hmemory⟩ := copyToUser_bytewise vm mm va src
  rw [hmemory]
  exact ⟨rfl, rfl, rfl, rfl⟩

theorem onCaller_separate {f : Mm → Proc → Vm → Int × Proc × Vm}
    (hmm : ∀ mm p vm, (f mm p vm).2.1.mm = p.mm)
    (htables : ∀ mm p vm, SameTables vm (f mm p vm).2.2) : KeepsSeparate (onCaller i f) := by
  intro k r k' h hk
  rw [onCaller, bind_eq_some] at h
  obtain ⟨mm, k₁, hget, h⟩ := h
  obtain ⟨-, rfl⟩ := getMm_eq_some.1 hget
  simp only [getProc_bind, get_bind, modifyProc_bind, modify_bind, pure_eq_some] at h
  rw [h.2]
  exact (hk.of_same (.of_setProc (hmm mm _ _))).of_same ⟨htables mm _ _, fun _ => rfl, rfl⟩

theorem sysSigaction_separate (signo : Int) (act oldact : Uint64) :
    KeepsSeparate (onCaller i fun mm p vm => sysSigaction mm p vm signo act oldact) := by
  refine onCaller_separate (fun mm p vm => ?_) fun mm p vm => ?_
  · obtain ⟨sa, hproc⟩ := sysSigaction_proc mm p vm signo act oldact
    rw [hproc]
  · rw [sysSigaction_vm]
    exact copyToUser_tables _ _ _ _

theorem sysSigprocmask_separate (how : Int) (set oldset : Uint64) :
    KeepsSeparate (onCaller i fun mm p vm => sysSigprocmask mm p vm how set oldset) := by
  refine onCaller_separate (fun mm p vm => ?_) fun mm p vm => ?_
  · rw [sysSigprocmask]
    dsimp only
    split_ifs <;> rfl
  · rw [sysSigprocmask_vm]
    exact copyToUser_tables _ _ _ _

theorem sysSigpending_separate (set : Uint64) : KeepsSeparate (onCaller i fun mm p vm =>
    ((sysSigpending mm p vm set).1, p, (sysSigpending mm p vm set).2)) := by
  refine onCaller_separate (fun _ _ _ => rfl) fun mm p vm => ?_
  rw [sysSigpending_vm]
  exact copyToUser_tables _ _ _ _

theorem sysSigreturn_separate : KeepsSeparate (onCaller i fun mm p vm =>
    ((sysSigreturn mm p vm).1, (sysSigreturn mm p vm).2, vm)) := by
  refine onCaller_separate (fun mm p vm => ?_) fun _ _ vm => .refl vm
  rw [sysSigreturn]
  dsimp only
  split
  · rfl
  · rfl

theorem wait_separate (curr : Slot) (pid : Int) (code : Uint64) :
    KeepsSeparate (wait curr pid code) := by
  refine .bind .get fun k => ?_
  split
  · dsimp only
    split
    · refine .bind (.getMm _) fun mm => .bind (.modify fun k => ?_) fun _ =>
        .bind (freeproc_separate _) fun _ => .pure _
      exact ⟨copyToUser_tables _ _ _ _, fun _ => rfl, rfl⟩
    · exact .bind (freeproc_separate _) fun _ => .pure _
  · split
    all_goals exact .pure _

theorem turn_separate (curr : Slot) (b : Blocking) : KeepsSeparate (b.turn curr) := by
  cases b with
  | wait pid code =>
    refine .bind (wait_separate curr pid code) fun r => ?_
    split
    all_goals exact .pure _
  | sleep n ticks0 =>
    refine .bind .get fun k => ?_
    dsimp only
    split
    · split
      all_goals exact .pure _
    · exact .pure _
  | read buf n target =>
    intro k r k' h hk
    rw [Blocking.turn, bind_eq_some] at h
    obtain ⟨mm, k₁, hget, h⟩ := h
    obtain ⟨-, rfl⟩ := getMm_eq_some.1 hget
    rw [get_bind] at h
    have htables := copyToUser_tables k₁.vm mm buf
      (delivered ((k₁.cons.w - k₁.cons.r).toNat + 1) n k₁.cons)
    rw [← consoleReadLoop_vm mm target] at htables
    generalize consoleReadLoop mm target ((k₁.cons.w - k₁.cons.r).toNat + 1) buf n k₁.cons k₁.vm =
      s at h htables
    obtain ⟨e, cons, vm'⟩ := s
    dsimp only at h htables
    rw [modify_bind] at h
    have hread : Separate { k₁ with cons := cons, vm := vm' } :=
      hk.of_same ⟨htables, fun _ => rfl, rfl⟩
    split at h
    all_goals exact (pure_eq_some.1 h).2 ▸ hread

theorem acquireLock_separate (lk : SleepLock) (curr : Slot) :
    KeepsSeparate (acquireLock lk curr) := by
  refine .bind .get fun k => .bind .get fun k => ?_
  split
  · exact .modify fun _ => ⟨.refl _, fun _ => rfl, rfl⟩
  · exact .fail

theorem releaseLock_separate (lk : SleepLock) : KeepsSeparate (releaseLock lk) :=
  .modify fun _ => ⟨.refl _, fun _ => rfl, rfl⟩

theorem sysGetppid_separate (curr : Slot) : KeepsSeparate (sysGetppid curr) := by
  refine .bind (.getProc _) fun p => ?_
  split
  · exact .pure _
  · exact .bind (.getProc _) fun p => .pure _

theorem ktestSyscall_separate (curr : Slot) (tf : Trapframe) :
    KeepsSeparate (ktestSyscall curr tf) := by
  rw [ktestSyscall]
  exact .ite (.bind (.discard (.getMm _)) fun _ => .pure _) (.ite (.bind .get fun k => .pure _)
    (.ite (.bind .get fun k => .pure _)
      (.ite (.bind (sysSigkill_separate _ _ _ _) fun _ => .pure _) (.pure _))))

/-- The strings that the call of `exec` finds at `argv` fit into a page. -/
def ArgsInPage (k : Kernel) (i : Slot) (argv : Uint64) : Prop :=
  ∀ mm obj vm ret objs args vm', (k.pool i).mm = some mm → kallocStr k.vm = some (obj, vm) →
    readArgs mm argv MAXARG vm = some ((ret, objs, args), vm') → stringsSize args ≤ 4096

theorem sysExec_separate {path argv : Uint64} {r : Int} (hargs : ArgsInPage k i argv)
    (h : sysExec i path argv k = some (r, k')) (hk : Separate k) : Separate k' := by
  have hfrees (objs : List Uint64) : KeepsSeparate (liftVm (objs.forM kfreeStr)) :=
    .liftVm (kfreeStrs_tables objs)
  simp only [sysExec, bind_eq_some (x := liftVm kallocStr)] at h
  obtain ⟨kpath, k₁, hlift, h⟩ := h
  have hk₁ := KeepsSeparate.liftVm kallocStr_tables _ _ _ hlift hk
  obtain ⟨vm₁, halloc, rfl⟩ := liftVm_eq_some.1 hlift
  simp only [bind_eq_some (x := getMm _), getMm_eq_some, get_bind] at h
  obtain ⟨mm, _, ⟨hmm, rfl⟩, h⟩ := h
  split at h
  · have hfree : KeepsSeparate (do
        liftVm (kfreeStr kpath)
        return (copystrFromUser vm₁ mm path KSTRING_MAX).1 : KM Int) :=
      .bind (.liftVm (kfreeStr_tables kpath)) fun _ => .pure _
    exact hfree _ _ _ h hk₁
  · rw [bind_eq_some] at h
    obtain ⟨⟨ret, objs, args⟩, k₂, hlift, h⟩ := h
    have hk₂ := KeepsSeparate.liftVm (readArgs_tables mm argv MAXARG) _ _ _ hlift hk₁
    obtain ⟨vm₂, hread, rfl⟩ := liftVm_eq_some.1 hlift
    have hfit := hargs mm kpath vm₁ ret objs args vm₂ hmm halloc hread
    dsimp only at h
    have hlast (ret' : Int) : KeepsSeparate (do
        liftVm (kfreeStr kpath)
        liftVm (objs.forM kfreeStr)
        return ret' : KM Int) :=
      .bind (.liftVm (kfreeStr_tables kpath)) fun _ => .bind (hfrees objs) fun _ => .pure _
    split at h
    · rw [bind_eq_some] at h
      obtain ⟨ret', k₃, hpure, h⟩ := h
      obtain ⟨rfl, rfl⟩ := pure_eq_some.1 hpure
      exact hlast _ _ _ _ h hk₂
    · rw [bind_eq_some] at h
      obtain ⟨ret', k₃, hexec, h⟩ := h
      exact hlast _ _ _ _ h (exec_separate hfit hexec hk₂)

/-- The call that the process is about to make meets the contract of its handler: the strings of
`exec` fit into a page, and the request of `sbrk` is one that the heap has room for. -/
structure CallMeets (k : Kernel) (i : Slot) : Prop where
  exec : Sysno.ofId (toInt (k.pool i).trapframe.a7) = some .exec →
    ArgsInPage k i (k.pool i).trapframe.a1
  sbrk : Sysno.ofId (toInt (k.pool i).trapframe.a7) = some .sbrk →
    SbrkMeets k i (k.pool i).trapframe.a0

theorem syscallSwitch_separate {o : Outcome} (hmeets : CallMeets k i)
    (h : syscallSwitch i (k.pool i).trapframe k = some (o, k')) (hk : Separate k) :
    Separate k' := by
  have hkeeps {x : KM Outcome} (hx : KeepsSeparate x) (h : x k = some (o, k')) : Separate k' :=
    hx _ _ _ h hk
  rw [syscallSwitch] at h
  cases hn : Sysno.ofId (toInt (k.pool i).trapframe.a7) with
  | none =>
    rw [hn] at h
    exact hkeeps (.pure _) h
  | some n =>
    rw [hn] at h
    cases n with
    | fork =>
      obtain ⟨r, k₁, hfork, h⟩ := bind_eq_some.1 h
      exact (pure_eq_some.1 h).2 ▸ fork_separate hfork hk
    | exec =>
      obtain ⟨r, k₁, hexec, h⟩ := bind_eq_some.1 h
      exact (pure_eq_some.1 h).2 ▸ sysExec_separate (hmeets.exec hn) hexec hk
    | sbrk =>
      obtain ⟨r, k₁, hsbrk, h⟩ := bind_eq_some.1 h
      exact (pure_eq_some.1 h).2 ▸ sysSbrk_separate (hmeets.sbrk hn) hsbrk hk
    | write =>
      obtain ⟨r, k₁, hwrite, h⟩ := bind_eq_some.1 h
      exact (pure_eq_some.1 h).2 ▸ hk.of_same (userConsoleWrite_same hk.spaces.free hwrite)
    | getpid => exact hkeeps (.bind (.getProc _) fun _ => .pure _) h
    | getppid => exact hkeeps (.bind (sysGetppid_separate _) fun _ => .pure _) h
    | kill => exact hkeeps (.bind (kill_separate _ _) fun _ => .pure _) h
    | mmap => exact hkeeps .fail h
    | ktest => exact hkeeps (.bind (ktestSyscall_separate _ _) fun _ => .pure _) h
    | sigkill => exact hkeeps (.bind (sysSigkill_separate _ _ _ _) fun _ => .pure _) h
    | exit | wait | sleep | yield | read => exact hkeeps (.pure _) h
    | sigaction => exact hkeeps (.bind (sysSigaction_separate _ _ _) fun _ => .pure _) h
    | sigreturn => exact hkeeps (.bind sysSigreturn_separate fun _ => .pure _) h
    | sigprocmask => exact hkeeps (.bind (sysSigprocmask_separate _ _ _) fun _ => .pure _) h
    | sigpending => exact hkeeps (.bind (sysSigpending_separate _) fun _ => .pure _) h

theorem syscall_separate {o : Outcome} (hmeets : CallMeets k i)
    (h : syscall i k = some (o, k')) (hk : Separate k) : Separate k' := by
  simp only [syscall, getProc_bind, bind_eq_some (x := syscallSwitch _ _)] at h
  obtain ⟨o', k₁, hswitch, h⟩ := h
  have hk₁ := syscallSwitch_separate hmeets hswitch hk
  cases o' with
  | ret r =>
    have hlast : KeepsSeparate (do
        setReturn i r
        return .ret r : KM Outcome) :=
      .bind (.modifyProc fun _ => rfl) fun _ => .pure _
    exact hlast _ _ _ h hk₁
  | goto context => exact (pure_eq_some.1 h).2 ▸ hk₁
  | yield => exact (pure_eq_some.1 h).2 ▸ hk₁

end SignalOS
