import SignalOS.Lib.Spin
import SignalOS.Vm.Lifetime

/-!
# Running out of memory in `mm_create`

* `missing`, `walk_takes` — **a walk takes a page for every table that is missing**, or
  what there is.
* `mmCreateLocked` — `mm_create` with its lock; without it, it is `mmCreate`
  (`mmCreateLocked_eq`).
* `mmCreate_clean` — **with how many free pages `mm_create` ends cleanly**.
-/

namespace SignalOS

open Partial Spin

variable {vm vm' : Vm} {mm : Mm}

/-! ## The pages that a walk takes -/

section Walk

variable {level : Nat} {va t p q : Uint64} {rest : List Uint64}

theorem walkLevel_some (h : nextTable (vm.pte t (PX level va)) = some q) :
    walkLevel level va true t vm = some (some q, vm) := by
  have hvalid := valid_of_nextTable h
  rw [nextTable, if_pos hvalid, Option.some.injEq] at h
  show (if vm.pte t (PX level va) &&& PTE_V ≠ 0 then
    (pure (some (PTE2PA (vm.pte t (PX level va)))) : VmM (Option Uint64)) else _) vm = _
  rw [if_pos hvalid, h]
  rfl

theorem walkLevel_none (h : nextTable (vm.pte t (PX level va)) = none) :
    walkLevel level va true t vm = (do
      let pa ← kallocpage
      if pa = 0 then return none
      else
        modify fun vm => vm.link pa t (PX level va) (PA2PTE pa ||| PTE_V)
        return some pa : VmM (Option Uint64)) vm := by
  have hinvalid : ¬ vm.pte t (PX level va) &&& PTE_V ≠ 0 := by
    intro hvalid
    rw [nextTable, if_pos hvalid] at h
    exact absurd h (by simp)
  show (if vm.pte t (PX level va) &&& PTE_V ≠ 0 then _ else (_ : VmM (Option Uint64))) vm = _
  rw [if_neg hinvalid]
  rfl

theorem walkLevel_nil (h : nextTable (vm.pte t (PX level va)) = none) (hfree : vm.freelist = []) :
    walkLevel level va true t vm = some (none, vm) := by
  rw [walkLevel_none h]
  exact bind_eq_some.2 ⟨0, vm, kallocpage_nil hfree, rfl⟩

theorem walkLevel_cons (h : nextTable (vm.pte t (PX level va)) = none)
    (hfree : vm.freelist = p :: rest) (hp : p ≠ 0) :
    walkLevel level va true t vm =
      some (some p, (vm.take p rest).link p t (PX level va) (PA2PTE p ||| PTE_V)) := by
  rw [walkLevel_none h]
  refine bind_eq_some.2 ⟨p, vm.take p rest, kallocpage_cons hfree, ?_⟩
  rw [if_neg hp]
  rfl

/-- The number of tables that are missing on the way to a page. -/
def missing (pte : Uint64 → Uint64 → Uint64) (pgt : Uint64) (v : Vpn) : Nat :=
  if tableAt pte pgt (.mid v.l2) = none then 2
  else if tableAt pte pgt (.last v.l2 v.l1) = none then 1
  else 0

/-- **A walk takes a page for every table that is missing**, or what there is. -/
theorem walk_takes (h : TableTree vm mm.pgt) (hva : IS_USER_VA va = true) :
    Ends (walk mm va true) vm fun r vm' =>
      vm'.freelist = vm.freelist.drop (missing vm.pte mm.pgt (vpn va)) ∧
        (r = none ↔ vm.freelist.length < missing vm.pte mm.pgt (vpn va)) := by
  have hne {p : Uint64} (hp : p ∈ vm.freelist) : p ≠ 0 := (h.free.managed p hp).ne_zero
  have hmidAt : tableAt vm.pte mm.pgt (.mid (vpn va).l2) = nextTable
      (vm.pte mm.pgt (PX 2 va)) := by
    rw [PX_eq]
    rfl
  refine .ite (fun hno => absurd hno (by simp [hva])) fun _ => ?_
  cases hmid : nextTable (vm.pte mm.pgt (PX 2 va)) with
  | some t =>
    have hlastAt : tableAt vm.pte mm.pgt (.last (vpn va).l2 (vpn va).l1) = nextTable
        (vm.pte t (PX 1 va)) := by
      rw [tableAt_last, hmidAt, hmid, PX_eq]
      rfl
    rw [missing, if_neg (by rw [hmidAt, hmid]; simp), hlastAt]
    refine .bind_of_eq (walkLevel_some hmid) ?_
    cases hlast : nextTable (vm.pte t (PX 1 va)) with
    | some u =>
      refine .bind_of_eq (walkLevel_some hlast) (.pure ?_)
      simp
    | none =>
      cases hfree : vm.freelist with
      | nil =>
        refine .bind_of_eq (walkLevel_nil hlast hfree) (.pure ?_)
        simp [hfree]
      | cons p rest =>
        refine .bind_of_eq (walkLevel_cons hlast hfree (hne (by simp [hfree]))) (.pure ?_)
        exact ⟨rfl, by simp⟩
  | none =>
    rw [missing, if_pos (by rw [hmidAt, hmid])]
    cases hfree : vm.freelist with
    | nil =>
      refine .bind_of_eq (walkLevel_nil hmid hfree) (.pure ?_)
      simp [hfree]
    | cons p rest =>
      refine .bind_of_eq (walkLevel_cons hmid hfree (hne (by simp [hfree]))) ?_
      -- the new table is empty
      have hpgt : p ≠ mm.pgt := by
        rintro rfl
        exact h.taken .root _ rfl (by simp [hfree])
      have hlast : nextTable (((vm.take p rest).link p mm.pgt (PX 2 va) (PA2PTE p ||| PTE_V)).pte p
          (PX 1 va)) = none := by
        rw [link_pte_new hpgt]
        exact nextTable_zero
      cases hrest : rest with
      | nil =>
        subst hrest
        refine .bind_of_eq (walkLevel_nil hlast rfl) (.pure ?_)
        exact ⟨rfl, by simp⟩
      | cons q rest' =>
        subst hrest
        refine .bind_of_eq (walkLevel_cons hlast rfl (hne (by simp [hfree]))) (.pure ?_)
        exact ⟨rfl, by simp⟩

end Walk

/-! ## The pages that `mm_create` takes -/

/-- `mm_mappageat` of a page of the kernel fails if there are too few pages for the missing
tables. -/
theorem mmMappageat_takes {va pa flags : Uint64} (h : Good vm mm.pgt) (hvma : mm.vma = [])
    (hva : IS_USER_VA va = true) (hzero : entryAt vm.pte mm.pgt (vpn va) = 0) :
    Ends (mmMappageat mm va pa flags) vm fun r vm' =>
      vm'.freelist = vm.freelist.drop (missing vm.pte mm.pgt (vpn va)) ∧
        (r ≠ 0 ↔ vm.freelist.length < missing vm.pte mm.pgt (vpn va)) := by
  have hoverlap : vmaCheckOverlap mm va (va + PGSIZE) 0 = false := by
    rw [vmaCheckOverlap, hvma]
    simp
  refine .ite (fun hno => absurd hno (by simp [hva])) fun _ => ?_
  rw [hoverlap]
  refine .ite (fun hno => absurd hno (by simp)) fun _ => ?_
  refine .bind ((walk_ends h hva).and (walk_takes h.tree hva)) fun r vm₁ hwalk => ?_
  obtain ⟨⟨hgrown, hr⟩, hfree, hnone⟩ := hwalk
  rw [← hnone]
  rcases hr with rfl | ⟨t, rfl, ht⟩
  · exact .pure ⟨hfree, iff_of_true (by decide) rfl⟩
  refine .bind_of_eq (a := entryAt vm₁.pte mm.pgt (vpn va)) (t := vm₁)
    (by rw [entryAt_eq ht]; rfl) ?_
  rw [hgrown.entries, hzero]
  refine .ite (fun hvalid => absurd zero_and_V hvalid) fun _ => ?_
  exact .modify_bind (.pure ⟨hfree, by simp⟩)

/-- **`mm_create` takes three pages**: with fewer it gives the root table back and no other. -/
theorem mmCreate_takes {tf root : Uint64} {rest : List Uint64} (hfree : FreeOk vm)
    (hobj : vm.mmAllocator ≠ [])
    (hlist : vm.freelist = root :: rest) :
    Ends (mmCreate tf) vm fun r vm' => if rest.length < 2 then r = none ∧ vm'.freelist = [root]
      else r.isSome = true := by
  obtain ⟨obj, pool, hpool⟩ := List.exists_cons_of_ne_nil hobj
  have halloc : kallocMm vm = some (obj, { vm with mmAllocator := pool }) := by
    rw [kallocMm, kalloc, hpool]
  have hsame : SameMemory vm { vm with mmAllocator := pool } :=
    ⟨rfl, rfl, rfl, ⟨rfl, rfl, rfl, rfl⟩⟩
  refine .bind_of_eq halloc ?_
  generalize ({ vm with mmAllocator := pool } : Vm) = vm₀ at hsame ⊢
  have hfree := hsame.freeOk hfree
  rw [← hsame.freelist] at hlist
  have hmanaged := hfree.managed root (by rw [hlist]; exact List.mem_cons_self)
  refine .bind_of_eq (kallocpage_cons hlist) ?_
  refine .ite (fun hzero => absurd hzero hmanaged.ne_zero) fun _ => .modify_bind (.get_bind ?_)
  obtain ⟨hgood, -, hentries, -⟩ := Good.root hfree hlist
  have hrest : ((vm₀.take root rest).zeroTable root).freelist = rest := rfl
  -- no table is there below the root
  have hmissing : missing ((vm₀.take root rest).zeroTable root).pte root (vpn TRAMPOLINE) = 2 := by
    have hpte : ((vm₀.take root rest).zeroTable root).pte root = fun _ => 0 :=
      Function.update_self _ _ _
    refine if_pos ?_
    rw [tableAt_mid, hpte]
    exact nextTable_zero
  generalize (vm₀.take root rest).zeroTable root = vm₁ at hgood hentries hrest hmissing ⊢
  have htrampoline := (@mmMappageat_ends _ ⟨obj, root, [], 1⟩ _ vm₁.trampoline _ hgood rfl
    (show IS_USER_VA TRAMPOLINE = true by decide)
    (show KernelFlags (PTE_A ||| PTE_R ||| PTE_X) from ⟨by decide, by decide, by decide⟩)
    (by rw [hentries])).and
    (@mmMappageat_takes _ ⟨obj, root, [], 1⟩ _ _ _ hgood rfl (show IS_USER_VA TRAMPOLINE =
      true by decide)
      (by rw [hentries]))
  refine .bind htrampoline fun r vm₂ hmapping => ?_
  obtain ⟨hr, hfree₂, hshort⟩ := hmapping
  rw [hmissing, hrest] at hfree₂ hshort
  rcases hr with ⟨rfl, hmapped⟩ | ⟨rfl, hgrown⟩
  · refine .ite (fun hneg => absurd hneg (by decide)) fun _ => ?_
    -- the table of the trampoline is that of the trapframe
    have htable : missing vm₂.pte root (vpn TRAPFRAME) = 0 := by
      have hvalid : entryAt vm₂.pte root (vpn TRAMPOLINE) &&& PTE_V ≠ 0 := by
        rw [hmapped.entries, Function.update_self]
        exact or_V_ne_zero _
      have hl2 : (vpn TRAPFRAME).l2 = (vpn TRAMPOLINE).l2 := by decide
      have hl1 : (vpn TRAPFRAME).l1 = (vpn TRAMPOLINE).l1 := by decide
      obtain ⟨t, ht⟩ := exists_table hvalid
      have hmid : tableAt vm₂.pte root (.mid (vpn TRAMPOLINE).l2) ≠ none := by
        intro hno
        rw [tableAt_last, hno] at ht
        exact absurd ht (by simp)
      rw [missing, hl2, hl1, if_neg hmid, if_neg (by rw [ht]; simp)]
    have hne : vpn TRAPFRAME ≠ vpn TRAMPOLINE := by decide
    have htrapframe :=
      @mmMappageat_takes _ ⟨obj, root, [], 1⟩ _ tf (PTE_A ||| PTE_D ||| PTE_R ||| PTE_W)
        hmapped.good rfl
        (show IS_USER_VA TRAPFRAME = true by decide)
        (by rw [hmapped.entries, Function.update_of_ne hne, hentries])
    refine .bind htrapframe fun r vm₃ hmapping => ?_
    have hr := hmapping.2
    rw [htable] at hr
    refine .ite (fun hno => absurd (hr.1 hno) (Nat.not_lt_zero _)) fun _ => .pure ?_
    rw [if_neg fun hlt => hshort.2 hlt rfl]
    rfl
  · refine .ite (fun _ => ?_) fun hno => absurd (show -EINVAL < 0 by decide) hno
    have hlt := hshort.1 (by decide)
    have hroot : vm₂.Manages root := (hgrown.good.owned root (.inl ⟨.root, rfl⟩)).2
    refine .bind_of_eq (kfreepage_eq hroot) ?_
    refine .bind (kfreeMm_ends obj (vm₂.give root)) fun _ vm₃ hfreed => .pure ?_
    rw [if_pos hlt]
    refine ⟨rfl, ?_⟩
    rw [hfreed.1.freelist]
    show root :: vm₂.freelist = _
    rw [hfree₂, List.drop_of_length_le (by omega)]

/-! ## The lock -/

/-- The spinlocks that are held across calls. -/
inductive SpinLock where
  /-- `curr_proc()->lock`. -/
  | proc
  /-- `mm->lock`, with the address of the `mm`. -/
  | mm (obj : Uint64)
  deriving DecidableEq

/-- Computations on memory and on the spinlocks that this CPU holds; `none` is a panic.  Those of
the allocators are given back before a call returns, and are left out. -/
abbrev LockM := Spin.LockM Vm SpinLock

/-- `mm_mappageat(mm, va, pa, flags)` with its assertion. -/
def mmMappageatLocked (mm : Mm) (va pa flags : Uint64) : LockM Int := do
  assertHolding (.mm mm.addr)
  lift (mmMappageat mm va pa flags)

/-- `mm_create(tf)` with its lock. -/
def mmCreateLocked (tf : Uint64) : LockM (Option Mm) := do
  let obj ← lift kallocMm
  initLock (.mm obj)
  let pa ← lift kallocpage
  if pa = 0 then
    freeMm obj 0
  else
    lift (modify fun vm => vm.zeroTable pa)
    acquire (.mm obj)
    let mm : Mm := ⟨obj, pa, [], 1⟩
    if (← mmMappageatLocked mm TRAMPOLINE (← get).1.trampoline (PTE_A ||| PTE_R ||| PTE_X)) <
        0 then
      freeMm obj pa
    else if (← mmMappageatLocked mm TRAPFRAME tf (PTE_A ||| PTE_D ||| PTE_R ||| PTE_W)) ≠ 0 then
      freeMm obj pa
    else
      return some mm
where
  /-- The label `free_mm`, with `pgt` the root table or `NULL`. -/
  freeMm (obj pgt : Uint64) : LockM (Option Mm) := do
    if pgt ≠ 0 then lift (kfreepage pgt)
    release (.mm obj)
    lift (kfreeMm obj)
    return none

section Locked

variable {held : List SpinLock} {tf obj pgt va pa flags : Uint64} {pool : List Uint64}

/-- The locks after `mm_create`: the new lock is held if there is a result. -/
def locksAfter (held : List SpinLock) : Option Mm → List SpinLock
  | none => held
  | some mm => .mm mm.addr :: held

theorem mmMappageatLocked_erases (h : .mm mm.addr ∈ held) :
    Erases held (fun _ => held) (mmMappageatLocked mm va pa flags) (mmMappageat mm va pa flags) :=
  .assertHolding_bind h (.lift held _)

/-- At the label `free_mm` the lock is given back. -/
theorem freeMmLocked_erases (hpgt : pgt ≠ 0) : Erases (.mm obj :: held) (locksAfter held)
    (mmCreateLocked.freeMm obj pgt) (mmCreate.freeMm ⟨obj, pgt, [], 1⟩) := by
  rw [mmCreateLocked.freeMm, if_pos hpgt]
  refine .bind (.lift _ _) fun _ => .release_bind List.mem_cons_self ?_
  rw [List.erase_cons_head]
  exact .bind (.lift _ _) fun _ => .pure rfl

/-- **Without its lock it is `mmCreate`.** -/
theorem mmCreateLocked_eq (hpool : vm.mmAllocator = obj :: pool) :
    mmCreateLocked tf (vm, held) = (mmCreate tf vm).map fun r =>
      (r.1, r.2, locksAfter (held.filter (· ≠ .mm obj)) r.1) := by
  have halloc : kallocMm vm = some (obj, { vm with mmAllocator := pool }) := by
    rw [kallocMm, kalloc, hpool]
  have hfree : .mm obj ∉ held.filter (· ≠ .mm obj) := by simp
  have halloc' : (lift kallocMm : LockM Uint64) (vm, held) = some (obj,
      { vm with mmAllocator := pool }, held) := by
    rw [lift, halloc]
    rfl
  rw [mmCreateLocked, bind_apply halloc', mmCreate, bind_apply halloc]
  refine @Erases.init_bind _ _ _ _ _ (locksAfter (held.filter (· ≠ .mm obj))) _ _ _ ?_ _
  generalize held.filter (· ≠ .mm obj) = held' at hfree ⊢
  refine .bind (.lift held' _) fun pa => ?_
  refine .ite (fun _ => ?_) fun hpa => .bind (.lift held' _) fun _ => .acquire_bind hfree ?_
  · rw [mmCreateLocked.freeMm, if_neg (not_not.2 rfl)]
    exact .release_fail hfree
  · have hheld : SpinLock.mm (⟨obj, pa, [], 1⟩ : Mm).addr ∈ SpinLock.mm obj :: held' :=
      List.mem_cons_self
    refine .get_bind fun vm => .bind (mmMappageatLocked_erases hheld) fun r => ?_
    refine .ite (fun _ => freeMmLocked_erases hpa) fun _ =>
      .bind (mmMappageatLocked_erases hheld) fun r => ?_
    exact .ite (fun _ => freeMmLocked_erases hpa) fun _ => .pure rfl

/-! ## When it ends cleanly -/

/-- The clean ends of `mm_create`: an address space with the kernel's two pages and its lock held,
or nothing at all. -/
inductive CreateClean (vm : Vm) (held : List SpinLock) (tf : Uint64) : Option Mm →
    Vm × List SpinLock → Prop where
  | created {mm : Mm} {vm' : Vm} {held' : List SpinLock}
      (entries : entryAt vm'.pte mm.pgt = kernelEntries vm.trampoline tf)
      (lock : .mm mm.addr ∈ held')
      (others : ∀ lk ∈ held', lk = .mm mm.addr ∨ lk ∈ held) :
      CreateClean vm held tf (some mm) (vm', held')
  | failed {vm' : Vm} {held' : List SpinLock} (locks : ∀ lk ∈ held', lk ∈ held)
      (pages : ∀ p, p ∈ vm'.freelist ↔ p ∈ vm.freelist)
      (mms : vm'.mmAllocator.length = vm.mmAllocator.length) :
      CreateClean vm held tf none (vm', held')

/-- Without a page for the root table there is a panic. -/
theorem mmCreate_nil (hpool : vm.mmAllocator = obj :: pool) (hlist : vm.freelist = []) :
    mmCreate tf vm = none := by
  have halloc : kallocMm vm = some (obj, { vm with mmAllocator := pool }) := by
    rw [kallocMm, kalloc, hpool]
  have hpage := @kallocpage_nil { vm with mmAllocator := pool } hlist
  rw [mmCreate, bind_apply halloc, bind_apply hpage]
  rfl

/-- **With how many free pages `mm_create` ends cleanly**: one, and three or more. -/
theorem mmCreate_clean (hfree : FreeOk vm) (hnull : 0 ∉ vm.mmAllocator) (held : List SpinLock)
    (tf : Uint64) :
    Ends (mmCreateLocked tf) (vm, held) (CreateClean vm held tf) ↔
      vm.mmAllocator ≠ [] ∧ vm.freelist.length ≠ 0 ∧ vm.freelist.length ≠ 2 := by
  cases hpool : vm.mmAllocator with
  | nil =>
    refine iff_of_false ?_ fun h => h.1 rfl
    rintro ⟨r, s, hrun, -⟩
    obtain ⟨obj, t, halloc, -⟩ := bind_eq_some.1 hrun
    rw [lift, kallocMm, kalloc, hpool] at halloc
    exact absurd halloc (by simp)
  | cons obj pool =>
    have hobj : obj ≠ 0 := fun heq => hnull (by rw [hpool, heq]; exact List.mem_cons_self)
    have hsub (lk : SpinLock) (hlk : lk ∈ held.filter (· ≠ .mm obj)) : lk ∈ held :=
      List.mem_of_mem_filter hlk
    have heq := @mmCreateLocked_eq _ held tf _ _ hpool
    cases hlist : vm.freelist with
    | nil =>
      refine iff_of_false ?_ fun h => h.2.1 rfl
      rintro ⟨r, s, hrun, -⟩
      rw [heq, mmCreate_nil hpool hlist] at hrun
      exact absurd hrun (by simp)
    | cons root rest =>
      have hne : vm.mmAllocator ≠ [] := by rw [hpool]; simp
      have hends := @mmCreate_ends _ False tf hfree (.inr hne) (.inr (by rw [hlist]; simp))
      obtain ⟨r, vm', hrun, hr, htakes⟩ := (hends.total id).and (mmCreate_takes hfree hne hlist)
      rw [hrun, Option.map_some] at heq
      have hiff : Ends (mmCreateLocked tf) (vm, held) (CreateClean vm held tf) ↔
          CreateClean vm held tf r (vm', locksAfter (held.filter (· ≠ .mm obj)) r) :=
        ⟨fun h => h.elim heq, fun h => .of_eq heq h⟩
      rw [hiff]
      cases hr with
      | created good evolves entries mms =>
        rw [hpool] at mms
        obtain rfl := (List.cons.inj mms).1
        refine iff_of_true (.created entries List.mem_cons_self fun lk hlk => ?_)
          ⟨by simp, by simp, fun htwo => ?_⟩
        · exact (List.mem_cons.1 hlk).imp_right (hsub lk)
        · rw [List.length_cons] at htwo
          rw [if_pos (by omega)] at htakes
          exact absurd htakes.1 (by simp)
      | failed evolves free pool' mms =>
        have hshort : rest.length < 2 := by
          by_contra hlong
          rw [if_neg hlong] at htakes
          exact absurd htakes (by simp)
        rw [if_pos hshort] at htakes
        have hlength : vm'.mmAllocator.length = vm.mmAllocator.length := by
          rw [hpool] at pool'
          obtain ⟨rfl, rfl⟩ := List.cons.inj pool'
          rw [mms, pushObj, if_neg hobj, hpool]
        rcases rest with _ | ⟨leaked, _ | ⟨_, _⟩⟩
        · refine iff_of_true (.failed hsub (fun p => ?_) hlength) ⟨by simp, by simp, by simp⟩
          rw [htakes.2, hlist]
        · -- the table of the middle level is lost
          refine iff_of_false ?_ fun h => h.2.2 rfl
          intro hclean
          cases hclean with
          | failed locks pages =>
            have hin := (pages leaked).2 (by rw [hlist]; simp)
            have hnodup := hfree.nodup
            rw [htakes.2, List.mem_singleton] at hin
            rw [hlist, hin] at hnodup
            exact absurd hnodup (by simp)
        · exact absurd hshort (by simp)

end Locked

/-- With 32 free pages it does. -/
theorem mmCreate_clean_initVm :
    Ends (mmCreateLocked 0x90000000) (initVm, [.proc]) (CreateClean initVm [.proc] 0x90000000) :=
  (mmCreate_clean freeOk_initVm (by decide) [.proc] 0x90000000).2 ⟨by decide, by decide, by decide⟩

/-- With none it releases a lock that is not held. -/
theorem mmCreate_panics :
    ¬ Ends (mmCreateLocked 0x90000000) ({ initVm with freelist := [] }, [.proc])
    (CreateClean { initVm with freelist := [] } [.proc] 0x90000000) := by
  have hpanic : mmCreateLocked 0x90000000 ({ initVm with freelist := [] }, [.proc]) = none := rfl
  rintro ⟨r, s, hrun, -⟩
  rw [hpanic] at hrun
  exact absurd hrun (by simp)

end SignalOS
