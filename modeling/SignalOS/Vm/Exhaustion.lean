import SignalOS.Lib.Commute
import SignalOS.Vm.Mm

/-!
# Computations that run out of pages

* `Vm.more` — the same memory with more free pages, after those there are.
* What gives pages back, or takes none, does not notice them (`Commutes`); what takes
  pages does not if it succeeds (`CommutesIf`).
-/

namespace SignalOS

open Partial

/-- The same memory with more free pages. -/
def Vm.more (l : List Uint64) (vm : Vm) : Vm := { vm with freelist := vm.freelist ++ l }

variable {l : List Uint64} {mm : Mm} {vma : Vma}

/-! ## Giving pages back, and using them -/

theorem kassert_commutes (c : Bool) : Commutes (Vm.more l) (kassert c) := .ite (.pure _) .fail

theorem loadPte_commutes (pte : PteRef) : Commutes (Vm.more l) (loadPte pte) :=
  .get_bind (fun _ => rfl) fun _ => .pure _

theorem storePte_commutes (pte : PteRef) (e : Uint64) : Commutes (Vm.more l) (storePte pte e) :=
  .modify fun _ => rfl

theorem setBytes_commutes (pa : Uint64) (c : Byte) (n : Uint64) :
    Commutes (Vm.more l) (setBytes pa c n) :=
  .modify fun _ => rfl

theorem storeBytes_commutes (pa : Uint64) (src : List Byte) :
    Commutes (Vm.more l) (storeBytes pa src) :=
  .modify fun _ => rfl

theorem walkaddr_more (vm : Vm) (mm : Mm) (va : Uint64) :
    walkaddr (vm.more l) mm va = walkaddr vm mm va :=
  walkaddr_congr (show (vm.more l).pte = vm.pte from rfl) va

theorem pageOf_commutes (mm : Mm) (va : Uint64) : Commutes (Vm.more l) (pageOf mm va) := by
  refine .get_bind (fun vm => ?_) fun _ => .bind (kassert_commutes _) fun _ => .pure _
  simp only [walkaddr_more]

theorem kfreepage_commutes (pa : Uint64) : Commutes (Vm.more l) (kfreepage pa) := by
  intro vm
  show (if !PGALIGNED pa || !(vm.kpageAllocatorBase ≤ pa + KERNEL_DIRECT_MAPPING_BASE &&
      pa + KERNEL_DIRECT_MAPPING_BASE < vm.kpageAllocatorBase + vm.kpageAllocatorSize) then none
        else some _) =
    (if !PGALIGNED pa || !(vm.kpageAllocatorBase ≤ pa + KERNEL_DIRECT_MAPPING_BASE &&
      pa + KERNEL_DIRECT_MAPPING_BASE < vm.kpageAllocatorBase + vm.kpageAllocatorSize) then none
        else some _).map _
  split
  · rfl
  · rfl

theorem kfreeVma_commutes (obj : Uint64) : Commutes (Vm.more l) (kfreeVma obj) := by
  intro vm
  unfold CommutesAt kfreeVma kfree
  split
  · rfl
  · rfl

theorem kfreeMm_commutes (obj : Uint64) : Commutes (Vm.more l) (kfreeMm obj) := by
  intro vm
  unfold CommutesAt kfreeMm kfree
  split
  · rfl
  · rfl

theorem mmCreateVma_commutes : Commutes (Vm.more l) mmCreateVma := by
  refine .bind (fun vm => ?_) fun _ => .pure _
  cases hpool : vm.vmaAllocator <;> simp [CommutesAt, kallocVma, kalloc, Vm.more, hpool]

theorem walkLevel_commutes (level : Nat) (va pagetable : Uint64) :
    Commutes (Vm.more l) (walkLevel level va false pagetable) := by
  refine .get_bind (fun _ => rfl) fun _ => .ite (.pure _) ?_
  exact .pure _

theorem walk_commutes (mm : Mm) (va : Uint64) : Commutes (Vm.more l) (walk mm va false) := by
  refine .ite (.pure _) (.bind (walkLevel_commutes _ _ _) fun r => ?_)
  cases r with
  | none => exact .pure _
  | some level1 =>
    refine .bind (walkLevel_commutes _ _ _) fun r => ?_
    cases r with
    | none => exact .pure _
    | some level0 => exact .pure _

theorem freevma_commutes (mm : Mm) (vma : Vma) : Commutes (Vm.more l) (freevma mm vma true) := by
  refine .bind (kassert_commutes _) fun _ =>
    .forM (fun va => .bind (walk_commutes _ _) fun r => ?_) _
  cases r with
  | none => exact .pure _
  | some pte =>
    refine .bind (loadPte_commutes _) fun e => .ite ?_ (.pure _)
    exact .bind (kfreepage_commutes _) fun _ => storePte_commutes _ _

theorem mmFreeVmas_commutes (mm : Mm) : Commutes (Vm.more l) (mmFreeVmas mm) :=
  .bind (.forM (fun vma => .bind (freevma_commutes mm vma) fun _ => kfreeVma_commutes _) _)
    fun _ => .pure _

theorem freepgt_commutes (level : Nat) (pgt : Uint64) :
    Commutes (Vm.more l) (freepgt level pgt) := by
  induction level generalizing pgt with
  | zero => exact .fail
  | succ level ih =>
    refine .bind (.forM (fun i => .bind (loadPte_commutes _) fun e => .ite ?_ (.pure _)) _)
      fun _ => kfreepage_commutes _
    exact .bind (ih _) fun _ => storePte_commutes _ _

theorem mmFree_commutes (mm : Mm) : Commutes (Vm.more l) (mmFree mm) :=
  .bind (kassert_commutes _) fun _ => .bind (mmFreeVmas_commutes mm) fun _ =>
    .bind (freepgt_commutes _ _) fun _ =>
    kfreeMm_commutes _

/-! ## Taking pages -/

theorem kallocpage_commutes : CommutesIf (Vm.more l) (fun pa => pa ≠ 0) kallocpage := by
  intro vm pa vm' h hpa
  unfold kallocpage at h ⊢
  cases hlist : vm.freelist with
  | nil =>
    rw [hlist] at h
    obtain ⟨rfl, -⟩ := Prod.mk.inj (Option.some.inj h)
    exact absurd rfl hpa
  | cons p rest =>
    rw [hlist] at h
    obtain ⟨rfl, rfl⟩ := Prod.mk.inj (Option.some.inj h)
    simp only [Vm.more, hlist, List.cons_append]

theorem walkLevel_commutesIf (level : Nat) (va pagetable : Uint64) :
    CommutesIf (Vm.more l) (fun r => r.isSome) (walkLevel level va true pagetable) := by
  refine .get_bind (fun _ => rfl) fun vm => .ite (fun _ => .of_commutes (.pure _)) fun _ =>
    .ite (fun hno => absurd hno (by decide)) fun _ => ?_
  refine .bind kallocpage_commutes (fun pa hpa => ?_) fun pa hpa => ?_
  · exact .ite (fun hzero => absurd hzero hpa) fun _ =>
      .of_commutes (.bind (.modify fun _ => rfl) fun _ => .pure _)
  · rw [if_pos (not_not.1 hpa)]
    exact .pure (by simp)

/-- A walk that finds a slot. -/
theorem walk_commutesIf (mm : Mm) (va : Uint64) :
    CommutesIf (Vm.more l) (fun r => r.isSome) (walk mm va true) := by
  refine .ite (fun _ => .of_commutes (.pure _)) fun _ => ?_
  refine .bind (walkLevel_commutesIf _ _ _) (fun r hr => ?_) fun r hr => ?_
  · obtain ⟨level1, rfl⟩ := Option.isSome_iff_exists.1 hr
    refine .bind (walkLevel_commutesIf _ _ _) (fun r hr => ?_) fun r hr => ?_
    · obtain ⟨level0, rfl⟩ := Option.isSome_iff_exists.1 hr
      exact .of_commutes (.pure _)
    · obtain rfl := Option.not_isSome_iff_eq_none.1 hr
      exact .pure (by simp)
  · obtain rfl := Option.not_isSome_iff_eq_none.1 hr
    exact .pure (by simp)

theorem mmMappageat_commutesIf (mm : Mm) (va pa flags : Uint64) :
    CommutesIf (Vm.more l) (fun r => 0 ≤ r) (mmMappageat mm va pa flags) := by
  refine .ite (fun _ => .of_commutes .fail) fun _ =>
    .ite (fun _ => .of_commutes (.pure _)) fun _ => ?_
  refine .bind (walk_commutesIf mm va) (fun r hr => ?_) fun r hr => ?_
  · obtain ⟨pte, rfl⟩ := Option.isSome_iff_exists.1 hr
    exact .of_commutes (.bind (loadPte_commutes _) fun e => .ite (.pure _)
      (.bind (storePte_commutes _ _) fun _ => .pure _))
  · obtain rfl := Option.not_isSome_iff_eq_none.1 hr
    exact .pure (by decide)

theorem kallocMm_commutes : Commutes (Vm.more l) kallocMm := by
  intro vm
  cases hpool : vm.mmAllocator <;> simp [CommutesAt, kallocMm, kalloc, Vm.more, hpool]

/-- An address space that was made. -/
theorem mmCreate_commutesIf (tf : Uint64) :
    CommutesIf (Vm.more l) (fun r => r.isSome) (mmCreate tf) := by
  have hfree (mm : Mm) : Returns (fun r : Option Mm => ¬ r.isSome) (mmCreate.freeMm mm) :=
    .bind fun _ => .bind fun _ => .pure (by simp)
  refine .bind_of_commutes kallocMm_commutes fun obj =>
    .bind kallocpage_commutes (fun pa hpa => ?_) fun pa hpa => ?_
  · refine .ite (fun hzero => absurd hzero hpa) fun _ => .bind_of_commutes (.modify fun _ => rfl)
      fun _ => ?_
    refine .get_bind (fun _ => rfl) fun vm => .bind (mmMappageat_commutesIf _ _ _ _)
      (fun r hr => ?_) fun r hr => ?_
    · refine .ite (fun hneg => absurd hr (not_le.2 hneg)) fun _ => ?_
      refine .bind (mmMappageat_commutesIf _ _ _ _) (fun r hr => ?_) fun r hr => ?_
      · exact .ite (fun _ => .of_not (hfree _)) fun _ => .of_commutes (.pure _)
      · have hne : r ≠ 0 := fun heq => hr heq.ge
        rw [if_pos hne]
        exact hfree _
    · rw [if_pos (not_le.1 hr)]
      exact hfree _
  · rw [if_pos (not_not.1 hpa)]
    exact .fail

theorem mmMappagesLoop_commutesIf (mm : Mm) (vma : Vma) (pages : List Uint64) :
    CommutesIf (Vm.more l) (fun r => 0 ≤ r) (mmMappagesLoop mm vma pages) := by
  induction pages with
  | nil => exact .of_commutes (.pure _)
  | cons va rest ih =>
    refine .bind (walk_commutesIf mm va) (fun r hr => ?_) fun r hr => ?_
    · obtain ⟨pte, rfl⟩ := Option.isSome_iff_exists.1 hr
      refine .bind_of_commutes (loadPte_commutes _) fun e =>
        .ite (fun _ => .of_commutes (.pure _)) fun _ => ?_
      refine .bind kallocpage_commutes (fun pa hpa => ?_) fun pa hpa => ?_
      · exact .ite (fun hzero => absurd hzero hpa) fun _ =>
          .bind_of_commutes (storePte_commutes _ _) fun _ => ih
      · rw [if_pos (not_not.1 hpa)]
        exact .pure (by decide)
    · obtain rfl := Option.not_isSome_iff_eq_none.1 hr
      exact .pure (by decide)

/-- A vma that was mapped. -/
theorem mmMappages_commutesIf (mm : Mm) (vma : Vma) :
    CommutesIf (Vm.more l) (fun r => 0 ≤ r.1) (mmMappages mm vma) := by
  refine .bind_of_commutes (kassert_commutes _) fun _ =>
    .bind_of_commutes (kassert_commutes _) fun _ =>
    .bind_of_commutes (kassert_commutes _) fun _ =>
      .ite (fun _ => .of_commutes (.pure _)) fun _ => ?_
  refine .bind (mmMappagesLoop_commutesIf mm vma _) (fun ret hret => ?_) fun ret hret => ?_
  · exact .ite (fun hneg => absurd hret (not_le.2 hneg)) fun _ => .of_commutes (.pure _)
  · rw [if_pos (not_le.1 hret)]
    exact .bind fun _ => .bind fun _ => .pure hret

theorem copyPages_commutes (old new : Mm) (pages : List Uint64) :
    Commutes (Vm.more l) (pages.forM fun va => do
      let paOld ← pageOf old va
      let paNew ← pageOf new va
      storeBytes paNew (readBytes (← get).byte paOld 4096)) :=
  .forM (fun _ => .bind (pageOf_commutes _ _) fun _ => .bind (pageOf_commutes _ _) fun _ =>
    .get_bind (fun _ => rfl) fun _ => storeBytes_commutes _ _) _

/-- An address space that was copied. -/
theorem mmCopyLoop_commutesIf (old new : Mm) (vmas : List Vma) :
    CommutesIf (Vm.more l) (fun r => 0 ≤ r.1) (mmCopyLoop old new vmas) := by
  induction vmas generalizing new with
  | nil => exact .of_commutes (.pure _)
  | cons vma rest ih =>
    refine .bind_of_commutes mmCreateVma_commutes fun obj => .bind (mmMappages_commutesIf _ _)
      (fun r hr => ?_) fun r hr => ?_
    · refine .ite (fun _ => ?_) fun _ => ?_
      · exact .of_commutes (.bind (mmFreeVmas_commutes _) fun _ => .pure _)
      · exact .bind_of_commutes (copyPages_commutes _ _ _) fun _ => ih _
    · have hne : r.1 ≠ 0 := fun heq => hr heq.ge
      show Returns _ (if r.1 ≠ 0 then _ else _)
      rw [if_pos hne]
      exact .bind fun _ => .pure (show ¬ (0 : Int) ≤ -ENOMEM by decide)

end SignalOS
