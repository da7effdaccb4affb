import SignalOS.Proc.Loader
import SignalOS.Vm.Ownership

/-!
# What loading a program leaves alone

The bounds of the page allocator, the trampoline and the pool of string buffers:
nothing that `load_user_elf` does on memory changes them, whatever memory holds.

* `KeepsStatic` — no run of a computation changes them.
* `loadUserElf_static` — **every run of `load_user_elf`**.
-/

namespace SignalOS

open Partial

variable {α β : Type}

/-- No run of the computation changes them. -/
def KeepsStatic (x : VmM α) : Prop := Keeps Static x

namespace KeepsStatic

theorem pure (a : α) : KeepsStatic (Pure.pure a) := Keeps.pure Static.refl a

theorem fail : KeepsStatic (fun _ => none : VmM α) := Keeps.fail

theorem bind {x : VmM α} {f : α → VmM β} (hx : KeepsStatic x) (hf : ∀ a, KeepsStatic (f a)) :
    KeepsStatic (x >>= f) :=
  Keeps.bind (fun _ _ _ => Static.trans) hx hf

theorem get : KeepsStatic (MonadState.get : VmM Vm) := Keeps.get Static.refl

/-- Other fields are set. -/
theorem modify {f : Vm → Vm} (hf : ∀ vm, Static vm (f vm)) : KeepsStatic (modify f : VmM Unit) :=
  Keeps.modify hf

theorem ite {c : Prop} [Decidable c] {x y : VmM α} (hx : KeepsStatic x) (hy : KeepsStatic y) :
    KeepsStatic (if c then x else y) := Keeps.ite hx hy

theorem forM {l : List β} {g : β → VmM Unit} (hg : ∀ b, KeepsStatic (g b)) :
    KeepsStatic (l.forM g) :=
  Keeps.forM Static.refl (fun _ _ _ => Static.trans) hg

theorem kassert (c : Bool) : KeepsStatic (kassert c) := ite (pure ()) fail

end KeepsStatic

/-! ## The allocators -/

theorem kallocpage_static : KeepsStatic kallocpage := by
  intro vm a vm' h
  cases hfree : vm.freelist with
  | nil =>
    rw [kallocpage, hfree] at h
    cases h
    exact .refl vm
  | cons p rest =>
    rw [kallocpage, hfree] at h
    cases h
    exact ⟨rfl, rfl, rfl, rfl⟩

theorem kfreepage_static (pa : Uint64) : KeepsStatic (kfreepage pa) := by
  intro vm a vm' h
  rw [kfreepage] at h
  split at h
  · cases h
  · cases h
    exact ⟨rfl, rfl, rfl, rfl⟩

/-- An object of another pool. -/
theorem kalloc_static {pool : Vm → List Uint64} {put : Vm → List Uint64 → Vm}
    (hput : ∀ vm l, Static vm (put vm l)) :
    KeepsStatic (kalloc pool put) := by
  intro vm a vm' h
  cases hpool : pool vm with
  | nil =>
    rw [kalloc, hpool] at h
    cases h
  | cons obj rest =>
    rw [kalloc, hpool] at h
    cases h
    exact hput vm rest

theorem kfree_static {pool : Vm → List Uint64} {put : Vm → List Uint64 → Vm}
    (hput : ∀ vm l, Static vm (put vm l))
    (obj : Uint64) : KeepsStatic (kfree pool put obj) := by
  intro vm a vm' h
  rw [kfree] at h
  split at h
  · cases h
    exact .refl vm
  · cases h
    exact hput vm _

theorem kallocMm_static : KeepsStatic kallocMm := by
  rw [kallocMm]
  exact kalloc_static fun _ _ => ⟨rfl, rfl, rfl, rfl⟩

theorem kfreeMm_static (obj : Uint64) : KeepsStatic (kfreeMm obj) := by
  rw [kfreeMm]
  refine kfree_static (fun _ _ => ?_) obj
  exact ⟨rfl, rfl, rfl, rfl⟩

theorem kallocVma_static : KeepsStatic kallocVma := by
  rw [kallocVma]
  exact kalloc_static fun _ _ => ⟨rfl, rfl, rfl, rfl⟩

theorem kfreeVma_static (obj : Uint64) : KeepsStatic (kfreeVma obj) := by
  rw [kfreeVma]
  refine kfree_static (fun _ _ => ?_) obj
  exact ⟨rfl, rfl, rfl, rfl⟩

theorem mmCreateVma_static : KeepsStatic mmCreateVma := .bind kallocVma_static fun _ => .pure _

/-! ## Page tables -/

theorem loadPte_static (pte : PteRef) : KeepsStatic (loadPte pte) := .bind .get fun _ => .pure _

theorem storePte_static (pte : PteRef) (e : Uint64) : KeepsStatic (storePte pte e) :=
  .modify fun _ => ⟨rfl, rfl, rfl, rfl⟩

theorem walkLevel_static (level : Nat) (va : Uint64) (alloc : Bool) (t : Uint64) :
    KeepsStatic (walkLevel level va alloc t) := by
  refine .bind .get fun vm =>
    .ite (.pure _) (.ite (.pure _) (.bind kallocpage_static fun pa => .ite (.pure _) ?_))
  exact .bind (.modify fun _ => ⟨rfl, rfl, rfl, rfl⟩) fun _ => .pure _

theorem walk_static (mm : Mm) (va : Uint64) (alloc : Bool) : KeepsStatic (walk mm va alloc) := by
  refine .ite (.pure _) (.bind (walkLevel_static _ _ _ _) fun r => ?_)
  cases r with
  | none => exact .pure _
  | some level1 =>
    refine .bind (walkLevel_static _ _ _ _) fun r => ?_
    cases r with
    | none => exact .pure _
    | some level0 => exact .pure _

theorem mmMappageat_static (mm : Mm) (va pa flags : Uint64) :
    KeepsStatic (mmMappageat mm va pa flags) := by
  refine .ite .fail (.ite (.pure _) (.bind (walk_static _ _ _) fun r => ?_))
  cases r with
  | none => exact .pure _
  | some pte =>
    exact .bind (loadPte_static _) fun _ => .ite (.pure _) (.bind (storePte_static _ _) fun _ =>
      .pure _)

theorem mmCreate_static (tf : Uint64) : KeepsStatic (mmCreate tf) := by
  have hfail (mm : Mm) : KeepsStatic (mmCreate.freeMm mm) :=
    .bind (kfreepage_static _) fun _ => .bind (kfreeMm_static _) fun _ => .pure _
  refine .bind kallocMm_static fun obj => .bind kallocpage_static fun pa => .ite .fail ?_
  refine .bind (.modify fun _ => ⟨rfl, rfl, rfl, rfl⟩) fun _ => .bind .get fun vm => ?_
  refine .bind (mmMappageat_static _ _ _ _) fun _ => .ite (hfail _) ?_
  exact .bind (mmMappageat_static _ _ _ _) fun _ => .ite (hfail _) (.pure _)

/-! ## Freeing an address space -/

theorem freevma_static (mm : Mm) (vma : Vma) (free : Bool) :
    KeepsStatic (freevma mm vma free) := by
  refine .bind (.kassert _) fun _ => .forM fun va => .bind (walk_static _ _ _) fun r => ?_
  cases r with
  | none => exact .pure _
  | some pte =>
    have hclear : KeepsStatic (storePte pte 0) := storePte_static _ _
    exact .bind (loadPte_static _) fun e =>
      .ite (.ite (.bind (kfreepage_static _) fun _ => hclear) hclear) (.pure _)

theorem mmFreeVmas_static (mm : Mm) : KeepsStatic (mmFreeVmas mm) :=
  .bind (.forM fun _ => .bind (freevma_static _ _ _) fun _ => kfreeVma_static _) fun _ => .pure _

theorem freepgt_static (level : Nat) (pgt : Uint64) : KeepsStatic (freepgt level pgt) := by
  induction level generalizing pgt with
  | zero => exact .fail
  | succ level ih =>
    refine .bind (.forM fun i => .bind (loadPte_static _) fun e => .ite ?_ (.pure _)) fun _ =>
      kfreepage_static _
    exact .bind (ih _) fun _ => storePte_static _ _

theorem mmFree_static (mm : Mm) : KeepsStatic (mmFree mm) :=
  .bind (.kassert _) fun _ => .bind (mmFreeVmas_static _) fun _ =>
    .bind (freepgt_static _ _) fun _ => kfreeMm_static _

/-! ## Building an image -/

theorem mmMappagesLoop_static (mm : Mm) (vma : Vma) (pages : List Uint64) :
    KeepsStatic (mmMappagesLoop mm vma pages) := by
  induction pages with
  | nil => exact .pure _
  | cons va rest ih =>
    refine .bind (walk_static _ _ _) fun r => ?_
    cases r with
    | none => exact .pure _
    | some pte =>
      refine .bind (loadPte_static _) fun _ => .ite (.pure _) (.bind kallocpage_static fun pa =>
        .ite (.pure _) ?_)
      exact .bind (storePte_static _ _) fun _ => ih

theorem mmMappages_static (mm : Mm) (vma : Vma) : KeepsStatic (mmMappages mm vma) := by
  refine .bind (.kassert _) fun _ => .bind (.kassert _) fun _ => .bind (.kassert _) fun _ =>
    .ite (.pure _) ?_
  refine .bind (mmMappagesLoop_static _ _ _) fun ret => .ite ?_ (.pure _)
  exact .bind (freevma_static _ _ _) fun _ => .bind (kfreeVma_static _) fun _ => .pure _

theorem pageOf_static (mm : Mm) (va : Uint64) : KeepsStatic (pageOf mm va) :=
  .bind .get fun _ => .bind (.kassert _) fun _ => .pure _

theorem userKva_static (mm : Mm) (va : Uint64) : KeepsStatic (userKva mm va) :=
  .bind .get fun _ => .bind (.kassert _) fun _ => .pure _

theorem storeBytes_static (pa : Uint64) (src : List Byte) : KeepsStatic (storeBytes pa src) :=
  .modify fun _ => ⟨rfl, rfl, rfl, rfl⟩

theorem setBytes_static (pa : Uint64) (c : Byte) (n : Uint64) : KeepsStatic (setBytes pa c n) :=
  .modify fun _ => ⟨rfl, rfl, rfl, rfl⟩

theorem bytes_static (app : UserApp) (off n : Uint64) : KeepsStatic (app.bytes off n) := by
  intro vm bs vm' h
  obtain ⟨_, -, heq⟩ := Option.bind_eq_some_iff.1 h
  obtain ⟨-, rfl⟩ := Prod.mk.inj (Option.some.inj heq)
  exact ⟨rfl, rfl, rfl, rfl⟩

theorem loadFile_static (app : UserApp) (mm : Mm) (phdr : Phdr) (pages : List Uint64)
    (off remains : Uint64) :
    KeepsStatic (loadFile app mm phdr pages off remains) := by
  induction pages generalizing off remains with
  | nil => exact .pure _
  | cons va rest ih =>
    refine .bind (pageOf_static _ _) fun pa => .bind (bytes_static _ _ _) fun src =>
      .bind (storeBytes_static _ _) fun _ => ?_
    exact .ite (.bind (setBytes_static _ _ _) fun _ => ih _ _) (ih _ _)

theorem clearBss_static (mm : Mm) (stop : Uint64) (fuel : Nat) (va : Uint64) :
    KeepsStatic (clearBss mm stop fuel va) := by
  induction fuel generalizing va with
  | zero => exact .pure _
  | succ fuel ih =>
    exact .ite (.bind (pageOf_static _ _) fun _ => .bind (setBytes_static _ _ _) fun _ => ih _)
      (.pure _)

theorem loadPhdr_static (app : UserApp) (mm : Mm) (phdr : Phdr) :
    KeepsStatic (loadPhdr app mm phdr) := by
  refine .bind (.kassert _) fun _ => .bind mmCreateVma_static fun _ =>
    .bind (mmMappages_static _ _) fun _ => ?_
  have hdone (rest : Uint64) (mm : Mm) :
      KeepsStatic (do kassert (rest == 0); return .ok mm : VmM (Build Mm)) :=
    .bind (.kassert _) fun _ => .pure _
  refine .ite (.pure _) (.bind (loadFile_static _ _ _ _ _ _) fun rest => .ite ?_ (hdone _ _))
  exact .bind (clearBss_static _ _ _ _) fun _ => hdone _ _

theorem loadPhdrs_static (app : UserApp) (phdrs : List Phdr) (mm : Mm) (top : Uint64) :
    KeepsStatic (loadPhdrs app phdrs mm top) := by
  induction phdrs generalizing mm top with
  | nil => exact .pure _
  | cons phdr rest ih =>
    refine .ite (ih _ _) (.bind (loadPhdr_static _ _ _) fun r => ?_)
    cases r with
    | ok mm => exact ih _ _
    | bad ret mm => exact .pure _

theorem pushStrings_static (mm : Mm) (args : List (List Byte)) (sp : Uint64) :
    KeepsStatic (pushStrings mm args sp) := by
  induction args generalizing sp with
  | nil => exact .pure _
  | cons arg rest ih =>
    exact .bind (userKva_static _ _) fun _ => .bind (storeBytes_static _ _) fun _ =>
      .bind (ih _) fun _ => .pure _

theorem pushArgv_static (mm : Mm) (ptrs : List Uint64) (sp : Uint64) :
    KeepsStatic (pushArgv mm ptrs sp) := by
  induction ptrs generalizing sp with
  | nil => exact .pure _
  | cons ptr rest ih =>
    exact .bind (userKva_static _ _) fun _ => .bind (storeBytes_static _ _) fun _ => ih _

theorem buildImage_static (app : UserApp) (mm : Mm) (args : List (List Byte)) :
    KeepsStatic (buildImage app mm args) := by
  refine .bind (loadPhdrs_static _ _ _ _) fun r => ?_
  cases r with
  | bad ret mm => exact .pure _
  | ok r =>
    refine .bind mmCreateVma_static fun _ => .bind (mmMappages_static _ _) fun _ =>
      .ite (.pure _) ?_
    refine .bind mmCreateVma_static fun _ => .bind (mmMappages_static _ _) fun _ =>
      .ite (.pure _) ?_
    refine .bind (.forM fun va => .bind (pageOf_static _ _) fun _ => setBytes_static _ _ _)
      fun _ => ?_
    exact .bind (pushStrings_static _ _ _) fun _ => .bind (pushArgv_static _ _ _) fun _ => .pure _

/-- **Every run of `load_user_elf`.** -/
theorem loadUserElf_static (app : UserApp) (p : Proc) (args : List (List Byte)) :
    KeepsStatic (loadUserElf app p args) := by
  refine .bind (.kassert _) fun _ => .bind (mmCreate_static _) fun r => ?_
  cases r with
  | none => exact .pure _
  | some newMm =>
    refine .bind (buildImage_static _ _ _) fun r => ?_
    cases r with
    | bad ret mm => exact .bind (mmFree_static _) fun _ => .pure _
    | ok img =>
      dsimp only
      split
      · exact .pure _
      · exact .bind (mmFree_static _) fun _ => .pure _

end SignalOS
