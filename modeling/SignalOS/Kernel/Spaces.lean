import SignalOS.Kernel.State
import SignalOS.Vm.Isolation
import SignalOS.Vm.Lifetime

/-!
# The address spaces of all processes

* `SameTables` — memory changes in its bytes and its pools of objects alone.
* `AddressSpaces` — every process that has an address space has one in good order, and
  no two of them have a page in common.
* `AddressSpaces.replace` — **a process that works on its own pages, and on free ones**,
  leaves the others alone; `evolve`, `drop`, `add` — its cases.
* `AddressSpaces.freeproc_ends` — freeing a process.
-/

namespace SignalOS

open Partial

variable {vm vm' : Vm} {mm mm' : Mm} {pool pool' : Slot → Proc} {i j : Slot} {p : Proc}
  {own' : Uint64 → Prop}

/-- The page tables and the page allocator are the same in both states. -/
structure SameTables (vm vm' : Vm) : Prop where
  pte : vm'.pte = vm.pte
  freelist : vm'.freelist = vm.freelist
  base : vm'.kpageAllocatorBase = vm.kpageAllocatorBase
  size : vm'.kpageAllocatorSize = vm.kpageAllocatorSize

theorem SameTables.refl (vm : Vm) : SameTables vm vm := ⟨rfl, rfl, rfl, rfl⟩

theorem SameTables.trans {vm₁ vm₂ vm₃ : Vm} (h : SameTables vm₁ vm₂) (h' : SameTables vm₂ vm₃) :
    SameTables vm₁ vm₃ :=
  ⟨h'.pte.trans h.pte, h'.freelist.trans h.freelist, h'.base.trans h.base, h'.size.trans h.size⟩

theorem SameTables.manages {q : Uint64} (h : SameTables vm vm') (hq : vm.Manages q) :
    vm'.Manages q :=
  ⟨hq.start, hq.ne_zero, h.base ▸ hq.lower, h.base ▸ h.size ▸ hq.upper⟩

/-- The pages of the address space that a process has. -/
def Proc.owns (p : Proc) (vm : Vm) (q : Uint64) : Prop := ∃ mm, p.mm = some mm ∧ Owns vm mm.pgt q

theorem Proc.owns_some (h : p.mm = some mm) (q : Uint64) : p.owns vm q ↔ Owns vm mm.pgt q :=
  ⟨fun ⟨_, hsome, hown⟩ => Option.some.inj (h.symm.trans hsome) ▸ hown, fun hown => ⟨mm, h, hown⟩⟩

theorem Proc.owns_none (h : p.mm = none) (q : Uint64) : ¬ p.owns vm q := fun ⟨_, hsome, _⟩ =>
  nomatch h.symm.trans hsome

/-- **The address spaces of a table of processes are in good order.** -/
structure AddressSpaces (vm : Vm) (pool : Slot → Proc) : Prop where
  free : FreeOk vm
  wf : ∀ i mm, (pool i).mm = some mm → MmWf vm mm
  refcnt : ∀ i mm, (pool i).mm = some mm → mm.refcnt = 1
  apart : ∀ i j q, i ≠ j → (pool i).owns vm q → ¬ (pool j).owns vm q

namespace AddressSpaces

/-- The bytes of memory do not matter, nor do the pools of objects. -/
theorem of_tables (h : AddressSpaces vm pool) (hsame : SameTables vm vm') :
    AddressSpaces vm' pool := by
  have howns (pgt q : Uint64) : Owns vm' pgt q ↔ Owns vm pgt q := by rw [Owns, Owns, hsame.pte]
  refine ⟨⟨hsame.freelist ▸ h.free.nodup, fun p hp => hsame.manages
    (h.free.managed p (hsame.freelist ▸ hp))⟩, fun i mm hi => ?_, h.refcnt, ?_⟩
  · have hwf := h.wf i mm hi
    exact hwf.of_entries (hwf.good.of_same hsame.pte hsame.freelist fun _ => hsame.manages)
      (by rw [hsame.pte])
  · rintro i j q hij ⟨mm, hi, hown⟩ ⟨mm', hj, hown'⟩
    exact h.apart i j q hij ⟨mm, hi, (howns _ _).1 hown⟩ ⟨mm', hj, (howns _ _).1 hown'⟩

/-- Only the address spaces of the processes matter. -/
theorem congr_pool (h : AddressSpaces vm pool) (hmm : ∀ i, (pool' i).mm = (pool i).mm) :
    AddressSpaces vm pool' := by
  have howns (i : Slot) (q : Uint64) : (pool' i).owns vm q ↔ (pool i).owns vm q := by
    rw [Proc.owns, Proc.owns, hmm i]
  refine ⟨h.free, fun i mm hi => h.wf i mm (hmm i ▸ hi), fun i mm hi => h.refcnt i mm (hmm i ▸ hi),
    fun i j q hij hown hown' => ?_⟩
  exact h.apart i j q hij ((howns i q).1 hown) ((howns j q).1 hown')

section Replace

variable (h : AddressSpaces vm pool) (hevolves : Evolves ((pool i).owns vm) own' vm vm')

include h hevolves

/-- The other address spaces are as they were, and have none of the pages. -/
theorem others {mm : Mm} (hj : (pool j).mm = some mm) (hne : j ≠ i) :
    Avoids vm mm.pgt ((pool i).owns vm) ∧
    Avoids vm' mm.pgt own' ∧ ∀ q, Owns vm' mm.pgt q ↔ Owns vm mm.pgt q := by
  have havoids : Avoids vm mm.pgt ((pool i).owns vm) :=
    fun q hown => h.apart j i q hne ⟨mm, hj, hown⟩
  have hgood := (h.wf j mm hj).good
  exact ⟨havoids, hevolves.apart hgood havoids, fun q => hevolves.owns_iff hgood havoids⟩

/-- **One process works on its own pages, and on free ones.** -/
theorem replace (hfree : FreeOk vm') (hwf : ∀ mm, p.mm = some mm → MmWf vm' mm ∧ mm.refcnt = 1)
    (howns : ∀ q, p.owns vm' q → own' q) : AddressSpaces vm' (Function.update pool i p) := by
  have hother {j : Slot} (hne : j ≠ i) : Function.update pool i p j = pool j :=
    Function.update_of_ne hne _ _
  have hself : Function.update pool i p i = p := Function.update_self _ _ _
  have hpages {j : Slot} {q : Uint64} (hne : j ≠ i) (hown : (pool j).owns vm' q) :
      (pool j).owns vm q ∧ ¬ own' q := by
    obtain ⟨mm, hj, hown⟩ := hown
    obtain ⟨-, havoids', hsame⟩ := h.others hevolves hj hne
    exact ⟨⟨mm, hj, (hsame q).1 hown⟩, havoids' q hown⟩
  refine ⟨hfree, fun j mm hj => ?_, fun j mm hj => ?_, fun j x q hjx hown hown' => ?_⟩
  · by_cases hji : j = i
    · subst hji
      rw [hself] at hj
      exact (hwf mm hj).1
    · rw [hother hji] at hj
      exact (h.wf j mm hj).other hevolves (h.others hevolves hj hji).1 hfree
  · by_cases hji : j = i
    · subst hji
      rw [hself] at hj
      exact (hwf mm hj).2
    · rw [hother hji] at hj
      exact h.refcnt j mm hj
  · by_cases hji : j = i
    · subst hji
      rw [hself] at hown
      rw [hother hjx.symm] at hown'
      exact (hpages hjx.symm hown').2 (howns q hown)
    · rw [hother hji] at hown
      by_cases hxi : x = i
      · subst hxi
        rw [hself] at hown'
        exact (hpages hji hown).2 (howns q hown')
      · rw [hother hxi] at hown'
        exact h.apart j x q hjx (hpages hji hown).1 (hpages hxi hown').1

end Replace

/-- Free pages are taken, and none of them is given to a process. -/
theorem evolve (h : AddressSpaces vm pool) (hevolves : Evolves (fun _ => False) own' vm vm')
    (hfree : FreeOk vm') : AddressSpaces vm' pool := by
  have havoids (mm : Mm) : Avoids vm mm.pgt fun _ => False := fun _ _ hno => hno
  have howns {i : Slot} {q : Uint64} (hown : (pool i).owns vm' q) : (pool i).owns vm q := by
    obtain ⟨mm, hi, hown⟩ := hown
    exact ⟨mm, hi, (hevolves.owns_iff (h.wf i mm hi).good (havoids mm)).1 hown⟩
  exact ⟨hfree, fun i mm hi => (h.wf i mm hi).other hevolves (havoids mm) hfree, h.refcnt,
    fun i j q hij hown hown' => h.apart i j q hij (howns hown) (howns hown')⟩

/-- A process without an address space comes into the slot. -/
theorem drop (h : AddressSpaces vm pool) (hp : p.mm = none) :
    AddressSpaces vm (Function.update pool i p) :=
  h.replace (.refl _ vm) h.free (fun _ hmm => nomatch hp.symm.trans hmm) fun q hown =>
    absurd hown (Proc.owns_none hp q)

/-- A process gets its first address space, of pages that were free. -/
theorem add (h : AddressSpaces vm pool) (hnone : (pool i).mm = none)
    (hevolves : Evolves (fun _ => False) (Owns vm' mm.pgt) vm vm') (hwf : MmWf vm' mm)
    (href : mm.refcnt = 1) (hp : p.mm = some mm) :
    AddressSpaces vm' (Function.update pool i p) := by
  have hown (q : Uint64) : (pool i).owns vm q ↔ False := iff_false_intro (Proc.owns_none hnone q)
  refine h.replace (hevolves.congr hown fun _ => Iff.rfl) hwf.good.free (fun mm' hmm => ?_)
    fun q => (Proc.owns_some hp q).1
  obtain rfl := Option.some.inj (hp.symm.trans hmm)
  exact ⟨hwf, href⟩

end AddressSpaces

/-- A computation on memory, as one of the kernel. -/
theorem liftVm_ends {α : Type} {x : VmM α} {k : Kernel} {Q : α → Vm → Prop} (h : Ends x k.vm Q) :
    Ends (liftVm x) k fun a k' => k' = { k with vm := k'.vm } ∧ Q a k'.vm := by
  obtain ⟨a, vm', hx, hQ⟩ := h
  exact ⟨a, { k with vm := vm' }, liftVm_eq_some.2 ⟨vm', hx, rfl⟩, rfl, hQ⟩

/-- **A process is freed**, if its address space can be. -/
theorem freeproc_ends {k : Kernel} (hmm : (k.pool i).mm = some mm) (htidy : Tidy k.vm mm)
    (href : 0 < mm.refcnt) :
    Ends (freeproc i) k fun _ k' => k' = { k with vm := k'.vm }.setProc i (k.pool i).release ∧
      Evolves (Owns k.vm mm.pgt) (fun _ => False) k.vm k'.vm ∧ FreeOk k'.vm ∧
      k'.vm.mmAllocator = pushObj mm.addr k.vm.mmAllocator ∧
      k'.vm.vmaAllocator = pushVmas mm.vma k.vm.vmaAllocator := by
  refine .bind_of_eq (a := k.pool i) (t := k) rfl ?_
  rw [hmm]
  refine .bind (liftVm_ends (mmFree_ends htidy href)) ?_
  rintro _ k₁ ⟨hk₁, hfreed⟩
  obtain ⟨vm', rfl⟩ : ∃ vm', k₁ = { k with vm := vm' } := ⟨_, hk₁⟩
  exact .of_eq rfl ⟨rfl, hfreed⟩

/-- The others do not notice. -/
theorem AddressSpaces.freeproc_ends {k : Kernel} (h : AddressSpaces k.vm k.pool) (i : Slot) :
    Ends (freeproc i) k fun _ k' => k' = { k with vm := k'.vm }.setProc i (k.pool i).release ∧
      Evolves ((k.pool i).owns k.vm) (fun _ => False) k.vm k'.vm ∧
        AddressSpaces k'.vm k'.pool := by
  have hdone {vm' : Vm} (hfree : FreeOk vm')
      (hevolves : Evolves ((k.pool i).owns k.vm) (fun _ => False) k.vm vm') :
      AddressSpaces vm' (Function.update k.pool i (k.pool i).release) :=
    h.replace hevolves hfree (fun _ hmm => nomatch hmm) fun q hown =>
      absurd hown (Proc.owns_none rfl q)
  cases hmm : (k.pool i).mm with
  | none =>
    have hevolves : Evolves ((k.pool i).owns k.vm) (fun _ => False) k.vm k.vm := by
      refine (Evolves.refl (fun _ => False) k.vm).congr (fun q => ?_) fun q => Iff.rfl
      exact iff_false_intro (Proc.owns_none hmm q)
    refine .bind_of_eq (a := k.pool i) (t := k) rfl ?_
    rw [hmm]
    exact .of_eq rfl ⟨rfl, hevolves, hdone h.free hevolves⟩
  | some mm =>
    refine (SignalOS.freeproc_ends hmm (h.wf i mm hmm).toTidy
      (by rw [h.refcnt i mm hmm]; decide)).mono fun _ k' hends => ?_
    obtain ⟨hk', hfreed, hfree, -, -⟩ := hends
    have hevolves := hfreed.congr (Proc.owns_some hmm) fun _ => Iff.rfl
    refine ⟨hk', hevolves, ?_⟩
    rw [hk']
    exact hdone hfree hevolves

end SignalOS
