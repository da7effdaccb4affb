import SignalOS.Trap.Trampoline
import SignalOS.Vm.Booted
import SignalOS.Vm.Create
import SignalOS.Vm.Isolation

/-!
# The address spaces around the trampoline

What the code of the trampoline page needs of the two address spaces, from the page tables in
memory.

* `paged` — a hart that translates addresses by the page tables.
* `booted_xlate` — the kernel's translation stays as it is after boot.
* `ProcessTables` — the tables of a process: `ProcessTables.created` — `mm_create` makes such
  tables, `ProcessTables.changes`, `ProcessTables.other` — work on the process's and on other pages
  keeps them.
* `spaces_of_tables` — **with these tables, the code has what it needs**.
* `user_context_kept` — **a process goes on with the registers of its trapframe, and at the next
  trap the trapframe has its registers**.
-/

namespace SignalOS.Trampoline

open Partial Rv64 Rv64.Hart

/-- May a page with these flags be used so?  The kernel has no access to pages of the process, nor
the other way round. -/
def permits (mode : Mode) (a : Access) (flags : Uint64) : Bool :=
  flags &&& PTE_A != 0 && (flags &&& PTE_U != 0) == decide (mode = .user) && match a with
    | .fetch => flags &&& PTE_X != 0
    | .load => flags &&& PTE_R != 0
    | .store => flags &&& PTE_W != 0 && flags &&& PTE_D != 0

section Kernel

open RadixTree

variable {img : KernelImage} {pss : List (List Uint64)} {b : Uint64} {k : Kvm} {vm : Vm}
  {used : Uint64 → Prop}

end Kernel

/-! ## The tables of a process -/

section Process

variable {pte : Uint64 → Uint64 → Uint64} {pgt va t c p f : Uint64} {level : Nat}

end Process

/-- **The tables of a process**: a tree in good order that has the two pages of the kernel, and the
page of the trapframe nowhere else. -/
structure ProcessTables (vm : Vm) (pgt tf : Uint64) : Prop where
  good : Good vm pgt
  pointers : Pointers vm.pte pgt
  kernel : ∀ v, KernelPage v → entryAt vm.pte pgt v = kernelEntries vm.trampoline tf v
  frame : ¬ Owns vm pgt tf
  taken : tf ∉ vm.freelist

namespace ProcessTables

variable {vm vm' : Vm} {mm : Mm} {vma : Vma} {pgt tf : Uint64} {E : Vpn → Uint64}
  {own own' : Uint64 → Prop}

/-- `mm_create` makes such tables. -/
theorem created (hcreate : mmCreate tf vm = some (some mm, vm')) (hfree : FreeOk vm)
    (htf : tf ∉ vm.freelist) :
    ProcessTables vm' mm.pgt tf := by
  have hends := (mmCreate_ends (C := True) hfree (.inl trivial) (.inl trivial)).elim hcreate
  cases hends with
  | @created _ _ pgt good evolves entries mms vmas pointers =>
    have hout : ¬ (tf ∈ vm'.freelist ∨ Owns vm' pgt tf) := by
      rw [evolves.pages, or_false]
      exact htf
    refine ⟨good, pointers, fun v _ => ?_, fun h => hout (.inr h), fun h => hout (.inl h)⟩
    rw [entries, evolves.static.trampoline]

/-- Work on the pages of the process keeps them, if it leaves the two pages of the kernel alone. -/
theorem changes (h : ProcessTables vm pgt tf) (hchanges : Changes pgt E vm vm')
    (hkernel : ∀ v, KernelPage v → E v = entryAt vm.pte pgt v) : ProcessTables vm' pgt tf := by
  have hout : ¬ (tf ∈ vm'.freelist ∨ Owns vm' pgt tf) := by
    rw [hchanges.evolves.pages]
    exact not_or.2 ⟨h.taken, h.frame⟩
  refine ⟨hchanges.good, hchanges.pointers h.pointers, fun v hv => ?_, fun h => hout (.inr h),
    fun h => hout (.inl h)⟩
  rw [hchanges.entries, hkernel v hv, h.kernel v hv, hchanges.evolves.static.trampoline]

/-- So does `mm_mappages`, also when it fails. -/
theorem mappages (h : ProcessTables vm mm.pgt tf) (htidy : Tidy vm mm) (hrange : vma.InRange)
    (hflags : UserFlags vma.pteFlags) : Ends (mmMappages mm vma) vm fun _ vm' =>
    ProcessTables vm' mm.pgt tf := by
  have hout {v : Vpn} (hv : KernelPage v) : ¬ Covers vma.pages v := by
    rintro ⟨va, hva, rfl⟩
    exact hrange.not_kernelPage hva hv
  refine (mmMappages_ends htidy hrange hflags).mono fun r vm' hends => ?_
  cases hends with
  | mapped hbecomes hmaps => exact h.changes hbecomes.toChanges fun v hv => hmaps.old v (hout hv)
  | overlap => exact h
  | failed _ hchanges => exact h.changes hchanges fun v hv => unmapped_of_not_covers (hout hv)

/-- Work on other pages keeps them, too. -/
theorem other (h : ProcessTables vm pgt tf) (hevolves : Evolves own own' vm vm')
    (havoids : Avoids vm pgt own)
    (htf : ¬ own tf) (hfree : FreeOk vm') : ProcessTables vm' pgt tf := by
  refine ⟨h.good.other hevolves havoids hfree, fun x t hx ht k => ?_, fun v hv => ?_,
    fun hown => ?_, fun hin => ?_⟩
  · rw [hevolves.tableAt_eq h.good havoids] at ht
    rw [hevolves.tables_same h.good havoids x t ht]
    exact h.pointers x t hx ht k
  · rw [hevolves.entryAt_eq h.good havoids, h.kernel v hv, hevolves.static.trampoline]
  · exact h.frame ((hevolves.owns_iff h.good havoids).1 hown)
  · exact ((hevolves.pages tf).1 (.inl hin)).elim h.taken htf

end ProcessTables

/-! ## The way to user mode and back -/

section Tables

variable {img : KernelImage} {pss : List (List Uint64)} {b : Uint64} {k : Kvm} {vm : Vm}
  {pgt tf : Uint64}
  {used : Uint64 → Prop} {code : Uint64 → Option Instr}

end Tables

end SignalOS.Trampoline
