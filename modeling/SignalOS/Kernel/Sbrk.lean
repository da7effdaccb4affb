import SignalOS.Kernel.Step
import SignalOS.Proc.Image
import SignalOS.Vm.Heap
import SignalOS.Vm.PageWalk

/-!
# The contract of `sbrk`

* `HeapReady` — a process with a heap: its vmas are disjoint and mapped, and the break is in the
  last page of the heap.
* `Contract` — the break moves by the request, as a number, or nothing changes.
* `mmRemapRestore_clears` — the undo loop of `mm_remap` unmaps every page outside the heap that is
  in its range.
* `sbrk_contract_iff` — **which requests meet the contract**.
-/

namespace SignalOS

open Partial

/-! ## The contract -/

/-- A process with a heap, as `load_user_elf` and earlier calls of `sbrk` leave it. -/
structure HeapReady (k : Kernel) (curr : Slot) (mm : Mm) (vma : Vma) : Prop where
  space : (k.pool curr).mm = some mm
  wf : MmWf k.vm mm
  safe : WalkSafe k.vm mm.pgt
  mem : vma ∈ mm.vma
  heap : vma.addr = (k.pool curr).vmaBrk
  addrs : (mm.vma.map Vma.addr).Nodup
  trapframe : entryAt k.vm.pte mm.pgt (vpn TRAPFRAME) &&& PTE_V ≠ 0
  trampoline : entryAt k.vm.pte mm.pgt (vpn TRAMPOLINE) &&& PTE_V ≠ 0
  start_le : vma.vmStart ≤ (k.pool curr).brk
  le_end : (k.pool curr).brk ≤ vma.vmEnd
  page : vma.vmEnd = PGROUNDUP (k.pool curr).brk

/-- The old break plus the request, as a number. -/
def newBreak (k : Kernel) (curr : Slot) (n : Uint64) : Int := (k.pool curr).brk.toNat + n.toInt

/-- Two entries are both valid or both not, and have the same permissions and the same page. -/
def SameMapping (e e' : Uint64) : Prop :=
  e &&& (PTE_V ||| PERM) = e' &&& (PTE_V ||| PERM) ∧ PTE2PA e = PTE2PA e'

/-- The break was moved: the old one is returned, and the heap has the pages up to the new one. -/
structure HeapMoved (k : Kernel) (curr : Slot) (mm : Mm) (vma : Vma) (n ret : Uint64)
    (k' : Kernel) : Prop where
  ret : ret = (k.pool curr).brk
  sum : ((k'.pool curr).brk.toNat : Int) = newBreak k curr n
  ready : HeapReady k' curr (mm.moved vma vma.vmStart (PGROUNDUP (k'.pool curr).brk) vma.pteFlags)
    { vma with vmEnd := PGROUNDUP (k'.pool curr).brk }
  dropped : ∀ va ∈ vma.pages, va ∉ vma.newPages (PGROUNDUP (k'.pool curr).brk) →
    entryAt k'.vm.pte mm.pgt (vpn va) = 0
  others : ∀ v, ¬ Covers vma.pages v → ¬ Covers (vma.newPages (PGROUNDUP (k'.pool curr).brk)) v →
    entryAt k'.vm.pte mm.pgt v = entryAt k.vm.pte mm.pgt v

/-- Nothing changed, and an error is returned. -/
structure HeapKept (k : Kernel) (curr : Slot) (mm : Mm) (ret : Uint64) (k' : Kernel) : Prop where
  ret : ret.toInt < 0
  brk : (k'.pool curr).brk = (k.pool curr).brk
  vmaBrk : (k'.pool curr).vmaBrk = (k.pool curr).vmaBrk
  space : (k'.pool curr).mm = some mm
  mappings : ∀ v, SameMapping (entryAt k.vm.pte mm.pgt v) (entryAt k'.vm.pte mm.pgt v)

/-- **The contract of `sbrk`.** -/
structure Contract (k : Kernel) (curr : Slot) (mm : Mm) (vma : Vma) (n ret : Uint64)
    (k' : Kernel) : Prop where
  ends : HeapMoved k curr mm vma n ret k' ∨ HeapKept k curr mm ret k'
  below : newBreak k curr n < vma.vmStart.toNat → HeapKept k curr mm ret k' ∧ ret = ofInt (-EINVAL)

theorem SameMapping.valid {e e' : Uint64} (h : SameMapping e e') : e &&& PTE_V = e' &&& PTE_V := by
  have hsub : PTE_V = (PTE_V ||| PERM) &&& PTE_V := by decide
  rw [hsub, ← BitVec.and_assoc, ← BitVec.and_assoc, h.1]

theorem and_V_of_valid {e : Uint64} (h : e &&& PTE_V ≠ 0) : e &&& PTE_V = PTE_V := by
  rw [ne_eq, ← BitVec.toNat_inj, BitVec.toNat_and] at h
  rw [← BitVec.toNat_inj, BitVec.toNat_and]
  have hone : (PTE_V : Uint64).toNat = 1 := rfl
  have hzero : (0 : Uint64).toNat = 0 := rfl
  rw [hone, hzero, Nat.and_one_is_mod] at h
  rw [hone, Nat.and_one_is_mod]
  omega

/-- Two entries with the permissions of one vma and the same frame. -/
theorem SameMapping.of_frame {flags e e' : Uint64} (hflags : UserFlags flags) (h : Permits flags e)
    (h' : Permits flags e') (hframe : frameOf e' = frameOf e) : SameMapping e e' := by
  rw [h.frame hflags, h'.frame hflags, Option.some.injEq] at hframe
  refine ⟨?_, hframe.symm⟩
  rw [BitVec.and_or_distrib_left, BitVec.and_or_distrib_left, and_V_of_valid h.1,
    and_V_of_valid h'.1, h.2, h'.2]

/-! ## The loops of `mm_remap` over any range -/

section Loops

variable {vm : Vm} {mm : Mm} {vma : Vma} {start stop flags va : Uint64} {pages : List Uint64}

theorem mmRemapCreate_skips (h : ∀ va ∈ pages, va < start ∨ va ≥ stop) :
    mmRemapCreate mm start stop flags pages vm = some (true, vm) := by
  induction pages with
  | nil => rfl
  | cons va rest ih =>
    rw [mmRemapCreate, if_pos (h va List.mem_cons_self)]
    exact ih fun a ha => h a (List.mem_cons_of_mem _ ha)

theorem mmRemapRemove_skips (h : ∀ va ∈ pages, ¬ (va < start ∨ va ≥ stop)) :
    mmRemapRemove mm start stop pages vm = some (true, vm) := by
  induction pages with
  | nil => rfl
  | cons va rest ih =>
    rw [mmRemapRemove, if_neg (h va List.mem_cons_self)]
    exact ih fun a ha => h a (List.mem_cons_of_mem _ ha)

/-- The pages that are not mapped stay so. -/
def StayInvalid (pgt : Uint64) (vm vm' : Vm) : Prop :=
  ∀ v, entryAt vm.pte pgt v &&& PTE_V = 0 → entryAt vm'.pte pgt v &&& PTE_V = 0

/-- What a turn of the undo loop does: a page outside the vma is not mapped after it. -/
structure Clears (vma : Vma) (pgt va : Uint64) (vm vm' : Vm) : Prop where
  safe : WalkSafe vm' pgt
  stay : StayInvalid pgt vm vm'
  clear : va < vma.vmStart ∨ va ≥ vma.vmEnd → entryAt vm'.pte pgt (vpn va) &&& PTE_V = 0

theorem mmRemapRestore_clears (h : WalkSafe vm mm.pgt) (hflags : IsFlags vma.pteFlags)
    (hva : IS_USER_VA va = true) :
    EndsUnless True (mmRemapRestore mm vma va) vm fun _ vm' => Clears vma mm.pgt va vm vm' := by
  have hsame (hinvalid : va < vma.vmStart ∨ va ≥ vma.vmEnd → entryAt vm.pte mm.pgt (vpn va) &&&
    PTE_V = 0) :
      Clears vma mm.pgt va vm vm := ⟨h, fun _ hv => hv, hinvalid⟩
  refine .bind_of_eq (walk_find hva vm mm) ?_
  cases ht : tableAt vm.pte mm.pgt (.last (vpn va).l2 (vpn va).l1) with
  | none =>
    have hclear := hsame fun _ => by rw [entryAt_none ht]; exact zero_and_V
    exact .ite (fun _ => .pure hclear) fun _ => .fail trivial rfl
  | some t =>
    refine .bind_of_eq (loadPte_entry ht)
      (.ite (fun hout => .ite (fun hvalid => ?_) fun hinvalid => ?_) fun hin => ?_)
    · have hleaf : leafAt vm.pte mm.pgt (vpn va) = some
          (PTE2PA (entryAt vm.pte mm.pgt (vpn va))) := by
        rw [leafAt, nextTable, if_pos hvalid]
      refine .bind (kfreepage_unless (h.taken _ _ hleaf).1) fun _ vm₁ hfreed => ?_
      obtain ⟨hmanaged, rfl⟩ := hfreed
      have hentries : entryAt ((vm.give (PTE2PA (entryAt vm.pte mm.pgt (vpn va)))).setPte t
        (vpn va).l0.word 0).pte mm.pgt =
          Function.update (entryAt vm.pte mm.pgt) (vpn va) 0 :=
            entryAt_setPte h.tree.tables ht (vpn va).l0 0
      refine .inr (.of_eq rfl ⟨h.unmap ht hleaf hmanaged, fun v hv => ?_, fun _ => ?_⟩)
      · rw [hentries, Function.update_apply]
        split
        · exact zero_and_V
        · exact hv
      · rw [hentries, Function.update_apply, if_pos rfl]
        exact zero_and_V
    · exact .pure (hsame fun _ => not_not.1 hinvalid)
    · by_cases hvalid : entryAt vm.pte mm.pgt (vpn va) &&& PTE_V ≠ 0
      · refine .bind_of_eq (kassert_true (bne_iff_ne.2 hvalid)) (.inr (.of_eq rfl ?_))
        refine ⟨h.reflag ht hflags hvalid, fun v hv => ?_, fun hout => absurd hout hin⟩
        rw [entryAt_setPte h.tree.tables ht, Function.update_apply]
        split
        · rename_i heq
          rw [heq] at hv
          exact absurd hv hvalid
        · exact hv
      · refine .fail trivial ?_
        show (kassert _ vm).bind _ = none
        rw [kassert, if_neg (by simpa using hvalid)]
        rfl

theorem mmRemapRestore_not_user (hva : IS_USER_VA va = false) :
    EndsUnless True (mmRemapRestore mm vma va) vm fun _ vm' => vm' = vm := by
  refine .bind_of_eq (a := none) (t := vm) ?_ (.ite (fun _ => .pure rfl) fun _ =>
    .fail trivial rfl)
  rw [walk, hva]
  rfl

/-- **The undo loop unmaps every page outside the vma.** -/
theorem forM_restore_clears (h : WalkSafe vm mm.pgt) (hflags : IsFlags vma.pteFlags)
    (pages : List Uint64) :
    EndsUnless True (pages.forM (mmRemapRestore mm vma)) vm fun _ vm' =>
      StayInvalid mm.pgt vm vm' ∧
      ∀ va ∈ pages, IS_USER_VA va = true → va < vma.vmStart ∨ va ≥ vma.vmEnd →
        entryAt vm'.pte mm.pgt (vpn va) &&& PTE_V = 0 := by
  induction pages generalizing vm with
  | nil => exact .pure ⟨fun _ hv => hv, fun va hva => absurd hva (by simp)⟩
  | cons va rest ih =>
    cases hva : IS_USER_VA va with
    | false =>
      refine .bind (mmRemapRestore_not_user hva) fun _ vm₁ heq => ?_
      subst heq
      refine (ih h).mono fun _ vm₂ hrest => ⟨hrest.1, fun a ha hua hout => ?_⟩
      rcases List.mem_cons.1 ha with rfl | ha
      · rw [hva] at hua
        exact absurd hua (by simp)
      · exact hrest.2 a ha hua hout
    | true =>
      refine .bind (mmRemapRestore_clears h hflags hva) fun _ vm₁ hturn => ?_
      refine (ih hturn.safe).mono fun _ vm₂ hrest => ⟨fun v hv => hrest.1 v (hturn.stay v hv),
        fun a ha hua hout => ?_⟩
      rcases List.mem_cons.1 ha with rfl | ha
      · exact hrest.1 _ (hturn.clear hout)
      · exact hrest.2 a ha hua hout

theorem kassert_unless (c : Bool) : EndsUnless True (kassert c) vm fun _ vm' => vm' = vm := by
  rw [kassert]
  exact .ite (fun _ => .pure rfl) fun _ => .fail trivial rfl

/-- The check refuses the range. -/
theorem mmRemap_refused (hstart : PageStart vma.vmStart) (hstop : PageStart stop)
    (hrwx : flags &&& PTE_RWX ≠ 0)
    (h : vmaCheckOverlap mm vma.vmStart stop vma.addr = true) :
    mmRemap mm vma vma.vmStart stop flags vm = some ((-EINVAL, mm), vm) := by
  have haligned : (PGALIGNED vma.vmStart && PGALIGNED stop) = true := by
    rw [PGALIGNED_iff.2 hstart, PGALIGNED_iff.2 hstop]
    rfl
  refine bind_eq_some.2 ⟨(), vm, kassert_true haligned,
    bind_eq_some.2 ⟨(), vm, kassert_true (bne_iff_ne.2 hrwx), ?_⟩⟩
  rw [if_pos h]
  rfl

/-- **A new end of the heap beyond a page that is mapped**: if memory suffices, the heap gets the
page, else the page is unmapped. -/
theorem mmRemap_past (h : WalkSafe vm mm.pgt) (hold : IsFlags vma.pteFlags)
    (hflags : IsFlags flags)
    (hstart : PageStart vma.vmStart) (hpass : vmaCheckOverlap mm vma.vmStart stop vma.addr = false)
    (hva : IS_USER_VA va = true) (hpage : PageStart va) (hle : vma.vmStart ≤ vma.vmEnd)
    (hout : vma.vmEnd ≤ va)
    (hlt : va < stop) :
    EndsUnless True (mmRemap mm vma vma.vmStart stop flags) vm fun r vm' =>
      r = (0, mm.moved vma vma.vmStart stop flags) ∨
        r = (-ENOMEM, mm) ∧ entryAt vm'.pte mm.pgt (vpn va) &&& PTE_V = 0 := by
  have hmin : MIN vma.vmStart vma.vmStart = vma.vmStart := ite_self _
  have hmax : MAX stop vma.vmEnd = stop := by
    refine if_pos ?_
    rw [gt_iff_lt, BitVec.lt_def]
    rw [BitVec.le_def] at hout
    rw [BitVec.lt_def] at hlt
    omega
  have hin : ∀ a ∈ pagesBetween vma.vmStart stop, ¬ (a < vma.vmStart ∨ a ≥ stop) := by
    intro a ha hor
    obtain ⟨-, hle', hlt'⟩ := (mem_pagesBetween hstart).1 ha
    simp only [ge_iff_le, BitVec.lt_def, BitVec.le_def] at hor hle' hlt'
    omega
  have hmem : va ∈ pagesBetween vma.vmStart stop := by
    refine (mem_pagesBetween hstart).2 ⟨hpage, ?_, hlt⟩
    rw [BitVec.le_def] at hle hout ⊢
    omega
  refine .bind (kassert_unless _) fun _ vm₁ heq => .bind (kassert_unless _) fun _ vm₂ heq' => ?_
  subst heq' heq
  rw [hpass]
  refine .ite (fun hno => absurd hno (by simp)) fun _ => ?_
  rw [hmin, hmax]
  refine .bind (mmRemapCreate_safe h hflags _) fun created vm₃ h₃ => .ite (fun _ => ?_) fun _ => ?_
  · exact .bind_of_eq (mmRemapRemove_skips hin) (.ite (fun _ => .pure (.inl rfl)) fun hno =>
      absurd rfl hno)
  · refine .bind (forM_restore_clears h₃ hold _) fun _ vm₄ hcleared => .pure (.inr ⟨rfl, ?_⟩)
    exact hcleared.2 va hmem hva (.inr hout)

/-- A new end of the heap at 0: all its pages are given back. -/
theorem mmRemap_zero (h : MmWf vm mm) (hmem : vma ∈ mm.vma)
    (hpass : vmaCheckOverlap mm vma.vmStart 0 vma.addr = false) :
    EndsUnless True (mmRemap mm vma vma.vmStart 0 flags) vm fun r _ => r.1 = 0 := by
  have hrange := h.range vma hmem
  have hmin : MIN vma.vmStart vma.vmStart = vma.vmStart := ite_self _
  have hmax : MAX 0 vma.vmEnd = vma.vmEnd := by
    refine if_neg ?_
    rw [gt_iff_lt, BitVec.lt_def]
    exact Nat.not_lt_zero _
  have hout : ∀ a ∈ vma.pages, a < vma.vmStart ∨ a ≥ 0 :=
    fun a _ => .inr (BitVec.le_def.2 (Nat.zero_le _))
  refine .bind (kassert_unless _) fun _ vm₁ heq => .bind (kassert_unless _) fun _ vm₂ heq' => ?_
  subst heq' heq
  rw [hpass]
  refine .ite (fun hno => absurd hno (by simp)) fun _ => ?_
  rw [hmin, hmax]
  refine .bind_of_eq (mmRemapCreate_skips hout) (.ite (fun _ => ?_) fun hno => absurd rfl hno)
  have hremove :=
    @mmRemapRemove_ends _ _ vma.vmStart 0 _ h.good hrange.userPages (nodup_pagesBetween _ _)
      fun va hva _ => by
        have hvalid := (h.mapped vma hmem va hva).1
        exact ⟨hvalid, h.user hrange hva hvalid⟩
  refine .bind (hremove.unless True) fun r vm₃ hr => ?_
  rw [hr.1]
  exact .ite (fun _ => .pure rfl) fun hno => absurd rfl hno

end Loops

/-! ## Numbers -/

theorem toNat_PGROUNDUP_mod (a : Uint64) :
    (PGROUNDUP a).toNat = (a.toNat + 4095) % 2 ^ 64 / 4096 * 4096 := by
  have hsum : PGROUNDUP a = PGROUNDDOWN (a + PGSIZE - 1) := rfl
  have hone : a + PGSIZE - 1 = a + BitVec.ofNat 64 4095 := by
    rw [PGSIZE]
    grind
  rw [hsum, toNat_PGROUNDDOWN, hone, BitVec.toNat_add, BitVec.toNat_ofNat]

theorem pageStart_PGROUNDUP (a : Uint64) : PageStart (PGROUNDUP a) := by
  rw [PageStart, toNat_PGROUNDUP_mod]
  omega

/-- A page start that is not below an address is not below its rounding. -/
theorem PGROUNDUP_le {a b : Uint64} (hb : PageStart b) (h : a ≤ b) : PGROUNDUP a ≤ b := by
  rw [PageStart] at hb
  rw [BitVec.le_def] at h ⊢
  rw [toNat_PGROUNDUP_mod]
  have hlt := b.isLt
  omega

/-! ## The call -/

section Call

variable {k k' : Kernel} {curr : Slot} {mm mm' : Mm} {vma : Vma} {n ret : Uint64}

/-- The memory part of `sys_sbrk`. -/
def sbrkRemap (mm : Mm) (vma : Vma) (roundup : Uint64) : VmM (Int × Mm) :=
  if roundup = vma.vmEnd then pure (0, mm) else mmRemap mm vma vma.vmStart roundup vma.pteFlags

/-- What `sys_sbrk` makes of its result. -/
def sbrkDone (k : Kernel) (curr : Slot) (newBrk : Uint64) (r : (Int × Mm) × Vm) :
    Uint64 × Kernel :=
  if r.1.1 = 0 then
    ((k.pool curr).brk, { k with vm := r.2 }.setProc curr
      { k.pool curr with mm := some r.1.2, brk := newBrk })
  else (ofInt r.1.1, { k with vm := r.2 }.setProc curr { k.pool curr with mm := some r.1.2 })

theorem sbrkDone_error {newBrk : Uint64} {r : Int} {vm' : Vm} (hr : r ≠ 0) :
    sbrkDone k curr newBrk ((r, mm), vm') =
      (ofInt r, { k with vm := vm' }.setProc curr { k.pool curr with mm := some mm }) := if_neg hr

/-- The request meets the contract: the check refuses it, or the new break is a number on the right
side of 0 and the heap does not grow over a page that is mapped. -/
def SbrkFits (k : Kernel) (curr : Slot) (mm : Mm) (vma : Vma) (n : Uint64) : Prop :=
  vmaCheckOverlap mm vma.vmStart (PGROUNDUP ((k.pool curr).brk + n)) vma.addr = true ∨
    0 ≤ newBreak k curr n ∧ ∀ va, PageStart va → IS_USER_VA va = true → vma.vmEnd ≤ va →
      va < PGROUNDUP ((k.pool curr).brk + n) → entryAt k.vm.pte mm.pgt (vpn va) &&& PTE_V = 0

/-- The break was not moved. -/
theorem HeapKept.of_vm {vm' : Vm} {r : Int} (hr : (ofInt r).toInt < 0)
    (hsame : ∀ v, SameMapping (entryAt k.vm.pte mm.pgt v) (entryAt vm'.pte mm.pgt v)) :
    HeapKept k curr mm (ofInt r) ({ k with vm := vm' }.setProc curr
      { k.pool curr with mm := some mm }) := by
  refine ⟨hr, ?_, ?_, ?_, hsame⟩
  · rw [Kernel.setProc_pool_self]
  · rw [Kernel.setProc_pool_self]
  · rw [Kernel.setProc_pool_self]

namespace HeapReady

variable (h : HeapReady k curr mm vma)

include h

theorem range : vma.InRange := h.wf.range vma h.mem

theorem brk_lt : (k.pool curr).brk.toNat < 2 ^ 38 := by
  have hle := h.le_end
  have hlow := h.range.low
  rw [BitVec.le_def] at hle hlow
  exact (hle.trans hlow).trans_lt (by decide)

theorem start_le_end : vma.vmStart ≤ vma.vmEnd := by
  have hle := h.start_le
  have hle' := h.le_end
  rw [BitVec.le_def] at hle hle' ⊢
  omega

theorem eq_of_addr {w : Vma} (hw : w ∈ mm.vma) (haddr : w.addr = vma.addr) : w = vma :=
  List.inj_on_of_nodup_map h.addrs hw h.mem haddr

/-- The heap shares no page with another vma. -/
theorem not_mem_pages {w : Vma} {va : Uint64} (hw : w ∈ mm.vma) (hne : w.addr ≠ vma.addr)
    (hva : va ∈ w.pages) :
    va ∉ vma.pages := by
  have hsymm : Std.Symm fun a b : Vma => ∀ va ∈ a.pages, va ∉ b.pages :=
    ⟨fun _ _ hab va hva hva' => hab va hva' hva⟩
  exact h.wf.disjoint.forall hw h.mem (fun heq => hne (heq ▸ rfl)) va hva

/-- The sum is what the machine computes, unless it is negative. -/
theorem newBreak_cases (n : Uint64) :
    0 ≤ newBreak k curr n ∧ (((k.pool curr).brk + n).toNat : Int) = newBreak k curr n ∨
    newBreak k curr n < 0 ∧ 2 ^ 63 ≤ ((k.pool curr).brk + n).toNat := by
  have hbrk := h.brk_lt
  have hn := n.isLt
  rw [newBreak, BitVec.toNat_add, BitVec.toInt_eq_toNat_cond]
  split <;> omega

theorem run (n : Uint64) : sysSbrk curr n k =
    if (k.pool curr).brk + n < vma.vmStart then some (ofInt (-EINVAL), k)
    else (sbrkRemap mm vma (PGROUNDUP ((k.pool curr).brk + n)) k.vm).map
      (sbrkDone k curr ((k.pool curr).brk + n)) := by
  have hfind : mm.vma.find? (fun v => decide (v.addr = (k.pool curr).vmaBrk)) = some vma := by
    refine List.find?_eq_some_iff_append.2 ⟨by simpa using h.heap, ?_⟩
    obtain ⟨before, after, hlist⟩ := List.append_of_mem h.mem
    refine ⟨before, after, hlist, fun w hw => ?_⟩
    have hnodup := h.addrs
    rw [hlist, List.map_append, List.map_cons, List.nodup_append] at hnodup
    have hne := hnodup.2.2 w.addr (List.mem_map_of_mem hw) vma.addr List.mem_cons_self
    simpa [← h.heap] using hne
  have hmm : getMm curr k = some (mm, k) := getMm_eq_some.2 ⟨h.space, rfl⟩
  rw [sysSbrk, getProc_bind, bind_apply hmm, hfind]
  show (if (k.pool curr).brk + n < vma.vmStart then (pure (ofInt (-EINVAL)) : KM Uint64)
    else _) k = _
  split
  · rfl
  · show (liftVm (sbrkRemap mm vma (PGROUNDUP ((k.pool curr).brk + n))) k).bind _ = _
    rw [liftVm]
    cases sbrkRemap mm vma (PGROUNDUP ((k.pool curr).brk + n)) k.vm with
    | none => rfl
    | some r =>
      show (if r.1.1 = 0 then _ else _ : KM Uint64) _ = some (sbrkDone k curr _ r)
      rw [sbrkDone]
      split
      · rfl
      · rfl

/-- The check lets the heap's own range pass. -/
theorem own_range_passes : vmaCheckOverlap mm vma.vmStart vma.vmEnd vma.addr = false := by
  by_cases heq : vma.vmStart = vma.vmEnd
  · rw [vmaCheckOverlap, if_pos heq]
  · have hlt : vma.vmStart < vma.vmEnd := by
      have hle := h.start_le_end
      rw [← BitVec.toNat_inj] at heq
      rw [BitVec.le_def] at hle
      rw [BitVec.lt_def]
      omega
    by_contra hhit
    rw [Bool.not_eq_false, vmaCheckOverlap_iff hlt] at hhit
    obtain ⟨w, hw, haddr, hend⟩ := hhit
    obtain ⟨va, h₁, h₂, h₃, h₄⟩ := (meets_iff hlt).2 (.inl hend)
    exact h.not_mem_pages hw haddr ((h.wf.range w hw).page_mem h₃ h₄) (h.range.page_mem h₁ h₂)

/-- A range in which nothing is mapped beyond the heap is one that the heap can take. -/
theorem resize {stop : Uint64} (hpage : PageStart stop) (hle : vma.vmStart ≤ stop)
    (hroom : ∀ va, PageStart va → IS_USER_VA va = true → vma.vmEnd ≤ va → va < stop →
      entryAt k.vm.pte mm.pgt (vpn va) &&& PTE_V = 0) : Resize k.vm mm vma stop vma.pteFlags := by
  have hlow : stop ≤ TRAPFRAME := by
    by_contra hhigh
    refine h.trapframe (hroom TRAPFRAME pageStart_TRAPFRAME (by decide) h.range.low ?_)
    rw [BitVec.le_def] at hhigh
    rw [BitVec.lt_def]
    omega
  refine ⟨h.wf, h.mem, h.addrs, hpage, hle, hlow, fun w hw hne hmeets => ?_, rfl⟩
  obtain ⟨va, h₁, h₂, h₃, h₄⟩ := hmeets
  have hin := (h.wf.range w hw).page_mem h₃ h₄
  have huser := ((h.wf.range w hw).userPages _ hin).1
  by_cases hold : va < vma.vmEnd
  · exact h.not_mem_pages hw hne hin (h.range.page_mem h₁ hold)
  · refine (h.wf.mapped w hw _ hin).1 (hroom _ (pageStart_PGROUNDDOWN va) huser ?_ ?_)
    · have hstop := h.range.stop
      rw [PageStart] at hstop
      rw [BitVec.lt_def] at hold
      rw [BitVec.le_def, toNat_PGROUNDDOWN]
      omega
    · have hdown := PGROUNDDOWN_le va
      rw [BitVec.le_def] at hdown
      rw [BitVec.lt_def] at h₂ ⊢
      omega

theorem moved_self : mm.moved vma vma.vmStart vma.vmEnd vma.pteFlags = mm := by
  have hlist : (mm.vma.map fun v => if v.addr = vma.addr then vma else v) = mm.vma := by
    refine (List.map_congr_left fun v hv => ?_).trans (List.map_id _)
    split
    · rename_i haddr
      exact (h.eq_of_addr hv haddr).symm
    · rfl
  show { mm with vma := mm.vma.map fun v => if v.addr = vma.addr then vma else v } = mm
  rw [hlist]

/-- The break was moved by a request that the machine adds up right. -/
theorem moved {vm' : Vm} (hsum : (((k.pool curr).brk + n).toNat : Int) = newBreak k curr n)
    (hstart : vma.vmStart ≤ (k.pool curr).brk + n)
    (hwf : MmWf vm' (mm.moved vma vma.vmStart (PGROUNDUP ((k.pool curr).brk + n)) vma.pteFlags))
    (hsafe : WalkSafe vm' mm.pgt)
    (hdropped : ∀ va ∈ vma.pages, va ∉ vma.newPages (PGROUNDUP ((k.pool curr).brk + n)) →
      entryAt vm'.pte mm.pgt (vpn va) = 0)
    (hothers : ∀ v, ¬ Covers vma.pages v →
      ¬ Covers (vma.newPages (PGROUNDUP ((k.pool curr).brk + n))) v →
      entryAt vm'.pte mm.pgt v = entryAt k.vm.pte mm.pgt v) :
    HeapMoved k curr mm vma n (k.pool curr).brk ({ k with vm := vm' }.setProc curr
      { k.pool curr with
      mm := some (mm.moved vma vma.vmStart (PGROUNDUP ((k.pool curr).brk + n)) vma.pteFlags)
      brk := (k.pool curr).brk + n }) := by
  have hmem : ({ vma with vmEnd := PGROUNDUP ((k.pool curr).brk + n) } : Vma) ∈
      (mm.moved vma vma.vmStart (PGROUNDUP ((k.pool curr).brk + n)) vma.pteFlags).vma :=
    List.mem_map.2 ⟨vma, h.mem, if_pos rfl⟩
  have hrange := hwf.range _ hmem
  have hkernel {v : Vpn} (hv : KernelPage v) :
      entryAt vm'.pte mm.pgt v = entryAt k.vm.pte mm.pgt v := by
    refine hothers v ?_ ?_
    · rintro ⟨va, hva, rfl⟩
      exact h.range.not_kernelPage hva hv
    · rintro ⟨va, hva, rfl⟩
      exact hrange.not_kernelPage hva hv
  have haddrs : (mm.moved vma vma.vmStart (PGROUNDUP ((k.pool curr).brk + n)) vma.pteFlags).vma.map
    Vma.addr =
      mm.vma.map Vma.addr := by
    rw [Mm.moved, List.map_map]
    refine List.map_congr_left fun v _ => ?_
    show Vma.addr (if v.addr = vma.addr then _ else v) = v.addr
    split
    · rename_i haddr
      exact haddr.symm
    · rfl
  refine ⟨rfl, ?_, ?_, ?_, ?_⟩
  · rw [Kernel.setProc_pool_self]
    exact hsum
  · rw [Kernel.setProc_pool_self]
    refine ⟨?_, hwf, hsafe, hmem, ?_, haddrs ▸ h.addrs, ?_, ?_, ?_, ?_, ?_⟩
    · rw [Kernel.setProc_pool_self]
    · rw [Kernel.setProc_pool_self]
      exact h.heap
    · show entryAt vm'.pte mm.pgt _ &&& PTE_V ≠ 0
      rw [hkernel (.inl rfl)]
      exact h.trapframe
    · show entryAt vm'.pte mm.pgt _ &&& PTE_V ≠ 0
      rw [hkernel (.inr rfl)]
      exact h.trampoline
    · rw [Kernel.setProc_pool_self]
      exact hstart
    · rw [Kernel.setProc_pool_self]
      show (k.pool curr).brk + n ≤ PGROUNDUP ((k.pool curr).brk + n)
      rw [BitVec.le_def, toNat_PGROUNDUP_mod]
      have hbrk := h.brk_lt
      have hn := BitVec.toInt_lt (x := n)
      rw [newBreak] at hsum
      omega
    · rw [Kernel.setProc_pool_self]
  · rw [Kernel.setProc_pool_self]
    exact hdropped
  · rw [Kernel.setProc_pool_self]
    exact hothers

/-- A mapped page is one of a vma, or one of the kernel's two. -/
theorem page_cases {va : Uint64} (hva : IS_USER_VA va = true) (hpage : PageStart va)
    (hvalid : entryAt k.vm.pte mm.pgt (vpn va) &&& PTE_V ≠ 0) : KernelPage (vpn va) ∨ ∃ w ∈ mm.vma,
    va ∈ w.pages := by
  by_cases huser : entryAt k.vm.pte mm.pgt (vpn va) &&& PTE_U = 0
  · exact .inl (h.wf.kernel _ hvalid huser)
  · obtain ⟨w, hw, hcov⟩ := h.wf.covered _ _ (frameOf_of_user hvalid huser)
    exact .inr ⟨w, hw, (covers_vpn (h.wf.range w hw).userPages hva hpage).1 hcov⟩

/-- The heap cannot get a page that is mapped. -/
theorem not_moved_over {vm' : Vm} {stop va : Uint64} (hva : IS_USER_VA va = true)
    (hpage : PageStart va)
    (hvalid : entryAt k.vm.pte mm.pgt (vpn va) &&& PTE_V ≠ 0) (hout : vma.vmEnd ≤ va)
    (hlt : va < stop) :
    ¬ MmWf vm' (mm.moved vma vma.vmStart stop vma.pteFlags) := by
  intro hwf
  have hmem : ({ vma with vmEnd := stop } : Vma) ∈
      (mm.moved vma vma.vmStart stop vma.pteFlags).vma :=
    List.mem_map.2 ⟨vma, h.mem, if_pos rfl⟩
  have hin : va ∈ ({ vma with vmEnd := stop } : Vma).pages := by
    refine (mem_pagesBetween h.range.start).2 ⟨hpage, ?_, hlt⟩
    have hle := h.start_le_end
    rw [BitVec.le_def] at hle hout ⊢
    omega
  rcases h.page_cases hva hpage hvalid with hkernel | ⟨w, hw, hwin⟩
  · exact (hwf.range _ hmem).not_kernelPage hin hkernel
  · have hne : w.addr ≠ vma.addr := by
      intro haddr
      rw [h.eq_of_addr hw haddr] at hwin
      obtain ⟨-, -, hlt'⟩ := (mem_pagesBetween h.range.start).1 hwin
      rw [BitVec.le_def] at hout
      rw [BitVec.lt_def] at hlt'
      omega
    have hwmem : w ∈ (mm.moved vma vma.vmStart stop vma.pteFlags).vma :=
      List.mem_map.2 ⟨w, hw, if_neg hne⟩
    have hsymm : Std.Symm fun a b : Vma => ∀ va ∈ a.pages, va ∉ b.pages :=
      ⟨fun _ _ hab va hva hva' => hab va hva' hva⟩
    refine hwf.disjoint.forall hwmem hmem (fun heq => hne ?_) va hwin hin
    rw [heq]

theorem flags : UserFlags vma.pteFlags := h.wf.flags vma h.mem

/-- The old break is no error number. -/
theorem brk_toInt : 0 ≤ (k.pool curr).brk.toInt := by
  have hbrk := h.brk_lt
  rw [BitVec.toInt_eq_toNat_cond]
  split <;> omega

/-- A refused request. -/
theorem refused (hstart : ¬ (k.pool curr).brk + n < vma.vmStart)
    (hcheck : vmaCheckOverlap mm vma.vmStart (PGROUNDUP ((k.pool curr).brk + n)) vma.addr = true) :
    Ends (sysSbrk curr n) k fun ret k' => HeapKept k curr mm ret k' ∧ ret = ofInt (-EINVAL) := by
  have hne : PGROUNDUP ((k.pool curr).brk + n) ≠ vma.vmEnd := by
    intro heq
    rw [heq, h.own_range_passes] at hcheck
    exact absurd hcheck (by simp)
  refine @Ends.of_eq _ _ _ _ _ _ (ofInt (-EINVAL)) ?_ ⟨@HeapKept.of_vm _ _ _ k.vm (-EINVAL)
    (by decide) fun _ => ⟨rfl, rfl⟩, rfl⟩
  rw [h.run, if_neg hstart, sbrkRemap, if_neg hne,
    mmRemap_refused h.range.start (pageStart_PGROUNDUP _) h.flags.rwx hcheck]
  rfl

/-- The request is not below the start of the heap, and the machine adds it up right. -/
theorem start_le_round (hsum : (((k.pool curr).brk + n).toNat : Int) = newBreak k curr n)
    (hstart : vma.vmStart ≤ (k.pool curr).brk + n) :
    vma.vmStart ≤ PGROUNDUP ((k.pool curr).brk + n) := by
  have hbrk := h.brk_lt
  have hn := BitVec.toInt_lt (x := n)
  rw [newBreak] at hsum
  rw [BitVec.le_def] at hstart ⊢
  rw [toNat_PGROUNDUP_mod]
  omega

/-- A request that fits beyond the check. -/
theorem fits (hsum : (((k.pool curr).brk + n).toNat : Int) = newBreak k curr n)
    (hstart : vma.vmStart ≤ (k.pool curr).brk + n)
    (hroom : ∀ va, PageStart va → IS_USER_VA va = true → vma.vmEnd ≤ va →
      va < PGROUNDUP ((k.pool curr).brk + n) → entryAt k.vm.pte mm.pgt (vpn va) &&& PTE_V = 0) :
    Ends (sysSbrk curr n) k fun ret k' => HeapMoved k curr mm vma n ret k' ∨
      HeapKept k curr mm ret k' := by
  have hno : ¬ (k.pool curr).brk + n < vma.vmStart := by
    rw [BitVec.le_def] at hstart
    rw [BitVec.lt_def]
    omega
  by_cases heq : PGROUNDUP ((k.pool curr).brk + n) = vma.vmEnd
  · have hself : mm.moved vma vma.vmStart (PGROUNDUP ((k.pool curr).brk + n)) vma.pteFlags =
        mm := by
      rw [heq]
      exact h.moved_self
    refine .of_eq (a := (k.pool curr).brk) (t := { k with vm := k.vm }.setProc curr
      { k.pool curr with
      mm := some (mm.moved vma vma.vmStart (PGROUNDUP ((k.pool curr).brk + n)) vma.pteFlags)
      brk := (k.pool curr).brk + n }) ?_ (.inl (h.moved hsum hstart (hself.symm ▸ h.wf) h.safe ?_
        fun _ _ _ => rfl))
    · rw [h.run, if_neg hno, sbrkRemap, if_pos heq, hself]
      rfl
    · intro va hva hnew
      rw [heq] at hnew
      exact absurd hva hnew
  · have hresize := h.resize (pageStart_PGROUNDUP _) (h.start_le_round hsum hstart) hroom
    obtain ⟨r, vm', hrun, hends⟩ := (mmRemap_ends hresize).total h.flags.rwx
    have hsafe := ((mmRemap_safe h.safe h.flags.isFlags h.flags.isFlags _ _).elim hrun).2
    have hcall : sysSbrk curr n k = some (sbrkDone k curr ((k.pool curr).brk + n) (r, vm')) := by
      rw [h.run, if_neg hno, sbrkRemap, if_neg heq, hrun]
      rfl
    cases hends with
    | resized hnew =>
      exact .of_eq hcall (.inl (h.moved hsum hstart hnew.wf hsafe (fun va hva hout =>
        (hnew.dropped va hva hout).1)
        hnew.others))
    | unresized hold =>
      refine .of_eq hcall (.inr (@HeapKept.of_vm _ _ _ vm' (-ENOMEM) (by decide) fun v => ?_))
      by_cases hcov : Covers vma.pages v
      · obtain ⟨va, hva, rfl⟩ := hcov
        refine .of_frame h.flags (h.wf.mapped vma h.mem va hva)
          (hold.wf.mapped vma h.mem va hva) ?_
        exact congrFun hold.frames (vpn va)
      · rw [hold.others v hcov]
        exact ⟨rfl, rfl⟩

/-- What a run beyond the check returns. -/
theorem ret_cases {ret : Uint64} {k' : Kernel} (hstart : ¬ (k.pool curr).brk + n < vma.vmStart)
    (hne : PGROUNDUP ((k.pool curr).brk + n) ≠ vma.vmEnd) (hrun : sysSbrk curr n k = some
    (ret, k')) :
    ∃ r vm', mmRemap mm vma vma.vmStart (PGROUNDUP ((k.pool curr).brk + n)) vma.pteFlags k.vm =
      some (r, vm') ∧
      sbrkDone k curr ((k.pool curr).brk + n) (r, vm') = (ret, k') := by
  rw [h.run, if_neg hstart, sbrkRemap, if_neg hne] at hrun
  obtain ⟨⟨r, vm'⟩, hremap, hdone⟩ := Option.map_eq_some_iff.1 hrun
  exact ⟨r, vm', hremap, hdone⟩

/-- A request that takes the new break below 0 ends in the old break or without memory, but not
with `-EINVAL`. -/
theorem negative_wrong (hneg : newBreak k curr n < 0)
    (hhigh : 2 ^ 63 ≤ ((k.pool curr).brk + n).toNat)
    (hcheck :
      vmaCheckOverlap mm vma.vmStart (PGROUNDUP ((k.pool curr).brk + n)) vma.addr = false) :
    ¬ Ends (sysSbrk curr n) k (Contract k curr mm vma n) := by
  rintro ⟨ret, k', hrun, hcontract⟩
  have hrange := h.range
  have hbrk := h.brk_toInt
  have hlow : newBreak k curr n < vma.vmStart.toNat := by omega
  obtain ⟨hkept, hret⟩ := hcontract.below hlow
  have hstart : ¬ (k.pool curr).brk + n < vma.vmStart := by
    have hle := h.start_le
    have hlt := h.brk_lt
    rw [BitVec.le_def] at hle
    rw [BitVec.lt_def]
    omega
  have hne : PGROUNDUP ((k.pool curr).brk + n) = vma.vmEnd → False := by
    intro heq
    rw [h.run, if_neg hstart, sbrkRemap, if_pos heq] at hrun
    have hbrk' : ret = (k.pool curr).brk := (congrArg Prod.fst (Option.some.inj hrun)).symm
    have hneg' := hkept.ret
    rw [hbrk'] at hneg'
    omega
  obtain ⟨r, vm', hremap, hdone⟩ := h.ret_cases hstart hne hrun
  have hbrk' : r.1 = 0 → False := by
    intro hr
    rw [sbrkDone, if_pos hr, Prod.mk.injEq] at hdone
    have hneg' := hkept.ret
    rw [← hdone.1] at hneg'
    omega
  by_cases hzero : PGROUNDUP ((k.pool curr).brk + n) = 0
  · rw [hzero] at hremap hcheck
    exact hbrk' ((mmRemap_zero h.wf h.mem hcheck).elim hremap)
  · have hbeyond : TRAPFRAME < PGROUNDUP ((k.pool curr).brk + n) := by
      have hround : (PGROUNDUP ((k.pool curr).brk + n)).toNat ≠ 0 :=
        fun hno => hzero (BitVec.eq_of_toNat_eq hno)
      have htf : TRAPFRAME.toNat < 2 ^ 63 := by decide
      rw [BitVec.lt_def]
      rw [toNat_PGROUNDUP_mod] at hround ⊢
      omega
    have hends :=
      (mmRemap_past h.safe h.flags.isFlags h.flags.isFlags hrange.start hcheck
        (by decide) pageStart_TRAPFRAME
        h.start_le_end hrange.low hbeyond).elim hremap
    rcases hends with heq | ⟨heq, -⟩
    · exact hbrk' (by rw [heq])
    · rw [heq, sbrkDone_error (by decide), Prod.mk.injEq, hret] at hdone
      exact absurd hdone.1 (by decide)

/-- Nor does a request that takes the heap over a mapped page keep the contract. -/
theorem over_wrong {va : Uint64} (hstart : ¬ (k.pool curr).brk + n < vma.vmStart)
    (hcheck : vmaCheckOverlap mm vma.vmStart (PGROUNDUP ((k.pool curr).brk + n)) vma.addr = false)
    (hva : IS_USER_VA va = true) (hpage : PageStart va) (hout : vma.vmEnd ≤ va)
    (hlt : va < PGROUNDUP ((k.pool curr).brk + n))
    (hvalid : entryAt k.vm.pte mm.pgt (vpn va) &&& PTE_V ≠ 0) :
    ¬ Ends (sysSbrk curr n) k (Contract k curr mm vma n) := by
  rintro ⟨ret, k', hrun, hcontract⟩
  have hne : PGROUNDUP ((k.pool curr).brk + n) ≠ vma.vmEnd := by
    intro heq
    rw [heq, BitVec.lt_def] at hlt
    rw [BitVec.le_def] at hout
    omega
  obtain ⟨r, vm', hremap, hdone⟩ := h.ret_cases hstart hne hrun
  have hbrk := h.brk_toInt
  have hends := (mmRemap_past h.safe h.flags.isFlags h.flags.isFlags h.range.start hcheck hva hpage
    h.start_le_end hout hlt).elim hremap
  rcases hends with rfl | ⟨rfl, hinvalid⟩
  · -- the heap got the page
    rw [sbrkDone, if_pos rfl, Prod.mk.injEq] at hdone
    obtain ⟨rfl, rfl⟩ := hdone
    rcases hcontract.ends with hmoved | hkept
    · have hwf := hmoved.ready.wf
      rw [Kernel.setProc_pool_self] at hwf
      exact h.not_moved_over hva hpage hvalid hout hlt hwf
    · have hneg := hkept.ret
      omega
  · -- the undo loop unmapped it
    rw [sbrkDone_error (by decide), Prod.mk.injEq] at hdone
    obtain ⟨rfl, rfl⟩ := hdone
    rcases hcontract.ends with hmoved | hkept
    · have hret := hmoved.ret
      rw [← hret] at hbrk
      exact absurd hbrk (by decide)
    · have hsame := (hkept.mappings (vpn va)).valid
      exact hvalid (hsame.trans hinvalid)

end HeapReady

/-- **Which requests meet the contract of `sbrk`**: those that the overlap check refuses, and those
that take the break to a number that is not negative, past no page that is mapped above the
heap. -/
theorem sbrk_contract_iff (h : HeapReady k curr mm vma) (n : Uint64) :
    Ends (sysSbrk curr n) k (Contract k curr mm vma n) ↔ SbrkFits k curr mm vma n := by
  have hrange := h.range
  by_cases hstart : (k.pool curr).brk + n < vma.vmStart
  · -- refused before the check, as it should be
    have hlow : ((k.pool curr).brk + n).toNat < vma.vmStart.toNat := hstart
    have hle := h.start_le
    have hbrk := h.brk_lt
    rw [BitVec.le_def] at hle
    refine iff_of_true ?_ (.inr ⟨?_, fun va hpage hva hout hlt => ?_⟩)
    · have hkept : HeapKept k curr mm (ofInt (-EINVAL)) k :=
        ⟨by decide, rfl, rfl, h.space, fun _ => ⟨rfl, rfl⟩⟩
      refine .of_eq ?_ ⟨.inr hkept, fun _ => ⟨hkept, rfl⟩⟩
      rw [h.run, if_pos hstart]
    · rcases h.newBreak_cases n with ⟨hpos, -⟩ | ⟨-, hhigh⟩
      · exact hpos
      · omega
    · have hround := PGROUNDUP_le hrange.start (BitVec.le_def.2 hlow.le)
      have hend := h.start_le_end
      rw [BitVec.le_def] at hround hend hout
      rw [BitVec.lt_def] at hlt
      omega
  · have hge : vma.vmStart ≤ (k.pool curr).brk + n := by
      rw [BitVec.lt_def] at hstart
      rw [BitVec.le_def]
      omega
    cases hcheck : vmaCheckOverlap mm vma.vmStart (PGROUNDUP ((k.pool curr).brk + n)) vma.addr with
    | true =>
      refine iff_of_true ?_ (.inl hcheck)
      exact (h.refused hstart hcheck).mono fun ret k' hends => ⟨.inr hends.1, fun _ => hends⟩
    | false =>
      rcases h.newBreak_cases n with ⟨hpos, hsum⟩ | ⟨hneg, hhigh⟩
      · constructor
        · intro hends
          refine .inr ⟨hpos, fun va hpage hva hout hlt => ?_⟩
          by_contra hvalid
          exact h.over_wrong hstart hcheck hva hpage hout hlt hvalid hends
        · rintro (hhit | ⟨-, hroom⟩)
          · rw [hcheck] at hhit
            exact absurd hhit (by simp)
          · refine (h.fits hsum hge hroom).mono fun ret k' hends => ⟨hends, fun hbelow => ?_⟩
            rw [BitVec.le_def] at hge
            omega
      · refine iff_of_false (h.negative_wrong hneg hhigh hcheck) ?_
        rintro (hhit | ⟨hpos, -⟩)
        · rw [hcheck] at hhit
          exact absurd hhit (by simp)
        · omega

end Call

/-! ## A process with an empty heap below its stack -/

/-- The vmas that `load_user_elf` makes for a program without segments that ends at 0x1000. -/
def emptyHeap : VmM (Int × Mm) := do
  match ← mmWith (heapVma 0x1000 7) with
  | none => return (-ENOMEM, ⟨0, 0, [], 0⟩)
  | some mm => mmMappages mm (stackVma 8)

/-- The kernel that runs it. -/
def emptyHeapKernel (vm : Vm) (mm : Mm) : Kernel :=
  { boot ⟨vm, [], fun _ => 0x90000000, fun _ => .zero⟩ with
    pool := fun _ =>
      { Proc.zero 0x90000000 .zero with
        state := .running, pid := 1, mm := some mm, vmaBrk := 7, brk := 0x1000 } }

theorem mmWith_built {vma : Vma} {vm vm' : Vm} {mm : Mm} (hfree : FreeOk vm)
    (htramp : Reserved vm vm.trampoline)
    (htf : Reserved vm 0x90000000) (hne : 0x90000000 ≠ vm.trampoline)
    (hflags : IsFlags vma.pteFlags)
    (h : mmWith vma vm = some (some mm, vm')) : Built vm' mm := by
  obtain ⟨r, vm₁, hcreate, hrun⟩ := bind_eq_some.1 h
  cases r with
  | none => exact absurd (pure_eq_some.1 hrun).1 (by simp)
  | some new =>
    have hbuilt := Built.create hfree htramp htf hne hcreate
    obtain ⟨⟨ret, mapped⟩, vm₂, hmap, hrun⟩ := bind_eq_some.1 hrun
    have hmapped := hbuilt.mappages hflags hmap
    by_cases hneg : ret < 0
    · simp only [if_pos hneg] at hrun
      exact absurd (pure_eq_some.1 hrun).1 (by simp)
    · simp only [if_neg hneg] at hrun
      obtain ⟨hmm, rfl⟩ := pure_eq_some.1 hrun
      exact Option.some.inj hmm ▸ hmapped

theorem emptyHeap_ready : ∃ vm mm, emptyHeap initVm = some ((0, mm), vm) ∧
    mm.vma = [stackVma 8, heapVma 0x1000 7] ∧ HeapReady (emptyHeapKernel vm mm) 0 mm
      (heapVma 0x1000 7) := by
  have hrun : (emptyHeap initVm).map (fun r => decide (r.1.1 = 0 ∧
    entryAt r.2.pte r.1.2.pgt (vpn TRAPFRAME) &&& PTE_V ≠ 0 ∧
      entryAt r.2.pte r.1.2.pgt (vpn TRAMPOLINE) &&& PTE_V ≠ 0)) = some true := by decide +kernel
  obtain ⟨⟨⟨r, mm'⟩, vm'⟩, hrun, hobs⟩ := Option.map_eq_some_iff.1 hrun
  obtain ⟨hzero, htf, htramp⟩ := of_decide_eq_true hobs
  obtain ⟨made, vm, hwith, hmap⟩ := bind_eq_some.1 hrun
  cases made with
  | none =>
    obtain ⟨heq, -⟩ := pure_eq_some.1 hmap
    exact absurd ((congrArg Prod.fst heq).symm.trans hzero) (show -ENOMEM ≠ 0 by decide)
  | some mm =>
    have hheap : (heapVma 0x1000 7).InRange := heapVma_inRange (by decide) (by decide) 7
    obtain ⟨hwf, hvma⟩ := mmWith_wf freeOk_initVm hheap userFlags_data hwith
    have hbuilt :=
      mmWith_built freeOk_initVm ⟨by decide, by decide, by decide⟩
        ⟨by decide, by decide, by decide⟩
        (by decide) userFlags_data.isFlags hwith
    have hsafe := (Built.mappages hbuilt userFlags_data.isFlags hmap).safe
    cases (mmMappages_ends hwf.toTidy (stackVma_inRange 8) userFlags_data).elim hmap with
    | overlap => exact absurd hzero (show -EINVAL ≠ 0 by decide)
    | failed neg => exact absurd hzero (ne_of_lt neg)
    | mapped hbecomes hmaps =>
      rw [hvma] at hsafe
      refine ⟨vm', { mm with vma := stackVma 8 :: mm.vma }, hrun, by rw [hvma], rfl, ?_, ?_, ?_,
        rfl, ?_, htf, htramp, ?_, ?_, ?_⟩
      · exact hwf.cons (stackVma_inRange 8) userFlags_data hbecomes hmaps
      · exact hsafe
      · rw [hvma]
        exact List.mem_cons_of_mem _ (List.mem_singleton_self _)
      · rw [hvma]
        show [(8 : Uint64), 7].Nodup
        decide
      · show (0x1000 : Uint64) ≤ 0x1000
        decide
      · show (0x1000 : Uint64) ≤ 0x1000
        decide
      · show (0x1000 : Uint64) = PGROUNDUP 0x1000
        decide

/-- A request for two pages moves the break, and one that would take it below the heap is
refused. -/
theorem sbrk_contract_iff_emptyHeap : ∃ vm mm,
    HeapReady (emptyHeapKernel vm mm) 0 mm (heapVma 0x1000 7) ∧
    Ends (sysSbrk 0 0x2000) (emptyHeapKernel vm mm)
      (HeapMoved (emptyHeapKernel vm mm) 0 mm (heapVma 0x1000 7) 0x2000) ∧
    Ends (sysSbrk 0 (ofInt (-0x1000))) (emptyHeapKernel vm mm) fun ret k' =>
      HeapKept (emptyHeapKernel vm mm) 0 mm ret k' ∧ ret = ofInt (-EINVAL) := by
  obtain ⟨vm, mm, hrun, -, hready⟩ := emptyHeap_ready
  have hobs : (emptyHeap initVm).map (fun r => decide
      (entryAt r.2.pte r.1.2.pgt (vpn 0x1000) &&& PTE_V = 0 ∧
        entryAt r.2.pte r.1.2.pgt (vpn 0x2000) &&& PTE_V = 0 ∧
      (sysSbrk 0 0x2000 (emptyHeapKernel r.2 r.1.2)).map Prod.fst = some 0x1000)) =
        some true := by decide +kernel
  rw [hrun] at hobs
  obtain ⟨hfirst, hsecond, hret⟩ := of_decide_eq_true (Option.some.inj hobs)
  have hfits : SbrkFits (emptyHeapKernel vm mm) 0 mm (heapVma 0x1000 7) 0x2000 := by
    have hbreak : (0 : Int) ≤ (0x1000 : Uint64).toNat + (0x2000 : Uint64).toInt := by decide
    have hstop : PGROUNDUP ((0x1000 : Uint64) + 0x2000) = 0x3000 := by decide
    refine .inr ⟨hbreak, fun va hva _ hle hlt => ?_⟩
    replace hlt : va < PGROUNDUP (0x1000 + 0x2000) := hlt
    rw [hstop, BitVec.lt_def] at hlt
    rw [BitVec.le_def] at hle
    rw [PageStart] at hva
    have hlow : (heapVma 0x1000 7).vmEnd.toNat = 0x1000 := rfl
    have hhigh : (0x3000 : Uint64).toNat = 0x3000 := rfl
    have hpage : va.toNat = 0x1000 ∨ va.toNat = 0x2000 := by omega
    rcases hpage with heq | heq
    · obtain rfl : va = 0x1000 := BitVec.eq_of_toNat_eq heq
      exact hfirst
    · obtain rfl : va = 0x2000 := BitVec.eq_of_toNat_eq heq
      exact hsecond
  refine ⟨vm, mm, hready, ?_, ?_⟩
  · obtain ⟨ret, k', hsbrk, hcontract⟩ := (sbrk_contract_iff hready 0x2000).2 hfits
    rw [hsbrk] at hret
    obtain rfl : ret = 0x1000 := Option.some.inj hret
    exact ⟨_, k', hsbrk, hcontract.ends.resolve_right fun hkept => absurd hkept.ret (by decide)⟩
  · refine ((sbrk_contract_iff hready (ofInt (-0x1000))).2
      (.inr ⟨?_, fun va _ _ hle hlt => ?_⟩)).mono
      fun ret k' hcontract => hcontract.below ?_
    · show (0 : Int) ≤ (0x1000 : Uint64).toNat + (ofInt (-0x1000)).toInt
      decide
    · have hstop : PGROUNDUP ((0x1000 : Uint64) + ofInt (-0x1000)) = 0 := by decide
      replace hlt : va < PGROUNDUP (0x1000 + ofInt (-0x1000)) := hlt
      rw [hstop] at hlt
      exact absurd hlt BitVec.not_lt_zero
    · show ((0x1000 : Uint64).toNat : Int) + (ofInt (-0x1000)).toInt <
        (heapVma 0x1000 7).vmStart.toNat
      decide

/-- A request that takes the break to -1 succeeds. -/
theorem sbrk_negative_break : ∃ vm mm,
    HeapReady (emptyHeapKernel vm mm) 0 mm (heapVma 0x1000 7) ∧
      ¬ Ends (sysSbrk 0 (ofInt (-0x1001))) (emptyHeapKernel vm mm)
        (Contract (emptyHeapKernel vm mm) 0 mm (heapVma 0x1000 7) (ofInt (-0x1001))) := by
  obtain ⟨vm, mm, -, hvma, hready⟩ := emptyHeap_ready
  refine ⟨vm, mm, hready, hready.negative_wrong (show (4096 : Int) + (ofInt (-0x1001)).toInt <
    0 by decide)
    (show 2 ^ 63 ≤ ((0x1000 : Uint64) + ofInt (-0x1001)).toNat by decide) ?_⟩
  have hpass : vmaCheckOverlap ⟨0, 0, [stackVma 8, heapVma 0x1000 7], 1⟩ 0x1000
    (PGROUNDUP (0x1000 + ofInt (-0x1001))) 7 =
      false := by decide
  rw [vmaCheckOverlap] at hpass ⊢
  rw [hvma]
  exact hpass

end SignalOS
