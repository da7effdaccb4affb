import SignalOS.Vm.Lifetime
import SignalOS.Vm.Overlap
import SignalOS.Vm.Remap

/-!
# Resizing a vma

* `Resize` — what a caller of `mm_remap` that moves the end of a vma has to see to.
* `Resized`, `Unresized`, `mmRemap_ends` — **`mm_remap` moves the end of a vma, or
  changes nothing**.
-/

namespace SignalOS

open Partial

/-- What the caller of `mm_remap` sees to when it moves the end of a vma to `stop`. -/
structure Resize (vm : Vm) (mm : Mm) (vma : Vma) (stop flags : Uint64) : Prop where
  wf : MmWf vm mm
  mem : vma ∈ mm.vma
  /-- The vmas of the list are different objects. -/
  addrs : (mm.vma.map Vma.addr).Nodup
  page : PageStart stop
  le : vma.vmStart ≤ stop
  low : stop ≤ TRAPFRAME
  apart : ∀ w ∈ mm.vma, w.addr ≠ vma.addr → ¬ w.Meets vma.vmStart stop
  flags : flags &&& ~~~PTE_RWX = vma.pteFlags &&& ~~~PTE_RWX

/-- The pages of the new range. -/
def Vma.newPages (vma : Vma) (stop : Uint64) : List Uint64 := pagesBetween vma.vmStart stop

/-- The pages of both ranges. -/
def Vma.hull (vma : Vma) (stop : Uint64) : List Uint64 :=
  pagesBetween vma.vmStart (MAX stop vma.vmEnd)

variable {vm vm' vm₁ vm₂ : Vm} {mm : Mm} {vma : Vma} {stop flags va : Uint64}
  {E E₁ E₂ : Vpn → Uint64}

theorem covers_vpn {pages : List Uint64} (hpages : UserPages pages) (hva : IS_USER_VA va = true)
    (hpage : PageStart va) : Covers pages (vpn va) ↔ va ∈ pages := by
  constructor
  · rintro ⟨a, ha, heq⟩
    obtain ⟨hua, hpa⟩ := hpages a ha
    exact vpn_inj hua hva hpa hpage heq ▸ ha
  · exact fun hin => ⟨va, hin, rfl⟩

theorem userFlags_of_agree (h : UserFlags vma.pteFlags)
    (hagree : flags &&& ~~~PTE_RWX = vma.pteFlags &&& ~~~PTE_RWX)
    (hrwx : flags &&& PTE_RWX ≠ 0) : UserFlags flags := by
  have hsplit (f : Uint64) : f = f &&& ~~~PTE_RWX ||| f &&& PTE_RWX := by
    rw [← BitVec.and_or_distrib_left]
    refine BitVec.eq_of_getLsbD_eq fun i hi => ?_
    rw [BitVec.getLsbD_and, BitVec.getLsbD_or, BitVec.getLsbD_not]
    simp [hi]
  have hU : ~~~PTE_RWX &&& PTE_U = PTE_U := by decide
  refine ⟨?_, ?_, hrwx⟩
  · rw [hsplit flags, hagree]
    refine IsFlags.or ?_ ?_
    · exact lt_of_le_of_lt (by rw [BitVec.toNat_and]; exact Nat.and_le_left) h.isFlags
    · exact lt_of_le_of_lt (by rw [BitVec.toNat_and]; exact Nat.and_le_right) isFlags_RWX
  · have huser := h.user
    rw [← hU, ← BitVec.and_assoc] at huser ⊢
    rw [hagree]
    exact huser

namespace Resize

variable (h : Resize vm mm vma stop flags)

include h

theorem start : PageStart vma.vmStart := (h.wf.range vma h.mem).start

theorem mem_newPages : va ∈ vma.newPages stop ↔ PageStart va ∧ vma.vmStart ≤ va ∧ va < stop :=
  mem_pagesBetween h.start

theorem mem_pages : va ∈ vma.pages ↔ PageStart va ∧ vma.vmStart ≤ va ∧ va < vma.vmEnd :=
  mem_pagesBetween h.start

theorem mem_hull : va ∈ vma.hull stop ↔ va ∈ vma.pages ∨ va ∈ vma.newPages stop := by
  rw [h.mem_newPages, h.mem_pages, Vma.hull, mem_pagesBetween h.start, MAX]
  by_cases hgt : stop > vma.vmEnd
  · rw [if_pos hgt]
    simp only [PageStart, gt_iff_lt, BitVec.lt_def, BitVec.le_def] at hgt ⊢
    omega
  · rw [if_neg hgt]
    simp only [PageStart, gt_iff_lt, BitVec.lt_def, BitVec.le_def] at hgt ⊢
    omega

/-- The vma with its new end. -/
theorem newRange : ({ vma with vmEnd := stop, pteFlags := flags } : Vma).InRange :=
  ⟨h.start, h.page, (h.wf.range vma h.mem).high, h.low⟩

theorem userHull : UserPages (vma.hull stop) := by
  intro va hva
  rcases h.mem_hull.1 hva with hold | hnew
  · exact (h.wf.range vma h.mem).userPages va hold
  · exact h.newRange.userPages va hnew

/-- A page of the hull is outside the new range if it is not one of its pages. -/
theorem outside_iff (hva : va ∈ vma.hull stop) :
    va < vma.vmStart ∨ va ≥ stop ↔ va ∉ vma.newPages stop := by
  obtain ⟨hpage, hle, -⟩ := (mem_pagesBetween h.start).1 hva
  rw [h.mem_newPages]
  simp only [ge_iff_le, BitVec.lt_def, BitVec.le_def] at hle ⊢
  constructor
  · rintro hout ⟨-, -, hlt⟩
    omega
  · intro hnot
    by_contra hin
    exact hnot ⟨hpage, hle, by omega⟩

theorem dropped_iff (hva : va ∈ vma.hull stop) :
    va < vma.vmStart ∨ va ≥ vma.vmEnd ↔ va ∉ vma.pages := by
  obtain ⟨hpage, hle, -⟩ := (mem_pagesBetween h.start).1 hva
  rw [h.mem_pages]
  simp only [ge_iff_le, BitVec.lt_def, BitVec.le_def] at hle ⊢
  constructor
  · rintro hout ⟨-, -, hlt⟩
    omega
  · intro hnot
    by_contra hin
    exact hnot ⟨hpage, hle, by omega⟩

/-- A page of the vma is mapped for the user. -/
theorem mapped (hva : va ∈ vma.pages) : entryAt vm.pte mm.pgt (vpn va) &&& PTE_V ≠ 0 ∧
    entryAt vm.pte mm.pgt (vpn va) &&& PTE_U ≠ 0 := by
  have hvalid := (h.wf.mapped vma h.mem va hva).1
  exact ⟨hvalid, h.wf.user (h.wf.range vma h.mem) hva hvalid⟩

/-- The vmas of the list are told apart by their objects. -/
theorem eq_of_addr {w : Vma} (hw : w ∈ mm.vma) (haddr : w.addr = vma.addr) : w = vma :=
  List.inj_on_of_nodup_map h.addrs hw h.mem haddr

/-- A page of the new range that is not one of the vma is not mapped. -/
theorem unmapped_new (hva : va ∈ vma.newPages stop) (hnew : va ∉ vma.pages) :
    entryAt vm.pte mm.pgt (vpn va) = 0 := by
  refine h.wf.good.entry_zero (by_contra fun hvalid => ?_)
  have hframe := frameOf_of_user hvalid (h.wf.user h.newRange hva hvalid)
  obtain ⟨w, hw, hcov⟩ := h.wf.covered _ _ hframe
  obtain ⟨hpage, hle, hlt⟩ := h.mem_newPages.1 hva
  have hin := (covers_vpn (h.wf.range w hw).userPages (h.newRange.userPages va hva).1 hpage).1 hcov
  by_cases haddr : w.addr = vma.addr
  · exact hnew (h.eq_of_addr hw haddr ▸ hin)
  · obtain ⟨-, hle', hlt'⟩ := (mem_pagesBetween (h.wf.range w hw).start).1 hin
    exact h.apart w hw haddr ⟨va, hle, hlt, hle', hlt'⟩

/-- The check lets the new range pass. -/
theorem check_passes : vmaCheckOverlap mm vma.vmStart stop vma.addr = false := by
  by_cases heq : vma.vmStart = stop
  · rw [vmaCheckOverlap, if_pos heq]
  · have hlt : vma.vmStart < stop := by
      have hle := h.le
      rw [← BitVec.toNat_inj] at heq
      rw [BitVec.le_def] at hle
      rw [BitVec.lt_def]
      omega
    by_contra hhit
    rw [Bool.not_eq_false, vmaCheckOverlap_iff hlt] at hhit
    obtain ⟨w, hw, haddr, hend⟩ := hhit
    exact h.apart w hw haddr ((meets_iff hlt).2 (.inl hend))

/-! ### The entries after the loops -/

/-- What the first loop makes of a page. -/
theorem creates (hva : va ∈ vma.hull stop) {e : Uint64}
    (he : Creates vma.vmStart stop flags va (entryAt vm.pte mm.pgt (vpn va)) e) :
    if va ∈ vma.newPages stop then
      if va ∈ vma.pages then e = reflag flags (entryAt vm.pte mm.pgt (vpn va))
        else IsMapping flags e
    else e = entryAt vm.pte mm.pgt (vpn va) := by
  generalize hold : entryAt vm.pte mm.pgt (vpn va) = old at he ⊢
  cases he with
  | skipped hout => rw [if_neg ((h.outside_iff hva).1 hout)]
  | created hin hmap =>
    have hnew := not_not.1 (mt (h.outside_iff hva).2 hin)
    have hpages : va ∉ vma.pages := by
      intro hmem
      have hvalid := (h.mapped hmem).1
      rw [hold] at hvalid
      exact hvalid zero_and_V
    rw [if_pos hnew, if_neg hpages]
    exact hmap
  | changed hin hvalid =>
    have hnew := not_not.1 (mt (h.outside_iff hva).2 hin)
    have hpages : va ∈ vma.pages := by
      by_contra hmem
      rw [← hold, h.unmapped_new hnew hmem] at hvalid
      exact hvalid zero_and_V
    rw [if_pos hnew, if_pos hpages]

/-- The entries when memory suffices. -/
theorem edits_moved {E₁ E₂ : Vpn → Uint64}
    (hcreate : Edits (Creates vma.vmStart stop flags) (vma.hull stop) (entryAt vm.pte mm.pgt) E₁)
    (hremove : Edits (Removes vma.vmStart stop) (vma.hull stop) E₁ E₂) (hva : va ∈ vma.hull stop) :
    if va ∈ vma.newPages stop then
      if va ∈ vma.pages then E₂ (vpn va) = reflag flags (entryAt vm.pte mm.pgt (vpn va))
      else IsMapping flags (E₂ (vpn va))
    else E₂ (vpn va) = 0 := by
  have hcreated := h.creates hva (hcreate.page va hva)
  have hremoved := hremove.page va hva
  rw [Removes] at hremoved
  by_cases hnew : va ∈ vma.newPages stop
  · rw [if_pos hnew] at hcreated ⊢
    rw [if_neg fun hout => (h.outside_iff hva).1 hout hnew] at hremoved
    rw [hremoved]
    exact hcreated
  · rw [if_neg hnew]
    rw [if_pos ((h.outside_iff hva).2 hnew)] at hremoved
    exact hremoved

/-- A page in the middle of the first loop. -/
theorem partEdits (hpart : PartEdits (Creates vma.vmStart stop flags) (vma.hull stop)
    (entryAt vm.pte mm.pgt) E₁)
    (hva : va ∈ vma.hull stop) :
    if va ∈ vma.pages then E₁ (vpn va) = entryAt vm.pte mm.pgt (vpn va) ∨
      E₁ (vpn va) = reflag flags (entryAt vm.pte mm.pgt (vpn va))
    else E₁ (vpn va) = 0 ∨ IsMapping flags (E₁ (vpn va)) := by
  obtain ⟨huva, hpage⟩ := h.userHull va hva
  have hcase : E₁ (vpn va) = entryAt vm.pte mm.pgt (vpn va) ∨
      Creates vma.vmStart stop flags va (entryAt vm.pte mm.pgt (vpn va)) (E₁ (vpn va)) := by
    refine (hpart (vpn va)).imp_right fun ⟨a, ha, heq, hcreates⟩ => ?_
    obtain ⟨hua, hpa⟩ := h.userHull a ha
    obtain rfl := vpn_inj hua huva hpa hpage heq
    exact hcreates
  rcases hcase with hsame | hcreates
  · rw [hsame]
    split
    · exact .inl rfl
    · rename_i hmem
      exact .inl (h.unmapped_new ((h.mem_hull.1 hva).resolve_left hmem) hmem)
  · have hcreated := h.creates hva hcreates
    by_cases hmem : va ∈ vma.pages
    · rw [if_pos hmem] at hcreated ⊢
      split at hcreated
      · exact .inr hcreated
      · exact .inl hcreated
    · rw [if_neg hmem] at hcreated ⊢
      rw [if_pos ((h.mem_hull.1 hva).resolve_left hmem)] at hcreated
      exact .inr hcreated

/-- The entries after the undo loop. -/
theorem edits_restored {E₁ E₂ : Vpn → Uint64}
    (hpart : PartEdits (Creates vma.vmStart stop flags) (vma.hull stop) (entryAt vm.pte mm.pgt) E₁)
    (hrestore : Edits (Restores vma) (vma.hull stop) E₁ E₂) (v : Vpn) :
    E₂ v = if Covers vma.pages v then reflag vma.pteFlags (entryAt vm.pte mm.pgt v)
      else entryAt vm.pte mm.pgt v := by
  by_cases hhull : Covers (vma.hull stop) v
  · obtain ⟨va, hva, rfl⟩ := hhull
    obtain ⟨huva, hpage⟩ := h.userHull va hva
    have hedit := h.partEdits hpart hva
    have hrestored := hrestore.page va hva
    rw [Restores] at hrestored
    by_cases hmem : va ∈ vma.pages
    · rw [if_neg fun hout => (h.dropped_iff hva).1 hout hmem] at hrestored
      rw [if_pos hmem] at hedit
      rw [if_pos ⟨va, hmem, rfl⟩, hrestored]
      rcases hedit with hsame | hchanged
      · rw [hsame]
      · rw [hchanged, reflag_reflag h.flags]
    · rw [if_pos ((h.dropped_iff hva).2 hmem)] at hrestored
      rw [if_neg, hrestored, h.unmapped_new ((h.mem_hull.1 hva).resolve_left hmem) hmem]
      exact fun hcov => hmem ((covers_vpn (h.wf.range vma h.mem).userPages huva hpage).1 hcov)
  · have hold : ¬ Covers vma.pages v :=
      fun ⟨va, hva, heq⟩ => hhull ⟨va, h.mem_hull.2 (.inl hva), heq⟩
    rw [hrestore.other v hhull, if_neg hold]
    rcases hpart v with hsame | ⟨va, hva, heq, -⟩
    · exact hsame
    · exact absurd ⟨va, hva, heq⟩ hhull

end Resize

/-! ## `mm_remap` -/

/-- The vma now ends at `stop` and has the new flags. -/
structure Resized (vm : Vm) (mm : Mm) (vma : Vma) (stop flags : Uint64) (vm' : Vm) : Prop where
  wf : MmWf vm' (mm.moved vma vma.vmStart stop flags)
  mapped : ∀ va ∈ vma.newPages stop, Permits flags (entryAt vm'.pte mm.pgt (vpn va))
  kept : ∀ va ∈ vma.pages, va ∈ vma.newPages stop →
    frameAt vm'.pte mm.pgt (vpn va) = frameAt vm.pte mm.pgt (vpn va)
  dropped : ∀ va ∈ vma.pages, va ∉ vma.newPages stop → entryAt vm'.pte mm.pgt (vpn va) = 0 ∧
    ∀ p, frameAt vm.pte mm.pgt (vpn va) = some p → p ∈ vm'.freelist
  others : ∀ v, ¬ Covers vma.pages v → ¬ Covers (vma.newPages stop) v →
    entryAt vm'.pte mm.pgt v = entryAt vm.pte mm.pgt v
  contents : ∀ v a, frameAt vm.pte mm.pgt v = some (PGROUNDDOWN a) →
    frameAt vm'.pte mm.pgt v = some (PGROUNDDOWN a) → vm'.byte a = vm.byte a
  evolves : Evolves (Owns vm mm.pgt) (Owns vm' mm.pgt) vm vm'
  pools : SamePools vm vm'

/-- Every mapping is as it was. -/
structure Unresized (vm : Vm) (mm : Mm) (vma : Vma) (vm' : Vm) : Prop where
  wf : MmWf vm' mm
  frames : frameAt vm'.pte mm.pgt = frameAt vm.pte mm.pgt
  perms : ∀ va ∈ vma.pages, entryAt vm'.pte mm.pgt (vpn va) &&& PERM = entryAt vm.pte mm.pgt
    (vpn va) &&& PERM
  others : ∀ v, ¬ Covers vma.pages v → entryAt vm'.pte mm.pgt v = entryAt vm.pte mm.pgt v
  /-- Where a page had all flags of the vma, its entry is the same bit for bit. -/
  entries : ∀ va ∈ vma.pages, entryAt vm.pte mm.pgt (vpn va) &&& vma.pteFlags = vma.pteFlags →
    entryAt vm'.pte mm.pgt (vpn va) = entryAt vm.pte mm.pgt (vpn va)
  contents : ∀ v a, frameAt vm.pte mm.pgt v = some (PGROUNDDOWN a) → vm'.byte a = vm.byte a
  /-- A page that was free is free again, or a page table. -/
  free : ∀ p ∈ vm.freelist, p ∈ vm'.freelist ∨ ∃ x, tableAt vm'.pte mm.pgt x = some p
  evolves : Evolves (Owns vm mm.pgt) (Owns vm' mm.pgt) vm vm'
  pools : SamePools vm vm'

/-- How `mm_remap` may end. -/
inductive ResizeEnds (vm : Vm) (mm : Mm) (vma : Vma) (stop flags : Uint64) : Int × Mm → Vm →
    Prop where
  | resized {vm' : Vm} (h : Resized vm mm vma stop flags vm') :
      ResizeEnds vm mm vma stop flags (0, mm.moved vma vma.vmStart stop flags) vm'
  | unresized {vm' : Vm} (h : Unresized vm mm vma vm') :
    ResizeEnds vm mm vma stop flags (-ENOMEM, mm) vm'

/-- A frame that is there before and after keeps its bytes. -/
theorem contents_kept {pgt a : Uint64} (hgood : Good vm pgt) (htakes : OnlyTakes vm vm₁)
    (hgives : GivesBack pgt E₂ vm₁ vm₂)
    (hown : Owns vm pgt (PGROUNDDOWN a)) (hown' : Owns vm₂ pgt (PGROUNDDOWN a)) :
    vm₂.byte a = vm.byte a := by
  rw [hgives.byte a (hgives.good.owned _ hown').1]
  exact (htakes fun p hp => (hgood.free.managed p hp).start).byte a (hgood.owned _ hown).1

namespace Resize

variable (h : Resize vm mm vma stop flags)

include h

/-- A page of another vma is not touched. -/
theorem other_page {w : Vma} (hw : w ∈ mm.vma) (hne : w.addr ≠ vma.addr) (hva : va ∈ w.pages) :
    ¬ Covers (vma.hull stop) (vpn va) := by
  intro hcov
  obtain ⟨huva, hpage⟩ := (h.wf.range w hw).userPages va hva
  have hmem := (covers_vpn h.userHull huva hpage).1 hcov
  obtain ⟨-, hle, hlt⟩ := (mem_pagesBetween (h.wf.range w hw).start).1 hva
  rcases h.mem_hull.1 hmem with hold | hnew
  · have hsymm : Std.Symm fun a b : Vma => ∀ va ∈ a.pages, va ∉ b.pages :=
      ⟨fun _ _ hab va hva hva' => hab va hva' hva⟩
    exact h.wf.disjoint.forall hw h.mem (fun heq => hne (heq ▸ rfl)) va hva hold
  · obtain ⟨-, hle', hlt'⟩ := h.mem_newPages.1 hnew
    exact h.apart w hw hne ⟨va, hle', hlt', hle, hlt⟩

/-- The address space once the vma was moved. -/
theorem moved_wf (hflags : UserFlags flags) (hgood : Good vm' mm.pgt)
    (hnew : ∀ va ∈ vma.newPages stop, Permits flags (entryAt vm'.pte mm.pgt (vpn va)))
    (hdropped : ∀ va ∈ vma.pages, va ∉ vma.newPages stop → entryAt vm'.pte mm.pgt (vpn va) = 0)
    (hothers : ∀ v, ¬ Covers (vma.hull stop) v →
      entryAt vm'.pte mm.pgt v = entryAt vm.pte mm.pgt v) :
    MmWf vm' (mm.moved vma vma.vmStart stop flags) := by
  have hmem {w : Vma} (hw : w ∈ (mm.moved vma vma.vmStart stop flags).vma) :
      w = { vma with vmEnd := stop, pteFlags := flags } ∨ w ∈ mm.vma ∧ w.addr ≠ vma.addr := by
    obtain ⟨v, hv, rfl⟩ := List.mem_map.1 hw
    by_cases haddr : v.addr = vma.addr
    · rw [if_pos haddr]
      exact .inl rfl
    · rw [if_neg haddr]
      exact .inr ⟨hv, haddr⟩
  -- a page of the hull is mapped if it is one of the new range
  have hhull {v : Vpn} (hcov : Covers (vma.hull stop) v) :
      Covers (vma.newPages stop) v ∨ entryAt vm'.pte mm.pgt v = 0 := by
    obtain ⟨va, hva, rfl⟩ := hcov
    by_cases hin : va ∈ vma.newPages stop
    · exact .inl ⟨va, hin, rfl⟩
    · exact .inr (hdropped va ((h.mem_hull.1 hva).resolve_right hin) hin)
  refine ⟨⟨hgood, fun w hw => ?_, fun v hvalid huser => ?_, fun v p hv => ?_⟩, fun w hw => ?_,
    fun w hw va hva => ?_, ?_⟩
  · rcases hmem hw with rfl | ⟨hw, -⟩
    · exact h.newRange
    · exact h.wf.range w hw
  · change entryAt vm'.pte mm.pgt v &&& PTE_V ≠ 0 at hvalid
    change entryAt vm'.pte mm.pgt v &&& PTE_U = 0 at huser
    by_cases hcov : Covers (vma.hull stop) v
    · rcases hhull hcov with ⟨va, hva, rfl⟩ | hzero
      · have hframe := (hnew va hva).frame hflags
        rw [frameOf, if_neg fun hc => hc.2 huser] at hframe
        exact absurd hframe (by simp)
      · rw [hzero] at hvalid
        exact absurd zero_and_V hvalid
    · rw [hothers v hcov] at hvalid huser
      exact h.wf.kernel v hvalid huser
  · change frameAt vm'.pte mm.pgt v = some p at hv
    have hmoved : ({ vma with vmEnd := stop, pteFlags := flags } : Vma) ∈
        (mm.moved vma vma.vmStart stop flags).vma :=
      List.mem_map.2 ⟨vma, h.mem, if_pos rfl⟩
    by_cases hcov : Covers (vma.hull stop) v
    · rcases hhull hcov with hin | hzero
      · exact ⟨_, hmoved, hin⟩
      · rw [frameAt, hzero, frameOf_zero] at hv
        exact absurd hv (by simp)
    · rw [frameAt, hothers v hcov] at hv
      obtain ⟨w, hw, hvw⟩ := h.wf.covered v p hv
      have hne : w.addr ≠ vma.addr := by
        intro haddr
        obtain rfl := h.eq_of_addr hw haddr
        obtain ⟨va, hva, rfl⟩ := hvw
        exact hcov ⟨va, h.mem_hull.2 (.inl hva), rfl⟩
      exact ⟨w, List.mem_map.2 ⟨w, hw, if_neg hne⟩, hvw⟩
  · rcases hmem hw with rfl | ⟨hw, -⟩
    · exact hflags
    · exact h.wf.flags w hw
  · change Permits w.pteFlags (entryAt vm'.pte mm.pgt (vpn va))
    rcases hmem hw with rfl | ⟨hw, hne⟩
    · exact hnew va hva
    · rw [hothers _ (h.other_page hw hne hva)]
      exact h.wf.mapped w hw va hva
  · have hnodup := h.addrs
    rw [List.nodup_iff_pairwise_ne, List.pairwise_map] at hnodup
    -- the moved vma and another one
    have hapart {w : Vma} (hw : w ∈ mm.vma) (hne : w.addr ≠ vma.addr) {va : Uint64}
      (hva : va ∈ w.pages) :
        va ∉ ({ vma with vmEnd := stop, pteFlags := flags } : Vma).pages := fun hin =>
      h.other_page hw hne hva ⟨va, h.mem_hull.2 (.inr hin), rfl⟩
    refine List.pairwise_map.2
      ((h.wf.disjoint.and hnodup).imp_of_mem fun {a b} ha hb hapart' => ?_)
    obtain ⟨hab, hne⟩ := hapart'
    by_cases hva : a.addr = vma.addr
    · rw [if_pos hva, if_neg fun hvb => hne (hva.trans hvb.symm)]
      exact fun va hin hin' => hapart hb (fun hvb => hne (hva.trans hvb.symm)) hin' hin
    · rw [if_neg hva]
      by_cases hvb : b.addr = vma.addr
      · rw [if_pos hvb]
        exact fun va hin => hapart ha hva hin
      · rw [if_neg hvb]
        exact hab

/-- The vma was moved. -/
theorem resized (hflags : UserFlags flags) (hcreate : Becomes mm.pgt E₁ vm vm₁)
    (htakes : OnlyTakes vm vm₁)
    (hremove : GivesBack mm.pgt E₂ vm₁ vm₂)
    (hedits : Edits (Creates vma.vmStart stop flags) (vma.hull stop) (entryAt vm.pte mm.pgt) E₁)
    (hedits' : Edits (Removes vma.vmStart stop) (vma.hull stop) E₁ E₂) :
    Resized vm mm vma stop flags vm₂ := by
  have hentry {va : Uint64} (hva : va ∈ vma.hull stop) := h.edits_moved hedits hedits' hva
  have hkept {va : Uint64} (hold : va ∈ vma.pages) (hnew : va ∈ vma.newPages stop) :
      entryAt vm₂.pte mm.pgt (vpn va) = reflag flags (entryAt vm.pte mm.pgt (vpn va)) := by
    have he := hentry (h.mem_hull.2 (.inl hold))
    rw [if_pos hnew, if_pos hold] at he
    rw [hremove.entries, he]
  have hmapped (va : Uint64) (hnew : va ∈ vma.newPages stop) :
      Permits flags (entryAt vm₂.pte mm.pgt (vpn va)) := by
    by_cases hold : va ∈ vma.pages
    · rw [hkept hold hnew]
      exact reflag_permits hflags (h.mapped hold).1
    · have he := hentry (h.mem_hull.2 (.inr hnew))
      rw [if_pos hnew, if_neg hold] at he
      rw [hremove.entries]
      exact he.permits
  have hdropped (va : Uint64) (hold : va ∈ vma.pages) (hnew : va ∉ vma.newPages stop) :
      entryAt vm₂.pte mm.pgt (vpn va) = 0 := by
    have he := hentry (h.mem_hull.2 (.inl hold))
    rw [if_neg hnew] at he
    rw [hremove.entries, he]
  have hothers (v : Vpn) (hcov : ¬ Covers (vma.hull stop) v) :
      entryAt vm₂.pte mm.pgt v = entryAt vm.pte mm.pgt v := by
    rw [hremove.entries, hedits'.other v hcov, hedits.other v hcov]
  have hbecomes := hcreate.trans hremove.toBecomes
  constructor
  case wf => exact h.moved_wf hflags hremove.good hmapped hdropped hothers
  case mapped => exact hmapped
  case kept =>
    intro va hold hnew
    obtain ⟨hvalid, huser⟩ := h.mapped hold
    rw [frameAt, hkept hold hnew, frameOf_reflag hflags.isFlags hvalid huser]
    rfl
  case dropped =>
    intro va hold hnew
    refine ⟨hdropped va hold hnew, fun p hp => ?_⟩
    -- its frame was still there after the first loop
    have hframe : frameAt vm₁.pte mm.pgt (vpn va) = some p := by
      have he := h.creates (h.mem_hull.2 (.inl hold)) (hedits.page va (h.mem_hull.2 (.inl hold)))
      rw [if_neg hnew] at he
      rw [frameAt, hcreate.entries, he]
      exact hp
    have hzero : E₂ (vpn va) = 0 := by rw [← hremove.entries, hdropped va hold hnew]
    rcases hremove.frames (vpn va) with hsame | ⟨-, hfreed⟩
    · rw [hzero, hframe, frameOf_zero] at hsame
      exact absurd hsame (by simp)
    · exact hfreed p hframe
  case others =>
    intro v hold hnew
    refine hothers v ?_
    rintro ⟨va, hva, rfl⟩
    rcases h.mem_hull.1 hva with hva | hva
    · exact hold ⟨va, hva, rfl⟩
    · exact hnew ⟨va, hva, rfl⟩
  case contents =>
    intro v a hv hv'
    exact contents_kept h.wf.good htakes hremove (.inr ⟨v, hv⟩) (.inr ⟨v, hv'⟩)
  case evolves => exact hbecomes.evolves
  case pools => exact hbecomes.pools

/-- Everything was undone. -/
theorem unresized (hcreate : Becomes mm.pgt E₁ vm vm₁) (htakes : OnlyTakes vm vm₁)
    (hrestore : GivesBack mm.pgt E₂ vm₁ vm₂)
    (hpart : PartEdits (Creates vma.vmStart stop flags) (vma.hull stop) (entryAt vm.pte mm.pgt) E₁)
    (hedits : Edits (Restores vma) (vma.hull stop) E₁ E₂) : Unresized vm mm vma vm₂ := by
  have hflags := h.wf.flags vma h.mem
  have hentry (v : Vpn) : entryAt vm₂.pte mm.pgt v =
      if Covers vma.pages v then reflag vma.pteFlags (entryAt vm.pte mm.pgt v)
        else entryAt vm.pte mm.pgt v := by
    rw [hrestore.entries, h.edits_restored hpart hedits]
  have hpage {va : Uint64} (hva : va ∈ vma.pages) : entryAt vm₂.pte mm.pgt (vpn va) =
      reflag vma.pteFlags (entryAt vm.pte mm.pgt (vpn va)) := by rw [hentry, if_pos ⟨va, hva, rfl⟩]
  have hother (v : Vpn) (hcov : ¬ Covers vma.pages v) :
      entryAt vm₂.pte mm.pgt v = entryAt vm.pte mm.pgt v := by
    rw [hentry, if_neg hcov]
  have hframes : frameAt vm₂.pte mm.pgt = frameAt vm.pte mm.pgt := by
    funext v
    by_cases hcov : Covers vma.pages v
    · obtain ⟨va, hva, rfl⟩ := hcov
      obtain ⟨hvalid, huser⟩ := h.mapped hva
      rw [frameAt, hpage hva, frameOf_reflag hflags.isFlags hvalid huser]
      rfl
    · rw [frameAt, hother v hcov]
      rfl
  have hbecomes := hcreate.trans hrestore.toBecomes
  have hpermits {va : Uint64} (hva : va ∈ vma.pages) :
      Permits vma.pteFlags (entryAt vm₂.pte mm.pgt (vpn va)) := by
    rw [hpage hva]
    exact reflag_permits hflags (h.mapped hva).1
  constructor
  case wf =>
    refine ⟨⟨hrestore.good, h.wf.range, fun v hvalid huser => ?_, ?_⟩, h.wf.flags,
      fun w hw va hva => ?_, h.wf.disjoint⟩
    · by_cases hcov : Covers vma.pages v
      · obtain ⟨va, hva, rfl⟩ := hcov
        have hframe := (hpermits hva).frame hflags
        rw [frameOf, if_neg fun hc => hc.2 huser] at hframe
        exact absurd hframe (by simp)
      · rw [hother v hcov] at hvalid huser
        exact h.wf.kernel v hvalid huser
    · rw [hframes]
      exact h.wf.covered
    · by_cases haddr : w.addr = vma.addr
      · obtain rfl := h.eq_of_addr hw haddr
        exact hpermits hva
      · rw [hother]
        · exact h.wf.mapped w hw va hva
        · rintro ⟨va', hva', heq⟩
          exact h.other_page hw haddr hva ⟨va', h.mem_hull.2 (.inl hva'), heq⟩
  case frames => exact hframes
  case perms =>
    intro va hva
    rw [(hpermits hva).2, (h.wf.mapped vma h.mem va hva).2]
  case others => exact hother
  case entries =>
    intro va hva hsub
    have hperm := (h.wf.mapped vma h.mem va hva).2
    have hrwx : entryAt vm.pte mm.pgt (vpn va) &&& PTE_RWX = vma.pteFlags &&& PTE_RWX := by
      have hmask : PTE_RWX = PERM &&& PTE_RWX := by decide
      rw [hmask, ← BitVec.and_assoc, ← BitVec.and_assoc, hperm]
    rw [hpage hva, reflag_self hsub hrwx]
  case contents =>
    intro v a hv
    exact contents_kept h.wf.good htakes hrestore (.inr ⟨v, hv⟩)
      (.inr ⟨v, by rw [hframes]; exact hv⟩)
  case free =>
    intro p hp
    rcases (hbecomes.evolves.pages p).2 (.inl hp) with hfree | htable | ⟨v, hv⟩
    · exact .inl hfree
    · exact .inr htable
    · rw [hframes] at hv
      exact absurd hp (h.wf.good.owned p (.inr ⟨v, hv⟩)).1
  case evolves => exact hbecomes.evolves
  case pools => exact hbecomes.pools

end Resize

/-- **`mm_remap` moves the end of a vma, or changes nothing**: it neither panics nor finds a
mapping missing, unless the assertion on the new flags fails. -/
theorem mmRemap_ends (h : Resize vm mm vma stop flags) :
    EndsUnless (flags &&& PTE_RWX = 0) (mmRemap mm vma vma.vmStart stop flags) vm
      (ResizeEnds vm mm vma stop flags) := by
  refine .bind_of_eq (kassert_true
    (by rw [PGALIGNED_iff.2 h.start, PGALIGNED_iff.2 h.page]; rfl)) ?_
  by_cases hrwx : flags &&& PTE_RWX = 0
  · refine .fail hrwx ?_
    rw [hrwx]
    rfl
  refine .bind_of_eq (kassert_true (bne_iff_ne.2 hrwx)) ?_
  rw [h.check_passes]
  refine .ite (fun hno => absurd hno (by simp)) fun _ => ?_
  have hmin : MIN vma.vmStart vma.vmStart = vma.vmStart := ite_self _
  rw [hmin]
  have hflags := userFlags_of_agree (h.wf.flags vma h.mem) h.flags hrwx
  have hnodup : (vma.hull stop).Nodup := nodup_pagesBetween _ _
  have hcreate := (@mmRemapCreate_ends _ _ vma.vmStart stop _ _ h.wf.good h.userHull hnodup hflags
    fun va hva hin => h.wf.user h.newRange (not_not.1 (mt (h.outside_iff hva).2 hin))).and_keeps
      (mmRemapCreate_onlyTakes mm _ _ _ _)
  refine (Ends.bind hcreate fun r vm₁ ⟨⟨E₁, hbecomes, hr⟩, htakes⟩ => ?_).unless _
  rcases hr with ⟨rfl, hedits⟩ | ⟨rfl, hpart⟩
  · -- the pages that leave the range were mapped and are so still
    have hremove := @mmRemapRemove_ends _ _ vma.vmStart stop _ hbecomes.good h.userHull hnodup
      fun va hva hout => by
        have hnew := (h.outside_iff hva).1 hout
        have he := h.creates hva (hedits.page va hva)
        rw [if_neg hnew] at he
        rw [hbecomes.entries, he]
        exact h.mapped ((h.mem_hull.1 hva).resolve_right hnew)
    refine .ite (fun _ => ?_) fun hno => absurd rfl hno
    refine .bind hremove fun r vm₂ ⟨hr, E₂, hgives, hedits'⟩ => ?_
    subst hr
    rw [hbecomes.entries] at hedits'
    exact .pure (.resized (h.resized hflags hbecomes htakes hgives hedits hedits'))
  · refine .ite (fun hno => absurd hno (by simp)) fun _ => ?_
    have hedit {va : Uint64} (hva : va ∈ vma.hull stop) := h.partEdits hpart hva
    have hrestore :=
      @mmRemapRestore_ends _ _ vma _ hbecomes.good h.userHull hnodup (h.wf.flags vma h.mem)
        (fun va hva hvalid => ?_) fun va hva hin => ?_
    · refine .bind hrestore fun _ vm₂ ⟨E₂, hgives, hedits⟩ => ?_
      rw [hbecomes.entries] at hedits
      exact .pure (.unresized (h.unresized hbecomes htakes hgives hpart hedits))
    · have he := hedit hva
      rw [hbecomes.entries] at hvalid ⊢
      by_cases hold : va ∈ vma.pages
      · rw [if_pos hold] at he
        obtain ⟨-, huser⟩ := h.mapped hold
        rcases he with hsame | hchanged
        · rw [hsame]
          exact huser
        · rw [hchanged]
          exact reflag_and_ne_zero (by decide) huser
      · rw [if_neg hold] at he
        rcases he with hzero | hmap
        · rw [hzero] at hvalid
          exact absurd zero_and_V hvalid
        · obtain ⟨p, -, heq⟩ := hmap
          rw [heq, entry_and isFlags_U (by decide)]
          exact hflags.user
    · have hold := not_not.1 (mt (h.dropped_iff hva).2 hin)
      have he := hedit hva
      rw [if_pos hold] at he
      rw [hbecomes.entries]
      obtain ⟨hvalid, -⟩ := h.mapped hold
      rcases he with hsame | hchanged
      · rw [hsame]
        exact hvalid
      · rw [hchanged]
        exact reflag_and_ne_zero (by decide) hvalid

/-- An address space with one page may grow by two. -/
theorem onePage_resize {vm₀ : Vm} (hfree : FreeOk vm₀)
    (h : mmWith ⟨7, 0x1000, 0x2000, PTE_R ||| PTE_W ||| PTE_U⟩ vm₀ = some (some mm, vm)) :
    Resize vm mm ⟨7, 0x1000, 0x2000, PTE_R ||| PTE_W ||| PTE_U⟩ 0x4000 (PTE_R ||| PTE_U) := by
  obtain ⟨hwf, hvma⟩ := mmWith_wf hfree ⟨by decide, by decide, by decide, by decide⟩
    ⟨by decide, by decide, by decide⟩ h
  refine ⟨hwf, ?_, ?_, by decide, by decide, by decide, ?_, by decide⟩
  · rw [hvma]
    exact List.mem_singleton_self _
  · rw [hvma]
    exact List.nodup_singleton _
  · intro w hw hne
    rw [hvma, List.mem_singleton] at hw
    exact absurd (hw ▸ rfl) hne

/-- A call with this result in an address space with one page, which is made with `n` free
pages. -/
def GrowsTo (n : Nat) (ret : Int) (vm : Vm) (mm : Mm) (mm' : Mm) (vm' : Vm) : Prop :=
  mmWith ⟨7, 0x1000, 0x2000, PTE_R ||| PTE_W ||| PTE_U⟩ (fewPages n) = some (some mm, vm) ∧
    mmRemap mm ⟨7, 0x1000, 0x2000, PTE_R ||| PTE_W ||| PTE_U⟩ 0x1000 0x4000 (PTE_R ||| PTE_U) vm =
      some ((ret, mm'), vm')

theorem exists_growsTo {n : Nat} {ret : Int}
    (h : ((mmWith ⟨7, 0x1000, 0x2000, PTE_R ||| PTE_W ||| PTE_U⟩ (fewPages n)).bind fun r =>
      r.1.bind fun mm => (mmRemap mm ⟨7, 0x1000, 0x2000, PTE_R ||| PTE_W ||| PTE_U⟩ 0x1000 0x4000
        (PTE_R ||| PTE_U) r.2).map fun o => o.1.1) = some ret) :
    ∃ vm mm mm' vm', GrowsTo n ret vm mm mm' vm' := by
  obtain ⟨⟨r, vm⟩, hrun, h⟩ := Option.bind_eq_some_iff.1 h
  obtain ⟨mm, rfl, h⟩ := Option.bind_eq_some_iff.1 h
  obtain ⟨⟨⟨ret, mm'⟩, vm'⟩, hremap, rfl⟩ := Option.map_eq_some_iff.1 h
  exact ⟨vm, mm, mm', vm', hrun, hremap⟩

/-- A vma of one page grows by two, and it does not where only one page is free. -/
theorem mmRemap_ends_grow :
    (∃ vm mm mm' vm', GrowsTo 32 0 vm mm mm' vm' ∧
      Resized vm mm ⟨7, 0x1000, 0x2000, PTE_R ||| PTE_W ||| PTE_U⟩ 0x4000 (PTE_R ||| PTE_U) vm') ∧
    ∃ vm mm mm' vm', GrowsTo 7 (-ENOMEM) vm mm mm' vm' ∧
      Unresized vm mm ⟨7, 0x1000, 0x2000, PTE_R ||| PTE_W ||| PTE_U⟩ vm' := by
  constructor
  · obtain ⟨vm, mm, mm', vm', hgrows⟩ := @exists_growsTo 32 0 (by decide +kernel)
    refine ⟨vm, mm, mm', vm', hgrows, ?_⟩
    cases (mmRemap_ends (onePage_resize (freeOk_fewPages 32) hgrows.1)).elim hgrows.2 with
    | resized h => exact h
  · obtain ⟨vm, mm, mm', vm', hgrows⟩ := @exists_growsTo 7 (-ENOMEM) (by decide +kernel)
    refine ⟨vm, mm, mm', vm', hgrows, ?_⟩
    cases (mmRemap_ends (onePage_resize (freeOk_fewPages 7) hgrows.1)).elim hgrows.2 with
    | unresized h => exact h

end SignalOS
