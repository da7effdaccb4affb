import SignalOS.Vm.Mapping

/-!
# The vmas of an address space

The state in which the functions of `vm.c` keep an address space, and how a vma gets
into it and out of it.

* `Tidy` — a tree in good order whose user pages all lie in a vma; **what it takes to
  free it**.
* `MmWf` — moreover all pages of the vmas are mapped, and no two vmas share a page.
* `MapEnds`, `mmMappages_ends` — **`mm_mappages` maps all pages of a vma or none**.
* `mmFreeVmas_ends` — no user page is left.
-/

namespace SignalOS

open Partial

/-! ## Vmas -/

def Vma.pages (vma : Vma) : List Uint64 := pagesBetween vma.vmStart vma.vmEnd

/-- A vma consists of pages below the trapframe. -/
structure Vma.InRange (vma : Vma) : Prop where
  start : PageStart vma.vmStart
  stop : PageStart vma.vmEnd
  high : vma.vmStart ≤ MAXVA
  low : vma.vmEnd ≤ TRAPFRAME

theorem Vma.InRange.stop_le {vma : Vma} (h : vma.InRange) : vma.vmEnd ≤ MAXVA := by
  have hlow := h.low
  rw [BitVec.le_def] at hlow ⊢
  exact hlow.trans (by decide)

/-- The page of an address of the vma. -/
theorem Vma.InRange.page_mem {vma : Vma} (h : vma.InRange) {va : Uint64}
    (hstart : vma.vmStart ≤ va)
    (hstop : va < vma.vmEnd) : PGROUNDDOWN va ∈ vma.pages := by
  have hpage := h.start
  rw [PageStart] at hpage
  refine (mem_pagesBetween h.start).2 ⟨pageStart_PGROUNDDOWN va, ?_, ?_⟩
  · rw [BitVec.le_def] at hstart ⊢
    rw [toNat_PGROUNDDOWN]
    omega
  · have hle := PGROUNDDOWN_le va
    rw [BitVec.le_def] at hle
    rw [BitVec.lt_def] at hstop ⊢
    omega

theorem Vma.InRange.userPages {vma : Vma} (h : vma.InRange) : UserPages vma.pages :=
  userPages_pagesBetween h.start h.stop_le

theorem pageStart_TRAPFRAME : PageStart TRAPFRAME := rfl
theorem pageStart_TRAMPOLINE : PageStart TRAMPOLINE := rfl

/-- The pages that the kernel maps for itself in every address space. -/
def KernelPage (v : Vpn) : Prop := v = vpn TRAPFRAME ∨ v = vpn TRAMPOLINE

instance (v : Vpn) : Decidable (KernelPage v) := inferInstanceAs (Decidable (_ ∨ _))

theorem vpn_ne_of_lt {va top : Uint64} (hva : PageStart va) (htop : PageStart top)
    (hmax : top ≤ MAXVA)
    (hlt : va < top) : vpn va ≠ vpn top := by
  intro heq
  have hle : va ≤ MAXVA := by
    rw [BitVec.le_def] at hmax ⊢
    rw [BitVec.lt_def] at hlt
    omega
  obtain rfl := vpn_inj (decide_eq_true hle) (decide_eq_true hmax) hva htop heq
  rw [BitVec.lt_def] at hlt
  omega

/-- A vma has none of them. -/
theorem Vma.InRange.not_kernelPage {vma : Vma} (h : vma.InRange) {va : Uint64}
    (hva : va ∈ vma.pages) :
    ¬ KernelPage (vpn va) := by
  obtain ⟨hpage, -, hlt⟩ := (mem_pagesBetween h.start).1 hva
  have hlow := h.low
  rw [BitVec.le_def] at hlow
  rw [BitVec.lt_def] at hlt
  rintro (heq | heq)
  · refine vpn_ne_of_lt hpage pageStart_TRAPFRAME (by decide) ?_ heq
    rw [BitVec.lt_def]
    omega
  · refine vpn_ne_of_lt hpage pageStart_TRAMPOLINE (by decide) ?_ heq
    have htop : TRAPFRAME.toNat < TRAMPOLINE.toNat := by decide
    rw [BitVec.lt_def]
    omega

/-! ## Address spaces in good order -/

/-- What it takes to free an address space. -/
structure Tidy (vm : Vm) (mm : Mm) : Prop where
  good : Good vm mm.pgt
  range : ∀ vma ∈ mm.vma, vma.InRange
  /-- Only the kernel's pages are not for the user. -/
  kernel : ∀ v, entryAt vm.pte mm.pgt v &&& PTE_V ≠ 0 → entryAt vm.pte mm.pgt v &&& PTE_U = 0 →
    KernelPage v
  covered : ∀ v p, frameAt vm.pte mm.pgt v = some p → ∃ vma ∈ mm.vma, Covers vma.pages v

/-- The flags that say what the user may do with a page. -/
def PERM : Uint64 := PTE_RWX ||| PTE_U

theorem isFlags_PERM : IsFlags PERM := by decide

/-- A page is mapped with the permissions of these flags. -/
def Permits (flags e : Uint64) : Prop := e &&& PTE_V ≠ 0 ∧ e &&& PERM = flags &&& PERM

/-- **An address space in good order**: all pages of its vmas are mapped, and no two share a
page. -/
structure MmWf (vm : Vm) (mm : Mm) : Prop extends Tidy vm mm where
  flags : ∀ vma ∈ mm.vma, UserFlags vma.pteFlags
  mapped : ∀ vma ∈ mm.vma, ∀ va ∈ vma.pages, Permits vma.pteFlags (entryAt vm.pte mm.pgt (vpn va))
  disjoint : mm.vma.Pairwise fun a b => ∀ va ∈ a.pages, va ∉ b.pages

variable {vm vm' : Vm} {mm : Mm} {vma : Vma}

/-- A valid entry in a vma's range is one of the user. -/
theorem Tidy.user (h : Tidy vm mm) (hrange : vma.InRange) {va : Uint64} (hva : va ∈ vma.pages)
    (hvalid : entryAt vm.pte mm.pgt (vpn va) &&& PTE_V ≠ 0) :
    entryAt vm.pte mm.pgt (vpn va) &&& PTE_U ≠ 0 := fun hzero =>
  hrange.not_kernelPage hva (h.kernel _ hvalid hzero)

theorem Tidy.of_entries (h : Tidy vm mm) (hgood : Good vm' mm.pgt)
    (hentries : entryAt vm'.pte mm.pgt = entryAt vm.pte mm.pgt) : Tidy vm' mm := by
  refine ⟨hgood, h.range, ?_, fun v p => ?_⟩
  · rw [hentries]
    exact h.kernel
  · rw [frameAt, hentries]
    exact h.covered v p

/-- The order of an address space depends on its entries and on the tree. -/
theorem MmWf.of_entries (h : MmWf vm mm) (hgood : Good vm' mm.pgt)
    (hentries : entryAt vm'.pte mm.pgt = entryAt vm.pte mm.pgt) : MmWf vm' mm := by
  refine ⟨h.toTidy.of_entries hgood hentries, h.flags, ?_, h.disjoint⟩
  rw [hentries]
  exact h.mapped

/-! ## Freeing a vma's pages -/

theorem unmapped_eq_or (entries : Vpn → Uint64) (pages : List Uint64) (v : Vpn) :
    unmapped entries pages v = 0 ∨ unmapped entries pages v = entries v := by
  rw [unmapped]
  split
  · exact .inl rfl
  · exact .inr rfl

theorem unmapped_append (entries : Vpn → Uint64) (pages pages' : List Uint64) :
    unmapped (unmapped entries pages) pages' = unmapped entries (pages ++ pages') := by
  funext v
  have happ : Covers (pages ++ pages') v ↔ Covers pages v ∨ Covers pages' v := by
    simp only [Covers, List.mem_append, or_and_right, exists_or]
  by_cases hcov : Covers pages v
  · have hleft := @unmapped_not_valid entries _ _ hcov
    by_cases hvalid : entries v &&& PTE_V = 0
    · simp only [unmapped, happ, hcov, hvalid, ne_eq, not_true_eq_false, and_false, if_false]
    · have hright : unmapped entries (pages ++ pages') v = 0 := if_pos ⟨happ.2 (.inl hcov), hvalid⟩
      have hzero : unmapped entries pages v = 0 := if_pos ⟨hcov, hvalid⟩
      rw [hright, unmapped, hzero, if_neg fun hc => hc.2 zero_and_V]
  · have hsame := @unmapped_of_not_covers entries _ _ hcov
    rw [unmapped, hsame]
    simp only [unmapped, happ, hcov, false_or]

/-- Unmapping pages leaves an address space tidy. -/
theorem Tidy.of_unmapped {pages : List Uint64} (h : Tidy vm mm)
    (hchanges : Changes mm.pgt (unmapped (entryAt vm.pte mm.pgt) pages) vm vm') : Tidy vm' mm := by
  have hentry (v : Vpn) := unmapped_eq_or (entryAt vm.pte mm.pgt) pages v
  refine ⟨hchanges.good, h.range, fun v hvalid huser => ?_, fun v p hv => ?_⟩
  · rw [hchanges.entries] at hvalid huser
    rcases hentry v with hzero | hsame
    · rw [hzero] at hvalid
      exact absurd zero_and_V hvalid
    · rw [hsame] at hvalid huser
      exact h.kernel v hvalid huser
  · rw [frameAt, hchanges.entries] at hv
    rcases hentry v with hzero | hsame
    · rw [hzero] at hv
      exact absurd (hv.symm.trans frameOf_zero) (by simp)
    · rw [hsame] at hv
      exact h.covered v p hv

theorem Tidy.freevma_ends (h : Tidy vm mm) (hrange : vma.InRange) :
    Ends (freevma mm vma true) vm fun _ vm' =>
      Becomes mm.pgt (unmapped (entryAt vm.pte mm.pgt) vma.pages) vm vm' := by
  exact SignalOS.freevma_ends h.good hrange.start hrange.stop hrange.stop_le fun va hva =>
    h.user hrange hva

/-! ## The object pools -/

/-- A pool after `kfree`. -/
def pushObj (obj : Uint64) (pool : List Uint64) : List Uint64 :=
  if obj = 0 then pool else obj :: pool

/-- Only the pools differ. -/
structure SameMemory (vm vm' : Vm) : Prop where
  pte : vm'.pte = vm.pte
  byte : vm'.byte = vm.byte
  freelist : vm'.freelist = vm.freelist
  static : Static vm vm'

theorem SameMemory.owns {pgt p : Uint64} (h : SameMemory vm vm') :
    Owns vm' pgt p ↔ Owns vm pgt p := by
  rw [Owns, Owns, h.pte]

theorem SameMemory.freeOk (h : SameMemory vm vm') (hfree : FreeOk vm) : FreeOk vm' :=
  ⟨h.freelist ▸ hfree.nodup, fun p hp => h.static.manages (hfree.managed p (h.freelist ▸ hp))⟩

theorem SameMemory.evolves (h : SameMemory vm vm') (own : Uint64 → Prop) :
    Evolves own own vm vm' :=
  ⟨fun _ _ _ => by rw [h.pte], fun _ _ _ => by rw [h.byte], fun _ => by rw [h.freelist], h.static⟩

theorem SameMemory.changes {pgt : Uint64} (h : SameMemory vm vm') (hgood : Good vm pgt) :
    Changes pgt (entryAt vm.pte pgt) vm vm' := by
  refine ⟨hgood.of_same h.pte h.freelist fun _ => h.static.manages, ?_, by rw [h.pte],
    fun x t ht => ?_, fun hpointers => ?_⟩
  · exact (h.evolves _).congr (fun _ => Iff.rfl) fun _ => h.owns
  · rw [h.pte]
    exact ht
  · rw [h.pte]
    exact hpointers

theorem kfreeVma_ends (obj : Uint64) (vm : Vm) :
    Ends (kfreeVma obj) vm fun _ vm' => SameMemory vm vm' ∧ vm'.mmAllocator = vm.mmAllocator ∧
      vm'.vmaAllocator = pushObj obj vm.vmaAllocator := by
  refine .of_eq rfl ?_
  by_cases hobj : obj = 0
  · rw [if_pos hobj, pushObj, if_pos hobj]
    exact ⟨⟨rfl, rfl, rfl, Static.refl vm⟩, rfl, rfl⟩
  · rw [if_neg hobj, pushObj, if_neg hobj]
    exact ⟨⟨rfl, rfl, rfl, ⟨rfl, rfl, rfl, rfl⟩⟩, rfl, rfl⟩

/-! ## `mm_mappages` -/

/-- How `mm_mappages` may end. -/
inductive MapEnds (vm : Vm) (mm : Mm) (vma : Vma) : Int × Mm → Vm → Prop where
  | mapped {vm' : Vm} {E' : Vpn → Uint64} (becomes : Becomes mm.pgt E' vm vm')
      (maps : Maps vma.pteFlags vma.pages (entryAt vm.pte mm.pgt) E') (takes : OnlyTakes vm vm') :
      MapEnds vm mm vma (0, { mm with vma := vma :: mm.vma }) vm'
  /-- The vma is not given back. -/
  | overlap (h : vmaCheckOverlap mm vma.vmStart vma.vmEnd vma.addr = true) :
      MapEnds vm mm vma (-EINVAL, mm) vm
  | failed {r : Int} {vm' : Vm} (neg : r < 0)
      (changes : Changes mm.pgt (unmapped (entryAt vm.pte mm.pgt) vma.pages) vm vm')
      (mms : vm'.mmAllocator = vm.mmAllocator) (vmas : vm'.vmaAllocator =
      pushObj vma.addr vm.vmaAllocator) :
      MapEnds vm mm vma (r, mm) vm'

theorem kassert_true {c : Bool} (h : c = true) : kassert c vm = some ((), vm) := by
  rw [kassert, if_pos h]
  rfl

/-- `mm_mappages` of a range in which only user pages are mapped. -/
theorem mmMappages_good (h : Good vm mm.pgt) (hstart : PageStart vma.vmStart)
    (hstop : PageStart vma.vmEnd)
    (hhigh : vma.vmStart ≤ MAXVA) (hend : vma.vmEnd ≤ MAXVA) (hflags : UserFlags vma.pteFlags)
    (hmapped : ∀ va ∈ vma.pages, entryAt vm.pte mm.pgt (vpn va) &&& PTE_V ≠ 0 →
      entryAt vm.pte mm.pgt (vpn va) &&& PTE_U ≠ 0) :
    Ends (mmMappages mm vma) vm (MapEnds vm mm vma) := by
  refine .bind_of_eq (kassert_true (by simp [IS_USER_VA, hhigh, hend])) ?_
  refine .bind_of_eq (kassert_true (by rw [PGALIGNED_iff.2 hstart, PGALIGNED_iff.2 hstop]; rfl)) ?_
  refine .bind_of_eq (kassert_true (bne_iff_ne.2 hflags.rwx)) ?_
  refine .ite (fun hoverlap => .pure (.overlap hoverlap)) fun _ => ?_
  have hloop :=
    (mmMappagesLoop_ends h (nodup_pagesBetween _ _) (userPages_pagesBetween hstart hend)
      hflags).and_keeps
      (mmMappagesLoop_onlyTakes mm vma _)
  refine .bind hloop fun r vm₁ ⟨⟨E', hbecomes, hr⟩, htakes⟩ => ?_
  rcases hr with ⟨rfl, hmaps⟩ | ⟨hneg, hpart⟩
  · refine .ite (fun hlt => absurd hlt (by decide)) fun _ => ?_
    exact .pure (.mapped hbecomes hmaps htakes)
  · refine .ite (fun _ => ?_) fun hle => absurd hneg hle
    -- the new frames are given back, and with them nothing else
    have huser : ∀ va ∈ pagesBetween vma.vmStart vma.vmEnd,
        entryAt vm₁.pte mm.pgt (vpn va) &&& PTE_V ≠ 0 → entryAt vm₁.pte mm.pgt (vpn va) &&&
          PTE_U ≠ 0 := by
      intro va hva
      rw [hbecomes.entries]
      rcases hpart (vpn va) with hsame | ⟨-, -, p, -, he⟩
      · rw [hsame]
        exact hmapped va hva
      · intro _
        rw [he, entry_and isFlags_U (by decide)]
        exact hflags.user
    refine .bind (freevma_ends hbecomes.good hstart hstop hend huser) fun _ vm₂ hfreed => ?_
    rw [hbecomes.entries, hpart.unmapped_eq] at hfreed
    refine .bind (kfreeVma_ends vma.addr vm₂) fun _ vm₃ ⟨hsame, hmms, hvmas⟩ => ?_
    have hchanges :=
      (Becomes.trans hbecomes hfreed).toChanges.trans (hfreed.entries ▸ hsame.changes hfreed.good)
    refine .pure (.failed hneg hchanges ?_ ?_)
    · rw [hmms, hfreed.pools.mm, hbecomes.pools.mm]
    · rw [hvmas, hfreed.pools.vma, hbecomes.pools.vma]

/-- **`mm_mappages` maps all pages of a vma or none.** -/
theorem mmMappages_ends (h : Tidy vm mm) (hrange : vma.InRange) (hflags : UserFlags vma.pteFlags) :
    Ends (mmMappages mm vma) vm (MapEnds vm mm vma) :=
  mmMappages_good h.good hrange.start hrange.stop hrange.high hrange.stop_le hflags fun _ hva =>
    h.user hrange hva

/-- The address space with the new vma is tidy. -/
theorem Tidy.cons {E' : Vpn → Uint64} (h : Tidy vm mm) (hrange : vma.InRange)
    (hflags : UserFlags vma.pteFlags)
    (hbecomes : Becomes mm.pgt E' vm vm') (hmaps : Maps vma.pteFlags vma.pages
    (entryAt vm.pte mm.pgt) E') :
    Tidy vm' { mm with vma := vma :: mm.vma } := by
  refine ⟨hbecomes.good, fun w hw => ?_, fun v hvalid huser => ?_, fun v p hv => ?_⟩
  · rcases List.mem_cons.1 hw with rfl | hw
    · exact hrange
    · exact h.range w hw
  · rw [hbecomes.entries] at hvalid huser
    by_cases hcov : Covers vma.pages v
    · obtain ⟨-, p, -, he⟩ := hmaps.new v hcov
      rw [he, entry_and isFlags_U (by decide)] at huser
      exact absurd huser hflags.user
    · rw [hmaps.old v hcov] at hvalid huser
      exact h.kernel v hvalid huser
  · by_cases hcov : Covers vma.pages v
    · exact ⟨vma, List.mem_cons_self, hcov⟩
    · rw [frameAt, hbecomes.entries, hmaps.old v hcov] at hv
      obtain ⟨w, hw, hvw⟩ := h.covered v p hv
      exact ⟨w, List.mem_cons_of_mem _ hw, hvw⟩

theorem IsMapping.permits {flags e : Uint64} (h : IsMapping flags e) : Permits flags e := by
  obtain ⟨p, hp, rfl⟩ := h
  exact ⟨or_V_ne_zero _, entry_and isFlags_PERM (by decide)⟩

/-- A page with a vma's permissions has a frame. -/
theorem Permits.frame {flags e : Uint64} (h : Permits flags e) (hflags : UserFlags flags) :
    frameOf e = some (PTE2PA e) := by
  refine frameOf_of_user h.1 ?_
  have hU : PTE_U = PERM &&& PTE_U := by decide
  have hsame : e &&& PTE_U = flags &&& PTE_U := by
    rw [hU, ← BitVec.and_assoc, h.2, BitVec.and_assoc]
  rw [hsame]
  exact hflags.user

/-- **A vma that was mapped** leaves the address space in good order. -/
theorem MmWf.cons {E' : Vpn → Uint64} (h : MmWf vm mm) (hrange : vma.InRange)
    (hflags : UserFlags vma.pteFlags)
    (hbecomes : Becomes mm.pgt E' vm vm') (hmaps : Maps vma.pteFlags vma.pages
    (entryAt vm.pte mm.pgt) E') :
    MmWf vm' { mm with vma := vma :: mm.vma } := by
  -- a page that was mapped before is not one of the new pages
  have hold {w : Vma} (hw : w ∈ mm.vma) {va : Uint64} (hva : va ∈ w.pages) :
      ¬ Covers vma.pages (vpn va) := by
    intro hcov
    have hvalid := (h.mapped w hw va hva).1
    rw [(hmaps.new _ hcov).1] at hvalid
    exact hvalid zero_and_V
  refine ⟨h.toTidy.cons hrange hflags hbecomes hmaps, fun w hw => ?_, fun w hw va hva => ?_, ?_⟩
  · rcases List.mem_cons.1 hw with rfl | hw
    · exact hflags
    · exact h.flags w hw
  · show Permits w.pteFlags (entryAt vm'.pte mm.pgt (vpn va))
    rw [hbecomes.entries]
    rcases List.mem_cons.1 hw with rfl | hw
    · exact (hmaps.new _ ⟨va, hva, rfl⟩).2.permits
    · rw [hmaps.old _ (hold hw hva)]
      exact h.mapped w hw va hva
  · exact List.pairwise_cons.2 ⟨fun w hw va hva hin => hold hw hin ⟨va, hva, rfl⟩, h.disjoint⟩

/-! ## `mm_free_vmas` -/

/-- The pages of a list of vmas. -/
def pagesOf (vmas : List Vma) : List Uint64 := vmas.flatMap Vma.pages

theorem covers_pagesOf {vmas : List Vma} {v : Vpn} :
    Covers (pagesOf vmas) v ↔ ∃ vma ∈ vmas, Covers vma.pages v := by
  simp only [Covers, pagesOf, List.mem_flatMap]
  constructor
  · rintro ⟨va, ⟨vma, hvma, hva⟩, hv⟩
    exact ⟨vma, hvma, va, hva, hv⟩
  · rintro ⟨vma, hvma, va, hva, hv⟩
    exact ⟨va, ⟨vma, hvma, hva⟩, hv⟩

/-- A pool after the objects of these vmas came back. -/
def pushVmas (vmas : List Vma) (pool : List Uint64) : List Uint64 :=
  vmas.foldl (fun pool vma => pushObj vma.addr pool) pool

theorem pushVmas_concat (vmas : List Vma) (vma : Vma) (pool : List Uint64) :
    pushVmas (vmas ++ [vma]) pool = pushObj vma.addr (pushVmas vmas pool) := by
  simp only [pushVmas, List.foldl_append, List.foldl_cons, List.foldl_nil]

/-- **`mm_free_vmas` clears the entries of all vmas** and gives their objects back. -/
theorem mmFreeVmas_ends (h : Tidy vm mm) :
    Ends (mmFreeVmas mm) vm fun mm' vm' => mm' = { mm with vma := [] } ∧
      Changes mm.pgt (unmapped (entryAt vm.pte mm.pgt) (pagesOf mm.vma)) vm vm' ∧
      vm'.mmAllocator = vm.mmAllocator ∧ vm'.vmaAllocator = pushVmas mm.vma vm.vmaAllocator := by
  have hloop : Ends (mm.vma.forM fun vma => do
      freevma mm vma true
      kfreeVma vma.addr) vm fun _ vm' =>
        Changes mm.pgt (unmapped (entryAt vm.pte mm.pgt) (pagesOf mm.vma)) vm vm' ∧
        vm'.mmAllocator = vm.mmAllocator ∧ vm'.vmaAllocator = pushVmas mm.vma vm.vmaAllocator := by
    refine .forM (fun done vm' =>
      Changes mm.pgt (unmapped (entryAt vm.pte mm.pgt) (pagesOf done)) vm vm' ∧
      vm'.mmAllocator = vm.mmAllocator ∧ vm'.vmaAllocator = pushVmas done vm.vmaAllocator) ?_ ?_
    · refine ⟨?_, rfl, rfl⟩
      rw [pagesOf, List.flatMap_nil, unmapped_nil]
      exact (Grown.refl h.good).toChanges
    · intro done vma rest vm₁ hlist ⟨hdone, hmms, hvmas⟩
      have hmem : vma ∈ mm.vma := by rw [hlist]; simp
      refine .bind ((h.of_unmapped hdone).freevma_ends (h.range vma hmem)) fun _ vm₂ hfreed => ?_
      refine (kfreeVma_ends vma.addr vm₂).mono fun _ vm₃ ⟨hsame, hmms', hvmas'⟩ => ⟨?_, ?_, ?_⟩
      · have hchanges :=
          (hdone.trans hfreed.toChanges).trans (hfreed.entries ▸ hsame.changes hfreed.good)
        rw [hdone.entries, unmapped_append] at hchanges
        rw [pagesOf, List.flatMap_append, List.flatMap_singleton]
        exact hchanges
      · rw [hmms', hfreed.pools.mm, hmms]
      · rw [hvmas', hfreed.pools.vma, hvmas, pushVmas_concat]
  exact .bind hloop fun _ vm' hpost => .pure ⟨rfl, hpost⟩

/-- Then no user page is left. -/
theorem Tidy.no_frames (h : Tidy vm mm)
    (hchanges : Changes mm.pgt (unmapped (entryAt vm.pte mm.pgt) (pagesOf mm.vma)) vm vm')
    (v : Vpn) :
    frameAt vm'.pte mm.pgt v = none := by
  rw [frameAt, hchanges.entries]
  by_cases hcov : Covers (pagesOf mm.vma) v
  · have hinvalid := @unmapped_not_valid (entryAt vm.pte mm.pgt) _ _ hcov
    exact if_neg fun hc => hc.1 hinvalid
  · rw [unmapped_of_not_covers hcov]
    cases hframe : frameOf (entryAt vm.pte mm.pgt v) with
    | none => rfl
    | some p => exact absurd (covers_pagesOf.2 (h.covered v p hframe)) hcov

/-- An address space without vmas is what is left. -/
theorem Tidy.emptied (h : Tidy vm mm)
    (hchanges : Changes mm.pgt (unmapped (entryAt vm.pte mm.pgt) (pagesOf mm.vma)) vm vm') :
    Tidy vm' { mm with vma := [] } := by
  refine ⟨hchanges.good, fun w hw => absurd hw (by simp), (h.of_unmapped hchanges).kernel,
    fun v p hv => ?_⟩
  rw [h.no_frames hchanges v] at hv
  exact absurd hv (by simp)

end SignalOS
