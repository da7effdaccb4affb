import SignalOS.Vm.Lifetime
import SignalOS.Vm.Remap

/-!
# Failing to map a vma

The undo path of `mm_mappages` clears the whole range of the vma, whoever mapped its
pages.

* `freevma_clears`, `freevma_panics` — what `freevma` does when it meets pages that are
  not the user's.
* `MapAtomic` — a failing `mm_mappages` leaves the rest of the address space alone and
  gives the vma back.
* `mmMappages_atomic` — **when it does**.
-/

namespace SignalOS

open Partial

variable {vm vm' vm₁ : Vm} {mm : Mm} {vma : Vma}

/-! ## Pages that `kfreepage` accepts -/

/-- The check of `kfreepage` on a page start. -/
def Vm.Accepts (vm : Vm) (p : Uint64) : Prop :=
  vm.kpageAllocatorBase ≤ p + KERNEL_DIRECT_MAPPING_BASE ∧
    p + KERNEL_DIRECT_MAPPING_BASE < vm.kpageAllocatorBase + vm.kpageAllocatorSize

instance (vm : Vm) (p : Uint64) : Decidable (vm.Accepts p) := inferInstanceAs (Decidable (_ ∧ _))

theorem Vm.Manages.accepts {p : Uint64} (h : vm.Manages p) : vm.Accepts p := ⟨h.lower, h.upper⟩

theorem Static.accepts (h : Static vm vm') {p : Uint64} : vm'.Accepts p ↔ vm.Accepts p := by
  rw [Vm.Accepts, Vm.Accepts, h.base, h.size]

theorem kfreepage_accepts {p : Uint64} (hp : PageStart p) (h : vm.Accepts p) :
    kfreepage p vm = some ((), vm.give p) := by
  rw [kfreepage, if_neg]
  · rfl
  · simp only [PGALIGNED_iff.2 hp, h.1, h.2, decide_true, Bool.and_self, Bool.not_true,
      Bool.or_self,
      Bool.false_eq_true, not_false_eq_true]

theorem kfreepage_panics {p : Uint64} (h : ¬ vm.Accepts p) : kfreepage p vm = none := by
  rw [kfreepage, if_pos]
  simp only [Bool.or_eq_true, Bool.not_eq_true', Bool.and_eq_false_iff, decide_eq_false_iff_not]
  right
  by_contra hboth
  simp only [not_or, not_not] at hboth
  exact h hboth

/-! ## `freevma` on any pages -/

/-- The memory after a run that cleared entries, with the tables where they were. -/
structure Cleared (pgt : Uint64) (pages : List Uint64) (vm vm' : Vm) : Prop where
  tables : tableAt vm'.pte pgt = tableAt vm.pte pgt
  entries : entryAt vm'.pte pgt = unmapped (entryAt vm.pte pgt) pages
  static : Static vm vm'

/-- The body of the loop of `freevma`. -/
def freevmaTurn (mm : Mm) (va : Uint64) : VmM Unit := do
  match ← walk mm va false with
  | none => pure ()
  | some pte =>
    let e ← loadPte pte
    if e &&& PTE_V ≠ 0 then
      if true then kfreepage (PTE2PA e)
      storePte pte 0

theorem unmapped_cons {E : Vpn → Uint64} {va : Uint64} {rest : List Uint64} :
    unmapped E (va :: rest) = unmapped (unmapped E [va]) rest := by
  rw [unmapped_append]
  rfl

theorem covers_singleton {va : Uint64} {v : Vpn} : Covers [va] v ↔ vpn va = v := by
  simp [Covers]

/-- A page that is not mapped is skipped, and one of the allocator is given back. -/
theorem freevmaTurn_ends {va : Uint64} (h : TablesApart vm.pte mm.pgt) (hva : IS_USER_VA va = true)
    (haccept : entryAt vm.pte mm.pgt (vpn va) &&& PTE_V ≠ 0 →
      vm.Accepts (PTE2PA (entryAt vm.pte mm.pgt (vpn va)))) :
    Ends (freevmaTurn mm va) vm fun _ vm' => Cleared mm.pgt [va] vm vm' := by
  have hskip (hinvalid : entryAt vm.pte mm.pgt (vpn va) &&& PTE_V = 0) :
      Cleared mm.pgt [va] vm vm := by
    refine ⟨rfl, ?_, Static.refl vm⟩
    have hsame : unmapped (entryAt vm.pte mm.pgt) ([] ++ [va]) = unmapped (entryAt vm.pte mm.pgt)
        [] :=
      unmapped_concat_of_invalid hinvalid
    rw [unmapped_nil] at hsame
    exact hsame.symm
  refine .bind_of_eq (walk_find hva vm mm) ?_
  cases ht : tableAt vm.pte mm.pgt (.last (vpn va).l2 (vpn va).l1) with
  | none => exact .pure (hskip (by rw [entryAt_none ht]; exact zero_and_V))
  | some t =>
    refine .bind_of_eq (a := entryAt vm.pte mm.pgt (vpn va)) (t := vm)
      (by rw [entryAt_eq ht]; rfl) ?_
    refine .ite (fun hvalid => ?_) fun hinvalid => .pure (hskip (not_not.1 hinvalid))
    refine .bind_of_eq (kfreepage_accepts (pageStart_PTE2PA _) (haccept hvalid))
      (.of_eq rfl ⟨?_, ?_, ⟨rfl, rfl, rfl, rfl⟩⟩)
    · exact tableAt_setPte h ht _ _
    · have hcleared : unmapped (entryAt vm.pte mm.pgt) ([] ++ [va]) = _ := unmapped_concat hvalid
      rw [unmapped_nil] at hcleared
      exact (entryAt_setPte h ht _ _).trans hcleared.symm

theorem freevmaTurn_panics {va : Uint64} (hva : IS_USER_VA va = true)
    (hvalid : entryAt vm.pte mm.pgt (vpn va) &&& PTE_V ≠ 0)
    (hrefuse : ¬ vm.Accepts (PTE2PA (entryAt vm.pte mm.pgt (vpn va)))) :
    freevmaTurn mm va vm = none := by
  obtain ⟨t, ht⟩ := exists_table hvalid
  rw [freevmaTurn, bind_apply (walk_find hva vm mm), ht]
  have hload : loadPte (t, (vpn va).l0.word) vm = some (entryAt vm.pte mm.pgt (vpn va), vm) := by
    rw [entryAt_eq ht]
    rfl
  show (loadPte (t, (vpn va).l0.word) >>= _ : VmM Unit) vm = none
  rw [bind_apply hload, if_pos hvalid]
  show (kfreepage _ vm).bind _ = none
  rw [kfreepage_panics hrefuse]
  rfl

section Loop

variable {pages : List Uint64}

theorem Cleared.entry {va a : Uint64} (h : Cleared mm.pgt [va] vm vm') (hne : vpn a ≠ vpn va) :
    entryAt vm'.pte mm.pgt (vpn a) = entryAt vm.pte mm.pgt (vpn a) := by
  rw [h.entries, unmapped_of_not_covers fun hcov => hne (covers_singleton.1 hcov).symm]

/-- **`freevma` clears its range** when `kfreepage` accepts all frames. -/
theorem freevmaLoop_ends (huser : UserPages pages) (hnodup : pages.Nodup)
    (h : TablesApart vm.pte mm.pgt)
    (haccept : ∀ va ∈ pages, entryAt vm.pte mm.pgt (vpn va) &&& PTE_V ≠ 0 →
      vm.Accepts (PTE2PA (entryAt vm.pte mm.pgt (vpn va)))) :
    Ends (pages.forM (freevmaTurn mm)) vm fun _ vm' => Cleared mm.pgt pages vm vm' := by
  induction pages generalizing vm with
  | nil => exact .pure ⟨rfl, (unmapped_nil _).symm, Static.refl vm⟩
  | cons va rest ih =>
    refine .bind (freevmaTurn_ends h (huser va List.mem_cons_self).1
      (haccept va List.mem_cons_self))
      fun _ vm₁ hturn => ?_
    have htables : TablesApart vm₁.pte mm.pgt := by
      rw [TablesApart, hturn.tables]
      exact h
    refine (ih (fun a ha => huser a (List.mem_cons_of_mem _ ha))
      (List.nodup_cons.1 hnodup).2 htables
      fun a ha => ?_).mono fun _ vm' hrest => ⟨hrest.tables.trans hturn.tables, ?_,
        hturn.static.trans hrest.static⟩
    · rw [hturn.entry (vpn_ne_of_mem huser hnodup ha), hturn.static.accepts]
      exact haccept a (List.mem_cons_of_mem _ ha)
    · rw [hrest.entries, hturn.entries, ← unmapped_cons]

/-- **It panics** when `kfreepage` refuses one. -/
theorem freevmaLoop_panics (huser : UserPages pages) (hnodup : pages.Nodup)
    (h : TablesApart vm.pte mm.pgt)
    (hrefuse : ∃ va ∈ pages, entryAt vm.pte mm.pgt (vpn va) &&& PTE_V ≠ 0 ∧
      ¬ vm.Accepts (PTE2PA (entryAt vm.pte mm.pgt (vpn va)))) :
    (pages.forM (freevmaTurn mm) : VmM Unit) vm = none := by
  induction pages generalizing vm with
  | nil => exact absurd hrefuse (by simp)
  | cons va rest ih =>
    have hva := (huser va List.mem_cons_self).1
    show (freevmaTurn mm va vm).bind _ = none
    by_cases hhead : entryAt vm.pte mm.pgt (vpn va) &&& PTE_V ≠ 0 ∧
        ¬ vm.Accepts (PTE2PA (entryAt vm.pte mm.pgt (vpn va)))
    · rw [freevmaTurn_panics hva hhead.1 hhead.2]
      rfl
    · obtain ⟨_, vm₁, hrun, hturn⟩ :=
        freevmaTurn_ends h hva fun hvalid => by_contra fun hno => hhead ⟨hvalid, hno⟩
      rw [hrun]
      have htables : TablesApart vm₁.pte mm.pgt := by
        rw [TablesApart, hturn.tables]
        exact h
      refine ih (fun a ha => huser a (List.mem_cons_of_mem _ ha)) (List.nodup_cons.1 hnodup).2
        htables ?_
      obtain ⟨a, ha, hbad⟩ := hrefuse
      rcases List.mem_cons.1 ha with rfl | ha
      · exact absurd hbad hhead
      · refine ⟨a, ha, ?_⟩
        rw [hturn.entry (vpn_ne_of_mem huser hnodup ha), hturn.static.accepts]
        exact hbad

end Loop

/-! ## `mm_mappages` -/

/-- A failing `mm_mappages` leaves the rest of the address space alone and gives the vma back. -/
structure MapUndone (vm : Vm) (mm : Mm) (vma : Vma) (mm' : Mm) (vm' : Vm) : Prop where
  vmas : mm' = mm
  mappings : ∀ v, entryAt vm.pte mm.pgt v &&& PTE_V ≠ 0 → entryAt vm'.pte mm.pgt v = entryAt vm.pte
    mm.pgt v
  frames : ∀ v, entryAt vm.pte mm.pgt v &&& PTE_V ≠ 0 → PTE2PA (entryAt vm.pte mm.pgt v) ∈
    vm'.freelist →
    PTE2PA (entryAt vm.pte mm.pgt v) ∈ vm.freelist
  /-- A page that was free is free again, or a page table. -/
  pages : ∀ p ∈ vm.freelist, p ∈ vm'.freelist ∨ ∃ x, tableAt vm'.pte mm.pgt x = some p
  obj : vm'.vmaAllocator = vma.addr :: vm.vmaAllocator

/-- Every run that fails is undone. -/
def MapAtomic (vm : Vm) (mm : Mm) (vma : Vma) : Prop :=
  ∀ r mm' vm', mmMappages mm vma vm = some ((r, mm'), vm') → r < 0 → MapUndone vm mm vma mm' vm'

/-- The range of a vma that is to be mapped: page-aligned user addresses. -/
structure Vma.Mappable (vma : Vma) : Prop where
  start : PageStart vma.vmStart
  stop : PageStart vma.vmEnd
  startUser : vma.vmStart ≤ MAXVA
  stopUser : vma.vmEnd ≤ MAXVA
  flags : UserFlags vma.pteFlags

/-- Where no page of the range was mapped, everything is undone. -/
theorem mapUndone_of_unmapped (h : Good vm mm.pgt) (hobj : vma.addr ≠ 0)
    (hnone : ∀ va ∈ vma.pages, entryAt vm.pte mm.pgt (vpn va) &&& PTE_V = 0)
    (hchanges : Changes mm.pgt (unmapped (entryAt vm.pte mm.pgt) vma.pages) vm vm')
    (hvmas : vm'.vmaAllocator = pushObj vma.addr vm.vmaAllocator) :
    MapUndone vm mm vma mm vm' := by
  have hentries : entryAt vm'.pte mm.pgt = entryAt vm.pte mm.pgt := by
    rw [hchanges.entries]
    funext v
    refine if_neg ?_
    rintro ⟨⟨va, hva, rfl⟩, hvalid⟩
    exact hvalid (hnone va hva)
  have hframes : frameAt vm'.pte mm.pgt = frameAt vm.pte mm.pgt := by
    funext v
    rw [frameAt, frameAt, hentries]
  constructor
  case vmas => rfl
  case mappings =>
    intro v _
    rw [hentries]
  case frames =>
    intro v _ hfree
    refine ((hchanges.evolves.pages _).1 (.inl hfree)).resolve_right fun hown => ?_
    -- a page that the address space owned it owns still
    have hown' : Owns vm' mm.pgt (PTE2PA (entryAt vm.pte mm.pgt v)) := by
      refine hown.imp (Exists.imp fun x hx => hchanges.tables x _ hx) fun hframe => ?_
      rw [hframes]
      exact hframe
    exact (hchanges.good.owned _ hown').1 hfree
  case pages =>
    intro p hp
    rcases (hchanges.evolves.pages p).2 (.inl hp) with hfree | htable | ⟨v, hv⟩
    · exact .inl hfree
    · exact .inr htable
    · rw [hframes] at hv
      exact absurd hp (h.owned p (.inr ⟨v, hv⟩)).1
  case obj => rw [hvmas, pushObj, if_neg hobj]

/-- A page of the range is mapped to a frame that `kfreepage` refuses. -/
def Refused (vm : Vm) (mm : Mm) (vma : Vma) : Prop :=
  ∃ va ∈ vma.pages, entryAt vm.pte mm.pgt (vpn va) &&& PTE_V ≠ 0 ∧
    ¬ vm.Accepts (PTE2PA (entryAt vm.pte mm.pgt (vpn va)))

/-- A run that gets past the overlap check although a page of the range is mapped: it fails, and
the page's entry is cleared, or the undo path panics. -/
theorem mmMappages_mapped (h : Good vm mm.pgt) (hvma : vma.Mappable)
    (hcheck : vmaCheckOverlap mm vma.vmStart vma.vmEnd vma.addr = false)
    (hmapped : ∃ va ∈ vma.pages, entryAt vm.pte mm.pgt (vpn va) &&& PTE_V ≠ 0) :
    (Refused vm mm vma → mmMappages mm vma vm = none) ∧
      (¬ Refused vm mm vma → Ends (mmMappages mm vma) vm
      fun r vm' => r.1 < 0 ∧ entryAt vm'.pte mm.pgt = unmapped (entryAt vm.pte mm.pgt)
        vma.pages) := by
  have huser : UserPages vma.pages := userPages_pagesBetween hvma.start hvma.stopUser
  have hnodup : vma.pages.Nodup := nodup_pagesBetween _ _
  obtain ⟨r, vm₁, hloop, E', hbecomes, hr⟩ := mmMappagesLoop_ends h hnodup huser hvma.flags
  have hneg : r < 0 ∧ PartMaps vma.pteFlags vma.pages (entryAt vm.pte mm.pgt) E' := by
    refine hr.resolve_left ?_
    rintro ⟨-, hmaps⟩
    obtain ⟨va, hva, hvalid⟩ := hmapped
    rw [(hmaps.new _ ⟨va, hva, rfl⟩).1] at hvalid
    exact hvalid zero_and_V
  obtain ⟨hneg, hpart⟩ := hneg
  -- the run up to the undo path
  have hpages : pagesBetween vma.vmStart vma.vmEnd = vma.pages := rfl
  have hrun : mmMappages mm vma vm = (do
      freevma mm vma true
      kfreeVma vma.addr
      return (r, mm) : VmM (Int × Mm)) vm₁ := by
    rw [mmMappages, bind_apply
      (kassert_true (by simp [IS_USER_VA, hvma.startUser, hvma.stopUser])),
      bind_apply
        (kassert_true (by rw [PGALIGNED_iff.2 hvma.start, PGALIGNED_iff.2 hvma.stop]; rfl)),
      bind_apply (kassert_true (bne_iff_ne.2 hvma.flags.rwx)), if_neg (by simp [hcheck]), hpages,
      bind_apply hloop, if_pos hneg]
  have hfreevma : freevma mm vma true vm₁ = (vma.pages.forM (freevmaTurn mm) : VmM Unit) vm₁ := by
    rw [freevma,
      bind_apply
      (kassert_true (by rw [PGALIGNED_iff.2 hvma.start, PGALIGNED_iff.2 hvma.stop]; rfl))]
    rfl
  refine ⟨fun hrefuse => ?_, fun haccept => ?_⟩
  · rw [hrun]
    show (freevma mm vma true vm₁).bind _ = none
    rw [hfreevma, freevmaLoop_panics huser hnodup hbecomes.good.tables]
    · rfl
    · obtain ⟨va, hva, hvalid, hno⟩ := hrefuse
      refine ⟨va, hva, ?_⟩
      have hsame : entryAt vm₁.pte mm.pgt (vpn va) = entryAt vm.pte mm.pgt (vpn va) := by
        rw [hbecomes.entries]
        refine (hpart (vpn va)).resolve_right ?_
        rintro ⟨-, hzero, -⟩
        rw [hzero] at hvalid
        exact hvalid zero_and_V
      rw [hsame, hbecomes.evolves.static.accepts]
      exact ⟨hvalid, hno⟩
  · have hclear := freevmaLoop_ends huser hnodup hbecomes.good.tables fun va hva hvalid => ?_
    · obtain ⟨_, vm₂, hfreed, hcleared⟩ := hclear
      obtain ⟨_, vm₃, hobj, hsame, -, -⟩ := kfreeVma_ends vma.addr vm₂
      refine .of_eq (a := (r, mm)) (t := vm₃) ?_ ⟨hneg, ?_⟩
      · rw [hrun, bind_apply (hfreevma.trans hfreed), bind_apply hobj]
        rfl
      · rw [hsame.pte, hcleared.entries, hbecomes.entries, hpart.unmapped_eq]
    · rw [hbecomes.evolves.static.accepts, hbecomes.entries]
      rw [hbecomes.entries] at hvalid
      rcases hpart (vpn va) with hsame | ⟨-, -, p, hp, he⟩
      · rw [hsame] at hvalid ⊢
        exact by_contra fun hno => haccept ⟨va, hva, hvalid, hno⟩
      · -- a frame that was taken for the page
        have hframe : frameAt vm₁.pte mm.pgt (vpn va) = some (PTE2PA (E' (vpn va))) := by
          rw [frameAt, hbecomes.entries]
          refine frameOf_of_user hvalid ?_
          rw [he, entry_and isFlags_U (by decide)]
          exact hvma.flags.user
        exact hbecomes.evolves.static.accepts.1
          (hbecomes.good.owned _ (.inr ⟨_, hframe⟩)).2.accepts

/-- Where the overlap check fires, the vma is not given back. -/
theorem mmMappages_overlap (hvma : vma.Mappable)
    (hcheck : vmaCheckOverlap mm vma.vmStart vma.vmEnd vma.addr = true) :
    mmMappages mm vma vm = some ((-EINVAL, mm), vm) := by
  rw [mmMappages, bind_apply (kassert_true (by simp [IS_USER_VA, hvma.startUser, hvma.stopUser])),
    bind_apply (kassert_true (by rw [PGALIGNED_iff.2 hvma.start, PGALIGNED_iff.2 hvma.stop]; rfl)),
    bind_apply (kassert_true (bne_iff_ne.2 hvma.flags.rwx)), if_pos hcheck]
  rfl

theorem not_mapAtomic_of_overlap (hvma : vma.Mappable)
    (hcheck : vmaCheckOverlap mm vma.vmStart vma.vmEnd vma.addr = true) :
    ¬ MapAtomic vm mm vma := by
  intro hatomic
  have hpool := (hatomic _ _ _ (mmMappages_overlap hvma hcheck) (by decide)).obj
  exact absurd (congrArg List.length hpool) (by simp)

/-- **When a failing `mm_mappages` is undone**: the overlap check does not fire, and no page of the
range is mapped already, unless the undo path panics at one. -/
theorem mmMappages_atomic (h : Good vm mm.pgt) (hvma : vma.Mappable) (hobj : vma.addr ≠ 0) :
    MapAtomic vm mm vma ↔ vmaCheckOverlap mm vma.vmStart vma.vmEnd vma.addr = false ∧
      ((∀ va ∈ vma.pages, entryAt vm.pte mm.pgt (vpn va) &&& PTE_V = 0) ∨ Refused vm mm vma) := by
  cases hcheck : vmaCheckOverlap mm vma.vmStart vma.vmEnd vma.addr with
  | true =>
    exact iff_of_false (not_mapAtomic_of_overlap hvma hcheck) fun hno => absurd hno.1 (by simp)
  | false =>
    rw [and_iff_right rfl]
    by_cases hnone : ∀ va ∈ vma.pages, entryAt vm.pte mm.pgt (vpn va) &&& PTE_V = 0
    · refine iff_of_true (fun r mm' vm' hrun hneg => ?_) (.inl hnone)
      have hends := mmMappages_good h hvma.start hvma.stop hvma.startUser hvma.stopUser hvma.flags
        fun va hva hvalid => absurd (hnone va hva) hvalid
      cases hends.elim hrun with
      | mapped => exact absurd hneg (by decide)
      | overlap hoverlap =>
        rw [hcheck] at hoverlap
        exact absurd hoverlap (by simp)
      | failed _ changes mms vmas => exact mapUndone_of_unmapped h hobj hnone changes vmas
    · have hmapped : ∃ va ∈ vma.pages, entryAt vm.pte mm.pgt (vpn va) &&& PTE_V ≠ 0 := by
        by_contra hno
        exact hnone fun va hva => by_contra fun hvalid => hno ⟨va, hva, hvalid⟩
      obtain ⟨hpanics, hfails⟩ := mmMappages_mapped h hvma hcheck hmapped
      by_cases hrefuse : Refused vm mm vma
      · refine iff_of_true (fun r mm' vm' hrun => ?_) (.inr hrefuse)
        rw [hpanics hrefuse] at hrun
        exact absurd hrun (by simp)
      · refine iff_of_false (fun hatomic => ?_) fun hno => hno.elim hnone hrefuse
        obtain ⟨⟨r, mm'⟩, vm', hrun, hneg, hentries⟩ := hfails hrefuse
        obtain ⟨va, hva, hvalid⟩ := hmapped
        have hkept := (hatomic r mm' vm' hrun hneg).mappings (vpn va) hvalid
        rw [hentries, unmapped, if_pos ⟨⟨va, hva, rfl⟩, hvalid⟩] at hkept
        rw [← hkept] at hvalid
        exact hvalid zero_and_V

/-- Two pages beside the one that is mapped, but only one is free. -/
theorem mmMappages_atomic_beside : ∃ (vm vm' : Vm) (mm mm' : Mm),
    mmWith ⟨7, 0x1000, 0x2000, PTE_R ||| PTE_W ||| PTE_U⟩ (fewPages 7) = some (some mm, vm) ∧
    mmMappages mm ⟨8, 0x2000, 0x4000, PTE_R ||| PTE_W ||| PTE_U⟩ vm = some ((-ENOMEM, mm'), vm') ∧
    MapUndone vm mm ⟨8, 0x2000, 0x4000, PTE_R ||| PTE_W ||| PTE_U⟩ mm' vm' := by
  have hobs : ((mmWith ⟨7, 0x1000, 0x2000, PTE_R ||| PTE_W ||| PTE_U⟩ (fewPages 7)).bind fun r =>
      r.1.bind fun mm => (mmMappages mm ⟨8, 0x2000, 0x4000, PTE_R ||| PTE_W ||| PTE_U⟩ r.2).map
        fun o => o.1.1) = some (-ENOMEM) := by decide +kernel
  obtain ⟨⟨r, vm⟩, hrun, hobs⟩ := Option.bind_eq_some_iff.1 hobs
  obtain ⟨mm, rfl, hobs⟩ := Option.bind_eq_some_iff.1 hobs
  obtain ⟨⟨⟨ret, mm'⟩, vm'⟩, hmap, rfl⟩ := Option.map_eq_some_iff.1 hobs
  obtain ⟨hwf, hvma⟩ := mmWith_wf (freeOk_fewPages 7) ⟨by decide, by decide, by decide, by decide⟩
    ⟨by decide, by decide, by decide⟩ hrun
  have hrange : (⟨8, 0x2000, 0x4000, PTE_R ||| PTE_W ||| PTE_U⟩ : Vma).InRange :=
    ⟨by decide, by decide, by decide, by decide⟩
  have hatomic :=
    (mmMappages_atomic hwf.good ⟨hrange.start, hrange.stop, hrange.high, hrange.stop_le,
      ⟨by decide, by decide, by decide⟩⟩ (by decide)).2 ⟨?_, .inl fun va hva =>
        by_contra fun hvalid => ?_⟩
  · exact ⟨vm, vm', mm, mm', hrun, hmap, hatomic _ mm' vm' hmap (show -ENOMEM < 0 by decide)⟩
  · rw [vmaCheckOverlap, hvma]
    decide
  · obtain ⟨w, hw, hcov⟩ := hwf.covered _ _ (frameOf_of_user hvalid (hwf.user hrange hva hvalid))
    rw [hvma, List.mem_singleton] at hw
    subst hw
    have hpages : (⟨8, 0x2000, 0x4000, PTE_R ||| PTE_W ||| PTE_U⟩ : Vma).pages = [0x2000,
        0x3000] :=
      rfl
    have hold : (⟨7, 0x1000, 0x2000, PTE_R ||| PTE_W ||| PTE_U⟩ : Vma).pages = [0x1000] := rfl
    rw [hold, covers_singleton] at hcov
    simp only [hpages, List.mem_cons, List.not_mem_nil, or_false] at hva
    rcases hva with rfl | rfl <;> exact absurd hcov (by decide)

/-- A vma in place of the one that is mapped is lost. -/
theorem mmMappages_leaks : ∃ (vm : Vm) (mm : Mm),
    mmWith ⟨7, 0x1000, 0x2000, PTE_R ||| PTE_W ||| PTE_U⟩ initVm = some (some mm, vm) ∧
      Good vm mm.pgt ∧
    ¬ MapAtomic vm mm ⟨8, 0x1000, 0x2000, PTE_R ||| PTE_W ||| PTE_U⟩ := by
  have hrun : (mmWith ⟨7, 0x1000, 0x2000, PTE_R ||| PTE_W ||| PTE_U⟩ initVm).map
      (fun r => r.1.isSome) = some true := by
    decide +kernel
  obtain ⟨⟨mm, vm⟩, hrun, hsome⟩ := Option.map_eq_some_iff.1 hrun
  obtain ⟨mm, rfl⟩ := Option.isSome_iff_exists.1 hsome
  obtain ⟨hwf, hvma⟩ := mmWith_wf freeOk_initVm ⟨by decide, by decide, by decide, by decide⟩
    ⟨by decide, by decide, by decide⟩ hrun
  refine ⟨vm, mm, hrun, hwf.good,
    not_mapAtomic_of_overlap ⟨by decide, by decide, by decide, by decide,
    ⟨by decide, by decide, by decide⟩⟩ ?_⟩
  rw [vmaCheckOverlap, hvma]
  decide

end SignalOS
