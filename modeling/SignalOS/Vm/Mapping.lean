import SignalOS.Vm.Ownership

/-!
# Mapping and freeing vmas

What the functions of `vm.c` that work on a vma do to the leaf entries of its address
space.

* `mem_pagesBetween` — the pages of a loop over a range.
* `unmapped`, `freevma_ends` — **`freevma` clears the entries of its range**.
* `Mapped`, `mmMappagesLoop_ends`, `mmMappages_ends` — **`mm_mappages` maps all pages of
  a vma or none**.
* `mmFreeVmas_ends` — **no user page is left**.
-/

namespace SignalOS

open Partial

/-! ## The pages of a range -/

theorem mem_pagesBetween {start stop va : Uint64} (h : PageStart start) :
    va ∈ pagesBetween start stop ↔ PageStart va ∧ start ≤ va ∧ va < stop := by
  have hstop := stop.isLt
  have hva := va.isLt
  rw [PageStart] at h
  have hmem (hlt : start < stop) : va ∈ pagesBetween start stop ↔
      ∃ i, i < ((stop.toNat - start.toNat) + 4095) / 4096 ∧ va.toNat = start.toNat + 4096 * i := by
    rw [pagesBetween, if_pos hlt, List.mem_map]
    rw [BitVec.lt_def] at hlt
    have hsub : (stop - start).toNat = stop.toNat - start.toNat := by
      rw [BitVec.toNat_sub]
      omega
    refine exists_congr fun i => ?_
    rw [List.mem_range, hsub, ← BitVec.toNat_inj, BitVec.toNat_add, BitVec.toNat_ofNat]
    refine and_congr_right fun hi => ?_
    omega
  by_cases hlt : start < stop
  · rw [hmem hlt, PageStart, BitVec.le_def, BitVec.lt_def]
    rw [BitVec.lt_def] at hlt
    constructor
    · rintro ⟨i, hi, heq⟩
      omega
    · rintro ⟨hpage, hle, hend⟩
      exact ⟨(va.toNat - start.toNat) / 4096, by omega, by omega⟩
  · rw [pagesBetween, if_neg hlt]
    simp only [List.not_mem_nil, false_iff, not_and]
    intro _ hle hend
    rw [BitVec.le_def] at hle
    rw [BitVec.lt_def] at hend hlt
    omega

theorem nodup_pagesBetween (start stop : Uint64) : (pagesBetween start stop).Nodup := by
  rw [pagesBetween]
  split
  · rename_i hlt
    rw [BitVec.lt_def] at hlt
    refine List.Nodup.map_on ?_ List.nodup_range
    intro i hi j hj heq
    have hstop := stop.isLt
    have hsub : (stop - start).toNat = stop.toNat - start.toNat := by
      rw [BitVec.toNat_sub]
      omega
    rw [List.mem_range, hsub] at hi hj
    have heq := congrArg BitVec.toNat heq
    simp only [BitVec.toNat_add, BitVec.toNat_ofNat] at heq
    omega
  · exact List.nodup_nil

/-- The page numbers of a list of addresses. -/
def Covers (pages : List Uint64) (v : Vpn) : Prop := ∃ va ∈ pages, vpn va = v

instance (pages : List Uint64) (v : Vpn) : Decidable (Covers pages v) :=
  inferInstanceAs (Decidable (∃ va ∈ pages, vpn va = v))

@[simp] theorem covers_nil (v : Vpn) : ¬ Covers [] v := fun ⟨_, h, _⟩ => absurd h (by simp)

theorem covers_concat {pages : List Uint64} {va : Uint64} {v : Vpn} :
    Covers (pages ++ [va]) v ↔ Covers pages v ∨ vpn va = v := by
  simp only [Covers, List.mem_append, List.mem_singleton]
  constructor
  · rintro ⟨a, ha | rfl, hav⟩
    · exact .inl ⟨a, ha, hav⟩
    · exact .inr hav
  · rintro (⟨a, ha, hav⟩ | hva)
    · exact ⟨a, .inl ha, hav⟩
    · exact ⟨va, .inr rfl, hva⟩

/-- All addresses are user addresses at page starts. -/
def UserPages (pages : List Uint64) : Prop := ∀ va ∈ pages, IS_USER_VA va = true ∧ PageStart va

theorem userPages_pagesBetween {start stop : Uint64} (hstart : PageStart start)
    (hstop : stop ≤ MAXVA) :
    UserPages (pagesBetween start stop) := by
  intro va hva
  obtain ⟨hpage, -, hlt⟩ := (mem_pagesBetween hstart).1 hva
  refine ⟨decide_eq_true ?_, hpage⟩
  rw [BitVec.le_def] at hstop ⊢
  rw [BitVec.lt_def] at hlt
  omega

/-- In a list of different user pages no page number comes twice. -/
theorem not_covers_of_nodup {done rest : List Uint64} {va : Uint64}
    (hnodup : (done ++ va :: rest).Nodup) (huser : UserPages (done ++ va :: rest)) :
    ¬ Covers done (vpn va) := by
  rintro ⟨a, ha, hav⟩
  obtain ⟨hua, hpa⟩ := huser a (List.mem_append_left _ ha)
  obtain ⟨huva, hpva⟩ := huser va (List.mem_append_right _ List.mem_cons_self)
  obtain rfl := vpn_inj hua huva hpa hpva hav
  exact (List.nodup_append.1 hnodup).2.2 a ha a List.mem_cons_self rfl

/-! ## Unmapping a range -/

/-- The entries after the valid ones of a range were cleared. -/
def unmapped (entries : Vpn → Uint64) (pages : List Uint64) (v : Vpn) : Uint64 :=
  if Covers pages v ∧ entries v &&& PTE_V ≠ 0 then 0 else entries v

theorem unmapped_nil (entries : Vpn → Uint64) : unmapped entries [] = entries := by
  funext v
  simp [unmapped]

theorem unmapped_not_valid {entries : Vpn → Uint64} {pages : List Uint64} {v : Vpn}
    (h : Covers pages v) :
    unmapped entries pages v &&& PTE_V = 0 := by
  rw [unmapped]
  split
  · rfl
  · rename_i hnot
    exact not_not.1 fun hv => hnot ⟨h, hv⟩

theorem unmapped_of_not_covers {entries : Vpn → Uint64} {pages : List Uint64} {v : Vpn}
    (h : ¬ Covers pages v) : unmapped entries pages v = entries v := if_neg fun hc => h hc.1

theorem unmapped_concat {entries : Vpn → Uint64} {pages : List Uint64} {va : Uint64}
    (h : entries (vpn va) &&& PTE_V ≠ 0) :
    unmapped entries (pages ++ [va]) = Function.update (unmapped entries pages) (vpn va) 0 := by
  funext v
  rw [Function.update_apply]
  by_cases hv : v = vpn va
  · subst hv
    rw [if_pos rfl]
    exact if_pos ⟨covers_concat.2 (.inr rfl), h⟩
  · have hne : ¬ vpn va = v := fun heq => hv heq.symm
    rw [if_neg hv]
    simp only [unmapped, covers_concat, hne, or_false]

theorem unmapped_concat_of_invalid {entries : Vpn → Uint64} {pages : List Uint64} {va : Uint64}
    (h : entries (vpn va) &&& PTE_V = 0) :
    unmapped entries (pages ++ [va]) = unmapped entries pages := by
  funext v
  by_cases hv : vpn va = v
  · subst hv
    simp [unmapped, h]
  · simp only [unmapped, covers_concat, hv, or_false]

variable {vm vm' : Vm} {mm : Mm}

/-- A walk without allocation finds the slot of the entry, if there is a table for it. -/
theorem walk_find {va : Uint64} (hva : IS_USER_VA va = true) (vm : Vm) (mm : Mm) :
    walk mm va false vm =
      some ((tableAt vm.pte mm.pgt (.last (vpn va).l2 (vpn va).l1)).map fun t =>
        (t, (vpn va).l0.word), vm) := by
  rw [walk_noalloc hva, slotOf_eq]

theorem entryAt_eq {pte : Uint64 → Uint64 → Uint64} {pgt t : Uint64} {v : Vpn}
    (h : tableAt pte pgt (.last v.l2 v.l1) = some t) : entryAt pte pgt v = pte t v.l0.word := by
  rw [entryAt, h]
  rfl

theorem entryAt_none {pte : Uint64 → Uint64 → Uint64} {pgt : Uint64} {v : Vpn}
    (h : tableAt pte pgt (.last v.l2 v.l1) = none) : entryAt pte pgt v = 0 := by
  rw [entryAt, h]
  rfl

theorem zero_and_V : (0 : Uint64) &&& PTE_V = 0 := by decide

/-- A valid entry is in a table. -/
theorem exists_table {pte : Uint64 → Uint64 → Uint64} {pgt : Uint64} {v : Vpn}
    (h : entryAt pte pgt v &&& PTE_V ≠ 0) : ∃ t, tableAt pte pgt (.last v.l2 v.l1) = some t := by
  cases ht : tableAt pte pgt (.last v.l2 v.l1) with
  | some t => exact ⟨t, rfl⟩
  | none =>
    rw [entryAt_none ht] at h
    exact absurd zero_and_V h

theorem frameOf_of_user {e : Uint64} (hv : e &&& PTE_V ≠ 0) (hu : e &&& PTE_U ≠ 0) :
    frameOf e = some (PTE2PA e) := if_pos ⟨hv, hu⟩

/-- Clearing a leaf entry after its frame was given back, as the loops that unmap pages do. -/
theorem unmap_ends {t : Uint64} {v : Vpn} (h : Good vm mm.pgt)
    (ht : tableAt vm.pte mm.pgt (.last v.l2 v.l1) = some t)
    (hvalid : entryAt vm.pte mm.pgt v &&& PTE_V ≠ 0)
    (huser : entryAt vm.pte mm.pgt v &&& PTE_U ≠ 0) :
    Ends (do kfreepage (PTE2PA (entryAt vm.pte mm.pgt v)); storePte (t, v.l0.word) 0) vm
      fun _ vm' =>
      Becomes mm.pgt (Function.update (entryAt vm.pte mm.pgt) v 0) vm vm' := by
  have hframe : frameAt vm.pte mm.pgt v = some (PTE2PA (entryAt vm.pte mm.pgt v)) :=
    frameOf_of_user hvalid huser
  have hmanaged := (h.owned _ (.inr ⟨v, hframe⟩)).2
  exact .bind_of_eq (kfreepage_eq hmanaged) (.of_eq rfl (h.unmap ht hframe))

/-- One turn of the loop of `freevma`. -/
theorem freevma_turn {va : Uint64} {entries : Vpn → Uint64} {done : List Uint64}
    (h : Good vm mm.pgt)
    (hva : IS_USER_VA va = true) (hentries : entryAt vm.pte mm.pgt = unmapped entries done)
    (hdone : ¬ Covers done (vpn va))
    (huser : entries (vpn va) &&& PTE_V ≠ 0 → entries (vpn va) &&& PTE_U ≠ 0) :
    Ends (do
      match ← walk mm va false with
      | none => pure ()
      | some pte =>
        let e ← loadPte pte
        if e &&& PTE_V ≠ 0 then
          if true then kfreepage (PTE2PA e)
          storePte pte 0) vm fun _ vm' => Becomes mm.pgt (unmapped entries
            (done ++ [va])) vm vm' := by
  have hentry : entryAt vm.pte mm.pgt (vpn va) = entries (vpn va) := by
    rw [hentries, unmapped_of_not_covers hdone]
  have hsame (hinvalid : entries (vpn va) &&& PTE_V = 0) :
      Becomes mm.pgt (unmapped entries (done ++ [va])) vm vm := by
    rw [unmapped_concat_of_invalid hinvalid, ← hentries]
    exact Grown.refl h
  refine .bind_of_eq (walk_find hva vm mm) ?_
  cases ht : tableAt vm.pte mm.pgt (.last (vpn va).l2 (vpn va).l1) with
  | none =>
    exact .pure (hsame (by rw [← hentry, entryAt_none ht]; exact zero_and_V))
  | some t =>
    have hload : vm.pte t (vpn va).l0.word = entries (vpn va) := by rw [← entryAt_eq ht, hentry]
    refine .bind_of_eq (a := entries (vpn va)) (t := vm) (by rw [← hload]; rfl)
      (.ite (fun hvalid => ?_) fun hinvalid => ?_)
    · have hends := unmap_ends h ht (hentry ▸ hvalid) (hentry ▸ huser hvalid)
      rw [hentry, hentries, ← unmapped_concat hvalid] at hends
      exact hends
    · exact .pure (hsame (not_not.1 hinvalid))

/-- **`freevma` clears the entries of its range** and gives the frames back. -/
theorem freevma_ends {vma : Vma} (h : Good vm mm.pgt) (hstart : PageStart vma.vmStart)
    (hend : PageStart vma.vmEnd) (hmax : vma.vmEnd ≤ MAXVA)
    (huser : ∀ va ∈ pagesBetween vma.vmStart vma.vmEnd,
      entryAt vm.pte mm.pgt (vpn va) &&& PTE_V ≠ 0 → entryAt vm.pte mm.pgt (vpn va) &&&
        PTE_U ≠ 0) :
    Ends (freevma mm vma true) vm fun _ vm' =>
      Becomes mm.pgt (unmapped (entryAt vm.pte mm.pgt) (pagesBetween vma.vmStart vma.vmEnd)) vm
        vm' := by
  have hpages := userPages_pagesBetween hstart hmax
  refine .bind_of_eq (a := ()) (t := vm) ?_ ?_
  · rw [PGALIGNED_iff.2 hstart, PGALIGNED_iff.2 hend]
    rfl
  · refine .forM (fun done vm' => Becomes mm.pgt (unmapped (entryAt vm.pte mm.pgt) done) vm
      vm') ?_ ?_
    · rw [unmapped_nil]
      exact Grown.refl h
    · intro done va rest vm₁ hlist hdone
      have hnodup := nodup_pagesBetween vma.vmStart vma.vmEnd
      have hmem : va ∈ pagesBetween vma.vmStart vma.vmEnd := by rw [hlist]; simp
      rw [hlist] at hnodup hpages
      exact (freevma_turn hdone.good (hpages va (by simp)).1 hdone.entries
        (not_covers_of_nodup hnodup hpages) (huser va hmem)).mono fun _ _ hturn =>
          hdone.trans hturn

/-! ## Mapping a range -/

/-- An entry that maps some frame with these flags. -/
def IsMapping (flags e : Uint64) : Prop := ∃ p, PageStart p ∧ e = PA2PTE p ||| flags ||| PTE_V

/-- From the entries `E` to the entries `E'`, some pages of a list got their frames. -/
def PartMaps (flags : Uint64) (pages : List Uint64) (E E' : Vpn → Uint64) : Prop :=
  ∀ v, E' v = E v ∨ (Covers pages v ∧ E v = 0 ∧ IsMapping flags (E' v))

/-- All of them did. -/
structure Maps (flags : Uint64) (pages : List Uint64) (E E' : Vpn → Uint64) : Prop where
  new : ∀ v, Covers pages v → E v = 0 ∧ IsMapping flags (E' v)
  old : ∀ v, ¬ Covers pages v → E' v = E v

theorem covers_cons {pages : List Uint64} {va : Uint64} {v : Vpn} :
    Covers (va :: pages) v ↔ vpn va = v ∨ Covers pages v := by
  simp only [Covers, List.mem_cons, exists_eq_or_imp]

theorem isMapping_valid {flags e : Uint64} (h : IsMapping flags e) : e &&& PTE_V ≠ 0 := by
  obtain ⟨p, -, rfl⟩ := h
  exact or_V_ne_zero _

theorem IsMapping.frame {flags e : Uint64} (h : IsMapping flags e) (hflags : UserFlags flags) :
    ∃ p, frameOf e = some p := by
  obtain ⟨p, hp, rfl⟩ := h
  exact ⟨p, frameOf_entry hp hflags⟩

/-- An entry that is not valid is empty. -/
theorem Good.entry_zero {pgt : Uint64} {v : Vpn} (h : Good vm pgt)
    (hinvalid : entryAt vm.pte pgt v &&& PTE_V = 0) :
    entryAt vm.pte pgt v = 0 := by
  rcases h.leaf v with hzero | hleaf
  · exact hzero
  · exact absurd hinvalid hleaf.1

/-- The first page is mapped, then the others. -/
theorem Maps.cons {flags va e : Uint64} {rest : List Uint64} {E E' : Vpn → Uint64}
    (h : Maps flags rest (Function.update E (vpn va) e) E') (hnew : ¬ Covers rest (vpn va))
    (hzero : E (vpn va) = 0) (he : IsMapping flags e) : Maps flags (va :: rest) E E' := by
  constructor
  case new =>
    intro v hv
    by_cases heq : v = vpn va
    · subst heq
      rw [h.old _ hnew, Function.update_self]
      exact ⟨hzero, he⟩
    · have hrest := (covers_cons.1 hv).resolve_left fun hva => heq hva.symm
      obtain ⟨hv0, hmap⟩ := h.new v hrest
      rw [Function.update_of_ne heq] at hv0
      exact ⟨hv0, hmap⟩
  case old =>
    intro v hv
    rw [covers_cons, not_or] at hv
    rw [h.old v hv.2, Function.update_of_ne fun heq => hv.1 heq.symm]

theorem PartMaps.cons {flags va e : Uint64} {rest : List Uint64} {E E' : Vpn → Uint64}
    (h : PartMaps flags rest (Function.update E (vpn va) e) E') (hnew : ¬ Covers rest (vpn va))
    (hzero : E (vpn va) = 0) (he : IsMapping flags e) : PartMaps flags (va :: rest) E E' := by
  intro v
  by_cases heq : v = vpn va
  · subst heq
    rcases h (vpn va) with hsame | ⟨hcov, -⟩
    · rw [Function.update_self] at hsame
      exact .inr ⟨covers_cons.2 (.inl rfl), hzero, hsame ▸ he⟩
    · exact absurd hcov hnew
  · have hv := h v
    rw [Function.update_of_ne heq] at hv
    exact hv.imp_right fun hmap => ⟨covers_cons.2 (.inr hmap.1), hmap.2⟩

theorem PartMaps.refl (flags : Uint64) (pages : List Uint64) (E : Vpn → Uint64) :
    PartMaps flags pages E E :=
  fun _ => .inl rfl

/-- What was mapped is unmapped again. -/
theorem PartMaps.unmapped_eq {flags : Uint64} {pages : List Uint64} {E E' : Vpn → Uint64}
    (h : PartMaps flags pages E E') : unmapped E' pages = unmapped E pages := by
  funext v
  rcases h v with hsame | ⟨hcov, hzero, hmap⟩
  · simp only [unmapped, hsame]
  · have hleft : unmapped E' pages v = 0 := if_pos ⟨hcov, isMapping_valid hmap⟩
    have hright : unmapped E pages v = 0 := by
      rw [unmapped]
      split
      · rfl
      · exact hzero
    rw [hleft, hright]

/-- **The loop of `mm_mappages`** maps all pages, or fails after mapping some. -/
theorem mmMappagesLoop_ends {vma : Vma} {pages : List Uint64} (h : Good vm mm.pgt)
    (hnodup : pages.Nodup)
    (huser : UserPages pages) (hflags : UserFlags vma.pteFlags) :
    Ends (mmMappagesLoop mm vma pages) vm fun r vm' => ∃ E', Becomes mm.pgt E' vm vm' ∧
      ((r = 0 ∧ Maps vma.pteFlags pages (entryAt vm.pte mm.pgt) E') ∨
        (r < 0 ∧ PartMaps vma.pteFlags pages (entryAt vm.pte mm.pgt) E')) := by
  induction pages generalizing vm with
  | nil =>
    exact .pure ⟨_, Grown.refl h,
      .inl ⟨rfl, ⟨fun v hv => absurd hv (covers_nil v), fun _ _ => rfl⟩⟩⟩
  | cons va rest ih =>
    obtain ⟨hva, hpage⟩ := huser va List.mem_cons_self
    have hnew : ¬ Covers rest (vpn va) := by
      rintro ⟨a, ha, hav⟩
      obtain ⟨hua, hpa⟩ := huser a (List.mem_cons_of_mem _ ha)
      obtain rfl := vpn_inj hua hva hpa hpage hav
      exact (List.nodup_cons.1 hnodup).1 ha
    have hfail {r : Int} (hr : r < 0) (vm₁ : Vm) (hgrown : Grown mm.pgt vm vm₁) :
        ∃ E', Becomes mm.pgt E' vm vm₁ ∧
          ((r = 0 ∧ Maps vma.pteFlags (va :: rest) (entryAt vm.pte mm.pgt) E') ∨
          (r < 0 ∧ PartMaps vma.pteFlags (va :: rest) (entryAt vm.pte mm.pgt) E')) :=
      ⟨_, hgrown, .inr ⟨hr, PartMaps.refl _ _ _⟩⟩
    refine .bind (walk_ends h hva) fun r vm₁ ⟨hgrown, hr⟩ => ?_
    rcases hr with rfl | ⟨t, rfl, ht⟩
    · exact .pure (hfail (by decide) vm₁ hgrown)
    refine .bind_of_eq (a := entryAt vm₁.pte mm.pgt (vpn va)) (t := vm₁)
      (by rw [entryAt_eq ht]; rfl) ?_
    refine .ite (fun _ => .pure (hfail (by decide) vm₁ hgrown)) fun hinvalid => ?_
    have hzero := hgrown.good.entry_zero (not_not.1 hinvalid)
    cases hfree : vm₁.freelist with
    | nil =>
      refine .bind_of_eq (kallocpage_nil hfree) (.ite (fun _ => ?_) fun hne => absurd rfl hne)
      exact .pure (hfail (by decide) vm₁ hgrown)
    | cons p free =>
      have hmanaged := (hgrown.good.fresh hfree).2.2.1
      refine .bind_of_eq (kallocpage_cons hfree)
        (.ite (fun hp => absurd hp hmanaged.ne_zero) fun _ => ?_)
      have hnone : frameAt vm₁.pte mm.pgt (vpn va) = none := by rw [frameAt, hzero, frameOf_zero]
      have hmap := hgrown.good.mapNew ht hfree hnone hflags
      have he : IsMapping vma.pteFlags (PA2PTE p ||| vma.pteFlags ||| PTE_V) :=
        ⟨p, hmanaged.start, rfl⟩
      refine .modify_bind ?_
      refine (ih hmap.good (List.nodup_cons.1 hnodup).2 fun a ha =>
        huser a (List.mem_cons_of_mem _ ha)).mono ?_
      rintro r vm₃ ⟨E', hbecomes, hE'⟩
      rw [hgrown.entries] at hzero
      refine ⟨E', Becomes.trans hgrown (Becomes.trans hmap hbecomes), ?_⟩
      rw [hmap.entries, hgrown.entries] at hE'
      rcases hE' with ⟨hr, hmaps⟩ | ⟨hr, hpart⟩
      · exact .inl ⟨hr, hmaps.cons hnew hzero he⟩
      · exact .inr ⟨hr, hpart.cons hnew hzero he⟩

/-! ## Operations that only take pages -/

/-- Pages were taken from the free list; only their bytes changed. -/
structure Takes (vm vm' : Vm) : Prop where
  freelist : ∀ p ∈ vm'.freelist, p ∈ vm.freelist
  byte : ∀ a, PGROUNDDOWN a ∉ vm.freelist → vm'.byte a = vm.byte a

/-- From a free list of pages. -/
def OnlyTakes (vm vm' : Vm) : Prop := (∀ p ∈ vm.freelist, PageStart p) → Takes vm vm'

theorem OnlyTakes.refl (vm : Vm) : OnlyTakes vm vm := fun _ => ⟨fun _ hp => hp, fun _ _ => rfl⟩

theorem OnlyTakes.trans (vm₁ vm₂ vm₃ : Vm) (h : OnlyTakes vm₁ vm₂) (h' : OnlyTakes vm₂ vm₃) :
    OnlyTakes vm₁ vm₃ := by
  intro hstart
  have htakes := h hstart
  have htakes' := h' fun p hp => hstart p (htakes.freelist p hp)
  refine ⟨fun p hp => htakes.freelist p (htakes'.freelist p hp), fun a hout => ?_⟩
  rw [htakes'.byte a fun hin => hout (htakes.freelist _ hin), htakes.byte a hout]

theorem onlyTakes_of_eq (hfree : vm'.freelist = vm.freelist) (hbyte : vm'.byte = vm.byte) :
    OnlyTakes vm vm' :=
  fun _ => ⟨fun p hp => hfree ▸ hp, fun _ _ => by rw [hbyte]⟩

theorem kallocpage_onlyTakes : Keeps OnlyTakes kallocpage := by
  intro vm a vm' h
  cases hfree : vm.freelist with
  | nil =>
    rw [kallocpage_nil hfree] at h
    cases h
    exact OnlyTakes.refl vm
  | cons p rest =>
    rw [kallocpage_cons hfree] at h
    have hvm' : vm' = vm.take p rest := (congrArg Prod.snd (Option.some.inj h)).symm
    subst hvm'
    have hmem : p ∈ vm.freelist := by rw [hfree]; exact List.mem_cons_self
    intro hstart
    refine ⟨fun q hq => by rw [hfree]; exact List.mem_cons_of_mem _ hq, fun a hout => ?_⟩
    exact memset_page (hstart p hmem) (fun heq => hout (heq ▸ hmem)) _

theorem get_onlyTakes : Keeps OnlyTakes (get : VmM Vm) := .get OnlyTakes.refl

theorem modify_onlyTakes {f : Vm → Vm} (hf : ∀ vm, (f vm).freelist = vm.freelist ∧
    (f vm).byte = vm.byte) :
    Keeps OnlyTakes (modify f : VmM Unit) := .modify fun vm => onlyTakes_of_eq (hf vm).1 (hf vm).2

theorem pure_onlyTakes {α : Type} (a : α) : Keeps OnlyTakes (pure a : VmM α) :=
  .pure OnlyTakes.refl a

theorem walkLevel_onlyTakes (level : Nat) (va : Uint64) (alloc : Bool) (t : Uint64) :
    Keeps OnlyTakes (walkLevel level va alloc t) := by
  refine .bind OnlyTakes.trans get_onlyTakes fun vm => ?_
  dsimp only
  split
  · exact pure_onlyTakes _
  split
  · exact pure_onlyTakes _
  · refine .bind OnlyTakes.trans kallocpage_onlyTakes fun pa => ?_
    split
    · exact pure_onlyTakes _
    · exact .bind OnlyTakes.trans (modify_onlyTakes fun vm => ⟨rfl, rfl⟩) fun _ => pure_onlyTakes _

theorem walk_onlyTakes (mm : Mm) (va : Uint64) (alloc : Bool) :
    Keeps OnlyTakes (walk mm va alloc) := by
  rw [walk]
  split
  · exact pure_onlyTakes _
  · refine .bind OnlyTakes.trans (walkLevel_onlyTakes _ _ _ _) fun r => ?_
    cases r with
    | none => exact pure_onlyTakes _
    | some level1 =>
      refine .bind OnlyTakes.trans (walkLevel_onlyTakes _ _ _ _) fun r => ?_
      cases r with
      | none => exact pure_onlyTakes _
      | some level0 => exact pure_onlyTakes _

/-- The loop of `mm_mappages` only takes pages. -/
theorem mmMappagesLoop_onlyTakes (mm : Mm) (vma : Vma) (pages : List Uint64) :
    Keeps OnlyTakes (mmMappagesLoop mm vma pages) := by
  induction pages with
  | nil => exact pure_onlyTakes _
  | cons va rest ih =>
    refine .bind OnlyTakes.trans (walk_onlyTakes mm va true) fun r => ?_
    cases r with
    | none => exact pure_onlyTakes _
    | some slot =>
      refine .bind OnlyTakes.trans (.bind OnlyTakes.trans get_onlyTakes fun vm => pure_onlyTakes _)
        fun e => ?_
      split
      · exact pure_onlyTakes _
      · refine .bind OnlyTakes.trans kallocpage_onlyTakes fun pa => ?_
        split
        · exact pure_onlyTakes _
        · exact .bind OnlyTakes.trans (modify_onlyTakes fun vm => ⟨rfl, rfl⟩) fun _ => ih

end SignalOS
