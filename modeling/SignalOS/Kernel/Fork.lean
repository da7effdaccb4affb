import SignalOS.Kernel.Step
import SignalOS.Vm.Copy

/-!
# The address space of a child

* `Isolated` — the child's address space is a copy of the parent's, and the two share
  no frame.
* `fork_isolates` — **`fork` copies the address space and isolates it**.
-/

namespace SignalOS

open Partial

/-- The address space `child` is a copy of `old`, which is as it was. -/
structure Isolated (old child : Mm) (vm vm' : Vm) : Prop where
  /-- A vma for each vma of the parent and no other, in the reverse order. -/
  vmas : List.Forall₂ SameRange child.vma old.vma.reverse
  /-- Every address of a vma reads the same byte through both page tables. -/
  bytes : ∀ vma ∈ old.vma, ∀ va, vma.vmStart ≤ va → va < vma.vmEnd →
    ∃ b, userByte vm' old va = some b ∧ userByte vm' child va = some b
  /-- Its page has the same permissions in both. -/
  perms : ∀ vma ∈ old.vma, ∀ va, vma.vmStart ≤ va → va < vma.vmEnd →
    entryAt vm'.pte child.pgt (vpn va) &&& PERM = entryAt vm'.pte old.pgt (vpn va) &&& PERM
  /-- No frame is shared. -/
  frames : ∀ v w p, frameAt vm'.pte child.pgt v = some p → frameAt vm'.pte old.pgt w ≠ some p
  /-- The parent's mappings and bytes are as they were. -/
  entries : entryAt vm'.pte old.pgt = entryAt vm.pte old.pgt
  memory : ∀ va, userByte vm' old va = userByte vm old va

variable {vm vm₁ vm' : Vm} {old new child : Mm}

/-- Each vma's copy can be found by its start. -/
theorem mmFindVma_copy {copies vmas : List Vma} (h : List.Forall₂ SameRange copies vmas)
    (hstarts : (vmas.map Vma.vmStart).Nodup) {brk : Vma} (hbrk : brk ∈ vmas) :
    ∃ copy ∈ copies, SameRange copy brk ∧ copies.find? (fun vma => brk.vmStart = vma.vmStart) =
      some copy := by
  induction h with
  | nil => exact absurd hbrk (by simp)
  | @cons a b copies vmas hab hrest ih =>
    rw [List.map_cons, List.nodup_cons] at hstarts
    rcases List.mem_cons.1 hbrk with rfl | hbrk
    · exact ⟨a, List.mem_cons_self, hab, List.find?_cons_of_pos (by simp [hab.start])⟩
    · obtain ⟨copy, hcopy, hsame, hfind⟩ := ih hstarts.2 hbrk
      refine ⟨copy, List.mem_cons_of_mem _ hcopy, hsame, ?_⟩
      rw [List.find?_cons_of_neg, hfind]
      rw [hab.start, decide_eq_true_eq]
      exact fun heq => hstarts.1 (heq ▸ List.mem_map_of_mem hbrk)

/-- What `mm_copy` does to a new address space makes it a copy. -/
theorem Copied.isolated (hold : MmWf vm old) (hnew : new.vma = [])
    (havoids : Avoids vm old.pgt (Owns vm new.pgt))
    (h : Copied old new child old.vma vm vm') : Isolated old child vm vm' := by
  obtain ⟨copies, rfl, hranges, -⟩ := h.list
  have hentries := h.evolves.entryAt_eq hold.good havoids
  have hframes : frameAt vm'.pte old.pgt = frameAt vm.pte old.pgt := by
    funext v
    rw [frameAt, frameAt, hentries]
  constructor
  case vmas =>
    rw [hnew, List.append_nil, List.forall₂_reverse_iff]
    exact hranges
  case bytes =>
    intro vma hvma va hstart hstop
    have hrange := hold.range vma hvma
    have hflags := hold.flags vma hvma
    have hmem := hrange.page_mem hstart hstop
    obtain ⟨i, hi, heq⟩ := exists_offset va
    generalize PGROUNDDOWN va = page at hmem heq
    subst heq
    obtain ⟨huser, hpage⟩ := hrange.userPages _ hmem
    obtain ⟨p, hp⟩ : ∃ p, frameAt vm.pte old.pgt (vpn page) = some p :=
      ⟨_, (hold.mapped vma hvma _ hmem).frame hflags⟩
    obtain ⟨q, hq⟩ : ∃ q, frameAt vm'.pte new.pgt (vpn page) = some q :=
      (h.mapped vma hvma _ hmem).2.frame hflags
    have hp0 := (hold.good.owned p (.inr ⟨_, hp⟩)).2.ne_zero
    have hq0 := (h.wf.good.owned q (.inr ⟨_, hq⟩)).2.ne_zero
    refine ⟨vm.byte (p + BitVec.ofNat 64 i), ?_, ?_⟩
    · rw [h.evolves.userByte_eq hold.good havoids]
      exact userByte_of_frame huser hpage hi hp hp0
    · have hcopied := h.copied vma hvma _ hmem p q hp hq i hi
      rw [← hcopied]
      exact userByte_of_frame huser hpage hi hq hq0
  case perms =>
    intro vma hvma va hstart hstop
    have hmem := (hold.range vma hvma).page_mem hstart hstop
    have hchild := (h.mapped vma hvma _ hmem).2.permits.2
    have hparent := (hold.mapped vma hvma _ hmem).2
    rw [vpn_down] at hchild hparent
    rw [hentries, hparent]
    exact hchild
  case frames =>
    intro v w p hv hw
    have hown : Owns vm old.pgt p := .inr ⟨w, hframes ▸ hw⟩
    exact h.evolves.apart hold.good havoids p ((h.evolves.owns_iff hold.good havoids).2 hown)
      (.inr ⟨v, hv⟩)
  case entries => exact hentries
  case memory => exact h.evolves.userByte_eq hold.good havoids

theorem Isolated.trans (hold : MmWf vm old) {own own' : Uint64 → Prop}
    (h : Evolves own own' vm vm₁)
    (havoids : Avoids vm old.pgt own) (h' : Isolated old child vm₁ vm') :
    Isolated old child vm vm' :=
  ⟨h'.vmas, h'.bytes, h'.perms, h'.frames, h'.entries.trans (h.entryAt_eq hold.good havoids),
    fun va => (h'.memory va).trans (h.userByte_eq hold.good havoids va)⟩

/-- **`fork` copies the address space and isolates it**, and the heap of the child is its copy of
the parent's. -/
theorem fork_isolates {tf : Uint64} (hold : MmWf vm old)
    (hstarts : (old.vma.map Vma.vmStart).Nodup)
    (hcreate : mmCreate tf vm = some (some new, vm₁)) (hcopy : mmCopy old new vm₁ = some
    ((0, child), vm')) :
    Isolated old child vm vm' ∧ ∀ brk ∈ old.vma, ∀ (np p : Proc) (parent : Slot),
      ∃ copy ∈ child.vma, SameRange copy brk ∧ (np.becomeChild p parent child brk.vmStart).vmaBrk =
        copy.addr := by
  have hcreated :=
    (@mmCreate_ends _ True tf hold.good.free (.inl trivial) (.inl trivial)).elim hcreate
  cases hcreated with
  | @created _ obj pgt good evolves entries =>
    have havoids : Avoids vm old.pgt fun _ => False := fun _ _ hno => hno
    have hold₁ := hold.other evolves havoids good.free
    have hcopied := (mmCopyLoop_ends (C := True) hold₁.good (.created good entries)
      (evolves.apart hold.good havoids) (fun vma hvma => ⟨hold.range vma hvma,
        hold.flags vma hvma⟩)
      (fun vma hvma va hva => ⟨_, (hold₁.mapped vma hvma va hva).frame (hold.flags vma hvma)⟩)
      (.inl trivial)).elim hcopy
    cases hcopied with
    | copied h =>
      have hisolated := h.isolated hold₁ rfl (evolves.apart hold.good havoids)
      refine ⟨hisolated.trans hold evolves havoids, fun brk hbrk np p parent => ?_⟩
      rw [← List.nodup_reverse, ← List.map_reverse] at hstarts
      obtain ⟨copy, hcopy, hsame, hfind⟩ :=
        mmFindVma_copy hisolated.vmas hstarts (List.mem_reverse.2 hbrk)
      refine ⟨copy, hcopy, hsame, ?_⟩
      show ((mmFindVma child brk.vmStart).map Vma.addr).getD 0 = _
      rw [mmFindVma, hfind]
      rfl

/-- A parent with one page of data and two pages that it can only read is copied. -/
def copyInit : VmM Int := do
  match ← mmWith ⟨7, 0x1000, 0x2000, PTE_R ||| PTE_W ||| PTE_U⟩ with
  | none => return 1
  | some old =>
    let (r, old) ← mmMappages old ⟨8, 0x5000, 0x7000, PTE_R ||| PTE_U⟩
    if r < 0 then return r
    else
      match ← mmCreate 0x90001000 with
      | none => return 1
      | some new => return (← mmCopy old new).1

/-- A parent with two vmas, and its child. -/
theorem fork_isolates_initVm : ∃ (vm vm' : Vm) (old child : Mm),
    old.vma.map Vma.pages = [[0x5000, 0x6000], [0x1000]] ∧
    Isolated old child vm vm' ∧ ∀ brk ∈ old.vma, ∀ (np p : Proc) (parent : Slot),
      ∃ copy ∈ child.vma, SameRange copy brk ∧ (np.becomeChild p parent child brk.vmStart).vmaBrk =
        copy.addr := by
  have hrun : (copyInit initVm).map Prod.fst = some 0 := by decide +kernel
  obtain ⟨⟨r, vm'⟩, hrun, rfl⟩ := Option.map_eq_some_iff.1 hrun
  obtain ⟨old, vm₁, hold, hrun⟩ := bind_eq_some.1 hrun
  cases old with
  | none => exact absurd (pure_eq_some.1 hrun).1 (by decide)
  | some old =>
    obtain ⟨hwf, hvma⟩ := mmWith_wf freeOk_initVm ⟨by decide, by decide, by decide, by decide⟩
      ⟨by decide, by decide, by decide⟩ hold
    obtain ⟨⟨r, old'⟩, vm₂, hmap, hrun⟩ := bind_eq_some.1 hrun
    have hrange : (⟨8, 0x5000, 0x7000, PTE_R ||| PTE_U⟩ : Vma).InRange :=
      ⟨by decide, by decide, by decide, by decide⟩
    have hflags : UserFlags (PTE_R ||| PTE_U) := ⟨by decide, by decide, by decide⟩
    cases (mmMappages_ends hwf.toTidy hrange hflags).elim hmap with
    | overlap => exact absurd (pure_eq_some.1 hrun).1 (by decide)
    | failed neg =>
      simp only [if_pos neg] at hrun
      exact absurd (pure_eq_some.1 hrun).1 (ne_of_gt neg)
    | mapped hbecomes hmaps =>
      obtain ⟨new, vm₃, hcreate, hrun⟩ := bind_eq_some.1 hrun
      cases new with
      | none => exact absurd (pure_eq_some.1 hrun).1 (by decide)
      | some new =>
        obtain ⟨⟨r, child⟩, vm₄, hcopy, hrun⟩ := bind_eq_some.1 hrun
        obtain ⟨rfl, rfl⟩ := pure_eq_some.1 hrun
        refine ⟨vm₂, _, { old with vma := _ :: old.vma }, child, by rw [hvma]; rfl,
          fork_isolates (hwf.cons hrange hflags hbecomes hmaps) ?_ hcreate hcopy⟩
        rw [hvma]
        show [(0x5000 : Uint64), 0x1000].Nodup
        decide

end SignalOS
