import SignalOS.Vm.Isolation
import SignalOS.Vm.Overlap

/-!
# Copying an address space

* `Copying`, `copyPages_ends` — the loop that copies the pages of a vma.
* `Copied`, `CopyEnds`, `mmCopyLoop_ends` — **`mm_copy` copies all vmas, or gives back
  what it mapped**.
-/

namespace SignalOS

open Partial

variable {vm vm' : Vm} {old new child mm : Mm} {p q : Uint64}

/-! ## The pages of a vma -/

/-- The page at `q` in the bytes `b'` is the page at `p` in the bytes `b`. -/
def PageCopied (b b' : Uint64 → Byte) (p q : Uint64) : Prop :=
  ∀ i < 4096, b' (q + BitVec.ofNat 64 i) = b (p + BitVec.ofNat 64 i)

/-- The kernel can access the page of a frame. -/
theorem pageOf_frame {va : Uint64} (hva : IS_USER_VA va = true)
    (hframe : frameAt vm.pte mm.pgt (vpn va) = some p) (hp : p ≠ 0) :
    pageOf mm va vm = some (p, vm) := by
  have hwalk : walkaddr vm mm va = p := by
    rw [walkaddr_frameAt hva, hframe]
    rfl
  show (kassert (walkaddr vm mm va != 0) >>= fun _ => pure (walkaddr vm mm va) : VmM Uint64) vm = _
  rw [hwalk]
  show (kassert (p != 0) vm).bind _ = _
  rw [kassert_true (bne_iff_ne.2 hp)]
  rfl

/-- The invariant of the loop: the pages that were copied, and the bytes that are as they were. -/
structure Copying (vm : Vm) (pgt pgt' : Uint64) (done : List Uint64) (b : Uint64 → Byte) :
    Prop where
  copied : ∀ va ∈ done, ∀ p q, frameAt vm.pte pgt (vpn va) = some p →
    frameAt vm.pte pgt' (vpn va) = some q → PageCopied vm.byte b p q
  kept : ∀ a, (∀ va ∈ done, frameAt vm.pte pgt' (vpn va) ≠ some (PGROUNDDOWN a)) → b a = vm.byte a

/-- One page more. -/
theorem Copying.step {done : List Uint64} {va : Uint64} {b : Uint64 → Byte}
    (h : Copying vm old.pgt new.pgt done b)
    (hold : Good vm old.pgt) (hnew : Good vm new.pgt) (havoids : Avoids vm old.pgt
    (Owns vm new.pgt))
    (hfresh : ¬ Covers done (vpn va)) (hp : frameAt vm.pte old.pgt (vpn va) = some p)
    (hq : frameAt vm.pte new.pgt (vpn va) = some q) :
    Copying vm old.pgt new.pgt (done ++ [va]) (memmove b q (readBytes b p 4096)) := by
  have hpstart := (hold.owned p (.inr ⟨_, hp⟩)).2.start
  have hqstart := (hnew.owned q (.inr ⟨_, hq⟩)).2.start
  have hstore (a : Uint64) (ha : PGROUNDDOWN a ≠ q) : memmove b q (readBytes b p 4096) a =
      b a := by
    have hpage := @memmove_page b q _ 0 (readBytes b p 4096) hqstart (by simp) ha
    simpa using hpage
  constructor
  case copied =>
    intro va' hva' p' q' hp' hq'
    rcases List.mem_append.1 hva' with hin | hin
    · -- a page that was copied before has another frame
      intro i hi
      have hne : q' ≠ q := by
        rintro rfl
        exact hfresh ⟨va', hin, hnew.frames _ _ _ hq' hq⟩
      have hq'start := (hnew.owned q' (.inr ⟨_, hq'⟩)).2.start
      rw [hstore _ (by rw [PGROUNDDOWN_add hq'start hi]; exact hne)]
      exact h.copied va' hin p' q' hp' hq' i hi
    · obtain rfl := List.mem_singleton.1 hin
      obtain rfl := Option.some.inj (hp'.symm.trans hp)
      obtain rfl := Option.some.inj (hq'.symm.trans hq)
      intro i hi
      have hlen : i < (readBytes b p' 4096).length := by rw [length_readBytes]; exact hi
      rw [memmove_offset hlen (by omega), getElem_readBytes hlen]
      refine h.kept _ fun w _ hw => ?_
      rw [PGROUNDDOWN_add hpstart hi] at hw
      exact havoids p' (.inr ⟨_, hp'⟩) (.inr ⟨_, hw⟩)
  case kept =>
    intro a ha
    have hne : PGROUNDDOWN a ≠ q := fun heq => ha va (by simp) (heq ▸ hq)
    rw [hstore a hne]
    exact h.kept a fun w hw => ha w (List.mem_append_left _ hw)

/-- The loop that copies the pages of a vma. -/
theorem copyPages_ends {pages : List Uint64} (hold : Good vm old.pgt) (hnew : Good vm new.pgt)
    (havoids : Avoids vm old.pgt (Owns vm new.pgt)) (huser : UserPages pages)
    (hnodup : pages.Nodup)
    (hp : ∀ va ∈ pages, ∃ p, frameAt vm.pte old.pgt (vpn va) = some p)
    (hq : ∀ va ∈ pages, ∃ q, frameAt vm.pte new.pgt (vpn va) = some q) :
    Ends (pages.forM fun va => do
      let paOld ← pageOf old va
      let paNew ← pageOf new va
      storeBytes paNew (readBytes (← get).byte paOld 4096)) vm fun _ vm' =>
        ∃ b, vm' = { vm with byte := b } ∧ Copying vm old.pgt new.pgt pages b := by
  refine .forM (fun done vm' => ∃ b, vm' = { vm with byte := b } ∧
    Copying vm old.pgt new.pgt done b) ?_ ?_
  · exact ⟨vm.byte, rfl, fun va hva => absurd hva (by simp), fun _ _ => rfl⟩
  · rintro done va rest vm₁ hlist ⟨b, rfl, hdone⟩
    have hmem : va ∈ pages := by rw [hlist]; simp
    obtain ⟨p, hp⟩ := hp va hmem
    obtain ⟨q, hq⟩ := hq va hmem
    have hva := (huser va hmem).1
    have hp0 := (hold.owned p (.inr ⟨_, hp⟩)).2.ne_zero
    have hq0 := (hnew.owned q (.inr ⟨_, hq⟩)).2.ne_zero
    rw [hlist] at hnodup huser
    refine .bind_of_eq (@pageOf_frame { vm with byte := b } _ _ _ hva hp hp0) ?_
    refine .bind_of_eq (@pageOf_frame { vm with byte := b } _ _ _ hva hq hq0) ?_
    refine .get_bind (.of_eq rfl ⟨memmove b q (readBytes b p 4096), rfl, ?_⟩)
    exact hdone.step hold hnew havoids (not_covers_of_nodup hnodup huser) hp hq

/-! ## `mm_copy` -/

theorem mmCreateVma_ends {C : Prop} (hpool : C ∨ vm.vmaAllocator ≠ []) :
    EndsUnless C mmCreateVma vm fun vma vm' => ∃ obj, vma = ⟨obj, 0, 0, 0⟩ ∧
      vm.vmaAllocator = obj :: vm'.vmaAllocator ∧ vm'.mmAllocator = vm.mmAllocator ∧
        SameMemory vm vm' := by
  cases hlist : vm.vmaAllocator with
  | nil =>
    refine .fail (hpool.resolve_right (not_not.2 hlist)) ?_
    show (kallocVma vm).bind _ = none
    rw [kallocVma, kalloc, hlist]
    rfl
  | cons obj rest =>
    have halloc : kallocVma vm = some (obj, { vm with vmaAllocator := rest }) := by
      rw [kallocVma, kalloc, hlist]
    exact .bind_of_eq halloc (.pure ⟨obj, rfl, rfl, rfl, rfl, rfl, rfl, ⟨rfl, rfl, rfl, rfl⟩⟩)

/-- The same but for the object. -/
structure SameRange (a b : Vma) : Prop where
  start : a.vmStart = b.vmStart
  stop : a.vmEnd = b.vmEnd
  flags : a.pteFlags = b.pteFlags

theorem SameRange.pages {a b : Vma} (h : SameRange a b) : a.pages = b.pages := by
  rw [Vma.pages, Vma.pages, h.start, h.stop]

/-- What `mm_copy` does for the vmas of a list. -/
structure Copied (old new child : Mm) (vmas : List Vma) (vm vm' : Vm) : Prop where
  /-- The new vmas come in the reverse order. -/
  list : ∃ copies, child = { new with vma := copies.reverse ++ new.vma } ∧
    List.Forall₂ SameRange copies vmas ∧ vm.vmaAllocator = copies.map Vma.addr ++ vm'.vmaAllocator
  mms : vm'.mmAllocator = vm.mmAllocator
  wf : MmWf vm' child
  evolves : Evolves (Owns vm new.pgt) (Owns vm' new.pgt) vm vm'
  mapped : ∀ vma ∈ vmas, ∀ va ∈ vma.pages, entryAt vm.pte new.pgt (vpn va) = 0 ∧
    IsMapping vma.pteFlags (entryAt vm'.pte new.pgt (vpn va))
  kept : ∀ v, ¬ Covers (pagesOf vmas) v → entryAt vm'.pte new.pgt v = entryAt vm.pte new.pgt v
  bytes : ∀ a v, frameAt vm.pte new.pgt v = some (PGROUNDDOWN a) → vm'.byte a = vm.byte a
  copied : ∀ vma ∈ vmas, ∀ va ∈ vma.pages, ∀ p q, frameAt vm.pte old.pgt (vpn va) = some p →
    frameAt vm'.pte new.pgt (vpn va) = some q → PageCopied vm.byte vm'.byte p q

/-- How `mm_copy` may end. -/
inductive CopyEnds (old new : Mm) (vmas : List Vma) (vm : Vm) : Int × Mm → Vm → Prop where
  | copied {child : Mm} {vm' : Vm} (h : Copied old new child vmas vm vm') :
    CopyEnds old new vmas vm (0, child) vm'
  | failed {vm' : Vm} (tidy : Tidy vm' { new with vma := [] })
      (evolves : Evolves (Owns vm new.pgt) (Owns vm' new.pgt) vm vm') (mms : vm'.mmAllocator =
      vm.mmAllocator)
      (objs : 0 ∉ vm.vmaAllocator → (vmas.reverse ++ new.vma).Pairwise Clear →
        vm'.vmaAllocator = pushVmas new.vma vm.vmaAllocator) :
      CopyEnds old new vmas vm (-ENOMEM, { new with vma := [] }) vm'

theorem Copied.refl (hnew : MmWf vm new) : Copied old new new [] vm vm :=
  ⟨⟨[], rfl, .nil, rfl⟩, rfl, hnew, Evolves.refl _ vm, fun _ h => absurd h (by simp),
    fun _ _ => rfl,
    fun _ _ _ => rfl, fun _ h => absurd h (by simp)⟩

/-- Taking a page that is not free changes none of its bytes. -/
theorem OnlyTakes.byte_eq (h : OnlyTakes vm vm') (hfree : FreeOk vm) {a : Uint64}
    (ha : PGROUNDDOWN a ∉ vm.freelist) : vm'.byte a = vm.byte a :=
  (h fun p hp => (hfree.managed p hp).start).byte a ha

theorem covers_pagesOf_cons {vma : Vma} {vmas : List Vma} {v : Vpn} :
    Covers (pagesOf (vma :: vmas)) v ↔ Covers vma.pages v ∨ Covers (pagesOf vmas) v := by
  rw [covers_pagesOf, covers_pagesOf]
  simp only [List.mem_cons, exists_eq_or_imp]

/-- The first vma is copied, then the others. -/
theorem Copied.cons {vma : Vma} {vmas : List Vma} {vm₁ : Vm} {b : Uint64 → Byte}
    {E' : Vpn → Uint64} {obj : Uint64}
    (hold : Good vm old.pgt) (hnew : MmWf vm new) (havoids : Avoids vm old.pgt (Owns vm new.pgt))
    (hflags : UserFlags vma.pteFlags)
    (hobj : vm.vmaAllocator = obj :: vm₁.vmaAllocator) (hmms : vm₁.mmAllocator = vm.mmAllocator)
    (hchanges : Changes new.pgt E' vm vm₁) (hmaps : Maps vma.pteFlags vma.pages
    (entryAt vm.pte new.pgt) E')
    (htakes : OnlyTakes vm vm₁) (hcopying : Copying vm₁ old.pgt new.pgt vma.pages b)
    (hrest : Copied old { new with vma := { vma with addr := obj } :: new.vma } child vmas
      { vm₁ with byte := b } vm') :
    Copied old new child (vma :: vmas) vm vm' := by
  have hold₁ : entryAt vm₁.pte old.pgt = entryAt vm.pte old.pgt :=
    hchanges.evolves.entryAt_eq hold havoids
  -- a page of this vma is not one of the others
  have hrest₁ {va : Uint64} (hva : va ∈ vma.pages) : ¬ Covers (pagesOf vmas) (vpn va) := by
    intro hcov
    obtain ⟨w, hw, va', hva', heq⟩ := covers_pagesOf.1 hcov
    have hzero := (hrest.mapped w hw va' hva').1
    have hvalid := isMapping_valid (hmaps.new (vpn va) ⟨va, hva, rfl⟩).2
    rw [heq] at hzero
    rw [← hchanges.entries] at hvalid
    exact hvalid (by rw [show entryAt vm₁.pte new.pgt (vpn va) = 0 from hzero]; exact zero_and_V)
  have hentry {va : Uint64} (hva : va ∈ vma.pages) :
      entryAt vm'.pte new.pgt (vpn va) = entryAt vm₁.pte new.pgt (vpn va) :=
        hrest.kept _ (hrest₁ hva)
  -- a frame that was there before is kept by all steps
  have hframe₁ {v : Vpn} {f : Uint64} (hv : frameAt vm.pte new.pgt v = some f) :
    frameAt vm₁.pte new.pgt v = some f ∧
      ¬ Covers vma.pages v := by
    have hcov : ¬ Covers vma.pages v := by
      intro hcov
      rw [frameAt, (hmaps.new v hcov).1, frameOf_zero] at hv
      exact absurd hv (by simp)
    rw [frameAt, hchanges.entries, hmaps.old v hcov]
    exact ⟨hv, hcov⟩
  have hbyteOld {f : Uint64} {v : Vpn} (hf : frameAt vm.pte old.pgt v = some f) {i : Nat}
    (hi : i < 4096) :
      vm₁.byte (f + BitVec.ofNat 64 i) = vm.byte (f + BitVec.ofNat 64 i) ∧
        b (f + BitVec.ofNat 64 i) = vm.byte (f + BitVec.ofNat 64 i) := by
    have hown : Owns vm old.pgt f := .inr ⟨v, hf⟩
    have hstart := (hold.owned f hown).2.start
    have hstep := htakes.byte_eq hold.free (a := f + BitVec.ofNat 64 i)
      (by rw [PGROUNDDOWN_add hstart hi]; exact (hold.owned f hown).1)
    refine ⟨hstep, hstep ▸ hcopying.kept _ fun w _ hw => ?_⟩
    rw [PGROUNDDOWN_add hstart hi] at hw
    have hown₁ : Owns vm₁ old.pgt f := (hchanges.evolves.owns_iff hold havoids).2 hown
    exact hchanges.evolves.apart hold havoids f hown₁ (.inr ⟨_, hw⟩)
  constructor
  case list =>
    obtain ⟨copies, rfl, hranges, hobjs⟩ := hrest.list
    refine ⟨{ vma with addr := obj } :: copies, ?_, .cons ⟨rfl, rfl, rfl⟩ hranges, ?_⟩
    · simp
    · rw [hobj]
      exact congrArg _ hobjs
  case mms => exact hrest.mms.trans hmms
  case wf => exact hrest.wf
  case evolves =>
    have hgood₁ := hchanges.good
    refine hchanges.evolves.trans (Evolves.trans ?_ hrest.evolves)
    refine ⟨fun _ _ _ => rfl, fun a hown _ => hcopying.kept a fun w _ hw => hown (.inr ⟨_, hw⟩),
      fun _ => Iff.rfl,
      ⟨rfl, rfl, rfl, rfl⟩⟩
  case mapped =>
    intro w hw va hva
    rcases List.mem_cons.1 hw with rfl | hw
    · rw [hentry hva, hchanges.entries]
      exact hmaps.new _ ⟨va, hva, rfl⟩
    · obtain ⟨hzero, hmap⟩ := hrest.mapped w hw va hva
      refine ⟨?_, hmap⟩
      have hcov : ¬ Covers vma.pages (vpn va) := by
        rintro ⟨va', hva', heq⟩
        exact hrest₁ hva' (heq ▸ covers_pagesOf.2 ⟨w, hw, va, hva, rfl⟩)
      rw [← hmaps.old _ hcov, ← hchanges.entries]
      exact hzero
  case kept =>
    intro v hv
    rw [covers_pagesOf_cons, not_or] at hv
    rw [hrest.kept v hv.2]
    show entryAt vm₁.pte new.pgt v = _
    rw [hchanges.entries, hmaps.old v hv.1]
  case bytes =>
    intro a v hv
    obtain ⟨hv₁, hcov⟩ := hframe₁ hv
    have hown : Owns vm new.pgt (PGROUNDDOWN a) := .inr ⟨v, hv⟩
    rw [hrest.bytes a v hv₁]
    show b a = _
    rw [hcopying.kept a fun w hw hframe => ?_, htakes.byte_eq hold.free (hnew.good.owned _ hown).1]
    exact hcov ⟨w, hw, hchanges.good.frames _ _ _ hframe hv₁⟩
  case copied =>
    intro w hw va hva p q hp hq i hi
    have hp₁ : frameAt vm₁.pte old.pgt (vpn va) = some p := by
      rw [frameAt, hold₁]
      exact hp
    rcases List.mem_cons.1 hw with rfl | hw
    · have hq₁ : frameAt vm₁.pte new.pgt (vpn va) = some q := by
        rw [frameAt, ← hentry hva]
        exact hq
      have hqstart := (hchanges.good.owned q (.inr ⟨_, hq₁⟩)).2.start
      rw [hrest.bytes _ (vpn va) (by rw [PGROUNDDOWN_add hqstart hi]; exact hq₁)]
      show b _ = _
      rw [hcopying.copied va hva p q hp₁ hq₁ i hi, (hbyteOld hp hi).1]
    · rw [hrest.copied w hw va hva p q hp₁ hq i hi]
      exact (hbyteOld hp hi).2

/-- The end of `mm_copy` after `mm_mappages` failed. -/
theorem mmCopyLoop_err {vma : Vma} {vmas : List Vma} {vm₁ : Vm} (htidy : Tidy vm₁ new)
    (hevolves : Evolves (Owns vm new.pgt) (Owns vm₁ new.pgt) vm vm₁)
    (hmms : vm₁.mmAllocator = vm.mmAllocator)
    (hobjs : 0 ∉ vm.vmaAllocator → ((vma :: vmas).reverse ++ new.vma).Pairwise Clear →
      vm₁.vmaAllocator = vm.vmaAllocator) :
    Ends (do return (-ENOMEM, ← mmFreeVmas new)) vm₁ (CopyEnds old new (vma :: vmas) vm) := by
  refine .bind (mmFreeVmas_ends htidy) fun mm' vm₂ ⟨hmm', hchanges, hmms', hvmas'⟩ => ?_
  subst hmm'
  refine .pure (.failed (htidy.emptied hchanges) (hevolves.trans hchanges.evolves)
    (hmms'.trans hmms) fun hne hclear => ?_)
  rw [hvmas', hobjs hne hclear]

/-- **`mm_copy` copies all vmas, or gives back what it mapped.** -/
theorem mmCopyLoop_ends {C : Prop} {vmas : List Vma} (hold : Good vm old.pgt) (hnew : MmWf vm new)
    (havoids : Avoids vm old.pgt (Owns vm new.pgt))
    (hvmas : ∀ vma ∈ vmas, vma.InRange ∧ UserFlags vma.pteFlags)
    (hframes : ∀ vma ∈ vmas, ∀ va ∈ vma.pages, ∃ p, frameAt vm.pte old.pgt (vpn va) = some p)
    (hpool : C ∨ vmas.length ≤ vm.vmaAllocator.length) :
    EndsUnless C (mmCopyLoop old new vmas) vm (CopyEnds old new vmas vm) := by
  induction vmas generalizing vm new with
  | nil => exact .pure (.copied (Copied.refl hnew))
  | cons vma vmas ih =>
    obtain ⟨hrange, hflags⟩ := hvmas vma List.mem_cons_self
    have hne : C ∨ vm.vmaAllocator ≠ [] := hpool.imp_right fun hlen hnil => by simp [hnil] at hlen
    refine .bind (mmCreateVma_ends hne) fun _ vm₀ hcreate => ?_
    obtain ⟨obj, rfl, hobj, hmms₀, hsame⟩ := hcreate
    have hnew₀ : MmWf vm₀ new := hnew.of_entries (hsame.changes hnew.good).good (by rw [hsame.pte])
    have hmap := @mmMappages_ends _ _ { vma with addr := obj } hnew₀.toTidy
      ⟨hrange.start, hrange.stop, hrange.high, hrange.low⟩ hflags
    refine .bind (hmap.unless C) fun r vm₁ hr => ?_
    cases hr with
    | mapped hbecomes hmaps htakes =>
      refine .ite (fun hno => absurd rfl hno) fun _ => ?_
      rw [hsame.pte] at hmaps
      have hchanges := (hsame.changes hnew.good).trans hbecomes.toChanges
      have htakes := OnlyTakes.trans vm vm₀ vm₁ (onlyTakes_of_eq hsame.freelist hsame.byte) htakes
      have hnew₁ : MmWf vm₁ { new with vma := { vma with addr := obj } :: new.vma } :=
        hnew₀.cons ⟨hrange.start, hrange.stop, hrange.high, hrange.low⟩ hflags hbecomes
          (hsame.pte ▸ hmaps)
      have hold₁ := hold.other hchanges.evolves havoids hchanges.good.free
      have havoids₁ : Avoids vm₁ old.pgt (Owns vm₁ new.pgt) := hchanges.evolves.apart hold havoids
      have hframes₁ : frameAt vm₁.pte old.pgt = frameAt vm.pte old.pgt := by
        funext v
        rw [frameAt, frameAt, hchanges.evolves.entryAt_eq hold havoids]
      have hcopy :=
        @copyPages_ends _ old { new with vma := { vma with addr := obj } :: new.vma }
          vma.pages hold₁
          hchanges.good havoids₁ hrange.userPages (nodup_pagesBetween _ _)
          (fun va hva => hframes₁ ▸ hframes vma List.mem_cons_self va hva) fun va hva => by
            rw [frameAt, hchanges.entries]
            exact (hmaps.new _ ⟨va, hva, rfl⟩).2.frame hflags
      refine .bind (hcopy.unless C) fun _ vm₂ hcopied => ?_
      obtain ⟨b, rfl, hcopying⟩ := hcopied
      have hsame₂ : Static vm₁ { vm₁ with byte := b } := ⟨rfl, rfl, rfl, rfl⟩
      have hlen : C ∨ vmas.length ≤ vm₁.vmaAllocator.length := hpool.imp_right fun hlen => by
        rw [hobj, List.length_cons, List.length_cons] at hlen
        rw [hbecomes.pools.vma]
        omega
      have hbytes : Evolves (Owns vm₁ new.pgt) (Owns { vm₁ with byte := b } new.pgt) vm₁
          { vm₁ with byte := b } :=
        ⟨fun _ _ _ => rfl, fun a hown _ => hcopying.kept a fun w _ hw => hown (.inr ⟨_, hw⟩),
          fun _ => Iff.rfl, hsame₂⟩
      have hloop := @ih { vm₁ with byte := b } _ (hold₁.of_same rfl rfl fun _ => hsame₂.manages)
        (hnew₁.of_entries (hnew₁.good.of_same rfl rfl fun _ => hsame₂.manages) rfl) havoids₁
        (fun w hw => hvmas w (List.mem_cons_of_mem _ hw))
        (fun w hw va hva => hframes₁ ▸ hframes w (List.mem_cons_of_mem _ hw) va hva) hlen
      refine hloop.mono fun r vm' hend => ?_
      have hobj₁ : vm.vmaAllocator = obj :: vm₁.vmaAllocator := by rw [hobj, hbecomes.pools.vma]
      have hmms₁ : vm₁.mmAllocator = vm.mmAllocator := hbecomes.pools.mm.trans hmms₀
      cases hend with
      | copied hrest =>
        exact .copied (hrest.cons hold hnew havoids hflags hobj₁ hmms₁ hchanges hmaps htakes
          hcopying)
      | failed tidy evolves mms objs =>
        refine .failed tidy (hchanges.evolves.trans (hbytes.trans evolves)) (mms.trans hmms₁)
          fun hne hclear => ?_
        have hobj0 : obj ≠ 0 := fun heq => hne (by rw [hobj, heq]; exact List.mem_cons_self)
        rw [objs (fun hin => hne (by rw [hobj₁]; exact List.mem_cons_of_mem _ hin)) ?_]
        · show pushVmas new.vma (pushObj obj vm₁.vmaAllocator) = _
          rw [pushObj, if_neg hobj0, hobj₁]
        · -- the copy of the vma is as clear of the others as the vma itself
          rw [List.reverse_cons, List.append_assoc, List.singleton_append] at hclear
          rw [List.pairwise_append, List.pairwise_cons] at hclear ⊢
          obtain ⟨hleft, ⟨hmid, hright⟩, hcross⟩ := hclear
          refine ⟨hleft, ⟨hmid, hright⟩, fun a ha w hw => ?_⟩
          rcases List.mem_cons.1 hw with rfl | hw
          · exact hcross a ha vma List.mem_cons_self
          · exact hcross a ha w (List.mem_cons_of_mem _ hw)
    | overlap hoverlap =>
      refine .ite (fun _ => ?_) fun hno => absurd (show -EINVAL ≠ 0 by decide) hno
      refine (mmCopyLoop_err hnew₀.toTidy ((hsame.evolves _).congr (fun _ => Iff.rfl) fun _ =>
        hsame.owns) hmms₀
        fun _ hclear => ?_).unless C
      obtain ⟨w, hw, hnot⟩ := not_clear_of_overlap hoverlap
      rw [List.reverse_cons, List.append_assoc] at hclear
      exact absurd ((List.pairwise_cons.1 (List.pairwise_append.1 hclear).2.1).1 w hw) hnot
    | failed neg changes mms vmas' =>
      refine .ite (fun _ => ?_) fun hno => absurd (ne_of_lt neg) hno
      have hchanges := (hsame.changes hnew.good).trans changes
      refine (mmCopyLoop_err (hnew₀.toTidy.of_unmapped changes) hchanges.evolves (mms.trans hmms₀)
        fun hne _ => ?_).unless C
      have hobj0 : obj ≠ 0 := fun heq => hne (by rw [hobj, heq]; exact List.mem_cons_self)
      rw [vmas', pushObj, if_neg hobj0, hobj]

end SignalOS
