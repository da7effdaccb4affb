import SignalOS.Proc.Stack

/-!
# Building an image

* `Loaded`, `LoadEnds`, `loadPhdrs_ends` — **the loop over the program headers** loads all
  segments, or stops at one that does not get its pages.
-/

namespace SignalOS

open LittleEndian Partial

variable {vm vm' : Vm} {mm mm' : Mm} {app : UserApp} {phdr : Phdr} {phdrs : List Phdr}

/-! ## The segments -/

/-- The program headers that are loaded. -/
def loads (phdrs : List Phdr) : List Phdr := phdrs.filter (·.pType = PT_LOAD)

theorem UserApp.hasBytes (app : UserApp) (h : phdr ∈ loads app.phdrs) :
    HasBytes app.file phdr.pOffset phdr.pFilesz.toNat := by
  obtain ⟨hmem, htype⟩ := List.mem_filter.1 h
  exact app.segments phdr hmem (of_decide_eq_true htype)

/-- The vmas of segments, the last one first. -/
def segmentVmas (phdrs : List Phdr) (objs : List Uint64) : List Vma :=
  (List.zipWith Phdr.vma phdrs objs).reverse

/-- The end of the highest segment. -/
def highest (start : Uint64) (phdrs : List Phdr) : Uint64 :=
  phdrs.foldl (fun top phdr => MAX top (PGROUNDUP (phdr.pVaddr + phdr.pMemsz))) start

/-- These segments were loaded. -/
structure Loaded (app : UserApp) (phdrs : List Phdr) (mm mm' : Mm) (vm vm' : Vm) : Prop where
  list : ∃ objs, objs.length = phdrs.length ∧
    mm' = { mm with vma := segmentVmas phdrs objs ++ mm.vma } ∧
    vm.vmaAllocator = objs ++ vm'.vmaAllocator
  mms : vm'.mmAllocator = vm.mmAllocator
  wf : MmWf vm' mm'
  evolves : Evolves (Owns vm mm.pgt) (Owns vm' mm.pgt) vm vm'
  holds : ∀ phdr ∈ phdrs, PagesHold vm' mm phdr.pVaddr phdr.npages (segmentByte app phdr)
  kept : ∀ va, userByte vm mm va ≠ none → userByte vm' mm va = userByte vm mm va

/-- How the loop over the program headers may end. -/
inductive LoadEnds (app : UserApp) (phdrs : List Phdr) (top : Uint64) (mm : Mm) (vm : Vm) :
    Build (Mm × Uint64) → Vm → Prop where
  | ok {mm' : Mm} {vm' : Vm} (loaded : Loaded app (loads phdrs) mm mm' vm vm') :
      LoadEnds app phdrs top mm vm (.ok (mm', highest top (loads phdrs))) vm'
  | bad {ret : Int} {vm' : Vm} {vmas : List Vma} (neg : ret < 0)
    (tidy : Tidy vm' { mm with vma := vmas ++ mm.vma })
      (evolves : Evolves (Owns vm mm.pgt) (Owns vm' mm.pgt) vm vm') (mms : vm'.mmAllocator =
      vm.mmAllocator)
      (pool : 0 ∉ vm.vmaAllocator → (segmentVmas (loads phdrs) ((loads phdrs).map fun _ => 0) ++
      mm.vma).Pairwise Clear →
        vm.vmaAllocator = (vmas.map Vma.addr).reverse ++ vm'.vmaAllocator) :
      LoadEnds app phdrs top mm vm (.bad ret { mm with vma := vmas ++ mm.vma }) vm'

theorem Loaded.refl (h : MmWf vm mm) : Loaded app [] mm mm vm vm :=
  ⟨⟨[], rfl, rfl, rfl⟩, rfl, h, Evolves.refl _ vm, fun _ hphdr => absurd hphdr (by simp),
    fun _ _ => rfl⟩

theorem segmentVmas_cons (phdr : Phdr) (phdrs : List Phdr) (obj : Uint64) (objs : List Uint64)
    (vmas : List Vma) :
    segmentVmas (phdr :: phdrs) (obj :: objs) ++ vmas = segmentVmas phdrs objs ++ phdr.vma obj ::
      vmas := by
  simp [segmentVmas]

/-- The pages of a segment that hold its bytes still do when what the user can read is kept. -/
theorem PagesHold.kept {base : Uint64} {n : Nat} {f : Nat → Byte} (h : PagesHold vm mm base n f)
    (hkept : ∀ va, userByte vm mm va ≠ none → userByte vm' mm va = userByte vm mm va) :
    PagesHold vm' mm base n f := by
  intro t ht i hi
  have hbyte := h t ht i hi
  rw [hkept _ (by rw [hbyte]; simp), hbyte]

/-- The first segment, then the others. -/
theorem Loaded.cons {obj : Uint64} {vm₁ : Vm} (hnew : NewVma (phdr.vma obj) mm vm vm₁)
    (hholds : PagesHold vm₁ mm phdr.pVaddr phdr.npages (segmentByte app phdr))
    (hrest : Loaded app phdrs { mm with vma := phdr.vma obj :: mm.vma } mm' vm₁ vm') :
    Loaded app (phdr :: phdrs) mm mm' vm vm' := by
  obtain ⟨objs, hlen, hmm, hobjs⟩ := hrest.list
  refine ⟨⟨obj :: objs, by simp [hlen], ?_, ?_⟩, hrest.mms.trans hnew.mms, hrest.wf,
    hnew.evolves.trans hrest.evolves, fun w hw => ?_, fun va hva => ?_⟩
  · rw [hmm, segmentVmas_cons]
  · rw [hnew.pool, hobjs]
    rfl
  · rcases List.mem_cons.1 hw with rfl | hw
    · exact hholds.kept hrest.kept
    · exact hrest.holds w hw
  · have hva₁ := hnew.kept va hva
    rw [← hva₁] at hva ⊢
    exact hrest.kept va hva

/-- **The loop over the program headers.** -/
theorem loadPhdrs_ends {C : Prop} {top : Uint64} (h : ∀ phdr ∈ loads phdrs, phdr.Loadable)
    (hbytes : ∀ phdr ∈ loads phdrs, HasBytes app.file phdr.pOffset phdr.pFilesz.toNat)
    (hwf : MmWf vm mm) (hpool : C ∨ (loads phdrs).length ≤ vm.vmaAllocator.length) :
    EndsUnless C (loadPhdrs app phdrs mm top) vm (LoadEnds app phdrs top mm vm) := by
  induction phdrs generalizing vm mm top with
  | nil => exact .pure (.ok (Loaded.refl hwf))
  | cons phdr phdrs ih =>
    by_cases htype : phdr.pType = PT_LOAD
    case neg =>
      have hloads : loads (phdr :: phdrs) = loads phdrs :=
        List.filter_cons_of_neg (by simp [htype])
      rw [hloads] at h hbytes hpool
      refine .ite (fun _ => (ih h hbytes hwf hpool).mono fun r vm' hr => ?_)
        fun hno => absurd htype hno
      cases hr with
      | ok loaded =>
        rw [← hloads] at loaded ⊢
        exact .ok loaded
      | bad neg tidy evolves mms pool => exact .bad neg tidy evolves mms (by rwa [hloads])
    have hloads : loads (phdr :: phdrs) = phdr :: loads phdrs :=
      List.filter_cons_of_pos (by simp [htype])
    rw [hloads] at h hbytes hpool
    refine .ite (fun hno => absurd htype hno) fun _ => ?_
    have hne : C ∨ vm.vmaAllocator ≠ [] := hpool.imp_right fun hlen hnil => by simp [hnil] at hlen
    refine .bind (loadPhdr_ends (h phdr List.mem_cons_self) (hbytes phdr List.mem_cons_self) hwf
      hne) fun r vm₁ hr => ?_
    cases hr with
    | @ok obj _ hnew hholds =>
      have hlen : C ∨ (loads phdrs).length ≤ vm₁.vmaAllocator.length :=
        hpool.imp_right fun hlen => by
          rw [hnew.pool, List.length_cons, List.length_cons] at hlen
          omega
      refine (ih (fun w hw => h w (List.mem_cons_of_mem _ hw))
        (fun w hw => hbytes w (List.mem_cons_of_mem _ hw)) hnew.wf hlen).mono
        fun r vm' hr => ?_
      cases hr with
      | ok loaded =>
        have hall := Loaded.cons hnew hholds loaded
        rw [← hloads] at hall
        have hend := @LoadEnds.ok _ _ top _ _ _ _ hall
        rw [hloads] at hend
        exact hend
      | @bad ret _ vmas neg tidy evolves mms pool =>
        have hvmas : vmas ++ phdr.vma obj :: mm.vma = (vmas ++ [phdr.vma obj]) ++ mm.vma := by simp
        have hend := @LoadEnds.bad app (phdr :: phdrs) top mm vm _ _ (vmas ++ [phdr.vma obj])
          neg (by rw [← hvmas]; exact tidy) (hnew.evolves.trans evolves)
          (mms.trans hnew.mms) fun hnull hclear => ?_
        · rw [← hvmas] at hend
          exact hend
        · rw [hnew.pool, pool (fun hin =>
            hnull (by rw [hnew.pool]; exact List.mem_cons_of_mem _ hin)) ?_]
          · simp
          · -- whether vmas are clear of each other does not depend on their objects
            rw [hloads, List.map_cons, segmentVmas_cons, List.pairwise_append, List.pairwise_cons]
              at hclear
            obtain ⟨hleft, ⟨hmid, hright⟩, hcross⟩ := hclear
            rw [List.pairwise_append, List.pairwise_cons]
            refine ⟨hleft, ⟨hmid, hright⟩, fun a ha w hw => ?_⟩
            rcases List.mem_cons.1 hw with rfl | hw
            · exact hcross a ha (phdr.vma 0) List.mem_cons_self
            · exact hcross a ha w (List.mem_cons_of_mem _ hw)
    | @bad ret _ obj hnone =>
      have hend := @LoadEnds.bad app (phdr :: phdrs) top mm vm _ _ []
        hnone.neg hnone.tidy hnone.evolves hnone.mms fun hnull hclear => ?_
      · exact .pure hend
      · rw [hloads, List.map_cons, segmentVmas_cons, List.pairwise_append, List.pairwise_cons]
          at hclear
        exact (hnone.objs hnull hclear.2.1.1).symm

/-! ## The image -/

/-- The vma of the heap, which is empty. -/
def heapVma (brk obj : Uint64) : Vma := ⟨obj, brk, brk, PTE_R ||| PTE_W ||| PTE_U⟩

/-- The vma of the user stack. -/
def stackVma (obj : Uint64) : Vma :=
  ⟨obj, USTACK_START - USTACK_SIZE, USTACK_START, PTE_R ||| PTE_W ||| PTE_U⟩

theorem userFlags_data : UserFlags (PTE_R ||| PTE_W ||| PTE_U) := ⟨by decide, by decide, by decide⟩

/-- The vmas of an image without its stack, the last one first. -/
def programVmas (phdrs : List Phdr) (objs : List Uint64) (b : Uint64) : List Vma :=
  heapVma (highest 0 phdrs) b :: segmentVmas phdrs objs

/-- All vmas of an image. -/
def imageVmas (phdrs : List Phdr) (objs : List Uint64) (b s : Uint64) : List Vma :=
  stackVma s :: programVmas phdrs objs b

/-- The highest segment ends at a page, below the trapframe. -/
theorem highest_bounds {start : Uint64} (h : ∀ phdr ∈ phdrs, phdr.Loadable)
    (hstart : PageStart start) (hlow : start.toNat ≤ TRAPFRAME.toNat) :
    PageStart (highest start phdrs) ∧ (highest start phdrs).toNat ≤ TRAPFRAME.toNat := by
  induction phdrs generalizing start with
  | nil => exact ⟨hstart, hlow⟩
  | cons phdr phdrs ih =>
    have hphdr := h phdr List.mem_cons_self
    have hend : PGROUNDUP (phdr.pVaddr + phdr.pMemsz) = (phdr.vma 0).vmEnd := by
      rw [Phdr.vma, hphdr.page.down]
    have hstop : (phdr.vma 0).vmEnd.toNat ≤ TRAPFRAME.toNat := by
      rw [hphdr.toNat_stop]
      exact hphdr.low
    rw [highest, List.foldl_cons, ← highest, hend]
    refine ih (fun w hw => h w (List.mem_cons_of_mem _ hw)) ?_ ?_
    · rw [MAX]
      split
      · exact hstart
      · exact (hphdr.inRange 0).stop
    · rw [MAX]
      split
      · exact hlow
      · exact hstop

theorem heapVma_inRange {brk : Uint64} (h : PageStart brk) (hlow : brk.toNat ≤ TRAPFRAME.toNat)
    (obj : Uint64) : (heapVma brk obj).InRange :=
  ⟨h, h, BitVec.le_def.2 (hlow.trans (by decide)), BitVec.le_def.2 hlow⟩

theorem stackVma_inRange (obj : Uint64) : (stackVma obj).InRange :=
  ⟨(by decide : PageStart (USTACK_START - USTACK_SIZE)), (by decide : PageStart USTACK_START),
    (by decide : USTACK_START - USTACK_SIZE ≤ MAXVA), (by decide : USTACK_START ≤ TRAPFRAME)⟩

/-- User memory holds the image: the segments, the arguments, and zeros below them. -/
structure ImageHolds (app : UserApp) (args : List (List Byte)) (img : Image) (mm : Mm) (vm : Vm) :
    Prop where
  segments : ∀ phdr ∈ loads app.phdrs, PagesHold vm mm phdr.pVaddr phdr.npages
    (segmentByte app phdr)
  zeros : ∀ va, Between stackBase img.sp.toNat va → userByte vm mm va = some 0
  argv : ∃ uargv, List.Forall₂ (OnStack vm mm img.uargvPtr.toNat) uargv args ∧
    UserHolds vm mm img.uargvPtr (bytesOfWords (uargv ++ [0]))

/-- It is a matter of user memory alone. -/
theorem ImageHolds.congr {args : List (List Byte)} {img : Image}
    (h : ImageHolds app args img mm vm)
    (hsame : ∀ va, userByte vm' mm' va = userByte vm mm va) : ImageHolds app args img mm' vm' := by
  obtain ⟨uargv, hstrings, hvector⟩ := h.argv
  refine ⟨fun phdr hphdr t ht i hi => ?_, fun va hva => ?_, uargv, ?_, fun j hj => ?_⟩
  · rw [hsame, h.segments phdr hphdr t ht i hi]
  · rw [hsame, h.zeros va hva]
  · refine hstrings.imp fun ptr arg hon => ⟨hon.low, hon.high, fun j hj => ?_⟩
    rw [hsame, hon.holds j hj]
  · rw [hsame, hvector j hj]

/-- An image was built. -/
structure ImageBuilt (app : UserApp) (args : List (List Byte)) (mm : Mm) (vm : Vm) (img : Image)
    (vm' : Vm) : Prop where
  list : ∃ objs b s, objs.length = (loads app.phdrs).length ∧
    img.mm = { mm with vma := imageVmas (loads app.phdrs) objs b s ++ mm.vma } ∧ img.vmaBrk = b ∧
    vm.vmaAllocator = objs ++ b :: s :: vm'.vmaAllocator
  brk : img.brk = highest 0 (loads app.phdrs)
  mms : vm'.mmAllocator = vm.mmAllocator
  wf : MmWf vm' img.mm
  evolves : Evolves (Owns vm mm.pgt) (Owns vm' mm.pgt) vm vm'
  holds : ImageHolds app args img img.mm vm'

/-- How building an image may end. -/
inductive BuildEnds (app : UserApp) (args : List (List Byte)) (mm : Mm) (vm : Vm) : Build Image →
    Vm → Prop where
  | ok {img : Image} {vm' : Vm} (built : ImageBuilt app args mm vm img vm') :
    BuildEnds app args mm vm (.ok img) vm'
  | bad {ret : Int} {vm' : Vm} {vmas : List Vma} (neg : ret < 0)
    (tidy : Tidy vm' { mm with vma := vmas ++ mm.vma })
      (evolves : Evolves (Owns vm mm.pgt) (Owns vm' mm.pgt) vm vm') (mms : vm'.mmAllocator =
      vm.mmAllocator)
      (pool : 0 ∉ vm.vmaAllocator →
        (imageVmas (loads app.phdrs) ((loads app.phdrs).map fun _ => 0) 0 0 ++ mm.vma).Pairwise
          Clear →
        vm.vmaAllocator = (vmas.map Vma.addr).reverse ++ vm'.vmaAllocator) :
      BuildEnds app args mm vm (.bad ret { mm with vma := vmas ++ mm.vma }) vm'

/-- The objects of the segments' vmas. -/
theorem addrs_segmentVmas {objs : List Uint64} (h : objs.length = phdrs.length) :
    ((segmentVmas phdrs objs).map Vma.addr).reverse = objs := by
  rw [segmentVmas, List.map_reverse, List.reverse_reverse]
  induction phdrs generalizing objs with
  | nil => exact (List.length_eq_zero_iff.1 h).symm
  | cons phdr phdrs ih =>
    cases objs with
    | nil => exact absurd h (by simp)
    | cons obj objs =>
      rw [List.zipWith_cons_cons, List.map_cons, ih (Nat.succ.inj h)]
      rfl

theorem mem_segmentVmas {w : Vma} {objs : List Uint64} (h : w ∈ segmentVmas phdrs objs) :
    ∃ phdr ∈ phdrs, ∃ obj, w = phdr.vma obj := by
  rw [segmentVmas, List.mem_reverse] at h
  induction phdrs generalizing objs with
  | nil => exact absurd h (by simp)
  | cons phdr phdrs ih =>
    cases objs with
    | nil => exact absurd h (by simp)
    | cons obj objs =>
      rw [List.zipWith_cons_cons, List.mem_cons] at h
      rcases h with rfl | h
      · exact ⟨phdr, List.mem_cons_self, obj, rfl⟩
      · obtain ⟨phdr', hphdr', hw⟩ := ih h
        exact ⟨phdr', List.mem_cons_of_mem _ hphdr', hw⟩

theorem mem_segmentVmas_of_mem (h : phdr ∈ phdrs) :
    phdr.vma 0 ∈ segmentVmas phdrs (phdrs.map fun _ => 0) := by
  rw [segmentVmas, List.mem_reverse, List.zipWith_map_right, List.zipWith_self]
  exact List.mem_map.2 ⟨phdr, h, rfl⟩

theorem hasStack {s : Uint64} {vmas : List Vma}
    (hwf : MmWf vm { mm with vma := stackVma s :: vmas }) :
    HasStack vm { mm with vma := stackVma s :: vmas } := by
  refine ⟨hwf.good, fun page hpage => ?_⟩
  exact ⟨_, (hwf.mapped (stackVma s) List.mem_cons_self page hpage).frame userFlags_data⟩

section Build

variable {args : List (List Byte)} {objs : List Uint64} {b s : Uint64} {vm₁ vm₂ vm₃ : Vm}
  {img : Image} {ret : Int}
  (hlen : objs.length = (loads app.phdrs).length) (hobjs : vm.vmaAllocator = objs ++
    vm₁.vmaAllocator)
  (loaded : Loaded app (loads app.phdrs) mm
    { mm with vma := segmentVmas (loads app.phdrs) objs ++ mm.vma } vm vm₁)

include hlen hobjs loaded

/-- The heap was not mapped. -/
theorem BuildEnds.no_heap (none : NoVma (heapVma (highest 0 (loads app.phdrs)) b)
      { mm with vma := segmentVmas (loads app.phdrs) objs ++ mm.vma } vm₁ ret vm₂) :
    BuildEnds app args mm vm (.bad ret
      { mm with vma := segmentVmas (loads app.phdrs) objs ++ mm.vma }) vm₂ := by
  refine .bad none.neg none.tidy (loaded.evolves.trans none.evolves) (none.mms.trans loaded.mms)
    fun hnull _ => ?_
  have hnull₁ : 0 ∉ vm₁.vmaAllocator :=
    fun hin => hnull (by rw [hobjs]; exact List.mem_append_right _ hin)
  -- an empty range is clear of every vma
  rw [addrs_segmentVmas hlen, none.objs hnull₁ fun w _ => .inl rfl, hobjs]

variable (heap : NewVma (heapVma (highest 0 (loads app.phdrs)) b)
  { mm with vma := segmentVmas (loads app.phdrs) objs ++ mm.vma } vm₁ vm₂)

include heap

/-- The stack was not mapped. -/
theorem BuildEnds.no_stack (none : NoVma (stackVma s)
      { mm with vma := programVmas (loads app.phdrs) objs b ++ mm.vma } vm₂ ret vm₃) :
    BuildEnds app args mm vm (.bad ret
      { mm with vma := programVmas (loads app.phdrs) objs b ++ mm.vma }) vm₃ := by
  refine .bad none.neg none.tidy ((loaded.evolves.trans heap.evolves).trans none.evolves)
    (none.mms.trans (heap.mms.trans loaded.mms)) fun hnull hclear => ?_
  have hnull₂ : 0 ∉ vm₂.vmaAllocator := fun hin => hnull (by
    rw [hobjs, heap.pool]
    exact List.mem_append_right _ (List.mem_cons_of_mem _ hin))
  rw [programVmas, List.map_cons, List.reverse_cons, addrs_segmentVmas hlen,
    none.objs hnull₂ fun w hw => ?_, hobjs, heap.pool]
  · simp
  · -- the stack is clear of the vmas whatever their objects are
    have hfirst := (List.pairwise_cons.1 hclear).1
    rcases List.mem_cons.1 hw with rfl | hw
    · exact hfirst (heapVma _ 0) List.mem_cons_self
    · rcases List.mem_append.1 hw with hw | hw
      · obtain ⟨phdr, hphdr, obj, rfl⟩ := mem_segmentVmas hw
        exact hfirst (phdr.vma 0)
          (List.mem_cons_of_mem _ (List.mem_append_left _ (mem_segmentVmas_of_mem hphdr)))
      · exact hfirst w (List.mem_cons_of_mem _ (List.mem_append_right _ hw))

/-- All was mapped, and the stack was filled. -/
theorem ImageBuilt.of_stack {mm' : Mm}
    (hmm' : mm' = { mm with vma := programVmas (loads app.phdrs) objs b ++ mm.vma })
    (stack : NewVma (stackVma s) mm' vm₂ vm₃)
    (himg : img.mm = { mm' with vma := stackVma s :: mm'.vma })
    (hvmaBrk : img.vmaBrk = b) (hbrk : img.brk = highest 0 (loads app.phdrs))
    (hfilled : StackFilled args { mm' with vma := stackVma s :: mm'.vma } vm₃ img vm') :
    ImageBuilt app args mm vm img vm' := by
  have hover : Rewrites mm' (Between stackBase USTACK_START.toNat) vm₃ vm' :=
    ⟨hfilled.rewrites.frame, hfilled.rewrites.outside, hfilled.rewrites.kept⟩
  have hdone := stack.rewrites hover fun va hva =>
    ⟨PGROUNDDOWN va, (stackVma_inRange s).page_mem (BitVec.le_def.2 hva.1) (BitVec.lt_def.2 hva.2),
      rfl⟩
  have hholds : ImageHolds app args img mm' vm' := by
    subst hmm'
    obtain ⟨uargv, hstrings, hvector⟩ := hfilled.argv
    refine ⟨fun phdr hphdr => ?_, hfilled.zeros, uargv, ?_, hvector⟩
    · exact ((loaded.holds phdr hphdr).kept heap.kept).kept hdone.kept
    · exact hstrings.imp fun _ _ hon => ⟨hon.low, hon.high, hon.holds⟩
  have hsame (va : Uint64) : userByte vm' img.mm va = userByte vm' mm' va := by rw [himg]; rfl
  refine ⟨?_, hbrk, ?_, himg ▸ hdone.wf, ?_, hholds.congr hsame⟩
  · subst hmm'
    refine ⟨objs, b, s, hlen, himg, hvmaBrk, ?_⟩
    rw [hobjs, heap.pool, hdone.pool]
    rfl
  · exact hdone.mms.trans (heap.mms.trans loaded.mms)
  · subst hmm'
    exact (loaded.evolves.trans heap.evolves).trans hdone.evolves

end Build

/-- **Building an image.** -/
theorem buildImage_ends {C : Prop} {args : List (List Byte)}
    (h : ∀ phdr ∈ loads app.phdrs, phdr.Loadable)
    (hfit : stringsSize args ≤ 4096) (hwf : MmWf vm mm)
    (hpool : C ∨ (loads app.phdrs).length + 2 ≤ vm.vmaAllocator.length) :
    EndsUnless C (buildImage app mm args) vm (BuildEnds app args mm vm) := by
  obtain ⟨hbrk, hlow⟩ := @highest_bounds _ 0 h rfl (Nat.zero_le _)
  refine .bind (loadPhdrs_ends h (fun phdr => app.hasBytes) hwf
    (hpool.imp_right fun hlen => by omega)) fun r vm₁ hr => ?_
  cases hr with
  | bad neg tidy evolves mms pool =>
    refine .pure (.bad neg tidy evolves mms fun hnull hclear => pool hnull ?_)
    rw [imageVmas, programVmas, List.cons_append, List.cons_append, List.pairwise_cons,
      List.pairwise_cons] at hclear
    exact hclear.2.2
  | ok loaded =>
    obtain ⟨objs, hlen, rfl, hobjs⟩ := loaded.list
    have hleft : C ∨ 2 ≤ vm₁.vmaAllocator.length := hpool.imp_right fun hle => by
      rw [hobjs, List.length_append] at hle
      omega
    -- the heap
    refine .bind (mmCreateVma_ends (hleft.imp_right fun hle hnil => by simp [hnil] at hle)) ?_
    rintro _ vm₂ ⟨b, rfl, hb, hmms, hsame⟩
    have hheap :=
      @newVma_ends _ _ (heapVma (highest 0 (loads app.phdrs)) b) _ loaded.wf
        (heapVma_inRange hbrk hlow b)
        userFlags_data hb hmms hsame
    refine .bind (hheap.unless C) fun r vm₃ hr => ?_
    cases hr with
    | failed none =>
      exact .ite (fun _ => .pure (.no_heap hlen hobjs loaded none)) fun hle => absurd none.neg hle
    | mapped heap =>
      refine .ite (fun hneg => absurd hneg (by decide)) fun _ => ?_
      have hleft₃ : C ∨ vm₃.vmaAllocator ≠ [] := hleft.imp_right fun hle hnil => by
        rw [heap.pool, hnil, List.length_singleton] at hle
        omega
      -- the stack
      refine .bind (mmCreateVma_ends hleft₃) ?_
      rintro _ vm₄ ⟨s, rfl, hs, hmms₄, hsame₄⟩
      have hstack :=
        @newVma_ends _ _ (stackVma s) _ heap.wf (stackVma_inRange s) userFlags_data hs hmms₄ hsame₄
      refine .bind (hstack.unless C) fun r vm₅ hr => ?_
      cases hr with
      | failed none =>
        exact .ite (fun _ => .pure (.no_stack hlen hobjs loaded heap none)) fun hle =>
          absurd none.neg hle
      | mapped stack =>
        refine .ite (fun hneg => absurd hneg (by decide)) fun _ => ?_
        refine ((fillStack_ends b (highest 0 (loads app.phdrs))
          (hasStack stack.wf) hfit).mono ?_).unless C
        rintro _ vm' ⟨img, rfl, himg, hvmaBrk, hbrk', hfilled⟩
        exact .ok (.of_stack hlen hobjs loaded heap rfl stack himg hvmaBrk hbrk' hfilled)

end SignalOS
