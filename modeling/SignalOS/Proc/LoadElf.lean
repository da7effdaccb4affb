import SignalOS.Kernel.Spaces
import SignalOS.Kernel.Step
import SignalOS.Proc.Image

/-!
# Replacing the program of a process

* `ElfEnds`, `loadUserElf_ends` — **`load_user_elf` installs a new image**, or it gives
  everything back that it took.
* `loadUserElf_describes` — **the image is the one that the program headers describe**.
-/

namespace SignalOS

open LittleEndian Partial

variable {vm vm' : Vm} {mm : Mm} {app : UserApp} {phdr : Phdr} {args : List (List Byte)}
  {p p' : Proc} {img : Image}

/-- An image was installed. -/
structure ElfLoaded (app : UserApp) (args : List (List Byte)) (p : Proc) (vm : Vm) (img : Image)
    (vm' : Vm) : Prop where
  list : ∃ objs b s, objs.length = (loads app.phdrs).length ∧
    img.mm.vma = imageVmas (loads app.phdrs) objs b s ∧
    img.vmaBrk = b
  brk : img.brk = highest 0 (loads app.phdrs)
  refcnt : img.mm.refcnt = 1
  wf : MmWf vm' img.mm
  evolves : Evolves (p.owns vm) (Owns vm' img.mm.pgt) vm vm'
  holds : ImageHolds app args img img.mm vm'

/-- How `load_user_elf` may end. -/
inductive ElfEnds (app : UserApp) (args : List (List Byte)) (p : Proc) (vm : Vm) : Int × Proc →
    Vm → Prop where
  | noMm {vm' : Vm} (create : CreateEnds vm p.trapframePa none vm') :
    ElfEnds app args p vm (-ENOMEM, p) vm'
  | bad {ret : Int} {vm' : Vm} (neg : ret < 0) (evolves : Evolves (fun _ => False)
    (fun _ => False) vm vm')
      (free : FreeOk vm') (mms : 0 ∉ vm.mmAllocator → vm'.mmAllocator = vm.mmAllocator)
      (vmas : 0 ∉ vm.vmaAllocator →
        (imageVmas (loads app.phdrs) ((loads app.phdrs).map fun _ => 0) 0 0).Pairwise Clear →
        vm'.vmaAllocator = vm.vmaAllocator) : ElfEnds app args p vm (ret, p) vm'
  | ok {img : Image} {vm' : Vm} (loaded : ElfLoaded app args p vm img vm') :
      ElfEnds app args p vm (0, p.installImage img app.eEntry args.length) vm'

/-- The objects come back in the order in which they were taken. -/
theorem pushVmas_eq {vmas : List Vma} (h : 0 ∉ vmas.map Vma.addr) (pool : List Uint64) :
    pushVmas vmas pool = (vmas.map Vma.addr).reverse ++ pool := by
  induction vmas generalizing pool with
  | nil => rfl
  | cons vma vmas ih =>
    rw [List.map_cons, List.mem_cons, not_or] at h
    show pushVmas vmas (pushObj vma.addr pool) = _
    rw [ih h.2, pushObj, if_neg (Ne.symm h.1), List.map_cons, List.reverse_cons, List.append_assoc]
    rfl

section Install

variable {vm₁ vm₂ : Vm} {obj pgt : Uint64} {old : Mm} (hevolves : Evolves (fun _ => False)
  (Owns vm₁ pgt) vm vm₁)
  (hbuilt : ImageBuilt app args ⟨obj, pgt, [], 1⟩ vm₁ img vm₂)

include hevolves hbuilt

theorem ImageBuilt.fresh : Evolves (fun _ => False) (Owns vm₂ img.mm.pgt) vm vm₂ := by
  obtain ⟨objs, b, s, -, himg, -⟩ := hbuilt.list
  have hpgt : img.mm.pgt = pgt := by rw [himg]
  rw [hpgt]
  exact hevolves.trans hbuilt.evolves

omit hevolves in
/-- The image as part of the process that it is given to. -/
theorem ImageBuilt.loaded (hwf : MmWf vm' img.mm)
    (howns : Evolves (p.owns vm) (Owns vm' img.mm.pgt) vm vm')
    (hsame : ∀ va, userByte vm' img.mm va = userByte vm₂ img.mm va) :
    ElfLoaded app args p vm img vm' := by
  obtain ⟨objs, b, s, hlen, himg, hvmaBrk, -⟩ := hbuilt.list
  exact ⟨⟨objs, b, s, hlen, by rw [himg, List.append_nil], hvmaBrk⟩, hbuilt.brk, by rw [himg],
    hwf, howns,
    hbuilt.holds.congr hsame⟩

/-- The first image of a process. -/
theorem ImageBuilt.first (hp : p.mm = none) : ElfLoaded app args p vm img vm₂ := by
  have hnone (q : Uint64) : p.owns vm q ↔ False := iff_false_intro (Proc.owns_none hp q)
  exact hbuilt.loaded hbuilt.wf ((hbuilt.fresh hevolves).congr hnone fun _ => Iff.rfl) fun _ => rfl

/-- **The old address space is freed**, and the new one does not notice. -/
theorem ImageBuilt.free_old (hp : p.mm = some old) (htidy : Tidy vm old) (href : 0 < old.refcnt) :
    Ends (mmFree old) vm₂ fun _ vm' => ElfLoaded app args p vm img vm' := by
  have hnew := hbuilt.fresh hevolves
  have havoids : Avoids vm old.pgt fun _ => False := fun _ _ hno => hno
  have hapart := hnew.apart htidy.good havoids
  have htidy₂ := htidy.other hnew havoids hbuilt.wf.good.free
  refine (mmFree_ends htidy₂ href).mono fun _ vm' ⟨hfreed, hfree, _, _⟩ => ?_
  have havoids₂ : Avoids vm₂ img.mm.pgt (Owns vm₂ old.pgt) := fun q hown hold => hapart q hold hown
  have hwf := hbuilt.wf.other hfreed havoids₂ hfree
  have howns (q : Uint64) : p.owns vm q ↔ Owns vm₂ old.pgt q := by
    rw [hnew.owns_iff htidy.good havoids, Proc.owns_some hp]
  have hboth :=
    ((hnew.frame (Owns vm₂ old.pgt)).congr (fun q => (false_or _).to_iff.symm) fun q =>
      or_comm).trans
      (hfreed.frame (Owns vm₂ img.mm.pgt))
  refine hbuilt.loaded hwf (hboth.congr (fun q => ?_) fun q => ?_)
    (hfreed.userByte_eq hbuilt.wf.good havoids₂)
  · exact howns q
  · rw [hfreed.owns_iff hbuilt.wf.good havoids₂, false_or]

end Install

/-- **An image that could not be built is given back.** -/
theorem freeImage_ends {vm₁ vm₂ : Vm} {obj pgt : Uint64} {vmas : List Vma}
    (hevolves : Evolves (fun _ => False) (Owns vm₁ pgt) vm vm₁)
    (hmms : vm.mmAllocator = obj :: vm₁.mmAllocator)
    (hvmas : vm₁.vmaAllocator = vm.vmaAllocator) (tidy : Tidy vm₂ ⟨obj, pgt, vmas ++ [], 1⟩)
    (evolves : Evolves (Owns vm₁ pgt) (Owns vm₂ pgt) vm₁ vm₂)
    (mms : vm₂.mmAllocator = vm₁.mmAllocator)
    (pool : 0 ∉ vm₁.vmaAllocator →
      (imageVmas (loads app.phdrs) ((loads app.phdrs).map fun _ => 0) 0 0 ++ []).Pairwise Clear →
      vm₁.vmaAllocator = (vmas.map Vma.addr).reverse ++ vm₂.vmaAllocator) :
    Ends (mmFree ⟨obj, pgt, vmas ++ [], 1⟩) vm₂ fun _ vm' =>
      Evolves (fun _ => False) (fun _ => False) vm vm' ∧ FreeOk vm' ∧
      (0 ∉ vm.mmAllocator → vm'.mmAllocator = vm.mmAllocator) ∧
      (0 ∉ vm.vmaAllocator → (imageVmas (loads app.phdrs) ((loads app.phdrs).map fun _ =>
        0) 0 0).Pairwise Clear →
        vm'.vmaAllocator = vm.vmaAllocator) := by
  refine (mmFree_ends tidy (by decide : (0 : Int) < 1)).mono fun _ vm₃ hends => ?_
  obtain ⟨hfreed, hfree', hmms', hvmas'⟩ := hends
  refine ⟨(hevolves.trans evolves).trans hfreed, hfree', fun hnull => ?_, fun hnull hclear => ?_⟩
  · have hobj : obj ≠ 0 := fun heq => hnull (by rw [hmms, heq]; exact List.mem_cons_self)
    rw [hmms', mms, hmms]
    exact if_neg hobj
  · rw [← hvmas] at hnull
    have hpool := pool hnull (by rwa [List.append_nil])
    have haddrs : 0 ∉ (List.map Vma.addr vmas) := fun hin => hnull (by
      rw [hpool]
      exact List.mem_append_left _ (List.mem_reverse.2 hin))
    rw [hvmas', List.append_nil, pushVmas_eq haddrs, ← hpool, hvmas]

/-- **`load_user_elf` installs a new image**, or it gives everything back that it took. -/
theorem loadUserElf_ends {C : Prop} (hfree : FreeOk vm) (hold : ∀ old, p.mm = some old →
    Tidy vm old ∧ 0 < old.refcnt)
    (h : ∀ phdr ∈ loads app.phdrs, phdr.Loadable) (hfit : stringsSize args ≤ 4096)
    (hstate : C ∨ p.state ≠ .unused)
    (hmm : C ∨ vm.mmAllocator ≠ []) (hpage : C ∨ vm.freelist ≠ [])
    (hpool : C ∨ (loads app.phdrs).length + 2 ≤ vm.vmaAllocator.length) :
    EndsUnless C (loadUserElf app p args) vm (ElfEnds app args p vm) := by
  by_cases hunused : p.state = .unused
  · refine .fail (hstate.resolve_right (not_not.2 hunused)) ?_
    rw [loadUserElf, hunused]
    rfl
  have hrunning : (p.state != .unused) = true := by simpa using hunused
  refine .bind_of_eq (by rw [kassert, hrunning]; rfl)
    (.bind (mmCreate_ends hfree hmm hpage) fun r vm₁ hr => ?_)
  cases hr with
  | failed evolves free pool mms vmas => exact .pure (.noMm (.failed evolves free pool mms vmas))
  | @created _ obj pgt good evolves entries mms vmas =>
    have hwf : MmWf vm₁ ⟨obj, pgt, [], 1⟩ := .created good entries
    rw [← vmas] at hpool
    refine .bind (buildImage_ends h hfit hwf hpool) fun r vm₂ hr => ?_
    cases hr with
    | bad neg tidy evolves' mms' pool =>
      refine .bind ((freeImage_ends evolves mms vmas tidy evolves' mms' pool).unless C)
        fun _ vm₃ hends => .pure ?_
      obtain ⟨hevolves, hfree', hmms, hvmas⟩ := hends
      exact .bad neg hevolves hfree' hmms hvmas
    | ok built =>
      dsimp only
      cases hp : p.mm with
      | none => exact .pure (.ok (built.first evolves hp))
      | some old =>
        obtain ⟨htidy, href⟩ := hold old hp
        exact .bind ((built.free_old evolves hp htidy href).unless C) fun _ vm' loaded =>
          .pure (.ok loaded)

/-! ## What the program headers describe -/

/-- A page that the user may use as the segment says, and in no other way. -/
structure SegmentPage (phdr : Phdr) (e : Uint64) : Prop where
  valid : e &&& PTE_V ≠ 0
  user : e &&& PTE_U ≠ 0
  read : e &&& PTE_R ≠ 0 ↔ phdr.pFlags &&& PF_R ≠ 0
  write : e &&& PTE_W ≠ 0 ↔ phdr.pFlags &&& PF_W ≠ 0
  exec : e &&& PTE_X ≠ 0 ↔ phdr.pFlags &&& PF_X ≠ 0

/-- The process has the image that the program headers describe. -/
structure Describes (app : UserApp) (p : Proc) (mm : Mm) (vm : Vm) : Prop where
  bytes : ∀ phdr ∈ loads app.phdrs, ∀ k < (PGROUNDUP phdr.pMemsz).toNat,
    userByte vm mm (phdr.pVaddr + BitVec.ofNat 64 k) =
      if k < phdr.pFilesz.toNat then app.file (phdr.pOffset + BitVec.ofNat 64 k) else some 0
  perms : ∀ phdr ∈ loads app.phdrs, ∀ k < (PGROUNDUP phdr.pMemsz).toNat,
    SegmentPage phdr (entryAt vm.pte mm.pgt (vpn (PGROUNDDOWN (phdr.pVaddr + BitVec.ofNat 64 k))))
  /-- The heap is empty. -/
  heap : ∃ vma ∈ mm.vma, vma.addr = p.vmaBrk ∧ vma.vmStart = p.brk ∧ vma.vmEnd = p.brk
  /-- It starts at the end of the highest segment. -/
  top : ∀ phdr ∈ loads app.phdrs, phdr.pVaddr.toNat + (PGROUNDUP phdr.pMemsz).toNat ≤ p.brk.toNat
  least : p.brk = 0 ∨ ∃ phdr ∈ loads app.phdrs, phdr.pVaddr.toNat + (PGROUNDUP phdr.pMemsz).toNat =
    p.brk.toNat
  stack : ∀ va, Between stackBase p.trapframe.sp.toNat va → userByte vm mm va = some 0

/-- The flags of a segment, bit by bit. -/
theorem phdrPerm_bits (phdr : Phdr) : SegmentPage phdr (phdrPerm phdr ||| PTE_V) := by
  -- all that matters is which of the three flags are set
  by_cases hr : phdr.pFlags &&& PF_R = 0 <;> by_cases hw : phdr.pFlags &&& PF_W = 0 <;>
    by_cases hx : phdr.pFlags &&& PF_X = 0 <;> constructor <;>
    simp only [phdrPerm, hr, hw, hx, ne_eq, not_true_eq_false, not_false_eq_true, if_true,
      if_false] <;> decide

theorem segmentPage_of_permits {e : Uint64} (h : Permits (phdrPerm phdr) e) :
    SegmentPage phdr e := by
  have hbits := phdrPerm_bits phdr
  have hbit {bit : Uint64} (hperm : PERM &&& bit = bit) (hnot : PTE_V &&& bit = 0) :
      e &&& bit = (phdrPerm phdr ||| PTE_V) &&& bit := by
    have hor : (phdrPerm phdr ||| PTE_V) &&& bit = phdrPerm phdr &&& bit := by
      rw [BitVec.and_comm, BitVec.and_or_distrib_left, BitVec.and_comm bit PTE_V, hnot,
        BitVec.and_comm]
      exact BitVec.or_zero
    rw [hor, ← hperm, ← BitVec.and_assoc, h.2, BitVec.and_assoc]
  refine ⟨h.1, ?_, ?_, ?_, ?_⟩
  · rw [hbit (by decide) (by decide)]
    exact hbits.user
  · rw [hbit (by decide) (by decide)]
    exact hbits.read
  · rw [hbit (by decide) (by decide)]
    exact hbits.write
  · rw [hbit (by decide) (by decide)]
    exact hbits.exec

theorem toNat_PGROUNDUP_memsz (h : phdr.Loadable) :
    (PGROUNDUP phdr.pMemsz).toNat = 4096 * phdr.npages := by
  have hhigh := h.high
  rw [Phdr.npages] at hhigh ⊢
  rw [toNat_PGROUNDUP (by omega)]
  omega

/-- The byte `k` of a segment lies in one of its pages. -/
theorem PagesHold.byte {base : Uint64} {n k : Nat} {f : Nat → Byte} (h : PagesHold vm mm base n f)
    (hk : k < 4096 * n) :
    userByte vm mm (base + BitVec.ofNat 64 k) = some (f k) := by
  have hbyte := h (k / 4096) (by omega) (k % 4096) (Nat.mod_lt _ (by decide))
  rw [BitVec.add_assoc, ← BitVec.ofNat_add] at hbyte
  dsimp only at hbyte
  rwa [Nat.div_add_mod] at hbyte

theorem toNat_MAX (x y : Uint64) : (MAX x y).toNat = max x.toNat y.toNat := by
  rw [MAX]
  split
  · rename_i hlt
    rw [gt_iff_lt, BitVec.lt_def] at hlt
    omega
  · rename_i hlt
    rw [gt_iff_lt, BitVec.lt_def] at hlt
    omega

/-- The end of the highest segment. -/
theorem highest_spec {phdrs : List Phdr} {start : Uint64} (h : ∀ phdr ∈ phdrs, phdr.Loadable) :
    start.toNat ≤ (highest start phdrs).toNat ∧
      (∀ phdr ∈ phdrs, phdr.pVaddr.toNat + (PGROUNDUP phdr.pMemsz).toNat ≤
        (highest start phdrs).toNat) ∧
      (highest start phdrs = start ∨
        ∃ phdr ∈ phdrs, phdr.pVaddr.toNat + (PGROUNDUP phdr.pMemsz).toNat =
          (highest start phdrs).toNat) := by
  induction phdrs generalizing start with
  | nil => exact ⟨le_rfl, fun _ hin => absurd hin (by simp), .inl rfl⟩
  | cons phdr phdrs ih =>
    have hphdr := h phdr List.mem_cons_self
    have hend : (PGROUNDUP (phdr.pVaddr + phdr.pMemsz)).toNat = phdr.pVaddr.toNat +
        (PGROUNDUP phdr.pMemsz).toNat := by
      have hvma : PGROUNDUP (phdr.pVaddr + phdr.pMemsz) = (phdr.vma 0).vmEnd := by
        rw [Phdr.vma, hphdr.page.down]
      rw [hvma, hphdr.toNat_stop, toNat_PGROUNDUP_memsz hphdr]
    have hmax : highest start (phdr :: phdrs) = highest
        (MAX start (PGROUNDUP (phdr.pVaddr + phdr.pMemsz))) phdrs :=
      rfl
    obtain ⟨hle, hall, htop⟩ := @ih (MAX start (PGROUNDUP (phdr.pVaddr + phdr.pMemsz)))
      fun w hw => h w (List.mem_cons_of_mem _ hw)
    rw [← hmax] at hle hall htop
    rw [toNat_MAX, hend] at hle
    refine ⟨by omega, fun w hw => ?_, ?_⟩
    · rcases List.mem_cons.1 hw with rfl | hw
      · omega
      · exact hall w hw
    · rcases htop with htop | ⟨w, hw, heq⟩
      · by_cases hgt : start > PGROUNDUP (phdr.pVaddr + phdr.pMemsz)
        · exact .inl (by rw [htop, MAX, if_pos hgt])
        · exact .inr ⟨phdr, List.mem_cons_self, by rw [htop, MAX, if_neg hgt, hend]⟩
      · exact .inr ⟨w, List.mem_cons_of_mem _ hw, heq⟩

theorem exists_mem_segmentVmas {phdrs : List Phdr} {objs : List Uint64}
    (hlen : objs.length = phdrs.length)
    (h : phdr ∈ phdrs) : ∃ obj, phdr.vma obj ∈ segmentVmas phdrs objs := by
  obtain ⟨i, hi, rfl⟩ := List.mem_iff_getElem.1 h
  refine ⟨objs[i], ?_⟩
  rw [segmentVmas, List.mem_reverse, List.mem_iff_getElem]
  refine ⟨i, by rw [List.length_zipWith]; omega, ?_⟩
  rw [List.getElem_zipWith]

/-- What was installed is what the program headers describe. -/
theorem ElfLoaded.describes {eEntry : Uint64} {argc : Nat}
    (h : ∀ phdr ∈ loads app.phdrs, phdr.Loadable)
    (hloaded : ElfLoaded app args p vm img vm') :
    Describes app (p.installImage img eEntry argc) img.mm vm' := by
  obtain ⟨objs, b, s, hlen, hvmas, hvmaBrk⟩ := hloaded.list
  obtain ⟨-, htop, hleast⟩ := @highest_spec _ 0 h
  rw [← hloaded.brk] at htop hleast
  refine ⟨fun phdr hphdr k hk => ?_, fun phdr hphdr k hk => ?_,
    ⟨heapVma (highest 0 (loads app.phdrs)) b, ?_, ?_⟩, htop,
    hleast, hloaded.holds.zeros⟩
  · rw [toNat_PGROUNDUP_memsz (h phdr hphdr)] at hk
    rw [(hloaded.holds.segments phdr hphdr).byte hk, segmentByte, fileByte]
    split
    · rename_i hlt
      obtain ⟨c, hc⟩ := Option.isSome_iff_exists.1 (app.hasBytes hphdr k hlt)
      rw [hc]
      rfl
    · rfl
  · have hphdr' := h phdr hphdr
    rw [toNat_PGROUNDUP_memsz hphdr'] at hk
    obtain ⟨obj, hmem⟩ := exists_mem_segmentVmas hlen hphdr
    have hvma : phdr.vma obj ∈ img.mm.vma := by
      rw [hvmas]
      exact List.mem_cons_of_mem _ (List.mem_cons_of_mem _ hmem)
    have hhigh := hphdr'.high
    have haddr : (phdr.pVaddr + BitVec.ofNat 64 k).toNat = phdr.pVaddr.toNat + k := by
      rw [BitVec.toNat_add, BitVec.toNat_ofNat]
      omega
    refine segmentPage_of_permits (hloaded.wf.mapped _ hvma _
      ((hphdr'.inRange obj).page_mem ?_ ?_))
    · rw [hphdr'.start_eq, BitVec.le_def]
      omega
    · rw [BitVec.lt_def, hphdr'.toNat_stop]
      omega
  · rw [hvmas]
    exact List.mem_cons_of_mem _ List.mem_cons_self
  · exact ⟨hvmaBrk.symm, hloaded.brk.symm, hloaded.brk.symm⟩

/-- **If `load_user_elf` succeeds, the process has the image that the program headers describe**,
and the loop over the pages of a segment reads none but bytes of the segment: it does the same with
a file that has no others. -/
theorem loadUserElf_describes (hfree : FreeOk vm) (hold : ∀ old, p.mm = some old → Tidy vm old ∧
    0 < old.refcnt)
    (h : ∀ phdr ∈ loads app.phdrs, phdr.Loadable) (hfit : stringsSize args ≤ 4096)
    (hrun : loadUserElf app p args vm = some ((0, p'), vm')) :
    (∃ mm, p'.mm = some mm ∧ Describes app p' mm vm') ∧
    ∀ phdr ∈ loads app.phdrs, ∀ other : UserApp,
      (∀ i < phdr.pFilesz.toNat, other.file (phdr.pOffset + BitVec.ofNat 64 i) =
        app.file (phdr.pOffset + BitVec.ofNat 64 i)) →
      ∀ mm pages, loadFile other mm phdr pages 0 phdr.pFilesz =
        loadFile app mm phdr pages 0 phdr.pFilesz := by
  refine ⟨?_, fun phdr _ other hsame mm pages =>
    loadFile_congr (by simpa using hsame)⟩
  generalize hr : ((0 : Int), p') = r at hrun
  have hends :=
    (loadUserElf_ends (C := True) hfree hold h hfit (.inl trivial) (.inl trivial) (.inl trivial)
      (.inl trivial)).elim hrun
  cases hends with
  | noMm => exact absurd (congrArg Prod.fst hr) (show (0 : Int) ≠ -ENOMEM by decide)
  | bad neg =>
    have hzero : (0 : Int) = _ := congrArg Prod.fst hr
    exact absurd hzero (ne_of_gt neg)
  | ok loaded =>
    obtain rfl : p' = _ := congrArg Prod.snd hr
    exact ⟨_, rfl, loaded.describes h⟩

/-- Two segments: code in one page, and data with a `.bss` that ends in a second page.  The file
has their bytes, and no others. -/
def twoSegments : UserApp where
  name := INIT_PROC
  eEntry := 0x1000
  phdrs := [⟨PT_LOAD, PF_R ||| PF_X, 0x100, 0x1000, 3, 3⟩, ⟨PT_LOAD, PF_R ||| PF_W, 0x200, 0x3000,
    2, 0x1001⟩]
  file off := if off - 0x100 < 3 ∨ off - 0x200 < 2 then some (off.setWidth 8) else none
  segments := by decide

theorem twoSegments_loadable : ∀ phdr ∈ loads twoSegments.phdrs, phdr.Loadable := by
  intro phdr hphdr
  have hphdr : phdr ∈ twoSegments.phdrs := List.mem_of_mem_filter hphdr
  simp only [twoSegments, List.mem_cons, List.not_mem_nil, or_false] at hphdr
  rcases hphdr with rfl | rfl <;> exact ⟨by decide, by decide, by decide, by decide⟩

/-- A process that is being made. -/
def madeProc : Proc := { Proc.zero 0x90000000 .zero with state := .used }

theorem loadUserElf_describes_twoSegments :
    ∃ p' vm' mm, loadUserElf twoSegments madeProc [[0x61]] initVm = some ((0, p'), vm') ∧
    p'.mm = some mm ∧ Describes twoSegments p' mm vm' := by
  have hret : (loadUserElf twoSegments madeProc [[0x61]] initVm).map (fun r => r.1.1) =
      some 0 := by
    decide +kernel
  obtain ⟨⟨⟨ret, p'⟩, vm'⟩, hrun, hzero⟩ := Option.map_eq_some_iff.1 hret
  dsimp only at hzero
  subst hzero
  obtain ⟨⟨mm, hmm, hdescribes⟩, -⟩ := loadUserElf_describes freeOk_initVm
    (fun old hold => nomatch (show none = some old from hold)) twoSegments_loadable
      (by decide) hrun
  exact ⟨p', vm', mm, hrun, hmm, hdescribes⟩

end SignalOS
