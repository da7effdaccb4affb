import Mathlib.Data.List.GetD
import SignalOS.Proc.Segment
import SignalOS.Vm.Bytewise

/-!
# The user stack of a new image

* `clearPages_ends` — the pages of the stack are cleared.
* `pushStrings_ends`, `pushArgv_ends` — **pushing the arguments** stores them between the
  new stack pointer and the old one, and nothing below.
* `fillStack_ends` — the stack of a new image: the arguments, and zeros below them.
-/

namespace SignalOS

open LittleEndian Partial

variable {vm vm' : Vm} {mm : Mm} {page p sp va : Uint64} {pages : List Uint64} {bs src : List Byte}

/-! ## Clearing pages -/

theorem PGSIZE_bytes (c : Byte) : (List.replicate PGSIZE.toNat c).length = 4096 :=
  List.length_replicate

/-- A page is cleared. -/
theorem clearPage_ends (hgood : Good vm mm.pgt) (hpage : PageStart page)
    (huser : IS_USER_VA page = true)
    (hframe : frameAt vm.pte mm.pgt (vpn page) = some p) :
    Ends (do setBytes (← pageOf mm page) 0 PGSIZE : VmM Unit) vm fun _ vm' =>
      Rewrites mm (InPage page) vm vm' ∧ PageHolds vm' mm page fun _ => 0 := by
  have hp := (hgood.owned p (.inr ⟨_, hframe⟩)).2
  have hzero : p + BitVec.ofNat 64 0 = p := by simp
  have hfit : 0 + (List.replicate PGSIZE.toNat (0 : Byte)).length ≤ 4096 := by rw [PGSIZE_bytes]
  refine .bind_of_eq (pageOf_frame huser hframe hp.ne_zero) (.of_eq (setBytes_run _ _ _ _) ⟨?_,
    fun i hi => ?_⟩)
  · rw [← hzero]
    exact store_inPage hgood hpage huser hframe hfit
  · have hstore :=
      userByte_store hgood hpage huser hframe hfit (i := i) (by rw [PGSIZE_bytes]; exact hi)
    rw [hzero, Nat.zero_add, List.getElem_replicate] at hstore
    exact hstore

/-- **The loop that clears pages.** -/
theorem clearPages_ends (hgood : Good vm mm.pgt) (huser : UserPages pages) (hnodup : pages.Nodup)
    (hframes : ∀ va ∈ pages, ∃ p, frameAt vm.pte mm.pgt (vpn va) = some p) :
    Ends (pages.forM fun va => do setBytes (← pageOf mm va) 0 PGSIZE) vm fun _ vm' =>
      Rewrites mm (fun va => ∃ page ∈ pages, InPage page va) vm vm' ∧
        ∀ page ∈ pages, PageHolds vm' mm page fun _ => 0 := by
  refine .forM (fun done vm' => Rewrites mm (fun va => ∃ page ∈ pages, InPage page va) vm vm' ∧
    ∀ page ∈ done, PageHolds vm' mm page fun _ => 0) ⟨Rewrites.refl _ _ _, fun _ hin =>
      absurd hin (by simp)⟩ ?_
  intro done page rest vm₁ hpages ⟨hover, hholds⟩
  have hmem : page ∈ pages := by rw [hpages]; simp
  obtain ⟨huva, hpage⟩ := huser page hmem
  obtain ⟨p, hframe⟩ := hframes page hmem
  rw [← hover.pte] at hframe
  refine (clearPage_ends (hover.good hgood) hpage huva hframe).mono fun _ vm₂ ⟨hover', hzero⟩ =>
    ⟨?_, fun w hw => ?_⟩
  · exact hover.trans (hover'.mono fun va hva => ⟨page, hmem, hva⟩)
  · rcases List.mem_append.1 hw with hw | hw
    · refine (hholds w hw).kept hover' fun va hva hva' => ?_
      have hwpage := (huser w (by rw [hpages]; exact List.mem_append_left _ hw)).2
      have heq : w = page := (hva.page_eq hwpage).symm.trans (hva'.page_eq hpage)
      rw [hpages] at hnodup
      exact (List.nodup_append.1 hnodup).2.2 w hw page List.mem_cons_self heq
    · rw [List.mem_singleton.1 hw]
      exact hzero

/-! ## Storing on the stack -/

/-- The address is in a range. -/
def Between (lo hi : Nat) (va : Uint64) : Prop := lo ≤ va.toNat ∧ va.toNat < hi

theorem Rewrites.widen {lo hi lo' hi' : Nat} (h : Rewrites mm (Between lo hi) vm vm')
    (hlo : lo' ≤ lo)
    (hhi : hi ≤ hi') : Rewrites mm (Between lo' hi') vm vm' :=
  h.mono fun _ hva => ⟨hlo.trans hva.1, hva.2.trans_le hhi⟩

theorem or_low {i : Nat} (hpage : PageStart page) (hp : PageStart p) (hi : i < 4096) :
    p ||| ((page + BitVec.ofNat 64 i) &&& 0xFFF) = p + BitVec.ofNat 64 i := by
  have hmask : (0xFFF : Uint64).toNat = 2 ^ 12 - 1 := rfl
  have hlow : ((page + BitVec.ofNat 64 i) &&& 0xFFF).toNat = i := by
    rw [BitVec.toNat_and, hmask, Nat.and_two_pow_sub_one_eq_mod, hpage.toNat_add hi]
    rw [PageStart] at hpage
    omega
  have hfour : (2 : Nat) ^ 12 = 4096 := rfl
  apply BitVec.eq_of_toNat_eq
  have hor := Nat.two_pow_add_eq_or_of_lt (i := 12) (b := i) (by omega) (p.toNat / 4096)
  have hbase : 2 ^ 12 * (p.toNat / 4096) = p.toNat := by
    rw [PageStart] at hp
    omega
  rw [BitVec.toNat_or, hlow, hp.toNat_add hi]
  rw [hbase] at hor
  exact hor.symm

theorem userKva_frame {i : Nat} (hgood : Good vm mm.pgt) (hpage : PageStart page)
    (huser : IS_USER_VA page = true)
    (hframe : frameAt vm.pte mm.pgt (vpn page) = some p) (hi : i < 4096) :
    userKva mm (page + BitVec.ofNat 64 i) vm = some (p + BitVec.ofNat 64 i, vm) := by
  have hp := (hgood.owned p (.inr ⟨_, hframe⟩)).2
  have haddr : useraddr vm mm (page + BitVec.ofNat 64 i) = p + BitVec.ofNat 64 i := by
    rw [useraddr, PGROUNDDOWN_add hpage hi, walkaddr_of_frame huser hframe, if_neg hp.ne_zero,
      or_low hpage hp.start hi]
  have hne : (p + BitVec.ofNat 64 i != 0) = true := by
    rw [bne_iff_ne]
    intro hzero
    have hsum := congrArg BitVec.toNat hzero
    have hz : (0 : Uint64).toNat = 0 := rfl
    rw [hp.start.toNat_add hi, hz] at hsum
    exact hp.ne_zero (BitVec.eq_of_toNat_eq (by omega))
  show (kassert (useraddr vm mm (page + BitVec.ofNat 64 i) != 0) >>= fun _ =>
    pure (useraddr vm mm (page + BitVec.ofNat 64 i)) : VmM Uint64) vm = _
  rw [haddr, hne]
  rfl

/-- The lowest address of the user stack. -/
def stackBase : Nat := (USTACK_START - USTACK_SIZE).toNat

/-- All pages of the user stack are mapped. -/
structure HasStack (vm : Vm) (mm : Mm) : Prop where
  good : Good vm mm.pgt
  mapped : ∀ page ∈ pagesBetween (USTACK_START - USTACK_SIZE) USTACK_START,
    ∃ p, frameAt vm.pte mm.pgt (vpn page) = some p

theorem HasStack.kept {W : Uint64 → Prop} (h : HasStack vm mm) (hover : Rewrites mm W vm vm') :
    HasStack vm' mm := by
  refine ⟨hover.good h.good, ?_⟩
  rw [hover.pte]
  exact h.mapped

theorem HasStack.store (h : HasStack vm mm) (pa : Uint64) (src : List Byte) :
    HasStack (vm.store pa src) mm := by
  have hstatic : Static vm (vm.store pa src) := ⟨rfl, rfl, rfl, rfl⟩
  exact ⟨h.good.of_same rfl rfl fun _ => hstatic.manages, h.mapped⟩

/-- An address of the stack, as a page and an offset. -/
theorem HasStack.frame (h : HasStack vm mm) (hbase : stackBase ≤ sp.toNat)
    (htop : sp.toNat < USTACK_START.toNat) :
    sp = PGROUNDDOWN sp + BitVec.ofNat 64 (sp.toNat % 4096) ∧ IS_USER_VA (PGROUNDDOWN sp) = true ∧
      ∃ p, frameAt vm.pte mm.pgt (vpn (PGROUNDDOWN sp)) = some p := by
  have hstart : stackBase = 0xfffe8000 := rfl
  have hstack : (USTACK_START - USTACK_SIZE).toNat = 0xfffe8000 := rfl
  have hend : USTACK_START.toNat = 0xffff0000 := rfl
  have hmax : MAXVA.toNat = 2 ^ 38 := rfl
  have hpage := pageStart_PGROUNDDOWN sp
  have hdown := toNat_PGROUNDDOWN sp
  refine ⟨?_, decide_eq_true (by rw [BitVec.le_def]; omega), h.mapped _ ?_⟩
  · apply BitVec.eq_of_toNat_eq
    rw [hpage.toNat_add (Nat.mod_lt _ (by decide))]
    omega
  · exact (mem_pagesBetween (by decide)).2
      ⟨hpage, by rw [BitVec.le_def]; omega, by rw [BitVec.lt_def]; omega⟩

/-- The kernel reaches every address of the stack. -/
theorem userKva_stack (h : HasStack vm mm) (hbase : stackBase ≤ sp.toNat)
    (htop : sp.toNat < USTACK_START.toNat) :
    ∃ kva, userKva mm sp vm = some (kva, vm) := by
  obtain ⟨hsp, huser, p, hframe⟩ := h.frame hbase htop
  have hkva :=
    userKva_frame h.good (pageStart_PGROUNDDOWN sp) huser hframe
      (Nat.mod_lt sp.toNat (by decide : 4096 > 0))
  rw [← hsp] at hkva
  exact ⟨_, hkva⟩

/-- The bytes are stored at a user address of the stack, all in one page. -/
theorem storeStack_ends (h : HasStack vm mm) (hbase : stackBase ≤ sp.toNat)
    (htop : sp.toNat < USTACK_START.toNat)
    (hfit : sp.toNat % 4096 + src.length ≤ 4096) :
    Ends (do storeBytes (← userKva mm sp) src : VmM Unit) vm fun _ vm' =>
      Rewrites mm (Between sp.toNat (sp.toNat + src.length)) vm vm' ∧ UserHolds vm' mm sp src := by
  have hpage := pageStart_PGROUNDDOWN sp
  have hdown := toNat_PGROUNDDOWN sp
  obtain ⟨hsp, huser, p, hframe⟩ := h.frame hbase htop
  have hkva := userKva_frame h.good hpage huser hframe (Nat.mod_lt sp.toNat (by decide : 4096 > 0))
  rw [← hsp] at hkva
  have hover := store_rewrites h.good hpage huser hframe hfit
  refine .bind_of_eq hkva (.of_eq rfl ⟨hover.mono ?_, fun j hj => ?_⟩)
  · rintro va ⟨i, hle, hlt, rfl⟩
    rw [Between, hpage.toNat_add (by omega)]
    omega
  · have hstore := userByte_store h.good hpage huser hframe hfit hj
    rw [BitVec.ofNat_add, ← BitVec.add_assoc, ← hsp] at hstore
    rw [List.getElem_eq_getD 0] at hstore
    exact hstore

/-- What lies outside the bytes that were written is as it was. -/
theorem UserHolds.kept {lo hi : Nat} (h : UserHolds vm mm va bs)
    (hover : Rewrites mm (Between lo hi) vm vm')
    (hout : va.toNat + bs.length ≤ lo ∨ hi ≤ va.toNat) (hsmall : va.toNat + bs.length < 2 ^ 64) :
    UserHolds vm' mm va bs := by
  intro j hj
  rw [hover.kept _ fun hin => ?_, h j hj]
  rw [Between, BitVec.toNat_add, BitVec.toNat_ofNat] at hin
  omega

theorem UserHolds.append {bs' : List Byte} (h : UserHolds vm mm va bs)
    (h' : UserHolds vm mm (va + BitVec.ofNat 64 bs.length) bs') :
    UserHolds vm mm va (bs ++ bs') := by
  intro j hj
  by_cases hlt : j < bs.length
  · rw [h j hlt, List.getD_append _ _ _ _ hlt]
  · have hbyte := h' (j - bs.length) (by rw [List.length_append] at hj; omega)
    rw [BitVec.add_assoc, ← BitVec.ofNat_add, Nat.add_sub_cancel' (Nat.not_lt.1 hlt)] at hbyte
    rw [hbyte, List.getD_append_right _ _ _ _ (Nat.not_lt.1 hlt)]

/-! ## Pushing the arguments -/

/-- What a string takes on the stack, with its NUL. -/
def stringSize (arg : List Byte) : Nat := (arg.length + 8) / 8 * 8

def stringsSize (args : List (List Byte)) : Nat := (args.map stringSize).sum

/-- The string is on the stack, at `lo` or above. -/
structure OnStack (vm : Vm) (mm : Mm) (lo : Nat) (ptr : Uint64) (arg : List Byte) : Prop where
  low : lo ≤ ptr.toNat
  high : ptr.toNat + arg.length < USTACK_START.toNat
  holds : UserHolds vm mm ptr (arg ++ [0])

theorem OnStack.kept {lo lo' hi' : Nat} {arg : List Byte} (h : OnStack vm mm lo va arg)
    (hover : Rewrites mm (Between lo' hi') vm vm') (hhi : hi' ≤ lo) (hle : lo' ≤ lo) :
    OnStack vm' mm lo' va arg := by
  have hlow := h.low
  have hhigh := h.high
  have hend : USTACK_START.toNat = 0xffff0000 := rfl
  refine ⟨hle.trans hlow, hhigh, h.holds.kept hover (.inr (hhi.trans hlow)) ?_⟩
  rw [List.length_append, List.length_singleton]
  omega

/-- The strings were pushed. -/
structure StringsPushed (mm : Mm) (args : List (List Byte)) (sp : Uint64) (vm : Vm)
    (uargv : List Uint64) (sp' : Uint64)
    (vm' : Vm) : Prop where
  pointer : sp'.toNat + stringsSize args = sp.toNat
  rewrites : Rewrites mm (Between sp'.toNat sp.toNat) vm vm'
  strings : List.Forall₂ (OnStack vm' mm sp'.toNat) uargv args

/-- The stack pointer after a string. -/
theorem toNat_pushString {arg : List Byte} (hsp : sp.toNat % 8 = 0)
    (hfit : stringSize arg ≤ sp.toNat) :
    ((sp - BitVec.ofNat 64 (arg.length + 1)) &&& ~~~7).toNat = sp.toNat - stringSize arg := by
  have hlt := sp.isLt
  rw [stringSize] at hfit ⊢
  rw [toNat_and_mask (k := 3) (by decide), BitVec.toNat_sub, BitVec.toNat_ofNat]
  omega

/-- **The loop that pushes the strings.** -/
theorem pushStrings_ends {args : List (List Byte)} (h : HasStack vm mm) (halign : sp.toNat % 8 = 0)
    (htop : sp ≤ USTACK_START) (hfit : USTACK_START.toNat - 4096 + stringsSize args ≤ sp.toNat) :
    Ends (pushStrings mm args sp) vm fun r vm' => StringsPushed mm args sp vm r.1 r.2 vm' := by
  have hstart : stackBase = 0xfffe8000 := rfl
  have hend : USTACK_START.toNat = 0xffff0000 := rfl
  rw [BitVec.le_def] at htop
  induction args generalizing vm sp with
  | nil => exact .pure ⟨rfl, Rewrites.refl _ _ _, .nil⟩
  | cons arg args ih =>
    have hsize : stringsSize (arg :: args) = stringSize arg + stringsSize args := rfl
    have hone : arg.length + 1 ≤ stringSize arg := by
      rw [stringSize]
      omega
    have height : stringSize arg % 8 = 0 := Nat.mul_mod_left _ _
    have hnext := @toNat_pushString _ arg halign (by omega)
    rw [pushStrings]
    set sp₁ := (sp - BitVec.ofNat 64 (arg.length + 1)) &&& ~~~7 with hsp₁
    have hlen : (arg ++ [0]).length = arg.length + 1 := List.length_append
    have hstore :=
      @storeStack_ends _ _ sp₁ (arg ++ [0]) h (by omega) (by omega) (by rw [hlen]; omega)
    obtain ⟨_, vm₁, hrun, hover, hholds⟩ := hstore
    obtain ⟨kva, vm₀, hkva, hbytes⟩ := bind_eq_some.1 hrun
    refine .bind_of_eq hkva (.bind_of_eq hbytes ?_)
    have hrest := @ih _ sp₁ (h.kept hover) (by omega) (by omega) (by omega)
    refine .bind hrest ?_
    rintro ⟨uargv, sp'⟩ vm' ⟨hsp', hover', hstrings⟩
    dsimp only at hsp' hover' hstrings
    have hon : OnStack vm₁ mm sp₁.toNat sp₁ arg := ⟨le_rfl, by omega, hholds⟩
    have hall : Rewrites mm (Between sp'.toNat sp.toNat) vm vm' :=
      (hover.widen (by omega) (by rw [hlen]; omega)).trans (hover'.widen le_rfl (by omega))
    have hfirst : OnStack vm' mm sp'.toNat sp₁ arg := hon.kept hover' le_rfl (by omega)
    exact .pure ⟨by dsimp only; omega, hall, .cons hfirst hstrings⟩

/-- The pointers were pushed, the last one of the list lowest. -/
structure ArgvPushed (mm : Mm) (ptrs : List Uint64) (sp : Uint64) (vm : Vm) (sp' : Uint64)
    (vm' : Vm) : Prop where
  pointer : sp'.toNat + 8 * ptrs.length = sp.toNat
  rewrites : Rewrites mm (Between sp'.toNat sp.toNat) vm vm'
  holds : UserHolds vm' mm sp' (bytesOfWords ptrs.reverse)

/-- **The loop that pushes the argument vector.** -/
theorem pushArgv_ends {ptrs : List Uint64} (h : HasStack vm mm) (halign : sp.toNat % 8 = 0)
    (htop : sp ≤ USTACK_START) (hfit : stackBase + 8 * ptrs.length ≤ sp.toNat) :
    Ends (pushArgv mm ptrs sp) vm fun sp' vm' => ArgvPushed mm ptrs sp vm sp' vm' := by
  have hstart : stackBase = 0xfffe8000 := rfl
  have hend : USTACK_START.toNat = 0xffff0000 := rfl
  have height : (8 : Uint64).toNat = 8 := rfl
  rw [BitVec.le_def] at htop
  induction ptrs generalizing vm sp with
  | nil => exact .pure ⟨rfl, Rewrites.refl _ _ _, fun j hj => absurd hj (Nat.not_lt_zero j)⟩
  | cons ptr ptrs ih =>
    rw [List.length_cons] at hfit
    have hnext : (sp - 8).toNat = sp.toNat - 8 := by
      rw [BitVec.toNat_sub, height]
      omega
    have hlen : (bytesOfWords [ptr]).length = 8 := length_bytesOfWords [ptr]
    have hstore := @storeStack_ends _ _ (sp - 8) (bytesOfWords [ptr]) h (by omega) (by omega)
      (by rw [hlen]; omega)
    obtain ⟨_, vm₁, hrun, hover, hholds⟩ := hstore
    obtain ⟨kva, vm₀, hkva, hbytes⟩ := bind_eq_some.1 hrun
    refine .bind_of_eq hkva (.bind_of_eq hbytes ?_)
    refine (@ih _ (sp - 8) (h.kept hover) (by omega) (by omega) (by omega)).mono
      fun sp' vm' ⟨hsp', hover', hholds'⟩ => ?_
    refine ⟨by rw [List.length_cons]; omega, ?_, ?_⟩
    · exact (hover.widen (by omega) (by rw [hlen]; omega)).trans (hover'.widen le_rfl (by omega))
    · have happend : bytesOfWords (ptr :: ptrs).reverse = bytesOfWords ptrs.reverse ++ bytesOfWords
          [ptr] := by
        rw [List.reverse_cons, bytesOfWords, List.flatMap_append]
        rfl
      have hplace : sp' + BitVec.ofNat 64 (bytesOfWords ptrs.reverse).length = sp - 8 := by
        apply BitVec.eq_of_toNat_eq
        rw [length_bytesOfWords, List.length_reverse, BitVec.toNat_add, BitVec.toNat_ofNat]
        omega
      rw [happend]
      refine hholds'.append ?_
      rw [hplace]
      exact hholds.kept hover' (.inr le_rfl) (by rw [hlen]; omega)

/-! ## The stack of an image -/

/-- The bytes of pages that are cleared. -/
theorem userByte_cleared {start stop : Uint64} (hstart : PageStart start) (hstop : PageStart stop)
    (hzero : ∀ page ∈ pagesBetween start stop, PageHolds vm mm page fun _ => 0)
    (hva : Between start.toNat stop.toNat va) : userByte vm mm va = some 0 := by
  obtain ⟨i, hi, heq⟩ := exists_offset va
  have hdown := toNat_PGROUNDDOWN va
  obtain ⟨hle, hlt⟩ := hva
  rw [PageStart] at hstart hstop
  rw [heq]
  refine hzero _ ((mem_pagesBetween hstart).2 ⟨pageStart_PGROUNDDOWN va, ?_, ?_⟩) i hi
  · rw [BitVec.le_def]
    omega
  · rw [BitVec.lt_def]
    omega

theorem eight_mul_length_le (args : List (List Byte)) : 8 * args.length ≤ stringsSize args := by
  induction args with
  | nil => exact Nat.zero_le _
  | cons arg args ih =>
    have hsize : stringsSize (arg :: args) = stringSize arg + stringsSize args := rfl
    rw [hsize, stringSize, List.length_cons]
    omega

theorem stringsSize_mod (args : List (List Byte)) : stringsSize args % 8 = 0 := by
  induction args with
  | nil => rfl
  | cons arg args ih =>
    have hsize : stringsSize (arg :: args) = stringSize arg + stringsSize args := rfl
    rw [hsize, stringSize]
    omega

/-- The stack holds the arguments, and zeros below. -/
structure StackFilled (args : List (List Byte)) (mm : Mm) (vm : Vm) (img : Image) (vm' : Vm) :
    Prop where
  rewrites : Rewrites mm (Between stackBase USTACK_START.toNat) vm vm'
  zeros : ∀ va, Between stackBase img.sp.toNat va → userByte vm' mm va = some 0
  argv : ∃ uargv, List.Forall₂ (OnStack vm' mm img.uargvPtr.toNat) uargv args ∧
    UserHolds vm' mm img.uargvPtr (bytesOfWords (uargv ++ [0]))

/-- The word below the strings is never written: it is the `NULL` at the end of the vector. -/
theorem userHolds_null (hzero : ∀ va, Between sp.toNat (sp.toNat + 8) va →
    userByte vm mm va = some 0)
    (hsp : sp.toNat + 8 < 2 ^ 64) : UserHolds vm mm sp (bytesOfWords [0]) := by
  have hbytes : bytesOfWords [0] = List.replicate 8 0 := by decide
  intro j hj
  rw [length_bytesOfWords, List.length_singleton] at hj
  rw [hbytes, ← List.getElem_eq_getD (h := by simpa using hj), List.getElem_replicate]
  refine hzero _ ?_
  rw [Between, BitVec.toNat_add, BitVec.toNat_ofNat]
  omega

/-- **The stack of a new image.** -/
theorem fillStack_ends {args : List (List Byte)} (vmaBrk brk : Uint64) (h : HasStack vm mm)
    (hfit : stringsSize args ≤ 4096) :
    Ends (do
      (pagesBetween (USTACK_START - USTACK_SIZE) USTACK_START).forM fun va => do
        setBytes (← pageOf mm va) 0 PGSIZE
      let (uargv, sp) ← pushStrings mm args USTACK_START
      let uargvPtr ← pushArgv mm uargv.reverse (sp - 8)
      return Build.ok ⟨mm, vmaBrk, brk, uargvPtr &&& ~~~15, uargvPtr⟩) vm fun r vm' =>
        ∃ img, r = .ok img ∧ img.mm = mm ∧ img.vmaBrk = vmaBrk ∧ img.brk = brk ∧
          StackFilled args mm vm img vm' := by
  have hstart : stackBase = 0xfffe8000 := rfl
  have hstack : (USTACK_START - USTACK_SIZE).toNat = stackBase := rfl
  have hend : USTACK_START.toNat = 0xffff0000 := rfl
  have height : (8 : Uint64).toNat = 8 := rfl
  have hpages : PageStart (USTACK_START - USTACK_SIZE) := by decide
  have hclear :=
    clearPages_ends h.good (userPages_pagesBetween hpages (by decide)) (nodup_pagesBetween _ _)
      h.mapped
  refine .bind hclear fun _ vm₁ ⟨hover₁, hzero⟩ => ?_
  have hcleared (va : Uint64) (hva : Between stackBase USTACK_START.toNat va) :
      userByte vm₁ mm va = some 0 :=
    userByte_cleared hpages (by decide) hzero hva
  have hlen := eight_mul_length_le args
  refine .bind (@pushStrings_ends _ _ _ args (h.kept hover₁) (by decide) (BitVec.le_refl _)
    (by omega)) ?_
  rintro ⟨uargv, sp⟩ vm₂ ⟨hsp, hover₂, hstrings⟩
  have hstack₂ := (h.kept hover₁).kept hover₂
  dsimp only at hsp hover₂ hstrings ⊢
  have hsp8 : (sp - 8).toNat = sp.toNat - 8 := by
    rw [BitVec.toNat_sub, height]
    omega
  have hsize := stringsSize_mod args
  have hlength : uargv.reverse.length = args.length := by
    rw [List.length_reverse, hstrings.length_eq]
  have hargv :=
    @pushArgv_ends _ _ (sp - 8) uargv.reverse hstack₂ (by omega) (by rw [BitVec.le_def]; omega)
      (by omega)
  refine .bind hargv fun uargvPtr vm' ⟨hptr, hover₃, hholds⟩ => ?_
  rw [hlength] at hptr
  rw [List.reverse_reverse] at hholds
  have halign : (uargvPtr &&& ~~~15).toNat ≤ uargvPtr.toNat := by
    rw [toNat_and_mask (k := 4) (by decide)]
    exact Nat.div_mul_le_self _ _
  have hargs : List.Forall₂ (OnStack vm' mm uargvPtr.toNat) uargv args :=
    hstrings.imp fun ptr arg hon => hon.kept hover₃ (by omega) (by omega)
  refine .pure ⟨_, rfl, rfl, rfl, rfl, ?_, fun va hva => ?_, uargv, hargs, ?_⟩
  · refine (hover₁.mono fun va hva => ?_).trans
      ((hover₂.widen (by omega) le_rfl).trans (hover₃.widen (by omega) (by omega)))
    obtain ⟨page, hpage, hin⟩ := hva
    obtain ⟨hstarts, hle, hlt⟩ := (mem_pagesBetween hpages).1 hpage
    obtain ⟨i, hi, rfl⟩ := hin
    rw [BitVec.le_def] at hle
    rw [BitVec.lt_def] at hlt
    rw [PageStart] at hstarts
    rw [Between, PageStart.toNat_add hstarts hi]
    omega
  · have hlow := hva.2
    dsimp only at hlow
    rw [hover₃.kept va fun hin => ?_, hover₂.kept va fun hin => ?_]
    · exact hcleared va ⟨hva.1, by omega⟩
    · have := hin.1
      omega
    · have := hin.1
      omega
  · have happend : bytesOfWords (uargv ++ [0]) = bytesOfWords uargv ++ bytesOfWords [0] := by
      rw [bytesOfWords, List.flatMap_append]
      rfl
    have hplace : uargvPtr + BitVec.ofNat 64 (bytesOfWords uargv).length = sp - 8 := by
      apply BitVec.eq_of_toNat_eq
      rw [length_bytesOfWords, hstrings.length_eq, BitVec.toNat_add, BitVec.toNat_ofNat]
      omega
    rw [happend]
    refine hholds.append ?_
    rw [hplace]
    refine userHolds_null (fun va hva => ?_) (by omega)
    obtain ⟨hle, hlt⟩ := hva
    rw [hover₃.kept va fun hin => ?_, hover₂.kept va fun hin => ?_]
    · exact hcleared va ⟨by omega, by omega⟩
    · have := hin.1
      omega
    · have := hin.2
      omega

end SignalOS
