import SignalOS.Proc.Loader
import SignalOS.Vm.Contents

/-!
# Loading a segment

* `Phdr.Loadable` — the segments that the loader supports; `segmentByte` — what their
  pages have to hold.
* `loadFile_ends`, `clearBss_ends` — **the loops of a segment**: the first makes the pages
  what they have to be, the second clears bytes that are clear.
* `loadFile_congr` — the first loop reads no byte of the file but those of the segment.
-/

namespace SignalOS

open Partial

variable {vm vm' : Vm} {mm : Mm} {app : UserApp} {phdr : Phdr} {page p : Uint64}
  {pages : List Uint64}

/-- The address is in the page. -/
def InPage (page va : Uint64) : Prop := ∃ i < 4096, va = page + BitVec.ofNat 64 i

/-- The user page holds these bytes. -/
def PageHolds (vm : Vm) (mm : Mm) (page : Uint64) (f : Nat → Byte) : Prop :=
  ∀ i < 4096, userByte vm mm (page + BitVec.ofNat 64 i) = some (f i)

/-- The byte `i` of `n` bytes of the file at `off`, with zeros behind them. -/
def fileByte (app : UserApp) (off : Uint64) (n i : Nat) : Byte :=
  if i < n then (app.file (off + BitVec.ofNat 64 i)).getD 0 else 0

theorem toNat_copySize (remains : Uint64) :
    (MIN remains PGSIZE).toNat = min remains.toNat 4096 := by
  have hsize : PGSIZE.toNat = 4096 := rfl
  rw [MIN]
  split
  · rename_i hlt
    rw [BitVec.lt_def, hsize] at hlt
    omega
  · rename_i hlt
    rw [BitVec.lt_def, hsize] at hlt
    omega

theorem mapM_congr {α β : Type} {l : List α} {g g' : α → Option β} (h : ∀ a ∈ l, g a = g' a) :
    l.mapM g = l.mapM g' := by
  induction l with
  | nil => rfl
  | cons a l ih =>
    rw [List.mapM_cons, List.mapM_cons, h a List.mem_cons_self,
      ih fun b hb => h b (List.mem_cons_of_mem _ hb)]

/-- Of the bytes that are left, those that go to the next page can be read. -/
theorem bytes_run {off remains : Uint64} (h : HasBytes app.file off remains.toNat) :
    app.bytes off (MIN remains PGSIZE) vm = some
      ((List.range (MIN remains PGSIZE).toNat).map (fileByte app off remains.toNat), vm) := by
  have hcopy := toNat_copySize remains
  have hread : ((List.range (MIN remains PGSIZE).toNat).mapM fun i =>
      app.file (off + BitVec.ofNat 64 i)) = (List.range (MIN remains PGSIZE).toNat).mapM
        fun i => (pure (fileByte app off remains.toNat i) : Option Byte) := by
    refine mapM_congr fun i hi => ?_
    have hlt : i < remains.toNat := (List.mem_range.1 hi).trans_le (by omega)
    obtain ⟨c, hc⟩ := Option.isSome_iff_exists.1 (h i hlt)
    rw [fileByte, if_pos hlt, hc]
    rfl
  rw [UserApp.bytes, hread, List.mapM_pure]
  rfl

/-- Where the bytes are that are left after the next page. -/
theorem next_byte {remains : Uint64} (off : Uint64) {i : Nat}
    (hi : i < (remains - MIN remains PGSIZE).toNat) :
    (MIN remains PGSIZE).toNat + i < remains.toNat ∧ off + MIN remains PGSIZE + BitVec.ofNat 64 i =
      off + BitVec.ofNat 64 ((MIN remains PGSIZE).toNat + i) := by
  have hcopy := toNat_copySize remains
  rw [BitVec.toNat_sub] at hi
  refine ⟨by omega, ?_⟩
  rw [BitVec.ofNat_add, BitVec.ofNat_toNat, BitVec.setWidth_eq, BitVec.add_assoc]

theorem HasBytes.next {off remains : Uint64} (h : HasBytes app.file off remains.toNat) :
    HasBytes app.file (off + MIN remains PGSIZE) (remains - MIN remains PGSIZE).toNat := by
  intro i hi
  obtain ⟨hlt, hplace⟩ := next_byte off hi
  rw [hplace]
  exact h _ hlt

/-! ## One page -/

section Page

variable (hgood : Good vm mm.pgt) (hpage : PageStart page) (huser : IS_USER_VA page = true)
  (hframe : frameAt vm.pte mm.pgt (vpn page) = some p)

include hgood hpage huser hframe

theorem store_inPage {off : Nat} {src : List Byte} (hfit : off + src.length ≤ 4096) :
    Rewrites mm (InPage page) vm (vm.store (p + BitVec.ofNat 64 off) src) :=
  (store_rewrites hgood hpage huser hframe hfit).mono fun _ ⟨i, _, hi, hva⟩ => ⟨i, by omega, hva⟩

/-- The file goes to the page, and zeros behind it. -/
theorem filePage_ends (off remains : Uint64) :
    let copySize := MIN remains PGSIZE
    let src := (List.range copySize.toNat).map (fileByte app off remains.toNat)
    ∃ vm₁, storeBytes p src vm = some ((), vm₁) ∧
      (¬ copySize < PGSIZE → Rewrites mm (InPage page) vm vm₁ ∧
        PageHolds vm₁ mm page (fileByte app off remains.toNat)) ∧
      (copySize < PGSIZE → ∃ vm₂, setBytes (p + copySize) 0 (PGSIZE - copySize) vm₁ = some
        ((), vm₂) ∧
        Rewrites mm (InPage page) vm vm₂ ∧
          PageHolds vm₂ mm page (fileByte app off remains.toNat)) := by
  intro copySize src
  have hsize : PGSIZE.toNat = 4096 := rfl
  have hcopy : copySize.toNat = _ := toNat_copySize remains
  have hzero : p + BitVec.ofNat 64 0 = p := by simp
  have hlen : src.length = copySize.toNat := by rw [List.length_map, List.length_range]
  have hfit : 0 + src.length ≤ 4096 := by omega
  have hover := store_inPage hgood hpage huser hframe hfit
  have hbyte {i : Nat} (hi : i < copySize.toNat) :
      userByte (vm.store (p + BitVec.ofNat 64 0) src) mm (page + BitVec.ofNat 64 i) =
        some (fileByte app off remains.toNat i) := by
    have hstore := userByte_store hgood hpage huser hframe hfit (i := i) (by omega)
    rw [Nat.zero_add, List.getElem_map, List.getElem_range] at hstore
    exact hstore
  refine ⟨vm.store (p + BitVec.ofNat 64 0) src, by rw [hzero]; rfl,
    fun hfull => ⟨hover, ?_⟩, ?_⟩
  · intro i hi
    rw [BitVec.lt_def, hsize] at hfull
    exact hbyte (by omega)
  · intro hpart
    rw [BitVec.lt_def, hsize] at hpart
    set vm₁ := vm.store (p + BitVec.ofNat 64 0) src with hvm₁
    have hframe₁ : frameAt vm₁.pte mm.pgt (vpn page) = some p := hframe
    have hrest : (PGSIZE - copySize).toNat = 4096 - copySize.toNat := by
      rw [BitVec.toNat_sub, hsize]
      omega
    have hfit₁ : copySize.toNat + (List.replicate (PGSIZE - copySize).toNat (0 : Byte)).length ≤
        4096 := by
      rw [List.length_replicate]
      omega
    have hplace : p + BitVec.ofNat 64 copySize.toNat = p + copySize := by
      rw [BitVec.ofNat_toNat, BitVec.setWidth_eq]
    refine ⟨vm₁.store (p + copySize) (List.replicate (PGSIZE - copySize).toNat 0), ?_, ?_,
      fun i hi => ?_⟩
    · exact setBytes_run _ _ _ _
    · rw [← hplace]
      exact hover.trans (store_inPage (hover.good hgood) hpage huser hframe₁ hfit₁)
    · rw [← hplace]
      by_cases hin : i < copySize.toNat
      · -- the byte of the file is left alone
        rw [(store_rewrites (hover.good hgood) hpage huser hframe₁ hfit₁).kept _ ?_, hbyte hin]
        rintro ⟨j, hj, hj', heq⟩
        have heq := congrArg BitVec.toNat heq
        rw [hpage.toNat_add hi, hpage.toNat_add (by omega)] at heq
        omega
      · have hstore :=
          userByte_store (hover.good hgood) hpage huser hframe₁ hfit₁ (i := i - copySize.toNat)
            (by rw [List.length_replicate]; omega)
        rw [Nat.add_sub_cancel' (Nat.not_lt.1 hin), List.getElem_replicate] at hstore
        rw [hstore, fileByte, if_neg (by omega)]

end Page

theorem InPage.page_eq {va : Uint64} (hpage : PageStart page) (h : InPage page va) :
    PGROUNDDOWN va = page := by
  obtain ⟨i, hi, rfl⟩ := h
  exact PGROUNDDOWN_add hpage hi

/-- What is written to other pages does not show in this one. -/
theorem PageHolds.kept {f : Nat → Byte} {W : Uint64 → Prop} (h : PageHolds vm mm page f)
    (hover : Rewrites mm W vm vm') (hout : ∀ va, InPage page va → ¬ W va) :
    PageHolds vm' mm page f :=
  fun i hi => (hover.kept _ (hout _ ⟨i, hi, rfl⟩)).trans (h i hi)

/-! ## The file -/

/-- One page later in the file. -/
theorem fileByte_next (off remains : Uint64) (i : Nat) :
    fileByte app (off + MIN remains PGSIZE) (remains - MIN remains PGSIZE).toNat i =
      fileByte app off remains.toNat (4096 + i) := by
  have hcopy := toNat_copySize remains
  have hsub : (remains - MIN remains PGSIZE).toNat = remains.toNat - 4096 := by
    rw [BitVec.toNat_sub]
    omega
  rw [fileByte, fileByte, hsub]
  by_cases hi : 4096 + i < remains.toNat
  · have hfull : MIN remains PGSIZE = BitVec.ofNat 64 4096 := by
      apply BitVec.eq_of_toNat_eq
      rw [hcopy, BitVec.toNat_ofNat]
      omega
    rw [if_pos (by omega), if_pos hi, hfull, BitVec.add_assoc, ← BitVec.ofNat_add]
  · rw [if_neg (by omega), if_neg hi]

/-- The pages of a list hold `n` bytes of the file, one page after the other. -/
structure FileLoaded (app : UserApp) (mm : Mm) (off : Uint64) (n : Nat) (pages : List Uint64)
    (vm vm' : Vm) : Prop where
  rewrites : Rewrites mm (fun va => ∃ page ∈ pages, InPage page va) vm vm'
  holds : ∀ (t : Nat) (ht : t < pages.length), PageHolds vm' mm pages[t] fun i =>
    fileByte app off n (4096 * t + i)

/-- **The loop that copies the file.** -/
theorem loadFile_ends (hgood : Good vm mm.pgt) (huser : UserPages pages) (hnodup : pages.Nodup)
    (hframes : ∀ va ∈ pages, ∃ p, frameAt vm.pte mm.pgt (vpn va) = some p)
    (fileOff remains : Uint64) (hfile : HasBytes app.file (phdr.pOffset + fileOff) remains.toNat) :
    Ends (loadFile app mm phdr pages fileOff remains) vm fun r vm' =>
      r.toNat = remains.toNat - 4096 * pages.length ∧
        FileLoaded app mm (phdr.pOffset + fileOff) remains.toNat pages vm vm' := by
  induction pages generalizing vm fileOff remains with
  | nil =>
    refine .pure ⟨by simp, Rewrites.refl _ _ _, fun t ht => absurd ht (Nat.not_lt_zero t)⟩
  | cons page rest ih =>
    obtain ⟨huva, hpage⟩ := huser page List.mem_cons_self
    obtain ⟨p, hframe⟩ := hframes page List.mem_cons_self
    have hp := (hgood.owned p (.inr ⟨_, hframe⟩)).2
    obtain ⟨hnotin, hnodup⟩ := List.nodup_cons.1 hnodup
    obtain ⟨vm₁, hstore, hfull, hpart⟩ :=
      @filePage_ends _ _ app _ _ hgood hpage huva hframe (phdr.pOffset + fileOff) remains
    -- the pages after the first
    have hrest {vm₂ : Vm} (hover : Rewrites mm (InPage page) vm vm₂)
        (hholds : PageHolds vm₂ mm page (fileByte app (phdr.pOffset + fileOff) remains.toNat)) :
        Ends (loadFile app mm phdr rest (fileOff + MIN remains PGSIZE)
          (remains - MIN remains PGSIZE)) vm₂
          fun r vm' => r.toNat = remains.toNat - 4096 * (page :: rest).length ∧
            FileLoaded app mm (phdr.pOffset + fileOff) remains.toNat (page :: rest) vm vm' := by
      have hframes' : ∀ va ∈ rest, ∃ p, frameAt vm₂.pte mm.pgt (vpn va) = some p := by
        intro va hva
        rw [hover.pte]
        exact hframes va (List.mem_cons_of_mem _ hva)
      have hfile' := hfile.next
      rw [BitVec.add_assoc] at hfile'
      refine (ih (hover.good hgood) (fun va hva => huser va (List.mem_cons_of_mem _ hva)) hnodup
        hframes' _ _ hfile').mono
        fun r vm' ⟨hr, hloaded⟩ => ⟨?_, ?_, fun t ht => ?_⟩
      · rw [hr, BitVec.toNat_sub, toNat_copySize, List.length_cons]
        omega
      · refine (hover.mono ?_).trans (hloaded.rewrites.mono ?_)
        · exact fun va hva => ⟨page, List.mem_cons_self, hva⟩
        · exact fun va ⟨w, hw, hva⟩ => ⟨w, List.mem_cons_of_mem _ hw, hva⟩
      · cases t with
        | zero =>
          simp only [List.getElem_cons_zero, Nat.mul_zero, Nat.zero_add]
          refine hholds.kept hloaded.rewrites fun va hva => ?_
          rintro ⟨w, hw, hva'⟩
          have hwpage := (huser w (List.mem_cons_of_mem _ hw)).2
          have heq : page = w := (hva.page_eq hpage).symm.trans (hva'.page_eq hwpage)
          exact hnotin (heq ▸ hw)
        | succ t =>
          intro i hi
          have hbyte := hloaded.holds t (by simpa using ht) i hi
          rw [List.getElem_cons_succ, hbyte, ← BitVec.add_assoc]
          dsimp only
          rw [fileByte_next, Nat.mul_succ, ← Nat.add_assoc, Nat.add_comm 4096]
    refine .bind_of_eq (pageOf_frame huva hframe hp.ne_zero) (.bind_of_eq (bytes_run hfile)
      (.bind_of_eq hstore (.ite (fun hlt => ?_) fun hge => ?_)))
    · obtain ⟨vm₂, hset, hover, hholds⟩ := hpart hlt
      exact .bind_of_eq hset (hrest hover hholds)
    · obtain ⟨hover, hholds⟩ := hfull hge
      exact hrest hover hholds

/-- **The loop reads no byte of the file but those that it has to copy**: it does the same with
every file that has them, be it that there are no others. -/
theorem loadFile_congr {other : UserApp} {fileOff remains : Uint64}
    (h : ∀ i < remains.toNat, other.file (phdr.pOffset + fileOff + BitVec.ofNat 64 i) =
      app.file (phdr.pOffset + fileOff + BitVec.ofNat 64 i)) :
    loadFile other mm phdr pages fileOff remains = loadFile app mm phdr pages fileOff remains := by
  induction pages generalizing fileOff remains with
  | nil => rfl
  | cons va rest ih =>
    have hcopy := toNat_copySize remains
    have hbytes : other.bytes (phdr.pOffset + fileOff) (MIN remains PGSIZE) =
        app.bytes (phdr.pOffset + fileOff) (MIN remains PGSIZE) :=
      congrArg StateT.lift
        (mapM_congr fun i hi => h i ((List.mem_range.1 hi).trans_le (by omega)))
    have hnext := @ih (fileOff + MIN remains PGSIZE) (remains - MIN remains PGSIZE) fun i hi => by
      obtain ⟨hlt, hplace⟩ := next_byte (phdr.pOffset + fileOff) hi
      rw [← BitVec.add_assoc, hplace]
      exact h _ hlt
    rw [loadFile, loadFile]
    dsimp only
    rw [hbytes, hnext]

/-! ## `.bss` -/

theorem toNat_PGROUNDUP {a : Uint64} (h : a.toNat + 4095 < 2 ^ 64) :
    (PGROUNDUP a).toNat = (a.toNat + 4095) / 4096 * 4096 := by
  have hsum : PGROUNDUP a = PGROUNDDOWN (a + PGSIZE - 1) := rfl
  have hone : a + PGSIZE - 1 = a + BitVec.ofNat 64 4095 := by
    rw [PGSIZE]
    grind
  rw [hsum, toNat_PGROUNDDOWN, hone, BitVec.toNat_add, BitVec.toNat_ofNat]
  omega

/-- The pages from `base` on hold the bytes `f`. -/
def PagesHold (vm : Vm) (mm : Mm) (base : Uint64) (n : Nat) (f : Nat → Byte) : Prop :=
  ∀ t < n, PageHolds vm mm (base + BitVec.ofNat 64 (4096 * t)) fun i => f (4096 * t + i)

/-- The address is in one of the pages from `base` on. -/
def InPages (base : Uint64) (n : Nat) (va : Uint64) : Prop :=
  ∃ t < n, InPage (base + BitVec.ofNat 64 (4096 * t)) va

theorem toNat_page {base : Uint64} {n t : Nat} (hlow : base.toNat + 4096 * n < 2 ^ 64)
    (ht : t ≤ n) :
    (base + BitVec.ofNat 64 (4096 * t)).toNat = base.toNat + 4096 * t := by
  rw [BitVec.toNat_add, BitVec.toNat_ofNat]
  omega

section Pages

variable {base : Uint64} {n t : Nat} (hbase : PageStart base) (hlow : base.toNat + 4096 *
  n ≤ 2 ^ 38)

include hbase hlow

theorem pageStart_page (ht : t < n) : PageStart (base + BitVec.ofNat 64 (4096 * t)) := by
  rw [PageStart] at hbase ⊢
  rw [toNat_page (by omega) ht.le]
  omega

omit hbase in
theorem isUserVa_page (ht : t < n) : IS_USER_VA (base + BitVec.ofNat 64 (4096 * t)) = true := by
  have hmax : MAXVA.toNat = 2 ^ 38 := rfl
  refine decide_eq_true ?_
  rw [BitVec.le_def, hmax, toNat_page (by omega) ht.le]
  omega

/-- A store of the bytes that the pages have to hold anyway. -/
theorem PagesHold.store {f : Nat → Byte} {off : Nat} {src : List Byte}
    (hholds : PagesHold vm mm base n f)
    (hgood : Good vm mm.pgt) (ht : t < n)
    (hframe : frameAt vm.pte mm.pgt (vpn (base + BitVec.ofNat 64 (4096 * t))) = some p)
    (hfit : off + src.length ≤ 4096)
    (hsrc : ∀ (i : Nat) (hi : i < src.length), src[i] = f (4096 * t + off + i)) :
    Rewrites mm (InPages base n) vm (vm.store (p + BitVec.ofNat 64 off) src) ∧
      PagesHold (vm.store (p + BitVec.ofNat 64 off) src) mm base n f := by
  have hpage := pageStart_page hbase hlow ht
  have huser := isUserVa_page hlow ht
  refine ⟨(store_inPage hgood hpage huser hframe hfit).mono fun va hva => ⟨t, ht, hva⟩,
    fun t' ht' i hi => ?_⟩
  by_cases hin : t' = t ∧ off ≤ i ∧ i < off + src.length
  · obtain ⟨rfl, hle, hlt⟩ := hin
    have hstore := userByte_store hgood hpage huser hframe hfit (i := i - off) (by omega)
    rw [Nat.add_sub_cancel' hle, hsrc] at hstore
    rw [hstore, Nat.add_assoc, Nat.add_sub_cancel' hle]
  · rw [(store_rewrites hgood hpage huser hframe hfit).kept _ ?_]
    · exact hholds t' ht' i hi
    · rintro ⟨i', hle, hlt, heq⟩
      have heq := congrArg BitVec.toNat heq
      rw [(pageStart_page hbase hlow ht').toNat_add hi, hpage.toNat_add (by omega),
        toNat_page (by omega) ht'.le,
        toNat_page (by omega) ht.le] at heq
      exact hin ⟨by omega, by omega, by omega⟩

/-- **The loop that clears `.bss`** clears bytes that are clear. -/
theorem clearBss_ends {z stop j fuel : Nat} {f : Nat → Byte} (hgood : Good vm mm.pgt)
    (hframes : ∀ t < n, ∃ p,
      frameAt vm.pte mm.pgt (vpn (base + BitVec.ofNat 64 (4096 * t))) = some p)
    (hholds : PagesHold vm mm base n f) (hf : ∀ k, z ≤ k → f k = 0) (hstop : stop ≤ 4096 * n)
    (hz : z ≤ j)
    (hj : j ≤ 4096 * n) :
    Ends (clearBss mm (base + BitVec.ofNat 64 stop) fuel (base + BitVec.ofNat 64 j)) vm
      fun _ vm' =>
      Rewrites mm (InPages base n) vm vm' ∧ PagesHold vm' mm base n f := by
  have hva (k : Nat) (hk : k ≤ 4096 * n) : (base + BitVec.ofNat 64 k).toNat = base.toNat + k := by
    rw [BitVec.toNat_add, BitVec.toNat_ofNat]
    omega
  induction fuel generalizing vm j with
  | zero => exact .pure ⟨Rewrites.refl _ _ _, hholds⟩
  | succ fuel ih =>
    refine .ite (fun hlt => ?_) fun _ => .pure ⟨Rewrites.refl _ _ _, hholds⟩
    rw [BitVec.lt_def, hva j hj, hva stop hstop] at hlt
    have ht : j / 4096 < n := by omega
    have hpage : PGROUNDDOWN (base + BitVec.ofNat 64 j) = base + BitVec.ofNat 64
        (4096 * (j / 4096)) := by
      apply BitVec.eq_of_toNat_eq
      rw [PageStart] at hbase
      rw [toNat_PGROUNDDOWN, hva j hj, toNat_page (by omega) ht.le]
      omega
    obtain ⟨p, hframe⟩ := hframes _ ht
    have hp := (hgood.owned p (.inr ⟨_, hframe⟩)).2
    -- the rest of the page is cleared
    have hoff : base + BitVec.ofNat 64 j - (base + BitVec.ofNat 64 (4096 * (j / 4096))) =
        BitVec.ofNat 64 (j % 4096) := by
      have hsplit : BitVec.ofNat 64 j = BitVec.ofNat 64 (4096 * (j / 4096)) + BitVec.ofNat 64
          (j % 4096) := by
        rw [← BitVec.ofNat_add, Nat.div_add_mod]
      rw [hsplit]
      grind
    have hcount : (PGROUNDUP (base + BitVec.ofNat 64 j) - (base + BitVec.ofNat 64 j)).toNat =
        (4096 - j % 4096) % 4096 := by
      rw [PageStart] at hbase
      rw [BitVec.toNat_sub, toNat_PGROUNDUP (by rw [hva j hj]; omega), hva j hj]
      omega
    have hfit : j % 4096 + (List.replicate (PGROUNDUP (base + BitVec.ofNat 64 j) -
      (base + BitVec.ofNat 64 j)).toNat
        (0 : Byte)).length ≤ 4096 := by
      rw [List.length_replicate, hcount]
      omega
    obtain ⟨hover, hholds'⟩ := hholds.store hbase hlow hgood ht hframe hfit fun i hi => by
      rw [List.getElem_replicate, hf]
      omega
    have hnext : base + BitVec.ofNat 64 (4096 * (j / 4096)) + PGSIZE = base + BitVec.ofNat 64
        (4096 * (j / 4096 + 1)) := by
      rw [Nat.mul_succ, BitVec.ofNat_add, BitVec.add_assoc]
      rfl
    rw [hpage, hoff]
    refine .bind_of_eq (pageOf_frame (isUserVa_page hlow ht) hframe hp.ne_zero)
      (.bind_of_eq (setBytes_run _ _ _ _) ?_)
    rw [hnext]
    refine (ih (hover.good hgood) ?_ hholds' (by omega) (by omega)).mono fun _ vm' hrest =>
      ⟨hover.trans hrest.1, hrest.2⟩
    rw [hover.pte]
    exact hframes

end Pages

/-! ## A new vma -/

/-- A vma was mapped. -/
structure NewVma (vma : Vma) (mm : Mm) (vm vm' : Vm) : Prop where
  pool : vm.vmaAllocator = vma.addr :: vm'.vmaAllocator
  mms : vm'.mmAllocator = vm.mmAllocator
  wf : MmWf vm' { mm with vma := vma :: mm.vma }
  evolves : Evolves (Owns vm mm.pgt) (Owns vm' mm.pgt) vm vm'
  new : ∀ v, Covers vma.pages v → entryAt vm.pte mm.pgt v = 0
  others : ∀ v, ¬ Covers vma.pages v → entryAt vm'.pte mm.pgt v = entryAt vm.pte mm.pgt v
  kept : ∀ va, userByte vm mm va ≠ none → userByte vm' mm va = userByte vm mm va

/-- No vma with these addresses was mapped. -/
structure NoVma (vma : Vma) (mm : Mm) (vm : Vm) (ret : Int) (vm' : Vm) : Prop where
  neg : ret < 0
  tidy : Tidy vm' mm
  evolves : Evolves (Owns vm mm.pgt) (Owns vm' mm.pgt) vm vm'
  mms : vm'.mmAllocator = vm.mmAllocator
  objs : 0 ∉ vm.vmaAllocator → (∀ b ∈ mm.vma, Clear vma b) → vm'.vmaAllocator = vm.vmaAllocator

/-- How the mapping of a vma that was just allocated may end. -/
inductive VmaEnds (vma : Vma) (mm : Mm) (vm : Vm) : Int × Mm → Vm → Prop where
  | mapped {vm' : Vm} (new : NewVma vma mm vm vm') :
    VmaEnds vma mm vm (0, { mm with vma := vma :: mm.vma }) vm'
  | failed {ret : Int} {vm' : Vm} (none : NoVma vma mm vm ret vm') :
    VmaEnds vma mm vm (ret, mm) vm'

/-- **A new vma is mapped**, or the address space is as it was. -/
theorem newVma_ends {vma : Vma} {vm₁ : Vm} (hwf : MmWf vm mm) (hrange : vma.InRange)
    (hflags : UserFlags vma.pteFlags)
    (hobj : vm.vmaAllocator = vma.addr :: vm₁.vmaAllocator)
    (hmms : vm₁.mmAllocator = vm.mmAllocator)
    (hsame : SameMemory vm vm₁) : Ends (mmMappages mm vma) vm₁ (VmaEnds vma mm vm) := by
  have hchanges := hsame.changes hwf.good
  have hwf₁ : MmWf vm₁ mm := hwf.of_entries hchanges.good hchanges.entries
  refine (mmMappages_ends hwf₁.toTidy hrange hflags).mono fun r vm₂ hr => ?_
  cases hr with
  | mapped hbecomes hmaps htakes =>
    refine .mapped ⟨?_, ?_, hwf₁.cons hrange hflags hbecomes hmaps,
      hchanges.evolves.trans hbecomes.evolves,
      fun v hv => ?_, fun v hv => ?_, fun va hva => ?_⟩
    · rw [hobj, hbecomes.pools.vma]
    · rw [hbecomes.pools.mm, hmms]
    · rw [← hsame.pte]
      exact (hmaps.new v hv).1
    · rw [hbecomes.entries, hmaps.old v hv, hsame.pte]
    · have hva₁ : userByte vm₁ mm va = userByte vm mm va := by
        rw [userByte, userByte, userPa_congr hsame.pte, hsame.byte]
      rw [← hva₁] at hva ⊢
      exact mapped_kept hwf₁.good hbecomes hmaps htakes hva
  | overlap hoverlap =>
    refine .failed ⟨by decide, hwf₁.toTidy, hchanges.evolves, hmms, fun _ hclear => ?_⟩
    obtain ⟨b, hb, hhit⟩ := not_clear_of_overlap hoverlap
    exact absurd (hclear b hb) hhit
  | failed hneg hchanged hmms' hvmas =>
    refine .failed ⟨hneg, hwf₁.toTidy.of_unmapped hchanged,
      hchanges.evolves.trans hchanged.evolves, ?_,
      fun hnull _ => ?_⟩
    · rw [hmms', hmms]
    · have hne : vma.addr ≠ 0 := fun heq => hnull (by rw [hobj, heq]; exact List.mem_cons_self)
      rw [hvmas, hobj]
      exact if_neg hne

/-! ## A segment -/

/-- The number of pages of a segment. -/
def Phdr.npages (phdr : Phdr) : Nat := (phdr.pMemsz.toNat + 4095) / 4096

/-- A segment that the loader supports: it starts at a page, lies below the trapframe, and the
user may do something with it. -/
structure Phdr.Loadable (phdr : Phdr) : Prop where
  page : PageStart phdr.pVaddr
  fits : phdr.pFilesz ≤ phdr.pMemsz
  flags : phdr.pFlags &&& (PF_R ||| PF_W ||| PF_X) ≠ 0
  low : phdr.pVaddr.toNat + 4096 * phdr.npages ≤ TRAPFRAME.toNat

/-- The vma of a segment. -/
def Phdr.vma (phdr : Phdr) (obj : Uint64) : Vma :=
  ⟨obj, PGROUNDDOWN phdr.pVaddr, PGROUNDUP (PGROUNDDOWN phdr.pVaddr + phdr.pMemsz), phdrPerm phdr⟩

/-- The bytes that its pages have to hold. -/
def segmentByte (app : UserApp) (phdr : Phdr) : Nat → Byte :=
  fileByte app phdr.pOffset phdr.pFilesz.toNat

theorem userFlags_phdrPerm (h : phdr.pFlags &&& (PF_R ||| PF_W ||| PF_X) ≠ 0) :
    UserFlags (phdrPerm phdr) := by
  have hor : phdr.pFlags &&& (PF_R ||| PF_W ||| PF_X) =
      phdr.pFlags &&& PF_R ||| phdr.pFlags &&& PF_W ||| phdr.pFlags &&& PF_X := by
    rw [BitVec.and_or_distrib_left, BitVec.and_or_distrib_left]
  rw [hor] at h
  rw [phdrPerm]
  by_cases hr : phdr.pFlags &&& PF_R = 0
  · by_cases hw : phdr.pFlags &&& PF_W = 0
    · have hx : phdr.pFlags &&& PF_X ≠ 0 := fun hx => h (by rw [hr, hw, hx]; rfl)
      rw [if_neg (not_not.2 hr), if_neg (not_not.2 hw), if_pos hx]
      exact ⟨by decide, by decide, by decide⟩
    · rw [if_neg (not_not.2 hr), if_pos hw]
      split <;> exact ⟨by decide, by decide, by decide⟩
  · rw [if_pos hr]
    split <;> split <;> exact ⟨by decide, by decide, by decide⟩

namespace Phdr.Loadable

variable (h : phdr.Loadable)

include h

theorem start_eq (obj : Uint64) : (phdr.vma obj).vmStart = phdr.pVaddr := h.page.down

theorem high : phdr.pVaddr.toNat + 4096 * phdr.npages ≤ 2 ^ 38 := by
  have hlow := h.low
  have htop : TRAPFRAME.toNat = 2 ^ 38 - 8192 := rfl
  omega

theorem stop_eq (obj : Uint64) :
    (phdr.vma obj).vmEnd = phdr.pVaddr + BitVec.ofNat 64 (4096 * phdr.npages) := by
  have hhigh := h.high
  have hpage := h.page
  rw [PageStart] at hpage
  apply BitVec.eq_of_toNat_eq
  show (PGROUNDUP (PGROUNDDOWN phdr.pVaddr + phdr.pMemsz)).toNat = _
  rw [Phdr.npages] at hhigh ⊢
  have hsum : (phdr.pVaddr + phdr.pMemsz).toNat = phdr.pVaddr.toNat + phdr.pMemsz.toNat := by
    rw [BitVec.toNat_add]
    omega
  rw [h.page.down, toNat_PGROUNDUP (by omega), hsum, BitVec.toNat_add, BitVec.toNat_ofNat]
  omega

theorem toNat_stop (obj : Uint64) :
    (phdr.vma obj).vmEnd.toNat = phdr.pVaddr.toNat + 4096 * phdr.npages := by
  rw [h.stop_eq, toNat_page (n := phdr.npages) (by have := h.high; omega) le_rfl]

theorem inRange (obj : Uint64) : (phdr.vma obj).InRange := by
  have hlow := h.low
  have hpage := h.page
  have hmax : MAXVA.toNat = 2 ^ 38 := rfl
  have htop : TRAPFRAME.toNat = 2 ^ 38 - 8192 := rfl
  refine ⟨?_, ?_, ?_, ?_⟩
  · rw [h.start_eq]
    exact h.page
  · rw [PageStart] at hpage ⊢
    rw [h.toNat_stop]
    omega
  · rw [h.start_eq, BitVec.le_def]
    omega
  · rw [BitVec.le_def, h.toNat_stop]
    omega

/-- The pages of a segment, one after the other. -/
theorem pages_eq (obj : Uint64) : (phdr.vma obj).pages =
    (List.range phdr.npages).map fun t => phdr.pVaddr + BitVec.ofNat 64 (4096 * t) := by
  have hstop := h.toNat_stop obj
  have hlt := (phdr.vma obj).vmEnd.isLt
  rw [Vma.pages, pagesBetween, h.start_eq]
  by_cases hempty : phdr.npages = 0
  · rw [if_neg fun hlt => by rw [BitVec.lt_def] at hlt; omega, hempty]
    rfl
  · rw [if_pos (BitVec.lt_def.2 (by omega)), BitVec.toNat_sub]
    congr 2
    omega

theorem filesz_le : phdr.pFilesz.toNat ≤ 4096 * phdr.npages := by
  have hfits := h.fits
  rw [BitVec.le_def] at hfits
  rw [Phdr.npages]
  omega

end Phdr.Loadable

/-- The pages of a segment hold what the loop over the file has stored there. -/
theorem FileLoaded.pagesHold {obj : Uint64} (h : phdr.Loadable)
    (hloaded : FileLoaded app mm (phdr.pOffset + 0) phdr.pFilesz.toNat (phdr.vma obj).pages
      vm vm') :
    Rewrites mm (InPages phdr.pVaddr phdr.npages) vm vm' ∧
      PagesHold vm' mm phdr.pVaddr phdr.npages (segmentByte app phdr) := by
  obtain ⟨hover, hholds⟩ := hloaded
  rw [h.pages_eq] at hover
  refine ⟨hover.mono ?_, fun t ht i hi => ?_⟩
  · rintro va ⟨page, hpage, hva⟩
    obtain ⟨t, ht, rfl⟩ := List.mem_map.1 hpage
    exact ⟨t, List.mem_range.1 ht, hva⟩
  · have ht' : t < (phdr.vma obj).pages.length := by
      rwa [h.pages_eq, List.length_map, List.length_range]
    have hpage : (phdr.vma obj).pages[t] = phdr.pVaddr + BitVec.ofNat 64 (4096 * t) := by
      simp only [h.pages_eq, List.getElem_map, List.getElem_range]
    have hzero : phdr.pOffset + 0 = phdr.pOffset := by simp
    have hbyte := hholds t ht' i hi
    rw [hpage, hzero] at hbyte
    exact hbyte

/-- **The loops of a segment** make its pages what they have to be. -/
theorem fillSegment_ends {obj : Uint64} (h : phdr.Loadable)
    (hbytes : HasBytes app.file phdr.pOffset phdr.pFilesz.toNat) (hgood : Good vm mm.pgt)
    (hframes : ∀ va ∈ (phdr.vma obj).pages, ∃ p, frameAt vm.pte mm.pgt (vpn va) = some p) :
    Ends (do
      let fileRemains ← loadFile app mm phdr (phdr.vma obj).pages 0 phdr.pFilesz
      if phdr.pMemsz > phdr.pFilesz then
        clearBss mm (phdr.pVaddr + phdr.pMemsz) ((phdr.pMemsz - phdr.pFilesz).toNat / 4096 + 2)
          (phdr.pVaddr + phdr.pFilesz)
      kassert (fileRemains == 0)
      return Build.ok mm) vm fun r vm' => r = .ok mm ∧
        Rewrites mm (InPages phdr.pVaddr phdr.npages) vm vm' ∧
        PagesHold vm' mm phdr.pVaddr phdr.npages (segmentByte app phdr) := by
  have hfile :=
    @loadFile_ends _ _ app phdr _ hgood (h.inRange obj).userPages (nodup_pagesBetween _ _)
      hframes 0 phdr.pFilesz (by simpa using hbytes)
  refine .bind hfile fun r vm₁ ⟨hr, hloaded⟩ => ?_
  obtain ⟨hover, hholds⟩ := hloaded.pagesHold h
  have hrest : (r == 0) = true := by
    rw [beq_iff_eq]
    apply BitVec.eq_of_toNat_eq
    have hle := h.filesz_le
    have hzero : (0 : Uint64).toNat = 0 := rfl
    rw [hr, h.pages_eq, List.length_map, List.length_range, hzero]
    omega
  have hdone {vm₂ : Vm} (hover : Rewrites mm (InPages phdr.pVaddr phdr.npages) vm vm₂)
      (hholds : PagesHold vm₂ mm phdr.pVaddr phdr.npages (segmentByte app phdr)) :
      Ends (do
        kassert (r == 0)
        return Build.ok mm) vm₂ fun r vm' => r = .ok mm ∧
          Rewrites mm (InPages phdr.pVaddr phdr.npages) vm vm' ∧
          PagesHold vm' mm phdr.pVaddr phdr.npages (segmentByte app phdr) :=
    .bind_of_eq (kassert_true hrest) (.pure ⟨rfl, hover, hholds⟩)
  refine .ite (fun hlt => ?_) fun _ => hdone hover hholds
  have hword (n : Uint64) : phdr.pVaddr + BitVec.ofNat 64 n.toNat = phdr.pVaddr + n := by
    rw [BitVec.ofNat_toNat, BitVec.setWidth_eq]
  have hframes₁ : ∀ t < phdr.npages,
      ∃ p, frameAt vm₁.pte mm.pgt (vpn (phdr.pVaddr + BitVec.ofNat 64 (4096 * t))) = some p := by
    intro t ht
    rw [hover.pte]
    refine hframes _ ?_
    rw [h.pages_eq]
    exact List.mem_map.2 ⟨t, List.mem_range.2 ht, rfl⟩
  have hmem : phdr.pMemsz.toNat ≤ 4096 * phdr.npages := by
    rw [Phdr.npages]
    omega
  have hclear :=
    @clearBss_ends _ _ _ _ h.page h.high _ _ _ ((phdr.pMemsz - phdr.pFilesz).toNat / 4096 + 2) _
      (hover.good hgood)
      hframes₁ hholds (fun k hk => if_neg (Nat.not_lt.2 hk)) hmem le_rfl h.filesz_le
  rw [hword, hword] at hclear
  exact .bind hclear fun _ vm₂ ⟨hover', hholds'⟩ => hdone (hover.trans hover') hholds'

/-- How loading a segment may end. -/
inductive PhdrEnds (app : UserApp) (phdr : Phdr) (mm : Mm) (vm : Vm) : Build Mm → Vm → Prop where
  | ok {obj : Uint64} {vm' : Vm} (new : NewVma (phdr.vma obj) mm vm vm')
      (holds : PagesHold vm' mm phdr.pVaddr phdr.npages (segmentByte app phdr)) :
      PhdrEnds app phdr mm vm (.ok { mm with vma := phdr.vma obj :: mm.vma }) vm'
  | bad {ret : Int} {vm' : Vm} {obj : Uint64} (none : NoVma (phdr.vma obj) mm vm ret vm') :
      PhdrEnds app phdr mm vm (.bad ret mm) vm'

/-- An address in a page of the segment is covered by its vma. -/
theorem InPages.covers {obj va : Uint64} (h : phdr.Loadable)
    (hva : InPages phdr.pVaddr phdr.npages va) :
    Covers (phdr.vma obj).pages (vpn (PGROUNDDOWN va)) := by
  obtain ⟨t, ht, hin⟩ := hva
  refine ⟨phdr.pVaddr + BitVec.ofNat 64 (4096 * t), ?_, ?_⟩
  · rw [h.pages_eq]
    exact List.mem_map.2 ⟨t, List.mem_range.2 ht, rfl⟩
  · rw [hin.page_eq (pageStart_page h.page h.high ht)]

/-- What is stored in the pages of a new vma. -/
theorem NewVma.rewrites {vma : Vma} {vm₁ : Vm} {W : Uint64 → Prop} (h : NewVma vma mm vm vm₁)
    (hover : Rewrites mm W vm₁ vm') (hW : ∀ va, W va → Covers vma.pages (vpn (PGROUNDDOWN va))) :
    NewVma vma mm vm vm' := by
  refine ⟨?_, ?_, ?_, h.evolves.trans hover.evolves, h.new, fun v hv => ?_, fun va hva => ?_⟩
  · rw [hover.pools.vma, h.pool]
  · rw [hover.pools.mm, h.mms]
  · exact h.wf.of_entries (hover.good h.wf.good) (by rw [hover.pte])
  · rw [hover.pte, h.others v hv]
  · rw [hover.kept va fun hin => ?_, h.kept va hva]
    -- the page was mapped before, so it is not one of the vma
    obtain ⟨-, p, hframe, -⟩ := frame_of_userByte hva
    rw [frameAt, h.new _ (hW va hin)] at hframe
    cases frameOf_zero.symm.trans hframe

/-- **A segment is loaded**, or the address space is as it was. -/
theorem loadPhdr_ends {C : Prop} (h : phdr.Loadable)
    (hbytes : HasBytes app.file phdr.pOffset phdr.pFilesz.toNat) (hwf : MmWf vm mm)
    (hpool : C ∨ vm.vmaAllocator ≠ []) :
    EndsUnless C (loadPhdr app mm phdr) vm (PhdrEnds app phdr mm vm) := by
  have hflags := userFlags_phdrPerm h.flags
  refine .bind_of_eq (kassert_true (PGALIGNED_iff.2 h.page)) ?_
  refine .bind (mmCreateVma_ends hpool) ?_
  rintro _ vm₀ ⟨obj, rfl, hobj, hmms, hsame⟩
  have hmap := @newVma_ends _ _ (phdr.vma obj) _ hwf (h.inRange obj) hflags hobj hmms hsame
  refine .bind (hmap.unless C) fun r vm₁ hr => ?_
  cases hr with
  | failed hnone => exact .ite (fun _ => .pure (.bad hnone)) fun hle => absurd hnone.neg hle
  | mapped hnew =>
    refine .ite (fun hneg => absurd hneg (by decide)) fun _ => ?_
    have hframes : ∀ va ∈ (phdr.vma obj).pages, ∃ p, frameAt vm₁.pte mm.pgt (vpn va) = some p := by
      intro va hva
      refine ⟨PTE2PA (entryAt vm₁.pte mm.pgt (vpn va)), ?_⟩
      exact (hnew.wf.mapped _ List.mem_cons_self va hva).frame hflags
    have hfill :=
      @fillSegment_ends _ { mm with vma := phdr.vma obj :: mm.vma } app _ _ h hbytes hnew.wf.good
        hframes
    refine (hfill.mono ?_).unless C
    rintro _ vm' ⟨rfl, hover, hholds⟩
    have hover' : Rewrites mm (InPages phdr.pVaddr phdr.npages) vm₁ vm' :=
      ⟨hover.frame, hover.outside, hover.kept⟩
    exact .ok (hnew.rewrites hover' fun va hva => hva.covers h) hholds

end SignalOS
