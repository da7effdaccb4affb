import SignalOS.Lib.Fault
import SignalOS.Proc.Image
import SignalOS.Vm.Create

/-!
# The array of arguments

`load_user_elf` with the array that `sys_exec` hands to it, and with its locks.

* `Arg` — an entry of `char *arg[MAXARG]` that is not `NULL`.
* `pushStringsChecked`, `loadElfChecked` — the loader on an array, which it may leave.
* `loadElfChecked_agrees` — **with a `NULL` in the array it is `loadUserElf`**, and it
  gives back every lock that it takes.
* `loadElfChecked_full` — **without one it fails, or it leaves the array**.
-/

namespace SignalOS

open Fault LittleEndian Partial Spin

variable {vm vm' : Vm} {mm mm' : Mm} {app : UserApp} {held : List SpinLock}

/-! ## Mapping and pushing -/

/-- `load_user_elf` up to the point where all pages are allocated: the address space, the vma of
the heap and its start. -/
def mapImage (app : UserApp) (newMm : Mm) : VmM (Build (Mm × Uint64 × Uint64)) := do
  match ← loadPhdrs app app.phdrs newMm 0 with
  | .bad ret mm => return .bad ret mm
  | .ok (mm, maxVaEnd) =>
    let vmaBrk : Vma := ⟨(← mmCreateVma).addr, maxVaEnd, maxVaEnd, PTE_R ||| PTE_W ||| PTE_U⟩
    let (ret, mm) ← mmMappages mm vmaBrk
    if ret < 0 then
      return .bad ret mm
    else
      let vmaUstack : Vma :=
        ⟨(← mmCreateVma).addr, USTACK_START - USTACK_SIZE, USTACK_START, PTE_R ||| PTE_W ||| PTE_U⟩
      let (ret, mm) ← mmMappages mm vmaUstack
      if ret < 0 then
        return .bad ret mm
      else
        (pagesBetween vmaUstack.vmStart vmaUstack.vmEnd).forM fun va => do
          setBytes (← pageOf mm va) 0 PGSIZE
        return .ok (mm, vmaBrk.addr, maxVaEnd)

/-- The arguments are pushed after that. -/
theorem buildImage_eq (app : UserApp) (newMm : Mm) (args : List (List Byte)) :
    buildImage app newMm args = (do
      match ← mapImage app newMm with
      | .bad ret mm => return .bad ret mm
      | .ok (mm, vmaBrk, brk) =>
        let (uargv, sp) ← pushStrings mm args USTACK_START
        let uargvPtr ← pushArgv mm uargv.reverse (sp - 8)
        return .ok ⟨mm, vmaBrk, brk, uargvPtr &&& ~~~15, uargvPtr⟩) := by
  rw [buildImage, mapImage, bind_assoc]
  refine bind_congr fun r => ?_
  cases r with
  | bad ret mm => rw [pure_bind]
  | ok r =>
    simp only [bind_assoc]
    refine bind_congr fun vma => bind_congr fun r => ?_
    split
    · rw [pure_bind]
    · simp only [bind_assoc]
      refine bind_congr fun vma => bind_congr fun r => ?_
      split
      · rw [pure_bind]
      · simp only [bind_assoc, pure_bind]

/-- **Mapping the pages of an image.** -/
theorem mapImage_ends (h : ∀ phdr ∈ loads app.phdrs, phdr.Loadable) (hwf : MmWf vm mm)
    (hpool : (loads app.phdrs).length + 2 ≤ vm.vmaAllocator.length) :
    Ends (mapImage app mm) vm fun r vm' => match r with
      | .ok r => HasStack vm' r.1
      | .bad _ mm' => Tidy vm' mm' ∧ mm'.refcnt = mm.refcnt := by
  have hends := (@buildImage_ends _ _ _ False [] h (by decide) hwf (.inr hpool)).total id
  rw [buildImage_eq] at hends
  obtain ⟨img, vm', hrun, hbuilt⟩ := hends
  obtain ⟨r, vm₁, hmap, hrest⟩ := bind_eq_some.1 hrun
  refine .of_eq hmap ?_
  cases r with
  | bad ret mm' =>
    obtain ⟨rfl, rfl⟩ := pure_eq_some.1 hrest
    generalize hbad : Build.bad ret mm' = b at hbuilt
    cases hbuilt with
    | ok => exact nomatch hbad
    | bad _ tidy =>
      obtain ⟨-, rfl⟩ := Build.bad.inj hbad
      exact ⟨tidy, rfl⟩
  | ok r =>
    obtain ⟨mm', vmaBrk, brk⟩ := r
    -- nothing is pushed
    have hnone : (some (Build.ok ⟨mm', vmaBrk, brk, (USTACK_START - 8) &&& ~~~15,
      USTACK_START - 8⟩, vm₁) :
      Option (Build Image × Vm)) = some (img, vm') := hrest
    obtain ⟨rfl, rfl⟩ := Prod.mk.inj (Option.some.inj hnone)
    generalize hok : Build.ok (α := Image) _ = b at hbuilt
    cases hbuilt with
    | bad => exact nomatch hok
    | ok built =>
      obtain rfl := Build.ok.inj hok
      obtain ⟨objs, b, s, -, himg, -⟩ := built.list
      have hwf' := built.wf
      dsimp only at himg hwf' ⊢
      subst himg
      exact hasStack hwf'

/-- The address space that is built stays the same object. -/
def Build.IsAt {α : Type} (obj : Uint64) : Build (Mm × α) → Prop
  | .ok r => r.1.addr = obj
  | .bad _ mm => mm.addr = obj

theorem mmMappages_addr (mm : Mm) (vma : Vma) :
    Returns (fun r => r.2.addr = mm.addr) (mmMappages mm vma) := by
  refine .bind fun _ => .bind fun _ => .bind fun _ => ?_
  split
  · exact .pure rfl
  · refine .bind fun ret => ?_
    split
    · exact .bind fun _ => .bind fun _ => .pure rfl
    · exact .pure rfl

theorem loadPhdr_addr (app : UserApp) (mm : Mm) (phdr : Phdr) :
    Returns (fun | .ok mm' => mm'.addr = mm.addr | .bad _ mm' => mm'.addr = mm.addr)
      (loadPhdr app mm phdr) := by
  refine .bind fun _ => .bind fun vma => .bind_of (mmMappages_addr mm _) ?_
  rintro ⟨ret, mm'⟩ hmm'
  by_cases hneg : ret < 0
  · simp only [if_pos hneg]
    exact .pure hmm'
  · simp only [if_neg hneg]
    refine .bind fun rest => ?_
    split
    · exact .bind fun _ => .bind fun _ => .pure hmm'
    · exact .bind fun _ => .pure hmm'

theorem loadPhdrs_addr (app : UserApp) (phdrs : List Phdr) (mm : Mm) (top : Uint64) :
    Returns (Build.IsAt mm.addr) (loadPhdrs app phdrs mm top) := by
  induction phdrs generalizing mm top with
  | nil => exact .pure rfl
  | cons phdr rest ih =>
    rw [loadPhdrs]
    split
    · exact ih mm top
    · refine .bind_of (loadPhdr_addr app mm phdr) fun r hr => ?_
      cases r with
      | bad ret mm' => exact .pure hr
      | ok mm' =>
        have hmm' : mm'.addr = mm.addr := hr
        rw [← hmm']
        exact ih _ _

theorem mapImage_addr (app : UserApp) (newMm : Mm) :
    Returns (Build.IsAt newMm.addr) (mapImage app newMm) := by
  refine .bind_of (loadPhdrs_addr app app.phdrs newMm 0) fun r hr => ?_
  cases r with
  | bad ret mm => exact .pure hr
  | ok r =>
    have hmm : r.1.addr = newMm.addr := hr
    refine .bind fun vma => .bind_of (mmMappages_addr _ _) ?_
    rintro ⟨ret, mm'⟩ hmm'
    by_cases hneg : ret < 0
    · simp only [if_pos hneg]
      exact .pure (hmm'.trans hmm)
    · simp only [if_neg hneg]
      refine .bind fun vma => .bind_of (mmMappages_addr _ _) ?_
      rintro ⟨ret, mm''⟩ hmm''
      by_cases hneg : ret < 0
      · simp only [if_pos hneg]
        exact .pure (hmm''.trans (hmm'.trans hmm))
      · simp only [if_neg hneg]
        exact .bind fun _ => .pure (hmm''.trans (hmm'.trans hmm))

/-! ## The array -/

/-- An entry that is not `NULL`: the buffer, and the string in it. -/
structure Arg where
  obj : Uint64
  str : List Byte
  deriving DecidableEq

/-- A store to `uargv[i]`. -/
def writeUargv (i : Nat) : FaultM (Vm × List SpinLock) Unit :=
  if i < MAXARG then pure () else outside

/-- The loop that pushes the strings, from entry `i` of the array on. -/
def pushStringsChecked (mm : Mm) :
    List (Option Arg) → (i : Nat) → (sp : Uint64) →
      FaultM (Vm × List SpinLock) (List Uint64 × Uint64)
  | [], _, _ => outside
  | none :: _, _, sp => return ([], sp)
  | some arg :: rest, i, sp => do
    let sp := (sp - BitVec.ofNat 64 (arg.str.length + 1)) &&& ~~~7
    let kva ← lift (userKva mm sp)
    lift (storeBytes kva (arg.str ++ [0]))
    writeUargv i
    let (uargv, sp') ← pushStringsChecked mm rest (i + 1) sp
    return (sp :: uargv, sp')

/-- `mm_free(mm)` with its lock. -/
def mmFreeLocked (mm : Mm) : FaultM (Vm × List SpinLock) Unit := do
  locked (assertHolding (.mm mm.addr))
  lift (kassert (mm.refcnt > 0))
  let mm' ← lift (mmFreeVmas mm)
  lift (freepgt 3 mm'.pgt)
  locked (release (.mm mm.addr))
  lift (kfreeMm mm'.addr)

/-- `load_user_elf(app, p, args)` on the array, with its locks. -/
def loadElfChecked (app : UserApp) (p : Proc) (args : List (Option Arg)) :
    FaultM (Vm × List SpinLock) (Int × Proc) := do
  lift (kassert (p.state != .unused))
  match ← locked (mmCreateLocked p.trapframePa) with
  | none => return (-ENOMEM, p)
  | some newMm =>
    match ← lift (mapImage app newMm) with
    | .bad ret mm =>
      mmFreeLocked mm
      return (ret, p)
    | .ok (mm, vmaBrk, brk) =>
      let (uargv, sp) ← pushStringsChecked mm args 0 USTACK_START
      let uargvPtr ← lift (pushArgv mm uargv.reverse (sp - 8))
      locked (release (.mm mm.addr))
      match p.mm with
      | none => pure ()
      | some old =>
        locked (acquire (.mm old.addr))
        mmFreeLocked old
      return (0, p.installImage ⟨mm, vmaBrk, brk, uargvPtr &&& ~~~15,
        uargvPtr⟩ app.eEntry uargv.length)

/-! ## With a `NULL` -/

theorem pushStringsChecked_agrees {l : List Arg} {rest : List (Option Arg)} {i : Nat} {sp : Uint64}
    (h : i + l.length ≤ MAXARG) :
    Agrees held (fun _ => held) (pushStringsChecked mm (l.map some ++ none :: rest) i sp)
      (pushStrings mm (l.map Arg.str) sp) := by
  induction l generalizing i sp with
  | nil => exact .pure rfl
  | cons arg l ih =>
    rw [List.length_cons] at h
    have hin : writeUargv i = pure () := if_pos (by omega)
    refine (Agrees.lift _ _).bind fun kva => (Agrees.lift _ _).bind fun _ => ?_
    rw [hin, pure_bind]
    exact (ih (by omega)).bind fun r => .pure rfl

theorem mmFreeLocked_agrees :
    Agrees (.mm mm.addr :: held) (fun _ => held) (mmFreeLocked mm) (mmFree mm) := by
  refine .lock_bind (.assertHolding List.mem_cons_self) ((Agrees.lift _ _).bind fun _ => ?_)
  refine (Agrees.lift _ _).bind fun mm' => (Agrees.lift _ _).bind fun _ => ?_
  refine .lock_bind (.release List.mem_cons_self) ?_
  rw [List.erase_cons_head]
  exact .lift _ _

theorem mmCreateLocked_agrees (tf : Uint64) :
    Agrees [.proc] (locksAfter [.proc]) (locked (mmCreateLocked tf)) (mmCreate tf) := by
  refine .locked fun vm => ?_
  cases hpool : vm.mmAllocator with
  | nil =>
    have hnone : kallocMm vm = none := by rw [kallocMm, kalloc, hpool]
    have hlocked : mmCreateLocked tf (vm, [.proc]) = none := by
      show (Option.map _ (kallocMm vm)).bind _ = none
      rw [hnone]
      rfl
    have hcreate : mmCreate tf vm = none := by
      show (kallocMm vm).bind _ = none
      rw [hnone]
      rfl
    rw [hlocked, hcreate]
    rfl
  | cons obj pool =>
    have hfilter : [SpinLock.proc].filter (· ≠ .mm obj) = [.proc] := by simp
    rw [mmCreateLocked_eq hpool, hfilter]

theorem pushStrings_length (mm : Mm) (args : List (List Byte)) (sp : Uint64) :
    Returns (fun r => r.1.length = args.length) (pushStrings mm args sp) := by
  induction args generalizing sp with
  | nil => exact .pure rfl
  | cons arg rest ih =>
    refine .bind fun kva => .bind fun _ => .bind_of (ih _) fun r hr => .pure ?_
    rw [List.length_cons, List.length_cons, hr]

/-- **With a `NULL` in the array it is `loadUserElf`**, and it gives back every lock. -/
theorem loadElfChecked_agrees {p : Proc} {l : List Arg} {rest : List (Option Arg)}
    (h : l.length ≤ MAXARG) :
    Agrees [.proc] (fun _ => [.proc]) (loadElfChecked app p (l.map some ++ none :: rest))
      (loadUserElf app p (l.map Arg.str)) := by
  refine (Agrees.lift _ _).bind fun _ => (mmCreateLocked_agrees _).bind fun r => ?_
  cases r with
  | none => exact .pure rfl
  | some newMm =>
    dsimp only
    rw [buildImage_eq, bind_assoc]
    refine (Agrees.lift _ _).bind_of (mapImage_addr app newMm) fun r hr => ?_
    cases r with
    | bad ret mm =>
      have hmm : newMm.addr = mm.addr := hr.symm
      dsimp only [locksAfter]
      rw [pure_bind, hmm]
      exact mmFreeLocked_agrees.bind fun _ => .pure rfl
    | ok r =>
      obtain ⟨mm, vmaBrk, brk⟩ := r
      have hmm : newMm.addr = mm.addr := hr.symm
      dsimp only [locksAfter]
      rw [hmm, bind_assoc]
      refine (pushStringsChecked_agrees (by omega)).bind_of (pushStrings_length _ _ _)
        fun r hlen => ?_
      obtain ⟨uargv, sp⟩ := r
      rw [bind_assoc]
      refine (Agrees.lift _ _).bind fun uargvPtr => ?_
      rw [pure_bind]
      refine .lock_bind (.release List.mem_cons_self) ?_
      have hlen : uargv.length = (l.map Arg.str).length := hlen
      rw [List.erase_cons_head, hlen]
      dsimp only
      cases p.mm with
      | none => exact .pure rfl
      | some old =>
        exact .lock_bind (.acquire (by simp)) (mmFreeLocked_agrees.bind fun _ => .pure rfl)

/-! ## Without a `NULL` -/

/-- **The loop over the strings leaves the array**, as the stack has room for that many. -/
theorem pushStringsChecked_full {l : List Arg} {i : Nat} {sp : Uint64} (h : HasStack vm mm)
    (halign : sp.toNat % 8 = 0)
    (htop : sp.toNat ≤ USTACK_START.toNat) (hfit : stackBase + 256 * l.length ≤ sp.toNat)
    (hstr : ∀ arg ∈ l, arg.str.length < KSTRING_MAX) :
    NoPanic (pushStringsChecked mm (l.map some) i sp) (vm, held) fun _ _ => False := by
  have hmax : KSTRING_MAX = 256 := rfl
  induction l generalizing vm i sp with
  | nil => exact .leaves
  | cons arg l ih =>
    have hshort := hstr arg List.mem_cons_self
    have hsize : stringSize arg.str ≤ 256 ∧ 0 < stringSize arg.str ∧
        stringSize arg.str % 8 = 0 := by
      rw [stringSize]
      omega
    rw [List.length_cons] at hfit
    have hnext := @toNat_pushString _ arg.str halign (by omega)
    rw [List.map_cons, pushStringsChecked]
    set sp₁ := (sp - BitVec.ofNat 64 (arg.str.length + 1)) &&& ~~~7 with hsp₁
    obtain ⟨kva, hkva⟩ := @userKva_stack _ _ sp₁ h (by omega) (by omega)
    refine .bind (.of_run (.lift _ _) hkva) ?_
    rintro pa _ ⟨-, rfl⟩
    refine .bind (.of_run (.lift _ _) rfl) ?_
    rintro _ _ ⟨-, rfl⟩
    refine .bind (Q := fun _ t => t = (vm.store pa (arg.str ++ [0]), held))
      (.ite (fun _ => .pure rfl) fun _ => .leaves) ?_
    rintro _ _ rfl
    exact .bind (ih (h.store _ _) (by omega) (by omega) (by omega) fun arg harg =>
      hstr arg (List.mem_cons_of_mem _ harg))
      fun _ _ hno => hno.elim

/-- **Without a `NULL` it fails, or it leaves the array.** -/
theorem loadElfChecked_full {p : Proc} {l : List Arg} (hfree : FreeOk vm)
    (hstate : p.state ≠ .unused)
    (h : ∀ phdr ∈ loads app.phdrs, phdr.Loadable) (hmm : vm.mmAllocator ≠ [])
    (hpage : vm.freelist ≠ [])
    (hpool : (loads app.phdrs).length + 2 ≤ vm.vmaAllocator.length) (hlen : l.length ≤ MAXARG)
    (hstr : ∀ arg ∈ l, arg.str.length < KSTRING_MAX) :
    NoPanic (loadElfChecked app p (l.map some)) (vm, [.proc]) fun _ t => t.2 = [.proc] := by
  have hstart : stackBase = 0xfffe8000 := rfl
  have hend : USTACK_START.toNat = 0xffff0000 := rfl
  have hmax : MAXARG = 32 := rfl
  have hrunning : (p.state != .unused) = true := by simpa using hstate
  refine .bind (.of_run (.lift _ _) (kassert_true hrunning)) ?_
  rintro _ _ ⟨rfl, rfl⟩
  have hcreate := (@mmCreate_ends _ False p.trapframePa hfree (.inr hmm) (.inr hpage)).total id
  refine .bind (.of_agrees (mmCreateLocked_agrees _) hcreate) ?_
  rintro r ⟨vm₁, _⟩ ⟨rfl, hr⟩
  dsimp only at hr
  cases hr with
  | failed => exact .pure rfl
  | @created _ obj pgt good evolves entries mms vmas =>
    rw [← vmas] at hpool
    have hwf : MmWf vm₁ ⟨obj, pgt, [], 1⟩ := .created good entries
    have hmap := mapImage_ends h hwf hpool
    refine .bind (.of_agrees (.lift _ _) (hmap.and_returns (mapImage_addr app _))) ?_
    rintro r ⟨vm₂, _⟩ ⟨rfl, hr, haddr⟩
    cases r with
    | ok r =>
      exact .bind (pushStringsChecked_full hr (by decide) le_rfl (by omega) hstr) fun _ _ hno =>
        hno.elim
    | bad ret mm' =>
      obtain ⟨htidy, href⟩ := hr
      have haddr : obj = mm'.addr := haddr.symm
      have hfreed := mmFree_ends htidy (href ▸ (by decide : (0 : Int) < 1))
      dsimp only [locksAfter]
      rw [haddr]
      refine .bind (.of_agrees mmFreeLocked_agrees hfreed) ?_
      rintro _ t ⟨hlocks, -⟩
      exact .pure hlocks

end SignalOS
