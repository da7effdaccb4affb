import SignalOS.Lib.Partial
import SignalOS.Proc.Proc
import SignalOS.Vm.Mm
import SignalOS.Vm.Uaccess

/-!
# Loading a program

`get_elf` and `load_user_elf` of `loader.c`.  A C string is the list of its bytes
without the terminating NUL.

* `loadUserElf` — replace the program of a process.
* `loadUserElf_cases` — **it fails with a negative result and leaves the process alone,
  or it returns 0 and installs an image**.
-/

namespace SignalOS

open LittleEndian Partial

def MAXARG : Nat := 32
def KSTRING_MAX : Nat := 256
def USTACK_START : Uint64 := 0xffff0000
def USTACK_SIZE : Uint64 := PGSIZE * 8

def PT_LOAD : Uint64 := 1
def PF_X : Uint64 := 1
def PF_W : Uint64 := 2
def PF_R : Uint64 := 4

/-- `Elf64_Phdr`. -/
structure Phdr where
  pType : Uint64
  pFlags : Uint64
  pOffset : Uint64
  pVaddr : Uint64
  pFilesz : Uint64
  pMemsz : Uint64

/-- A file has `n` bytes at `off`. -/
def HasBytes (file : Uint64 → Option Byte) (off : Uint64) (n : Nat) : Prop :=
  ∀ i < n, (file (off + BitVec.ofNat 64 i)).isSome

instance (file : Uint64 → Option Byte) (off : Uint64) (n : Nat) :
    Decidable (HasBytes file off n) :=
  inferInstanceAs (Decidable (∀ i < n, _))

/-- `struct user_app`, with the parts of its ELF file that the loader reads. -/
structure UserApp where
  name : List Byte
  eEntry : Uint64
  phdrs : List Phdr
  /-- The byte at an offset from `elf_address`, if there is one. -/
  file : Uint64 → Option Byte
  segments : ∀ phdr ∈ phdrs, phdr.pType = PT_LOAD → HasBytes file phdr.pOffset phdr.pFilesz.toNat

/-- `strncmp(p, q, n)`. -/
def strncmp : List Byte → List Byte → Nat → Int
  | _, _, 0 => 0
  | [], q, _ + 1 => -(q.headD 0).toNat
  | a :: p, q, n + 1 =>
    if a = q.headD 0 then strncmp p q.tail n else a.toNat - (q.headD 0).toNat

/-- `get_elf(name)`. -/
def getElf (userApps : List UserApp) (name : List Byte) : Option UserApp :=
  if name.length = 0 then none
  else userApps.find? fun app => strncmp name app.name name.length = 0

/-! ## Segments -/

/-- The permissions of a segment. -/
def phdrPerm (phdr : Phdr) : Uint64 :=
  PTE_U ||| (if phdr.pFlags &&& PF_R ≠ 0 then PTE_R else 0) |||
    (if phdr.pFlags &&& PF_W ≠ 0 then PTE_W else 0) |||
    (if phdr.pFlags &&& PF_X ≠ 0 then PTE_X else 0)

/-- `n` bytes of a file.  A byte that is not there cannot be read. -/
def UserApp.bytes (app : UserApp) (off n : Uint64) : VmM (List Byte) :=
  StateT.lift ((List.range n.toNat).mapM fun i => app.file (off + BitVec.ofNat 64 i))

/-- The loop that copies the file to the pages of a segment: what remains of the file. -/
def loadFile (app : UserApp) (mm : Mm) (phdr : Phdr) :
    List Uint64 → (fileOff fileRemains : Uint64) → VmM Uint64
  | [], _, fileRemains => return fileRemains
  | va :: rest, fileOff, fileRemains => do
    let pa ← pageOf mm va
    let copySize := MIN fileRemains PGSIZE
    storeBytes pa (← app.bytes (phdr.pOffset + fileOff) copySize)
    if copySize < PGSIZE then
      setBytes (pa + copySize) 0 (PGSIZE - copySize)
    loadFile app mm phdr rest (fileOff + copySize) (fileRemains - copySize)

/-- The loop that clears `.bss`. -/
def clearBss (mm : Mm) (bssEnd : Uint64) : Nat → Uint64 → VmM Unit
  | 0, _ => pure ()
  | fuel + 1, va =>
    if va < bssEnd then do
      let pa ← pageOf mm (PGROUNDDOWN va)
      setBytes (pa + (va - PGROUNDDOWN va)) 0 (PGROUNDUP va - va)
      clearBss mm bssEnd fuel (PGROUNDDOWN va + PGSIZE)
    else pure ()

/-- The result of building a new address space: what `load_user_elf` goes on with, or an error
with the address space that has to be freed. -/
inductive Build (α : Type) where
  | ok (a : α)
  | bad (ret : Int) (mm : Mm)

/-- One segment of the file: the address space with the segment mapped. -/
def loadPhdr (app : UserApp) (mm : Mm) (phdr : Phdr) : VmM (Build Mm) := do
  kassert (PGALIGNED phdr.pVaddr)
  let start := PGROUNDDOWN phdr.pVaddr
  let vma : Vma := ⟨(← mmCreateVma).addr, start, PGROUNDUP (start + phdr.pMemsz), phdrPerm phdr⟩
  let (ret, mm) ← mmMappages mm vma
  if ret < 0 then
    return .bad ret mm
  else
    let fileRemains ← loadFile app mm phdr (pagesBetween vma.vmStart vma.vmEnd) 0 phdr.pFilesz
    if phdr.pMemsz > phdr.pFilesz then
      clearBss mm (phdr.pVaddr + phdr.pMemsz) ((phdr.pMemsz - phdr.pFilesz).toNat / 4096 + 2)
        (phdr.pVaddr + phdr.pFilesz)
    kassert (fileRemains == 0)
    return .ok mm

/-- The loop over the program headers: the address space and `max_va_end`. -/
def loadPhdrs (app : UserApp) : List Phdr → Mm → Uint64 → VmM (Build (Mm × Uint64))
  | [], mm, maxVaEnd => return .ok (mm, maxVaEnd)
  | phdr :: rest, mm, maxVaEnd => do
    if phdr.pType ≠ PT_LOAD then
      loadPhdrs app rest mm maxVaEnd
    else
      match ← loadPhdr app mm phdr with
      | .bad ret mm => return .bad ret mm
      | .ok mm => loadPhdrs app rest mm (MAX maxVaEnd (PGROUNDUP (phdr.pVaddr + phdr.pMemsz)))

/-! ## The stack -/

/-- `PA_TO_KVA(useraddr(mm, va))`, for an access to it. -/
def userKva (mm : Mm) (va : Uint64) : VmM Uint64 := do
  let pa := useraddr (← get) mm va
  kassert (pa != 0)
  return pa

/-- Push the argument strings: their addresses, which `uargv` holds, and the stack pointer.  That
array has `MAXARG` entries; `loadElfChecked` is the loader that may leave it. -/
def pushStrings (mm : Mm) : List (List Byte) → Uint64 → VmM (List Uint64 × Uint64)
  | [], sp => return ([], sp)
  | arg :: rest, sp => do
    let sp := (sp - BitVec.ofNat 64 (arg.length + 1)) &&& ~~~7
    let kva ← userKva mm sp
    storeBytes kva (arg ++ [0])
    let (uargv, sp') ← pushStrings mm rest sp
    return (sp :: uargv, sp')

/-- Push the argument vector, the last entry first. -/
def pushArgv (mm : Mm) : List Uint64 → Uint64 → VmM Uint64
  | [], sp => return sp
  | ptr :: rest, sp => do
    let sp := sp - 8
    let kva ← userKva mm sp
    storeBytes kva (bytesOfWords [ptr])
    pushArgv mm rest sp

/-- What `load_user_elf` gives to the process. -/
structure Image where
  mm : Mm
  vmaBrk : Uint64
  brk : Uint64
  sp : Uint64
  uargvPtr : Uint64

/-- The new address space with the program, an empty heap, the stack and the arguments. -/
def buildImage (app : UserApp) (newMm : Mm) (args : List (List Byte)) : VmM (Build Image) := do
  match ← loadPhdrs app app.phdrs newMm 0 with
  | .bad ret mm => return .bad ret mm
  | .ok (mm, maxVaEnd) =>
    let vmaBrk : Vma := ⟨(← mmCreateVma).addr, maxVaEnd, maxVaEnd, PTE_R ||| PTE_W ||| PTE_U⟩
    let (ret, mm) ← mmMappages mm vmaBrk
    if ret < 0 then
      return .bad ret mm
    else
      let vmaUstack : Vma :=
        ⟨(← mmCreateVma).addr, USTACK_START - USTACK_SIZE, USTACK_START, PTE_R ||| PTE_W ||| PTE_U⟩
      let (ret, mm) ← mmMappages mm vmaUstack
      if ret < 0 then
        return .bad ret mm
      else
        (pagesBetween vmaUstack.vmStart vmaUstack.vmEnd).forM fun va => do
          setBytes (← pageOf mm va) 0 PGSIZE
        let (uargv, sp) ← pushStrings mm args USTACK_START
        let uargvPtr ← pushArgv mm uargv.reverse (sp - 8)
        return .ok ⟨mm, vmaBrk.addr, maxVaEnd, uargvPtr &&& ~~~15, uargvPtr⟩

/-- The process after its program was replaced. -/
def Proc.installImage (p : Proc) (img : Image) (eEntry : Uint64) (argc : Nat) : Proc :=
  { p with
    mm := some img.mm
    vmaBrk := img.vmaBrk
    brk := img.brk
    trapframe := { p.trapframe with
      sp := img.sp
      epc := eEntry
      a0 := BitVec.ofNat 64 argc
      a1 := img.uargvPtr } }

/-- `load_user_elf(app, p, args)`, with `args` the strings before the `NULL`. -/
def loadUserElf (app : UserApp) (p : Proc) (args : List (List Byte)) : VmM (Int × Proc) := do
  kassert (p.state != .unused)
  match ← mmCreate p.trapframePa with
  | none => return (-ENOMEM, p)
  | some newMm =>
    match ← buildImage app newMm args with
    | .bad ret mm =>
      mmFree mm
      return (ret, p)
    | .ok img =>
      match p.mm with
      | none => pure ()
      | some old => mmFree old
      return (0, p.installImage img app.eEntry args.length)

/-! ## What the loader returns -/

/-- An error comes with a negative number. -/
def Build.Sound {α : Type} : Build α → Prop
  | .ok _ => True
  | .bad ret _ => ret < 0

theorem loadPhdr_sound (app : UserApp) (mm : Mm) (phdr : Phdr) :
    Returns Build.Sound (loadPhdr app mm phdr) := by
  refine .bind fun _ => .bind fun vma => .bind ?_
  rintro ⟨ret, mm⟩
  by_cases hneg : ret < 0
  · simp only [if_pos hneg]
    exact .pure hneg
  · simp only [if_neg hneg]
    refine .bind fun rest => ?_
    have hdone (mm : Mm) : Returns Build.Sound (pure (Build.ok mm) : VmM (Build Mm)) :=
      .pure trivial
    split
    · exact .bind fun _ => .bind fun _ => hdone mm
    · exact .bind fun _ => hdone mm

theorem loadPhdrs_sound (app : UserApp) (phdrs : List Phdr) (mm : Mm) (maxVaEnd : Uint64) :
    Returns Build.Sound (loadPhdrs app phdrs mm maxVaEnd) := by
  induction phdrs generalizing mm maxVaEnd with
  | nil => exact .pure trivial
  | cons phdr rest ih =>
    rw [loadPhdrs]
    split
    · exact ih mm maxVaEnd
    · refine .bind_of (loadPhdr_sound app mm phdr) fun b hb => ?_
      cases b with
      | ok mm => exact ih _ _
      | bad ret mm => exact .pure hb

theorem buildImage_sound (app : UserApp) (newMm : Mm) (args : List (List Byte)) :
    Returns Build.Sound (buildImage app newMm args) := by
  refine .bind_of (loadPhdrs_sound app app.phdrs newMm 0) fun b hb => ?_
  cases b with
  | bad ret mm => exact .pure hb
  | ok r =>
    refine .bind fun vma => .bind ?_
    rintro ⟨ret, mm⟩
    by_cases hneg : ret < 0
    · simp only [if_pos hneg]
      exact .pure hneg
    · simp only [if_neg hneg]
      refine .bind fun vma => .bind ?_
      rintro ⟨ret, mm⟩
      by_cases hneg : ret < 0
      · simp only [if_pos hneg]
        exact .pure hneg
      · simp only [if_neg hneg]
        exact .bind fun _ => .bind fun _ => .bind fun _ => .pure trivial

/-- **It fails with a negative result and leaves the process alone, or it returns 0 and installs
an image.** -/
theorem loadUserElf_cases (app : UserApp) (p : Proc) (args : List (List Byte)) :
    Returns (fun r => (r.1 < 0 ∧ r.2 = p) ∨
      (r.1 = 0 ∧ ∃ img, r.2 = p.installImage img app.eEntry args.length)) (loadUserElf app p
        args) := by
  refine .bind fun _ => .bind fun newMm => ?_
  cases newMm with
  | none =>
    have hneg : -ENOMEM < 0 := by decide
    exact .pure (.inl ⟨hneg, rfl⟩)
  | some newMm =>
    refine .bind_of (buildImage_sound app newMm args) fun b hb => ?_
    cases b with
    | bad ret mm => exact .bind fun _ => .pure (.inl ⟨hb, rfl⟩)
    | ok img =>
      dsimp only
      split
      · exact .pure (.inr ⟨rfl, img, rfl⟩)
      · exact .bind fun _ => .pure (.inr ⟨rfl, img, rfl⟩)

end SignalOS
