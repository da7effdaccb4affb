import SignalOS.Kernel.LineDiscipline
import SignalOS.Signal.Arguments

/-!
# Stores of the kernel to user memory

The system calls that store to user memory go through `copy_to_user`, which asks only
for a valid user page.

* `StoreCall` — the calls; `StoreCall.dst`, `StoreCall.src` — what they store where.
* `StoreCall.mem_eq` — **each of them is one copy to user memory**.
* `ReadOnlyAt` — a physical address behind a user page without `PTE_W`.
* `write_protection_iff` — **a call leaves read-only pages alone exactly if every byte
  it stores there is the one they hold**.
-/

namespace SignalOS

open LittleEndian Partial

variable {vm : Vm} {mm : Mm} {k k' : Kernel} {curr : Slot}

/-! ## The calls -/

/-- The status `wait` stores for the child it collects. -/
def waitStatus (k : Kernel) (curr : Slot) (pid : Int) : List Byte :=
  (waitChild k.pool curr pid).elim [] fun child => intBytes (k.pool child).exitCode

/-- Memory once `wait` has stored the status of a child, before it frees the child. -/
def waitStore (k : Kernel) (curr : Slot) (mm : Mm) (pid : Int) (code : Uint64) : Vm :=
  if code ≠ 0 then (copyToUser k.vm mm code (waitStatus k curr pid)).2 else k.vm

/-- `wait` stores the status and frees the child. -/
theorem wait_stores {pid : Int} {code : Uint64} {r : Option Int} {child : Slot}
    (hmm : (k.pool curr).mm = some mm) (h : wait curr pid code k = some (r, k'))
    (hfind : waitChild k.pool curr pid = some child) :
    ∃ k₁, k₁.vm = waitStore k curr mm pid code ∧ freeproc child k₁ = some ((), k') := by
  simp only [wait, get_bind, hfind] at h
  have hstatus : waitStatus k curr pid = intBytes (k.pool child).exitCode := by
    rw [waitStatus, hfind]
    rfl
  rw [waitStore, hstatus]
  split at h
  · rename_i hcode
    simp only [bind_eq_some (x := getMm _), getMm_eq_some, modify_bind, bind_eq_some,
      pure_eq_some] at h
    obtain ⟨mm', k₁, ⟨hmm', rfl⟩, _, k₂, hfree, rfl, rfl⟩ := h
    obtain rfl := Option.some.inj (hmm.symm.trans hmm')
    exact ⟨_, (if_pos hcode).symm, hfree⟩
  · rename_i hcode
    simp only [bind_eq_some, pure_eq_some] at h
    obtain ⟨_, k₂, hfree, rfl, rfl⟩ := h
    exact ⟨_, (if_neg hcode).symm, hfree⟩

/-- The calls that store to user memory: a turn of a `read`, a pass of `wait`, the calls of
`ksignal.c`, and the turn of `do_signal` for a signal. -/
inductive StoreCall where
  | read (buf n target : Uint64)
  | wait (pid : Int) (code : Uint64)
  | sigaction (signo : Int) (act oldact : Uint64)
  | sigprocmask (how : Int) (set oldset : Uint64)
  | sigpending (set : Uint64)
  | doSignal (signo : Signo)

def Turn.mem : Turn → Vm
  | .next _ vm => vm
  | .installed _ vm => vm

/-- Memory after the stores of the call. -/
def StoreCall.mem (k : Kernel) (curr : Slot) (mm : Mm) : StoreCall → Vm
  | .read buf n target =>
    (consoleReadLoop mm target ((k.cons.w - k.cons.r).toNat + 1) buf n k.cons k.vm).2.2
  | .wait pid code => waitStore k curr mm pid code
  | .sigaction signo act oldact => (sysSigaction mm (k.pool curr) k.vm signo act oldact).2.2
  | .sigprocmask how set oldset => (sysSigprocmask mm (k.pool curr) k.vm how set oldset).2.2
  | .sigpending set => (sysSigpending mm (k.pool curr) k.vm set).2
  | .doSignal signo => (doSignalTurn mm signo (k.pool curr) k.vm).mem

/-- The user address the call stores to. -/
def StoreCall.dst (k : Kernel) (curr : Slot) : StoreCall → Uint64
  | .read buf _ _ => buf
  | .wait _ code => code
  | .sigaction _ _ oldact => oldact
  | .sigprocmask _ _ oldset => oldset
  | .sigpending set => set
  | .doSignal _ => frameSp (k.pool curr).trapframe.sp

instance (p : Proc) (signo : Signo) : Decidable (HasHandler p signo) :=
  inferInstanceAs (Decidable (_ ∧ _))

/-- The bytes the call stores if it can. -/
def StoreCall.src (k : Kernel) (curr : Slot) (mm : Mm) : StoreCall → List Byte
  | .read _ n _ => delivered ((k.cons.w - k.cons.r).toNat + 1) n k.cons
  | .wait pid code => written (waitStatus k curr pid) code
  | .sigaction signo act oldact =>
    match toSigno signo with
    | some s =>
      if Checked k.vm mm s act then written ((k.pool curr).signal.sa s).toBytes oldact else []
    | none => []
  | .sigprocmask _ _ oldset => written (bytesOfWords [(k.pool curr).signal.sigmask]) oldset
  | .sigpending set => written (bytesOfWords [(k.pool curr).signal.sigpending]) set
  | .doSignal signo =>
    if Deliverable (k.pool curr) signo ∧ HasHandler (k.pool curr) signo then
      frameBytes (Ucontext.save (k.pool curr).signal.sigmask (k.pool curr).trapframe)
        ((k.pool curr).signal.siginfos signo)
    else []

/-! ## One copy -/

theorem waitStore_eq (pid : Int) (code : Uint64) :
    waitStore k curr mm pid code =
      (copyToUser k.vm mm code (written (waitStatus k curr pid) code)).2 := by
  rw [waitStore, ← copy_written]
  split
  · rfl
  · rfl

theorem sysSigaction_vm (p : Proc) (signo : Int) (act oldact : Uint64) :
    (sysSigaction mm p vm signo act oldact).2.2 = (copyToUser vm mm oldact
      (match toSigno signo with
        | some s => if Checked vm mm s act then written (p.signal.sa s).toBytes oldact else []
        | none => [])).2 := by
  have hcases := sysSigaction_cases mm p vm signo act oldact
  generalize sysSigaction mm p vm signo act oldact = r at hcases ⊢
  cases hcases with
  | invalid h => rw [h]; rfl
  | refused hs h => rw [hs]; dsimp only; rw [if_neg h]; rfl
  | notWritten hs hcheck => rw [hs]; dsimp only; rw [if_pos hcheck]; rfl
  | kept hs hcheck => rw [hs]; dsimp only; rw [if_pos hcheck]; rfl
  | copied hs hcheck => rw [hs]; dsimp only; rw [if_pos hcheck]; rfl

theorem sysSigprocmask_vm (p : Proc) (how : Int) (set oldset : Uint64) :
    (sysSigprocmask mm p vm how set oldset).2.2 =
      (copyToUser vm mm oldset (written (bytesOfWords [p.signal.sigmask]) oldset)).2 := by
  have hcases := sysSigprocmask_cases mm p vm how set oldset
  generalize sysSigprocmask mm p vm how set oldset = r at hcases ⊢
  cases hcases with
  | notWritten => rfl
  | kept => rfl
  | notRead => rfl
  | unknown => rfl
  | changed => rfl

theorem sysSigpending_vm (p : Proc) (set : Uint64) :
    (sysSigpending mm p vm set).2 =
      (copyToUser vm mm set (written (bytesOfWords [p.signal.sigpending]) set)).2 := by
  rw [sysSigpending, ← copy_written]
  by_cases hset : set = 0
  · rw [if_pos hset, if_neg (not_not.2 hset)]
  · rw [if_neg hset, if_pos hset]

/-- The frame of a handler is a copy to one page. -/
theorem copyFrame_vm (oldSp : Uint64) (uc : Ucontext) (info : Siginfo) :
    (copyToUser vm mm (frameSp oldSp) (frameBytes uc info)).2 =
      if walkaddr vm mm (frameSp oldSp) = 0 then vm
      else vm.store (walkaddr vm mm (frameSp oldSp)) (frameBytes uc info) := by
  have hpage : frameSp oldSp = frameSp oldSp + BitVec.ofNat 64 0 := by simp
  have hrest : pageRest (frameSp oldSp) = 4096 := by
    rw [hpage, pageRest_offset (pageStart_frameSp oldSp) (by decide)]
  have hne : frameBytes uc info ≠ [] := fun hnil => by
    have hlen := length_frameBytes uc info
    rw [hnil] at hlen
    exact absurd hlen (by decide)
  have hfit : (frameBytes uc info).length ≤ pageRest (frameSp oldSp) := by
    rw [hrest, length_frameBytes]
    decide
  rw [copyToUser_onePage hne hfit, PGROUNDDOWN_frameSp]
  split
  · rfl
  · rw [BitVec.sub_self, BitVec.add_zero]

theorem doSignalTurn_vm (p : Proc) (signo : Signo) :
    (doSignalTurn mm signo p vm).mem = (copyToUser vm mm (frameSp p.trapframe.sp)
      (if Deliverable p signo ∧ HasHandler p signo then
        frameBytes (Ucontext.save p.signal.sigmask p.trapframe) (p.signal.siginfos signo)
          else [])).2 := by
  have hcases := doSignalTurn_cases mm signo p vm
  generalize doSignalTurn mm signo p vm = t at hcases ⊢
  have hnone (h : ¬ (Deliverable p signo ∧ HasHandler p signo)) : vm =
      (copyToUser vm mm (frameSp p.trapframe.sp) (if Deliverable p signo ∧ HasHandler p signo then
        frameBytes (Ucontext.save p.signal.sigmask p.trapframe) (p.signal.siginfos signo)
          else [])).2 := by
    rw [if_neg h, copyToUser_nil]
  cases hcases with
  | notPending h => exact hnone fun hd => absurd (h.symm.trans hd.1.pending) (by simp)
  | kill _ hsig => exact hnone fun hd => hd.1.blockable (.inl hsig)
  | stop _ hsig => exact hnone fun hd => hd.1.blockable (.inr (.inl hsig))
  | cont _ hsig => exact hnone fun hd => hd.1.blockable (.inr (.inr hsig))
  | masked _ hmask => exact hnone fun hd => absurd (hmask.symm.trans hd.1.unmasked) (by simp)
  | ignored _ hign => exact hnone fun hd => hign.elim hd.2.1 fun hchld => hd.2.2 hchld.2
  | default _ hdfl => exact hnone fun hd => hd.2.2 hdfl
  | discarded h hsa hmap =>
    have hpa : walkaddr vm mm (frameSp p.trapframe.sp) = 0 := not_not.1 hmap
    rw [if_pos ⟨h, hsa⟩, copyFrame_vm, if_pos hpa]
    rfl
  | installed h hsa hmap =>
    have hpa : walkaddr vm mm (frameSp p.trapframe.sp) ≠ 0 := hmap
    rw [if_pos ⟨h, hsa⟩, copyFrame_vm, if_neg hpa]
    rfl

/-- **Each of the calls is one copy to user memory.** -/
theorem StoreCall.mem_eq (k : Kernel) (curr : Slot) (mm : Mm) (call : StoreCall) :
    call.mem k curr mm = (copyToUser k.vm mm (call.dst k curr) (call.src k curr mm)).2 := by
  cases call with
  | read buf n target => exact consoleReadLoop_vm _ _ _ _ _ _ _
  | wait pid code => exact waitStore_eq pid code
  | sigaction signo act oldact => exact sysSigaction_vm _ _ _ _
  | sigprocmask how set oldset => exact sysSigprocmask_vm _ _ _ _
  | sigpending set => exact sysSigpending_vm _ _
  | doSignal signo => exact doSignalTurn_vm _ _

/-! ## Read-only pages -/

/-- The physical address lies behind a user page whose entry lacks `PTE_W`: the hardware lets the
program read the byte but not store to it. -/
def ReadOnlyAt (vm : Vm) (mm : Mm) (a : Uint64) : Prop :=
  ∃ va, userPa vm mm va = some a ∧
    ∃ slot ∈ slotOf vm.pte mm.pgt va, vm.pte slot.1 slot.2 &&& PTE_W = 0

/-- **A call leaves read-only pages alone** exactly if every byte it stores in one of them is the
byte that is there. -/
theorem write_protection_iff (k : Kernel) (curr : Slot) (mm : Mm) (call : StoreCall) :
    (∀ a, ReadOnlyAt k.vm mm a → (call.mem k curr mm).byte a = k.vm.byte a) ↔
      ∀ i a, LastAt k.vm mm (call.dst k curr) (call.src k curr mm).length i a →
        ReadOnlyAt k.vm mm a →
        (call.src k curr mm).getD i 0 = k.vm.byte a := by
  rw [call.mem_eq]
  constructor
  · intro hkept i a hlast hro
    rw [← hkept a hro, copyToUser_last hlast]
  · intro hsame a hro
    by_cases hnone : ∀ i < (call.src k curr mm).length, Reached k.vm mm (call.dst k curr) i →
        userPa k.vm mm (call.dst k curr + BitVec.ofNat 64 i) ≠ some a
    · exact copyToUser_untouched hnone
    · push Not at hnone
      obtain ⟨n, hn, hreach, hpa⟩ := hnone
      obtain ⟨i, -, hlast⟩ := exists_lastAt hn hreach hpa
      rw [copyToUser_last hlast, hsame i a hlast hro]

/-- The small process with a page of text: `0x4000` can be read and executed. -/
def textVm : Vm :=
  stackVm.setPte 0x3000 4 (PA2PTE 0x8000 ||| PTE_V ||| PTE_R ||| PTE_X ||| PTE_U)

def textKernel : Kernel where
  vm := textVm
  pool _ := stackProc 2 0
  pids := 1
  taskQueue := []
  initProc := none
  cpus _ := .idle
  locks _ := none
  ticks := 0
  cons := Cons.zero
  userApps := []
  log := []

/-- It asks for its pending signals to be stored into its text. -/
theorem sigpending_overwrites_text :
    ¬ ∀ (k : Kernel) (curr : Slot) (mm : Mm) (call : StoreCall) (a : Uint64),
      ReadOnlyAt k.vm mm a → (call.mem k curr mm).byte a = k.vm.byte a := by
  intro hall
  have hro : ReadOnlyAt textKernel.vm stackMm 0x8000 :=
    ⟨0x4000, by decide +kernel, (0x3000, 4), by decide +kernel, by decide +kernel⟩
  have hbyte : (StoreCall.mem textKernel 0 stackMm (.sigpending 0x4000)).byte 0x8000 ≠
      textKernel.vm.byte 0x8000 := by
    decide +kernel
  exact hbyte (hall textKernel 0 stackMm (.sigpending 0x4000) 0x8000 hro)

end SignalOS
