import SignalOS.Signal.DoSignal

/-!
# What a call of `do_signal` does

* `Bookkeeping` — two processes that differ only in what the turns without a
  handler write.
* `userByte_frameStored` — the frame of an installed handler is in user memory.
* `doSignal_cases` — **a call installs at most one handler**, on the context and the
  mask it was called with, or leaves both and the memory alone.
-/

namespace SignalOS

/-- `q` is `p` except for the fields the turns of `do_signal` write when no handler is
installed. -/
def Bookkeeping (p q : Proc) : Prop :=
  q = { p with
    state := q.state
    killed := q.killed
    needStop := q.needStop
    signal := { p.signal with sigpending := q.signal.sigpending } }

namespace Bookkeeping

variable {p q r : Proc}

theorem refl (p : Proc) : Bookkeeping p p := rfl

theorem trans (hpq : Bookkeeping p q) (hqr : Bookkeeping q r) : Bookkeeping p r := by
  rw [Bookkeeping] at *
  rw [hqr, hpq]

theorem trapframe_eq (h : Bookkeeping p q) : q.trapframe = p.trapframe := by
  rw [Bookkeeping] at h
  rw [h]

theorem sa_eq (h : Bookkeeping p q) : q.signal.sa = p.signal.sa := by
  rw [Bookkeeping] at h
  rw [h]

theorem sigmask_eq (h : Bookkeeping p q) : q.signal.sigmask = p.signal.sigmask := by
  rw [Bookkeeping] at h
  rw [h]

theorem siginfos_eq (h : Bookkeeping p q) : q.signal.siginfos = p.signal.siginfos := by
  rw [Bookkeeping] at h
  rw [h]

theorem masked_eq (h : Bookkeeping p q) (n : Signo) : q.masked n = p.masked n := by
  rw [Proc.masked, h.sigmask_eq, Proc.masked]

theorem frameMapped_iff (h : Bookkeeping p q) (vm : Vm) (mm : Mm) :
    FrameMapped vm mm q ↔ FrameMapped vm mm p := by
  rw [FrameMapped, h.trapframe_eq, FrameMapped]

theorem hasHandler_iff (h : Bookkeeping p q) (n : Signo) : HasHandler q n ↔ HasHandler p n := by
  rw [HasHandler, h.sa_eq, HasHandler]

theorem ignored_iff (h : Bookkeeping p q) (n : Signo) : Ignored q n ↔ Ignored p n := by
  rw [Ignored, h.sa_eq, Ignored]

theorem frameStored_eq (h : Bookkeeping p q) (vm : Vm) (mm : Mm) (n : Signo) :
    frameStored vm mm q n = frameStored vm mm p n := by
  rw [frameStored, frameWritten, h.trapframe_eq, h.sigmask_eq, h.siginfos_eq, frameStored,
    frameWritten]

theorem delPending (h : Bookkeeping p q) (n : Signo) : Bookkeeping p (q.delPending n) :=
  h.trans rfl

theorem enterHandler (h : Bookkeeping p q) (n : Signo) :
    Bookkeeping (p.enterHandler n) (q.enterHandler n) := by
  rw [Bookkeeping] at h
  rw [h]
  rfl

end Bookkeeping

/-- A frame that was written is in user memory. -/
theorem userByte_frameStored {vm : Vm} {mm : Mm} {p : Proc} (hmap : FrameMapped vm mm p)
    (signo : Signo) {i : Nat}
    (hi : i < (frameBytes (Ucontext.save p.signal.sigmask p.trapframe)
      (p.signal.siginfos signo)).length) :
    userByte (frameStored vm mm p signo) mm (frameSp p.trapframe.sp + BitVec.ofNat 64 i) =
      some (frameBytes (Ucontext.save p.signal.sigmask p.trapframe)
        (p.signal.siginfos signo))[i] :=
  userByte_store_in_page (pageStart_frameSp _) hmap
    (by rw [length_frameBytes]; decide) hi

/-- A turn that goes on to the next signal only does bookkeeping. -/
theorem bookkeeping_of_next {mm : Mm} {signo : Signo} {p q : Proc} {vm vm' : Vm}
    (h : doSignalTurn mm signo p vm = .next q vm') : Bookkeeping p q ∧ vm' = vm := by
  have hcases := doSignalTurn_cases mm signo p vm
  rw [h] at hcases
  cases hcases <;> exact ⟨rfl, rfl⟩

/-- A turn never makes a signal pending. -/
theorem pending_of_next {mm : Mm} {signo n : Signo} {p q : Proc} {vm vm' : Vm}
    (h : doSignalTurn mm signo p vm = .next q vm') (hn : q.pending n = true) :
    p.pending n = true := by
  have hcases := doSignalTurn_cases mm signo p vm
  rw [h] at hcases
  cases hcases with
  | notPending => exact hn
  | masked => exact hn
  | kill => exact Proc.pending_of_delPending (p := p) hn
  | stop => exact Proc.pending_of_delPending (p := p) hn
  | cont => exact Proc.pending_of_delPending (p := p) (Proc.pending_of_delPending hn)
  | ignored => exact Proc.pending_of_delPending hn
  | default => exact Proc.pending_of_delPending (p := p) hn
  | discarded => exact Proc.pending_of_delPending hn

/-- What `do_signal` leaves after it installed the handler of `signo`. -/
structure Delivery.Installed (mm : Mm) (p : Proc) (vm : Vm) (d : Delivery) (signo : Signo) :
    Prop where
  deliverable : Deliverable p signo
  hasHandler : HasHandler p signo
  mapped : FrameMapped vm mm p
  context : Bookkeeping (p.enterHandler signo) d.proc
  memory : d.vm = frameStored vm mm p signo

/-- The loop of `do_signal` over a list of signals. -/
theorem doSignalLoop_cases (mm : Mm) (signos : List Signo) (p : Proc) (vm : Vm) :
    let d := doSignalLoop mm signos p vm
    (d.handler = none ∧ Bookkeeping p d.proc ∧ d.vm = vm) ∨
      ∃ signo ∈ signos, d.handler = some signo ∧ Delivery.Installed mm p vm d signo := by
  induction signos generalizing p with
  | nil => exact .inl ⟨rfl, .refl p, rfl⟩
  | cons signo rest ih =>
    dsimp only
    rw [doSignalLoop]
    cases hturn : doSignalTurn mm signo p vm with
    | next q vm' =>
      obtain ⟨hbook, rfl⟩ := bookkeeping_of_next hturn
      dsimp only
      rcases ih q with ⟨hnone, hrest, hvm⟩ | ⟨n, hmem, hsome, hinst⟩
      · exact .inl ⟨hnone, hbook.trans hrest, hvm⟩
      · refine .inr ⟨n, List.mem_cons_of_mem _ hmem, hsome, ?_⟩
        obtain ⟨⟨hpend, hblock, hmask⟩, hsa, hmap, hctx, hmem'⟩ := hinst
        exact
          { deliverable := ⟨pending_of_next hturn hpend, hblock,
              (hbook.masked_eq n).symm.trans hmask⟩
            hasHandler := (hbook.hasHandler_iff n).1 hsa
            mapped := (hbook.frameMapped_iff vm' mm).1 hmap
            context := (hbook.enterHandler n).trans hctx
            memory := hmem'.trans (hbook.frameStored_eq vm' mm n) }
    | installed q vm' =>
      have hcases := doSignalTurn_cases mm signo p vm
      rw [hturn] at hcases
      cases hcases with
      | installed hdel hsa hmap =>
        refine .inr ⟨signo, List.mem_cons_self, rfl, ?_⟩
        exact
          { deliverable := hdel
            hasHandler := hsa
            mapped := hmap
            context := ((Bookkeeping.refl p).delPending signo).enterHandler signo
            memory := rfl }

/-- **A call of `do_signal`** installs one handler, on the context and the mask it was called
with, or none, and then leaves the context, the mask and the memory alone. -/
theorem doSignal_cases (mm : Mm) (p : Proc) (vm : Vm) :
    let d := doSignal mm p vm
    (d.handler = none ∧ Bookkeeping p d.proc ∧ d.vm = vm) ∨
      ∃ signo, d.handler = some signo ∧ Delivery.Installed mm p vm d signo := by
  rcases doSignalLoop_cases mm allSignos p vm with h | ⟨signo, -, h⟩
  · exact .inl h
  · exact .inr ⟨signo, h⟩

theorem doSignal_installed {mm : Mm} {p : Proc} {vm : Vm} {signo : Signo}
    (h : (doSignal mm p vm).handler = some signo) :
    Delivery.Installed mm p vm (doSignal mm p vm) signo := by
  rcases doSignal_cases mm p vm with ⟨hnone, -⟩ | ⟨n, hsome, hinst⟩
  · rw [hnone] at h
    exact absurd h (by simp)
  · rw [hsome, Option.some.injEq] at h
    exact h ▸ hinst

/-! ## A small process -/

/-- Memory with one address space, rooted at `0x1000`, whose user pages are `0x4000` and
`0x5000`. -/
def stackVm : Vm where
  pte page i :=
    if page = 0x1000 ∧ i = 0 then PA2PTE 0x2000 ||| PTE_V
    else if page = 0x2000 ∧ i = 0 then PA2PTE 0x3000 ||| PTE_V
    else if page = 0x3000 ∧ (i = 4 ∨ i = 5) then
      PA2PTE ((i + 4) <<< 12) ||| PTE_V ||| PTE_R ||| PTE_W ||| PTE_U
    else 0
  byte _ := 0
  freelist := []
  kpageAllocatorBase := 0
  kpageAllocatorSize := 0
  mmAllocator := []
  vmaAllocator := []
  kstrbuf := []
  trampoline := 0

def stackMm : Mm := ⟨0, 0x1000, [⟨0, 0x4000, 0x6000, PTE_R ||| PTE_W ||| PTE_U⟩], 1⟩

/-- A process with its stack in these pages and a handler at `0x40` for every signal. -/
def stackProc (pending : Sigset) (t6 : Uint64) : Proc where
  state := .running
  pid := 1
  exitCode := 0
  sleepChan := none
  killed := 0
  parent := none
  mm := some stackMm
  vmaBrk := 0
  brk := 0
  trapframe := { Trapframe.zero with sp := 0x5800, t6 := t6 }
  trapframePa := 0
  context := .user
  signal :=
    { sa := fun _ => ⟨0x40, sigemptyset, 0x80⟩
      siginfos := fun _ => ⟨0, 0, 0, 0, 0⟩
      sigmask := sigemptyset
      sigpending := pending }
  needStop := 0

end SignalOS
