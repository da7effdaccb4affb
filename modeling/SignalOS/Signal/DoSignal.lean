import SignalOS.Proc.Proc
import SignalOS.Vm.Uaccess

/-!
# Signal delivery

`do_signal` of `ksignal.c`: the scan over the pending signals that a process
makes on its way back to user mode.

* `takeSignal` — the turn of the loop for one signal, up to the copy of its siginfo;
  `startHandler` — the rest of it; `doSignalTurn` — a turn that nobody disturbs;
  `doSignal` — the loop of such turns.
* `copyFrame` — the `siginfo` and the saved context written to the user stack;
  `copyFrame_eq` — **the frame lies in one page and is written whole or not at all**.
* `takeSignal_cases`, `doSignalTurn_cases` — **everything a turn can do**.
-/

namespace SignalOS

/-- `new_sp`: the address of the frame for a process whose stack pointer is `old_sp`. -/
def frameSp (oldSp : Uint64) : Uint64 :=
  PGROUNDDOWN (oldSp - BitVec.ofNat 64 sizeofUcontext - BitVec.ofNat 64 sizeofSiginfo)

/-- `uc_addr`, from the stack pointer of the handler. -/
def ucAddr (newSp : Uint64) : Uint64 := newSp + BitVec.ofNat 64 sizeofSiginfo

/-- The two copies of `do_signal`: the context, and then the siginfo below it. -/
def copyFrame (vm : Vm) (mm : Mm) (newSp : Uint64) (uc : Ucontext) (info : Siginfo) : Int × Vm :=
  let r := copyToUser vm mm (ucAddr newSp) uc.toBytes
  if r.1 ≥ 0 then copyToUser r.2 mm newSp info.toBytes else r

/-- Steps 6 and 7 of `do_signal`: the mask and the registers a handler starts with. -/
def Proc.enterHandler (p : Proc) (signo : Signo) : Proc :=
  let sa := p.signal.sa signo
  let newSp := frameSp p.trapframe.sp
  { p with
    signal := { p.signal with sigmask := p.signal.sigmask ||| sa.saMask ||| sigmask signo }
    trapframe := { p.trapframe with
      epc := sa.saSigaction
      sp := newSp
      a0 := ofInt signo.val
      a1 := newSp
      a2 := ucAddr newSp
      ra := sa.saRestorer } }

/-- What `do_signal` does with a process that gets a `SIGCONT`. -/
def Proc.cancelStop (p : Proc) : Proc :=
  { p with
    state := if p.state = ProcState.stopped then ProcState.runnable else p.state
    needStop := 0 }

/-- How a turn of the loop ends: with the next signal, or with `return 0` after a
handler was installed. -/
inductive Turn where
  | next (p : Proc) (vm : Vm)
  | installed (p : Proc) (vm : Vm)

/-- How a turn goes on after the look at its signal: with the next signal, or with a
handler to be started. -/
inductive Taken where
  | next (p : Proc)
  | handler (p : Proc)

/-- The turn of the loop of `do_signal` for `signo`, up to the copy of its siginfo. -/
def takeSignal (signo : Signo) (p : Proc) : Taken :=
  if !p.pending signo then .next p
  else if signo = SIGKILL then
    .next { p.delPending signo with killed := -10 - signo.val }
  else if signo = SIGSTOP then
    .next { p.delPending signo with needStop := 1 }
  else if signo = SIGCONT then
    let p := (p.delPending signo).cancelStop
    .next (if p.pending SIGSTOP then p.delPending SIGSTOP else p)
  else if p.masked signo then .next p
  else
    let sa := p.signal.sa signo
    let p := p.delPending signo
    if sa.saSigaction = SIG_IGN then .next p
    else if signo = SIGCHLD ∧ sa.saSigaction = SIG_DFL then .next p
    else if sa.saSigaction = SIG_DFL then .next { p with killed := -10 - signo.val }
    else .handler p

/-- The rest of the turn, with the siginfo that was copied. -/
def startHandler (mm : Mm) (signo : Signo) (info : Siginfo) (p : Proc) (vm : Vm) : Turn :=
  let uc := Ucontext.save p.signal.sigmask p.trapframe
  let r := copyFrame vm mm (frameSp p.trapframe.sp) uc info
  -- the frame could not be written: the signal is ignored
  if r.1 < 0 then .next p r.2
  else .installed (p.enterHandler signo) r.2

/-- The turn of the loop of `do_signal` for `signo`, when nothing is sent to the process
during it. -/
def doSignalTurn (mm : Mm) (signo : Signo) (p : Proc) (vm : Vm) : Turn :=
  match takeSignal signo p with
  | .next p => .next p vm
  | .handler p => startHandler mm signo (p.signal.siginfos signo) p vm

/-- What `do_signal` leaves: the signal whose handler was installed, if one was, the
process and the memory.  The C function returns 0 in either case. -/
structure Delivery where
  handler : Option Signo
  proc : Proc
  vm : Vm

/-- The loop of `do_signal` over the signals still to be looked at. -/
def doSignalLoop (mm : Mm) : List Signo → Proc → Vm → Delivery
  | [], p, vm => ⟨none, p, vm⟩
  | signo :: rest, p, vm =>
    match doSignalTurn mm signo p vm with
    | .next p vm => doSignalLoop mm rest p vm
    | .installed p vm => ⟨some signo, p, vm⟩

/-- `do_signal()` of a process whose address space is `mm`. -/
def doSignal (mm : Mm) (p : Proc) (vm : Vm) : Delivery := doSignalLoop mm allSignos p vm

/-! ## The frame -/

theorem pageStart_frameSp (oldSp : Uint64) : PageStart (frameSp oldSp) := pageStart_PGROUNDDOWN _

@[simp] theorem PGROUNDDOWN_frameSp (oldSp : Uint64) :
    PGROUNDDOWN (frameSp oldSp) = frameSp oldSp :=
  PGROUNDDOWN_idem _

/-- The frame's bytes, from its lowest address. -/
def frameBytes (uc : Ucontext) (info : Siginfo) : List Byte := info.toBytes ++ uc.toBytes

def sizeofFrame : Nat := sizeofSiginfo + sizeofUcontext

@[simp] theorem length_frameBytes (uc : Ucontext) (info : Siginfo) :
    (frameBytes uc info).length = sizeofFrame := by
  simp [frameBytes, sizeofFrame]

/-- **The frame lies in one page**, so it is written whole, or not at all when the page is
not a valid user page. -/
theorem copyFrame_eq (vm : Vm) (mm : Mm) (oldSp : Uint64) (uc : Ucontext) (info : Siginfo) :
    copyFrame vm mm (frameSp oldSp) uc info =
      if walkaddr vm mm (frameSp oldSp) = 0 then (-EINVAL, vm)
      else (0, vm.store (walkaddr vm mm (frameSp oldSp)) (frameBytes uc info)) := by
  have hpage := pageStart_frameSp oldSp
  have hzero : frameSp oldSp = frameSp oldSp + BitVec.ofNat 64 0 := by simp
  have hrest : pageRest (frameSp oldSp) = 4096 := by
    rw [hzero, pageRest_offset hpage (by decide)]
  have hucRest : pageRest (ucAddr (frameSp oldSp)) = 4096 - 24 :=
    pageRest_offset hpage (by decide)
  have hucPage : PGROUNDDOWN (ucAddr (frameSp oldSp)) = frameSp oldSp :=
    PGROUNDDOWN_add hpage (by decide)
  have hucOff : ucAddr (frameSp oldSp) - frameSp oldSp
      = BitVec.ofNat 64 info.toBytes.length := by
    rw [ucAddr, Siginfo.length_toBytes, BitVec.add_comm, BitVec.add_sub_cancel]
  have hnil (bs : List Byte) (hbs : bs.length ≠ 0) : bs ≠ [] := by
    rintro rfl; exact hbs rfl
  have huc := @copyToUser_onePage vm mm (ucAddr (frameSp oldSp)) uc.toBytes
    (hnil _ (by simp [sizeofUcontext]))
    (by rw [hucRest, Ucontext.length_toBytes, sizeofUcontext]; decide)
  rw [hucPage, hucOff] at huc
  rw [copyFrame, huc]
  by_cases hpa : walkaddr vm mm (frameSp oldSp) = 0
  · simp [hpa, EINVAL]
  · have hinfo := @copyToUser_onePage
      (vm.store (walkaddr vm mm (frameSp oldSp) + BitVec.ofNat 64 info.toBytes.length) uc.toBytes)
      mm (frameSp oldSp) info.toBytes (hnil _ (by simp [sizeofSiginfo]))
      (by rw [hrest, Siginfo.length_toBytes, sizeofSiginfo]; decide)
    rw [PGROUNDDOWN_frameSp, walkaddr_congr (Vm.store_pte _ _ _), if_neg hpa, BitVec.sub_self,
      BitVec.add_zero] at hinfo
    have hsum : info.toBytes.length + uc.toBytes.length < 2 ^ 64 := by
      rw [Siginfo.length_toBytes, Ucontext.length_toBytes]
      decide
    simp only [if_neg hpa, ge_iff_le, le_refl, if_true, hinfo, Vm.store_store hsum, frameBytes]

/-! ## What a turn can do -/

/-- The user memory after the frame of a handler was written, with this siginfo. -/
def frameWritten (vm : Vm) (mm : Mm) (p : Proc) (info : Siginfo) : Vm :=
  vm.store (walkaddr vm mm (frameSp p.trapframe.sp))
    (frameBytes (Ucontext.save p.signal.sigmask p.trapframe) info)

/-- The user memory after the frame of the handler of a signal was written. -/
def frameStored (vm : Vm) (mm : Mm) (p : Proc) (signo : Signo) : Vm :=
  frameWritten vm mm p (p.signal.siginfos signo)

/-- The page a handler's frame goes to is a valid user page. -/
def FrameMapped (vm : Vm) (mm : Mm) (p : Proc) : Prop :=
  walkaddr vm mm (frameSp p.trapframe.sp) ≠ 0

/-- The signals `do_signal` handles without looking at the mask. -/
def Unblockable (signo : Signo) : Prop := signo = SIGKILL ∨ signo = SIGSTOP ∨ signo = SIGCONT

instance (signo : Signo) : Decidable (Unblockable signo) :=
  inferInstanceAs (Decidable (_ ∨ _ ∨ _))

/-- The signal is pending, can be blocked and is not. -/
structure Deliverable (p : Proc) (signo : Signo) : Prop where
  pending : p.pending signo = true
  blockable : ¬ Unblockable signo
  unmasked : p.masked signo = false

instance (p : Proc) (signo : Signo) : Decidable (Deliverable p signo) :=
  decidable_of_iff (p.pending signo = true ∧ ¬ Unblockable signo ∧ p.masked signo = false)
    ⟨fun h => ⟨h.1, h.2.1, h.2.2⟩, fun h => ⟨h.pending, h.blockable, h.unmasked⟩⟩

/-- The signal is one that marks the process killed by default. -/
def TakesDefault (p : Proc) (signo : Signo) : Prop :=
  Deliverable p signo ∧ (p.signal.sa signo).saSigaction = SIG_DFL ∧ signo ≠ SIGCHLD

instance (p : Proc) (signo : Signo) : Decidable (TakesDefault p signo) :=
  inferInstanceAs (Decidable (_ ∧ _))

/-- The disposition of the signal is a user handler. -/
def HasHandler (p : Proc) (signo : Signo) : Prop :=
  (p.signal.sa signo).saSigaction ≠ SIG_IGN ∧ (p.signal.sa signo).saSigaction ≠ SIG_DFL

/-- The disposition of the signal makes `do_signal` drop it. -/
def Ignored (p : Proc) (signo : Signo) : Prop :=
  (p.signal.sa signo).saSigaction = SIG_IGN ∨
    (signo = SIGCHLD ∧ (p.signal.sa signo).saSigaction = SIG_DFL)

section Look

variable {signo : Signo} {p q : Proc}

/-- The exits of the look at a signal. -/
inductive TakenCase (signo : Signo) (p : Proc) : Taken → Prop
  | notPending (h : p.pending signo = false) : TakenCase signo p (.next p)
  | kill (hpend : p.pending SIGKILL = true) (hsig : signo = SIGKILL) :
      TakenCase signo p (.next { p.delPending SIGKILL with killed := -10 - SIGKILL.val })
  | stop (hpend : p.pending SIGSTOP = true) (hsig : signo = SIGSTOP) :
      TakenCase signo p (.next { p.delPending SIGSTOP with needStop := 1 })
  | cont (hpend : p.pending SIGCONT = true) (hsig : signo = SIGCONT) :
      TakenCase signo p (.next ((p.delPending SIGCONT).cancelStop.delPending SIGSTOP))
  | masked (hblock : ¬ Unblockable signo) (hmask : p.masked signo = true) :
      TakenCase signo p (.next p)
  | ignored (h : Deliverable p signo) (hign : Ignored p signo) :
      TakenCase signo p (.next (p.delPending signo))
  | default (h : Deliverable p signo) (hdfl : (p.signal.sa signo).saSigaction = SIG_DFL)
      (hchld : signo ≠ SIGCHLD) :
      TakenCase signo p (.next { p.delPending signo with killed := -10 - signo.val })
  | handler (h : Deliverable p signo) (hsa : HasHandler p signo) :
      TakenCase signo p (.handler (p.delPending signo))

/-- **Everything the look at a signal can do.** -/
theorem takeSignal_cases (signo : Signo) (p : Proc) : TakenCase signo p (takeSignal signo p) := by
  rw [takeSignal]
  cases hpend : p.pending signo with
  | false => exact .notPending hpend
  | true =>
    simp only [Bool.not_true, Bool.false_eq_true, if_false]
    by_cases hkill : signo = SIGKILL
    · rw [if_pos hkill]
      subst hkill
      exact .kill hpend rfl
    rw [if_neg hkill]
    by_cases hstop : signo = SIGSTOP
    · rw [if_pos hstop]
      subst hstop
      exact .stop hpend rfl
    rw [if_neg hstop]
    by_cases hcont : signo = SIGCONT
    · rw [if_pos hcont]
      subst hcont
      rw [Proc.delPending_if_pending]
      exact .cont hpend rfl
    rw [if_neg hcont]
    have hblock : ¬ Unblockable signo := by
      rintro (h | h | h)
      exacts [hkill h, hstop h, hcont h]
    cases hmask : p.masked signo with
    | true => exact .masked hblock hmask
    | false =>
      have hdel : Deliverable p signo := ⟨hpend, hblock, hmask⟩
      simp only [Bool.false_eq_true, if_false]
      by_cases hign : (p.signal.sa signo).saSigaction = SIG_IGN
      · rw [if_pos hign]
        exact .ignored hdel (.inl hign)
      rw [if_neg hign]
      by_cases hchld : signo = SIGCHLD ∧ (p.signal.sa signo).saSigaction = SIG_DFL
      · rw [if_pos hchld]
        exact .ignored hdel (.inr hchld)
      rw [if_neg hchld]
      by_cases hdfl : (p.signal.sa signo).saSigaction = SIG_DFL
      · rw [if_pos hdfl]
        exact .default hdel hdfl fun h => hchld ⟨h, hdfl⟩
      rw [if_neg hdfl]
      exact .handler hdel ⟨hign, hdfl⟩

theorem takeSignal_of_blockable (h : Deliverable p signo) :
    takeSignal signo p =
      let sa := p.signal.sa signo
      let p' := p.delPending signo
      if sa.saSigaction = SIG_IGN then .next p'
      else if signo = SIGCHLD ∧ sa.saSigaction = SIG_DFL then .next p'
      else if sa.saSigaction = SIG_DFL then .next { p' with killed := -10 - signo.val }
      else .handler p' := by
  have hblock := h.blockable
  simp only [Unblockable, not_or] at hblock
  rw [takeSignal, h.pending, h.unmasked, if_neg hblock.1, if_neg hblock.2.1, if_neg hblock.2.2]
  rfl

/-- The exit of the look is determined by the state before it. -/
theorem TakenCase.taken_eq {t : Taken} (h : TakenCase signo p t) : takeSignal signo p = t := by
  cases h with
  | notPending h => rw [takeSignal, h]; rfl
  | kill hpend hsig => subst hsig; rw [takeSignal, hpend]; rfl
  | stop hpend hsig => subst hsig; rw [takeSignal, hpend]; rfl
  | cont hpend hsig =>
    subst hsig
    rw [← Proc.delPending_if_pending, takeSignal, hpend]
    rfl
  | masked hblock hmask =>
    simp only [Unblockable, not_or] at hblock
    rw [takeSignal, if_neg hblock.1, if_neg hblock.2.1, if_neg hblock.2.2, if_pos hmask]
    exact ite_self _
  | ignored h hign =>
    rw [takeSignal_of_blockable h]
    rcases hign with hign | hchld
    · exact if_pos hign
    · dsimp only
      rw [if_pos hchld, ite_self]
  | default h hdfl hchld =>
    have hign : (p.signal.sa signo).saSigaction ≠ SIG_IGN := by
      rw [hdfl]
      decide
    rw [takeSignal_of_blockable h]
    dsimp only
    rw [if_neg hign, if_neg fun h => hchld h.1, if_pos hdfl]
  | handler h hsa =>
    rw [takeSignal_of_blockable h]
    dsimp only
    rw [if_neg hsa.1, if_neg fun h => hsa.2 h.2, if_neg hsa.2]

theorem takeSignal_handler (h : takeSignal signo p = .handler q) :
    Deliverable p signo ∧ HasHandler p signo ∧ q = p.delPending signo := by
  have hcase := h ▸ takeSignal_cases signo p
  cases hcase with
  | handler hdel hsa => exact ⟨hdel, hsa, rfl⟩

/-- The look at a signal makes none pending. -/
theorem pending_of_taken {n : Signo} (h : takeSignal signo p = .next q) (hn : q.pending n = true) :
    p.pending n = true := by
  have hcase := h ▸ takeSignal_cases signo p
  cases hcase with
  | notPending => exact hn
  | masked => exact hn
  | kill => exact Proc.pending_of_delPending (p := p) hn
  | stop => exact Proc.pending_of_delPending (p := p) hn
  | cont => exact Proc.pending_of_delPending (p := p) (Proc.pending_of_delPending hn)
  | ignored => exact Proc.pending_of_delPending hn
  | default => exact Proc.pending_of_delPending (p := p) hn

/-- The look at a signal leaves the process marked as it was, or marks it killed. -/
theorem takeSignal_killed (h : takeSignal signo p = .next q) :
    q.killed = p.killed ∨ q.killed = -10 - SIGKILL.val ∨
      (TakesDefault p signo ∧ q.killed = -10 - signo.val) := by
  have hcase := h ▸ takeSignal_cases signo p
  cases hcase with
  | kill => exact .inr (.inl rfl)
  | default hdel hdfl hchld => exact .inr (.inr ⟨⟨hdel, hdfl, hchld⟩, rfl⟩)
  | _ => exact .inl rfl

end Look

section Start

variable {mm : Mm} {signo : Signo} {info : Siginfo} {p : Proc} {vm : Vm}

/-- A handler whose frame can be written is started. -/
theorem startHandler_of_mapped (h : FrameMapped vm mm p) :
    startHandler mm signo info p vm = .installed (p.enterHandler signo)
      (frameWritten vm mm p info) := by
  rw [startHandler, copyFrame_eq, if_neg h, if_neg (lt_irrefl _)]
  rfl

/-- If its frame cannot be written, the signal is dropped. -/
theorem startHandler_of_unmapped (h : ¬ FrameMapped vm mm p) :
    startHandler mm signo info p vm = .next p vm := by
  have hneg : -EINVAL < 0 := by decide
  rw [startHandler, copyFrame_eq, if_pos (not_not.1 h), if_pos hneg]

end Start

/-- The exits of a turn of the loop of `do_signal`. -/
inductive TurnCase (mm : Mm) (signo : Signo) (p : Proc) (vm : Vm) : Turn → Prop
  | notPending (h : p.pending signo = false) : TurnCase mm signo p vm (.next p vm)
  | kill (hpend : p.pending SIGKILL = true) (hsig : signo = SIGKILL) :
      TurnCase mm signo p vm (.next { p.delPending SIGKILL with killed := -10 - SIGKILL.val } vm)
  | stop (hpend : p.pending SIGSTOP = true) (hsig : signo = SIGSTOP) :
      TurnCase mm signo p vm (.next { p.delPending SIGSTOP with needStop := 1 } vm)
  | cont (hpend : p.pending SIGCONT = true) (hsig : signo = SIGCONT) :
      TurnCase mm signo p vm (.next ((p.delPending SIGCONT).cancelStop.delPending SIGSTOP) vm)
  | masked (hblock : ¬ Unblockable signo) (hmask : p.masked signo = true) :
    TurnCase mm signo p vm (.next p vm)
  | ignored (h : Deliverable p signo) (hign : Ignored p signo) :
      TurnCase mm signo p vm (.next (p.delPending signo) vm)
  | default (h : Deliverable p signo) (hdfl : (p.signal.sa signo).saSigaction = SIG_DFL)
      (hchld : signo ≠ SIGCHLD) :
      TurnCase mm signo p vm (.next { p.delPending signo with killed := -10 - signo.val } vm)
  | discarded (h : Deliverable p signo) (hsa : HasHandler p signo) (hmap : ¬ FrameMapped vm mm p) :
      TurnCase mm signo p vm (.next (p.delPending signo) vm)
  | installed (h : Deliverable p signo) (hsa : HasHandler p signo) (hmap : FrameMapped vm mm p) :
      TurnCase mm signo p vm
        (.installed ((p.delPending signo).enterHandler signo) (frameStored vm mm p signo))

/-- **Everything a turn can do.** -/
theorem doSignalTurn_cases (mm : Mm) (signo : Signo) (p : Proc) (vm : Vm) :
    TurnCase mm signo p vm (doSignalTurn mm signo p vm) := by
  have hcase := takeSignal_cases signo p
  rw [doSignalTurn]
  generalize takeSignal signo p = taken at hcase
  cases hcase with
  | notPending h => exact .notPending h
  | kill hpend hsig => exact .kill hpend hsig
  | stop hpend hsig => exact .stop hpend hsig
  | cont hpend hsig => exact .cont hpend hsig
  | masked hblock hmask => exact .masked hblock hmask
  | ignored h hign => exact .ignored h hign
  | default h hdfl hchld => exact .default h hdfl hchld
  | handler h hsa =>
    dsimp only
    by_cases hmap : FrameMapped vm mm p
    · rw [startHandler_of_mapped (p := p.delPending signo) hmap]
      exact .installed h hsa hmap
    · rw [startHandler_of_unmapped (p := p.delPending signo) hmap]
      exact .discarded h hsa hmap

/-- The exit of a turn is determined by the state before it. -/
theorem TurnCase.turn_eq {mm : Mm} {signo : Signo} {p : Proc} {vm : Vm} {t : Turn}
    (h : TurnCase mm signo p vm t) : doSignalTurn mm signo p vm = t := by
  cases h with
  | notPending h => rw [doSignalTurn, (TakenCase.notPending h).taken_eq]
  | kill hpend hsig => rw [doSignalTurn, (TakenCase.kill hpend hsig).taken_eq]
  | stop hpend hsig => rw [doSignalTurn, (TakenCase.stop hpend hsig).taken_eq]
  | cont hpend hsig => rw [doSignalTurn, (TakenCase.cont hpend hsig).taken_eq]
  | masked hblock hmask => rw [doSignalTurn, (TakenCase.masked hblock hmask).taken_eq]
  | ignored h hign => rw [doSignalTurn, (TakenCase.ignored h hign).taken_eq]
  | default h hdfl hchld => rw [doSignalTurn, (TakenCase.default h hdfl hchld).taken_eq]
  | discarded h hsa hmap =>
    rw [doSignalTurn, (TakenCase.handler h hsa).taken_eq]
    exact startHandler_of_unmapped (p := p.delPending signo) hmap
  | installed h hsa hmap =>
    rw [doSignalTurn, (TakenCase.handler h hsa).taken_eq]
    exact startHandler_of_mapped (p := p.delPending signo) hmap

end SignalOS
