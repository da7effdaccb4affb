import SignalOS.Lib.Nesting
import SignalOS.Lib.Runs
import SignalOS.Signal.Sigkill
import SignalOS.Signal.Sigreturn
import SignalOS.Vm.Lifetime
import SignalOS.Vm.UserRange

/-!
# Handlers that interrupt handlers

A process that signals are sent to, that `do_signal` delivers to at any time, and
whose handlers return in last-in first-out order.

* `AddrSpace` — memory with an address space in which every user page has a frame
  of its own.
* `HandlerRun`, `step` — the process with the handlers active in it, and what can
  happen to it.
* `Inv` — the invariant: the handlers are nested, and every saved frame is in user
  memory as `do_signal` wrote it.
* `handlers_nested` — **at every moment of every run** no handler is re-entered, what
  the active handlers block is blocked, their frames are apart, and after the
  outermost return the mask is what it was.
-/

namespace SignalOS

open BitSet Nesting Runs

/-! ## Address spaces -/

/-- Memory and an address space in it.  `mm_mappages` takes a new frame for every user page
it maps, so no two user addresses share a byte. -/
structure AddrSpace where
  vm : Vm
  mm : Mm
  inj : ∀ va va' a, userPa vm mm va = some a → userPa vm mm va' = some a → va = va'

/-- An address space in good order is one. -/
def AddrSpace.ofGood {vm : Vm} {mm : Mm} (h : Good vm mm.pgt) : AddrSpace :=
  ⟨vm, mm, fun _ _ _ => h.userPa_inj⟩

/-- The address space after a change to memory that leaves the entries alone. -/
def AddrSpace.withVm (as : AddrSpace) (vm : Vm) (h : vm.pte = as.vm.pte) : AddrSpace :=
  ⟨vm, as.mm, fun va va' a hva hva' =>
    as.inj va va' a ((userPa_congr h va).symm.trans hva) ((userPa_congr h va').symm.trans hva')⟩

/-- A store to a user page is not seen at any other user address. -/
theorem AddrSpace.userByte_store_of_ne (as : AddrSpace) {p va : Uint64} {src : List Byte}
    (hp : PageStart p) (hmap : walkaddr as.vm as.mm p ≠ 0) (hfit : src.length ≤ 4096)
    (hva : ∀ i < src.length, va ≠ p + BitVec.ofNat 64 i) :
    userByte (as.vm.store (walkaddr as.vm as.mm p) src) as.mm va = userByte as.vm as.mm va := by
  rw [userByte, userByte, userPa_congr (Vm.store_pte _ _ _)]
  cases hpa : userPa as.vm as.mm va with
  | none => rfl
  | some a =>
    rw [Option.map_some, Option.map_some, Vm.store_byte]
    by_cases hin : (a - walkaddr as.vm as.mm p).toNat < src.length
    · -- the store hits the byte behind `va`, so `va` is one of its addresses
      have hi : (a - walkaddr as.vm as.mm p).toNat < 4096 := by omega
      have hhit : userPa as.vm as.mm
          (p + BitVec.ofNat 64 (a - walkaddr as.vm as.mm p).toNat) = some a := by
        rw [userPa_in_page hp hi, if_neg hmap, add_toNat_sub]
      exact absurd (as.inj _ _ _ hpa hhit) (hva _ hin)
    · rw [memmove_of_le (Nat.not_lt.1 hin)]

/-! ## The system -/

/-- An active handler: the signal, the mask it was delivered with, and what it interrupted. -/
structure Handler where
  signo : Signo
  saMask : Sigset
  mask : Sigset
  tf : Trapframe
  info : Siginfo

/-- The stack pointer `do_signal` installed for a handler. -/
def Handler.newSp (h : Handler) : Uint64 := frameSp h.tf.sp

/-- The handler of `signo` that `do_signal` installs in `p`. -/
def Proc.handlerOf (p : Proc) (signo : Signo) : Handler :=
  ⟨signo, (p.signal.sa signo).saMask, p.signal.sigmask, p.trapframe, p.signal.siginfos signo⟩

structure HandlerRun where
  space : AddrSpace
  proc : Proc
  /-- The active handlers, the innermost first. -/
  handlers : List Handler

inductive HandlerAct where
  /-- `sys_sigkill` finds the process. -/
  | send (signo : Signo) (code sender : Int)
  /-- `do_signal`. -/
  | deliver
  /-- User code runs: it ends with these registers and this memory. -/
  | user (tf : Trapframe) (space : AddrSpace)
  | sigreturn
  | sigaction (signo : Int) (act oldact : Uint64)
  | sigprocmask (how : Int) (set oldset : Uint64)

/-- The saved frames of the active handlers read the same in `space`. -/
def FramesKept (s : HandlerRun) (space : AddrSpace) : Prop :=
  ∀ h ∈ s.handlers, ∀ i < sizeofFrame, userByte space.vm space.mm (h.newSp + BitVec.ofNat 64 i) =
    userByte s.space.vm s.space.mm (h.newSp + BitVec.ofNat 64 i)

/-- A handler runs on a stack pointer at or below the installed one. -/
def SpInHandler (s : HandlerRun) (sp : Uint64) : Prop :=
  ∀ h ∈ s.handlers.head?, sp ≤ h.newSp

instance (s : HandlerRun) (space : AddrSpace) : Decidable (FramesKept s space) :=
  inferInstanceAs (Decidable (∀ h ∈ s.handlers, ∀ i < sizeofFrame, _))

instance (s : HandlerRun) (sp : Uint64) : Decidable (SpInHandler s sp) :=
  inferInstanceAs (Decidable (∀ h ∈ s.handlers.head?, sp ≤ h.newSp))

theorem doSignal_pte (mm : Mm) (p : Proc) (vm : Vm) : (doSignal mm p vm).vm.pte = vm.pte := by
  rcases doSignal_cases mm p vm with ⟨-, -, hvm⟩ | ⟨signo, -, hinst⟩
  · rw [hvm]
  · rw [hinst.memory, frameStored, frameWritten, Vm.store_pte]

namespace HandlerRun

/-- What can happen to the process; `none` is a step that breaks the rules for handlers. -/
def step (s : HandlerRun) : HandlerAct → Option HandlerRun
  | .send signo code sender => some { s with proc := (s.proc.receive signo code sender).1 }
  | .deliver =>
    let d := doSignal s.space.mm s.proc s.space.vm
    some
      { space := s.space.withVm d.vm (doSignal_pte _ _ _)
        proc := d.proc
        handlers := (d.handler.map s.proc.handlerOf).toList ++ s.handlers }
  | .user tf space =>
    if FramesKept s space ∧ SpInHandler s tf.sp then
      some { s with space := space, proc := { s.proc with trapframe := tf } }
    else none
  | .sigreturn =>
    match s.handlers with
    | [] => none
    | h :: rest =>
      if s.proc.trapframe.sp = h.newSp then
        some { s with proc := (sysSigreturn s.space.mm s.proc s.space.vm).2, handlers := rest }
      else none
  | .sigaction signo act oldact =>
    let r := sysSigaction s.space.mm s.proc s.space.vm signo act oldact
    let space := s.space.withVm r.2.2 (sysSigaction_pte _ _ _ _ _ _)
    if FramesKept s space then some { s with space := space, proc := r.2.1 } else none
  | .sigprocmask how set oldset =>
    if s.handlers.isEmpty then
      let r := sysSigprocmask s.space.mm s.proc s.space.vm how set oldset
      some { s with space := s.space.withVm r.2.2 (sysSigprocmask_pte _ _ _ _ _ _), proc := r.2.1 }
    else none

end HandlerRun

/-! ## The invariant -/

/-- Masks as sets of bit positions: a handler blocks its `sa_mask` and its signal. -/
def sigMasking : Masking (Fin 64) Sigset where
  mem i m := i.val ∈ elems m
  enter m i added := m ||| added ||| (1#64) <<< i.val
  mem_enter m i added x := by
    rw [elems_or, elems_or, elems_single i.isLt, Set.mem_union, Set.mem_union,
      Set.mem_singleton_iff, or_assoc, Fin.ext_iff]

def handlerLayout : Layout Handler (Fin 64) Sigset where
  key h := h.signo.castLE (by decide)
  added := Handler.saMask
  saved := Handler.mask
  sp h := h.tf.sp.toNat
  bottom h := h.newSp.toNat
  top h := h.newSp.toNat + sizeofFrame

/-- The handlers that can be active in a process, and the mask without any of them. -/
abbrev NestedHandlers (base mask : Sigset) (sp : Uint64) (handlers : List Handler) : Prop :=
  Nested sigMasking handlerLayout base mask sp.toNat handlers

/-- The bytes of the frame of a handler. -/
def Handler.frame (h : Handler) : List Byte := frameBytes (Ucontext.save h.mask h.tf) h.info

@[simp] theorem Handler.length_frame (h : Handler) : h.frame.length = sizeofFrame :=
  length_frameBytes _ _

/-- The frame of a handler is in user memory as `do_signal` wrote it. -/
def FrameHeld (vm : Vm) (mm : Mm) (h : Handler) : Prop :=
  ∀ (i : Nat) (hi : i < h.frame.length),
    userByte vm mm (h.newSp + BitVec.ofNat 64 i) = some h.frame[i]

/-- **The invariant.** -/
structure Inv (base : Sigset) (s : HandlerRun) : Prop where
  nested : NestedHandlers base s.proc.signal.sigmask s.proc.trapframe.sp s.handlers
  held : ∀ h ∈ s.handlers, FrameHeld s.space.vm s.space.mm h

/-! ## Entering a handler -/

/-- The frame of a handler that could be written is below the stack pointer it interrupts:
for a stack pointer too low the address wraps around to one that is not a user address. -/
theorem frameSp_below {vm : Vm} {mm : Mm} {oldSp : Uint64}
    (hmap : walkaddr vm mm (frameSp oldSp) ≠ 0) :
    (frameSp oldSp).toNat + sizeofFrame ≤ oldSp.toNat := by
  have huser : frameSp oldSp ≤ MAXVA := by
    by_contra hlt
    exact hmap (walkaddr_of_not_user (decide_eq_false hlt))
  have hmax : MAXVA.toNat = 2 ^ 38 := rfl
  have hle : (frameSp oldSp).toNat ≤ 2 ^ 38 := hmax ▸ huser
  have hsub : (oldSp - BitVec.ofNat 64 sizeofUcontext - BitVec.ofNat 64 sizeofSiginfo).toNat
      = if oldSp.toNat < 288 then oldSp.toNat + (2 ^ 64 - 288) else oldSp.toNat - 288 := by
    have hlt : oldSp.toNat < 2 ^ 64 := oldSp.isLt
    have hword : oldSp - BitVec.ofNat 64 sizeofUcontext - BitVec.ofNat 64 sizeofSiginfo
        = oldSp - 288 := by
      simp only [sizeofUcontext, sizeofSiginfo]
      grind
    rw [hword, BitVec.toNat_sub]
    split <;> simp <;> omega
  have hsize : sizeofFrame = 288 := rfl
  rw [frameSp, toNat_PGROUNDDOWN, hsub] at hle ⊢
  by_cases hlow : oldSp.toNat < 288
  · rw [if_pos hlow] at hle
    exfalso
    omega
  · rw [if_neg hlow]
    clear hle
    omega

/-- The page of a saved frame. -/
theorem Handler.page (h : Handler) {i : Nat} (hi : i < sizeofFrame) :
    PGROUNDDOWN (h.newSp + BitVec.ofNat 64 i) = h.newSp :=
  PGROUNDDOWN_add (pageStart_frameSp _) (lt_of_lt_of_le hi (by decide))

/-- The frame of a new handler is in user memory. -/
theorem frameHeld_handlerOf {vm : Vm} {mm : Mm} {p : Proc} (hmap : FrameMapped vm mm p)
    (signo : Signo) : FrameHeld (frameStored vm mm p signo) mm (p.handlerOf signo) := by
  intro i hi
  have hframe : (p.handlerOf signo).frame
      = frameBytes (Ucontext.save p.signal.sigmask p.trapframe) (p.signal.siginfos signo) := rfl
  have hsp : (p.handlerOf signo).newSp = frameSp p.trapframe.sp := rfl
  simp only [hframe] at hi ⊢
  rw [hsp]
  exact userByte_frameStored hmap signo hi

/-- The frame of a new handler is written beside the frames of the active ones. -/
theorem frameHeld_frameStored {as : AddrSpace} {p : Proc} {signo : Signo} {h : Handler}
    (hmap : FrameMapped as.vm as.mm p) (hheld : FrameHeld as.vm as.mm h)
    (hne : h.newSp ≠ frameSp p.trapframe.sp) :
    FrameHeld (frameStored as.vm as.mm p signo) as.mm h := by
  intro i hi
  rw [frameStored, frameWritten, as.userByte_store_of_ne (pageStart_frameSp _) hmap
    (by rw [length_frameBytes]; decide)]
  · exact hheld i hi
  · -- the two frames lie in different pages
    intro j hj heq
    rw [Handler.length_frame] at hi
    rw [length_frameBytes] at hj
    have hpage := h.page hi
    rw [heq, PGROUNDDOWN_add (pageStart_frameSp _) (lt_of_lt_of_le hj (by decide))] at hpage
    exact hne hpage.symm

/-- **`do_signal` keeps the invariant.** -/
theorem inv_deliver {base : Sigset} {s : HandlerRun} (hinv : Inv base s)
    (d : Delivery) (hd : doSignal s.space.mm s.proc s.space.vm = d)
    (hpte : d.vm.pte = s.space.vm.pte) :
    Inv base
      { space := s.space.withVm d.vm hpte
        proc := d.proc
        handlers := (d.handler.map s.proc.handlerOf).toList ++ s.handlers } := by
  have hcases := doSignal_cases s.space.mm s.proc s.space.vm
  rw [hd] at hcases
  rcases hcases with ⟨hnone, hbook, hvm⟩ | ⟨signo, hsome, hinst⟩
  · rw [hnone]
    refine ⟨?_, fun h hh => ?_⟩
    · rw [hbook.sigmask_eq, hbook.trapframe_eq]
      exact hinv.nested
    · simp only [AddrSpace.withVm, hvm]
      exact hinv.held h hh
  · rw [hsome]
    have hbelow := frameSp_below hinst.mapped
    refine ⟨?_, fun h hh => ?_⟩
    · rw [hinst.context.sigmask_eq, hinst.context.trapframe_eq]
      have hfree : ¬ sigMasking.mem (handlerLayout.key (s.proc.handlerOf signo))
          s.proc.signal.sigmask := by
        intro hmem
        have hbit : signo.val ∈ elems s.proc.signal.sigmask := hmem
        have hmasked : s.proc.masked signo = true := sigismember_iff.2 hbit
        rw [hinst.deliverable.unmasked] at hmasked
        exact Bool.noConfusion hmasked
      exact Nested.enter (f := s.proc.handlerOf signo) hinv.nested hfree rfl rfl hbelow
        (Nat.le_add_right _ _) (le_refl _)
    · simp only [AddrSpace.withVm, hinst.memory]
      rcases List.mem_cons.1 hh with rfl | hh
      · exact frameHeld_handlerOf hinst.mapped signo
      · refine frameHeld_frameStored hinst.mapped (hinv.held h hh) ?_
        have hbound := (hinv.nested.frame_bounds hh).1
        intro heq
        have hbottom : handlerLayout.bottom h = (frameSp s.proc.trapframe.sp).toNat := by
          rw [← heq]
          rfl
        rw [hbottom] at hbound
        have hsize : sizeofFrame = 288 := rfl
        omega

/-! ## Leaving a handler -/

/-- The innermost handler returns with its stack pointer restored. -/
theorem sysSigreturn_of_frameHeld {vm : Vm} {mm : Mm} {q : Proc} {h : Handler}
    (hheld : FrameHeld vm mm h) (hsp : q.trapframe.sp = h.newSp) :
    sysSigreturn mm q vm =
      (0, { q.setSigmask h.mask with trapframe := { h.tf with t6 := 0 } }) := by
  refine @sysSigreturn_of_held mm q vm _ _ h.info fun i hi => ?_
  rw [hsp]
  exact hheld i hi

theorem inv_sigreturn {base : Sigset} {s : HandlerRun} {h : Handler} {rest : List Handler}
    (hinv : Inv base s) (hhandlers : s.handlers = h :: rest)
    (hsp : s.proc.trapframe.sp = h.newSp) :
    Inv base
      { s with
        proc := (sysSigreturn s.space.mm s.proc s.space.vm).2
        handlers := rest } := by
  have hheld : ∀ g ∈ h :: rest, FrameHeld s.space.vm s.space.mm g := hhandlers ▸ hinv.held
  rw [sysSigreturn_of_frameHeld (hheld h List.mem_cons_self) hsp]
  refine ⟨?_, fun g hg => hheld g (List.mem_cons_of_mem h hg)⟩
  have hnested := hinv.nested
  rw [hhandlers] at hnested
  exact hnested.leave

/-! ## Runs -/

/-- The main program changes the mask. -/
def HandlerAct.isSigprocmask : HandlerAct → Bool
  | .sigprocmask _ _ _ => true
  | _ => false

/-- Frames that read the same are still held. -/
theorem held_of_framesKept {base : Sigset} {s : HandlerRun} {space : AddrSpace} (hinv : Inv base s)
    (hkept : FramesKept s space) : ∀ h ∈ s.handlers, FrameHeld space.vm space.mm h := by
  intro h hh i hi
  rw [hkept h hh i (by rwa [Handler.length_frame] at hi)]
  exact hinv.held h hh i hi

/-- A process without handlers satisfies the invariant. -/
theorem inv_of_no_handlers {s : HandlerRun} (h : s.handlers = []) :
    Inv s.proc.signal.sigmask s := by
  refine ⟨?_, ?_⟩
  · rw [h]
    exact .nil _
  · rw [h]
    exact fun g hg => absurd hg List.not_mem_nil

/-- **Every step keeps the invariant**; only the main program changes the mask below the
handlers. -/
theorem inv_step {base : Sigset} {s t : HandlerRun} {a : HandlerAct} (hinv : Inv base s)
    (hstep : s.step a = some t) :
    ∃ base', Inv base' t ∧ (a.isSigprocmask = false → base' = base) := by
  cases a with
  | send signo code sender =>
    obtain rfl := Option.some.inj hstep
    have hsig := signalled_receive s.proc signo code sender
    refine ⟨base, ⟨?_, hinv.held⟩, fun _ => rfl⟩
    rw [hsig.sigmask_eq, hsig.trapframe_eq]
    exact hinv.nested
  | deliver =>
    obtain rfl := Option.some.inj hstep
    exact ⟨base, inv_deliver hinv _ rfl _, fun _ => rfl⟩
  | user tf space =>
    rw [HandlerRun.step] at hstep
    split at hstep
    · rename_i hok
      obtain rfl := Option.some.inj hstep
      have hheld := held_of_framesKept hinv hok.1
      refine ⟨base, ⟨hinv.nested.move ?_, hheld⟩, fun _ => rfl⟩
      intro h rest hhandlers
      exact hok.2 h (by rw [hhandlers]; rfl)
    · exact absurd hstep (by simp)
  | sigreturn =>
    rw [HandlerRun.step] at hstep
    split at hstep
    · exact absurd hstep (by simp)
    · rename_i h rest hhandlers
      split at hstep
      · rename_i hsp
        obtain rfl := Option.some.inj hstep
        exact ⟨base, inv_sigreturn hinv hhandlers hsp, fun _ => rfl⟩
      · exact absurd hstep (by simp)
  | sigaction signo act oldact =>
    rw [HandlerRun.step] at hstep
    split at hstep
    · rename_i hkept
      obtain rfl := Option.some.inj hstep
      have hheld := held_of_framesKept hinv hkept
      obtain ⟨sa, hproc⟩ := sysSigaction_proc s.space.mm s.proc s.space.vm signo act oldact
      refine ⟨base, ⟨?_, hheld⟩, fun _ => rfl⟩
      rw [hproc]
      exact hinv.nested
    · exact absurd hstep (by simp)
  | sigprocmask how set oldset =>
    rw [HandlerRun.step] at hstep
    split at hstep
    · rename_i hempty
      have hnil : s.handlers = [] := List.isEmpty_iff.1 hempty
      obtain rfl := Option.some.inj hstep
      exact ⟨_, inv_of_no_handlers hnil, fun h => absurd h (by simp [HandlerAct.isSigprocmask])⟩
    · exact absurd hstep (by simp)

/-- **The invariant holds at every moment of a run.** -/
theorem inv_run {base : Sigset} {s t : HandlerRun} {as : List HandlerAct} (hinv : Inv base s)
    (hrun : run HandlerRun.step s as = some t) : ∃ base', Inv base' t :=
  run_induct (I := fun s => ∃ base, Inv base s)
    (fun _ _ _ ⟨_, h⟩ _ hstep => (inv_step h hstep).imp fun _ h => h.1) ⟨base,
      hinv⟩ hrun along_true

/-- Without the main program changing the mask, it is the same below the handlers. -/
theorem inv_run_base {base : Sigset} {s t : HandlerRun} {as : List HandlerAct} (hinv : Inv base s)
    (hrun : run HandlerRun.step s as = some t) (has : ∀ a ∈ as, a.isSigprocmask = false) :
    Inv base t := by
  induction as generalizing s with
  | nil => exact Option.some.inj hrun ▸ hinv
  | cons a as ih =>
    obtain ⟨v, hv, hrest⟩ := run_cons_eq_some.1 hrun
    obtain ⟨base', hinv', hbase⟩ := inv_step hinv hv
    rw [hbase (has a List.mem_cons_self)] at hinv'
    exact ih hinv' hrest fun b hb => has b (List.mem_cons_of_mem a hb)

/-- **Handlers are not re-entered and the mask is restored.**  At every moment of a run that
starts without active handlers: no signal has two active handlers; what an active handler
blocks is blocked; the saved frames are whole, apart, each in one page and below the stack
pointer it interrupted; and when no handler is active any more the mask is what it was. -/
theorem handlers_nested {s t : HandlerRun} {as : List HandlerAct} (hs : s.handlers = [])
    (hrun : run HandlerRun.step s as = some t) :
    (t.handlers.map Handler.signo).Nodup ∧
      (∀ h ∈ t.handlers, t.proc.masked h.signo = true ∧
        elems h.saMask ⊆ elems t.proc.signal.sigmask) ∧
      (t.handlers.Pairwise fun f g => f.newSp.toNat + sizeofFrame ≤ g.newSp.toNat) ∧
      (∀ h ∈ t.handlers, FrameHeld t.space.vm t.space.mm h ∧
        (∀ i < sizeofFrame, PGROUNDDOWN (h.newSp + BitVec.ofNat 64 i) = h.newSp) ∧
        h.newSp.toNat + sizeofFrame ≤ h.tf.sp.toNat) ∧
      (t.handlers = [] → (∀ a ∈ as, a.isSigprocmask = false) →
        t.proc.signal.sigmask = s.proc.signal.sigmask) := by
  obtain ⟨base, hinv⟩ := inv_run (inv_of_no_handlers hs) hrun
  have hnested := hinv.nested
  refine ⟨?_, fun h hh => ?_, hnested.frames_disjoint, fun h hh => ?_, fun ht has => ?_⟩
  · have hkeys := hnested.keys_nodup
    have hmap : t.handlers.map handlerLayout.key
        = (t.handlers.map Handler.signo).map fun n => n.castLE (by decide) := by
      rw [List.map_map]
      rfl
    rw [hmap] at hkeys
    exact hkeys.of_map
  · obtain ⟨hkey, hadded⟩ := hnested.mem_mask hh
    refine ⟨sigismember_iff.2 hkey, fun i hi => ?_⟩
    have hlt : i < 64 := by
      by_contra hge
      rw [mem_elems, BitVec.getLsbD_of_ge _ _ (Nat.not_lt.1 hge)] at hi
      exact Bool.noConfusion hi
    exact hadded ⟨i, hlt⟩ hi
  · exact ⟨hinv.held h hh, fun i hi => h.page hi, (hnested.frame_bounds hh).2.2⟩
  · have hbase := inv_run_base (inv_of_no_handlers hs) hrun has
    have hnested' := hbase.nested
    rw [ht] at hnested'
    exact hnested'.mask_eq_base

/-! ## A small run -/

/-- An address space with two pages for the stack, as the kernel makes it. -/
def twoPages : Option AddrSpace :=
  match h : mmWith ⟨7, 0x4000, 0x6000, PTE_R ||| PTE_W ||| PTE_U⟩ initVm with
  | some (some _, _) =>
    some (.ofGood (mmWith_wf freeOk_initVm ⟨by decide, by decide, by decide, by decide⟩
        ⟨by decide, by decide, by decide⟩ h).1.good)
  | _ => none

/-- The small process before any signal. -/
def stackRun (space : AddrSpace) : HandlerRun :=
  ⟨space, { stackProc sigemptyset 0 with mm := some space.mm }, []⟩

/-- A handler that is interrupted by another one, both of which return. -/
def nestedActs : List HandlerAct :=
  [.send SIGUSR0 0 1, .deliver, .send SIGUSR1 0 1, .deliver, .sigreturn, .sigreturn]

theorem handlers_nested_stackRun : ∃ space, twoPages = some space ∧
    (∃ t, run HandlerRun.step (stackRun space) (nestedActs.take 4) = some t ∧
      t.handlers.length = 2 ∧
      (t.handlers.map Handler.signo).Nodup) ∧
    ∃ t, run HandlerRun.step (stackRun space) nestedActs = some t ∧
      t.proc.signal.sigmask = sigemptyset := by
  have hobs : (twoPages.map fun space =>
      ((run HandlerRun.step (stackRun space) (nestedActs.take 4)).map fun t => t.handlers.length,
        (run HandlerRun.step (stackRun space) nestedActs).map fun t => t.handlers.length)) =
      some (some 2, some 0) := by decide +kernel
  obtain ⟨space, hspace, hobs⟩ := Option.map_eq_some_iff.1 hobs
  rw [Prod.mk.injEq] at hobs
  obtain ⟨t, ht, hlen⟩ := Option.map_eq_some_iff.1 hobs.1
  obtain ⟨u, hu, hzero⟩ := Option.map_eq_some_iff.1 hobs.2
  refine ⟨space, hspace, ⟨t, ht, hlen, (handlers_nested rfl ht).1⟩, u, hu, ?_⟩
  exact (handlers_nested rfl hu).2.2.2.2 (List.length_eq_zero_iff.1 hzero) (by decide)

end SignalOS
