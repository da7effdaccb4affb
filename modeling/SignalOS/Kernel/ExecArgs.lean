import SignalOS.Kernel.Step
import SignalOS.Proc.ArgArray
import SignalOS.Proc.Static

/-!
# The arguments of `exec`

`sys_exec` with its array `char *arg[MAXARG]` and its locks.

* `sysExecChecked` — `sys_exec`, which may leave the array.
* `Collected`, `collectArgs_run` — what the loop over `argv` leaves in the array.
* `ArgsFit` — a `NULL` gets into the array.
* `sysExecChecked_agrees` — **then it is `sysExec`**, and it gives back its locks.
* `sysExec_handles` — **the call handles an `argv` exactly if a `NULL` gets into the array**.
-/

namespace SignalOS

open Fault LittleEndian Partial Spin

variable {vm vm' : Vm} {mm : Mm} {k k' : Kernel} {curr : Slot} {path argv : Uint64}
  {held : List SpinLock} {n : Nat}

/-! ## The call -/

/-- The loop of `sys_exec` over `argv`, of which `entries` entries of `arg` are left: the result
and these entries. -/
def collectArgs (mm : Mm) (argv : Uint64) : Nat → VmM (Int × List (Option Arg))
  | 0 => return (0, [])
  | entries + 1 => do
    let r := copyFromUser (← get) mm argv 8
    if r.1 < 0 then
      return (r.1, List.replicate (entries + 1) none)
    else if wordAt r.2 0 = 0 then
      return (r.1, List.replicate (entries + 1) none)
    else
      let obj ← kallocStr
      kassert (obj != 0)
      let s := copystrFromUser (← get) mm (wordAt r.2 0) KSTRING_MAX
      if s.1 < 0 then
        return (s.1, some ⟨obj, s.2⟩ :: List.replicate entries none)
      else
        let (ret, args) ← collectArgs mm (argv + 8) entries
        return (ret, some ⟨obj, s.2.dropLast⟩ :: args)

/-- A computation on memory and locks, as one of the kernel. -/
def onVm {α : Type} (y : FaultM (Vm × List SpinLock) α) : FaultM (Kernel × List SpinLock) α :=
  fun s =>
    (y (s.1.vm, s.2)).map fun r => (r.1, { s.1 with vm := r.2.1 }, r.2.2)

/-- `exec(name, args)` on the array, with the lock of the process. -/
def execChecked (curr : Slot) (name : List Byte) (args : List (Option Arg)) :
    FaultM (Kernel × List SpinLock) Int := do
  match getElf (← get).1.userApps name with
  | none => return -ENOENT
  | some app =>
    locked (acquire .proc)
    let p ← lift (getProc curr)
    let (ret, p) ← onVm (loadElfChecked app p args)
    if ret < 0 then
      locked (release .proc)
      return ret
    else
      lift (modifyProc curr fun _ => { p with signal := siginitExec p.signal })
      locked (release .proc)
      return toInt p.trapframe.a0

/-- The loops of `sys_exec` that free the strings, from an entry of the array on. -/
def freeArgs : List (Option Arg) → FaultM (Kernel × List SpinLock) Unit
  | [] => outside
  | none :: _ => return ()
  | some arg :: rest => do
    lift (liftVm (kfreeStr arg.obj))
    freeArgs rest

/-- `sys_exec(path, argv)` with its array and its locks. -/
def sysExecChecked (curr : Slot) (path argv : Uint64) : FaultM (Kernel × List SpinLock) Int := do
  let kpath ← lift (liftVm kallocStr)
  -- the first `memset`
  lift (liftVm (kassert (kpath != 0)))
  let mm ← lift (getMm curr)
  locked (acquire .proc)
  locked (acquire (.mm mm.addr))
  locked (release .proc)
  let name := copystrFromUser (← get).1.vm mm path KSTRING_MAX
  if name.1 < 0 then
    free mm kpath (List.replicate MAXARG none) name.1
  else
    let (ret, args) ← lift (liftVm (collectArgs mm argv MAXARG))
    if ret < 0 then
      free mm kpath args ret
    else
      locked (release (.mm mm.addr))
      let ret ← execChecked curr name.2.dropLast args
      lift (liftVm (kfreeStr kpath))
      freeArgs args
      return ret
where
  /-- The label `free`. -/
  free (mm : Mm) (kpath : Uint64) (args : List (Option Arg)) (ret : Int) :
      FaultM (Kernel × List SpinLock) Int := do
    locked (release (.mm mm.addr))
    lift (liftVm (kfreeStr kpath))
    freeArgs args
    return ret

/-! ## What user memory holds -/

/-- What reading the entry `i` of `argv` comes to. -/
def argvEntry (vm : Vm) (mm : Mm) (argv : Uint64) (i : Nat) : Int × List Byte :=
  copyFromUser vm mm (argv + BitVec.ofNat 64 (8 * i)) 8

/-- The entry can be read, and it is not `NULL`. -/
def HasEntry (vm : Vm) (mm : Mm) (argv : Uint64) (i : Nat) : Prop :=
  0 ≤ (argvEntry vm mm argv i).1 ∧ wordAt (argvEntry vm mm argv i).2 0 ≠ 0

/-- The string it points to can be read. -/
def HasString (vm : Vm) (mm : Mm) (argv : Uint64) (i : Nat) : Prop :=
  0 ≤ (copystrFromUser vm mm (wordAt (argvEntry vm mm argv i).2 0) KSTRING_MAX).1

/-- All `n` entries of an array are set: the first `n` entries of `argv` are there, and all of
their strings but perhaps the last. -/
def Fills (vm : Vm) (mm : Mm) (argv : Uint64) (n : Nat) : Prop :=
  (∀ i < n, HasEntry vm mm argv i) ∧ ∀ i, i + 1 < n → HasString vm mm argv i

/-- A `NULL` gets into the array: the path cannot be read, or the array is not filled. -/
def ArgsFit (vm : Vm) (mm : Mm) (path argv : Uint64) : Prop :=
  (copystrFromUser vm mm path KSTRING_MAX).1 < 0 ∨ ¬ Fills vm mm argv MAXARG

theorem copyFromUser_congr (hpte : vm'.pte = vm.pte) (hbyte : vm'.byte = vm.byte) (mm : Mm)
    (va : Uint64) (len : Nat) :
    copyFromUser vm' mm va len = copyFromUser vm mm va len := by
  suffices h : ∀ fuel va len, copyFromUserLoop vm' mm fuel va len = copyFromUserLoop vm mm fuel va
    len from h len va len
  intro fuel
  induction fuel with
  | zero => exact fun _ _ => rfl
  | succ fuel ih =>
    intro va len
    simp only [copyFromUserLoop, walkaddr_congr hpte, hbyte, ih]

theorem copystrFromUser_congr (hpte : vm'.pte = vm.pte) (hbyte : vm'.byte = vm.byte) (mm : Mm)
    (va : Uint64) (max : Nat) :
    copystrFromUser vm' mm va max = copystrFromUser vm mm va max := by
  suffices h : ∀ fuel va max, copystrFromUserLoop vm' mm fuel va max = copystrFromUserLoop vm mm
    fuel va max from
    h max va max
  intro fuel
  induction fuel with
  | zero => exact fun _ _ => rfl
  | succ fuel ih =>
    intro va max
    simp only [copystrFromUserLoop, walkaddr_congr hpte, hbyte, ih]

/-- A string that was copied, with its NUL, is not longer than its buffer. -/
theorem copystrFromUser_length {va : Uint64} {max : Nat}
    (h : 0 ≤ (copystrFromUser vm mm va max).1) :
    (copystrFromUser vm mm va max).2.length ≤ max := by
  suffices hloop : ∀ fuel va max, 0 ≤ (copystrFromUserLoop vm mm fuel va max).1 →
      (copystrFromUserLoop vm mm fuel va max).2.length ≤ max from hloop max va max h
  intro fuel
  induction fuel with
  | zero => exact fun _ _ hneg => absurd hneg (show ¬ (0 : Int) ≤ -1 by decide)
  | succ fuel ih =>
    intro va max
    rw [copystrFromUserLoop]
    split
    · exact fun hneg => absurd hneg (show ¬ (0 : Int) ≤ -1 by decide)
    · dsimp only
      split
      · exact fun hneg => absurd hneg (show ¬ (0 : Int) ≤ -EINVAL by decide)
      · split
        · rename_i hshort
          intro _
          rw [List.length_append, List.length_singleton]
          omega
        · intro hrest
          have hle := ih (PGROUNDDOWN va + PGSIZE) (max - min (pageRest va) max) hrest
          simp only [List.length_append, length_readBytes]
          omega

theorem argvEntry_succ (vm : Vm) (mm : Mm) (argv : Uint64) (i : Nat) :
    argvEntry vm mm (argv + 8) i = argvEntry vm mm argv (i + 1) := by
  have haddr : argv + 8 + BitVec.ofNat 64 (8 * i) = argv + BitVec.ofNat 64 (8 * (i + 1)) := by
    rw [Nat.mul_add, BitVec.ofNat_add, BitVec.add_assoc, BitVec.add_comm 8]
    rfl
  rw [argvEntry, argvEntry, haddr]

theorem argvEntry_zero (vm : Vm) (mm : Mm) (argv : Uint64) :
    argvEntry vm mm argv 0 = copyFromUser vm mm argv 8 := by
  rw [argvEntry, Nat.mul_zero, BitVec.add_zero]

theorem fills_congr (hpte : vm'.pte = vm.pte) (hbyte : vm'.byte = vm.byte) (mm : Mm)
    (argv : Uint64) (n : Nat) :
    Fills vm' mm argv n ↔ Fills vm mm argv n := by
  simp only [Fills, HasEntry, HasString, argvEntry, copyFromUser_congr hpte hbyte,
    copystrFromUser_congr hpte hbyte]

/-- The first entry, then the others. -/
theorem fills_succ (hentry : HasEntry vm mm argv 0) (hstring : HasString vm mm argv 0) :
    Fills vm mm argv (n + 1) ↔ Fills vm mm (argv + 8) n := by
  simp only [Fills, HasEntry, HasString, argvEntry_succ]
  constructor
  · intro ⟨hentries, hstrings⟩
    exact ⟨fun i hi => hentries (i + 1) (by omega), fun i hi => hstrings (i + 1) (by omega)⟩
  · intro ⟨hentries, hstrings⟩
    refine ⟨fun i hi => ?_, fun i hi => ?_⟩
    · cases i with
      | zero => exact hentry
      | succ i => exact hentries i (by omega)
    · cases i with
      | zero => exact hstring
      | succ i => exact hstrings i (by omega)

/-! ## The loop over `argv` -/

/-- The loop took these buffers, and left the rest of `n` entries `NULL`. -/
structure Collected (vm : Vm) (mm : Mm) (argv : Uint64) (n : Nat) (ret : Int) (l : List Arg)
    (vm' : Vm) : Prop where
  le : l.length ≤ n
  fills : l.length = n ↔ Fills vm mm argv n
  pool : vm.kstrbuf = l.map Arg.obj ++ vm'.kstrbuf
  same : vm' = { vm with kstrbuf := vm'.kstrbuf }
  short : 0 ≤ ret → ∀ arg ∈ l, arg.str.length < KSTRING_MAX
  /-- It is the loop of `sysExec`, which has no result when all entries are set. -/
  reads : ∃ args, (0 ≤ ret → args = l.map Arg.str) ∧
    readArgs mm argv n vm = if l.length = n then none else some ((ret, l.map Arg.obj, args), vm')

/-- The entries of the array. -/
def entries (l : List Arg) (n : Nat) : List (Option Arg) :=
  l.map some ++ List.replicate (n - l.length) none

theorem collected_nil {ret : Int} (hno : ¬ HasEntry vm mm argv 0)
    (hrun : readArgs mm argv (n + 1) vm = some ((ret, [], []), vm)) :
    Collected vm mm argv (n + 1) ret [] vm := by
  refine ⟨Nat.zero_le _, ?_, rfl, rfl, fun _ _ hin => absurd hin (by simp), [], fun _ => rfl, ?_⟩
  · exact iff_of_false (by simp) fun hfills => hno (hfills.1 0 (by omega))
  · rw [hrun, if_neg (by simp)]
    rfl

theorem readArgs_succ (mm : Mm) (argv : Uint64) (n : Nat) (vm : Vm) : readArgs mm argv (n + 1) vm =
    (if (argvEntry vm mm argv 0).1 < 0 then return ((argvEntry vm mm argv 0).1, [], [])
    else if wordAt (argvEntry vm mm argv 0).2 0 = 0 then return ((argvEntry vm mm argv 0).1, [],
      [])
    else do
      let obj ← kallocStr
      let s := copystrFromUser (← get) mm (wordAt (argvEntry vm mm argv 0).2 0) KSTRING_MAX
      if s.1 < 0 then
        if n = 0 then kpanic else return (s.1, [obj], [])
      else
        let (ret, objs, args) ← readArgs mm (argv + 8) n
        return (ret, obj :: objs, s.2.dropLast :: args) :
          VmM (Int × List Uint64 × List (List Byte))) vm := by
  rw [argvEntry_zero]
  rfl

theorem collectArgs_succ (mm : Mm) (argv : Uint64) (n : Nat) (vm : Vm) :
    collectArgs mm argv (n + 1) vm =
    (if (argvEntry vm mm argv 0).1 < 0 then return ((argvEntry vm mm argv 0).1,
      List.replicate (n + 1) none)
    else if wordAt (argvEntry vm mm argv 0).2 0 = 0 then
      return ((argvEntry vm mm argv 0).1, List.replicate (n + 1) none)
    else do
      let obj ← kallocStr
      kassert (obj != 0)
      let s := copystrFromUser (← get) mm (wordAt (argvEntry vm mm argv 0).2 0) KSTRING_MAX
      if s.1 < 0 then
        return (s.1, some ⟨obj, s.2⟩ :: List.replicate n none)
      else
        let (ret, args) ← collectArgs mm (argv + 8) n
        return (ret, some ⟨obj, s.2.dropLast⟩ :: args) : VmM (Int × List (Option Arg))) vm := by
  rw [argvEntry_zero]
  rfl

/-- The string of the entry cannot be read. -/
theorem collected_fail {ret : Int} {obj : Uint64} {rest : List Uint64} {str : List Byte}
    (hentry : HasEntry vm mm argv 0)
    (hno : ¬ HasString vm mm argv 0) (hneg : ret < 0) (hpool : vm.kstrbuf = obj :: rest)
    (hrun : readArgs mm argv (n + 1) vm =
      if n = 0 then none else some ((ret, [obj], []), { vm with kstrbuf := rest })) :
    Collected vm mm argv (n + 1) ret [⟨obj, str⟩] { vm with kstrbuf := rest } := by
  refine ⟨by simp, ?_, hpool, rfl, fun hle => absurd hle (not_le.2 hneg), [],
    fun hle => absurd hle (not_le.2 hneg), ?_⟩
  · rw [List.length_singleton]
    by_cases hlast : n = 0
    · refine iff_of_true (by omega) ⟨fun i hi => ?_, fun i hi => absurd hi (by omega)⟩
      obtain rfl : i = 0 := by omega
      exact hentry
    · exact iff_of_false (by omega) fun hfills => hno (hfills.2 0 (by omega))
  · rw [hrun, List.length_singleton]
    by_cases hlast : n = 0
    · rw [if_pos hlast, if_pos (by omega)]
    · rw [if_neg hlast, if_neg (by omega)]
      rfl

/-- An entry with its string, then the others. -/
theorem Collected.cons {ret : Int} {obj : Uint64} {rest : List Uint64} {str : List Byte}
    {l : List Arg}
    (h : Collected { vm with kstrbuf := rest } mm (argv + 8) n ret l vm')
    (hentry : HasEntry vm mm argv 0)
    (hstring : HasString vm mm argv 0) (hstr : str.length < KSTRING_MAX)
    (hpool : vm.kstrbuf = obj :: rest)
    (hrun : readArgs mm argv (n + 1) vm = (do
      let (ret, objs, args) ← readArgs mm (argv + 8) n
      return (ret, obj :: objs, str :: args) : VmM (Int × List Uint64 × List (List Byte)))
        { vm with kstrbuf := rest }) :
    Collected vm mm argv (n + 1) ret (⟨obj, str⟩ :: l) vm' := by
  obtain ⟨args, hargs, hread⟩ := h.reads
  refine ⟨Nat.succ_le_succ h.le, ?_, ?_, h.same, fun hle arg harg => ?_, str :: args,
    fun hle => ?_, hrun.trans ?_⟩
  · rw [List.length_cons, Nat.succ_inj]
    rw [fills_succ hentry hstring]
    exact h.fills.trans (@fills_congr vm { vm with kstrbuf := rest } rfl rfl mm _ n)
  · rw [hpool, List.map_cons, List.cons_append, ← h.pool]
  · rcases List.mem_cons.1 harg with rfl | harg
    · exact hstr
    · exact h.short hle arg harg
  · rw [hargs hle]
    rfl
  · rw [List.length_cons]
    by_cases hall : l.length = n
    · rw [if_pos hall] at hread
      rw [if_pos (congrArg (· + 1) hall)]
      show (readArgs mm (argv + 8) n _).bind _ = none
      rw [hread]
      rfl
    · rw [if_neg hall] at hread
      rw [if_neg (by omega), bind_apply hread]
      rfl

theorem kallocStr_nil (h : vm.kstrbuf = []) : kallocStr vm = none := by
  unfold kallocStr kalloc
  rw [h]

theorem kallocStr_cons {obj : Uint64} {rest : List Uint64} (h : vm.kstrbuf = obj :: rest) :
    kallocStr vm = some (obj, { vm with kstrbuf := rest }) := by
  unfold kallocStr kalloc
  rw [h]

/-- **What the loop leaves in the array**; it panics if there are too few buffers. -/
theorem collectArgs_run (hnull : 0 ∉ vm.kstrbuf) :
    (collectArgs mm argv n vm = none ∧ readArgs mm argv n vm = none ∧ vm.kstrbuf.length < n) ∨
      ∃ ret l vm', collectArgs mm argv n vm = some ((ret, entries l n), vm') ∧
        Collected vm mm argv n ret l vm' := by
  induction n generalizing vm argv with
  | zero =>
    refine .inr ⟨0, [], vm, rfl, le_rfl, ?_, rfl, rfl, fun _ _ hin => absurd hin (by simp), [],
      fun _ => rfl, rfl⟩
    exact iff_of_true rfl ⟨fun _ hi => absurd hi (Nat.not_lt_zero _),
      fun _ hi => absurd hi (Nat.not_lt_zero _)⟩
  | succ n ih =>
    have hreads := readArgs_succ mm argv n vm
    have hcollects := collectArgs_succ mm argv n vm
    by_cases hneg : (argvEntry vm mm argv 0).1 < 0
    · rw [if_pos hneg] at hreads hcollects
      exact .inr ⟨_, [], vm, hcollects,
        collected_nil (fun hentry => absurd hentry.1 (not_le.2 hneg)) hreads⟩
    rw [if_neg hneg] at hreads hcollects
    by_cases hzero : wordAt (argvEntry vm mm argv 0).2 0 = 0
    · rw [if_pos hzero] at hreads hcollects
      exact .inr ⟨_, [], vm, hcollects, collected_nil (fun hentry => hentry.2 hzero) hreads⟩
    rw [if_neg hzero] at hreads hcollects
    have hentry : HasEntry vm mm argv 0 := ⟨not_lt.1 hneg, hzero⟩
    cases hpool : vm.kstrbuf with
    | nil =>
      have hnone := kallocStr_nil hpool
      refine .inl ⟨hcollects.trans ?_, hreads.trans ?_, Nat.zero_lt_succ _⟩
      · show (kallocStr vm).bind _ = none
        rw [hnone]
        rfl
      · show (kallocStr vm).bind _ = none
        rw [hnone]
        rfl
    | cons obj rest =>
      rw [hpool, List.mem_cons, not_or] at hnull
      have halloc := kallocStr_cons hpool
      have hassert : (obj != 0) = true := bne_iff_ne.2 (Ne.symm hnull.1)
      have hsame := @copystrFromUser_congr vm { vm with kstrbuf := rest } rfl rfl mm
        (wordAt (argvEntry vm mm argv 0).2 0) KSTRING_MAX
      rw [bind_apply halloc, get_bind, hsame] at hreads
      rw [bind_apply halloc, bind_apply (kassert_true hassert), get_bind, hsame] at hcollects
      dsimp only at hreads hcollects
      by_cases hfail : (copystrFromUser vm mm (wordAt (argvEntry vm mm argv 0).2 0)
        KSTRING_MAX).1 < 0
      · rw [if_pos hfail] at hreads hcollects
        refine .inr ⟨_, [⟨obj, _⟩], _, hcollects,
          collected_fail hentry (not_le.2 hfail) hfail hpool (hreads.trans ?_)⟩
        split <;> rfl
      rw [if_neg hfail] at hreads hcollects
      have hstring : HasString vm mm argv 0 := not_lt.1 hfail
      rcases @ih { vm with kstrbuf := rest } (argv + 8) hnull.2 with
        ⟨hnone, hnone', hlen⟩ | ⟨ret, l, vm', hcollect, hcollected⟩
      · refine .inl ⟨hcollects.trans ?_, hreads.trans ?_, ?_⟩
        · show (collectArgs mm (argv + 8) n _).bind _ = none
          rw [hnone]
          rfl
        · show (readArgs mm (argv + 8) n _).bind _ = none
          rw [hnone']
          rfl
        · rw [List.length_cons]
          exact Nat.succ_lt_succ hlen
      · rw [bind_apply hcollect] at hcollects
        have hshort : (copystrFromUser vm mm (wordAt (argvEntry vm mm argv 0).2 0)
          KSTRING_MAX).2.dropLast.length <
            KSTRING_MAX := by
          have hlen := copystrFromUser_length hstring
          have hmax : KSTRING_MAX = 256 := rfl
          rw [List.length_dropLast]
          omega
        refine .inr ⟨ret, _, vm', hcollects.trans ?_,
          hcollected.cons hentry hstring hshort hpool hreads⟩
        rw [entries, entries, List.length_cons, Nat.succ_sub_succ]
        rfl

theorem entries_of_lt {l : List Arg} (h : l.length < n) :
    ∃ m, entries l n = l.map some ++ none :: List.replicate m none := by
  obtain ⟨m, rfl⟩ := Nat.exists_eq_add_of_lt h
  refine ⟨m, ?_⟩
  rw [entries, Nat.add_assoc, Nat.add_sub_cancel_left]
  rfl

theorem entries_full {l : List Arg} (h : l.length = n) : entries l n = l.map some := by
  rw [entries, h, Nat.sub_self]
  exact List.append_nil _

/-! ## With a `NULL` in the array -/

theorem onVm_agrees {α : Type} {out : α → List SpinLock} {y : FaultM (Vm × List SpinLock) α}
    {x : VmM α}
    (h : Agrees held out y x) : Agrees held out (onVm y) (liftVm x) := by
  intro k
  show (y (k.vm, held)).map _ = orPanic (((x k.vm).map _).map _)
  rw [h k.vm]
  cases x k.vm <;> rfl

theorem liftVm_bind {α β : Type} (x : VmM α) (f : α → VmM β) :
    liftVm (x >>= f) = liftVm x >>= fun a => liftVm (f a) := by
  funext k
  show ((x k.vm).bind _).map _ = ((x k.vm).map _).bind _
  cases x k.vm <;> rfl

theorem freeArgs_agrees (l : List Arg) (rest : List (Option Arg)) :
    Agrees held (fun _ => held) (freeArgs (l.map some ++ none :: rest))
      (liftVm ((l.map Arg.obj).forM kfreeStr)) := by
  induction l with
  | nil => exact .pure rfl
  | cons arg l ih =>
    show Agrees held _ _ (liftVm (kfreeStr arg.obj >>= fun _ => (l.map Arg.obj).forM kfreeStr))
    rw [liftVm_bind]
    exact (Agrees.lift _ _).bind fun _ => ih

theorem execChecked_agrees {name : List Byte} {l : List Arg} {rest : List (Option Arg)}
    (h : l.length ≤ MAXARG) :
    Agrees [] (fun _ => []) (execChecked curr name (l.map some ++ none :: rest))
      (exec curr name (l.map Arg.str)) := by
  refine .get_bind fun k => ?_
  cases getElf k.userApps name with
  | none => exact .pure rfl
  | some app =>
    refine .lock_bind (.acquire (by simp)) ((Agrees.lift _ _).bind fun p => ?_)
    refine (onVm_agrees (loadElfChecked_agrees h)).bind fun r => .ite (fun _ => ?_) fun _ => ?_
    · exact .lock_bind (.release List.mem_cons_self) (.pure rfl)
    · exact (Agrees.lift _ _).bind fun _ => .lock_bind (.release List.mem_cons_self) (.pure rfl)

/-- **With a `NULL` in the array it is `sysExec`**, and it gives back its locks. -/
theorem sysExecChecked_agrees (hmm : (k.pool curr).mm = some mm) (hnull : 0 ∉ k.vm.kstrbuf)
    (hfit : ArgsFit k.vm mm path argv) :
    AgreesAt k [] (fun _ => []) (sysExecChecked curr path argv) (sysExec curr path argv) := by
  cases hpool : k.vm.kstrbuf with
  | nil =>
    have hnone : liftVm kallocStr k = none := by
      show (kallocStr k.vm).map _ = none
      rw [kallocStr_nil hpool]
      rfl
    exact .panic hnone hnone
  | cons kpath rest =>
    rw [hpool, List.mem_cons, not_or] at hnull
    have halloc : liftVm kallocStr k = some (kpath,
        { k with vm := { k.vm with kstrbuf := rest } }) := by
      show (kallocStr k.vm).map _ = _
      rw [kallocStr_cons hpool]
      rfl
    refine .step halloc halloc ?_
    have hassert : (kpath != 0) = true := bne_iff_ne.2 (Ne.symm hnull.1)
    set k₁ : Kernel := { k with vm := { k.vm with kstrbuf := rest } } with hk₁
    refine .skip (b := ()) (liftVm_eq_some.2 ⟨k₁.vm, kassert_true hassert, rfl⟩) ?_
    refine .step (getMm_eq_some.2 ⟨hmm, rfl⟩) (getMm_eq_some.2 ⟨hmm, rfl⟩) ?_
    refine .lock_bind (.acquire (by simp)) (.lock_bind (.acquire (by simp))
      (.lock_bind (.release (by simp)) ?_))
    have hlocks : [SpinLock.mm mm.addr, .proc].erase .proc = [.mm mm.addr] := by simp
    rw [hlocks]
    refine .get_bind ?_
    have hname : copystrFromUser k₁.vm mm path KSTRING_MAX = copystrFromUser k.vm mm path
        KSTRING_MAX :=
      @copystrFromUser_congr k.vm k₁.vm rfl rfl _ _ _
    rw [hname]
    -- the label `free`
    have hfree (l : List Arg) (m : Nat) (ret : Int) : Agrees [SpinLock.mm mm.addr] (fun _ => [])
        (sysExecChecked.free mm kpath (l.map some ++ none :: List.replicate m none) ret) (do
          liftVm (kfreeStr kpath)
          liftVm ((l.map Arg.obj).forM kfreeStr)
          return ret) := by
      refine .lock_bind (.release List.mem_cons_self) ?_
      rw [List.erase_cons_head]
      exact (Agrees.lift _ _).bind fun _ => (freeArgs_agrees l _).bind fun _ => .pure rfl
    refine .ite (fun _ => hfree [] 31 _ _) fun hpath => ?_
    have hnot : ¬ Fills k₁.vm mm argv MAXARG := by
      rw [@fills_congr k.vm k₁.vm rfl rfl]
      exact hfit.resolve_left hpath
    rcases @collectArgs_run k₁.vm mm argv MAXARG hnull.2 with
      ⟨hnone, hnone', -⟩ | ⟨ret, l, vm', hcollect, hcollected⟩
    · refine .panic ?_ ?_
      · show (collectArgs mm argv MAXARG k₁.vm).map _ = none
        rw [hnone]
        rfl
      · show (readArgs mm argv MAXARG k₁.vm).map _ = none
        rw [hnone']
        rfl
    · have hlt : l.length < MAXARG :=
        lt_of_le_of_ne hcollected.le fun hall => hnot (hcollected.fills.1 hall)
      obtain ⟨args, hargs, hread⟩ := hcollected.reads
      rw [if_neg hlt.ne] at hread
      obtain ⟨m, hentries⟩ := entries_of_lt hlt
      rw [hentries] at hcollect
      refine .step (liftVm_eq_some.2 ⟨vm', hcollect, rfl⟩) (liftVm_eq_some.2 ⟨vm', hread, rfl⟩) ?_
      dsimp only
      by_cases hneg : ret < 0
      · rw [if_pos hneg, if_pos hneg, pure_bind]
        exact hfree l m ret _
      · rw [if_neg hneg, if_neg hneg, hargs (not_lt.1 hneg)]
        refine .lock_bind (.release List.mem_cons_self) ?_
        rw [List.erase_cons_head]
        refine (execChecked_agrees hlt.le).bind (fun ret => ?_) _
        exact (Agrees.lift _ _).bind fun _ => (freeArgs_agrees l _).bind fun _ => .pure rfl

/-! ## The buffers -/

theorem kfreeStr_eq {obj : Uint64} (h : obj ≠ 0) (vm : Vm) :
    kfreeStr obj vm = some ((), { vm with kstrbuf := obj :: vm.kstrbuf }) := by
  rw [kfreeStr, kfree, if_neg h]

theorem kfreeStrs_run {objs : List Uint64} (h : 0 ∉ objs) (vm : Vm) :
    ∃ vm', objs.forM kfreeStr vm = some ((), vm') ∧
    vm'.kstrbuf.length = objs.length + vm.kstrbuf.length := by
  induction objs generalizing vm with
  | nil => exact ⟨vm, rfl, (Nat.zero_add _).symm⟩
  | cons obj objs ih =>
    rw [List.mem_cons, not_or] at h
    obtain ⟨vm', hrun, hlen⟩ := ih h.2 { vm with kstrbuf := obj :: vm.kstrbuf }
    refine ⟨vm', bind_eq_some.2 ⟨(), _, kfreeStr_eq (Ne.symm h.1) vm, hrun⟩, ?_⟩
    rw [hlen, List.length_cons, List.length_cons]
    omega

/-- `exec` leaves the buffers alone. -/
theorem exec_static (curr : Slot) (name : List Byte) (args : List (List Byte)) :
    Keeps (fun k k' : Kernel => Static k.vm k'.vm) (exec curr name args) := by
  intro k r k' h
  rw [exec] at h
  rw [get_bind] at h
  cases happ : getElf k.userApps name with
  | none =>
    rw [happ] at h
    obtain ⟨-, rfl⟩ := pure_eq_some.1 h
    exact .refl _
  | some app =>
    rw [happ] at h
    dsimp only at h
    rw [getProc_bind] at h
    obtain ⟨⟨ret, p⟩, k₁, hload, h⟩ := bind_eq_some.1 h
    obtain ⟨vm₁, hvm, rfl⟩ := liftVm_eq_some.1 hload
    have hstatic := loadUserElf_static app _ args _ _ _ hvm
    dsimp only at h
    split at h
    · obtain ⟨-, rfl⟩ := pure_eq_some.1 h
      exact hstatic
    · rw [modifyProc_bind] at h
      obtain ⟨-, rfl⟩ := pure_eq_some.1 h
      exact hstatic

/-- **Every buffer that was taken is given back.** -/
theorem sysExec_kstrbuf {r : Int} (hmm : (k.pool curr).mm = some mm) (hnull : 0 ∉ k.vm.kstrbuf)
    (hrun : sysExec curr path argv k = some (r, k')) :
    k'.vm.kstrbuf.length = k.vm.kstrbuf.length := by
  rw [sysExec] at hrun
  obtain ⟨kpath, k₁, hstart, hrun⟩ := bind_eq_some.1 hrun
  obtain ⟨vm₁, halloc, rfl⟩ := liftVm_eq_some.1 hstart
  cases hpool : k.vm.kstrbuf with
  | nil =>
    rw [kallocStr_nil hpool] at halloc
    exact nomatch halloc
  | cons obj rest =>
    rw [kallocStr_cons hpool] at halloc
    obtain ⟨rfl, rfl⟩ := Prod.mk.inj (Option.some.inj halloc)
    rw [hpool, List.mem_cons, not_or] at hnull
    have hkpath (vm : Vm) : kfreeStr obj vm = some ((),
        { vm with kstrbuf := obj :: vm.kstrbuf }) :=
      kfreeStr_eq (Ne.symm hnull.1) vm
    obtain ⟨mm', k₁, hget, hrun⟩ := bind_eq_some.1 hrun
    obtain ⟨hmm', rfl⟩ := getMm_eq_some.1 hget
    obtain rfl := Option.some.inj (hmm.symm.trans hmm')
    rw [get_bind] at hrun
    dsimp only at hrun
    split at hrun
    · rw [bind_apply (liftVm_eq_some.2 ⟨_, hkpath _, rfl⟩)] at hrun
      obtain ⟨-, rfl⟩ := pure_eq_some.1 hrun
      rfl
    obtain ⟨⟨ret, objs, args⟩, k₂, hlift, hrun⟩ := bind_eq_some.1 hrun
    obtain ⟨vm₂, hread, rfl⟩ := liftVm_eq_some.1 hlift
    rcases @collectArgs_run { k.vm with kstrbuf := rest } mm argv MAXARG hnull.2 with
      ⟨-, hnone, -⟩ | ⟨ret', l, vm', -, hcollected⟩
    · exact nomatch hread.symm.trans hnone
    obtain ⟨args', -, hread'⟩ := hcollected.reads
    rw [hread] at hread'
    split at hread'
    · exact nomatch hread'
    obtain ⟨hret, rfl⟩ := Prod.mk.inj (Option.some.inj hread')
    obtain ⟨-, hobjs, -⟩ := Prod.mk.inj hret |>.imp_right Prod.mk.inj
    have hpool₂ : rest = objs ++ vm₂.kstrbuf := by
      rw [hobjs]
      exact hcollected.pool
    have hobjs0 : 0 ∉ objs := fun hin => hnull.2 (hpool₂ ▸ List.mem_append_left _ hin)
    -- what follows when the pool is as it was after the loop
    have hdone {k₃ : Kernel} (hsame : k₃.vm.kstrbuf = vm₂.kstrbuf) {ret : Int} (h : (do
        liftVm (kfreeStr obj)
        liftVm (objs.forM kfreeStr)
        return ret : KM Int) k₃ = some (r, k')) : k'.vm.kstrbuf.length = (obj :: rest).length := by
      rw [bind_apply (liftVm_eq_some.2 ⟨_, hkpath _, rfl⟩)] at h
      obtain ⟨vm₄, hfrees, hlen⟩ :=
        kfreeStrs_run hobjs0 { k₃.vm with kstrbuf := obj :: k₃.vm.kstrbuf }
      rw [bind_apply (liftVm_eq_some.2 ⟨vm₄, hfrees, rfl⟩)] at h
      obtain ⟨-, rfl⟩ := pure_eq_some.1 h
      show vm₄.kstrbuf.length = _
      rw [hlen, hpool₂, List.length_cons, List.length_cons, List.length_append]
      show objs.length + (k₃.vm.kstrbuf.length + 1) = _
      rw [hsame]
      omega
    dsimp only at hrun
    split at hrun
    · rw [pure_bind] at hrun
      exact hdone rfl hrun
    · obtain ⟨ret, k₃, hexec, hrun⟩ := bind_eq_some.1 hrun
      exact hdone (exec_static _ _ _ _ _ _ hexec).kstrbuf hrun

/-! ## Without a `NULL` in the array -/

/-- **The loop over the array leaves it.** -/
theorem freeArgs_full {α : Type} (l : List Arg) (k : Kernel)
    (f : Unit → FaultM (Kernel × List SpinLock) α)
    (Q : α → Kernel × List SpinLock → Prop) :
    NoPanic (freeArgs (l.map some) >>= f) (k, held) Q := by
  induction l generalizing k with
  | nil => exact .bind (Q := fun _ _ => False) .leaves fun _ _ hno => hno.elim
  | cons arg l ih =>
    rw [List.map_cons, freeArgs, bind_assoc]
    have hfree : kfreeStr arg.obj k.vm = some ((), _) := rfl
    refine .bind (.of_run (.lift _ _) (liftVm_eq_some.2 ⟨_, hfree, rfl⟩)) ?_
    rintro _ _ ⟨-, rfl⟩
    exact ih _

/-- What the kernel needs so that it does not panic before it comes to the end of the array. -/
structure Ready (k : Kernel) (curr : Slot) : Prop where
  free : FreeOk k.vm
  state : (k.pool curr).state ≠ .unused
  apps : ∀ app ∈ k.userApps, (∀ phdr ∈ loads app.phdrs, phdr.Loadable) ∧
    (loads app.phdrs).length + 2 ≤ k.vm.vmaAllocator.length
  mms : k.vm.mmAllocator ≠ []
  pages : k.vm.freelist ≠ []
  strings : MAXARG < k.vm.kstrbuf.length

theorem getElf_mem {apps : List UserApp} {name : List Byte} {app : UserApp}
    (h : getElf apps name = some app) :
    app ∈ apps := by
  rw [getElf] at h
  split at h
  · cases h
  · exact List.mem_of_find?_eq_some h

/-- The string buffers do not matter to it. -/
theorem FreeOk.of_strings (h : FreeOk vm) (l : List Uint64) : FreeOk { vm with kstrbuf := l } :=
  ⟨h.nodup, fun p hp => ⟨(h.managed p hp).start, (h.managed p hp).ne_zero, (h.managed p hp).lower,
    (h.managed p hp).upper⟩⟩

theorem onVm_noPanic {α : Type} {y : FaultM (Vm × List SpinLock) α}
    {Q : α → Vm × List SpinLock → Prop}
    (h : NoPanic y (k.vm, held) Q) : NoPanic (onVm y) (k, held) fun a t => Q a (t.1.vm, t.2) := by
  rcases h with h | ⟨a, t, hy, hQ⟩
  · refine .inl ?_
    show (y (k.vm, held)).map _ = _
    rw [h]
    rfl
  · refine .inr ⟨a, ({ k with vm := t.1 }, t.2), ?_, hQ⟩
    show (y (k.vm, held)).map _ = _
    rw [hy]
    rfl

theorem execChecked_full {name : List Byte} {l : List Arg} (hfree : FreeOk k.vm)
    (hstate : (k.pool curr).state ≠ .unused)
    (happs : ∀ app ∈ k.userApps, (∀ phdr ∈ loads app.phdrs, phdr.Loadable) ∧
      (loads app.phdrs).length + 2 ≤ k.vm.vmaAllocator.length) (hmms :
        k.vm.mmAllocator ≠ []) (hpages : k.vm.freelist ≠ [])
    (hlen : l.length ≤ MAXARG) (hstr : ∀ arg ∈ l, arg.str.length < KSTRING_MAX) :
    NoPanic (execChecked curr name (l.map some)) (k, []) fun _ t => t.2 = [] := by
  have hrelease {k' : Kernel} {f : Unit → FaultM (Kernel × List SpinLock) Int}
      (hf : ∀ t, t.2 = [] → NoPanic (f ()) t fun _ t => t.2 = []) :
      NoPanic (locked (release .proc) >>= f) (k', [.proc]) fun _ t => t.2 = [] := by
    refine .bind (.of_run (.locked (.release List.mem_cons_self)) rfl) ?_
    rintro _ _ ⟨-, rfl⟩
    rw [List.erase_cons_head]
    exact hf _ rfl
  refine .get_bind ?_
  cases happ : getElf k.userApps name with
  | none => exact .pure rfl
  | some app =>
    obtain ⟨hload, hvmas⟩ := happs app (getElf_mem happ)
    refine .bind (.of_run (.locked (.acquire (by simp))) rfl) ?_
    rintro _ _ ⟨-, rfl⟩
    refine .bind (.of_run (.lift _ _) (getProc_eq_some.2 ⟨rfl, rfl⟩)) ?_
    rintro _ _ ⟨rfl, rfl⟩
    refine .bind (onVm_noPanic (loadElfChecked_full hfree hstate hload hmms hpages hvmas hlen
      hstr)) ?_
    rintro ⟨ret, p⟩ ⟨k', locks⟩ hlocks
    dsimp only at hlocks
    subst hlocks
    refine .ite (fun _ => hrelease fun t ht => .pure ht) fun _ => ?_
    refine .bind (.of_run (a := ()) (.lift _ _) (modifyProc_eq_some.2 rfl)) ?_
    rintro _ _ ⟨-, rfl⟩
    exact hrelease fun t ht => .pure ht

/-- **Without a `NULL` in the array the call leaves it.** -/
theorem sysExecChecked_full (hmm : (k.pool curr).mm = some mm) (hnull : 0 ∉ k.vm.kstrbuf)
    (hready : Ready k curr)
    (hno : ¬ ArgsFit k.vm mm path argv) : sysExecChecked curr path argv (k, []) =
    .error .outOfBounds := by
  rw [ArgsFit, not_or, not_not] at hno
  obtain ⟨hpath, hfills⟩ := hno
  obtain ⟨kpath, rest, hpool⟩ :=
    List.exists_cons_of_length_pos ((Nat.zero_le _).trans_lt hready.strings)
  have hstrings := hready.strings
  rw [hpool, List.length_cons] at hstrings
  rw [hpool, List.mem_cons, not_or] at hnull
  have hassert : (kpath != 0) = true := bne_iff_ne.2 (Ne.symm hnull.1)
  refine NoPanic.stops (.bind (.of_run (.lift _ _) (liftVm_eq_some.2 ⟨_, kallocStr_cons hpool,
    rfl⟩)) ?_)
  rintro obj _ ⟨hobj, rfl⟩
  rw [hobj]
  set k₁ : Kernel := { k with vm := { k.vm with kstrbuf := rest } } with hk₁
  refine .bind (.of_run (.lift _ _) (liftVm_eq_some.2 ⟨k₁.vm, kassert_true hassert, rfl⟩)) ?_
  rintro _ _ ⟨-, rfl⟩
  refine .bind (.of_run (.lift _ _) (getMm_eq_some.2 ⟨hmm, rfl⟩)) ?_
  rintro mm' _ ⟨hmm', rfl⟩
  rw [hmm']
  refine .bind (.of_run (.locked (.acquire (by simp))) rfl) ?_
  rintro _ _ ⟨-, rfl⟩
  refine .bind (.of_run (.locked (.acquire (by simp))) rfl) ?_
  rintro _ _ ⟨-, rfl⟩
  refine .bind (.of_run (.locked (.release (by simp))) rfl) ?_
  rintro _ _ ⟨-, rfl⟩
  have hlocks : [SpinLock.mm mm.addr, .proc].erase .proc = [.mm mm.addr] := by simp
  rw [hlocks]
  refine .get_bind ?_
  have hname : copystrFromUser k₁.vm mm path KSTRING_MAX = copystrFromUser k.vm mm path
      KSTRING_MAX :=
    @copystrFromUser_congr k.vm k₁.vm rfl rfl _ _ _
  refine .ite (fun hneg => absurd (hname ▸ hneg) hpath) fun _ => ?_
  rcases @collectArgs_run k₁.vm mm argv MAXARG hnull.2 with
    ⟨-, -, hfew⟩ | ⟨ret, l, vm', hcollect, hcollected⟩
  · exact absurd hstrings (not_lt.2 (Nat.succ_le_of_lt hfew))
  have hall : l.length = MAXARG :=
    hcollected.fills.2 ((@fills_congr k.vm k₁.vm rfl rfl _ _ _).2 hfills)
  rw [entries_full hall] at hcollect
  refine .bind (.of_run (.lift _ _) (liftVm_eq_some.2 ⟨vm', hcollect, rfl⟩)) ?_
  rintro _ _ ⟨rfl, rfl⟩
  have hend (k : Kernel) (ret : Int) : NoPanic (do
      lift (liftVm (kfreeStr kpath))
      freeArgs (l.map some)
      return ret : FaultM (Kernel × List SpinLock) Int) (k, []) fun _ _ => False := by
    have hfree : kfreeStr kpath k.vm = some ((), _) := rfl
    refine .bind (.of_run (.lift _ _) (liftVm_eq_some.2 ⟨_, hfree, rfl⟩)) ?_
    rintro _ _ ⟨-, rfl⟩
    exact freeArgs_full l _ _ _
  have hrelease {f : Unit → FaultM (Kernel × List SpinLock) Int} {k : Kernel}
      (hf : NoPanic (f ()) (k, []) fun _ _ => False) :
      NoPanic (locked (release (.mm mm.addr)) >>= f) (k, [.mm mm.addr]) fun _ _ => False := by
    refine .bind (.of_run (.locked (.release List.mem_cons_self)) rfl) ?_
    rintro _ _ ⟨-, rfl⟩
    rw [List.erase_cons_head]
    exact hf
  refine .ite (fun _ => hrelease (hend _ _)) fun hneg => hrelease ?_
  have hsame := hcollected.same
  refine .bind (execChecked_full (k := { k₁ with vm := vm' }) ?_ hready.state ?_ ?_ ?_ hall.le
    (hcollected.short (not_lt.1 hneg))) ?_
  · show FreeOk vm'
    rw [hsame]
    exact (hready.free.of_strings rest).of_strings _
  · intro app happ
    show _ ∧ _ ≤ vm'.vmaAllocator.length
    rw [hsame]
    exact hready.apps app happ
  · show vm'.mmAllocator ≠ []
    rw [hsame]
    exact hready.mms
  · show vm'.freelist ≠ []
    rw [hsame]
    exact hready.pages
  · rintro ret ⟨k', locks⟩ hlocks
    dsimp only at hlocks
    subst hlocks
    exact hend k' ret

/-! ## The call and its array -/

/-- The call stays inside `arg` and `uargv`; when it returns, all buffers are back and it holds no
lock. -/
structure HandlesArgv (k : Kernel) (curr : Slot) (path argv : Uint64) : Prop where
  inside : sysExecChecked curr path argv (k, []) ≠ .error .outOfBounds
  returns : ∀ r k' held, sysExecChecked curr path argv (k, []) = .ok (r, k', held) →
    k'.vm.kstrbuf.length = k.vm.kstrbuf.length ∧ held = []

/-- **`sys_exec` handles an `argv` exactly if a `NULL` gets into the array**: always if there is
one, and only then where the kernel has what it needs to come to the end of the array. -/
theorem sysExec_handles (hmm : (k.pool curr).mm = some mm) (hnull : 0 ∉ k.vm.kstrbuf) :
    (ArgsFit k.vm mm path argv → HandlesArgv k curr path argv) ∧
      (Ready k curr → (HandlesArgv k curr path argv ↔ ArgsFit k.vm mm path argv)) := by
  have hsuffices (hfit : ArgsFit k.vm mm path argv) : HandlesArgv k curr path argv := by
    have hagrees := sysExecChecked_agrees hmm hnull hfit
    refine ⟨hagrees.inside, fun r k' held hrun => ?_⟩
    obtain ⟨hsys, hlocks⟩ := hagrees.returns hrun
    exact ⟨sysExec_kstrbuf hmm hnull hsys, hlocks⟩
  refine ⟨hsuffices, fun hready => ⟨fun hhandles => ?_, hsuffices⟩⟩
  by_contra hno
  exact hhandles.inside (sysExecChecked_full hmm hnull hready hno)

/-- Enough string buffers for a full array, and one for the path. -/
def fortyBuffers : List Uint64 := (List.range 40).map fun n => BitVec.ofNat 64 (n + 1)

/-- A running process with this address space; what is in the other slots does not matter. -/
def initWith (vm : Vm) (mm : Mm) : Kernel :=
  { boot initMachine with
    vm := vm
    pool := fun _ =>
      { Proc.zero 0x90000000 .zero with state := .running, pid := 1, mm := some mm } }

/-- It gives an `argv` that is not mapped. -/
theorem sysExec_handles_badArgv :
    ∃ vm mm, Ready (initWith vm mm) 0 ∧ HandlesArgv (initWith vm mm) 0 0x1000 0x8000000 := by
  have hobs : (mmWith ⟨7, 0x1000, 0x2000, PTE_R ||| PTE_W ||| PTE_U⟩
    { initVm with kstrbuf := fortyBuffers }).map
      (fun r => r.1.map fun mm => decide ((copyFromUser r.2 mm 0x8000000 8).1 < 0 ∧
        r.2.mmAllocator ≠ [] ∧
        r.2.freelist ≠ [] ∧ MAXARG < r.2.kstrbuf.length ∧ 0 ∉ r.2.kstrbuf ∧
          2 ≤ r.2.vmaAllocator.length)) =
        some (some true) := by
    decide +kernel
  simp only [Option.map_eq_some_iff, decide_eq_true_eq] at hobs
  obtain ⟨⟨r, vm⟩, hrun, mm, rfl, hneg, hmms, hpages, hstrings, hnull, hvmas⟩ := hobs
  dsimp only at hneg hmms hpages hstrings hnull hvmas
  obtain ⟨hwf, -⟩ :=
    mmWith_wf (freeOk_initVm.of_strings fortyBuffers) ⟨by decide, by decide, by decide, by decide⟩
      ⟨by decide, by decide, by decide⟩ hrun
  have hready : Ready (initWith vm mm) 0 := by
    refine ⟨hwf.good.free, (by decide : ProcState.running ≠ .unused), fun app happ => ?_, hmms,
      hpages, hstrings⟩
    obtain rfl := List.mem_singleton.1 happ
    exact ⟨fun phdr hphdr => absurd hphdr (by simp [noCode, loads]), hvmas⟩
  have hfit : ArgsFit vm mm 0x1000 0x8000000 := by
    refine .inr fun hfills => absurd (hfills.1 0 (by decide)).1 (not_le.2 ?_)
    rw [argvEntry_zero]
    exact hneg
  exact ⟨vm, mm, hready, (sysExec_handles (k := initWith vm mm) rfl hnull).1 hfit⟩

/-- A program whose data is an `argv` that does not end: every word is `0x1000`, where the empty
string is. -/
def endlessArgv : Machine where
  vm := { initVm with kstrbuf := fortyBuffers }
  userApps := [⟨INIT_PROC, 0x1000, [⟨PT_LOAD, PF_R ||| PF_W, 0, 0x1000, 0x100, 0x1000⟩],
    fun off => some (if off &&& 7 = 1 then 0x10 else 0), fun _ _ _ _ _ => rfl⟩]
  trapframePa _ := 0x90000000
  trapframe _ := .zero

/-- `init` calls `exec` with it. -/
def execEndlessArgv : List Act :=
  .loadInitApp :: enterUser 0 ++ [.trap 0 .ecall (callRegs .exec 0x1000 0x1000 0), .exec 0]

def leavesArray {α : Type} (r : Except Stop α) : Bool :=
  match r with
  | .error .outOfBounds => true
  | _ => false

theorem sysExec_leaves_array : ∃ k, Reachable k ∧ (k.pool 0).context = .syscall ∧
    (k.pool 0).trapframe.a7 = ofInt Sysno.exec.id ∧ (k.pool 0).trapframe.a0 = 0x1000 ∧
      (k.pool 0).trapframe.a1 = 0x1000 ∧ ¬ HandlesArgv k 0 0x1000 0x1000 := by
  have hobs : (Runs.run step (boot endlessArgv) execEndlessArgv).map (fun k => decide
      ((k.pool 0).context = .syscall ∧ (k.pool 0).trapframe.a7 = ofInt Sysno.exec.id ∧
        (k.pool 0).trapframe.a0 = 0x1000 ∧
      (k.pool 0).trapframe.a1 = 0x1000 ∧
        leavesArray (sysExecChecked 0 0x1000 0x1000 (k, [])) = true)) = some true := by
    decide +kernel
  simp only [Option.map_eq_some_iff, decide_eq_true_eq] at hobs
  obtain ⟨k, hrun, hcontext, hcall, hpath, hargv, hleaves⟩ := hobs
  refine ⟨k, ⟨endlessArgv, execEndlessArgv, hrun⟩, hcontext, hcall, hpath, hargv,
    fun hhandles => hhandles.inside ?_⟩
  generalize sysExecChecked 0 0x1000 0x1000 (k, []) = r at hleaves
  match r with
  | .error .outOfBounds => rfl
  | .error .panic => exact nomatch hleaves
  | .ok _ => exact nomatch hleaves

end SignalOS
