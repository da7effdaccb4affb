import SignalOS.Signal.Delivery
import SignalOS.Signal.Disposition
import SignalOS.Vm.Bytewise

/-!
# The arguments of `sys_sigaction` and `sys_sigprocmask`

Both calls write the old value to user memory and then read the new one, the first
into the live table.

* `SigactionCase`, `SigprocmaskCase` — the exits of the two calls.
* `failed_sigaction_keeps_iff` — **a call of `sys_sigaction` that fails changes no
  disposition exactly if the copy of the new action does not stop after a byte that
  differs from the old one**.
* `arguments_used_iff` — **the calls use the argument that was passed exactly if
  writing the old value does not change it**.
-/

namespace SignalOS

open LittleEndian

variable {mm : Mm} {p : Proc} {vm : Vm} {signo how : Int} {act oldact set oldset : Uint64}

/-! ## The exits of the calls -/

/-- The bytes a call writes to the address for the old value; none are written to `NULL`. -/
def written (old : List Byte) (oldva : Uint64) : List Byte := if oldva ≠ 0 then old else []

theorem copy_written (vm : Vm) (mm : Mm) (old : List Byte) (oldva : Uint64) :
    (if oldva ≠ 0 then copyToUser vm mm oldva old else (0, vm)) =
      copyToUser vm mm oldva (written old oldva) := by
  unfold written
  split
  · rfl
  · rfl

/-- The check on a new action for `SIGKILL` or `SIGSTOP` lets it pass. -/
def Checked (vm : Vm) (mm : Mm) (s : Signo) (act : Uint64) : Prop :=
  Fixed s → act ≠ 0 → sigactionAllowed vm mm act = true

instance (vm : Vm) (mm : Mm) (s : Signo) (act : Uint64) : Decidable (Checked vm mm s act) :=
  inferInstanceAs (Decidable (_ → _ → _))

/-- Memory after the old action was written. -/
def sigactionMem (vm : Vm) (mm : Mm) (p : Proc) (s : Signo) (oldact : Uint64) : Int × Vm :=
  copyToUser vm mm oldact (written (p.signal.sa s).toBytes oldact)

/-- The exits of `sys_sigaction`. -/
inductive SigactionCase (mm : Mm) (p : Proc) (vm : Vm) (signo : Int) (act oldact : Uint64) :
    Int × Proc × Vm → Prop
  | invalid (h : toSigno signo = none) : SigactionCase mm p vm signo act oldact (-EINVAL, p, vm)
  | refused {s : Signo} (hs : toSigno signo = some s) (h : ¬ Checked vm mm s act) :
      SigactionCase mm p vm signo act oldact (-EINVAL, p, vm)
  | notWritten {s : Signo} (hs : toSigno signo = some s) (hcheck : Checked vm mm s act)
      (h : (sigactionMem vm mm p s oldact).1 < 0) :
      SigactionCase mm p vm signo act oldact (-EINVAL, p, (sigactionMem vm mm p s oldact).2)
  | kept {s : Signo} (hs : toSigno signo = some s) (hcheck : Checked vm mm s act)
      (h : ¬ (sigactionMem vm mm p s oldact).1 < 0) (hact : act = 0) :
      SigactionCase mm p vm signo act oldact (0, p, (sigactionMem vm mm p s oldact).2)
  | copied {s : Signo} {ret : Int} {bs : List Byte} (hs : toSigno signo = some s)
      (hcheck : Checked vm mm s act) (h : ¬ (sigactionMem vm mm p s oldact).1 < 0) (hact : act ≠ 0)
      (hcopy : copyFromUser (sigactionMem vm mm p s oldact).2 mm act sizeofSigaction = (ret, bs)) :
      SigactionCase mm p vm signo act oldact
        (if ret < 0 then -EINVAL else 0,
          p.setSa s (Sigaction.ofBytes (splice bs (p.signal.sa s).toBytes)),
          (sigactionMem vm mm p s oldact).2)

theorem sysSigaction_cases (mm : Mm) (p : Proc) (vm : Vm) (signo : Int) (act oldact : Uint64) :
    SigactionCase mm p vm signo act oldact (sysSigaction mm p vm signo act oldact) := by
  rw [sysSigaction]
  cases hs : toSigno signo with
  | none => exact .invalid hs
  | some s =>
    dsimp only
    have hchecked : ((s = SIGKILL ∨ s = SIGSTOP) ∧ act ≠ 0 ∧
      (!sigactionAllowed vm mm act) = true) ↔
        ¬ Checked vm mm s act := by
      simp [Checked, Fixed]
    split
    · rename_i hcheck
      exact .refused hs (hchecked.1 hcheck)
    rename_i hcheck
    have hcheck := not_not.1 (mt hchecked.2 hcheck)
    rw [copy_written, ← sigactionMem]
    split
    · rename_i hfail
      exact .notWritten hs hcheck hfail
    rename_i hok
    split
    · rename_i hact
      exact .copied hs hcheck hok hact rfl
    · rename_i hact
      exact .kept hs hcheck hok (not_not.1 hact)

/-! ## A failing `sys_sigaction` -/

/-- The new action has a byte that differs from the old action, and the copy stops behind it: the
old action has been written, and byte `j` of the new one has a user page but a later one has
not. -/
def Torn (vm : Vm) (mm : Mm) (p : Proc) (signo : Int) (act oldact : Uint64) : Prop :=
  ∃ s, toSigno signo = some s ∧ ¬ Fixed s ∧ act ≠ 0 ∧
    let old := (p.signal.sa s).toBytes
    (∀ i < (written old oldact).length, Reached vm mm oldact i) ∧
      (∃ k < sizeofSigaction, ¬ Reached vm mm act k) ∧
      ∃ j < sizeofSigaction, Reached vm mm act j ∧
        ∃ a ∈ userPa vm mm (act + BitVec.ofNat 64 j),
          ¬ ByteAfter vm mm oldact (written old oldact) a (old.getD j 0)

theorem sigactionMem_pte (vm : Vm) (mm : Mm) (p : Proc) (s : Signo) (oldact : Uint64) :
    (sigactionMem vm mm p s oldact).2.pte = vm.pte := copyToUser_pte _ _ _ _

theorem sigactionMem_ok {s : Signo} : ¬ (sigactionMem vm mm p s oldact).1 < 0 ↔
    ∀ i < (written (p.signal.sa s).toBytes oldact).length, Reached vm mm oldact i := by
  rw [sigactionMem, copyToUser_failed_iff]
  push Not
  rfl

/-! ### The copy of the new action -/

section Copied

variable {s : Signo} {ret : Int} {bs : List Byte}

theorem lt_length_copied
    (hcopy : copyFromUser (sigactionMem vm mm p s oldact).2 mm act sizeofSigaction = (ret, bs))
    {j : Nat} :
    j < bs.length ↔ j < sizeofSigaction ∧ Reached vm mm act j := by
  rw [← reached_congr (sigactionMem_pte vm mm p s oldact), ← lt_length_copyFromUser, hcopy]

theorem length_copied_le
    (hcopy : copyFromUser (sigactionMem vm mm p s oldact).2 mm act sizeofSigaction = (ret, bs)) :
    bs.length ≤ (p.signal.sa s).toBytes.length := by
  rw [Sigaction.length_toBytes]
  by_contra hgt
  exact lt_irrefl _ ((lt_length_copied hcopy).1 (Nat.not_le.1 hgt)).1

theorem copied_failed_iff
    (hcopy : copyFromUser (sigactionMem vm mm p s oldact).2 mm act sizeofSigaction = (ret, bs)) :
    ret < 0 ↔ ∃ k < sizeofSigaction, ¬ Reached vm mm act k := by
  simp only [← reached_congr (sigactionMem_pte vm mm p s oldact), ← copyFromUser_failed_iff, hcopy]

/-- A byte of the new action that is read is the one its page holds once the old one has been
written. -/
theorem byteAfter_copied
    (hcopy : copyFromUser (sigactionMem vm mm p s oldact).2 mm act sizeofSigaction = (ret, bs))
    {j : Nat} (hj : j < bs.length) {a : Uint64} (ha : userPa vm mm (act + BitVec.ofNat 64 j) =
    some a)
    {b : Byte} :
    ByteAfter vm mm oldact (written (p.signal.sa s).toBytes oldact) a b ↔ bs[j] = b := by
  have hread := userHolds_copyFromUser (sigactionMem vm mm p s oldact).2 mm act sizeofSigaction j
  rw [hcopy] at hread
  have hread := hread hj
  rw [userByte, userPa_congr (sigactionMem_pte _ _ _ _ _), ha, Option.map_some, Option.some.injEq,
    ← List.getElem_eq_getD (h := hj)] at hread
  rw [byteAfter_iff, ← sigactionMem, hread]

/-- The entry is unchanged exactly if the bytes that were copied are the ones it had. -/
theorem copied_keeps_iff
    (hcopy : copyFromUser (sigactionMem vm mm p s oldact).2 mm act sizeofSigaction = (ret, bs)) :
    Sigaction.ofBytes (splice bs (p.signal.sa s).toBytes) = p.signal.sa s ↔
      ∀ (j : Nat) (hj : j < bs.length), bs[j] = (p.signal.sa s).toBytes.getD j 0 := by
  have hlen := length_splice (length_copied_le hcopy)
  constructor
  · intro hsame j hj
    have hbytes := congrArg Sigaction.toBytes hsame
    rw [Sigaction.toBytes_ofBytes (by rw [hlen, Sigaction.length_toBytes])] at hbytes
    rw [← hbytes, List.getD_eq_getElem?_getD, splice, List.getElem?_append_left hj,
      List.getElem?_eq_getElem hj]
    rfl
  · intro hall
    have hsplice : splice bs (p.signal.sa s).toBytes = (p.signal.sa s).toBytes := by
      refine List.ext_getElem hlen fun j hj hj' => ?_
      rcases getElem_splice hj with ⟨hnew, heq⟩ | ⟨hold, heq⟩
      · rw [heq, hall j hnew, ← List.getElem_eq_getD (h := hj')]
      · exact heq
    rw [hsplice, Sigaction.ofBytes_toBytes]

end Copied

/-- **A call of `sys_sigaction` that fails changes no disposition** exactly if the copy of the
new action does not stop behind a byte that differs from the old one. -/
theorem failed_sigaction_keeps_iff (mm : Mm) (p : Proc) (vm : Vm) (signo : Int)
    (act oldact : Uint64) :
    ((sysSigaction mm p vm signo act oldact).1 < 0 →
        ∀ s, (sysSigaction mm p vm signo act oldact).2.1.signal.sa s = p.signal.sa s) ↔
      ¬ Torn vm mm p signo act oldact := by
  have hcases := sysSigaction_cases mm p vm signo act oldact
  generalize sysSigaction mm p vm signo act oldact = r at hcases ⊢
  constructor
  · rintro hkeeps ⟨s, hs, hfixed, hact, hwritten, hstop, j, hj, hreach, a, ha, hdiffers⟩
    cases hcases with
    | invalid h => exact absurd hs (by simp [h])
    | refused hs' h =>
      obtain rfl := Option.some.inj (hs.symm.trans hs')
      exact h fun hfix => absurd hfix hfixed
    | notWritten hs' hcheck h =>
      obtain rfl := Option.some.inj (hs.symm.trans hs')
      exact sigactionMem_ok.2 hwritten h
    | kept hs' hcheck h hzero => exact hact hzero
    | @copied s' ret bs hs' hcheck h hact hcopy =>
      obtain rfl := Option.some.inj (hs.symm.trans hs')
      have hsame := hkeeps (by
        rw [if_pos ((copied_failed_iff hcopy).2 hstop)]
        show -EINVAL < 0
        decide) s
      rw [Proc.sa_setSa_self, copied_keeps_iff hcopy] at hsame
      have hlt : j < bs.length := (lt_length_copied hcopy).2 ⟨hj, hreach⟩
      exact hdiffers ((byteAfter_copied hcopy hlt ha).2 (hsame j hlt))
  · intro htorn hret s
    cases hcases with
    | invalid => rfl
    | refused => rfl
    | notWritten => rfl
    | kept => rfl
    | @copied s' ret bs hs hcheck h hact hcopy =>
      by_cases hne : s = s'
      · subst hne
        have hstop : ∃ k < sizeofSigaction, ¬ Reached vm mm act k := by
          refine (copied_failed_iff hcopy).1 (not_le.1 fun hok => ?_)
          rw [if_neg (not_lt.2 hok)] at hret
          exact lt_irrefl 0 hret
        have hfixed : ¬ Fixed s := by
          -- the check has read the whole of the new action
          intro hfix
          have hallowed := hcheck hfix hact
          simp only [sigactionAllowed, Bool.and_eq_true, Bool.not_eq_true',
            decide_eq_false_iff_not] at hallowed
          exact hallowed.1 (copyFromUser_failed_iff.2 hstop)
        rw [Proc.sa_setSa_self, copied_keeps_iff hcopy]
        intro j hj
        by_contra hdiffers
        obtain ⟨hj24, hreach⟩ := (lt_length_copied hcopy).1 hj
        obtain ⟨a, ha⟩ := Option.ne_none_iff_exists'.1 (hreach j le_rfl)
        exact htorn ⟨s, hs, hfixed, hact, sigactionMem_ok.1 h, hstop, j, hj24, hreach, a, ha,
          fun hafter => hdiffers ((byteAfter_copied hcopy hj ha).1 hafter)⟩
      · exact Proc.sa_setSa_of_ne hne _ _

/-- An action that ends in the next page, which is not mapped: its handler is installed all the
same. -/
theorem failed_sigaction_installs :
    ¬ ∀ (mm : Mm) (p : Proc) (vm : Vm) (signo : Int) (act oldact : Uint64),
      (sysSigaction mm p vm signo act oldact).1 < 0 →
        ∀ s, (sysSigaction mm p vm signo act oldact).2.1.signal.sa s = p.signal.sa s := by
  intro hall
  have hret : (sysSigaction stackMm (stackProc 0 0) stackVm 1 0x5ff8 0).1 < 0 := by decide +kernel
  have hsa : ((sysSigaction stackMm (stackProc 0 0) stackVm 1 0x5ff8 0).2.1.signal.sa
    1).saSigaction ≠
      ((stackProc 0 0).signal.sa 1).saSigaction := by decide +kernel
  exact hsa (congrArg Sigaction.saSigaction (hall _ _ _ _ _ _ hret 1))

/-! ## The argument that was passed -/

/-- The mask `sys_sigprocmask` computes from a set, if it knows `how`. -/
def newMask (how : Int) (mask tmp : Sigset) : Option Sigset :=
  if how = SIG_BLOCK then some (mask ||| tmp)
  else if how = SIG_UNBLOCK then some (mask &&& ~~~tmp)
  else if how = SIG_SETMASK then some tmp
  else none

/-- Memory after the old mask was written. -/
def sigprocmaskMem (vm : Vm) (mm : Mm) (p : Proc) (oldset : Uint64) : Int × Vm :=
  copyToUser vm mm oldset (written (bytesOfWords [p.signal.sigmask]) oldset)

/-- The exits of `sys_sigprocmask`. -/
inductive SigprocmaskCase (mm : Mm) (p : Proc) (vm : Vm) (how : Int) (set oldset : Uint64) :
    Int × Proc × Vm → Prop
  | notWritten (h : (sigprocmaskMem vm mm p oldset).1 < 0) :
      SigprocmaskCase mm p vm how set oldset (-EINVAL, p, (sigprocmaskMem vm mm p oldset).2)
  | kept (h : ¬ (sigprocmaskMem vm mm p oldset).1 < 0) (hset : set = 0) :
      SigprocmaskCase mm p vm how set oldset (0, p, (sigprocmaskMem vm mm p oldset).2)
  | notRead (h : ¬ (sigprocmaskMem vm mm p oldset).1 < 0) (hset : set ≠ 0)
      (hread : (copyFromUser (sigprocmaskMem vm mm p oldset).2 mm set sizeofSigset).1 < 0) :
      SigprocmaskCase mm p vm how set oldset (-EINVAL, p, (sigprocmaskMem vm mm p oldset).2)
  | unknown {tmp : Sigset} (h : ¬ (sigprocmaskMem vm mm p oldset).1 < 0) (hset : set ≠ 0)
      (hread : UserHolds (sigprocmaskMem vm mm p oldset).2 mm set (bytesOfWords [tmp]))
      (hhow : newMask how p.signal.sigmask tmp = none) :
      SigprocmaskCase mm p vm how set oldset (-EINVAL, p, (sigprocmaskMem vm mm p oldset).2)
  | changed {tmp mask : Sigset} (h : ¬ (sigprocmaskMem vm mm p oldset).1 < 0) (hset : set ≠ 0)
      (hread : UserHolds (sigprocmaskMem vm mm p oldset).2 mm set (bytesOfWords [tmp]))
      (hhow : newMask how p.signal.sigmask tmp = some mask) :
      SigprocmaskCase mm p vm how set oldset
        (0, p.setSigmask mask, (sigprocmaskMem vm mm p oldset).2)

theorem sysSigprocmask_cases (mm : Mm) (p : Proc) (vm : Vm) (how : Int) (set oldset : Uint64) :
    SigprocmaskCase mm p vm how set oldset (sysSigprocmask mm p vm how set oldset) := by
  rw [sysSigprocmask, copy_written, ← sigprocmaskMem]
  dsimp only
  split
  · rename_i hfail
    exact .notWritten hfail
  rename_i hok
  split
  · rename_i hset
    split
    · rename_i hread
      exact .notRead hok hset hread
    rename_i hread
    -- the bytes that were read are those of one word
    have hlen : (copyFromUser (sigprocmaskMem vm mm p oldset).2 mm set sizeofSigset).2.length =
        8 := by
      rcases copyFromUser_result (sigprocmaskMem vm mm p oldset).2 mm set sizeofSigset with
        ⟨-, hlen⟩ | ⟨hret, -⟩
      · exact hlen
      · rw [hret] at hread
        exact absurd (show -EINVAL < 0 by decide) hread
    have hholds := userHolds_copyFromUser (sigprocmaskMem vm mm p oldset).2 mm set sizeofSigset
    rw [← @bytesOfWords_wordAt 1 _ hlen] at hholds
    split
    · rename_i hhow
      exact .changed hok hset hholds (by rw [newMask, if_pos hhow])
    rename_i hblock
    split
    · rename_i hhow
      exact .changed hok hset hholds (by rw [newMask, if_neg hblock, if_pos hhow])
    rename_i hunblock
    split
    · rename_i hhow
      exact .changed hok hset hholds (by rw [newMask, if_neg hblock, if_neg hunblock, if_pos hhow])
    · rename_i hsetmask
      exact .unknown hok hset hholds
        (by rw [newMask, if_neg hblock, if_neg hunblock, if_neg hsetmask])
  · rename_i hset
    exact .kept hok (not_not.1 hset)

/-- When `sys_sigaction` returns 0, the installed action is the one `act` held at the call, and
the old area holds the one in force at the call. -/
def SigactionFaithful (mm : Mm) (p : Proc) (vm : Vm) (signo : Int) (act oldact : Uint64) : Prop :=
  let r := sysSigaction mm p vm signo act oldact
  r.1 = 0 → ∀ s, toSigno signo = some s →
    (act ≠ 0 → UserHolds vm mm act (r.2.1.signal.sa s).toBytes) ∧
      (oldact ≠ 0 → UserHolds r.2.2 mm oldact (p.signal.sa s).toBytes)

/-- When `sys_sigprocmask` returns 0, the mask is the one computed from the set at the call, and
the old area holds the one in force at the call. -/
def SigprocmaskFaithful (mm : Mm) (p : Proc) (vm : Vm) (how : Int) (set oldset : Uint64) : Prop :=
  let r := sysSigprocmask mm p vm how set oldset
  r.1 = 0 →
    (set ≠ 0 → ∃ tmp, UserHolds vm mm set (bytesOfWords [tmp]) ∧
      newMask how p.signal.sigmask tmp = some r.2.1.signal.sigmask) ∧
      (oldset ≠ 0 → UserHolds r.2.2 mm oldset (bytesOfWords [p.signal.sigmask]))

/-- The old value can be written whole, and is then in the old area: no two of its bytes go to one
place. -/
def OldHeld (vm : Vm) (mm : Mm) (old : List Byte) (oldva : Uint64) : Prop :=
  HoldsAfter vm mm oldva (written old oldva) oldva (written old oldva)

/-- Where the call gets as far as reading the new action, writing the old one leaves both areas
with the actions they should hold. -/
def ActionsApart (vm : Vm) (mm : Mm) (p : Proc) (signo : Int) (act oldact : Uint64) : Prop :=
  ∀ s, toSigno signo = some s → Checked vm mm s act →
    let old := (p.signal.sa s).toBytes
    (∀ i < (written old oldact).length, Reached vm mm oldact i) →
      (act ≠ 0 → ∀ i < sizeofSigaction, Reached vm mm act i) →
        OldHeld vm mm old oldact ∧
          (act ≠ 0 → ∀ sa : Sigaction, UserHolds vm mm act sa.toBytes →
            HoldsAfter vm mm oldact (written old oldact) act sa.toBytes)

/-- Where the call gets as far as changing the mask, writing the old one leaves it in the old area,
and leaves a set from which the same mask is computed. -/
def MasksApart (vm : Vm) (mm : Mm) (p : Proc) (how : Int) (set oldset : Uint64) : Prop :=
  let old := bytesOfWords [p.signal.sigmask]
  (∀ i < (written old oldset).length, Reached vm mm oldset i) →
    (set ≠ 0 → newMask how p.signal.sigmask 0 ≠ none ∧ ∀ i < sizeofSigset, Reached vm mm set i) →
      OldHeld vm mm old oldset ∧
        (set ≠ 0 → ∀ tmp tmp' : Sigset, UserHolds vm mm set (bytesOfWords [tmp]) →
          HoldsAfter vm mm oldset (written old oldset) set (bytesOfWords [tmp']) →
            newMask how p.signal.sigmask tmp' = newMask how p.signal.sigmask tmp)

/-! ### Reading the argument before and after -/

theorem oldHeld_iff {old : List Byte} {oldva : Uint64} :
    OldHeld vm mm old oldva ↔
      (oldva ≠ 0 → UserHolds (copyToUser vm mm oldva (written old oldva)).2 mm oldva old) := by
  rw [OldHeld, holdsAfter_iff]
  by_cases hva : oldva = 0
  · simp [written, hva, UserHolds]
  · have hwritten : written old oldva = old := if_pos hva
    rw [hwritten]
    exact ⟨fun h _ => h, fun h => h hva⟩

/-- Where all bytes have a user page, `copy_from_user` reads what user memory holds. -/
theorem exists_userHolds {va : Uint64} {len : Nat} (h : ∀ i < len, Reached vm mm va i) :
    ∃ bs, bs.length = len ∧ UserHolds vm mm va bs := by
  refine ⟨(copyFromUser vm mm va len).2, ?_, userHolds_copyFromUser vm mm va len⟩
  refine (copyFromUser_result vm mm va len).elim And.right fun ⟨_, hlt⟩ => ?_
  have hreach := h _ hlt
  exact absurd (lt_length_copyFromUser.2 ⟨hlt, hreach⟩) (lt_irrefl _)

theorem einval_ne_zero : -EINVAL ≠ 0 := by decide

theorem newMask_eq_none {mask tmp tmp' : Sigset} :
    newMask how mask tmp = none ↔ newMask how mask tmp' = none := by
  simp only [newMask]
  split_ifs <;> simp

/-! ### `sys_sigaction` -/

/-- A copy of the new action that succeeds installs the bytes it read. -/
theorem copied_installs {s : Signo} {ret : Int} {bs : List Byte}
    (hcopy : copyFromUser (sigactionMem vm mm p s oldact).2 mm act sizeofSigaction = (ret, bs))
    (hret : ¬ ret < 0) :
    (∀ i < sizeofSigaction, Reached vm mm act i) ∧
      UserHolds (sigactionMem vm mm p s oldact).2 mm act
        (Sigaction.ofBytes (splice bs (p.signal.sa s).toBytes)).toBytes := by
  have hreach : ∀ i < sizeofSigaction, Reached vm mm act i := by
    intro i hi
    by_contra hstop
    exact hret ((copied_failed_iff hcopy).2 ⟨i, hi, hstop⟩)
  have hlen : bs.length = sizeofSigaction := by
    refine le_antisymm ?_ (Nat.le_of_not_lt fun hlt => ?_)
    · simpa using length_copied_le hcopy
    · exact lt_irrefl _ ((lt_length_copied hcopy).2 ⟨hlt, hreach _ hlt⟩)
  have hholds := userHolds_copyFromUser (sigactionMem vm mm p s oldact).2 mm act sizeofSigaction
  rw [hcopy] at hholds
  refine ⟨hreach, ?_⟩
  rwa [splice_of_length_le (by rw [hlen, Sigaction.length_toBytes]),
    Sigaction.toBytes_ofBytes hlen]

theorem sigaction_faithful_iff :
    SigactionFaithful mm p vm signo act oldact ↔ ActionsApart vm mm p signo act oldact := by
  have hcases := sysSigaction_cases mm p vm signo act oldact
  rw [SigactionFaithful]
  generalize sysSigaction mm p vm signo act oldact = r at hcases ⊢
  constructor
  · intro hfaithful s hs hcheck old hwritten hreach
    cases hcases with
    | invalid h => exact absurd hs (by simp [h])
    | refused hs' h =>
      obtain rfl := Option.some.inj (hs.symm.trans hs')
      exact absurd hcheck h
    | notWritten hs' _ h =>
      obtain rfl := Option.some.inj (hs.symm.trans hs')
      exact absurd h (sigactionMem_ok.2 hwritten)
    | kept hs' _ h hact =>
      obtain rfl := Option.some.inj (hs.symm.trans hs')
      exact ⟨oldHeld_iff.2 (hfaithful rfl s hs).2, fun hne => absurd hact hne⟩
    | @copied s' ret bs hs' _ h hact hcopy =>
      obtain rfl := Option.some.inj (hs.symm.trans hs')
      have hret : ¬ ret < 0 := fun hneg => by
        obtain ⟨i, hi, hstop⟩ := (copied_failed_iff hcopy).1 hneg
        exact hstop (hreach hact i hi)
      obtain ⟨hnew, hold⟩ := hfaithful (if_neg hret) s hs
      refine ⟨oldHeld_iff.2 hold, fun _ sa hsa => ?_⟩
      have hnew := hnew hact
      rw [Proc.sa_setSa_self] at hnew
      rw [holdsAfter_iff, hsa.unique hnew (by simp)]
      exact (copied_installs hcopy hret).2
  · intro hapart hret s hs
    cases hcases with
    | invalid h => exact absurd hs (by simp [h])
    | refused => exact absurd hret einval_ne_zero
    | notWritten => exact absurd hret einval_ne_zero
    | kept hs' hcheck h hact =>
      obtain rfl := Option.some.inj (hs.symm.trans hs')
      obtain ⟨hold, -⟩ := hapart s hs hcheck (sigactionMem_ok.1 h) fun hne => absurd hact hne
      exact ⟨fun hne => absurd hact hne, oldHeld_iff.1 hold⟩
    | @copied s' ret bs hs' hcheck h hact hcopy =>
      obtain rfl := Option.some.inj (hs.symm.trans hs')
      have hok : ¬ ret < 0 := fun hneg => by
        rw [if_pos hneg] at hret
        exact einval_ne_zero hret
      obtain ⟨hreach, hread⟩ := copied_installs hcopy hok
      obtain ⟨hold, hnew⟩ := hapart s hs hcheck (sigactionMem_ok.1 h) fun _ => hreach
      refine ⟨fun _ => ?_, oldHeld_iff.1 hold⟩
      -- the action `act` held at the call is still there when it is read
      obtain ⟨bs₀, hlen₀, hbs₀⟩ := exists_userHolds hreach
      rw [← Sigaction.toBytes_ofBytes hlen₀] at hbs₀
      have hafter := holdsAfter_iff.1 (hnew hact _ hbs₀)
      rw [Proc.sa_setSa_self, ← hafter.unique hread (by simp)]
      exact hbs₀

/-! ### `sys_sigprocmask` -/

theorem sigprocmaskMem_ok : ¬ (sigprocmaskMem vm mm p oldset).1 < 0 ↔
    ∀ i < (written (bytesOfWords [p.signal.sigmask]) oldset).length, Reached vm mm oldset i := by
  rw [sigprocmaskMem, copyToUser_failed_iff]
  push Not
  rfl

theorem sigprocmaskMem_pte (vm : Vm) (mm : Mm) (p : Proc) (oldset : Uint64) :
    (sigprocmaskMem vm mm p oldset).2.pte = vm.pte := copyToUser_pte _ _ _ _

theorem exists_set {vm : Vm} (h : ∀ i < sizeofSigset, Reached vm mm set i) :
    ∃ tmp, UserHolds vm mm set (bytesOfWords [tmp]) := by
  obtain ⟨bs, hlen, hbs⟩ := exists_userHolds h
  have hword := @bytesOfWords_wordAt 1 _ hlen
  rw [← hword] at hbs
  exact ⟨wordAt bs 0, hbs⟩

theorem set_reached (hread : UserHolds (sigprocmaskMem vm mm p oldset).2 mm set (bytesOfWords
    [tmp])) :
    ∀ i < sizeofSigset, Reached vm mm set i := by
  intro i hi j hj hnone
  have hbyte := hread j (lt_of_le_of_lt hj hi)
  rw [userByte, userPa_congr (sigprocmaskMem_pte _ _ _ _), hnone] at hbyte
  exact absurd hbyte (by simp)

/-- User memory holds one set at an address. -/
theorem set_unique {vm : Vm} {tmp tmp' : Sigset} (h : UserHolds vm mm set (bytesOfWords [tmp]))
    (h' : UserHolds vm mm set (bytesOfWords [tmp'])) : tmp = tmp' := by
  have hword (w : Sigset) := @wordAt_bytesOfWords [w] 0 Nat.one_pos
  have heq := congrArg (wordAt · 0) (h.unique h' (by simp))
  exact (hword tmp).symm.trans (heq.trans (hword tmp'))

theorem sigprocmask_faithful_iff :
    SigprocmaskFaithful mm p vm how set oldset ↔ MasksApart vm mm p how set oldset := by
  have hcases := sysSigprocmask_cases mm p vm how set oldset
  rw [SigprocmaskFaithful]
  generalize sysSigprocmask mm p vm how set oldset = r at hcases ⊢
  constructor
  · intro hfaithful hwritten hset
    cases hcases with
    | notWritten h => exact absurd h (sigprocmaskMem_ok.2 hwritten)
    | kept _ hzero => exact ⟨oldHeld_iff.2 (hfaithful rfl).2, fun hne => absurd hzero hne⟩
    | notRead _ hne hread =>
      obtain ⟨i, hi, hstop⟩ := copyFromUser_failed_iff.1 hread
      exact absurd ((reached_congr (sigprocmaskMem_pte _ _ _ _) i).2 ((hset hne).2 i hi)) hstop
    | unknown _ hne _ hhow => exact absurd (newMask_eq_none.1 hhow) (hset hne).1
    | @changed tmp₁ mask _ hne hread hhow =>
      obtain ⟨hnew, hold⟩ := hfaithful rfl
      refine ⟨oldHeld_iff.2 hold, fun _ tmp tmp' htmp htmp' => ?_⟩
      obtain ⟨tmp₀, htmp₀, hmask⟩ := hnew hne
      rw [set_unique (holdsAfter_iff.1 htmp') hread, set_unique htmp htmp₀, hhow, hmask]
      rfl
  · intro hapart hret
    cases hcases with
    | notWritten => exact absurd hret einval_ne_zero
    | kept h hzero =>
      obtain ⟨hold, -⟩ := hapart (sigprocmaskMem_ok.1 h) fun hne => absurd hzero hne
      exact ⟨fun hne => absurd hzero hne, oldHeld_iff.1 hold⟩
    | notRead => exact absurd hret einval_ne_zero
    | unknown => exact absurd hret einval_ne_zero
    | @changed tmp₁ mask h hne hread hhow =>
      have hreach := set_reached hread
      have hknown : newMask how p.signal.sigmask 0 ≠ none := fun hnone => by
        rw [@newMask_eq_none _ _ _ tmp₁, hhow] at hnone
        exact absurd hnone (by simp)
      obtain ⟨hold, hnew⟩ := hapart (sigprocmaskMem_ok.1 h) fun _ => ⟨hknown, hreach⟩
      refine ⟨fun _ => ?_, oldHeld_iff.1 hold⟩
      obtain ⟨tmp₀, htmp₀⟩ := exists_set hreach
      refine ⟨tmp₀, htmp₀, ?_⟩
      rw [← hnew hne tmp₀ tmp₁ htmp₀ (holdsAfter_iff.2 hread), hhow]
      rfl

/-- **`sys_sigaction` and `sys_sigprocmask` use the argument that was passed** exactly if writing
the old value first leaves it, and the old value, as they should be. -/
theorem arguments_used_iff (mm : Mm) (p : Proc) (vm : Vm) (signo how : Int)
    (act oldact set oldset : Uint64) :
    (SigactionFaithful mm p vm signo act oldact ↔ ActionsApart vm mm p signo act oldact) ∧
      (SigprocmaskFaithful mm p vm how set oldset ↔ MasksApart vm mm p how set oldset) :=
  ⟨sigaction_faithful_iff, sigprocmask_faithful_iff⟩

/-- One variable for both masks: the old mask is written over the new one before that is read. -/
theorem shared_set_is_overwritten :
    ¬ ∀ (mm : Mm) (p : Proc) (vm : Vm) (signo how : Int) (act oldact set oldset : Uint64),
      SigactionFaithful mm p vm signo act oldact ∧ SigprocmaskFaithful mm p vm how set oldset := by
  intro hall
  -- the word at `0x5000` is 0, which asks for an empty mask
  have hp : UserHolds stackVm stackMm 0x5000 (bytesOfWords [0]) := by decide +kernel
  have hret : (sysSigprocmask stackMm ((stackProc 0 0).setSigmask 2) stackVm SIG_SETMASK 0x5000
      0x5000).1 = 0 := by
    decide +kernel
  have hmask : (sysSigprocmask stackMm ((stackProc 0 0).setSigmask 2) stackVm SIG_SETMASK
      0x5000 0x5000).2.1.signal.sigmask = 2 := by decide +kernel
  obtain ⟨hnew, -⟩ := (hall stackMm ((stackProc 0 0).setSigmask 2) stackVm 0 SIG_SETMASK 0 0
    0x5000 0x5000).2 hret
  obtain ⟨tmp, htmp, heq⟩ := hnew (by decide)
  rw [hmask, ← set_unique hp htmp] at heq
  exact absurd heq (by decide)

end SignalOS
