import SignalOS.Signal.Sigcalls

/-!
# The dispositions of `SIGKILL` and `SIGSTOP`

`sys_sigaction` reads the new action twice: to check it, and to install it.  In
between it writes the old action.

* `Overwrites` — the old action is written over the handler of the new one.
* `sysSigaction_protected` — **in no other case does a call change the disposition
  of `SIGKILL` or `SIGSTOP`**.
-/

namespace SignalOS

open LittleEndian

/-- The signals whose disposition cannot be changed. -/
def Fixed (signo : Signo) : Prop := signo = SIGKILL ∨ signo = SIGSTOP

instance (signo : Signo) : Decidable (Fixed signo) := inferInstanceAs (Decidable (_ ∨ _))

/-- The dispositions that cannot be changed are the default. -/
def Protected (sig : Ksignal) : Prop :=
  ∀ signo, Fixed signo → (sig.sa signo).saSigaction = SIG_DFL

/-- The old action `sa` can be written to `oldact`, and one of its bytes that is not zero goes to
the place of the handler in `act`. -/
def Overwrites (vm : Vm) (mm : Mm) (sa : Sigaction) (act oldact : Uint64) : Prop :=
  (∀ i < sizeofSigaction, userPa vm mm (oldact + BitVec.ofNat 64 i) ≠ none) ∧
    ∃ i < sizeofSigaction, ∃ j < 8, sa.toBytes.getD i 0 ≠ 0 ∧
      userPa vm mm (oldact + BitVec.ofNat 64 i) = userPa vm mm (act + BitVec.ofNat 64 j)

instance (vm : Vm) (mm : Mm) (sa : Sigaction) (act oldact : Uint64) :
    Decidable (Overwrites vm mm sa act oldact) := inferInstanceAs (Decidable (_ ∧ _))

/-- The bytes of an action start with its handler. -/
theorem ofBytes_saSigaction {bs : List Byte} :
    (Sigaction.ofBytes bs).saSigaction = SIG_DFL ↔
      ∀ (j : Nat) (h : j < bs.length), j < 8 → bs[j] = 0 := by
  have hword := @wordAt_eq_zero bs 0
  rw [Nat.mul_zero, List.drop_zero] at hword
  refine hword.trans ⟨fun hall j h hj => ?_, fun hall b hb => ?_⟩
  · exact hall _ (List.mem_take_iff_getElem.2 ⟨j, by omega, rfl⟩)
  · obtain ⟨j, hj, rfl⟩ := List.getElem_of_mem hb
    rw [List.length_take, Nat.lt_min] at hj
    rw [List.getElem_take]
    exact hall j hj.2 hj.1

/-- The second read of the new action finds the handler it had at the first, unless the old
action was written over it. -/
theorem second_read {vm : Vm} {mm : Mm} {sa : Sigaction} {act oldact : Uint64} {w : Int × Vm}
    (hallowed : sigactionAllowed vm mm act = true)
    (hw : w = (0, vm) ∨ w = copyToUser vm mm oldact sa.toBytes ∧ ¬ w.1 < 0 ∧
      ¬ Overwrites vm mm sa act oldact) {j : Nat} (hj : j < 8)
    (h : j < (copyFromUser w.2 mm act sizeofSigaction).2.length) :
    (copyFromUser w.2 mm act sizeofSigaction).2[j] = 0 := by
  simp only [sigactionAllowed, Bool.and_eq_true, Bool.not_eq_true', decide_eq_false_iff_not,
    beq_iff_eq] at hallowed
  obtain ⟨hread, hdfl⟩ := hallowed
  have hlen : (copyFromUser vm mm act sizeofSigaction).2.length = sizeofSigaction := by
    rcases copyFromUser_result vm mm act sizeofSigaction with ⟨-, hlen⟩ | ⟨hret, -⟩
    · exact hlen
    · have hneg : -EINVAL < 0 := by decide
      exact absurd hneg (hret ▸ hread)
  have hj' : j < (copyFromUser vm mm act sizeofSigaction).2.length := by
    rw [hlen, sizeofSigaction]
    omega
  -- the byte at the first read
  have hfirst := copyFromUser_getElem hj'
  rw [ofBytes_saSigaction.1 hdfl j hj' hj] at hfirst
  have hsecond := copyFromUser_getElem h
  rcases hw with rfl | ⟨hw, hcopied, hover⟩
  · exact Option.some.inj (hsecond.symm.trans hfirst)
  · obtain ⟨a, ha, hbyte⟩ := Option.map_eq_some_iff.1 hfirst
    have hpte : w.2.pte = vm.pte := by rw [hw, copyToUser_pte]
    rw [userByte, userPa_congr hpte, ha, Option.map_some, Option.some.injEq] at hsecond
    rw [← hsecond, hw]
    rcases copyToUser_byte vm mm oldact sa.toBytes a with hkeep | ⟨i, hi, hpa, hnew⟩
    · rw [hkeep, hbyte]
    · rw [hnew]
      by_contra hne
      rw [Sigaction.length_toBytes] at hi
      refine hover ⟨fun n hn => ?_, i, hi, j, hj, ?_, hpa.trans ha.symm⟩
      · exact copyToUser_mapped vm mm oldact sa.toBytes (hw ▸ hcopied) (by simpa using hn)
      · rwa [← List.getElem_eq_getD 0]

/-- The calls of `sys_sigaction` that change a disposition they must not change. -/
def Clobbers (vm : Vm) (mm : Mm) (p : Proc) (signo : Int) (act oldact : Uint64) : Prop :=
  ∃ s, toSigno signo = some s ∧ Fixed s ∧ act ≠ 0 ∧ oldact ≠ 0 ∧
    sigactionAllowed vm mm act = true ∧ Overwrites vm mm (p.signal.sa s) act oldact

instance (vm : Vm) (mm : Mm) (p : Proc) (signo : Int) (act oldact : Uint64) :
    Decidable (Clobbers vm mm p signo act oldact) := inferInstanceAs (Decidable (∃ _, _))

/-- **In no other case does a call change the disposition of `SIGKILL` or `SIGSTOP`.** -/
theorem sysSigaction_protected {mm : Mm} {p : Proc} {vm : Vm} {signo : Int} {act oldact : Uint64}
    (hp : Protected p.signal) (h : ¬ Clobbers vm mm p signo act oldact) :
    Protected (sysSigaction mm p vm signo act oldact).2.1.signal := by
  rw [sysSigaction]
  cases hsigno : toSigno signo with
  | none => exact hp
  | some s =>
    dsimp only
    split
    · exact hp
    rename_i hcheck
    set w :=
      if oldact ≠ 0 then copyToUser vm mm oldact (p.signal.sa s).toBytes else (0, vm) with hw
    split
    · exact hp
    rename_i hcopied
    split
    · rename_i hact
      intro n hn
      by_cases hns : n = s
      · subst hns
        have hallowed : sigactionAllowed vm mm act = true := by
          by_contra hno
          exact hcheck ⟨hn, hact, by simpa using hno⟩
        have hold : w = (0, vm) ∨ w = copyToUser vm mm oldact (p.signal.sa n).toBytes ∧ ¬ w.1 < 0 ∧
            ¬ Overwrites vm mm (p.signal.sa n) act oldact := by
          by_cases hzero : oldact = 0
          · exact .inl (by rw [hw, if_neg (not_not.2 hzero)])
          · refine .inr ⟨by rw [hw, if_pos hzero], hcopied, fun hover => h ?_⟩
            exact ⟨n, hsigno, hn, hact, hzero, hallowed, hover⟩
        simp only [Proc.setSa, Function.update_self]
        refine ofBytes_saSigaction.2 fun j hj hj8 => ?_
        rcases getElem_splice hj with ⟨hnew, heq⟩ | ⟨hkeep, heq⟩
        · rw [heq, second_read hallowed hold hj8]
        · rw [heq]
          have hdfl := hp n hn
          rw [← Sigaction.ofBytes_toBytes (p.signal.sa n)] at hdfl
          exact ofBytes_saSigaction.1 hdfl j hkeep hj8
      · simp only [Proc.setSa, Function.update_of_ne hns]
        exact hp n hn
    · exact hp

end SignalOS
