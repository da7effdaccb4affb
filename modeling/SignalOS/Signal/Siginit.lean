import SignalOS.Proc.Proc

/-!
# Initial signal state

`siginit`, `siginit_fork` and `siginit_exec` of `ksignal.c`.  Entry 0 of the
arrays belongs to no signal and is left alone by the loops.

* `Inherits` — what a process has from another one across forks and execs;
  `Inherits.fork`, `Inherits.exec` — **one more fork or exec keeps it**.
-/

namespace SignalOS

def defaultSigaction : Sigaction := ⟨SIG_DFL, sigemptyset, 0⟩

/-- `siginit(p)`. -/
def siginit (sig : Ksignal) : Ksignal :=
  { sig with
    sa := fun i => if i = 0 then sig.sa i else defaultSigaction
    sigmask := sigemptyset
    sigpending := sigemptyset }

/-- `siginit_fork(parent, child)`. -/
def siginitFork (parent child : Ksignal) : Ksignal :=
  { child with
    sa := fun i => if i = 0 then child.sa i else parent.sa i
    sigmask := parent.sigmask
    sigpending := sigemptyset }

/-- `siginit_exec(p)` for the current process: the mask and the pending signals are copied from
the process to itself. -/
def siginitExec (sig : Ksignal) : Ksignal :=
  { sig with
    sa := fun i =>
      if i = 0 then sig.sa i
      else if (sig.sa i).saSigaction ≠ SIG_IGN then defaultSigaction
      else { sig.sa i with saMask := sigemptyset, saRestorer := 0 } }

/-! ## Inheritance -/

/-- The dispositions, mask and pending signals `q` that a process has from one with `p`, after
forks and execs: `forked` and `execd` say whether there was one. -/
structure Inherits (p q : Ksignal) (forked execd : Bool) : Prop where
  sigmask : q.sigmask = p.sigmask
  ignored : ∀ signo, signo ≠ 0 → ((q.sa signo).saSigaction = SIG_IGN ↔ (p.sa signo).saSigaction =
    SIG_IGN)
  handlers : execd = false → ∀ signo, signo ≠ 0 → q.sa signo = p.sa signo
  reset : execd = true → ∀ signo, signo ≠ 0 → (p.sa signo).saSigaction ≠ SIG_IGN →
    (q.sa signo).saSigaction = SIG_DFL ∧ (q.sa signo).saMask = sigemptyset
  cleared : forked = true → q.sigpending = sigemptyset
  kept : forked = false → q.sigpending = p.sigpending

namespace Inherits

variable {p q : Ksignal} {forked execd : Bool}

theorem refl (p : Ksignal) : Inherits p p false false :=
  ⟨rfl, fun _ _ => Iff.rfl, fun _ _ _ => rfl, nofun, nofun, fun _ => rfl⟩

/-- A child has the dispositions and the mask of its parent, and nothing pending. -/
theorem fork (h : Inherits p q forked execd) (r : Ksignal) :
    Inherits p (siginitFork q r) true execd := by
  have hsa (signo : Signo) (hne : signo ≠ 0) : (siginitFork q r).sa signo = q.sa signo :=
    if_neg hne
  refine ⟨h.sigmask, fun signo hne => ?_, fun hexec signo hne => ?_, fun hexec signo hne => ?_,
    fun _ => rfl, nofun⟩
  · rw [hsa signo hne]
    exact h.ignored signo hne
  · rw [hsa signo hne]
    exact h.handlers hexec signo hne
  · rw [hsa signo hne]
    exact h.reset hexec signo hne

/-- `exec` keeps the mask, the pending signals and which signals are ignored. -/
theorem exec (h : Inherits p q forked execd) : Inherits p (siginitExec q) forked true := by
  have hsa (signo : Signo) (hne : signo ≠ 0) : (siginitExec q).sa signo =
      if (q.sa signo).saSigaction ≠ SIG_IGN then defaultSigaction
      else { q.sa signo with saMask := sigemptyset, saRestorer := 0 } := if_neg hne
  have hign : defaultSigaction.saSigaction ≠ SIG_IGN := by decide
  refine ⟨h.sigmask, fun signo hne => ?_, nofun, fun _ signo hne hcaught => ?_, h.cleared, h.kept⟩
  · rw [hsa signo hne, ← h.ignored signo hne]
    split
    · rename_i hcaught
      exact iff_of_false hign hcaught
    · exact Iff.rfl
  · rw [hsa signo hne, if_pos fun hq => hcaught ((h.ignored signo hne).1 hq)]
    exact ⟨rfl, rfl⟩

end Inherits

end SignalOS
