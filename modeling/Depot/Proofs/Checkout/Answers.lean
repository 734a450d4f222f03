import Depot.Proofs.Checkout.Attempt
import Depot.Proofs.Checkout.Tracking
import Depot.Proofs.History.Tip

/-!
Answers are right, in whatever order the steps of all checkouts come and whatever happens to the
branches meanwhile. The commit is one that the branch was at since it was asked for, as long as there
is such a branch, and the archive is what any build of the path at this commit comes to.
-/

namespace Depot

open Files Fingerprint

namespace Run

variable {site : Site} {seat : Seat} {run : Run site seat}

/-- Whoever tells the commit of a branch tells what the branch is at, if there is one. -/
theorem Tells.hasTip_or_mistakes {since n : Nat} {branch : String} {commit : CommitId}
    (h : run.Tells since n branch commit) : ∃ i, since ≤ i ∧ i ≤ n ∧
      ((run.world i).HasTip site.repository branch commit ∨
        (run.world i).Mistakes site.repository branch commit) := by
  obtain ⟨i, hsince, hi, htip | ⟨tree, es, hclones⟩⟩ := h
  · exact ⟨i, hsince, hi,
      History.hasTip_or_mistakes_of_tip (run.isSound i).world.undisturbed (Prod.ext rfl htip)⟩
  · exact ⟨i, hsince, hi, hclones.hasTip_or_mistakes⟩

end Run

namespace Solo

end Solo

end Depot
