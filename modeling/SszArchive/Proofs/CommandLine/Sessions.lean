import SszArchive.Proofs.CommandLine.Commands
import SszArchive.Proofs.CommandLine.Written
import SszArchive.Proofs.CommittedChains

/-!
Sessions of diff commands on one store directory, and the apply command that ends them. The commands
may compress and verify as they like, other files may change in between, and the directory may hold
what earlier sessions left.
-/

namespace SszArchive.CommandLine

open FileTree

variable {t u : FileTree} {root : Place} {m : Memory} {strings : List Bytes}

/-! ## One command -/

namespace DiffCommand

variable {c : DiffCommand}

/-- The step as a commit over a memory acknowledges it. -/
def receipt (c : DiffCommand) : Receipt := ⟨c.base, c.target, c.step.id, c.step.payload⟩

end DiffCommand

/-! ## Sessions -/

section

variable [Codecs]

/-- Diff commands one after the other, each with its result. In between, anything may change but
what is beneath `root`. -/
inductive Session (root : Place) : FileTree → List (DiffCommand × Result) → FileTree → Prop where
  | done (t : FileTree) : Session root t [] t
  | diff {c : DiffCommand} {t u : FileTree} {rest : List (DiffCommand × Result)} :
      c.Reads root t → Session root (run c.args t).tree rest u →
        Session root t ((c, run c.args t) :: rest) u
  | elsewhere {t u v : FileTree} {done : List (DiffCommand × Result)} :
      SameBeneath root t u → Session root u done v → Session root t done v

end

/-! ## A session -/

end SszArchive.CommandLine
