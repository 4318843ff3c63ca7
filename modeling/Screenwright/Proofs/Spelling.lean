import Screenwright.Template.Builtin

namespace Screenwright.Proofs.Spelling
open Template

variable {cs name : List Char} {p : Piece} {ps : List Piece} {n : Nat}

def closing : List Char := ['\x7d', '\x7d']

/-- The builtin templates by name, in the order in which they are registered. -/
def templates : List (String × List Piece) :=
  ("screen", screenPage) :: ("main", mainFile) :: skeletonFiles

theorem get?_templates : ∀ e ∈ templates, builtin.get? e.1 = some e.2 := by
  simpa [templates, skeletonFiles] using ⟨rfl, rfl, rfl, rfl, rfl, rfl⟩

end Screenwright.Proofs.Spelling
