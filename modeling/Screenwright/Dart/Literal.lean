namespace Screenwright.Dart

def escape : Char → List Char
  | '\\' => ['\\', '\\']
  | '\'' => ['\\', '\'']
  | '$' => ['\\', '$']
  | '\n' => ['\\', 'n']
  | '\r' => ['\\', 'r']
  | '\t' => ['\\', 't']
  | c => [c]

/-- A text as a literal. Besides quotes and backslashes the dollar sign is escaped, so no text can
end its literal or start an interpolation, and no literal holds a line break. -/
def quote (s : String) : String := "'" ++ String.ofList (s.toList.flatMap escape) ++ "'"

end Screenwright.Dart
