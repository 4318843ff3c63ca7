import Screenwright.Text.Blank
import Screenwright.Text.Digits

namespace Screenwright.Style

/-- A color with eight bits a channel. -/
structure Color where
  red : UInt8
  green : UInt8
  blue : UInt8
  alpha : UInt8
deriving DecidableEq

namespace Color

def opaqueOf (red green blue : UInt8) : Color := ⟨red, green, blue, 255⟩

def black : Color := opaqueOf 0 0 0

def channel (high low : Nat) : UInt8 := UInt8.ofNat (16 * high + low)

/-- Reads three, six or eight hexadecimal digits behind any number of hash signs. Each of
three digits stands for two of the same; the last two of eight are the alpha channel. -/
def ofHex? (s : String) : Option Color := do
  let digits ← (s.toList.dropWhile (· = '#')).mapM Text.hexValue?
  match digits with
  | [r, g, b] => some (opaqueOf (channel r r) (channel g g) (channel b b))
  | [r, r', g, g', b, b'] => some (opaqueOf (channel r r') (channel g g') (channel b b'))
  | [r, r', g, g', b, b', a, a'] =>
    some ⟨channel r r', channel g g', channel b b', channel a a'⟩
  | _ => none

/-- Alpha, red, green and blue as one number, from the highest byte down. -/
def argb (c : Color) : Nat :=
  ((c.alpha.toNat * 256 + c.red.toNat) * 256 + c.green.toNat) * 256 + c.blue.toNat

end Color

/-- A converted color token; what is not understood falls back to black. -/
inductive ColorValue where
  | transparent
  | solid (color : Color)
  | fallback
deriving DecidableEq

namespace ColorValue

/-- The empty token, `transparent` and `none` are transparent; a hash sign starts a
hexadecimal color. -/
def ofToken (token : String) : ColorValue :=
  let token := Text.trim token
  if token = "" ∨ token = "transparent" ∨ token = "none" then .transparent
  else if token.toList.head? = some '#' then
    match Color.ofHex? token with
    | some c => .solid c
    | none => .fallback
  else .fallback

def ofText (token : Option String) : ColorValue := ofToken (token.getD "")

/-- The color of a border: the last word of its width, style and color. -/
def ofBorder (border : Option String) : ColorValue :=
  ofText (border.bind fun b => (Text.words b).getLast?)

end ColorValue
end Screenwright.Style
