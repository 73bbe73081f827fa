/-!
# White space

The characters that separate words. Up to U+0377 these are the space, the controls from tab to
carriage return, and the no-break space; so the control U+0085 is not among them, though it has the
property `White_Space`. Above, the property decides.
-/

namespace Streaming.Text

/-- The code points above U+0377 that have the property `White_Space`, as ranges. -/
def whiteSpaceRanges : List (Nat × Nat) :=
  [(0x1680, 0x1680), (0x2000, 0x200A), (0x2028, 0x2029), (0x202F, 0x202F), (0x205F, 0x205F),
   (0x3000, 0x3000)]

/-- Whether a character separates words. -/
def isSpace (c : Char) : Bool :=
  if c ≤ '\u0377' then c == ' ' || ('\t' ≤ c && c ≤ '\r') || c == '\u00A0'
  else whiteSpaceRanges.any fun r => r.1 ≤ c.toNat && c.toNat ≤ r.2

end Streaming.Text
