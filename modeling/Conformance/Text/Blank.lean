/-!
# Blank and control characters

The two classes of characters that a module pattern may not contain: white space as the Unicode
property `White_Space` lists it, and the control characters of category `Cc`.
-/

namespace Conformance.Text

/-- Has the character the property `White_Space`? -/
def isBlank (c : Char) : Bool :=
  let n := c.toNat
  (9 ≤ n && n ≤ 13) || n == 0x20 || n == 0x85 || n == 0xA0 || n == 0x1680
    || (0x2000 ≤ n && n ≤ 0x200A) || n == 0x2028 || n == 0x2029 || n == 0x202F || n == 0x205F
    || n == 0x3000

/-- Is the character a control character? -/
def isControl (c : Char) : Bool :=
  c.toNat ≤ 0x1F || (0x7F ≤ c.toNat && c.toNat ≤ 0x9F)

end Conformance.Text
