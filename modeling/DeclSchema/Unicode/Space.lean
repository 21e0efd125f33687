/-!
# White space

The white space of Unicode 14, with the four information separators U+001C to U+001F.
-/

namespace DeclSchema.Unicode

/-- The white space characters beyond ASCII. -/
def wideSpaces : List Nat :=
  [0x85, 0xa0, 0x1680, 0x2000, 0x2001, 0x2002, 0x2003, 0x2004, 0x2005, 0x2006, 0x2007, 0x2008,
   0x2009, 0x200a, 0x2028, 0x2029, 0x202f, 0x205f, 0x3000]

/-- Whether the character with a given code is white space. -/
def isSpaceCode (code : Nat) : Bool :=
  code == 0x20 || (0x9 ≤ code && code ≤ 0xd) || (0x1c ≤ code && code ≤ 0x1f)
    || wideSpaces.contains code

def isSpace (c : Char) : Bool :=
  isSpaceCode c.toNat

end DeclSchema.Unicode
