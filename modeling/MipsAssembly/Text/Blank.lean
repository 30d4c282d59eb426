/-!
# White space

`isBlank` tells the white space of a source line: the characters with the Unicode property
`White_Space`, twenty-five in all.  The zero-width characters U+200B, U+2060 and U+FEFF and
the Mongolian vowel separator U+180E do not have it.
-/

namespace MipsAssembly

/-- The code points of the characters with the property `White_Space`. -/
def blankCodes : List Nat :=
  [0x9, 0xA, 0xB, 0xC, 0xD, 0x20, 0x85, 0xA0, 0x1680,
   0x2000, 0x2001, 0x2002, 0x2003, 0x2004, 0x2005, 0x2006, 0x2007, 0x2008, 0x2009, 0x200A,
   0x2028, 0x2029, 0x202F, 0x205F, 0x3000]

/-- White space separates tokens and means nothing else. -/
def isBlank (c : Char) : Bool :=
  blankCodes.contains c.toNat

end MipsAssembly
