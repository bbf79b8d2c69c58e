/-!
Blank characters. A character is blank when it has the Unicode property White_Space, which is a table of
twenty-five code points. Every character that core calls whitespace is in it.
-/

namespace OcCompiler.Text

def blankCodes : List Nat :=
  [0x09, 0x0A, 0x0B, 0x0C, 0x0D, 0x20, 0x85, 0xA0, 0x1680,
   0x2000, 0x2001, 0x2002, 0x2003, 0x2004, 0x2005, 0x2006, 0x2007, 0x2008, 0x2009, 0x200A,
   0x2028, 0x2029, 0x202F, 0x205F, 0x3000]

def isBlank (c : Char) : Bool := blankCodes.contains c.toNat

def trimStart (cs : List Char) : List Char := cs.dropWhile isBlank

example : blankCodes.length = 25 := rfl

end OcCompiler.Text
