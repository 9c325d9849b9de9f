import FunctionIR.Text.Width

/-!
# Letters drawn as one

In some scripts certain letters in a row are drawn as one glyph, so that
together they take fewer columns than one by one.  Which letters do is told
from the end, because that is where the last letter of a glyph is met first:

* an Arabic lam before an alef, whatever marks stand between them;
* a Hebrew alef before a lamed, a Buginese letter with its vowel before the
  letter ya, and an Old Turkic letter pair, each with a joiner between;
* two Tifinagh consonants with a joiner of either kind between them;
* the two signs of a Lisu tone;
* a Khmer letter below the line, which a sign before it asks for.

Except for Arabic, invisible marks that only choose between glyphs can stand
anywhere in between.
-/

namespace FunctionIR.Text

/-- The joiner that stands for no sound. -/
def joiner : Char := '\u200D'

/-- The invisible marks that choose between glyphs. -/
def isGlyphMark (c : Char) : Bool :=
  inRanges [(0x34F, 0x34F), (0x17B4, 0x17B5), (0x180B, 0x180D), (0x180F, 0x180F),
    (0xFE00, 0xFE0F), (0xE0100, 0xE01EF)] c

/-- The Arabic letters lam. -/
def isLam (c : Char) : Bool :=
  inRanges [(0x644, 0x644), (0x6B5, 0x6B8), (0x76A, 0x76A), (0x8A6, 0x8A6),
    (0x8C7, 0x8C7)] c

/-- The Arabic letters alef. -/
def isAlef (c : Char) : Bool :=
  inRanges [(0x622, 0x623), (0x625, 0x625), (0x627, 0x627), (0x671, 0x673),
    (0x675, 0x675), (0x773, 0x774), (0x870, 0x882)] c

/-- The characters without a column of their own that nevertheless separate
Arabic letters. -/
def separatingRanges : List (Nat × Nat) := [
  (0x605, 0x605), (0x890, 0x891), (0x8E2, 0x8E2), (0x9BE, 0x9BE),
  (0x9D7, 0x9D7), (0xB3E, 0xB3E), (0xB57, 0xB57), (0xBBE, 0xBBE),
  (0xBD7, 0xBD7), (0xCC0, 0xCC0), (0xCC2, 0xCC2), (0xCC7, 0xCC8),
  (0xCCA, 0xCCB), (0xCD5, 0xCD6), (0xD3E, 0xD3E), (0xD4E, 0xD4E),
  (0xD57, 0xD57), (0xDCF, 0xDCF), (0xDDF, 0xDDF), (0x1160, 0x11FF),
  (0x1715, 0x1715), (0x1734, 0x1734), (0x180E, 0x180E), (0x1B35, 0x1B35),
  (0x1B3B, 0x1B3B), (0x1B3D, 0x1B3D), (0x1B43, 0x1B44), (0x1BAA, 0x1BAA),
  (0x1BF2, 0x1BF3), (0x200C, 0x200D), (0x2065, 0x2069), (0x302E, 0x302F),
  (0x3164, 0x3164), (0xA8FA, 0xA8FA), (0xA953, 0xA953), (0xA9C0, 0xA9C0),
  (0xD7B0, 0xD7C6), (0xD7CB, 0xD7FB), (0xFFA0, 0xFFA0), (0xFFF0, 0xFFF8),
  (0x111C0, 0x111C0), (0x111C2, 0x111C3), (0x11235, 0x11235), (0x1133E, 0x1133E),
  (0x1134D, 0x1134D), (0x11357, 0x11357), (0x113B8, 0x113B8), (0x113C2, 0x113C2),
  (0x113C5, 0x113C5), (0x113C7, 0x113C9), (0x113CF, 0x113CF), (0x113D1, 0x113D1),
  (0x114B0, 0x114B0), (0x114BD, 0x114BD), (0x115AF, 0x115AF), (0x116B6, 0x116B6),
  (0x11930, 0x11930), (0x1193D, 0x1193D), (0x1193F, 0x1193F), (0x11941, 0x11941),
  (0x11A84, 0x11A89), (0x11D46, 0x11D46), (0x11F02, 0x11F02), (0x11F41, 0x11F41),
  (0x16FF0, 0x16FF1), (0x1D165, 0x1D166), (0x1D16D, 0x1D172), (0xE0000, 0xE0000),
  (0xE0002, 0xE001F), (0xE0080, 0xE00FF), (0xE01F0, 0xE0FFF)]

/-- The character is a mark that Arabic letters join across. -/
def isArabicMark (c : Char) : Bool :=
  charWidth c == 0 && !inRanges separatingRanges c

/-- The Tifinagh consonants. -/
def isTifinaghConsonant (c : Char) : Bool :=
  inRanges [(0x2D31, 0x2D65), (0x2D6F, 0x2D6F)] c

/-- The Khmer letters that can stand below the line. -/
def isKhmerLetter (c : Char) : Bool :=
  inRanges [(0x1780, 0x1782), (0x1784, 0x1787), (0x1789, 0x178C), (0x178E, 0x1793),
    (0x1795, 0x1798), (0x179B, 0x179D), (0x17A0, 0x17A0), (0x17A2, 0x17A2),
    (0x17A7, 0x17A7), (0x17AB, 0x17AC), (0x17AF, 0x17AF)] c

/-- The first signs of a Lisu tone. -/
def isLisuTone (c : Char) : Bool := inRanges [(0xA4F8, 0xA4FB)] c

/-- The second signs of a Lisu tone. -/
def isLisuToneEnd (c : Char) : Bool := inRanges [(0xA4FC, 0xA4FD)] c

/-- The part of a glyph of several letters that has been met, from the end. -/
inductive GlyphEnd where
  | lamed
  | ya
  /-- The Buginese vowel with the letter ya after it. -/
  | vowelAndYa
  | consonant
  /-- The Tifinagh joiner with a consonant after it. -/
  | joinerAndConsonant
  | tone
  | orkhonI
  | khmerLetter
deriving DecidableEq

/-- The end of a glyph that a character can be. -/
def GlyphEnd.ofChar? (c : Char) : Option GlyphEnd :=
  if c.toNat = 0x5DC then some .lamed
  else if c.toNat = 0x1A10 then some .ya
  else if c.toNat = 0x10C03 then some .orkhonI
  else if isTifinaghConsonant c then some .consonant
  else if isLisuToneEnd c then some .tone
  else if isKhmerLetter c then some .khmerLetter
  else none

/-- What a character before the end of a glyph does: it can complete the
glyph, or it can be a further part of it. -/
inductive GlyphStep where
  | completes
  | continues (part : GlyphEnd)

/-- What a character does before the end of a glyph, if it belongs to the
glyph, with the columns it adds.  `joined` says that a joiner stands between
the two. -/
def GlyphEnd.before? (joined : Bool) (c : Char) : GlyphEnd → Option (Int × GlyphStep)
  | .lamed => if joined && c.toNat == 0x5D0 then some (0, .completes) else none
  | .ya => if joined && c.toNat == 0x1A17 then some (0, .continues .vowelAndYa) else none
  | .vowelAndYa => if c.toNat = 0x1A15 then some (0, .completes) else none
  | .consonant =>
    if c.toNat = 0x2D7F then some (1, .continues .joinerAndConsonant)
    else if joined && isTifinaghConsonant c then some (0, .completes)
    else none
  | .joinerAndConsonant =>
    if isTifinaghConsonant c then some (-1, .completes) else none
  | .tone => if isLisuTone c then some (0, .completes) else none
  | .orkhonI => if joined && c.toNat == 0x10C32 then some (0, .completes) else none
  | .khmerLetter => if c.toNat = 0x17D2 then some (-1, .completes) else none

end FunctionIR.Text
