import FunctionIR.Text.Emoji
import FunctionIR.Text.Ligature

/-!
# The columns of a text

A text takes the columns of its characters together, except where characters
are drawn as one.  Letters do that in some scripts, and so do emoji: a tone
of skin colours the picture before it, pictures with joiners between them are
one picture, and a selector decides whether a character is a picture.

The columns are counted from the end of the text.  What stands behind a
character is remembered as a `Follower`, as far as it matters to the
characters before it, and a selector just behind it as a `Selector`.
-/

namespace FunctionIR.Text

/-- What a selector asks the character before it to be. -/
inductive Selector where
  /-- Plain text. -/
  | plain
  /-- A picture. -/
  | picture
  /-- As wide as an ideograph. -/
  | ideographic
deriving DecidableEq

/-- The selector that a character is. -/
def Selector.ofChar? (c : Char) : Option Selector :=
  if c = '\uFE0E' then some .plain
  else if c = '\uFE0F' then some .picture
  else if c = '\uFE01' then some .ideographic
  else none

/-- What stands behind a character. -/
inductive Follower where
  /-- Nothing that matters. -/
  | nothing
  /-- An Arabic alef, perhaps with marks before it. -/
  | alef
  /-- The end of a glyph of several letters, perhaps with a joiner before
  it. -/
  | glyph (part : GlyphEnd) (joined : Bool)
  /-- An odd number of Kirat Rai vowels that are drawn in pairs. -/
  | vowel
  /-- An even number of them. -/
  | vowels
  | picture
  | skinTone
  | flagLetter
  /-- Two or more letters of flags. -/
  | flagLetters
  /-- A joiner and a picture. -/
  | joinedPicture
  /-- A key's frame, a joiner and a picture. -/
  | joinedFrame
  /-- A letter of a flag, a joiner and a picture. -/
  | joinedFlagLetter
  /-- Two or more letters of flags, an even number of them or an odd, a
  joiner and a picture. -/
  | joinedFlagLetters (even : Bool)
  /-- That many characters of a region's name, its end, a joiner and a
  picture. -/
  | joinedRegion (length : Nat)
deriving DecidableEq

namespace Follower

/-- What a character is to the characters before it, when it stands by
itself. -/
def ofChar (c : Char) : Follower :=
  if isPicture c then .picture
  else if isSkinTone c then .skinTone
  else if isFlagLetter c then .flagLetter
  else if isAlef c then .alef
  else if c.toNat = 0x16D67 then .vowel
  else if c.toNat = 0x16D68 then .vowels
  else
    match GlyphEnd.ofChar? c with
    | some part => .glyph part false
    | none => .nothing

/-- The follower, if it is one of letters: only letters are drawn as one
across a selector that has no effect. -/
def letters : Follower → Follower
  | .alef => .alef
  | .glyph part joined => .glyph part joined
  | _ => .nothing

/-- The follower wants a picture to be joined to it. -/
def wantsPicture : Follower → Bool
  | .joinedPicture | .joinedFrame => true
  | _ => false

/-- The follower with a selector before it. -/
def behind (selector : Selector) (follower : Follower) : Follower :=
  if follower.wantsPicture && selector == .picture then follower
  else follower.letters

/-- What a character comes to that is drawn as one with what follows it: the
columns that it adds, and what the two are to the characters before them. -/
def join? (c : Char) : Follower → Option (Int × Follower)
  | .nothing => none
  | .alef =>
    if isLam c then some (0, .nothing)
    else if isArabicMark c then some (0, .alef)
    else none
  | .glyph part joined =>
    if c = joiner then some (0, .glyph part true)
    else if isGlyphMark c then some (0, .glyph part joined)
    else
      match part.before? joined c with
      | some (columns, .completes) => some (columns, .nothing)
      | some (columns, .continues part) => some (columns, .glyph part true)
      | none => none
  | .vowel =>
    if c.toNat = 0x16D63 ∨ c.toNat = 0x16D69 then some (0, .nothing)
    else if c.toNat = 0x16D67 then some (0, .vowels)
    else if c.toNat = 0x16D68 then some (1, .vowel)
    else none
  | .vowels => if c.toNat = 0x16D63 then some (0, .nothing) else none
  | .picture => if c = joiner then some (0, .joinedPicture) else none
  | .skinTone =>
    if c = joiner then some (0, .joinedPicture)
    else if takesSkinTone c then some (0, .picture)
    else none
  | .flagLetter => if isFlagLetter c then some (1, .flagLetters) else none
  | .flagLetters =>
    if c = joiner then some (0, .joinedPicture)
    else if isFlagLetter c then some (1, .flagLetters)
    else none
  | .joinedPicture =>
    if c.toNat = 0x20E3 then some (0, .joinedFrame)
    else if isFlagLetter c then some (1, .joinedFlagLetter)
    else if isSkinTone c then some (0, .skinTone)
    else if endsRegion c then some (0, .joinedRegion 0)
    else if isPicture c then some (0, .picture)
    else none
  | .joinedFrame => none
  | .joinedFlagLetter =>
    if isFlagLetter c then some (-1, .joinedFlagLetters true) else none
  | .joinedFlagLetters even =>
    if c = joiner then some (0, .joinedPicture)
    else if isFlagLetter c then some (if even then 3 else -1, .joinedFlagLetters !even)
    else none
  | .joinedRegion length =>
    if isRegionTag c then some (0, .joinedRegion (length + 1))
    else if isBlackFlag c && 3 ≤ length && length ≤ 6 then some (0, .picture)
    else none

end Follower

/-- The quotation marks that can be as wide as an ideograph. -/
def isQuotationMark (c : Char) : Bool :=
  inRanges [(0x2018, 0x2019), (0x201C, 0x201D)] c

/-- What a character comes to that does what the selector behind it asks. -/
def Selector.select? (selector : Selector) (follower : Follower) (c : Char) :
    Option (Int × Follower) :=
  match selector with
  | .picture =>
    if canBePicture c then some (if follower.wantsPicture then 0 else 2, .picture)
    else none
  | .plain => if canBePlain c then some (1, .nothing) else none
  | .ideographic => if isQuotationMark c then some (2, .nothing) else none

/-- A place in a text: what follows it, and the selector just behind it. -/
structure Place where
  follower : Follower
  selector : Option Selector

namespace Place

/-- The end of a text. -/
def atEnd : Place := ⟨.nothing, none⟩

/-- A character before a place: the columns that it adds, and the place
before it. -/
def step (c : Char) (place : Place) : Int × Place :=
  match place.selector.bind fun selector => selector.select? place.follower c with
  | some (columns, follower) => (columns, ⟨follower, none⟩)
  | none =>
    let follower :=
      if place.selector.isSome then place.follower.letters else place.follower
    match Selector.ofChar? c with
    | some selector => (0, ⟨follower.behind selector, some selector⟩)
    | none =>
      match follower.join? c with
      | some (columns, follower) => (columns, ⟨follower, none⟩)
      | none => (charWidth c, ⟨.ofChar c, none⟩)

end Place

/-- The columns of characters, and the place before them. -/
def measure (chars : List Char) : Int × Place :=
  chars.foldr (fun c (columns, place) =>
    let (more, place) := place.step c
    (columns + more, place)) (0, .atEnd)

/-- The columns that a text takes. -/
def width (text : String) : Nat := (measure text.toList).1.toNat

end FunctionIR.Text
