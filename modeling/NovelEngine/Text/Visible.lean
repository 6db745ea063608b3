/-!
# Visible text

A text may hold control sequences that a terminal obeys and does not show: colours, movements of the
cursor, window titles. `visibleText` is what remains without them and without other control characters.
A text without any of these stays as it is (`visibleText_eq_self`).
-/
namespace NovelEngine

/-- Whether a character shows when it stands in plain text. Control characters do not, white space apart. -/
def isVisible (c : Char) : Bool :=
  (' ' ≤ c && c != '\x7f') || c == '\t' || c == '\n' || c == '\x0c' || c == '\r'

def isAscii (c : Char) : Bool := c < '\x80'

/-- Whether the single byte that ends a string stands in the encoding of a character. -/
def holdsTerminator (c : Char) : Bool := (String.utf8EncodeChar c).contains 0x9C

/-- How far the characters between the start and the end of a sequence have come. -/
inductive SequencePart
  | start
  | parameters
  | intermediates
  deriving DecidableEq, Inhabited

/-- The part that a character from the blank to `?` belongs to; none if it may not stand there. -/
def SequencePart.next? (p : SequencePart) (c : Char) : Option SequencePart :=
  if c < '0' then some .intermediates
  else match p with
    | start => some .parameters
    | parameters => if c < '<' then some .parameters else none
    | intermediates => none

/-- What the next character of a text is part of. A string runs up to its end whatever it holds. -/
inductive TextContext
  | plain
  | escape
  | escapeIntermediate
  | control (part : SequencePart)
  | controlRest
  | device (part : SequencePart)
  | title
  | string
  deriving DecidableEq, Inhabited

namespace TextContext

/-- The context behind a character that the escape character announces. -/
def ofIntroducer (c : Char) : TextContext :=
  if c < '0' then escapeIntermediate
  else if c = '[' then control .start
  else if c = 'P' then device .start
  else if c = ']' then title
  else if c = 'X' ∨ c = '^' ∨ c = '_' then string
  else plain

/-- The context behind one of the characters from the blank to `~`. -/
def nextGraphic (k : TextContext) (c : Char) : TextContext :=
  match k with
  | plain => plain
  | escape => ofIntroducer c
  | escapeIntermediate => if c < '0' then escapeIntermediate else plain
  | control p => if c < '@' then (p.next? c).elim controlRest control else plain
  | controlRest => if c < '@' then controlRest else plain
  | device p => if c < '@' then (p.next? c).elim string device else string
  | title => title
  | string => string

/-- The context behind a character. -/
def next (k : TextContext) (c : Char) : TextContext :=
  if c = '\x1b' then escape
  else if c = '\x18' ∨ c = '\x1a' then plain
  else if isAscii c then
    if ' ' ≤ c ∧ c ≠ '\x7f' then k.nextGraphic c
    else if k = title ∧ c = '\x07' then plain
    else k
  else if k = string ∧ holdsTerminator c then plain
  else k

/-- Whether a character shows; within a sequence only white space does, and within a string nothing. -/
def shows (k : TextContext) (c : Char) : Bool :=
  match k with
  | plain => isVisible c
  | escape | escapeIntermediate | control _ | controlRest => isVisible c && c < ' '
  | device _ | title | string => false

/-- What shows of the characters that stand in a context. White space breaks a sequence: the characters
behind it show up to the next one that never does, and there the sequence goes on, unless one that is
not ASCII has ended it. -/
def visibleChars : (k : TextContext) → (broken : Bool) → List Char → List Char
  | _, _, [] => []
  | k, broken, c :: cs =>
    if broken ∧ isVisible c then c :: visibleChars (if isAscii c then k else plain) true cs
    else if k.shows c then c :: visibleChars (k.next c) true cs
    else visibleChars (k.next c) false cs

end TextContext

def visibleText (s : String) : String := String.ofList (TextContext.plain.visibleChars true s.toList)

theorem TextContext.visibleChars_sublist (k : TextContext) (broken : Bool) (cs : List Char) :
    (k.visibleChars broken cs).Sublist cs := by
  induction cs generalizing k broken with
  | nil => exact List.Sublist.refl _
  | cons c cs ih =>
    unfold visibleChars
    split
    · exact (ih _ _).cons_cons c
    · split
      · exact (ih _ _).cons_cons c
      · exact (ih _ _).cons c

theorem TextContext.visibleChars_eq_self {cs : List Char} (h : cs.all isVisible = true) :
    plain.visibleChars true cs = cs := by
  induction cs with
  | nil => rfl
  | cons c cs ih =>
    rw [List.all_cons, Bool.and_eq_true] at h
    simp [visibleChars, h.1, ih h.2]

theorem visibleText_eq_self {s : String} (h : s.toList.all isVisible = true) : visibleText s = s := by
  rw [visibleText, TextContext.visibleChars_eq_self h, String.ofList_toList]

end NovelEngine
