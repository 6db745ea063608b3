/-!
# The words of TOML

Blanks, line ends, strings, keys, numbers and dates. A scanner reads a word from the front of a text and
leaves the rest; it fails where no such word stands.
-/
namespace NovelEngine.Toml.Lexeme

abbrev Scan (α : Type) := List Char → Option (α × List Char)

def isSpace (c : Char) : Bool := c == ' ' || c == '\t'

def skipSpaces (cs : List Char) : List Char := cs.dropWhile isSpace

/-- Whether a character may stand in comments and, quotes and backslashes apart, in strings. -/
def isText (c : Char) : Bool := c == '\t' || (' ' ≤ c && c ≤ '~') || 0x80 ≤ c.toNat

def newline? : List Char → Option (List Char)
  | '\n' :: rest => some rest
  | '\r' :: '\n' :: rest => some rest
  | _ => none

/-- The end of a line or of the text, with blanks and a comment before it. -/
def lineEnd (cs : List Char) : Option (List Char) :=
  let cs := match skipSpaces cs with
    | '#' :: rest => rest.dropWhile isText
    | rest => rest
  match cs with
  | [] => some []
  | cs => newline? cs

/-- Skips blanks and newlines. -/
def skipSpacesAndNewlines : List Char → List Char
  | ' ' :: rest | '\t' :: rest | '\n' :: rest => skipSpacesAndNewlines rest
  | '\r' :: '\n' :: rest => skipSpacesAndNewlines rest
  | cs => cs

/-- Skips blanks, newlines and comments; a comment has to end in a newline. -/
def skipLines (inComment : Bool) : List Char → Option (List Char)
  | '\n' :: rest => skipLines false rest
  | '\r' :: '\n' :: rest => skipLines false rest
  | '\r' :: _ => none
  | c :: rest =>
    if inComment then if isText c then skipLines true rest else none
    else if isSpace c then skipLines false rest
    else if c = '#' then skipLines true rest
    else some (c :: rest)
  | [] => if inComment then none else some []

def hexDigit? (c : Char) : Option Nat :=
  if '0' ≤ c ∧ c ≤ '9' then some (c.toNat - 48)
  else if 'a' ≤ c ∧ c ≤ 'f' then some (c.toNat - 87)
  else if 'A' ≤ c ∧ c ≤ 'F' then some (c.toNat - 55)
  else none

/-- The character whose code is spelled by the next `count` hexadecimal digits. -/
def codePoint (count : Nat) : Scan Char := fun cs => do
  let digits ← (cs.take count).mapM hexDigit?
  let code := digits.foldl (fun n d => 16 * n + d) 0
  if digits.length = count ∧ code.isValidChar then some (Char.ofNat code, cs.drop count) else none

/-- What follows a backslash. -/
def escape : Scan Char
  | 'b' :: rest => some ('\x08', rest)
  | 't' :: rest => some ('\t', rest)
  | 'n' :: rest => some ('\n', rest)
  | 'f' :: rest => some ('\x0c', rest)
  | 'r' :: rest => some ('\r', rest)
  | '"' :: rest => some ('"', rest)
  | '\\' :: rest => some ('\\', rest)
  | 'u' :: rest => codePoint 4 rest
  | 'U' :: rest => codePoint 8 rest
  | _ => none

/-- The text of a string up to its closing `quote`; only between double quotes are there escapes. -/
def quotedBody (quote : Char) : (fuel : Nat) → Scan (List Char)
  | 0, _ => none
  | _, [] => none
  | fuel + 1, c :: rest =>
    if c = quote then some ([], rest)
    else if c = '\\' ∧ quote = '"' then do
      let (e, rest) ← escape rest
      let (cs, rest) ← quotedBody quote fuel rest
      return (e :: cs, rest)
    else if isText c then do
      let (cs, rest) ← quotedBody quote fuel rest
      return (c :: cs, rest)
    else none

/-- Where a line ends in a backslash, the text goes on at the next character that is not blank. -/
def continuation? (cs : List Char) : Option (List Char) :=
  (newline? (skipSpaces cs)).map skipSpacesAndNewlines

/-- Up to two quotes may stand right before the three that close a string. -/
def lastQuotes (quote : Char) : List Char → List Char × List Char
  | a :: b :: rest =>
    if a = quote ∧ b = quote then ([a, b], rest)
    else if a = quote then ([a], b :: rest)
    else ([], a :: b :: rest)
  | [a] => if a = quote then ([a], []) else ([], [a])
  | [] => ([], [])

/-- The text of a string that three quotes close; its newlines are all plain ones. -/
def tripleBody (quote : Char) : (fuel : Nat) → Scan (List Char)
  | 0, _ => none
  | fuel + 1, cs =>
    let keep (c : Char) (rest : List Char) : Option (List Char × List Char) :=
      (tripleBody quote fuel rest).map fun r => (c :: r.1, r.2)
    match cs with
    | [] => none
    | '\r' :: '\n' :: rest => keep '\n' rest
    | '\n' :: rest => keep '\n' rest
    | c :: rest =>
      if c = quote then
        if rest.take 2 = [quote, quote] then some (lastQuotes quote (rest.drop 2)) else keep c rest
      else if c = '\\' ∧ quote = '"' then
        match continuation? rest with
        | some rest => tripleBody quote fuel rest
        | none => do
          let (e, rest) ← escape rest
          keep e rest
      else if isText c then keep c rest
      else none

def quoted (quote : Char) : Scan String
  | c :: rest =>
    if c = quote then (quotedBody quote rest.length rest).map fun r => (String.ofList r.1, r.2) else none
  | [] => none

/-- A newline right after the opening quotes does not count. -/
def triple (quote : Char) : Scan String := fun cs =>
  if cs.take 3 = [quote, quote, quote] then
    let rest := cs.drop 3
    let rest := (newline? rest).getD rest
    (tripleBody quote rest.length rest).map fun r => (String.ofList r.1, r.2)
  else none

def anyString : Scan String := fun cs =>
  if cs.take 3 = ['"', '"', '"'] then triple '"' cs
  else if cs.take 3 = ['\'', '\'', '\''] then triple '\'' cs
  else quoted '"' cs <|> quoted '\'' cs

def isKeyChar (c : Char) : Bool := c.isAlphanum || c == '-' || c == '_'

def simpleKey : Scan String := fun cs =>
  match cs with
  | '"' :: _ => quoted '"' cs
  | '\'' :: _ => quoted '\'' cs
  | _ =>
    match cs.takeWhile isKeyChar with
    | [] => none
    | key => some (String.ofList key, cs.dropWhile isKeyChar)

/-- Simple keys with dots between them and blanks around them. -/
def dottedKeys : (fuel : Nat) → Scan (List String)
  | 0, _ => none
  | fuel + 1, cs => do
    let (key, rest) ← simpleKey (skipSpaces cs)
    match skipSpaces rest with
    | '.' :: rest =>
      let (keys, rest) ← dottedKeys fuel rest
      return (key :: keys, rest)
    | rest => return ([key], rest)

/-- The most keys that a dotted key may have, and the most brackets that may be open. -/
def nestingLimit : Nat := 79

/-- A dotted key, as the keys before the last and the last. -/
def keyPath : Scan (List String × String) := fun cs => do
  let (keys, rest) ← dottedKeys (cs.length + 1) cs
  let last ← keys.getLast?
  if keys.length ≤ nestingLimit then some ((keys.dropLast, last), rest) else none

/-- Digits, each with an underscore before it or not. -/
def moreDigits (isDigit : Char → Bool) : List Char → List Char × List Char
  | '_' :: d :: rest =>
    if isDigit d then
      let r := moreDigits isDigit rest
      (d :: r.1, r.2)
    else ([], '_' :: d :: rest)
  | d :: rest =>
    if isDigit d then
      let r := moreDigits isDigit rest
      (d :: r.1, r.2)
    else ([], d :: rest)
  | [] => ([], [])

/-- One or more digits; underscores may stand between them. -/
def digits (isDigit : Char → Bool) : Scan (List Char)
  | d :: rest =>
    if isDigit d then
      let r := moreDigits isDigit rest
      some (d :: r.1, r.2)
    else none
  | [] => none

/-- Decimal digits without a leading zero. -/
def plainDigits : Scan (List Char)
  | '0' :: rest => some (['0'], rest)
  | cs => digits Char.isDigit cs

/-- A sign, if there is one; tells whether it is a minus. -/
def sign : List Char → Bool × List Char
  | '-' :: rest => (true, rest)
  | '+' :: rest => (false, rest)
  | cs => (false, cs)

def natOf (base : Nat) (ds : List Char) : Nat := ds.foldl (fun n d => base * n + (hexDigit? d).getD 0) 0

/-- Integers have 64 bits. -/
def inRange (n : Int) : Option Int :=
  if -0x8000000000000000 ≤ n ∧ n < 0x8000000000000000 then some n else none

def integer : Scan Int := fun cs => do
  let based (base : Nat) (isDigit : Char → Bool) (rest : List Char) : Option (Int × List Char) := do
    let (ds, rest) ← digits isDigit rest
    return (← inRange (natOf base ds), rest)
  match cs with
  | '0' :: 'x' :: rest => based 16 (fun c => (hexDigit? c).isSome) rest
  | '0' :: 'o' :: rest => based 8 (fun c => '0' ≤ c && c ≤ '7') rest
  | '0' :: 'b' :: rest => based 2 (fun c => c == '0' || c == '1') rest
  | cs =>
    let (negative, rest) := sign cs
    let (ds, rest) ← plainDigits rest
    let n : Int := natOf 10 ds
    return (← inRange (if negative then -n else n), rest)

/-- Whether `mantissa` times ten to the `exponent` is too large for a 64-bit float: it is when it is
rounded up to two to the 1024th. -/
def isHuge (mantissa : Nat) (exponent : Int) : Bool :=
  let limit := 0x3fffffffffffff <<< 970
  let size : Int := (Nat.toDigits 10 mantissa).length + exponent
  if mantissa = 0 ∨ size < 308 then false
  else if 310 < size then true
  else if 0 ≤ exponent then limit ≤ mantissa * Nat.pow 10 exponent.toNat
  else limit * Nat.pow 10 (-exponent).toNat ≤ mantissa

def exponent? : Scan Int
  | c :: rest =>
    if c = 'e' ∨ c = 'E' then do
      let (negative, rest) := sign rest
      let (ds, rest) ← digits Char.isDigit rest
      let n : Int := natOf 10 ds
      return (if negative then -n else n, rest)
    else none
  | [] => none

/-- A number with a fraction or an exponent. One that is too large is none, unless it is negative. -/
def decimal : Scan Unit := fun cs => do
  let (negative, rest) := sign cs
  let (whole, rest) ← plainDigits rest
  let (fraction, exponent, rest) ←
    match rest with
    | '.' :: rest => do
      let (fraction, rest) ← digits Char.isDigit rest
      match exponent? rest with
      | some (e, rest) => some (fraction, e, rest)
      | none => some (fraction, 0, rest)
    | rest => (exponent? rest).map fun r => ([], r.1, r.2)
  if !negative && isHuge (natOf 10 (whole ++ fraction)) (exponent - fraction.length) then none
  else some ((), rest)

/-- Reads a fixed word. -/
def word (w : String) : Scan Unit := fun cs =>
  if cs.take w.length = w.toList then some ((), cs.drop w.length) else none

/-- Infinity or not a number. -/
def special : Scan Unit := fun cs =>
  let rest := (sign cs).2
  word "inf" rest <|> word "nan" rest

/-- A number of exactly `count` digits within bounds. -/
def fixedDigits (count low high : Nat) : Scan Nat := fun cs =>
  let ds := cs.take count
  let n := natOf 10 ds
  if ds.length = count ∧ ds.all Char.isDigit ∧ low ≤ n ∧ n ≤ high then some (n, cs.drop count) else none

def isLeapYear (year : Nat) : Bool := year % 4 == 0 && (year % 100 != 0 || year % 400 == 0)

def daysIn (year month : Nat) : Nat :=
  if month = 2 then if isLeapYear year then 29 else 28
  else if month ∈ [4, 6, 9, 11] then 30
  else 31

def char (c : Char) : Scan Unit
  | d :: rest => if d = c then some ((), rest) else none
  | [] => none

def date : Scan Unit := fun cs => do
  let (year, cs) ← fixedDigits 4 0 9999 cs
  let (_, cs) ← char '-' cs
  let (month, cs) ← fixedDigits 2 1 12 cs
  let (_, cs) ← char '-' cs
  let (_, cs) ← fixedDigits 2 1 (daysIn year month) cs
  return ((), cs)

def hourMinute : Scan Unit := fun cs => do
  let (_, cs) ← fixedDigits 2 0 23 cs
  let (_, cs) ← char ':' cs
  let (_, cs) ← fixedDigits 2 0 59 cs
  return ((), cs)

def time : Scan Unit := fun cs => do
  let (_, cs) ← hourMinute cs
  let (_, cs) ← char ':' cs
  let (_, cs) ← fixedDigits 2 0 60 cs
  match cs with
  | '.' :: d :: rest => if d.isDigit then some ((), rest.dropWhile Char.isDigit) else some ((), cs)
  | cs => some ((), cs)

def offset : Scan Unit
  | 'Z' :: rest | 'z' :: rest => some ((), rest)
  | '+' :: rest | '-' :: rest => hourMinute rest
  | _ => none

/-- What may follow a date: a time, and its distance from Greenwich. -/
def timeOfDay : Scan Unit
  | c :: rest =>
    if c = 'T' ∨ c = 't' ∨ c = ' ' then do
      let (_, rest) ← time rest
      return ((offset rest).getD ((), rest))
    else none
  | [] => none

def datetime : Scan Unit := fun cs =>
  match date cs with
  | some (_, rest) => some ((timeOfDay rest).getD ((), rest))
  | none => time cs

end NovelEngine.Toml.Lexeme
