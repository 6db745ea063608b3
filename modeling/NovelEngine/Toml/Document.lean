import NovelEngine.Toml.Lexeme
import NovelEngine.Toml.Value

/-!
# TOML documents

A document is read line by line: a header opens a table, any other line adds a value to the table opened
last. There is one kind of failure, `none`, for everything that is no document.
-/
namespace NovelEngine.Toml

open Lexeme

/-- A value that is neither an array nor an inline table. -/
def scalar : Scan Toml := fun cs =>
  match cs with
  | '"' :: _ | '\'' :: _ => (anyString cs).map fun r => (.string r.1, r.2)
  | 't' :: _ => (word "true" cs).map fun r => (.boolean true, r.2)
  | 'f' :: _ => (word "false" cs).map fun r => (.boolean false, r.2)
  | _ =>
    (Lexeme.datetime cs).map (fun r => (.datetime, r.2)) <|>
      (decimal cs).map (fun r => (.float, r.2)) <|>
      (special cs).map (fun r => (.float, r.2)) <|>
      (Lexeme.integer cs).map fun r => (.integer r.1, r.2)

/-- The items of an array, from behind its opening bracket or a comma. -/
def arrayItems (item : Scan Toml) : (fuel : Nat) → Scan (List Toml)
  | 0, _ => none
  | fuel + 1, cs => do
    match ← skipLines false cs with
    | ']' :: rest => return ([], rest)
    | cs =>
      let (value, rest) ← item cs
      match ← skipLines false rest with
      | ',' :: rest =>
        let (values, rest) ← arrayItems item fuel rest
        return (value :: values, rest)
      | ']' :: rest => return ([value], rest)
      | _ => none

/-- A key with its value. -/
def pair (item : Scan Toml) : Scan ((List String × String) × Toml) := fun cs => do
  let (key, rest) ← keyPath cs
  let (_, rest) ← char '=' rest
  let (value, rest) ← item (skipSpaces rest)
  return ((key, value), rest)

/-- The pairs of an inline table, from behind its opening brace or a comma, added to `entries`. -/
def inlinePairs (item : Scan Toml) : (fuel : Nat) → Entries → Scan Entries
  | 0, _, _ => none
  | fuel + 1, entries, cs => do
    let ((key, value), rest) ← pair item cs
    let entries ← insertDotted key.1 key.2 value entries
    match skipSpaces rest with
    | ',' :: rest => inlinePairs item fuel entries rest
    | '\x7d' :: rest => return (entries, rest)
    | _ => none

def inlineTable (item : Scan Toml) : Scan Entries := fun cs =>
  match skipSpaces cs with
  | '\x7d' :: rest => some ([], rest)
  | _ => inlinePairs item cs.length [] cs

/-- A value with at most `depth` brackets open at once. -/
def value : (depth : Nat) → Scan Toml
  | depth + 1, '[' :: rest =>
    (arrayItems (value depth) (rest.length + 1) rest).map fun r => (.array r.1, r.2)
  | depth + 1, '\x7b' :: rest =>
    (inlineTable (value depth) rest).map fun r => (.table .inline r.1, r.2)
  | _, cs => scalar cs

/-- What has been read of a document: its entries and the path of the table opened last. -/
structure Draft where
  entries : Entries
  current : List String

namespace Draft

def addPair (d : Draft) (key : List String × String) (value : Toml) : Option Draft :=
  (atPath (insertDotted key.1 key.2 value) d.current d.entries).map fun entries => { d with entries }

def openTable (d : Draft) (key : List String × String) : Option Draft :=
  (Toml.openTable key.1 key.2 d.entries).map fun entries => ⟨entries, key.1 ++ [key.2]⟩

def openElement (d : Draft) (key : List String × String) : Option Draft :=
  (Toml.openElement key.1 key.2 d.entries).map fun entries => ⟨entries, key.1 ++ [key.2]⟩

end Draft

/-- Reads one line that is not empty. -/
def line (d : Draft) : Scan Draft := fun cs =>
  match cs with
  | '#' :: _ => (lineEnd cs).map fun rest => (d, rest)
  | '[' :: '[' :: rest => do
    let (key, rest) ← keyPath rest
    let (_, rest) ← char ']' rest
    let (_, rest) ← char ']' rest
    return (← d.openElement key, ← lineEnd rest)
  | '[' :: rest => do
    let (key, rest) ← keyPath rest
    let (_, rest) ← char ']' rest
    return (← d.openTable key, ← lineEnd rest)
  | cs => do
    let ((key, v), rest) ← pair (value nestingLimit) cs
    return (← d.addPair key v, ← lineEnd rest)

def lines : (fuel : Nat) → Draft → List Char → Option Draft
  | 0, _, _ => none
  | fuel + 1, d, cs =>
    match skipSpaces cs with
    | [] => some d
    | cs =>
      match newline? cs with
      | some rest => lines fuel d rest
      | none => do
        let (d, rest) ← line d cs
        lines fuel d rest

/-- Reads a document; a byte order mark before it does not count. -/
def parse (text : String) : Option Toml :=
  let cs := match text.toList with
    | '\ufeff' :: rest => rest
    | cs => cs
  (lines (cs.length + 1) ⟨[], []⟩ cs).map fun d => .table .header d.entries

end NovelEngine.Toml
