/-!
# TOML values and how a document builds them

Every table remembers how it came about, because that decides what may be added to it: a table written
under a header may not be opened again, a table that a longer header implied may be opened once, a table
made by dotted keys takes more dotted keys and no header, and an inline table is closed.
-/
namespace NovelEngine

/-- How a table came about. -/
inductive TableOrigin
  | header
  | implied
  | dotted
  | inline
  deriving DecidableEq, Inhabited

/-- Numbers with a fraction and dates are told apart, but nothing reads their values. -/
inductive Toml
  | string (text : String)
  | integer (value : Int)
  | float
  | boolean (value : Bool)
  | datetime
  | array (items : List Toml)
  | table (origin : TableOrigin) (entries : List (String × Toml))
  | tables (items : List (List (String × Toml)))
  deriving Inhabited

namespace Toml

abbrev Entries := List (String × Toml)

def find? (entries : Entries) (key : String) : Option Toml :=
  match entries with
  | [] => none
  | (k, v) :: rest => if k = key then some v else find? rest key

/-- Changes the value under a key that is there. -/
def put (entries : Entries) (key : String) (value : Toml) : Entries :=
  entries.map fun e => if e.1 = key then (key, value) else e

/-- Adds a key that is not there yet. -/
def add (entries : Entries) (key : String) (value : Toml) : Option Entries :=
  match find? entries key with
  | some _ => none
  | none => some (entries ++ [(key, value)])

/-- Changes the last of some tables. -/
def onLast (f : Entries → Option Entries) (items : List Entries) : Option (List Entries) :=
  match items.getLast? with
  | some last => (f last).map fun new => items.dropLast ++ [new]
  | none => none

/-- Adds a value under a dotted key. The tables on the way are made where they are missing; of those that
are there, the last one must have been made by a dotted key and none may have been written under a header
of its own. -/
def insertDotted : (path : List String) → (key : String) → Toml → Entries → Option Entries
  | [], key, value, entries => add entries key value
  | p :: ps, key, value, entries =>
    match find? entries p with
    | none => do
      let sub ← insertDotted ps key value []
      return entries ++ [(p, .table .dotted sub)]
    | some (.table origin sub) =>
      if origin = .dotted ∨ (origin = .implied ∧ ps ≠ []) then
        (insertDotted ps key value sub).map fun sub => put entries p (.table origin sub)
      else none
    | some (.tables items) =>
      if ps = [] then none
      else (onLast (insertDotted ps key value) items).map fun items => put entries p (.tables items)
    | some _ => none

/-- Changes the table that a header's path leads to; tables on the way are implied where missing, and of
an array of tables the last one is meant. -/
def atPath (f : Entries → Option Entries) : (path : List String) → Entries → Option Entries
  | [], entries => f entries
  | p :: ps, entries =>
    match find? entries p with
    | none => do
      let sub ← atPath f ps []
      return entries ++ [(p, .table .implied sub)]
    | some (.table .inline _) => none
    | some (.table origin sub) =>
      (atPath f ps sub).map fun sub => put entries p (.table origin sub)
    | some (.tables items) => (onLast (atPath f ps) items).map fun items => put entries p (.tables items)
    | some _ => none

/-- Opens the table of a header `[path.key]`. -/
def openTable (path : List String) (key : String) : Entries → Option Entries :=
  atPath (fun entries =>
    match find? entries key with
    | none => some (entries ++ [(key, .table .header [])])
    | some (.table .implied sub) => some (put entries key (.table .header sub))
    | some _ => none) path

/-- Adds a table for a header `[[path.key]]`. -/
def openElement (path : List String) (key : String) : Entries → Option Entries :=
  atPath (fun entries =>
    match find? entries key with
    | none => some (entries ++ [(key, .tables [[]])])
    | some (.tables items) => some (put entries key (.tables (items ++ [[]])))
    | some _ => none) path

end Toml
end NovelEngine
