import NovelEngine.Ident

/-!
# Generational storage

An arena keeps values under thread identifiers. A removed value frees its cell and moves the cell's
generation on; the cell freed last is taken first. A value can be lent out while it is worked on; its
cell stays live and only that cell takes it back.
-/
namespace NovelEngine

inductive Tenancy (α : Type)
  | vacant
  | occupied (value : α)
  | lent

namespace Tenancy

variable {α : Type}

def isLive : Tenancy α → Bool
  | vacant => false
  | occupied _ | lent => true

def value? : Tenancy α → Option α
  | occupied value => some value
  | vacant | lent => none

end Tenancy

structure Cell (α : Type) where
  generation : UInt32
  tenancy : Tenancy α

/-- `cells` holds the cells of index 1 and up; `free` names the vacant ones, the last freed first. -/
structure Arena (α : Type) where
  cells : List (Cell α)
  free : List Nat
  live : Nat

namespace Arena

variable {α : Type}

def empty : Arena α := ⟨[], [], 0⟩

instance : Inhabited (Arena α) := ⟨empty⟩

/-- The cell at an index; index 0 has none. -/
def cellAt? (a : Arena α) : Nat → Option (Cell α)
  | 0 => none
  | n + 1 => a.cells[n]?

def setCell (a : Arena α) (index : Nat) (cell : Cell α) : Arena α :=
  { a with cells := a.cells.set (index - 1) cell }

/-- The cell that an identifier names, if its generation is current. -/
def cell? (a : Arena α) (id : ThreadId) : Option (Cell α) :=
  (a.cellAt? id.index.toNat).filter fun cell => cell.generation == id.generation

def get? (a : Arena α) (id : ThreadId) : Option α := (a.cell? id).bind fun cell => cell.tenancy.value?

def contains (a : Arena α) (id : ThreadId) : Bool := (a.cell? id).any fun cell => cell.tenancy.isLive

def insert (a : Arena α) (value : α) : ThreadId × Arena α :=
  match a.free with
  | index :: free =>
    let generation := ((a.cellAt? index).map Cell.generation).getD 0
    (⟨UInt32.ofNat index, generation⟩,
      { a.setCell index ⟨generation, .occupied value⟩ with free, live := a.live + 1 })
  | [] =>
    (⟨UInt32.ofNat (a.cells.length + 1), 0⟩,
      { a with cells := a.cells ++ [⟨0, .occupied value⟩], live := a.live + 1 })

/-- Replaces the value of an occupied cell. -/
def put (a : Arena α) (id : ThreadId) (value : α) : Arena α :=
  match a.cell? id with
  | some ⟨generation, .occupied _⟩ => a.setCell id.index.toNat ⟨generation, .occupied value⟩
  | _ => a

/-- Lends a value out. -/
def checkout (a : Arena α) (id : ThreadId) : Option (α × Arena α) :=
  match a.cell? id with
  | some ⟨generation, .occupied value⟩ =>
    some (value, a.setCell id.index.toNat ⟨generation, .lent⟩)
  | _ => none

/-- Takes a lent value back; it is dropped if its cell has been freed meanwhile. -/
def checkin (a : Arena α) (id : ThreadId) (value : α) : Arena α :=
  match a.cell? id with
  | some ⟨generation, .lent⟩ => a.setCell id.index.toNat ⟨generation, .occupied value⟩
  | _ => a

/-- Frees a live cell. The value is `none` if it was lent out. -/
def remove (a : Arena α) (id : ThreadId) : Option α × Arena α :=
  match a.cell? id with
  | some ⟨generation, tenancy⟩ =>
    if tenancy.isLive then
      (tenancy.value?,
        { a.setCell id.index.toNat ⟨generation + 1, .vacant⟩ with
          free := id.index.toNat :: a.free
          live := a.live - 1 })
    else (none, a)
  | none => (none, a)

/-- The live identifier that a script handle stands for. -/
def resolve (a : Arena α) (handle : Int32) : Option ThreadId :=
  let short := ThreadId.ofScriptHandle handle
  match a.cellAt? short.index.toNat with
  | some cell =>
    if cell.tenancy.isLive && short.matchesGeneration cell.generation then
      some ⟨short.index, cell.generation⟩
    else none
  | none => none

end Arena
end NovelEngine
