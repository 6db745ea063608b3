import NovelEngine.Machine.Basic
import NovelEngine.Text.Blank
import NovelEngine.Toml.Document

/-!
# The configuration of a game

A configuration has three sections. A section is a table; it may also be written as an array, which gives
its fields in order. Fields that are missing take their defaults and unknown ones are passed over, but a
field of the wrong type or out of its range is an error.
-/
namespace NovelEngine

structure GameSection where
  name : String := ""
  designWidth : UInt32 := 1920
  designHeight : UInt32 := 1080
  layerCount : UInt32 := 8
  deriving DecidableEq, Inhabited

structure ScriptSection where
  startScript : UInt32 := 0
  startBuffer : UInt32 := 0
  startLabel : Int32 := 0
  instructionSet : String := InstructionSet.mo6tw.name
  useReturnIds : Bool := false
  instructionsPerTick : UInt32 := 1000
  maxThreads : Nat := 100
  deriving DecidableEq, Inhabited

/-- No loader threads means that assets are decoded inline. -/
structure AssetSection where
  root : String := "."
  loaderThreads : Nat := 2
  deriving DecidableEq, Inhabited

structure Config where
  game : GameSection := {}
  script : ScriptSection := {}
  assets : AssetSection := {}
  deriving DecidableEq, Inhabited

inductive ConfigError
  | malformed
  | missingField (field : String)
  | invalidField (field reason : String)
  deriving DecidableEq, Inhabited

def ConfigError.message : ConfigError → String
  | malformed => "malformed configuration"
  | missingField field => "missing required field `" ++ field ++ "`"
  | invalidField field reason => "invalid field `" ++ field ++ "`: " ++ reason

namespace Toml

def string? : Toml → Option String
  | string text => some text
  | _ => none

def boolean? : Toml → Option Bool
  | boolean b => some b
  | _ => none

/-- An integer within bounds. -/
def integerIn? (low high : Int) : Toml → Option Int
  | integer n => if low ≤ n ∧ n ≤ high then some n else none
  | _ => none

def uint32? (t : Toml) : Option UInt32 :=
  (t.integerIn? 0 0xFFFFFFFF).map fun n => UInt32.ofNat n.toNat

def int32? (t : Toml) : Option Int32 := (t.integerIn? (-0x80000000) 0x7FFFFFFF).map Int32.ofInt

def nat? (t : Toml) : Option Nat := (t.integerIn? 0 0xFFFFFFFFFFFFFFFF).map Int.toNat

/-- The member of a section with a place and a name, if there is one; `none` when `t` is no section. A
date counts as a section without fields. -/
def member? (t : Toml) (place : Nat) (name : String) : Option (Option Toml) :=
  match t with
  | table _ entries => some (find? entries name)
  | array items => some items[place]?
  | tables items => some (items[place]?.map (table .header))
  | datetime => some none
  | _ => none

/-- Reads a member; a missing one has its default. -/
def field {α : Type} (t : Toml) (place : Nat) (name : String) (default : α)
    (read : Toml → Option α) : Option α := do
  match ← t.member? place name with
  | none => some default
  | some v => read v

end Toml

namespace GameSection

def read (t : Toml) : Option GameSection := do
  let d : GameSection := {}
  return ⟨← t.field 0 "name" d.name Toml.string?, ← t.field 1 "design_width" d.designWidth Toml.uint32?,
    ← t.field 2 "design_height" d.designHeight Toml.uint32?,
    ← t.field 3 "layer_count" d.layerCount Toml.uint32?⟩

end GameSection

namespace ScriptSection

def read (t : Toml) : Option ScriptSection := do
  let d : ScriptSection := {}
  return ⟨← t.field 0 "start_script" d.startScript Toml.uint32?,
    ← t.field 1 "start_script_buffer" d.startBuffer Toml.uint32?,
    ← t.field 2 "start_label" d.startLabel Toml.int32?,
    ← t.field 3 "instruction_set" d.instructionSet Toml.string?,
    ← t.field 4 "use_return_ids" d.useReturnIds Toml.boolean?,
    ← t.field 5 "instructions_per_tick" d.instructionsPerTick Toml.uint32?,
    ← t.field 6 "max_threads" d.maxThreads Toml.nat?⟩

/-- The options of the machine; `none` when the instruction set has an unknown name. -/
def options? (s : ScriptSection) : Option MachineOptions :=
  (InstructionSet.ofName? s.instructionSet).map
    fun set => ⟨set, s.useReturnIds, s.instructionsPerTick, s.maxThreads⟩

end ScriptSection

namespace AssetSection

def read (t : Toml) : Option AssetSection := do
  let d : AssetSection := {}
  return ⟨← t.field 0 "root" d.root Toml.string?, ← t.field 1 "loader_threads" d.loaderThreads Toml.nat?⟩

end AssetSection

namespace Config

def defaultFor (name : String) : Config := { game := { name } }

def read (t : Toml) : Option Config := do
  let d : Config := {}
  return ⟨← t.field 0 "game" d.game GameSection.read, ← t.field 1 "vm" d.script ScriptSection.read,
    ← t.field 2 "assets" d.assets AssetSection.read⟩

/-- Whether the values make sense; of several faults the first in this order is reported. -/
def check (c : Config) : Except ConfigError Unit := do
  if isBlankText c.game.name then throw (.missingField "game.name")
  if c.game.designWidth = 0 ∨ c.game.designHeight = 0 then
    throw (.invalidField "game.design_resolution" "resolution values must be greater than 0")
  if c.script.instructionsPerTick = 0 then
    throw (.invalidField "vm.instructions_per_tick" "must be greater than 0")
  if c.script.maxThreads < 1 ∨ 65535 < c.script.maxThreads then
    throw (.invalidField "vm.max_threads" "must be between 1 and 65535")

def parse (text : String) : Except ConfigError Config := do
  match (Toml.parse text).bind read with
  | none => throw .malformed
  | some c =>
    c.check
    return c

end Config
end NovelEngine
