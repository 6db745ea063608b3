import NovelEngine.Numeric.Hex

/-!
# Defects of script data

A defect means that the bytes of a script make no sense at some place; running cannot go on from it.
-/
namespace NovelEngine

/-- A bank of variables. -/
inductive Bank
  | work
  | flags
  | locals
  deriving DecidableEq, Inhabited

def Bank.name : Bank → String
  | work => "global"
  | flags => "flag"
  | locals => "local"

inductive AddressTable
  | labels
  | returns
  deriving DecidableEq, Inhabited

def AddressTable.name : AddressTable → String
  | labels => "label"
  | returns => "return id"

inductive HeaderFault
  | missingMagic
  | stringTable
  | returnTable
  | labelPastCode
  | labelBeforeCode
  | truncatedReturns
  | returnOutsideCode
  deriving DecidableEq, Inhabited

def HeaderFault.text : HeaderFault → String
  | missingMagic => "missing SC3 magic"
  | stringTable => "string table offset out of range"
  | returnTable => "return table offset out of range"
  | labelPastCode => "label points past code"
  | labelBeforeCode => "label points before code"
  | truncatedReturns => "truncated return table"
  | returnOutsideCode => "return address outside code"

inductive Defect
  | outOfBounds (offset needed size : Nat)
  | unknownToken (offset : Nat) (byte : UInt8)
  | stackOverflow (offset : Nat)
  | stackUnderflow (offset : Nat)
  | unbalanced (offset depth : Nat)
  | variableOutOfRange (bank : Bank) (index : Int)
  | addressOutOfRange (table : AddressTable) (index : Int) (count : Nat)
  | badHeader (script : UInt32) (fault : HeaderFault)
  deriving DecidableEq, Inhabited

def Defect.message : Defect → String
  | outOfBounds offset needed size =>
    s!"read of {needed} bytes at offset {offset} runs past end of stream ({size} bytes)"
  | unknownToken offset byte =>
    "unknown expression token 0x" ++ hexDigits 2 byte.toNat ++ s!" at offset {offset}"
  | stackOverflow offset => s!"expression stack overflow at offset {offset}"
  | stackUnderflow offset => s!"expression stack underflow at offset {offset}"
  | unbalanced offset depth =>
    s!"expression ended at offset {offset} with {depth} values on the stack"
  | variableOutOfRange bank index => bank.name ++ s!" index {index} out of range"
  | addressOutOfRange table index count =>
    table.name ++ s!" {index} out of range ({count} entries)"
  | badHeader script fault => "script " ++ toString script.toNat ++ ": bad header (" ++ fault.text ++ ")"

end NovelEngine
