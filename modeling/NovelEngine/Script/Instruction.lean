/-!
# Instructions

An opcode is a group byte and an index byte. Opcodes that no instruction is known for are skipped, so
that partly understood scripts keep running.
-/
namespace NovelEngine

inductive InstructionKind
  | implemented
  | stub
  | empty
  | unknown
  deriving DecidableEq, Inhabited

def InstructionKind.name : InstructionKind → String
  | implemented => "Implemented"
  | stub => "Stub"
  | empty => "Empty"
  | unknown => "Unknown"

inductive Instruction
  | exit
  | yield
  | jump
  | jumpIf
  | call
  | ret
  | wait
  | assign
  | threadCreate
  | threadKill
  | threadPause
  | threadResume
  | suspend
  | signalSet
  | signalClear
  | signalWait
  | scriptLoad
  | debugPrint
  | backgroundLoad
  | backgroundRelease
  | loadWait
  | characterLoad
  | characterRelease
  | empty0204
  | characterSwap
  | playAnimation
  | stub0207
  | stub0208
  | setAnimation
  | empty02xx
  | stub0219
  | empty0240
  | unknown
  deriving DecidableEq, Inhabited

namespace Instruction

def ofOpcode (opcode : UInt16) : Instruction :=
  match opcode with
  | 0x0000 => exit
  | 0x0001 => yield
  | 0x0002 => jump
  | 0x0003 => jumpIf
  | 0x0004 => call
  | 0x0005 => ret
  | 0x0006 => wait
  | 0x0007 => assign
  | 0x0008 => threadCreate
  | 0x0009 => threadKill
  | 0x000A => threadPause
  | 0x000B => threadResume
  | 0x000C => suspend
  | 0x000D => signalSet
  | 0x000E => signalClear
  | 0x000F => signalWait
  | 0x0010 => scriptLoad
  | 0x0011 => debugPrint
  | 0x0100 => backgroundLoad
  | 0x0101 => backgroundRelease
  | 0x0102 => loadWait
  | 0x0200 => characterLoad
  | 0x0201 => characterRelease
  | 0x0204 => empty0204
  | 0x0205 => characterSwap
  | 0x0206 => playAnimation
  | 0x0207 => stub0207
  | 0x0208 => stub0208
  | 0x0209 => setAnimation
  | 0x0219 => stub0219
  | 0x0240 => empty0240
  | opcode => if 0x0210 ≤ opcode ∧ opcode ≤ 0x0218 then empty02xx else unknown

def kind : Instruction → InstructionKind
  | empty0204 | characterSwap | empty02xx | empty0240 => .empty
  | stub0207 | stub0208 | stub0219 => .stub
  | unknown => .unknown
  | _ => .implemented

def name : Instruction → String
  | exit => "End"
  | yield => "Yield"
  | jump => "Jump"
  | jumpIf => "JumpIf"
  | call => "Call"
  | ret => "Return"
  | wait => "Wait"
  | assign => "Assign"
  | threadCreate => "ThreadCreate"
  | threadKill => "ThreadKill"
  | threadPause => "ThreadPause"
  | threadResume => "ThreadResume"
  | suspend => "Suspend"
  | signalSet => "SignalSet"
  | signalClear => "SignalClear"
  | signalWait => "SignalWait"
  | scriptLoad => "ScriptLoad"
  | debugPrint => "DebugPrint"
  | backgroundLoad => "BGload"
  | backgroundRelease => "BGrelease"
  | loadWait => "LoadWait"
  | characterLoad => "CHAload3D"
  | characterRelease => "CHArelease3D"
  | empty0204 => "Unk0204"
  | characterSwap => "CHAswap3DMaybe"
  | playAnimation => "CHAplayAnim3DMaybe"
  | stub0207 => "CHAUnk02073D"
  | stub0208 => "Unk0208"
  | setAnimation => "CHAsetAnim3D"
  | empty02xx => "Unk02xx"
  | stub0219 => "Unk0219"
  | empty0240 => "Unk0240"
  | unknown => "Unknown"

end Instruction

/-- A dialect of the script language. -/
inductive InstructionSet
  | mo6tw
  deriving DecidableEq, Inhabited

namespace InstructionSet

def name : InstructionSet → String
  | mo6tw => "mo6tw"

def debugName : InstructionSet → String
  | mo6tw => "Mo6tw"

/-- Reads a dialect's name; the case of ASCII letters does not matter. -/
def ofName? (text : String) : Option InstructionSet :=
  if text.map Char.toLower = mo6tw.name then some mo6tw else none

/-- One more than the highest opcode that has an entry. -/
def tableSize : InstructionSet → Nat
  | mo6tw => 0x0241

def instruction : InstructionSet → UInt16 → Instruction
  | mo6tw, opcode => Instruction.ofOpcode opcode

def tableText (set : InstructionSet) : String :=
  "InstructionTable \x7b set: " ++ set.debugName ++ ", len: " ++ toString set.tableSize ++ " \x7d"

end InstructionSet
end NovelEngine
