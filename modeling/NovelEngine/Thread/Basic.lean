import NovelEngine.Numeric.Single
import NovelEngine.Script.Container
import NovelEngine.Script.Expression
import NovelEngine.Slot

/-!
# Script threads

A thread runs one script from a position of its own, with its own variables and call stack. Loading
another script into its buffer does not change the script that it runs.
-/
namespace NovelEngine

/-- A failure of what a script does, and not of its bytes. It ends one thread and nothing else. -/
inductive Fault
  | callStackOverflow (depth : Nat)
  | callStackUnderflow
  | threadPoolExhausted (max : Nat)
  | noScript (buffer : Int)
  | noLabel (buffer : Nat) (label : Int32)
  deriving DecidableEq, Inhabited

def Fault.message : Fault → String
  | callStackOverflow depth => s!"call stack overflow (depth {depth})"
  | callStackUnderflow => "return with an empty call stack"
  | threadPoolExhausted max => s!"thread pool exhausted ({max} threads)"
  | noScript buffer => s!"no script loaded in buffer {buffer}"
  | noLabel buffer label => s!"script in buffer {buffer} has no label " ++ toString label.toInt

def callStackDepth : Nat := 8

/-- Return positions, the innermost first. A frame has 32 bits. -/
structure CallStack where
  frames : List UInt32
  deriving DecidableEq, Inhabited

namespace CallStack

def empty : CallStack := ⟨[]⟩

def depth (s : CallStack) : Nat := s.frames.length

def push (s : CallStack) (pos : Nat) : Except Fault CallStack :=
  if s.depth < callStackDepth then .ok ⟨UInt32.ofNat pos :: s.frames⟩
  else .error (.callStackOverflow callStackDepth)

def pop (s : CallStack) : Except Fault (Nat × CallStack) :=
  match s.frames with
  | [] => .error .callStackUnderflow
  | frame :: frames => .ok (frame.toNat, ⟨frames⟩)

end CallStack

/-- What a thread waits for: seconds to pass, a flag to be set, or a slot to settle. -/
inductive WaitCondition
  | timer (remaining : Single)
  | signal (flag : UInt32)
  | resource (slot : SlotKey)
  deriving DecidableEq, Inhabited

inductive ThreadState
  | running
  | waiting (condition : WaitCondition)
  | suspended
  | terminated
  deriving DecidableEq, Inhabited

structure Thread where
  script : Script
  buffer : Nat
  pc : Nat
  calls : CallStack
  locals : Locals
  result : Int32
  state : ThreadState
  paused : Bool

namespace Thread

def start (script : Script) (buffer pc : Nat) : Thread :=
  ⟨script, buffer, pc, .empty, Vector.replicate localCount 0, 0, .running, false⟩

def isTerminated (t : Thread) : Bool := t.state = .terminated

def terminate (t : Thread) : Thread := { t with state := .terminated }

/-- The cursor at a position of the thread's code. -/
def cursorAt (t : Thread) (pos : Nat) : Cursor := ⟨t.script.codeFrom pos, pos, t.script.codeEnd⟩

/-- The locals that are not zero, with their indices, in rising order. -/
def nonzeroLocals (locals : Locals) : List (Nat × Int32) :=
  locals.toList.zipIdx.filterMap fun p => if p.1 = 0 then none else some (p.2, p.1)

end Thread
end NovelEngine
