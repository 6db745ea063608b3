import NovelEngine.Note
import NovelEngine.Thread.Arena
import NovelEngine.Thread.Basic
import NovelEngine.Script.Instruction

/-!
# The script machine

`Shared` is what the running instruction can reach besides its own thread: options, script buffers, the
script library, the thread arena, the variables and the lifecycle requests of this tick. The run order
stands outside it, so that no instruction can change it.
-/
namespace NovelEngine

structure MachineOptions where
  instructionSet : InstructionSet := .mo6tw
  /-- `Call` names its return address by number instead of returning to the next instruction. -/
  useReturnIds : Bool := false
  instructionsPerTick : UInt32 := 1000
  maxThreads : Nat := 100
  deriving DecidableEq, Inhabited

/-- Script files by number; a file that cannot be read has an error text instead. -/
abbrev ScriptLibrary := UInt32 → Except String Bytes

/-- What a script asked to be done to a thread when every thread has had its turn. -/
inductive LifecycleRequest
  | spawn (id : ThreadId)
  | kill (handle : Int32)
  | pause (handle : Int32)
  | resume (handle : Int32)
  deriving DecidableEq, Inhabited

/-- `requests` has the last one first. -/
structure Shared where
  options : MachineOptions
  buffers : Vector (Option Script) scriptBufferCount
  library : Option ScriptLibrary
  threads : Arena Thread
  requests : List LifecycleRequest
  globals : Globals

namespace Shared

/-- The script in a buffer, with the buffer's number. -/
def script? (s : Shared) (buffer : Int) : Option (Nat × Script) :=
  if buffer < 0 then none
  else (s.buffers[buffer.toNat]?).bind fun script? => script?.map fun script => (buffer.toNat, script)

/-- Stores a new thread at a label of the script in a buffer. It does not run before it joins the run
order. -/
def spawn (s : Shared) (buffer : Int) (label : Int32) : Except Fault (ThreadId × Shared) :=
  match s.script? buffer with
  | none => .error (.noScript buffer)
  | some (index, script) =>
    match script.label label with
    | .error _ => .error (.noLabel index label)
    | .ok pc =>
      if s.options.maxThreads ≤ s.threads.live then
        .error (.threadPoolExhausted s.options.maxThreads)
      else
        let r := s.threads.insert (Thread.start script index pc)
        .ok (r.1, { s with threads := r.2 })

/-- Reads script `id` from the library into a buffer. A buffer, library or file that is not there gives
`false`; a file that is no script is a defect. -/
def loadScript (s : Shared) (buffer : Int) (id : Int32) : Noted (Except Defect (Bool × Shared)) :=
  if h : 0 ≤ buffer ∧ buffer < scriptBufferCount then
    match s.library with
    | none => do
      Noted.note .warn .scheduler
        ("script load of " ++ toString id.toInt ++ " requested but no script source is configured")
      return .ok (false, s)
    | some library =>
      match library id.toUInt32 with
      | .error text => do
        Noted.note .warn .scheduler ("failed to read script " ++ toString id.toInt ++ ": " ++ text)
        return .ok (false, s)
      | .ok bytes =>
        match Script.parse id.toUInt32 bytes with
        | .error e => return .error e
        | .ok script => do
          Noted.note .debug .scheduler
            ("script " ++ toString id.toInt ++ " loaded into buffer " ++ toString buffer)
          return .ok (true, { s with buffers := s.buffers.set buffer.toNat (some script) (by omega) })
  else do
    Noted.note .warn .scheduler s!"script load into invalid buffer {buffer}"
    return .ok (false, s)

end Shared

/-- `order` is the run order: the threads that take turns, the oldest first. -/
structure Machine where
  shared : Shared
  order : List ThreadId

namespace Machine

/-- A machine without scripts and threads. The thread limit is capped so that different live threads
have different script handles. -/
def create (options : MachineOptions) (library : Option ScriptLibrary) : Noted Machine := do
  let cap := ThreadId.maxScriptIndex
  if cap < options.maxThreads then
    let wanted := options.maxThreads
    Noted.note .warn .scheduler
      s!"max_threads {wanted} exceeds the script handle range, capped to {cap}"
  let options := { options with maxThreads := min options.maxThreads cap }
  return ⟨⟨options, Vector.replicate scriptBufferCount none, library, .empty, [], .empty⟩, []⟩

/-- Puts a script into a buffer. Threads that run the old script keep it. -/
def putScript (m : Machine) (buffer : Nat) (script : Script) : Option Machine :=
  if h : buffer < scriptBufferCount then
    some { m with shared.buffers := m.shared.buffers.set buffer (some script) h }
  else none

/-- Buffer and script numbers are taken as signed numbers of the same width. -/
def loadScript (m : Machine) (buffer : UInt64) (id : UInt32) : Noted (Except Defect (Bool × Machine)) := do
  let r ← m.shared.loadScript buffer.toInt64.toInt id.toInt32
  return r.map fun p => (p.1, { m with shared := p.2 })

def script? (m : Machine) (buffer : Nat) : Option Script := (m.shared.buffers[buffer]?).join

/-- Starts a thread that takes its first turn in the next tick. -/
def spawn (m : Machine) (buffer : UInt64) (label : Int32) : Except Fault (ThreadId × Machine) :=
  (m.shared.spawn buffer.toInt64.toInt label).map fun r => (r.1, ⟨r.2, m.order ++ [r.1]⟩)

def setWork (m : Machine) (index : Int) (value : Int32) : Except Defect Machine :=
  (m.shared.globals.setWork index value).map fun globals => { m with shared.globals := globals }

def setFlag (m : Machine) (index : Int) (value : Bool) : Except Defect Machine :=
  (m.shared.globals.setFlag index value).map fun globals => { m with shared.globals := globals }

def thread? (m : Machine) (id : ThreadId) : Option Thread := m.shared.threads.get? id

def liveThreads (m : Machine) : Nat := m.order.length

end Machine
end NovelEngine
