import NovelEngine.Machine.Schedule
import NovelEngine.Project.Basic
import NovelEngine.Scene.Basic

/-!
# Running a game

A session is a machine and a scene that are stepped together, frame by frame: first the scene adopts the
loads that have ended and lets animations run on, then the scripts take their turns.
-/
namespace NovelEngine

inductive SessionError
  | project (error : ProjectError)
  | unknownInstructionSet (name : String)
  | startBuffer (buffer : UInt32) (max : Nat)
  | startScriptMissing (id : UInt32)
  | startScript (id : UInt32) (defect : Defect)
  | startThread (fault : Fault)
  | halted (halt : Halt)
  deriving DecidableEq, Inhabited

def SessionError.message : SessionError → String
  | project error => "project: " ++ error.message
  | unknownInstructionSet name => "unknown instruction set `" ++ name ++ "`"
  | startBuffer buffer max =>
    "start script buffer " ++ toString buffer.toNat ++ s!" is out of range (max {max})"
  | startScriptMissing id => "start script " ++ toString id.toNat ++ " could not be read"
  | startScript id defect => "start script " ++ toString id.toNat ++ " is malformed: " ++ defect.message
  | startThread fault => "start thread could not be created: " ++ fault.message
  | halted halt => halt.message

structure FrameReport where
  frame : Nat
  tick : TickReport
  loadsPending : Bool
  deriving DecidableEq, Inhabited

structure Session where
  config : Config
  machine : Machine
  scene : Scene
  frame : Nat

namespace Session

/-- Builds the machine and the scene, loads the start script and creates its first thread. -/
def start (config : Config) (library : ScriptLibrary) (assets : AssetSource) :
    Noted (Except SessionError Session) := do
  let s := config.script
  match s.options? with
  | none => return .error (.unknownInstructionSet s.instructionSet)
  | some options =>
    if scriptBufferCount ≤ s.startBuffer.toNat then
      return .error (.startBuffer s.startBuffer (scriptBufferCount - 1))
    let buffer := s.startBuffer.toUInt64
    let workers : Workers := if config.assets.loaderThreads = 0 then .inline else .pool
    let machine ← Machine.create options (some library)
    match ← machine.loadScript buffer s.startScript with
    | .error defect => return .error (.startScript s.startScript defect)
    | .ok (false, _) => return .error (.startScriptMissing s.startScript)
    | .ok (true, machine) =>
      match machine.spawn buffer s.startLabel with
      | .error fault => return .error (.startThread fault)
      | .ok (id, machine) =>
        Noted.note .info .session
          ("`" ++ config.game.name ++ "` starting script " ++ toString s.startScript.toNat ++
            " (buffer " ++ toString s.startBuffer.toNat ++ ", label " ++ toString s.startLabel.toInt ++
            ") as thread " ++ id.text)
        return .ok ⟨config, machine, .create (.create assets workers), 0⟩

def ofProject (p : Project) (files : Files) : Noted (Except SessionError Session) :=
  start p.config (p.library files) (p.assets files)

/-- Starts the game in a directory. -/
def load (files : Files) (root : String) : Noted (Except SessionError Session) :=
  match Project.load files root with
  | .error e => return .error (.project e)
  | .ok p => ofProject p files

/-- Lets loads that are ready deliver their results, for the next frame to show. -/
def deliver (s : Session) (ready : Job → Bool) : Session :=
  { s with scene.loads := s.scene.loads.deliver ready }

/-- Runs one frame. A frame that a defect cuts short does not count. -/
def update (s : Session) (delta : Single) : Noted (Except Halt FrameReport × Session) := do
  let scene ← s.scene.update delta
  let o ← s.machine.tick delta scene
  let s := { s with machine := o.machine, scene := o.stage }
  match o.result with
  | .error halt => return (.error halt, s)
  | .ok tick =>
    let frame := s.frame + 1
    if 0 < tick.faulted then
      let faulted := tick.faulted
      Noted.note .debug .session s!"frame {frame}: {faulted} thread(s) faulted"
    return (.ok ⟨frame, tick, s.scene.loads.hasPending⟩, { s with frame })

/-- Whether no thread is left to run. -/
def isFinished (s : Session) : Bool := s.machine.liveThreads = 0

end Session
end NovelEngine
