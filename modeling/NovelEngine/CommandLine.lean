import NovelEngine.Session
import NovelEngine.Text.Visible

/-!
# The command line

The program runs a game without showing it. It takes the directory of the game and a number of frames
after which to stop; arguments that it does not know are passed over.
-/
namespace NovelEngine

structure Arguments where
  root : String
  maxFrames : Option Nat
  deriving DecidableEq, Inhabited

/-- Why a number cannot be read. -/
inductive NumberError
  | empty
  | invalidDigit
  | tooLarge
  deriving DecidableEq, Inhabited

def NumberError.message : NumberError → String
  | empty => "cannot parse integer from empty string"
  | invalidDigit => "invalid digit found in string"
  | tooLarge => "number too large to fit in target type"

/-- Frames are counted, and numbers read, below this. -/
def countLimit : Nat := 0x10000000000000000

/-- Reads decimal digits behind a number that has been read already. Of two faults the one that comes
first in the text is reported. -/
def readDigits : Nat → List Char → Except NumberError Nat
  | n, [] => .ok n
  | n, c :: cs =>
    if c.isDigit then
      let n := 10 * n + (c.toNat - 48)
      if n < countLimit then readDigits n cs else .error .tooLarge
    else .error .invalidDigit

/-- Reads a number of 64 bits; a plus sign may stand before it. -/
def readCount (text : String) : Except NumberError Nat :=
  match text.toList with
  | [] => .error .empty
  | ['+'] => .error .invalidDigit
  | '+' :: cs => readDigits 0 cs
  | cs => readDigits 0 cs

namespace Arguments

/-- The argument behind the first occurrence of a flag. -/
def valueOf (flag : String) : List String → Except String (Option String)
  | [] => .ok none
  | a :: rest =>
    if a = flag then
      match rest with
      | [] => .error (flag ++ " needs a value")
      | value :: _ => .ok (some value)
    else valueOf flag rest

/-- Reads the arguments of a program that is run in the directory `home`. -/
def parse (home : String) (args : List String) : Except String Arguments := do
  let root ← valueOf "--path" args
  match ← valueOf "--ticks" args with
  | none => return ⟨root.getD home, none⟩
  | some text =>
    match readCount text with
    | .ok n => return ⟨root.getD home, some n⟩
    | .error e => throw ("--ticks: " ++ e.message)

def usage : String := "usage: sc3_runtime [--path <project>] [--ticks <frames>]"

end Arguments

/-- The length of a frame, in nanoseconds. -/
def frameNanos : Nat := 16667000

/-- The length of a frame, in seconds. -/
def frameSeconds : Single := .ofInt32 (Int32.ofNat frameNanos) / .ofInt32 1000000000

/-- How a log line is printed. A line break in its text indents what follows. -/
def Note.printed (n : Note) : String :=
  let level := n.level.name
  let pad := String.ofList (List.replicate (5 - level.length) ' ')
  "[" ++ level ++ pad ++ " " ++ n.topic.path ++ "] " ++ "\n    ".intercalate (n.text.splitOn "\n") ++ "\n"

/-- What is printed of some log lines: warnings and errors, each without the control sequences in it. -/
def printedNotes (notes : List Note) : String :=
  String.join ((notes.filter fun n => n.level.isSerious).map fun n => visibleText n.printed)

inductive RunEnd
  | finished (frames : Nat)
  | failed (error : SessionError)
  deriving DecidableEq, Inhabited

namespace Session

/-- One round of a run: another frame, or the end, when no thread is left or the limit is reached. All
loads end within the frame that asks for them. -/
def round (s : Session) (maxFrames : Option Nat) : Noted (Except RunEnd Session) :=
  let frame := s.frame
  if s.isFinished then return .error (.finished frame)
  else if maxFrames.any fun limit => limit ≤ frame then do
    Noted.note .warn .program s!"stopping after {frame} frames with threads still live"
    return .error (.finished frame)
  else do
    let (r, s) ← (s.deliver fun _ => true).update frameSeconds
    match r with
    | .error halt => return .error (.failed (.halted halt))
    | .ok _ => return .ok s

/-- Runs round after round, at most `fuel` of them. -/
def runRounds (maxFrames : Option Nat) : (fuel : Nat) → Session → Noted RunEnd
  | 0, s => return .finished s.frame
  | fuel + 1, s => do
    match ← s.round maxFrames with
    | .error e => return e
    | .ok s => runRounds maxFrames fuel s

end Session

/-- Loads the game of a run. -/
def openGame (files : Files) (root : String) : Noted (Except RunEnd Session) := do
  match ← Session.load files root with
  | .error e => return .error (.failed e)
  | .ok s =>
    Noted.note .info .program ("running `" ++ s.config.game.name ++ "` from " ++ root)
    return .ok s

/-- The last words of a run. -/
def closeGame : RunEnd → Noted Unit
  | .finished frames => Noted.note .info .program s!"finished after {frames} frames"
  | .failed e => Noted.note .error .program e.message

def RunEnd.exitCode : RunEnd → Nat
  | .finished _ => 0
  | .failed _ => 1

def runGame (files : Files) (a : Arguments) : Noted RunEnd := do
  let e ← match ← openGame files a.root with
    | .error e => pure e
    | .ok s => s.runRounds a.maxFrames countLimit
  closeGame e
  return e

/-- What a run leaves behind. -/
structure RunOutcome where
  exitCode : Nat
  standardError : String
  deriving DecidableEq, Inhabited

/-- The exit code and the text for arguments that make no sense. -/
def usageOutcome (text : String) : RunOutcome := ⟨2, Arguments.usage ++ "\n" ++ text ++ "\n"⟩

/-- Runs the program in the directory `home`. -/
def runProgram (files : Files) (home : String) (args : List String) : RunOutcome :=
  match Arguments.parse home args with
  | .error text => usageOutcome text
  | .ok a =>
    let r := runGame files a
    ⟨r.value.exitCode, printedNotes r.notes⟩

end NovelEngine
