import NovelEngine.CommandLine

/-!
# The program

Reads the arguments and the files of a game, runs its frames at their pace and prints what they log.
-/
namespace NovelEngine

/-- The files that were read, and the texts for all paths into directories that cannot be read. -/
structure FileCache where
  contents : List (String × Except String Bytes)
  closed : List (String × String)

namespace FileCache

def files (cache : FileCache) : Files := fun path =>
  match FileTree.pathFault? path with
  | some fault => .error fault
  | none =>
    match cache.contents.find? fun f => f.1 = path with
    | some f => f.2
    | none =>
      match cache.closed.find? fun d => path.startsWith d.1 with
      | some d => .error d.2
      | none => .error FileTree.missing

/-- The text for a file that cannot be read. The code of an error may come negated. -/
def failureText : IO.Error → String
  | .noFileOrDirectory .. => FileTree.missing
  | .inappropriateType _ code _ =>
    if code = 20 ∨ code = -20 then FileTree.notDirectory else FileTree.isDirectoryError
  | e@(.invalidArgument _ code _) =>
    if code = 36 ∨ code = -36 then FileTree.nameTooLong else toString e
  | e => toString e

def readFile (path : String) : IO (Except String Bytes) := do
  match FileTree.pathFault? path with
  | some fault => return .error fault
  | none =>
    try
      let bytes ← IO.FS.readBinFile path
      return .ok bytes.toList
    catch e => return .error (failureText e)

/-- Reads the files of a directory. -/
def readDirectory (directory : String) : IO FileCache := do
  let inside := joinPath directory ""
  match ← readFile inside with
  | .ok _ => return ⟨[], []⟩
  | .error text =>
    if text ≠ FileTree.isDirectoryError then return ⟨[], [(inside, text)]⟩
    let entries ← (← IO.FS.realPath directory).readDir
    let contents ← entries.toList.mapM fun e => do
      let path := joinPath directory e.fileName
      return (path, ← readFile path)
    return ⟨contents, []⟩

/-- Reads all files that the game in `root` can ask for. -/
def readGame (root : String) : IO FileCache := do
  let path := joinPath root configFile
  let config := [(path, ← readFile path)]
  match Project.load (files ⟨config, []⟩) root with
  | .error _ => return ⟨config, []⟩
  | .ok p =>
    let assets := [Category.background, Category.character].map fun category =>
      joinPath (p.config.assetRoot root) category.directory
    let caches ← (joinPath root scriptDirectory :: assets).mapM readDirectory
    return ⟨config ++ caches.flatMap FileCache.contents, caches.flatMap FileCache.closed⟩

end FileCache

def printNotes (notes : List Note) : IO Unit := IO.eprint (printedNotes notes)

/-- Runs rounds until one ends the run; each lasts as long as a frame is shown. -/
partial def playRounds (maxFrames : Option Nat) (s : Session) : IO RunEnd := do
  let began ← IO.monoNanosNow
  let r := s.round maxFrames
  printNotes r.notes
  match r.value with
  | .error e => return e
  | .ok s =>
    let elapsed := (← IO.monoNanosNow) - began
    IO.sleep (UInt32.ofNat ((frameNanos - elapsed) / 1000000))
    playRounds maxFrames s

def playGame (a : Arguments) : IO RunEnd := do
  let opened := openGame (← FileCache.readGame a.root).files a.root
  printNotes opened.notes
  let e ← match opened.value with
    | .error e => pure e
    | .ok s => playRounds a.maxFrames s
  printNotes (closeGame e).notes
  return e

def runHere (args : List String) : IO UInt32 := do
  match Arguments.parse (← IO.currentDir).toString args with
  | .error text =>
    let o := usageOutcome text
    IO.eprint o.standardError
    return UInt32.ofNat o.exitCode
  | .ok a => return UInt32.ofNat (← playGame a).exitCode

end NovelEngine

def main (args : List String) : IO UInt32 := NovelEngine.runHere args
