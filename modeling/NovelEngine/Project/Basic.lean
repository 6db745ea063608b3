import NovelEngine.Machine.Basic
import NovelEngine.Project.Config
import NovelEngine.Project.FileTree
import NovelEngine.Project.Path
import NovelEngine.Scene.Loads

/-! # Games on disk -/
namespace NovelEngine

inductive ProjectError
  | unreadable (text : String)
  | config (error : ConfigError)
  deriving DecidableEq, Inhabited

def ProjectError.message : ProjectError → String
  | unreadable text => text
  | config error => error.message

/-- A game: the directory it lies in and its configuration. -/
structure Project where
  root : String
  config : Config
  deriving DecidableEq, Inhabited

/-- The directory of the assets of a game in `root`. -/
def Config.assetRoot (c : Config) (root : String) : String := joinPath root c.assets.root

namespace Project

def notUtf8 : String := "stream did not contain valid UTF-8"

def readText (files : Files) (path : String) : Except ProjectError String :=
  match files path with
  | .error text => .error (.unreadable text)
  | .ok bytes =>
    match String.fromUTF8? ⟨bytes.toArray⟩ with
    | some text => .ok text
    | none => .error (.unreadable notUtf8)

def load (files : Files) (root : String) : Except ProjectError Project := do
  let text ← readText files (joinPath root configFile)
  match Config.parse text with
  | .error e => throw (.config e)
  | .ok config => return ⟨root, config⟩

def library (p : Project) (files : Files) : ScriptLibrary := fun id => files (scriptPath p.root id)

def assets (p : Project) (files : Files) : AssetSource :=
  fun category id => files (modelPath (p.config.assetRoot p.root) category id)

end Project
end NovelEngine
