import NovelEngine.Slot

/-!
# Where the files of a game lie

Paths are texts with slashes. A relative path is put behind its base with exactly one slash more where the
base does not end in one; an absolute path replaces its base.
-/
namespace NovelEngine

def isAbsolute (path : String) : Bool := path.startsWith "/"

def joinPath (base path : String) : String :=
  if isAbsolute path then path
  else if base = "" ∨ base.endsWith "/" then base ++ path
  else base ++ "/" ++ path

def configFile : String := "game.toml"

def scriptDirectory : String := "script"

def Category.directory : Category → String
  | background => "bg"
  | character => "chara"

def modelPath (root : String) (category : Category) (id : UInt32) : String :=
  joinPath (joinPath root category.directory) (toString id.toNat ++ ".mdl")

def scriptPath (root : String) (id : UInt32) : String :=
  joinPath (joinPath root scriptDirectory) (toString id.toNat ++ ".scx")

end NovelEngine
