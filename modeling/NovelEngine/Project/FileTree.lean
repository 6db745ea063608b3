import NovelEngine.Bytes

/-!
# Files

`Files` is whatever paths can be read from. A `FileTree` is such a thing held in memory: files with their
absolute places, and a directory that relative paths start from.
-/
namespace NovelEngine

/-- File contents by path; a file that cannot be read has an error text instead. -/
abbrev Files := String → Except String Bytes

structure FileTree where
  home : List String
  files : List (List String × Bytes)

namespace FileTree

def missing : String := "No such file or directory (os error 2)"
def notDirectory : String := "Not a directory (os error 20)"
def isDirectoryError : String := "Is a directory (os error 21)"
def nameTooLong : String := "File name too long (os error 36)"
def zeroInName : String := "file name contained an unexpected NUL byte"

/-- A path has fewer bytes than this. -/
def pathLimit : Nat := 4096

/-- A part of a path has at most this many bytes. -/
def nameLimit : Nat := 255

/-- Why a path cannot name a file, whatever files there are. -/
def pathFault? (path : String) : Option String :=
  if path.contains '\x00' then some zeroInName
  else if path = "" then some missing
  else if pathLimit ≤ path.utf8ByteSize then some nameTooLong
  else none

def parts (path : String) : List String := path.splitOn "/"

/-- The place of a file that a path from a directory on names; the path goes down only. -/
def placeIn (directory : List String) (path : String) : List String :=
  directory ++ (parts path).filter fun part => part ≠ "" ∧ part ≠ "."

/-- The files written one after another into a directory; what is written later replaces what was there. -/
def written (home : List String) (files : List (String × Bytes)) : FileTree :=
  ⟨home, (files.map fun f => (placeIn home f.1, f.2)).reverse⟩

/-- The content of a file; of two files in one place the first one counts. -/
def file? (t : FileTree) (place : List String) : Option Bytes :=
  (t.files.find? fun f => f.1 = place).map Prod.snd

/-- A directory is there if something lies in it. -/
def isDirectory (t : FileTree) (place : List String) : Bool :=
  place.isPrefixOf t.home || t.files.any fun f => place.isPrefixOf f.1 && place.length < f.1.length

/-- Follows the parts of a path from a place on. -/
def follow (t : FileTree) : (place : List String) → List String → Except String (List String)
  | place, [] => .ok place
  | place, part :: rest =>
    if !t.isDirectory place then
      .error (if (t.file? place).isSome then notDirectory else missing)
    else if part = "" ∨ part = "." then t.follow place rest
    else if part = ".." then t.follow place.dropLast rest
    else if nameLimit < part.utf8ByteSize then .error nameTooLong
    else t.follow (place ++ [part]) rest

/-- Reads the file at a path. -/
def read (t : FileTree) : Files := fun path => do
  if let some fault := pathFault? path then throw fault
  let place ← t.follow (if path.startsWith "/" then [] else t.home) (parts path)
  match t.file? place with
  | some bytes => return bytes
  | none => throw (if t.isDirectory place then isDirectoryError else missing)

end FileTree
end NovelEngine
