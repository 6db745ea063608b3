import NovelEngine.Bytes
import NovelEngine.Script.Defect

/-!
# Script files

A script file starts with a magic, the offset of its string table and the offset of its return table.
Then come the label table, the code, the string table and the return table, which runs to the end of
the file. The label table has no length of its own: it ends where its first label points, or at the
string table. Labels and return addresses are offsets into the whole file and lie within the code.
-/
namespace NovelEngine

def scriptMagic : Bytes := [0x53, 0x43, 0x33, 0x00]

def scriptHeaderSize : Nat := 12

/-- How many script buffers an engine has. -/
def scriptBufferCount : Nat := 16

/-- `code` is everything before the string table, the header and the label table included. Its suffixes are
kept so that reading costs the same at any position. -/
structure Script where
  id : UInt32
  bytes : Bytes
  code : Bytes
  codeEnd : Nat
  labels : List UInt32
  returns : List UInt32
  suffixes : Array Bytes
  length_code : code.length = codeEnd
  suffixes_code : suffixes = (NovelEngine.suffixes code).toArray

namespace Script

/-- The code from a position on. -/
def codeFrom (s : Script) (pos : Nat) : Bytes := s.suffixes.getD pos []

@[simp] theorem codeFrom_eq_drop (s : Script) (pos : Nat) : s.codeFrom pos = s.code.drop pos := by
  rw [codeFrom, s.suffixes_code, Array.getD_eq_getD_getElem?, List.getElem?_toArray,
    ← List.getD_eq_getElem?_getD, getD_suffixes]

/-- The word at an offset of a byte string that is long enough. -/
def wordAt (bytes : Bytes) (offset : Nat) : Nat := littleEndian ((bytes.drop offset).take 4)

/-- The number of labels of a file whose string table is at `codeEnd`. -/
def labelCount (bytes : Bytes) (codeEnd : Nat) : Nat :=
  if codeEnd < scriptHeaderSize + 4 then 0
  else
    let first := wordAt bytes scriptHeaderSize
    max 1 ((min first codeEnd - scriptHeaderSize) / 4)

def parse (id : UInt32) (bytes : Bytes) : Except Defect Script :=
  let bad (fault : HeaderFault) : Except Defect Script := .error (.badHeader id fault)
  if bytes.length < scriptHeaderSize ∨ bytes.take 4 ≠ scriptMagic then bad .missingMagic
  else
    let codeEnd := wordAt bytes 4
    let returnTable := wordAt bytes 8
    if h : codeEnd < scriptHeaderSize ∨ bytes.length < codeEnd then bad .stringTable
    else if returnTable < codeEnd ∨ bytes.length < returnTable then bad .returnTable
    else
      let count := labelCount bytes codeEnd
      let labels := words ((bytes.drop scriptHeaderSize).take (4 * count))
      let codeStart := scriptHeaderSize + 4 * count
      if labels.any fun l => codeEnd < l.toNat then bad .labelPastCode
      else if labels.any fun l => l.toNat < codeStart then bad .labelBeforeCode
      else if (bytes.length - returnTable) % 4 ≠ 0 then bad .truncatedReturns
      else
        let returns := words (bytes.drop returnTable)
        if returns.any fun r => r.toNat < codeStart ∨ codeEnd < r.toNat then bad .returnOutsideCode
        else
          let code := bytes.take codeEnd
          .ok ⟨id, bytes, code, codeEnd, labels, returns, (NovelEngine.suffixes code).toArray, by
            simp only [code, List.length_take]
            omega, rfl⟩

/-- Lays out a file around `code`. Labels and return addresses are given relative to the start of the
code; without labels there is one at the start. -/
def build (id : UInt32) (code : Bytes) (labels returns : List UInt32) : Script :=
  let labels := if labels.isEmpty then [0] else labels
  let codeStart := scriptHeaderSize + 4 * labels.length
  let codeEnd := codeStart + code.length
  let place (offset : UInt32) := UInt32.ofNat codeStart + offset
  let ends := wordBytes (UInt32.ofNat codeEnd)
  let table := (labels.map place).flatMap wordBytes
  let front := scriptMagic ++ (ends ++ (ends ++ (table ++ code)))
  let back := (returns.map place).flatMap wordBytes
  ⟨id, front ++ back, front, codeEnd, labels.map place, returns.map place,
    (NovelEngine.suffixes front).toArray, by
    simp only [front, ends, table, scriptMagic, List.length_append, List.length_cons, List.length_nil,
      length_wordBytes, length_flatMap_wordBytes, List.length_map, codeEnd, codeStart, scriptHeaderSize]
    omega, rfl⟩

/-- The code offset of a label. -/
def label (s : Script) (index : Int32) : Except Defect Nat :=
  match if index < 0 then none else s.labels[index.toInt.toNat]? with
  | some offset => .ok offset.toNat
  | none => .error (.addressOutOfRange .labels index.toInt s.labels.length)

/-- The code offset of a numbered return address. -/
def returnAddress (s : Script) (id : UInt16) : Except Defect Nat :=
  match s.returns[id.toNat]? with
  | some offset => .ok offset.toNat
  | none => .error (.addressOutOfRange .returns id.toNat s.returns.length)

end Script
end NovelEngine
