/-!
# Generational identifiers

An identifier names a place and the generation of its tenant: when a place is given to someone else its
generation moves on, and identifiers of the former tenant no longer match. Index 0 names nothing.

Scripts see a thread identifier as a 31-bit number, its handle, which keeps the low 16 bits of the index
and the low 15 bits of the generation.
-/
namespace NovelEngine

structure ThreadId where
  index : UInt32
  generation : UInt32
  deriving DecidableEq, Inhabited

structure LoadHandle where
  index : UInt32
  generation : UInt32
  deriving DecidableEq, Inhabited

/-- Index in the low half, generation in the high half. -/
def packPair (index generation : UInt32) : UInt64 :=
  UInt64.ofNat (index.toNat + 0x100000000 * generation.toNat)

def lowHalf (n : UInt64) : UInt32 := UInt32.ofNat (n.toNat % 0x100000000)
def highHalf (n : UInt64) : UInt32 := UInt32.ofNat (n.toNat / 0x100000000)

@[simp] theorem toNat_packPair (index generation : UInt32) :
    (packPair index generation).toNat = index.toNat + 0x100000000 * generation.toNat := by
  have := index.toNat_lt
  have := generation.toNat_lt
  simp only [packPair, UInt64.toNat_ofNat']
  omega

@[simp] theorem lowHalf_packPair (index generation : UInt32) :
    lowHalf (packPair index generation) = index := by
  have := index.toNat_lt
  apply UInt32.toNat_inj.mp
  simp only [lowHalf, toNat_packPair, UInt32.toNat_ofNat']
  omega

@[simp] theorem highHalf_packPair (index generation : UInt32) :
    highHalf (packPair index generation) = generation := by
  have := index.toNat_lt
  have := generation.toNat_lt
  apply UInt32.toNat_inj.mp
  simp only [highHalf, toNat_packPair, UInt32.toNat_ofNat']
  omega

namespace ThreadId

def nil : ThreadId := ⟨0, 0⟩

def isNil (id : ThreadId) : Bool := id = nil

def toUInt64 (id : ThreadId) : UInt64 := packPair id.index id.generation
def ofUInt64 (n : UInt64) : ThreadId := ⟨lowHalf n, highHalf n⟩

@[simp] theorem ofUInt64_toUInt64 (id : ThreadId) : ofUInt64 id.toUInt64 = id := by
  simp [ofUInt64, toUInt64]

def text (id : ThreadId) : String := toString id.index.toNat ++ ":" ++ toString id.generation.toNat

def debugText (id : ThreadId) : String := "ThreadID(" ++ id.text ++ ")"

/-- The largest index that a script handle can hold. -/
def maxScriptIndex : Nat := 0xFFFF

/-- The number that a script holds for a thread; it is never negative. -/
def toScriptHandle (id : ThreadId) : Int32 :=
  Int32.ofNat (id.index.toNat % 0x10000 + 0x10000 * (id.generation.toNat % 0x8000))

/-- Reads index and truncated generation back; the sign bit is ignored. -/
def ofScriptHandle (handle : Int32) : ThreadId :=
  let raw := handle.toUInt32.toNat
  ⟨UInt32.ofNat (raw % 0x10000), UInt32.ofNat (raw / 0x10000 % 0x8000)⟩

/-- Whether the truncated generation of `id` is that of a full generation. -/
def matchesGeneration (id : ThreadId) (generation : UInt32) : Bool :=
  id.generation.toNat == generation.toNat % 0x8000

def insertSorted (id : ThreadId) : List ThreadId → List ThreadId
  | [] => [id]
  | x :: xs =>
    if id.toUInt64 < x.toUInt64 then id :: x :: xs
    else if id.toUInt64 = x.toUInt64 then x :: xs
    else x :: insertSorted id xs

/-- The different identifiers of a list, by rising packed value. -/
def sortUnique (ids : List ThreadId) : List ThreadId := ids.foldr insertSorted []

end ThreadId

namespace LoadHandle

def nil : LoadHandle := ⟨0, 0⟩

def isNil (h : LoadHandle) : Bool := h = nil

def toUInt64 (h : LoadHandle) : UInt64 := packPair h.index h.generation
def ofUInt64 (n : UInt64) : LoadHandle := ⟨lowHalf n, highHalf n⟩

@[simp] theorem ofUInt64_toUInt64 (h : LoadHandle) : ofUInt64 h.toUInt64 = h := by
  simp [ofUInt64, toUInt64]

def text (h : LoadHandle) : String := toString h.index.toNat ++ ":" ++ toString h.generation.toNat

def debugText (h : LoadHandle) : String := "LoadHandle(" ++ h.text ++ ")"

end LoadHandle
end NovelEngine
