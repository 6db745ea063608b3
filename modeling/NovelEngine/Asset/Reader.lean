import NovelEngine.Bytes
import NovelEngine.Numeric.Geometry

/-!
# Reading asset files

A reader takes what it needs from the front of a byte string and leaves the rest. Numbers are stored
lowest byte first, rotations as x, y, z, w.
-/
namespace NovelEngine

inductive AssetError
  | truncated
  | badMagic (expected found : Bytes)
  | tooManyBones (count max : Nat)
  | trackOutOfBounds (track : Nat) (channel : String) (offset : UInt32) (count : UInt16)
      (available : Nat)
  | unsortedKeyframes (track : Nat) (channel : String)
  | boneOutOfRange (bone boneCount : Nat)
  | indexOutOfRange (mesh : Nat) (index : UInt16) (vertexCount : Nat)
  | animationOutOfBounds (id : UInt16) (offset length : UInt32)
  deriving DecidableEq, Inhabited

namespace AssetError

def byteList (bs : Bytes) : String :=
  "[" ++ ", ".intercalate (bs.map fun b => toString b.toNat) ++ "]"

def message : AssetError → String
  | truncated => "asset stream ended before the structure was complete"
  | badMagic expected found =>
    "bad magic: expected " ++ byteList expected ++ ", found " ++ byteList found
  | tooManyBones count max => s!"{count} bones exceeds the limit of {max}"
  | trackOutOfBounds track channel offset count available =>
    s!"track {track} {channel} range " ++ toString offset.toNat ++ "+" ++ toString count.toNat ++
      s!" exceeds {available} keyframes"
  | unsortedKeyframes track channel => s!"track {track} {channel} keyframes are not sorted by time"
  | boneOutOfRange bone boneCount => s!"bone index {bone} out of range for {boneCount} bones"
  | indexOutOfRange mesh index vertexCount =>
    s!"mesh {mesh} index " ++ toString index.toNat ++ s!" out of range for {vertexCount} vertices"
  | animationOutOfBounds id offset length =>
    "animation " ++ toString id.toNat ++ " blob at " ++ toString offset.toNat ++ "+" ++
      toString length.toNat ++ " lies outside the model file"

end AssetError

abbrev Reader (α : Type) := StateT Bytes (Except AssetError) α

namespace Reader

def run {α : Type} (r : Reader α) (bytes : Bytes) : Except AssetError α :=
  match StateT.run r bytes with
  | .ok (a, _) => .ok a
  | .error e => .error e

def take (n : Nat) : Reader Bytes := fun bytes =>
  match splitExact n bytes with
  | some r => .ok r
  | none => .error .truncated

def number {α : Type} (width : Nat) (f : Nat → α) : Reader α :=
  return f (littleEndian (← take width))

def u8 : Reader UInt8 := number 1 UInt8.ofNat
def u16 : Reader UInt16 := number 2 UInt16.ofNat
def i16 : Reader Int16 := number 2 Int16.ofNat
def u32 : Reader UInt32 := number 4 UInt32.ofNat
def single : Reader Single := number 4 fun n => ⟨UInt32.ofNat n⟩

def vec2 : Reader Vec2 := return ⟨← single, ← single⟩
def vec3 : Reader Vec3 := return ⟨← single, ← single, ← single⟩
def quat : Reader Quat := return ⟨← single, ← single, ← single, ← single⟩

/-- Items number `first`, `first + 1`, … `first + count - 1`, one after another. -/
def manyFrom {α : Type} (item : Nat → Reader α) (first : Nat) : (count : Nat) → Reader (List α)
  | 0 => return []
  | count + 1 => do
    let a ← item first
    return a :: (← manyFrom item (first + 1) count)

def many {α : Type} (item : Reader α) (count : Nat) : Reader (List α) := manyFrom (fun _ => item) 0 count

end Reader

def u16Bytes (n : UInt16) : Bytes := toLittleEndian 2 n.toNat
def singleBytes (x : Single) : Bytes := wordBytes x.bits
def vec2Bytes (v : Vec2) : Bytes := singleBytes v.x ++ singleBytes v.y
def vec3Bytes (v : Vec3) : Bytes := v.toList.flatMap singleBytes
def quatBytes (q : Quat) : Bytes := q.toList.flatMap singleBytes

end NovelEngine
