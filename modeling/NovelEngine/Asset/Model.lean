import NovelEngine.Asset.Animation

/-!
# Models

Characters and three-dimensional backgrounds share one file format: a magic, three counts, bones, meshes,
and a table that says for each clip where its bytes lie in the file. A bone's parent comes before it, so
poses can be composed in one pass.
-/
namespace NovelEngine

def modelMagic : Bytes := [0x4D, 0x44, 0x4C, 0x31]

structure Bone where
  parent : Option UInt16
  rest : Transform
  deriving DecidableEq, Inhabited

def Bone.root : Bone := ⟨none, .identity⟩

/-- A vertex follows up to four bones, each with a weight. -/
structure Vertex where
  position : Vec3
  normal : Vec3
  uv : Vec2
  bones : Vector UInt8 4
  weights : Vector Single 4
  deriving DecidableEq

structure Mesh where
  vertices : List Vertex
  indices : List UInt16
  deriving DecidableEq, Inhabited

structure Model where
  id : UInt32
  bones : List Bone
  meshes : List Mesh
  animations : List Animation
  deriving DecidableEq, Inhabited

/-- Where the clip with some id lies in a model file. -/
structure ClipEntry where
  id : UInt16
  offset : UInt32
  length : UInt32
  deriving DecidableEq, Inhabited

namespace Model

def readBone (index : Nat) : Reader Bone := do
  let parent := (← Reader.i16).toInt
  let _ ← Reader.u16
  let rest : Transform := ⟨← Reader.vec3, ← Reader.quat, ← Reader.vec3⟩
  if parent < 0 then return ⟨none, rest⟩
  else if parent < index then return ⟨some (UInt16.ofNat parent.toNat), rest⟩
  else throw (.boneOutOfRange parent.toNat index)

def readVertex (boneCount : Nat) : Reader Vertex := do
  let position ← Reader.vec3
  let normal ← Reader.vec3
  let uv ← Reader.vec2
  let bones := #v[← Reader.u8, ← Reader.u8, ← Reader.u8, ← Reader.u8]
  let weights := #v[← Reader.single, ← Reader.single, ← Reader.single, ← Reader.single]
  (bones.toList.zip weights.toList).forM fun p =>
    if !p.2.isZero && boneCount ≤ p.1.toNat then throw (.boneOutOfRange p.1.toNat boneCount)
    else return ()
  return ⟨position, normal, uv, bones, weights⟩

def readIndex (mesh vertexCount : Nat) : Reader UInt16 := do
  let index ← Reader.u16
  if vertexCount ≤ index.toNat then throw (.indexOutOfRange mesh index vertexCount)
  return index

def readMesh (boneCount mesh : Nat) : Reader Mesh := do
  let vertexCount := (← Reader.u32).toNat
  let indexCount := (← Reader.u32).toNat
  let vertices ← Reader.many (readVertex boneCount) vertexCount
  let indices ← Reader.many (readIndex mesh vertexCount) indexCount
  return ⟨vertices, indices⟩

def readEntry : Reader ClipEntry := return ⟨← Reader.u16, ← Reader.u32, ← Reader.u32⟩

/-- Everything but the clips, and the table that leads to them. -/
def readBody (id : UInt32) : Reader (Model × List ClipEntry) := do
  let magic ← Reader.take 4
  if magic ≠ modelMagic then throw (.badMagic modelMagic magic)
  let boneCount := (← Reader.u32).toNat
  let meshCount := (← Reader.u32).toNat
  let clipCount := (← Reader.u32).toNat
  if maxBones < boneCount then throw (.tooManyBones boneCount maxBones)
  let bones ← Reader.manyFrom readBone 0 boneCount
  let meshes ← Reader.manyFrom (readMesh boneCount) 0 meshCount
  let table ← Reader.many readEntry clipCount
  return (⟨id, bones, meshes, []⟩, table)

def loadClip (bytes : Bytes) (boneCount : Nat) (e : ClipEntry) : Except AssetError Animation :=
  if bytes.length < e.offset.toNat + e.length.toNat then
    .error (.animationOutOfBounds e.id e.offset e.length)
  else Animation.load ((bytes.drop e.offset.toNat).take e.length.toNat) e.id boneCount

def load (bytes : Bytes) (id : UInt32) : Except AssetError Model := do
  let (model, table) ← (readBody id).run bytes
  let animations ← table.mapM (loadClip bytes model.bones.length)
  return { model with animations }

def boneCount (m : Model) : Nat := m.bones.length

/-- Adds a clip, in place of any clip with its id. -/
def withAnimation (m : Model) (a : Animation) : Model :=
  { m with animations := m.animations.filter (fun b => b.id ≠ a.id) ++ [a] }

/-- The first clip with an id. -/
def animation? (m : Model) (id : UInt16) : Option Animation := m.animations.find? fun a => a.id = id

def boneBytes (b : Bone) : Bytes :=
  u16Bytes (b.parent.getD 0xFFFF) ++ u16Bytes 0 ++ vec3Bytes b.rest.position ++
    quatBytes b.rest.rotation ++ vec3Bytes b.rest.scale

def vertexBytes (v : Vertex) : Bytes :=
  vec3Bytes v.position ++ vec3Bytes v.normal ++ vec2Bytes v.uv ++ v.bones.toList ++
    v.weights.toList.flatMap singleBytes

def meshBytes (m : Mesh) : Bytes :=
  wordBytes (UInt32.ofNat m.vertices.length) ++ wordBytes (UInt32.ofNat m.indices.length) ++
    m.vertices.flatMap vertexBytes ++ m.indices.flatMap u16Bytes

/-- The table for clips whose bytes follow one another from `offset` on. -/
def tableBytes : Nat → List Animation → Bytes
  | _, [] => []
  | offset, a :: as =>
    let length := a.write.length
    u16Bytes a.id ++ wordBytes (UInt32.ofNat offset) ++ wordBytes (UInt32.ofNat length) ++
      tableBytes (offset + length) as

/-- The written form; the clips follow the table in order. -/
def write (m : Model) : Bytes :=
  let header := modelMagic ++ wordBytes (UInt32.ofNat m.bones.length) ++
    wordBytes (UInt32.ofNat m.meshes.length) ++ wordBytes (UInt32.ofNat m.animations.length)
  let body := m.bones.flatMap boneBytes ++ m.meshes.flatMap meshBytes
  let start := 16 + body.length + 10 * m.animations.length
  header ++ body ++ tableBytes start m.animations ++ m.animations.flatMap Animation.write

end Model
end NovelEngine
