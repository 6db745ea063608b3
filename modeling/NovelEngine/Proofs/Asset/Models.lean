import Mathlib.Data.List.Forall2
import NovelEngine.Asset.Model
import NovelEngine.Proofs.Asset.Clips

/-!
# Models in files

A model that comes from files is written and read back as it was. What makes this so is that such a model is sound:
parents come before their bones, faces and weights name what is there, and every clip fits the skeleton.
-/
namespace NovelEngine

def Vertex.Fits (v : Vertex) (boneCount : Nat) : Prop :=
  ∀ p ∈ v.bones.toList.zip v.weights.toList, p.2.isZero = false → p.1.toNat < boneCount

structure Mesh.Fits (m : Mesh) (boneCount : Nat) : Prop where
  vertices : ∀ v ∈ m.vertices, v.Fits boneCount
  indices : ∀ i ∈ m.indices, i.toNat < m.vertices.length

namespace Model

def FitsBone (index : Nat) (b : Bone) : Prop := ∀ parent, b.parent = some parent → parent.toNat < index

/-- What the checks of a file make sure of. -/
structure Sound (m : Model) : Prop where
  length_bones : m.bones.length ≤ maxBones
  bones : ∀ i b, m.bones[i]? = some b → FitsBone i b
  meshes : ∀ mesh ∈ m.meshes, mesh.Fits m.boneCount
  animations : ∀ a ∈ m.animations, a.check m.boneCount = .ok ()

/-- The models that are loaded from files, and those that get loaded clips besides. -/
inductive FromFiles : Model → Prop
  | loaded {m : Model} {bytes : Bytes} {id : UInt32} (h : Model.load bytes id = .ok m) : FromFiles m
  | extended {m : Model} {a : Animation} {blob : Bytes} {id : UInt16} (h : FromFiles m)
      (ha : Animation.load blob id m.boneCount = .ok a) : FromFiles (m.withAnimation a)

open Reader

variable {m : Model} {boneCount : Nat}

theorem grants_readBone (index : Nat) : Grants (readBone index) (FitsBone index) := by
  refine grants_bind fun number => grants_bind fun _ => grants_bind fun position => grants_bind fun rotation =>
    grants_bind fun scale => ?_
  refine grants_ite (fun _ => grants_pure ?_) fun hsign =>
    grants_ite (fun hlt => grants_pure ?_) fun _ => grants_throw _
  · intro parent h
    cases h
  · intro parent h
    cases h
    rw [UInt16.toNat_ofNat']
    omega

theorem grants_readVertex (boneCount : Nat) : Grants (readVertex boneCount) fun v => v.Fits boneCount := by
  refine grants_bind fun position => grants_bind fun normal => grants_bind fun uv => ?_
  refine grants_bind fun b₀ => grants_bind fun b₁ => grants_bind fun b₂ => grants_bind fun b₃ => ?_
  refine grants_bind fun w₀ => grants_bind fun w₁ => grants_bind fun w₂ => grants_bind fun w₃ => ?_
  refine (grants_forM (p := fun p : UInt8 × Single => p.2.isZero = false → p.1.toNat < boneCount)
    (fun p => ?_) _).bind fun _ hall => grants_pure hall
  refine grants_ite (fun _ => grants_throw _) fun hpass => grants_pure ?_
  intro hweight
  simpa [hweight] using hpass

theorem grants_readIndex (mesh vertexCount : Nat) :
    Grants (readIndex mesh vertexCount) fun i => i.toNat < vertexCount := by
  refine grants_bind fun index => grants_ite (fun _ => grants_throw_bind _ _) fun hlt => ?_
  exact grants_pure (Nat.lt_of_not_le hlt)

theorem grants_readMesh (boneCount mesh : Nat) : Grants (readMesh boneCount mesh) fun m => m.Fits boneCount := by
  refine grants_bind fun vertexCount => grants_bind fun indexCount => ?_
  refine (grants_many (grants_readVertex boneCount) _).bind fun vertices hvertices => ?_
  refine (grants_many (grants_readIndex mesh _) _).bind fun indices hindices => grants_pure ?_
  refine ⟨hvertices.2, ?_⟩
  intro i hi
  rw [hvertices.1]
  exact hindices.2 i hi

theorem grants_readBody (id : UInt32) : Grants (readBody id) fun r => r.1.Sound ∧ r.1.id = id := by
  refine grants_bind fun magic => grants_ite (fun _ => grants_throw_bind _ _) fun _ => ?_
  refine grants_bind fun boneCount => grants_bind fun meshCount => grants_bind fun clipCount => ?_
  refine grants_ite (fun _ => grants_throw_bind _ _) fun hle => ?_
  refine (grants_manyFrom grants_readBone 0 _).bind fun bones hbones => ?_
  refine (grants_manyFrom (grants_readMesh _) 0 _).bind fun meshes hmeshes => ?_
  refine grants_bind fun table => grants_pure ⟨⟨?_, ?_, ?_, ?_⟩, rfl⟩
  · show bones.length ≤ maxBones
    omega
  · intro i b hb
    simpa using hbones.2 i b hb
  · intro mesh hmesh
    obtain ⟨i, hi⟩ := List.getElem?_of_mem hmesh
    show mesh.Fits bones.length
    rw [hbones.1]
    exact hmeshes.2 i mesh hi
  · intro a ha
    cases ha

theorem check_of_loadClip {bytes : Bytes} {e : ClipEntry} {a : Animation} (h : loadClip bytes boneCount e = .ok a) :
    a.check boneCount = .ok () := by
  unfold loadClip at h
  split at h
  · cases h
  · exact Animation.check_of_load h

theorem mapM_eq_ok_iff {α β : Type} {f : α → Except AssetError β} {l : List α} {bs : List β} :
    l.mapM f = .ok bs ↔ List.Forall₂ (fun a b => f a = .ok b) l bs := by
  induction l generalizing bs with
  | nil =>
    rw [List.forall₂_nil_left_iff, List.mapM_nil]
    exact ⟨fun h => by cases h; rfl, fun h => by rw [h]; rfl⟩
  | cons a l ih =>
    simp only [List.mapM_cons, bind_eq_ok_iff_exists, List.forall₂_cons_left_iff, ih]
    constructor
    · rintro ⟨b, hb, bs', hl, h⟩
      cases h
      exact ⟨b, bs', hb, hl, rfl⟩
    · rintro ⟨b, bs', hb, hl, rfl⟩
      exact ⟨b, hb, bs', hl, rfl⟩

/-- A file is loaded if its body is read and every entry of its table leads to a clip. -/
theorem load_eq_ok_iff {bytes : Bytes} {id : UInt32} : load bytes id = .ok m ↔
    ∃ body table rest animations, readBody id bytes = .ok ((body, table), rest) ∧
      List.Forall₂ (fun e a => loadClip bytes body.boneCount e = .ok a) table animations ∧
      { body with animations } = m := by
  simp only [load, bind_eq_ok_iff_exists, run_eq_ok_iff, ← mapM_eq_ok_iff]
  constructor
  · rintro ⟨⟨body, table⟩, ⟨rest, hbody⟩, animations, hclips, h⟩
    cases h
    exact ⟨body, table, rest, animations, hbody, hclips, rfl⟩
  · rintro ⟨body, table, rest, animations, hbody, hclips, rfl⟩
    exact ⟨(body, table), ⟨rest, hbody⟩, animations, hclips, rfl⟩

theorem sound_of_load {bytes : Bytes} {id : UInt32} (h : Model.load bytes id = .ok m) : m.Sound := by
  obtain ⟨body, table, rest, animations, hbody, hclips, rfl⟩ := load_eq_ok_iff.mp h
  obtain ⟨hsound, -⟩ := grants_readBody id bytes _ rest hbody
  refine ⟨hsound.length_bones, hsound.bones, hsound.meshes, ?_⟩
  intro a ha
  obtain ⟨i, hi, rfl⟩ := List.getElem_of_mem ha
  exact check_of_loadClip (hclips.get (by rwa [hclips.length_eq]) hi)

theorem Sound.withAnimation {a : Animation} (hm : m.Sound) (ha : a.check m.boneCount = .ok ()) :
    (m.withAnimation a).Sound := by
  refine ⟨hm.length_bones, hm.bones, hm.meshes, ?_⟩
  intro b hb
  rcases List.mem_append.mp hb with hb | hb
  · exact hm.animations b (List.mem_filter.mp hb).1
  · obtain rfl := List.mem_singleton.mp hb
    exact ha

theorem FromFiles.sound (h : m.FromFiles) : m.Sound := by
  induction h with
  | loaded h => exact sound_of_load h
  | extended h ha ih => exact ih.withAnimation (Animation.check_of_load ha)

/-- No parent is written as -1, which no index of a parent is. -/
theorem reads_readBone {index : Nat} {b : Bone} (hindex : index ≤ maxBones) (hb : FitsBone index b) :
    Reads (readBone index) (boneBytes b) b := by
  obtain ⟨parent, position, rotation, scale⟩ := b
  apply Reads.of_eq
  · refine (reads_i16 (parent.getD 0xFFFF)).bind ((reads_u16 0).bind ((reads_vec3 position).bind
      ((reads_quat rotation).bind ((reads_vec3 scale).bind_nil ?_))))
    cases parent with
    | none => exact reads_pure _
    | some parent =>
      have hlt : parent.toNat < index := hb parent rfl
      have hmax : maxBones = 160 := rfl
      have hvalue : (Int16.ofNat parent.toNat).toInt = parent.toNat := Int16.toInt_ofNat_of_lt (by omega)
      simp only [Option.getD_some, hvalue, Int.toNat_natCast, UInt16.ofNat_toNat]
      rw [if_neg (by omega), if_pos (by omega)]
      exact reads_pure _
  · simp [boneBytes]

theorem exists_eq_of_four {α : Type} (v : Vector α 4) : ∃ a b c d, v = #v[a, b, c, d] := by
  obtain ⟨⟨l⟩, h⟩ := v
  match l, h with
  | [a, b, c, d], _ => exact ⟨a, b, c, d, rfl⟩

theorem reads_readVertex {v : Vertex} (hv : v.Fits boneCount) :
    Reads (readVertex boneCount) (vertexBytes v) v := by
  obtain ⟨position, normal, uv, bones, weights⟩ := v
  obtain ⟨b₀, b₁, b₂, b₃, rfl⟩ := exists_eq_of_four bones
  obtain ⟨w₀, w₁, w₂, w₃, rfl⟩ := exists_eq_of_four weights
  have hpass : Reads ((#v[b₀, b₁, b₂, b₃].toList.zip #v[w₀, w₁, w₂, w₃].toList).forM fun p =>
      if !p.2.isZero && boneCount ≤ p.1.toNat then throw (.boneOutOfRange p.1.toNat boneCount)
      else return ()) [] () := by
    apply reads_forM
    intro p hp
    have hbone := hv p hp
    rw [if_neg]
    · exact reads_pure _
    · cases hweight : p.2.isZero with
      | true => simp
      | false => simpa using hbone hweight
  apply Reads.of_eq
  · exact (reads_vec3 position).bind ((reads_vec3 normal).bind ((reads_vec2 uv).bind
      ((reads_u8 b₀).bind ((reads_u8 b₁).bind ((reads_u8 b₂).bind ((reads_u8 b₃).bind
        ((reads_single w₀).bind ((reads_single w₁).bind ((reads_single w₂).bind ((reads_single w₃).bind
          (hpass.bind (reads_pure _))))))))))))
  · simp [vertexBytes]

theorem reads_readIndex {mesh vertexCount : Nat} {i : UInt16} (hi : i.toNat < vertexCount) :
    Reads (readIndex mesh vertexCount) (u16Bytes i) i := by
  apply Reads.of_eq
  · refine (reads_u16 i).bind_nil ?_
    rw [if_neg (Nat.not_le_of_lt hi)]
    exact reads_pure _
  · simp

theorem reads_readMesh {mesh : Mesh} (number : Nat) (hmesh : mesh.Fits boneCount)
    (hvertices : mesh.vertices.length < wordSpan) (hindices : mesh.indices.length < wordSpan) :
    Reads (readMesh boneCount number) (meshBytes mesh) mesh := by
  have hvertexList : Reads (many (readVertex boneCount) mesh.vertices.length) (mesh.vertices.flatMap vertexBytes)
      mesh.vertices := reads_many fun v hv => reads_readVertex (hmesh.vertices v hv)
  have hindexList : Reads (many (readIndex number mesh.vertices.length) mesh.indices.length)
      (mesh.indices.flatMap u16Bytes) mesh.indices := reads_many fun i hi => reads_readIndex (hmesh.indices i hi)
  have hall : Reads (readMesh boneCount number) (wordBytes (UInt32.ofNat mesh.vertices.length) ++
      (wordBytes (UInt32.ofNat mesh.indices.length) ++ (mesh.vertices.flatMap vertexBytes ++
        (mesh.indices.flatMap u16Bytes ++ [])))) mesh := by
    refine (reads_u32 _).bind ((reads_u32 _).bind ?_)
    rw [toNat_ofNat_of_lt_wordSpan hvertices, toNat_ofNat_of_lt_wordSpan hindices]
    exact hvertexList.bind (hindexList.bind (reads_pure _))
  apply hall.of_eq
  simp [meshBytes]

theorem reads_readEntry (e : ClipEntry) :
    Reads readEntry (u16Bytes e.id ++ wordBytes e.offset ++ wordBytes e.length) e := by
  apply Reads.of_eq
  · exact (reads_u16 e.id).bind ((reads_u32 e.offset).bind ((reads_u32 e.length).bind (reads_pure _)))
  · simp

/-- The entries for clips whose bytes follow one another from `offset` on. -/
def entriesFrom : Nat → List Animation → List ClipEntry
  | _, [] => []
  | offset, a :: as =>
    ⟨a.id, UInt32.ofNat offset, UInt32.ofNat a.write.length⟩ :: entriesFrom (offset + a.write.length) as

@[simp] theorem length_entriesFrom (offset : Nat) (animations : List Animation) :
    (entriesFrom offset animations).length = animations.length := by
  induction animations generalizing offset with
  | nil => rfl
  | cons a animations ih => simp [entriesFrom, ih]

theorem tableBytes_eq (offset : Nat) (animations : List Animation) : tableBytes offset animations =
    (entriesFrom offset animations).flatMap fun e => u16Bytes e.id ++ wordBytes e.offset ++ wordBytes e.length := by
  induction animations generalizing offset with
  | nil => rfl
  | cons a animations ih => simp [tableBytes, entriesFrom, ih]

theorem length_tableBytes (offset : Nat) (animations : List Animation) :
    (tableBytes offset animations).length = 10 * animations.length := by
  induction animations generalizing offset with
  | nil => rfl
  | cons a animations ih =>
    simp [tableBytes, ih, u16Bytes]
    omega

theorem mapM_loadClip (pre : Bytes) {animations : List Animation}
    (hsize : (pre ++ animations.flatMap Animation.write).length < wordSpan)
    (hcheck : ∀ a ∈ animations, a.check boneCount = .ok ()) :
    (entriesFrom pre.length animations).mapM (loadClip (pre ++ animations.flatMap Animation.write) boneCount) =
      .ok animations := by
  induction animations generalizing pre with
  | nil => rfl
  | cons a animations ih =>
    obtain ⟨ha, hrest⟩ := List.forall_mem_cons.mp hcheck
    have hkeys := a.length_keys_le
    rw [List.flatMap_cons, ← List.append_assoc] at hsize ⊢
    have hlength : pre.length + a.write.length < wordSpan := by
      simp only [List.length_append] at hsize
      omega
    have hoffset : (UInt32.ofNat pre.length).toNat = pre.length := toNat_ofNat_of_lt_wordSpan (by omega)
    have hcount : (UInt32.ofNat a.write.length).toNat = a.write.length := toNat_ofNat_of_lt_wordSpan (by omega)
    have hclip : loadClip (pre ++ a.write ++ animations.flatMap Animation.write) boneCount
        ⟨a.id, UInt32.ofNat pre.length, UInt32.ofNat a.write.length⟩ = .ok a := by
      unfold loadClip
      rw [hoffset, hcount, if_neg (by simp), List.append_assoc, List.drop_left, List.take_left]
      exact Animation.load_of_check ha (by omega) (by omega)
    have htail := ih (pre ++ a.write) hsize hrest
    rw [List.length_append] at htail
    rw [entriesFrom, List.mapM_cons, hclip, htail]
    rfl

def frontBytes (m : Model) : Bytes :=
  modelMagic ++ (wordBytes (UInt32.ofNat m.bones.length) ++ (wordBytes (UInt32.ofNat m.meshes.length) ++
    (wordBytes (UInt32.ofNat m.animations.length) ++ (m.bones.flatMap boneBytes ++ (m.meshes.flatMap meshBytes ++
      tableBytes (16 + (m.bones.flatMap boneBytes ++ m.meshes.flatMap meshBytes).length + 10 * m.animations.length)
        m.animations)))))

theorem write_eq (m : Model) : m.write = m.frontBytes ++ m.animations.flatMap Animation.write := by
  simp [write, frontBytes]

theorem length_frontBytes (m : Model) : m.frontBytes.length =
    16 + (m.bones.flatMap boneBytes ++ m.meshes.flatMap meshBytes).length + 10 * m.animations.length := by
  have hmagic : modelMagic.length = 4 := rfl
  simp only [frontBytes, List.length_append, length_wordBytes, length_tableBytes, hmagic]
  omega

theorem length_mesh_le (mesh : Mesh) :
    mesh.vertices.length ≤ (meshBytes mesh).length ∧ mesh.indices.length ≤ (meshBytes mesh).length := by
  have hvertices := length_le_length_flatMap vertexBytes
    (by intro v; simp only [vertexBytes, List.length_append, Vector.length_toList]; omega) mesh.vertices
  have hindices := length_le_length_flatMap u16Bytes (by simp [u16Bytes]) mesh.indices
  simp only [meshBytes, List.length_append]
  omega

theorem Sound.reads_readBody (hm : m.Sound) (hsize : m.frontBytes.length < wordSpan) :
    Reads (readBody m.id) m.frontBytes ({ m with animations := [] }, entriesFrom m.frontBytes.length m.animations) := by
  have hmeshes := length_le_length_flatMap meshBytes
    (by intro mesh; simp only [meshBytes, List.length_append, length_wordBytes]; omega) m.meshes
  have hlength := m.length_frontBytes
  have hsound := hm.length_bones
  have hmax : maxBones < wordSpan := by decide
  simp only [List.length_append] at hlength
  have hmagic : Reads (take 4) modelMagic modelMagic := reads_take modelMagic
  have hboneList : Reads (manyFrom readBone 0 m.bones.length) (m.bones.flatMap boneBytes) m.bones := by
    apply reads_manyFrom
    intro i b hb
    obtain ⟨hlt, -⟩ := List.getElem?_eq_some_iff.mp hb
    have hfits := hm.bones i b hb
    rw [Nat.zero_add]
    exact reads_readBone (by omega) hfits
  have hmeshList : Reads (manyFrom (readMesh m.bones.length) 0 m.meshes.length) (m.meshes.flatMap meshBytes)
      m.meshes := by
    apply reads_manyFrom
    intro i mesh hmesh
    have hmem := List.mem_of_getElem? hmesh
    have hle := length_le_length_flatMap_of_mem meshBytes hmem
    obtain ⟨hvertices, hindices⟩ := length_mesh_le mesh
    exact reads_readMesh _ (hm.meshes mesh hmem) (by omega) (by omega)
  have htable : Reads (many readEntry m.animations.length)
      (tableBytes m.frontBytes.length m.animations) (entriesFrom m.frontBytes.length m.animations) := by
    rw [tableBytes_eq, ← length_entriesFrom m.frontBytes.length]
    exact reads_many fun e _ => reads_readEntry e
  have hall : Reads (readBody m.id) (modelMagic ++ (wordBytes (UInt32.ofNat m.bones.length) ++
      (wordBytes (UInt32.ofNat m.meshes.length) ++ (wordBytes (UInt32.ofNat m.animations.length) ++
        (m.bones.flatMap boneBytes ++ (m.meshes.flatMap meshBytes ++
          (tableBytes m.frontBytes.length m.animations ++ [])))))))
      ({ m with animations := [] }, entriesFrom m.frontBytes.length m.animations) := by
    refine hmagic.bind ?_
    rw [if_neg (by simp)]
    refine (reads_u32 _).bind ((reads_u32 _).bind ((reads_u32 _).bind ?_))
    rw [toNat_ofNat_of_lt_wordSpan (by omega), toNat_ofNat_of_lt_wordSpan (by omega),
      toNat_ofNat_of_lt_wordSpan (by omega), if_neg (by omega)]
    exact hboneList.bind (hmeshList.bind (htable.bind (reads_pure _)))
  apply hall.of_eq
  rw [m.length_frontBytes, frontBytes]
  simp

theorem Sound.load_eq (hm : m.Sound) (hsize : m.write.length < wordSpan) : load m.write m.id = .ok m := by
  have hclips := mapM_loadClip m.frontBytes (m.write_eq ▸ hsize) hm.animations
  have hfront : m.frontBytes.length < wordSpan := by
    rw [write_eq, List.length_append] at hsize
    omega
  have hbody := hm.reads_readBody hfront (m.animations.flatMap Animation.write)
  rw [← write_eq] at hclips hbody
  exact load_eq_ok_iff.mpr ⟨_, _, _, m.animations, hbody, mapM_eq_ok_iff.mp hclips, rfl⟩

/-- A model that comes from files is written and read back as it was. -/
theorem FromFiles.load_write (h : m.FromFiles) (hsize : m.write.length < wordSpan) :
    load m.write m.id = .ok m := h.sound.load_eq hsize

/-- A skeleton of one bone, with two entries of one id for the same bytes. -/
def sharedFile : Bytes :=
  modelMagic ++ wordBytes 1 ++ wordBytes 0 ++ wordBytes 2 ++ boneBytes .root ++
    (u16Bytes 3 ++ wordBytes 80 ++ wordBytes 16) ++ (u16Bytes 3 ++ wordBytes 80 ++ wordBytes 16) ++
    (wordBytes 0x3F800000 ++ wordBytes 0 ++ wordBytes 0 ++ wordBytes 0)

/-- A clip whose one track turns the root once. -/
def turnFile : Bytes :=
  wordBytes 0 ++ wordBytes 1 ++ wordBytes 0 ++ wordBytes 1 ++
    (u16Bytes 0 ++ u16Bytes 9 ++ List.replicate 28 0 ++ List.replicate 12 0 ++ u16Bytes 1) ++
    (wordBytes 0 ++ quatBytes .identity)

def sharedModel : Model := ⟨7, [.root], [], List.replicate 2 ⟨3, .one, [], [], []⟩⟩

def turnClip : Animation :=
  let windows : Channels Window := ⟨⟨0, 0⟩, ⟨0, 0⟩, ⟨0, 0⟩, ⟨0, 0⟩, ⟨0, 0⟩, ⟨0, 0⟩, ⟨0, 1⟩⟩
  ⟨4, .zero, [⟨0, windows⟩], [], [⟨.zero, .identity⟩]⟩

theorem FromFiles.load_write_shared :
    load sharedFile 7 = .ok sharedModel ∧ Animation.load turnFile 4 sharedModel.boneCount = .ok turnClip ∧
      load (sharedModel.withAnimation turnClip).write 7 = .ok (sharedModel.withAnimation turnClip) := by
  have hmodel : load sharedFile 7 = .ok sharedModel := by rfl
  have hclip : Animation.load turnFile 4 sharedModel.boneCount = .ok turnClip := by rfl
  exact ⟨hmodel, hclip, FromFiles.load_write (.extended (.loaded hmodel) hclip) (by decide +kernel)⟩

end Model
end NovelEngine
