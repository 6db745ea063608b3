import Mathlib.Logic.Relation
import NovelEngine.Proofs.Asset.KeyOrder
import NovelEngine.Proofs.Asset.Models

/-!
# Indices in loaded models

Whoever draws or moves a model follows its indices without looking: from bones to parents, from faces to vertices, from
weights and tracks to bones, from tracks to keyframes. In a model that was loaded they all lead to something. Parents
come first, so that following them ends at a root and one pass over the bones composes every pose with its parent's.
-/
namespace NovelEngine

/-- The tracks of a clip name bones and their windows lie in its lists. -/
structure Animation.InBounds (a : Animation) (boneCount : Nat) : Prop where
  length_tracks : a.tracks.length ≤ 160
  bone_lt : ∀ t ∈ a.tracks, t.bone.toNat < boneCount
  scalar_le : ∀ t ∈ a.tracks, ∀ w ∈ t.windows.scalars, w.offset.toNat + w.count.toNat ≤ a.coords.length
  rotation_le : ∀ t ∈ a.tracks,
    t.windows.rotation.offset.toNat + t.windows.rotation.count.toNat ≤ a.rotations.length

theorem Animation.Fits.inBounds {a : Animation} {boneCount : Nat} (h : a.Fits boneCount) : a.InBounds boneCount where
  length_tracks := h.length_tracks
  bone_lt t ht := (h.tracks t ht).bone_lt
  scalar_le t ht w hw := ((h.tracks t ht).scalars w hw).stop_le
  rotation_le t ht := (h.tracks t ht).rotation.stop_le

theorem Single.isZero_of_isNaN {x : Single} (h : x.isNaN = true) : x.isZero = false := by
  have hlt : infinityMagnitude < x.magnitude := of_decide_eq_true h
  have hpos : x.magnitude ≠ 0 := Nat.ne_of_gt (Nat.zero_lt_of_lt hlt)
  simpa [isZero] using hpos

theorem Vertex.Fits.bone_lt {v : Vertex} {boneCount : Nat} (h : v.Fits boneCount) (k : Fin 4)
    (hweight : v.weights[k].isZero = false) : v.bones[k].toNat < boneCount := by
  have hpair : (v.bones[k], v.weights[k]) ∈ v.bones.toList.zip v.weights.toList := by
    rw [List.mem_iff_getElem]
    exact ⟨k, by simp, by simp⟩
  exact h _ hpair hweight

namespace Model

variable {m : Model} {bones : List Bone} {boneCount : Nat} {α : Type}

/-- The bones have their parents before them. -/
def ParentsFirst (bones : List Bone) : Prop := ∀ (i : Nat) (b : Bone), bones[i]? = some b → FitsBone i b

def IsParent (bones : List Bone) (i j : Nat) : Prop :=
  ∃ b parent, bones[j]? = some b ∧ b.parent = some parent ∧ parent.toNat = i

/-- One pass over the bones. Each finds its parent's pose among those that are composed already, if it is there. -/
def composePoses (compose : Option α → Bone → α) (bones : List Bone) : List α :=
  bones.foldl (fun done b => done ++ [compose (b.parent.bind fun parent => done[parent.toNat]?) b]) []

/-- Every bone has a pose, and it is composed with the pose that its parent has in the end. -/
structure Posed (compose : Option α → Bone → α) (bones : List Bone) (poses : List α) : Prop where
  length_eq : poses.length = bones.length
  root : ∀ (i : Nat) (b : Bone), bones[i]? = some b → b.parent = none → poses[i]? = some (compose none b)
  child : ∀ (i : Nat) (b : Bone) (parent : UInt16), bones[i]? = some b → b.parent = some parent →
    ∃ pose, poses[parent.toNat]? = some pose ∧ poses[i]? = some (compose (some pose) b)

theorem ParentsFirst.lt_of_isParent (h : ParentsFirst bones) {i j : Nat} (hparent : IsParent bones i j) : i < j := by
  obtain ⟨b, parent, hb, hp, rfl⟩ := hparent
  exact h j b hb parent hp

theorem ParentsFirst.lt_of_transGen (h : ParentsFirst bones) {i j : Nat}
    (hpath : Relation.TransGen (IsParent bones) i j) : i < j := by
  induction hpath with
  | single hparent => exact h.lt_of_isParent hparent
  | tail _ hparent ih => exact Nat.lt_trans ih (h.lt_of_isParent hparent)

/-- Following parents never leads back. -/
theorem ParentsFirst.acyclic (h : ParentsFirst bones) (i : Nat) : ¬ Relation.TransGen (IsParent bones) i i := by
  intro hcycle
  exact Nat.lt_irrefl i (h.lt_of_transGen hcycle)

theorem getElem?_concat_eq_some_iff {l : List α} {a b : α} {i : Nat} :
    (l ++ [a])[i]? = some b ↔ l[i]? = some b ∨ i = l.length ∧ a = b := by
  grind

theorem composePoses_concat (compose : Option α → Bone → α) (bones : List Bone) (b : Bone) :
    composePoses compose (bones ++ [b]) = composePoses compose bones ++
      [compose (b.parent.bind fun parent => (composePoses compose bones)[parent.toNat]?) b] := by
  rw [composePoses, List.foldl_append]
  rfl

theorem ParentsFirst.posed (h : ParentsFirst bones) (compose : Option α → Bone → α) :
    Posed compose bones (composePoses compose bones) := by
  induction bones using List.reverseRecOn with
  | nil => exact ⟨rfl, by simp, by simp⟩
  | append_singleton bones last ih =>
    have hposed : Posed compose bones (composePoses compose bones) := by
      apply ih
      intro i b hb
      exact h i b (getElem?_concat_eq_some_iff.mpr (.inl hb))
    have hlast := h bones.length last (getElem?_concat_eq_some_iff.mpr (.inr ⟨rfl, rfl⟩))
    rw [composePoses_concat]
    refine ⟨by simp [hposed.length_eq], ?_, ?_⟩
    · intro i b hb hroot
      rw [getElem?_concat_eq_some_iff] at hb ⊢
      rcases hb with hb | ⟨rfl, rfl⟩
      · exact .inl (hposed.root i b hb hroot)
      · refine .inr ⟨hposed.length_eq.symm, ?_⟩
        rw [hroot, Option.bind_none]
    · intro i b parent hb hparent
      simp only [getElem?_concat_eq_some_iff] at hb ⊢
      rcases hb with hb | ⟨rfl, rfl⟩
      · obtain ⟨pose, hpose, hcomposed⟩ := hposed.child i b parent hb hparent
        exact ⟨pose, .inl hpose, .inl hcomposed⟩
      · -- The parent of the last bone is before it, so that its pose is composed already.
        have hlt : parent.toNat < (composePoses compose bones).length := by
          rw [hposed.length_eq]
          exact hlast parent hparent
        have hpose := List.getElem?_eq_getElem hlt
        refine ⟨_, .inl hpose, .inr ⟨hposed.length_eq.symm, ?_⟩⟩
        rw [hparent, Option.bind_some, hpose]

/-- Every index of a model leads to something. -/
structure Consistent (m : Model) : Prop where
  length_bones : m.bones.length ≤ 160
  parent_lt : ∀ (i : Nat) (b : Bone), m.bones[i]? = some b → ∀ parent, b.parent = some parent → parent.toNat < i
  acyclic : ∀ i, ¬ Relation.TransGen (IsParent m.bones) i i
  posed : ∀ (α : Type) (compose : Option α → Bone → α), Posed compose m.bones (composePoses compose m.bones)
  index_lt : ∀ mesh ∈ m.meshes, ∀ index ∈ mesh.indices, index.toNat < mesh.vertices.length
  bone_lt : ∀ mesh ∈ m.meshes, ∀ v ∈ mesh.vertices, ∀ k : Fin 4, v.weights[k].isZero = false →
    v.bones[k].toNat < m.bones.length
  bone_lt_of_isNaN : ∀ mesh ∈ m.meshes, ∀ v ∈ mesh.vertices, ∀ k : Fin 4, v.weights[k].isNaN = true →
    v.bones[k].toNat < m.bones.length
  animations : ∀ a ∈ m.animations, a.InBounds m.bones.length

theorem Sound.consistent (h : m.Sound) : m.Consistent where
  length_bones := h.length_bones
  parent_lt := h.bones
  acyclic := ParentsFirst.acyclic h.bones
  posed _ compose := ParentsFirst.posed h.bones compose
  index_lt mesh hmesh := (h.meshes mesh hmesh).indices
  bone_lt mesh hmesh v hv k hweight := ((h.meshes mesh hmesh).vertices v hv).bone_lt k hweight
  bone_lt_of_isNaN mesh hmesh v hv k hnan :=
    ((h.meshes mesh hmesh).vertices v hv).bone_lt k (Single.isZero_of_isNaN hnan)
  animations a ha := (Animation.check_eq_ok_iff.mp (h.animations a ha)).inBounds

/-- In a model that was loaded every index leads to something. -/
theorem consistent_of_load {bytes : Bytes} {id : UInt32} (h : load bytes id = .ok m) : m.Consistent :=
  (sound_of_load h).consistent

/-- An arm on a root. Its vertex follows the arm with a weight that is no number and, with no weight, bones that are not there. -/
def armed : Model where
  id := 7
  bones := [.root, ⟨some 0, .identity⟩]
  meshes := [⟨[⟨.zero, .one, ⟨.zero, .one⟩, #v[1, 200, 0, 9], #v[.nan, .zero, .one, -.zero]⟩], [0, 0, 0]⟩]
  animations := [⟨3, .one, [⟨1, ⟨⟨0, 1⟩, ⟨1, 1⟩, ⟨0, 2⟩, ⟨2, 0⟩, ⟨0, 0⟩, ⟨0, 0⟩, ⟨0, 1⟩⟩⟩],
    [⟨.zero, .one⟩, ⟨.one, .zero⟩], [⟨.zero, .identity⟩]⟩]

theorem consistent_of_load_armed : load armed.write 7 = .ok armed ∧ armed.Consistent := by
  have hload : load armed.write 7 = .ok armed := by decide +kernel
  exact ⟨hload, consistent_of_load hload⟩

end Model
end NovelEngine
