import NovelEngine.Proofs.Asset.Extent
import NovelEngine.Proofs.Asset.Models

/-!
# Files that are cut short or go on

A clip is taken from the front of its bytes, and so is the body of a model; the clips of a model lie anywhere in the
file. What is behind the last byte that is looked at does not matter. A file that is cut short is read as before if
nothing that it needs is missing. Otherwise it is refused, for lack of bytes where the cut goes through the body, or for
the first clip that is not whole.
-/
namespace NovelEngine

open Reader

namespace Animation

variable {a : Animation} {id : UInt16} {boneCount : Nat} {blob rest : Bytes}

theorem prompt_channels {α : Type} {item : Reader α} (h : Prompt item) : Prompt (Channels.read item) :=
  h.bind fun _ => h.bind fun _ => h.bind fun _ => h.bind fun _ => h.bind fun _ => h.bind fun _ => h.bind fun _ =>
    prompt_pure _

theorem prompt_readTrack : Prompt readTrack :=
  (prompt_number 2 _).bind fun _ => (prompt_number 2 _).bind fun _ => (prompt_channels (prompt_number 4 _)).bind fun _ =>
    (prompt_channels (prompt_number 2 _)).bind fun _ => prompt_pure _

theorem prompt_readKeyframe {α : Type} {value : Reader α} (h : Prompt value) : Prompt (readKeyframe value) :=
  prompt_single.bind fun _ => h.bind fun _ => prompt_pure _

theorem prompt_read (id : UInt16) (boneCount : Nat) : Prompt (read id boneCount) := by
  refine prompt_single.bind fun duration => (prompt_number 4 _).bind fun trackCount =>
    (prompt_number 4 _).bind fun coordCount => (prompt_number 4 _).bind fun rotationCount => ?_
  apply prompt_ite
  · exact prompt_throw_bind _ _
  · exact (prompt_many prompt_readTrack _).bind fun tracks =>
      (prompt_many (prompt_readKeyframe prompt_single) _).bind fun coords =>
        (prompt_many (prompt_readKeyframe prompt_quat) _).bind fun rotations => prompt_lift _

/-- A clip that is loaded takes some number of bytes; one byte fewer is too few, and what follows them is left alone. -/
theorem exists_size_of_load (h : load blob id boneCount = .ok a) :
    ∃ n ≤ blob.length, read id boneCount blob = .ok (a, blob.drop n) ∧
      (∀ cut, cut <+: blob → cut.length < n → load cut id boneCount = .error .truncated) ∧
      ∀ more, load (blob.take n ++ more) id boneCount = .ok a := by
  obtain ⟨rest, hread⟩ := run_eq_ok_iff.mp h
  obtain ⟨chunk, rfl, htakes⟩ := prompt_read id boneCount blob a rest hread
  refine ⟨chunk.length, by simp, ?_, ?_, ?_⟩
  · rw [List.drop_left]
    exact htakes.reads rest
  · intro cut hcut hlt
    have hthrough : ¬ chunk <+: cut := fun hfront => Nat.not_le_of_lt hlt hfront.length_le
    exact run_eq_error (htakes.error_of_cut hcut hthrough)
  · intro more
    rw [List.take_left]
    exact htakes.reads.run_append more

end Animation

namespace Model

variable {m : Model} {id : UInt32} {bytes cut rest : Bytes}

theorem prompt_readBone (index : Nat) : Prompt (readBone index) := by
  refine (prompt_number 2 _).bind fun number => (prompt_number 2 _).bind fun _ => prompt_vec3.bind fun position =>
    prompt_quat.bind fun rotation => prompt_vec3.bind fun scale => ?_
  exact prompt_ite (prompt_pure _) (prompt_ite (prompt_pure _) (prompt_throw _))

theorem prompt_readVertex (boneCount : Nat) : Prompt (readVertex boneCount) := by
  refine prompt_vec3.bind fun position => prompt_vec3.bind fun normal => prompt_vec2.bind fun uv => ?_
  refine (prompt_number 1 _).bind fun b₀ => (prompt_number 1 _).bind fun b₁ => (prompt_number 1 _).bind fun b₂ =>
    (prompt_number 1 _).bind fun b₃ => ?_
  refine prompt_single.bind fun w₀ => prompt_single.bind fun w₁ => prompt_single.bind fun w₂ =>
    prompt_single.bind fun w₃ => ?_
  refine (prompt_forM (fun p => ?_) _).bind fun _ => prompt_pure _
  exact prompt_ite (prompt_throw _) (prompt_pure _)

theorem prompt_readIndex (mesh vertexCount : Nat) : Prompt (readIndex mesh vertexCount) :=
  (prompt_number 2 _).bind fun _ => prompt_ite (prompt_throw_bind _ _) (prompt_pure _)

theorem prompt_readMesh (boneCount mesh : Nat) : Prompt (readMesh boneCount mesh) :=
  (prompt_number 4 _).bind fun _ => (prompt_number 4 _).bind fun _ =>
    (prompt_many (prompt_readVertex boneCount) _).bind fun _ => (prompt_many (prompt_readIndex mesh _) _).bind fun _ =>
      prompt_pure _

theorem prompt_readEntry : Prompt readEntry :=
  (prompt_number 2 _).bind fun _ => (prompt_number 4 _).bind fun _ => (prompt_number 4 _).bind fun _ => prompt_pure _

theorem prompt_readBody (id : UInt32) : Prompt (readBody id) := by
  refine (prompt_take 4).bind fun magic => prompt_ite (prompt_throw_bind _ _) ?_
  refine (prompt_number 4 _).bind fun boneCount => (prompt_number 4 _).bind fun meshCount =>
    (prompt_number 4 _).bind fun clipCount => prompt_ite (prompt_throw_bind _ _) ?_
  exact (prompt_manyFrom prompt_readBone 0 _).bind fun bones =>
    (prompt_manyFrom (prompt_readMesh _) 0 _).bind fun meshes =>
      (prompt_many prompt_readEntry _).bind fun table => prompt_pure _

/-- The first entry of a table whose clip does not lie in a file of some size. -/
def firstMissing (table : List ClipEntry) (size : Nat) : Option ClipEntry :=
  table.find? fun e => size < e.offset.toNat + e.length.toNat

theorem loadClip_of_lt {boneCount : Nat} {e : ClipEntry} (h : bytes.length < e.offset.toNat + e.length.toNat) :
    loadClip bytes boneCount e = .error (.animationOutOfBounds e.id e.offset e.length) := if_pos h

theorem loadClip_cut {boneCount : Nat} {e : ClipEntry} (hcut : cut <+: bytes)
    (hfit : e.offset.toNat + e.length.toNat ≤ cut.length) : loadClip cut boneCount e = loadClip bytes boneCount e := by
  have hlength := hcut.length_le
  obtain ⟨more, rfl⟩ := hcut
  rw [loadClip, loadClip, if_neg (by omega), if_neg (by omega), List.drop_append_of_le_length (by omega),
    List.take_append_of_le_length (by rw [List.length_drop]; omega)]

theorem le_length_of_loadClip {boneCount : Nat} {e : ClipEntry} {a : Animation} (h : loadClip bytes boneCount e = .ok a) :
    e.offset.toNat + e.length.toNat ≤ bytes.length := by
  apply Nat.le_of_not_lt
  intro hlt
  rw [loadClip_of_lt hlt] at h
  cases h

theorem mapM_loadClip_cut {boneCount : Nat} {table : List ClipEntry} {animations : List Animation} (hcut : cut <+: bytes)
    (h : List.Forall₂ (fun e a => loadClip bytes boneCount e = .ok a) table animations) :
    table.mapM (loadClip cut boneCount) = match firstMissing table cut.length with
      | none => .ok animations
      | some e => .error (.animationOutOfBounds e.id e.offset e.length) := by
  induction h with
  | nil => rfl
  | @cons e a table animations hclip _ ih =>
    rw [List.mapM_cons]
    by_cases hfit : e.offset.toNat + e.length.toNat ≤ cut.length
    · rw [loadClip_cut hcut hfit, hclip]
      have hnext : firstMissing (e :: table) cut.length = firstMissing table cut.length :=
        List.find?_cons_of_neg (by simpa using hfit)
      rw [hnext, ih]
      cases firstMissing table cut.length <;> rfl
    · have hmissing : firstMissing (e :: table) cut.length = some e := List.find?_cons_of_pos (by simpa using hfit)
      rw [loadClip_of_lt (Nat.lt_of_not_le hfit), hmissing]
      rfl

theorem load_of_readBody {body : Model} {table : List ClipEntry} (h : readBody id bytes = .ok ((body, table), rest)) :
    load bytes id = table.mapM (loadClip bytes body.boneCount) >>= fun animations => .ok { body with animations } := by
  have hrun : (readBody id).run bytes = .ok (body, table) := run_eq_ok_iff.mpr ⟨rest, h⟩
  simp only [load, hrun]
  rfl

theorem load_append (h : load bytes id = .ok m) (more : Bytes) : load (bytes ++ more) id = .ok m := by
  obtain ⟨body, table, rest, animations, hbody, hclips, rfl⟩ := load_eq_ok_iff.mp h
  obtain ⟨front, rfl, htakes⟩ := prompt_readBody id bytes _ rest hbody
  have hread := htakes.reads (rest ++ more)
  rw [← List.append_assoc] at hread
  refine load_eq_ok_iff.mpr ⟨body, table, rest ++ more, animations, hread, ?_, rfl⟩
  refine hclips.imp fun e a hclip => ?_
  have hfit := le_length_of_loadClip hclip
  rwa [← loadClip_cut (List.prefix_append _ more) hfit]

/-- A file that is cut short leads to the same model, or it is refused for what is missing. -/
theorem load_cut (h : load bytes id = .ok m) (hcut : cut <+: bytes) :
    load cut id = .ok m ∨ load cut id = .error .truncated ∨
      ∃ e : ClipEntry, cut.length < e.offset.toNat + e.length.toNat ∧
        load cut id = .error (.animationOutOfBounds e.id e.offset e.length) := by
  obtain ⟨body, table, rest, animations, hbody, hclips, rfl⟩ := load_eq_ok_iff.mp h
  obtain ⟨front, hbytes, htakes⟩ := prompt_readBody id bytes _ rest hbody
  by_cases hfront : front <+: cut
  · -- The body is whole, and the table is the same.
    obtain ⟨more, hmore⟩ := hfront
    have hread := htakes.reads more
    rw [hmore] at hread
    rw [load_of_readBody hread, mapM_loadClip_cut hcut hclips]
    cases hmissing : firstMissing table cut.length with
    | none => exact .inl rfl
    | some e => exact .inr (.inr ⟨e, by simpa using List.find?_some hmissing, rfl⟩)
  · have hread : readBody id cut = .error .truncated := htakes.error_of_cut (hbytes ▸ hcut) hfront
    refine .inr (.inl ?_)
    simp only [load, run_eq_error hread]
    rfl

/-- Truncation is never silent: nothing that is cut off changes what is loaded, and nothing that follows does. -/
theorem load_of_cut :
    (∀ (bytes : Bytes) (id : UInt32) (m : Model), load bytes id = .ok m →
      (∀ more, load (bytes ++ more) id = .ok m) ∧
      ∀ cut, cut <+: bytes → load cut id = .ok m ∨ load cut id = .error .truncated ∨
        ∃ e : ClipEntry, cut.length < e.offset.toNat + e.length.toNat ∧
          load cut id = .error (.animationOutOfBounds e.id e.offset e.length)) ∧
    ∀ (blob : Bytes) (id : UInt16) (boneCount : Nat) (a : Animation), Animation.load blob id boneCount = .ok a →
      ∃ n ≤ blob.length, Animation.read id boneCount blob = .ok (a, blob.drop n) ∧
        (∀ cut, cut <+: blob → cut.length < n → Animation.load cut id boneCount = .error .truncated) ∧
        ∀ more, Animation.load (blob.take n ++ more) id boneCount = .ok a := by
  refine ⟨fun bytes id m h => ?_, fun blob id boneCount a h => Animation.exists_size_of_load h⟩
  exact ⟨load_append h, fun cut => load_cut h⟩

/-- The table ends at byte 80; the clip behind it is missed there when one byte is cut off. -/
theorem load_of_cut_shared :
    (∀ more, load (sharedFile ++ more) 7 = .ok sharedModel) ∧
      load (sharedFile.take 79) 7 = .error .truncated ∧
      load (sharedFile.take 95) 7 = .error (.animationOutOfBounds 3 80 16) ∧
      ∃ n ≤ turnFile.length, Animation.read 4 1 turnFile = .ok (turnClip, turnFile.drop n) ∧
        (∀ cut, cut <+: turnFile → cut.length < n → Animation.load cut 4 1 = .error .truncated) ∧
        ∀ more, Animation.load (turnFile.take n ++ more) 4 1 = .ok turnClip := by
  have hmodel : load sharedFile 7 = .ok sharedModel := by rfl
  have hclip : Animation.load turnFile 4 1 = .ok turnClip := by rfl
  exact ⟨(load_of_cut.1 sharedFile 7 sharedModel hmodel).1, by rfl, by rfl,
    load_of_cut.2 turnFile 4 1 turnClip hclip⟩

end Model
end NovelEngine
