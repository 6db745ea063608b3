import NovelEngine.Note
import NovelEngine.Slot

/-!
# The stage as scripts see it

Scripts ask the stage for things and never wait inside a request: whether a load has ended can only be
seen by looking at its slot in a later tick. Scripts never see the resources themselves.
-/
namespace NovelEngine

class Stage (σ : Type) where
  /-- Starts loading an asset into a slot, instead of whatever the slot held or was loading. -/
  load : σ → SlotKey → UInt32 → Noted σ
  release : σ → SlotKey → Noted σ
  status : σ → SlotKey → LoadStatus
  play : σ → (buffer : UInt32) → (animation : UInt16) → (mode : UInt8) → Noted σ
  pose : σ → (buffer : UInt32) → (animation : UInt16) → Noted σ

end NovelEngine
