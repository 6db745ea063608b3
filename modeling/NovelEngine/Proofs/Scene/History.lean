import NovelEngine.Proofs.Loads.Provenance
import NovelEngine.Proofs.Machine.Staging
import NovelEngine.Scene.Basic

/-!
# Histories of scenes

A history lists what has happened to a scene, the last event first: its updates, the intents of scripts and the
deliveries of loads. The loads of the scene have a history of their own, which is part of it.
-/
namespace NovelEngine

inductive SceneEvent
  | update (delta : Single)
  | call (intent : Intent)
  | deliver (ready : Job → Bool)

def Intent.animation? : Intent → Option (UInt32 × AnimationIntent)
  | .play buffer animation _ => some (buffer, ⟨animation, true⟩)
  | .pose buffer animation => some (buffer, ⟨animation, false⟩)
  | .load .. | .release _ => none

namespace SceneEvent

/-- What the loads see of an event. Loads into slots that the scene does not show never reach them. -/
def loadEvent? : SceneEvent → Option LoadEvent
  | update _ => some .pump
  | call (.load slot asset) => if slot.index < characterBufferCount then some (.request slot asset) else none
  | call (.release slot) => some (.release slot)
  | call (.play ..) | call (.pose ..) => none
  | deliver ready => some (.deliver ready)

def Refills (slot : SlotKey) : SceneEvent → Prop
  | call (.load other _) | call (.release other) => other = slot
  | _ => False

end SceneEvent

def loadEvents (history : List SceneEvent) : List LoadEvent := history.filterMap SceneEvent.loadEvent?

theorem loadEvents_cons_some {e : SceneEvent} {event : LoadEvent} {earlier : List SceneEvent}
    (h : e.loadEvent? = some event) : loadEvents (e :: earlier) = event :: loadEvents earlier :=
  List.filterMap_cons_some h

theorem loadEvents_cons_none {e : SceneEvent} {earlier : List SceneEvent} (h : e.loadEvent? = none) :
    loadEvents (e :: earlier) = loadEvents earlier := List.filterMap_cons_none h

/-- What an event makes of a visible character, as long as its slot keeps it. -/
def Character.after (c : Character) : SceneEvent → Character
  | .update delta => c.advance delta
  | .call intent =>
    match intent.animation? with
    | some (buffer, i) => if buffer < characterBufferCount then (c.apply i).value else c
    | none => c
  | .deliver _ => c

/-- What a history makes of a visible character, as long as its slot keeps it. -/
def Character.replay (c : Character) : List SceneEvent → Character
  | [] => c
  | e :: earlier => (c.replay earlier).after e

namespace Scene

def after (s : Scene) : SceneEvent → Scene
  | .update delta => (s.update delta).value
  | .call intent => Stage.heed s intent
  | .deliver ready => { s with loads := s.loads.deliver ready }

def reading (s : Scene) (source : AssetSource) : Scene := { s with loads.source := source }

def run (sources : Nat → AssetSource) (workers : Workers) : List SceneEvent → Scene
  | [] => create (.create (sources 0) workers)
  | e :: earlier => ((run sources workers earlier).reading (sources (loadEvents earlier).length)).after e

/-- What the renderer finds in the place of a slot. -/
def shown (s : Scene) (slot : SlotKey) : Option Resource :=
  match slot.category with
  | .background => if slot.index = 0 then s.background else none
  | .character => (s.character? slot.index).map Character.resource

def intended (s : Scene) (i : AnimationIntent) : Scene :=
  match s.character with
  | some c => { s with character := some (c.apply i).value }
  | none =>
    match s.loads.status (.character 0) with
    | .loading | .loaded => { s with held := some i }
    | .unloaded | .failed => s

variable {s : Scene} {slot other : SlotKey} {asset : UInt32} {intent : Intent} {i : AnimationIntent}
  {buffer : UInt32}

theorem lt_characterBufferCount_iff : buffer < characterBufferCount ↔ buffer = 0 := by
  rw [UInt32.lt_iff_toNat_lt, ← UInt32.toNat_inj]
  exact Nat.lt_one_iff

theorem index_eq_zero_iff : slot.index = 0 ↔ slot = .background ∨ slot = .character 0 := by
  obtain ⟨_ | _, index⟩ := slot <;> simp [SlotKey.background, SlotKey.character]

theorem heed_load : Stage.heed s (.load slot asset) =
    if slot.index = 0 then
      { s with
        loads := s.loads.after (.request slot asset)
        held := if slot = .background then s.held else none }
    else s := by
  have hvalue : Stage.heed s (.load slot asset) = (s.request slot asset).value.2 := rfl
  have hshows : (showsSlot slot "load").value = decide (slot.index = 0) := by
    rw [showsSlot, isShown]
    split
    · rename_i h
      simp [h, SlotKey.background]
    · split
      · rename_i h
        simp [lt_characterBufferCount_iff.mp h]
      · rename_i h
        simp [mt lt_characterBufferCount_iff.mpr h]
  rw [hvalue, request, Noted.value_bind, hshows]
  by_cases h : slot.index = 0 <;> simp only [h, decide_true, decide_false, if_true, if_false] <;> rfl

theorem heed_release : Stage.heed s (.release slot) =
    { s with
      loads := s.loads.after (.release slot)
      background := if slot = .background then none else s.background
      character := if slot = .character 0 then none else s.character
      held := if slot = .character 0 then none else s.held } := by
  have hvalue : Stage.heed s (.release slot) = (s.release slot).value := rfl
  rw [hvalue, release]
  by_cases hb : slot = .background
  · subst hb
    rfl
  · have hindex : slot.index = 0 ↔ slot = .character 0 := by simp [index_eq_zero_iff, hb]
    by_cases hc : slot = .character 0
    · subst hc
      rfl
    · simp only [hb, hc, if_false, Noted.value_bind, isShown, lt_characterBufferCount_iff, hindex]
      rfl

theorem heed_animation (h : intent.animation? = some (buffer, i)) : Stage.heed s intent =
    if buffer = 0 then s.intended i else s := by
  have hanimate (action : String) : (s.animate buffer i action).value =
      if buffer = 0 then s.intended i else s := by
    simp only [animate, isShown, Noted.value_bind, lt_characterBufferCount_iff]
    by_cases hb : buffer = 0
    · subst hb
      simp only [if_true, intended]
      cases s.character with
      | some c => rfl
      | none =>
        simp only [Noted.value_pure, if_true]
        cases s.loads.status (.character 0) <;> rfl
    · simp only [hb, if_false]
      rfl
  cases intent with
  | load slot asset => cases h
  | release slot => cases h
  | play buffer' animation mode =>
    cases h
    exact hanimate _
  | pose buffer' animation =>
    cases h
    exact hanimate _

def entrance (s : Scene) (resource : Resource) : Character :=
  match s.held with
  | none => .create resource
  | some i => ((Character.create resource).apply i).value

def adopted (s : Scene) (resource : Resource) : Scene :=
  if s.character.any fun c => c.resource.ticket = resource.ticket then s
  else { s with character := some (s.entrance resource), held := none }

theorem syncCharacter_value : s.syncCharacter.value = match s.loads.resource? (.character 0) with
    | none => { s with character := none }
    | some resource => s.adopted resource := by
  rw [syncCharacter]
  cases s.loads.resource? (.character 0) with
  | none => rfl
  | some resource =>
    simp only [adopted, entrance]
    split
    · rfl
    · obtain ⟨loads, background, character, held⟩ := s
      cases held <;> rfl

theorem update_value (delta : Single) : (s.update delta).value =
    let loads := s.loads.after .pump
    let s' : Scene := { s with loads, background := loads.resource? .background }
    { s'.syncCharacter.value with
      character := s'.syncCharacter.value.character.map fun c => c.advance delta } := by
  simp only [update, Noted.value_bind]
  split <;> rfl

@[simp] theorem shown_background : s.shown .background = s.background := rfl

@[simp] theorem shown_character : s.shown (.character 0) = s.character.map Character.resource := rfl

theorem shown_of_index_ne (h : slot.index ≠ 0) : s.shown slot = none := by
  obtain ⟨category, index⟩ := slot
  cases category with
  | background => exact if_neg h
  | character =>
    have hnone : s.character? index = none := if_neg (mt lt_characterBufferCount_iff.mp h)
    rw [shown, hnone]
    rfl

theorem shown_congr {s' : Scene} (hbackground : s'.background = s.background)
    (hcharacter : s'.character.map Character.resource = s.character.map Character.resource) :
    s'.shown slot = s.shown slot := by
  by_cases h : slot.index = 0
  · rcases index_eq_zero_iff.mp h with rfl | rfl
    · exact hbackground
    · exact hcharacter
  · rw [shown_of_index_ne h, shown_of_index_ne h]

@[simp] theorem resource_advance (c : Character) (delta : Single) :
    (c.advance delta).resource = c.resource := by
  rw [Character.advance]
  split <;> rfl

@[simp] theorem resource_apply (c : Character) (i : AnimationIntent) :
    (c.apply i).value.resource = c.resource := by
  rw [Character.apply]
  split <;> rfl

theorem resource_entrance (resource : Resource) : (s.entrance resource).resource = resource := by
  rw [entrance]
  split
  · rfl
  · exact resource_apply _ _

theorem shown_load : (Stage.heed s (.load other asset)).shown slot = s.shown slot := by
  rw [heed_load]
  split <;> rfl

theorem shown_release : (Stage.heed s (.release other)).shown slot =
    if other = slot then none else s.shown slot := by
  rw [heed_release]
  by_cases h : slot.index = 0
  · rcases index_eq_zero_iff.mp h with rfl | rfl
    · rfl
    · simp only [shown_character]
      split <;> rfl
  · rw [shown_of_index_ne h, shown_of_index_ne h]
    split <;> rfl

theorem shown_animation (h : intent.animation? = some (buffer, i)) :
    (Stage.heed s intent).shown slot = s.shown slot := by
  rw [heed_animation h]
  split
  · cases hc : s.character with
    | some c =>
      refine shown_congr ?_ ?_
      · simp only [intended, hc]
      · simp only [intended, hc, Option.map_some, resource_apply]
    | none =>
      refine shown_congr ?_ ?_
      · simp only [intended, hc]
        split <;> rfl
      · simp only [intended, hc]
        split <;> simp only [hc]
  · rfl

/-- Two resources with one ticket are the same wherever an update compares them. -/
theorem shown_update (delta : Single)
    (hsame : ∀ shown resource, s.shown slot = some shown → (s.loads.after .pump).resource? slot = some resource →
      shown.ticket = resource.ticket → shown = resource)
    (hoff : slot.index ≠ 0 → (s.loads.after .pump).resource? slot = none) :
    (s.update delta).value.shown slot = (s.loads.after .pump).resource? slot := by
  by_cases h : slot.index = 0
  · rcases index_eq_zero_iff.mp h with rfl | rfl
    · rw [update_value]
      simp only [shown_background, syncCharacter_value]
      split
      · rfl
      · rw [adopted]
        split <;> rfl
    · have hresource (c : Option Character) : (c.map fun c => c.advance delta).map Character.resource =
          c.map Character.resource := by cases c <;> simp
      rw [update_value]
      simp only [shown_character, syncCharacter_value, hresource]
      cases hloaded : (s.loads.after .pump).resource? (.character 0) with
      | none => rfl
      | some resource =>
        simp only [adopted]
        split
        · rename_i hticket
          cases hc : s.character with
          | none => simp [hc] at hticket
          | some c =>
            have hticket : c.resource.ticket = resource.ticket := by simpa [hc] using hticket
            have hshown : s.shown (.character 0) = some c.resource := by simp [hc]
            exact congrArg some (hsame c.resource resource hshown hloaded hticket)
        · exact congrArg some (resource_entrance resource)
  · rw [shown_of_index_ne h, hoff h]

@[simp] theorem loads_adopted (resource : Resource) : (s.adopted resource).loads = s.loads := by
  rw [adopted]
  split <;> rfl

@[simp] theorem loads_intended (i : AnimationIntent) : (s.intended i).loads = s.loads := by
  rw [intended]
  split
  · rfl
  · split <;> rfl

theorem loads_update (delta : Single) : (s.update delta).value.loads = s.loads.after .pump := by
  rw [update_value]
  simp only [syncCharacter_value]
  split
  · rfl
  · rw [loads_adopted]

theorem loads_animation (h : intent.animation? = some (buffer, i)) : (Stage.heed s intent).loads = s.loads := by
  rw [heed_animation h]
  split
  · exact loads_intended i
  · rfl

theorem loads_after (e : SceneEvent) : (s.after e).loads =
    match e.loadEvent? with
    | some event => s.loads.after event
    | none => s.loads := by
  cases e with
  | update delta => exact loads_update delta
  | deliver ready => rfl
  | call intent =>
    cases intent with
    | load slot asset =>
      simp only [after, heed_load, SceneEvent.loadEvent?, lt_characterBufferCount_iff]
      split <;> rfl
    | release slot => simp only [after, heed_release, SceneEvent.loadEvent?]
    | play buffer animation mode => exact loads_animation rfl
    | pose buffer animation => exact loads_animation rfl

theorem slot_after {e : SceneEvent} (hkeep : ¬ e.Refills slot)
    (hpump : s.loads.status slot ≠ .loading ∨ ∀ delta, e ≠ .update delta) :
    (s.after e).loads.slot slot = s.loads.slot slot := by
  rw [loads_after]
  cases e with
  | update delta =>
    have hstatus : s.loads.status slot ≠ .loading := hpump.resolve_right fun hne => hne delta rfl
    exact Loads.slot_pump_of_settled hstatus
  | deliver ready => rfl
  | call intent =>
    cases intent with
    | load other asset =>
      have hne : other ≠ slot := hkeep
      simp only [SceneEvent.loadEvent?]
      split
      · rename_i event hevent
        split at hevent
        · cases hevent
          rw [Loads.slot_request, if_neg fun hand => hne hand.2]
        · cases hevent
      · rfl
    | release other =>
      have hne : other ≠ slot := hkeep
      simp only [SceneEvent.loadEvent?]
      rw [Loads.slot_release, if_neg fun hand => hne hand.2]
    | play buffer animation mode => rfl
    | pose buffer animation => rfl

theorem shown_before {e : SceneEvent} {resource : Resource} (he : ∀ delta, e ≠ .update delta)
    (h : (s.after e).shown slot = some resource) : s.shown slot = some resource := by
  cases e with
  | update delta => exact absurd rfl (he delta)
  | deliver ready => exact h
  | call intent =>
    have hcall : s.after (.call intent) = Stage.heed s intent := rfl
    rw [hcall] at h
    cases intent with
    | load other asset => rwa [shown_load] at h
    | release other =>
      rw [shown_release] at h
      split at h
      · cases h
      · exact h
    | play buffer animation mode => rwa [shown_animation rfl] at h
    | pose buffer animation => rwa [shown_animation rfl] at h

variable {sources : Nat → AssetSource} {workers : Workers}

theorem loads_run (history : List SceneEvent) : ∃ source, (run sources workers history).loads =
    { Loads.run sources workers (loadEvents history) with source } := by
  induction history with
  | nil => exact ⟨_, rfl⟩
  | cons e earlier ih =>
    obtain ⟨source, ih⟩ := ih
    have hnow : ((run sources workers earlier).reading (sources (loadEvents earlier).length)).loads =
        { Loads.run sources workers (loadEvents earlier) with
          source := sources (loadEvents earlier).length } := by
      simp only [reading, ih]
    rw [run, loads_after, hnow]
    cases hevent : e.loadEvent? with
    | some event =>
      rw [loadEvents_cons_some hevent]
      exact ⟨_, rfl⟩
    | none =>
      rw [loadEvents_cons_none hevent]
      exact ⟨_, rfl⟩

end Scene
end NovelEngine
