import NovelEngine.Proofs.Scene.Agreement

/-!
# Animations asked for during a load

An animation asked for while a character is being loaded comes with that character if none is visible at that
moment: it is held and waits for the load to end. If an earlier character is still visible, that one gets the
animation, and the new character starts without any.
-/
namespace NovelEngine

/-- The character shows the animation of the intent, as far as its model has it, and otherwise none. -/
def Character.Obeys (c : Character) : Option AnimationIntent → Prop
  | none => c.currentAnimation? = none ∧ c.playing = false
  | some i =>
    if (c.model.animation? i.animation).isSome then
      c.currentAnimation? = some i.animation ∧ c.playing = i.playing
    else c.currentAnimation? = none ∧ c.playing = false

theorem Character.apply_of_lacks {c : Character} {i : AnimationIntent}
    (h : c.model.animation? i.animation = none) : (c.apply i).value = c := by
  simp [apply, h]

theorem Character.obeys_apply {c : Character} {i : AnimationIntent}
    (h : (c.model.animation? i.animation).isSome = true) : (c.apply i).value.Obeys (some i) := by
  obtain ⟨clip, hclip⟩ := Option.isSome_iff_exists.mp h
  have hid : clip.id = i.animation := by simpa using List.find?_some hclip
  have happly : (c.apply i).value = ⟨c.resource, some (Playback.start clip true), i.playing⟩ := by
    simp only [apply, hclip]
    rfl
  have hmodel : (c.apply i).value.model = c.model := by rw [happly, model, model]
  rw [Obeys, hmodel, if_pos h, happly]
  exact ⟨congrArg some hid, rfl⟩

def SceneEvent.Animates : SceneEvent → Prop
  | .call intent => ∃ i, intent.animation? = some (0, i)
  | _ => False

namespace Scene

variable {sources : Nat → AssetSource} {workers : Workers} {s : Scene} {e : SceneEvent}
  {wanted : Option AnimationIntent} {intent : Intent} {i : AnimationIntent} {c : Character}

theorem obeys_entrance (resource : Resource) : (s.entrance resource).Obeys s.held := by
  rw [entrance]
  cases s.held with
  | none => exact ⟨rfl, rfl⟩
  | some i =>
    by_cases hclip : ((Character.create resource).model.animation? i.animation).isSome
    · exact Character.obeys_apply hclip
    · have hlacks : (Character.create resource).model.animation? i.animation = none := by simpa using hclip
      simp only [Character.apply_of_lacks hlacks, Character.Obeys, hlacks]
      exact ⟨rfl, rfl⟩

theorem obeys_advance (h : c.Obeys wanted) (delta : Single) : (c.advance delta).Obeys wanted := by
  have hmodel : (c.advance delta).model = c.model := by rw [Character.model, resource_advance, Character.model]
  have hplaying : (c.advance delta).playing = c.playing := by
    rw [Character.advance]
    split <;> rfl
  have hcurrent : (c.advance delta).currentAnimation? = c.currentAnimation? := by
    simp only [Character.advance, Character.currentAnimation?]
    split
    · cases c.playback <;> rfl
    · rfl
  cases wanted with
  | none => rwa [Character.Obeys, hcurrent, hplaying]
  | some i => rwa [Character.Obeys, hmodel, hcurrent, hplaying]

/-- An intent is only held as long as there is no character to obey it. -/
def Undecided (s : Scene) : Prop := s.character = none ∨ s.held = none

theorem Undecided.after (h : s.Undecided) (e : SceneEvent) : (s.after e).Undecided := by
  cases e with
  | deliver ready => exact h
  | update delta =>
    have hvalue : s.after (.update delta) = (s.update delta).value := rfl
    rw [hvalue, update_value]
    simp only [Undecided, syncCharacter_value]
    split
    · exact .inl rfl
    · rename_i resource _
      rw [adopted]
      split
      · rcases h with hnone | hheld
        · exact .inl (by rw [hnone]; rfl)
        · exact .inr hheld
      · exact .inr rfl
  | call intent =>
    have hcall : s.after (.call intent) = Stage.heed s intent := rfl
    have hanimation (buffer : UInt32) (i : AnimationIntent)
        (hintent : intent.animation? = some (buffer, i)) : (Stage.heed s intent).Undecided := by
      rw [heed_animation hintent]
      split
      · cases hc : s.character with
        | some c =>
          have hheld : s.held = none := h.resolve_left (by simp [hc])
          simp only [intended, hc]
          exact .inr hheld
        | none =>
          simp only [intended, hc]
          split
          · exact .inl rfl
          · exact .inl rfl
          · exact .inl hc
          · exact .inl hc
      · exact h
    rw [hcall]
    cases intent with
    | load slot asset =>
      rw [heed_load]
      split
      · rcases h with hnone | hheld
        · exact .inl hnone
        · exact .inr (by simp [hheld])
      · exact h
    | release slot =>
      rw [heed_release]
      rcases h with hnone | hheld
      · exact .inl (by simp [hnone])
      · exact .inr (by simp [hheld])
    | play buffer animation mode => exact hanimation _ _ rfl
    | pose buffer animation => exact hanimation _ _ rfl

theorem undecided_run (history : List SceneEvent) : (run sources workers history).Undecided := by
  induction history with
  | nil => exact .inl rfl
  | cons e earlier ih =>
    have hnow : ((run sources workers earlier).reading (sources (loadEvents earlier).length)).Undecided := ih
    exact hnow.after e

/-- Where an intent for the character being loaded is: it waits with the load, or the character obeys it, or the
load has failed. -/
def Bound (s : Scene) (wanted : Option AnimationIntent) : Prop :=
  (s.loads.status (.character 0) = .loading ∧ s.held = wanted) ∨
    (∃ c, s.character = some c ∧ s.loads.resource? (.character 0) = some c.resource ∧ c.Obeys wanted) ∨
    s.loads.status (.character 0) = .failed

theorem bound_heed (h : s.Undecided) (hloading : s.loads.status (.character 0) = .loading)
    (hintent : intent.animation? = some (0, i)) :
    (Stage.heed s intent).Bound (if s.character.isNone then some i else none) := by
  have hstatus : (Stage.heed s intent).loads.status (.character 0) = .loading := by
    rw [loads_animation hintent, hloading]
  refine .inl ⟨hstatus, ?_⟩
  rw [heed_animation hintent, if_pos rfl, intended]
  cases hc : s.character with
  | some c => exact h.resolve_left (by simp [hc])
  | none =>
    simp only [hloading]
    rfl

theorem held_after (hupdate : ∀ delta, e ≠ .update delta) (hrefills : ¬ e.Refills (.character 0))
    (hanimates : ¬ e.Animates) : (s.after e).held = s.held := by
  cases e with
  | update delta => exact absurd rfl (hupdate delta)
  | deliver ready => rfl
  | call intent =>
    have hcall : s.after (.call intent) = Stage.heed s intent := rfl
    have hanimation (buffer : UInt32) (i : AnimationIntent)
        (hintent : intent.animation? = some (buffer, i)) : (Stage.heed s intent).held = s.held := by
      rw [heed_animation hintent, if_neg]
      rintro rfl
      exact hanimates ⟨i, hintent⟩
    rw [hcall]
    cases intent with
    | load slot asset =>
      have hne : slot ≠ .character 0 := hrefills
      rw [heed_load]
      split
      · rename_i hindex
        have hbackground : slot = .background := (index_eq_zero_iff.mp hindex).resolve_right hne
        exact if_pos hbackground
      · rfl
    | release slot =>
      have hne : slot ≠ .character 0 := hrefills
      rw [heed_release]
      exact if_neg hne
    | play buffer animation mode => exact hanimation _ _ rfl
    | pose buffer animation => exact hanimation _ _ rfl

/-- The update that finds the load ended hands the held intent to the new character. -/
theorem bound_update (hf : s.Faithful (.character 0)) (ht : s.loads.Ticketed)
    (hloading : s.loads.status (.character 0) = .loading) (delta : Single) : (s.update delta).value.Bound s.held := by
  have hloads := loads_update (s := s) delta
  cases hresource : (s.loads.after .pump).resource? (.character 0) with
  | none =>
    have hheld : (s.update delta).value.held = s.held := by
      rw [update_value]
      simp [syncCharacter_value, hresource]
    rcases s.loads.slot_pump (.character 0) with hslot | ⟨d, -, -, -, hslot⟩
    · have hstatus : (s.update delta).value.loads.status (.character 0) = .loading := by
        rw [hloads, Loads.status, hslot]
        exact hloading
      exact .inl ⟨hstatus, hheld⟩
    · have hstatus : (s.update delta).value.loads.status (.character 0) = .failed := by
        rw [Loads.resource?, hslot, LoadSlot.settle] at hresource
        rw [hloads, Loads.status, hslot, LoadSlot.settle]
        cases hd : d.result with
        | ok resource =>
          rw [hd] at hresource
          cases hresource
        | error error => rfl
      exact .inr (.inr hstatus)
  | some resource =>
    -- whatever is visible has another ticket than the result that has just come
    have hnew : (s.character.any fun c => decide (c.resource.ticket = resource.ticket)) = false := by
      cases hc : s.character with
      | none => rfl
      | some c =>
        have hshown : s.shown (.character 0) = some c.resource := by simp [hc]
        obtain ⟨⟨j, hj, hticket⟩, -⟩ := ht.resource?_pump hloading hresource
        have hne := (hf.delivered c.resource hshown).2 j hj
        simp only [Option.any_some, decide_eq_false_iff_not]
        exact fun heq => hne (hticket.trans heq.symm)
    have hcharacter : (s.update delta).value.character = some ((s.entrance resource).advance delta) := by
      rw [update_value]
      simp only [syncCharacter_value, hresource, adopted, hnew]
      rfl
    refine .inr (.inl ⟨_, hcharacter, ?_, obeys_advance (obeys_entrance resource) delta⟩)
    rw [hloads, hresource, resource_advance, resource_entrance]

theorem Bound.after (h : s.Bound wanted) (hf : s.Faithful (.character 0)) (ht : s.loads.Ticketed)
    (hrefills : ¬ e.Refills (.character 0)) (hanimates : ¬ e.Animates) : (s.after e).Bound wanted := by
  rcases h with ⟨hloading, rfl⟩ | ⟨c, hc, hresource, hobeys⟩ | hfailed
  · by_cases hupdate : ∃ delta, e = .update delta
    · obtain ⟨delta, rfl⟩ := hupdate
      exact bound_update hf ht hloading delta
    · have hne : ∀ delta, e ≠ .update delta := fun delta heq => hupdate ⟨delta, heq⟩
      have hstatus : (s.after e).loads.status (.character 0) = .loading := by
        rw [Loads.status, slot_after hrefills (.inr hne)]
        exact hloading
      exact .inl ⟨hstatus, held_after hne hrefills hanimates⟩
  · obtain ⟨hcharacter, hkept⟩ := character_after hc hresource hrefills
    refine .inr (.inl ⟨_, hcharacter, hkept, ?_⟩)
    cases e with
    | update delta => exact obeys_advance hobeys delta
    | deliver ready => exact hobeys
    | call intent =>
      have hsame : c.after (.call intent) = c := by
        simp only [Character.after]
        split
        · rename_i buffer i hintent
          rw [if_neg]
          intro hlt
          exact hanimates ⟨i, lt_characterBufferCount_iff.mp hlt ▸ hintent⟩
        · rfl
      rwa [hsame]
  · have hne : s.loads.status (.character 0) ≠ .loading := by
      rw [hfailed]
      exact LoadStatus.noConfusion
    refine .inr (.inr ?_)
    rw [Loads.status, slot_after hrefills (.inl hne)]
    exact hfailed

theorem bound_run {earlier recent : List SceneEvent}
    (hloading : (run sources workers earlier).loads.status (.character 0) = .loading)
    (hintent : intent.animation? = some (0, i))
    (hrecent : ∀ e ∈ recent, ¬ e.Refills (.character 0) ∧ ¬ e.Animates) :
    (run sources workers (recent ++ .call intent :: earlier)).Bound
      (if (run sources workers earlier).character.isNone then some i else none) := by
  induction recent with
  | nil =>
    have hnow : (run sources workers earlier).Undecided := undecided_run earlier
    exact bound_heed (s := (run sources workers earlier).reading _) hnow hloading hintent
  | cons e recent ih =>
    obtain ⟨he, hrecent⟩ := List.forall_mem_cons.mp hrecent
    let s := run sources workers (recent ++ .call intent :: earlier)
    have hf : s.Faithful (.character 0) := faithful_run _ _
    have ht : s.loads.Ticketed := ticketed_run _
    have hrun : run sources workers (e :: recent ++ .call intent :: earlier) =
        (s.reading (sources (loadEvents (recent ++ .call intent :: earlier)).length)).after e := rfl
    rw [hrun]
    exact Bound.after (ih hrecent) (hf.reading _) (Ticketed.reading ht _) he.1 he.2

/-- Once the load has ended, its character obeys an intent for it if no other one was visible at that moment, and
is without any animation otherwise. -/
theorem obeys_run {earlier recent : List SceneEvent}
    (hloading : (run sources workers earlier).loads.status (.character 0) = .loading)
    (hintent : intent.animation? = some (0, i))
    (hrecent : ∀ e ∈ recent, ¬ e.Refills (.character 0) ∧ ¬ e.Animates)
    (hloaded : (run sources workers (recent ++ .call intent :: earlier)).loads.status (.character 0) = .loaded) :
    ∃ c, (run sources workers (recent ++ .call intent :: earlier)).character = some c ∧
      (run sources workers (recent ++ .call intent :: earlier)).loads.resource? (.character 0) =
        some c.resource ∧
      c.Obeys (if (run sources workers earlier).character.isNone then some i else none) := by
  have hbound := bound_run hloading hintent hrecent
  rcases hbound with ⟨hstill, -⟩ | hthere | hfailed
  · rw [hstill] at hloaded
    cases hloaded
  · exact hthere
  · rw [hfailed] at hloaded
    cases hloaded

/-- A character asked to play while it is loaded in place of a released one plays when it comes. -/
theorem obeys_run_held :
    let sources : Nat → AssetSource := fun _ _ asset =>
      .ok (Model.write ⟨asset, [], [], [⟨5, .one, [], [], []⟩]⟩)
    let earlier : List SceneEvent := [.call (.load (.character 0) 11), .call (.release (.character 0)),
      .update .zero, .call (.load (.character 0) 10)]
    let recent : List SceneEvent := [.update .zero, .call (.load .background 1)]
    let s := run sources .inline (recent ++ .call (.play 0 5 0) :: earlier)
    (run sources .inline earlier).loads.status (.character 0) = .loading ∧
      Intent.animation? (.play 0 5 0) = some (0, ⟨5, true⟩) ∧
      (∀ e ∈ recent, ¬ e.Refills (.character 0) ∧ ¬ e.Animates) ∧
      s.loads.status (.character 0) = .loaded ∧
      (∃ c, s.character = some c ∧ s.loads.resource? (.character 0) = some c.resource ∧
        c.Obeys (some ⟨5, true⟩)) ∧
      s.character.map (fun c => (c.model.id, c.currentAnimation?, c.playing)) = some (11, some 5, true) := by
  intro sources earlier recent s
  have hloading : (run sources .inline earlier).loads.status (.character 0) = .loading := by decide
  have hrecent : ∀ e ∈ recent, ¬ e.Refills (.character 0) ∧ ¬ e.Animates := by
    simp [recent, SceneEvent.Refills, SceneEvent.Animates, Intent.animation?, SlotKey.background,
      SlotKey.character]
  have hloaded : s.loads.status (.character 0) = .loaded := by decide
  have hnone : (run sources .inline earlier).character.isNone = true := by decide
  have hobeys := obeys_run hloading rfl hrecent hloaded
  rw [hnone] at hobeys
  exact ⟨hloading, rfl, hrecent, hloaded, hobeys, by decide⟩

/-- The same wish made while an earlier character is still visible goes to that one, and the new character
comes without it. -/
theorem reload_loses_intent :
    let sources : Nat → AssetSource := fun _ _ asset =>
      .ok (Model.write ⟨asset, [], [], [⟨5, .one, [], [], []⟩]⟩)
    let earlier : List SceneEvent := [.call (.load (.character 0) 11), .update .zero,
      .call (.load (.character 0) 10)]
    let s := run sources .inline (.update .zero :: .call (.play 0 5 0) :: earlier)
    (run sources .inline earlier).loads.status (.character 0) = .loading ∧
      s.loads.status (.character 0) = .loaded ∧
      s.character.map (fun c => (c.model.id, (c.model.animation? 5).isSome)) = some (11, true) ∧
      s.character.map (fun c => (c.currentAnimation?, c.playing)) = some (none, false) := by
  decide

end Scene
end NovelEngine
