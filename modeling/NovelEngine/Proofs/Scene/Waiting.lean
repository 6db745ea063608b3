import NovelEngine.Proofs.Scene.Intents

/-!
# Held intents and direct ones

Animations can be asked for while the character is being loaded, or right after it has come. A visible character
passes over those that its model lacks and keeps the one it has. The load holds the last intent alone, whatever it
names. So it comes to the same, except where the last intent names an animation that the model lacks and an
earlier one names one that it has: then the held intents are all lost.
-/
namespace NovelEngine

/-- The animation that an event asks the character for. -/
def SceneEvent.wish? : SceneEvent → Option AnimationIntent
  | .call intent => intent.animation?.bind fun wish => if wish.1 = 0 then some wish.2 else none
  | .update _ | .deliver _ => none

/-- The animations that have been asked for, the last one first. -/
def wishes (events : List SceneEvent) : List AnimationIntent := events.filterMap SceneEvent.wish?

def wishing (events : List SceneEvent) : List SceneEvent := events.filter fun e => e.wish?.isSome

def otherwise (events : List SceneEvent) : List SceneEvent := events.filter fun e => e.wish?.isNone

def Model.has (m : Model) (i : AnimationIntent) : Bool := (m.animation? i.animation).isSome

/-- The animation that a character of the model shows when it obeys an intent, and whether it is playing. -/
def Model.outcome (m : Model) (wanted : Option AnimationIntent) : Option UInt16 × Bool :=
  match wanted.filter m.has with
  | some i => (some i.animation, i.playing)
  | none => (none, false)

namespace Model

variable {m : Model} {i : AnimationIntent} {wished : List AnimationIntent}

@[simp] theorem outcome_none : m.outcome none = (none, false) := rfl

theorem outcome_of_has (h : m.has i = true) : m.outcome (some i) = (some i.animation, i.playing) := by
  simp [outcome, Option.filter, h]

theorem outcome_of_lacks (h : m.has i = false) : m.outcome (some i) = (none, false) := by
  simp [outcome, Option.filter, h]

/-- The last intent decides like the last one that the model has an animation for, unless it is not that one
itself. -/
theorem outcome_head?_eq_iff : m.outcome wished.head? = m.outcome (wished.find? m.has) ↔
    (∀ i ∈ wished.head?, m.has i = true) ∨ ∀ i ∈ wished, m.has i = false := by
  cases wished with
  | nil => simp
  | cons i rest =>
    cases hi : m.has i with
    | true => simp [hi]
    | false =>
      rw [List.head?_cons, outcome_of_lacks hi, List.find?_cons, hi]
      cases hfind : rest.find? m.has with
      | none =>
        have hnone : ∀ j ∈ rest, m.has j = false := by simpa using hfind
        simpa [hi] using hnone
      | some j =>
        have hj : m.has j = true := List.find?_some hfind
        have hmem : j ∈ rest := List.mem_of_find?_eq_some hfind
        have hne : ¬ ∀ k ∈ rest, m.has k = false := fun h => by simp [h j hmem] at hj
        simpa [hi, outcome_of_has hj] using hne

end Model

theorem Character.obeys_iff {c : Character} {wanted : Option AnimationIntent} :
    c.Obeys wanted ↔ (c.currentAnimation?, c.playing) = c.model.outcome wanted := by
  cases wanted with
  | none => simp [Obeys, Model.outcome]
  | some i =>
    cases h : c.model.has i with
    | true =>
      have hclip : (c.model.animation? i.animation).isSome = true := h
      simp [Obeys, hclip, Model.outcome_of_has h]
    | false =>
      have hclip : (c.model.animation? i.animation).isSome = false := h
      simp [Obeys, hclip, Model.outcome_of_lacks h]

namespace SceneEvent

variable {e : SceneEvent} {i : AnimationIntent}

theorem wish?_eq_some_iff : e.wish? = some i ↔ ∃ intent, e = .call intent ∧ intent.animation? = some (0, i) := by
  cases e with
  | update delta => simp [wish?]
  | deliver ready => simp [wish?]
  | call intent =>
    simp only [wish?, Option.bind_eq_some_iff, call.injEq, exists_eq_left']
    constructor
    · rintro ⟨⟨buffer, j⟩, hintent, hwish⟩
      split at hwish
      · rename_i hbuffer
        obtain rfl : j = i := Option.some.inj hwish
        rw [hintent]
        exact congrArg (fun buffer => some (buffer, j)) hbuffer
      · cases hwish
    · intro hintent
      exact ⟨(0, i), hintent, rfl⟩

theorem not_animates_of_wish? (h : e.wish? = none) : ¬ e.Animates := by
  cases e with
  | update delta => exact not_false
  | deliver ready => exact not_false
  | call intent =>
    rintro ⟨i, hintent⟩
    rw [wish?_eq_some_iff.mpr ⟨intent, rfl, hintent⟩] at h
    cases h

end SceneEvent

namespace Scene

/-- The scene after some events, the last of which comes first. -/
def afterAll (s : Scene) : List SceneEvent → Scene
  | [] => s
  | e :: earlier => (s.afterAll earlier).after e

def animation? (s : Scene) : Option (Option UInt16 × Bool) :=
  s.character.map fun c => (c.currentAnimation?, c.playing)

/-- The scene has no character but the one that is being loaded, for which it holds an intent. -/
structure Awaits (s : Scene) (held : Option AnimationIntent) : Prop where
  character : s.character = none
  held : s.held = held
  loading : s.loads.status (.character 0) = .loading

variable {s : Scene} {e : SceneEvent} {events : List SceneEvent} {i : AnimationIntent} {c : Character}
  {held : Option AnimationIntent} {resource : Resource} {wished : List AnimationIntent}

theorem after_wish (hwish : e.wish? = some i) : s.after e = s.intended i := by
  obtain ⟨intent, rfl, hintent⟩ := SceneEvent.wish?_eq_some_iff.mp hwish
  have hcall : s.after (.call intent) = Stage.heed s intent := rfl
  rw [hcall, heed_animation hintent, if_pos rfl]

theorem loads_wish (hwish : e.wish? = some i) : (s.after e).loads = s.loads := by
  rw [after_wish hwish, loads_intended]

theorem Awaits.wish (h : s.Awaits held) (hwish : e.wish? = some i) : (s.after e).Awaits (some i) := by
  have hintended : s.after e = { s with held := some i } := by
    simp only [after_wish hwish, intended, h.character, h.loading]
  rw [hintended]
  exact ⟨h.character, rfl, h.loading⟩

theorem loading_before (hrefills : ¬ e.Refills (.character 0))
    (hloading : (s.after e).loads.status (.character 0) = .loading) : s.loads.status (.character 0) = .loading := by
  by_cases hstill : s.loads.status (.character 0) = .loading
  · exact hstill
  · rw [Loads.status, slot_after hrefills (.inl hstill)] at hloading
    exact hloading

theorem Awaits.other (h : s.Awaits held) (hwish : e.wish? = none) (hrefills : ¬ e.Refills (.character 0))
    (hloading : (s.after e).loads.status (.character 0) = .loading) : (s.after e).Awaits held := by
  by_cases hupdate : ∃ delta, e = .update delta
  · -- the load goes on, so that nothing is adopted
    obtain ⟨delta, rfl⟩ := hupdate
    have hafter : s.after (.update delta) = (s.update delta).value := rfl
    have hloads : (s.after (.update delta)).loads = s.loads.after .pump := loads_update delta
    have hnone : (s.loads.after .pump).resource? (.character 0) = none := by
      rw [hloads, Loads.status] at hloading
      cases hcontent : ((s.loads.after .pump).slot (.character 0)).content <;>
        simp_all [Loads.resource?, Content.status, Content.resource?]
    refine ⟨?_, ?_, hloading⟩
    · simp [hafter, update_value, syncCharacter_value, hnone]
    · simp [hafter, update_value, syncCharacter_value, hnone, h.held]
  · have hne : ∀ delta, e ≠ .update delta := fun delta heq => hupdate ⟨delta, heq⟩
    have hheld := held_after (s := s) hne hrefills (SceneEvent.not_animates_of_wish? hwish)
    refine ⟨?_, hheld.trans h.held, hloading⟩
    cases hc : (s.after e).character with
    | none => rfl
    | some c =>
      have hshown : (s.after e).shown (.character 0) = some c.resource := by simp [hc]
      have hbefore := shown_before hne hshown
      simp [h.character] at hbefore

/-- The last of the intents that have come since is the one that the load holds. -/
theorem Awaits.afterAll (h : s.Awaits none) (hrefills : ∀ e ∈ events, ¬ e.Refills (.character 0))
    (hloading : (s.afterAll events).loads.status (.character 0) = .loading) :
    (s.afterAll events).Awaits (wishes events).head? := by
  induction events with
  | nil => exact h
  | cons e earlier ih =>
    obtain ⟨he, hearlier⟩ := List.forall_mem_cons.mp hrefills
    have ih := ih hearlier (loading_before he hloading)
    cases hwish : e.wish? with
    | some i =>
      rw [wishes, List.filterMap_cons_some hwish]
      exact ih.wish hwish
    | none =>
      rw [wishes, List.filterMap_cons_none hwish]
      exact ih.other hwish he hloading

theorem loads_afterAll_otherwise (s : Scene) (events : List SceneEvent) :
    (s.afterAll (otherwise events)).loads = (s.afterAll events).loads := by
  induction events with
  | nil => rfl
  | cons e earlier ih =>
    cases hwish : e.wish? with
    | some i =>
      have hdrop : otherwise (e :: earlier) = otherwise earlier := by simp [otherwise, hwish]
      rw [hdrop, ih, afterAll, loads_wish hwish]
    | none =>
      have hkeep : otherwise (e :: earlier) = e :: otherwise earlier := by simp [otherwise, hwish]
      rw [hkeep, afterAll, afterAll, loads_after, loads_after, ih]

theorem wishes_otherwise (events : List SceneEvent) : wishes (otherwise events) = [] := by
  simp [wishes, otherwise]

theorem wishes_wishing (events : List SceneEvent) : wishes (wishing events) = wishes events := by
  have hsame : (fun e : SceneEvent => if e.wish?.isSome = true then e.wish? else none) = SceneEvent.wish? := by
    funext e
    cases e.wish? <;> simp
  rw [wishes, wishing, List.filterMap_filter, hsame, wishes]

theorem Awaits.update (h : s.Awaits held) (delta : Single)
    (hresource : (s.loads.after .pump).resource? (.character 0) = some resource) :
    ∃ c, (s.after (.update delta)).character = some c ∧ c.resource = resource ∧ c.Obeys held := by
  have hafter : s.after (.update delta) = (s.update delta).value := rfl
  have hcharacter : (s.after (.update delta)).character = some ((s.entrance resource).advance delta) := by
    rw [hafter, update_value]
    simp only [syncCharacter_value, hresource, adopted, h.character]
    rfl
  refine ⟨_, hcharacter, ?_, ?_⟩
  · rw [resource_advance, resource_entrance]
  · rw [← h.held]
    exact obeys_advance (obeys_entrance resource) delta

theorem obeys_afterAll (hc : s.character = some c) (hobeys : c.Obeys none)
    (hwishes : ∀ e ∈ events, e.wish?.isSome = true) :
    ∃ c', (s.afterAll events).character = some c' ∧ c'.resource = c.resource ∧
      c'.Obeys ((wishes events).find? c.model.has) := by
  induction events with
  | nil => exact ⟨c, hc, rfl, hobeys⟩
  | cons e earlier ih =>
    obtain ⟨he, hearlier⟩ := List.forall_mem_cons.mp hwishes
    obtain ⟨i, hwish⟩ := Option.isSome_iff_exists.mp he
    obtain ⟨c', hc', hsame, hobeys'⟩ := ih hearlier
    have hmodel : c'.model = c.model := by rw [Character.model, hsame, Character.model]
    have hcharacter : (s.afterAll (e :: earlier)).character = some (c'.apply i).value := by
      simp only [afterAll, after_wish hwish, intended, hc']
    refine ⟨_, hcharacter, by rw [resource_apply, hsame], ?_⟩
    rw [wishes, List.filterMap_cons_some hwish, List.find?_cons]
    cases hhas : c.model.has i with
    | true => exact Character.obeys_apply (by rw [hmodel]; exact hhas)
    | false =>
      have hlacks : c'.model.animation? i.animation = none := by
        rw [hmodel]
        simpa [Model.has] using hhas
      rw [Character.apply_of_lacks hlacks]
      exact hobeys'

/-- How a scene whose character comes with the held intent compares with one whose character gets the same
intents directly. -/
structure Compares (resource : Resource) (wished : List AnimationIntent) (late direct : Scene) : Prop where
  late_obeys : ∃ c, late.character = some c ∧ c.resource = resource ∧ c.Obeys wished.head?
  direct_obeys : ∃ c, direct.character = some c ∧ c.resource = resource ∧ c.Obeys (wished.find? resource.model.has)
  agree_iff : late.animation? = direct.animation? ↔
    (∀ i ∈ wished.head?, resource.model.has i = true) ∨ ∀ i ∈ wished, resource.model.has i = false

/-- Intents that come during a load, against the same intents right after the update that ends it, with the other
events of the time in their places. -/
theorem held_compares_direct (hawaits : s.Awaits none) (hrefills : ∀ e ∈ events, ¬ e.Refills (.character 0))
    (hloading : (s.afterAll events).loads.status (.character 0) = .loading) (delta : Single)
    (hresource : ((s.afterAll events).loads.after .pump).resource? (.character 0) = some resource) :
    Compares resource (wishes events) ((s.afterAll events).after (.update delta))
      (((s.afterAll (otherwise events)).after (.update delta)).afterAll (wishing events)) := by
  have hloads := loads_afterAll_otherwise s events
  have hquiet : (s.afterAll (otherwise events)).Awaits none := by
    have hothers : ∀ e ∈ otherwise events, ¬ e.Refills (.character 0) :=
      fun e he => hrefills e (List.mem_filter.mp he).1
    have hstill := hawaits.afterAll hothers (by rw [hloads]; exact hloading)
    rwa [wishes_otherwise] at hstill
  obtain ⟨late, hlate, hlateresource, hlateobeys⟩ := (hawaits.afterAll hrefills hloading).update delta hresource
  rw [← hloads] at hresource
  obtain ⟨fresh, hfresh, hfreshresource, hfreshobeys⟩ := hquiet.update delta hresource
  have hwishes : ∀ e ∈ wishing events, e.wish?.isSome = true := fun e he => (List.mem_filter.mp he).2
  obtain ⟨direct, hdirect, hdirectresource, hdirectobeys⟩ := obeys_afterAll hfresh hfreshobeys hwishes
  have hmodel (c : Character) (h : c.resource = resource) : c.model = resource.model := by
    rw [Character.model, h]
  rw [wishes_wishing, hmodel fresh hfreshresource] at hdirectobeys
  rw [hfreshresource] at hdirectresource
  refine ⟨⟨late, hlate, hlateresource, hlateobeys⟩, ⟨direct, hdirect, hdirectresource, hdirectobeys⟩, ?_⟩
  rw [Character.obeys_iff, hmodel late hlateresource] at hlateobeys
  rw [Character.obeys_iff, hmodel direct hdirectresource] at hdirectobeys
  rw [← Model.outcome_head?_eq_iff, animation?, animation?, hlate, hdirect, Option.map_some, Option.map_some,
    hlateobeys, hdirectobeys, Option.some_inj]

/-- A pose over a play, with the delivery between them. -/
theorem held_compares_direct_pose :
    let source : AssetSource := fun _ asset => .ok (Model.write ⟨asset, [], [], [⟨5, .one, [], [], []⟩]⟩)
    let s : Scene := (create (.create source .pool)).after (.call (.load (.character 0) 10))
    let events : List SceneEvent := [.call (.pose 0 5), .deliver fun _ => true, .call (.play 0 99 0)]
    let late := (s.afterAll events).after (.update .zero)
    let direct := ((s.afterAll (otherwise events)).after (.update .zero)).afterAll (wishing events)
    let resource : Resource := ⟨0, .character, ⟨10, [], [], [⟨5, .one, [], [], []⟩]⟩⟩
    s.Awaits none ∧ (∀ e ∈ events, ¬ e.Refills (.character 0)) ∧
      (s.afterAll events).loads.status (.character 0) = .loading ∧
      ((s.afterAll events).loads.after .pump).resource? (.character 0) = some resource ∧
      Compares resource (wishes events) late direct ∧
      late.animation? = some (some 5, false) ∧ direct.animation? = some (some 5, false) := by
  intro source s events late direct resource
  have hawaits : s.Awaits none := ⟨by decide, by decide, by decide⟩
  have hrefills : ∀ e ∈ events, ¬ e.Refills (.character 0) := by simp [events, SceneEvent.Refills]
  have hloading : (s.afterAll events).loads.status (.character 0) = .loading := by decide
  have hresource : ((s.afterAll events).loads.after .pump).resource? (.character 0) = some resource := by decide
  exact ⟨hawaits, hrefills, hloading, hresource, held_compares_direct hawaits hrefills hloading .zero hresource,
    by decide, by decide⟩

/-- An intent for an animation that the model lacks drops the one that was held before it; the visible character
passes over it. -/
theorem held_disagrees_direct :
    let source : AssetSource := fun _ asset => .ok (Model.write ⟨asset, [], [], [⟨5, .one, [], [], []⟩]⟩)
    let s : Scene := (create (.create source .inline)).after (.call (.load (.character 0) 10))
    let events : List SceneEvent := [.call (.play 0 99 0), .call (.play 0 5 0)]
    s.character = none ∧ s.held = none ∧ s.loads.status (.character 0) = .loading ∧
      ((s.afterAll events).after (.update .zero)).animation? = some (none, false) ∧
      ((s.after (.update .zero)).afterAll events).animation? = some (some 5, true) := by
  decide

end Scene
end NovelEngine
