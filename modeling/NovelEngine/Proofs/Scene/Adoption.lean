import NovelEngine.Proofs.Scene.Waiting

/-!
# Where the animation of a new character comes from

An update adopts a character when the load of its model has ended. The animation that it starts with has been asked
for during that very load, with nothing visible to obey it. All that was asked for before the slot was last filled
or emptied, or before its load ended otherwise, could as well never have been asked for.
-/
namespace NovelEngine

theorem SceneEvent.not_refills_of_asks {intent : Intent} {buffer : UInt32} {i : AnimationIntent} {slot : SlotKey}
    (h : intent.animation? = some (buffer, i)) : ¬ (SceneEvent.call intent).Refills slot := by
  cases intent with
  | load other asset | release other => cases h
  | play buffer animation mode | pose buffer animation => exact not_false

namespace Scene

variable {sources : Nat → AssetSource} {workers : Workers} {s s' : Scene} {e : SceneEvent}
  {history first others : List SceneEvent} {resource : Resource} {i : AnimationIntent} {c : Character}
  {delta : Single}

/-- The history up to the load request that a resource is the result of, and what has happened since. -/
structure Produced (sources : Nat → AssetSource) (workers : Workers) (history : List SceneEvent)
    (resource : Resource) (recent : List SceneEvent) (asset : UInt32) (earlier : List SceneEvent) : Prop where
  split : history = recent ++ .call (.load (.character 0) asset) :: earlier
  ticket : resource.ticket = (run sources workers earlier).loads.issued
  model : ∃ time, (loadEvents earlier).length ≤ time ∧ time ≤ (loadEvents history).length ∧
    (sources time).load .character asset = .ok resource.model

/-- The events up to an intent for an animation that is held for the load that the character slot is busy with,
and what has happened since. -/
structure Holds (sources : Nat → AssetSource) (workers : Workers) (history : List SceneEvent)
    (i : AnimationIntent) (since : List SceneEvent) (intent : Intent) (past : List SceneEvent) : Prop where
  split : history = since ++ .call intent :: past
  asks : intent.animation? = some (0, i)
  kept : ∀ e ∈ since, ¬ e.Refills (.character 0)
  invisible : (run sources workers past).character = none
  loading : (run sources workers past).loads.status (.character 0) = .loading

theorem Faithful.not_loaded (h : s.Faithful (.character 0)) (hnone : s.character = none) :
    s.loads.status (.character 0) ≠ .loaded := by
  intro hloaded
  have hshown := h.shown_eq (by rw [hloaded]; exact LoadStatus.noConfusion)
  obtain ⟨resource, hresource⟩ := Loads.status_eq_loaded_iff.mp hloaded
  rw [hresource, shown_character, hnone] at hshown
  cases hshown

theorem held_of_refills (h : e.Refills (.character 0)) : (s.after e).held = none := by
  cases e with
  | update delta => cases h
  | deliver ready => cases h
  | call intent =>
    have hcall : s.after (.call intent) = Stage.heed s intent := rfl
    rw [hcall]
    cases intent with
    | load slot asset =>
      obtain rfl : slot = .character 0 := h
      rw [heed_load]
      rfl
    | release slot =>
      obtain rfl : slot = .character 0 := h
      simp [heed_release]
    | play buffer animation mode => cases h
    | pose buffer animation => cases h

theorem held_after_or (hf : s.Faithful (.character 0)) (hheld : (s.after e).held = some i) :
    (¬ e.Refills (.character 0) ∧ s.held = some i) ∨
      ∃ intent, e = .call intent ∧ intent.animation? = some (0, i) ∧ s.character = none ∧
        s.loads.status (.character 0) = .loading := by
  by_cases hrefills : e.Refills (.character 0)
  · rw [held_of_refills hrefills] at hheld
    cases hheld
  · cases hwish : e.wish? with
    | some j =>
      obtain ⟨intent, rfl, hintent⟩ := SceneEvent.wish?_eq_some_iff.mp hwish
      rw [after_wish hwish, intended] at hheld
      cases hc : s.character with
      | some c =>
        simp only [hc] at hheld
        exact .inl ⟨hrefills, hheld⟩
      | none =>
        have hnot := hf.not_loaded hc
        cases hstatus : s.loads.status (.character 0) with
        | loading =>
          simp only [hc, hstatus, Option.some.injEq] at hheld
          exact .inr ⟨intent, rfl, hheld ▸ hintent, rfl, rfl⟩
        | loaded => exact absurd hstatus hnot
        | unloaded | failed =>
          simp only [hc, hstatus] at hheld
          exact .inl ⟨hrefills, hheld⟩
    | none =>
      refine .inl ⟨hrefills, ?_⟩
      by_cases hupdate : ∃ delta, e = .update delta
      · obtain ⟨delta, rfl⟩ := hupdate
        have hafter : s.after (.update delta) = (s.update delta).value := rfl
        rw [hafter, update_value] at hheld
        simp only [syncCharacter_value] at hheld
        split at hheld
        · exact hheld
        · rw [adopted] at hheld
          split at hheld
          · exact hheld
          · cases hheld
      · have hne : ∀ delta, e ≠ .update delta := fun delta heq => hupdate ⟨delta, heq⟩
        rwa [held_after hne hrefills (SceneEvent.not_animates_of_wish? hwish)] at hheld

theorem exists_holds (hheld : (run sources workers history).held = some i) :
    ∃ since intent past, Holds sources workers history i since intent past := by
  induction history with
  | nil => cases hheld
  | cons e earlier ih =>
    have hf : (run sources workers earlier).Faithful (.character 0) := faithful_run _ _
    rcases held_after_or (hf.reading _) hheld with ⟨hrefills, hbefore⟩ | ⟨intent, rfl, hasks, hnone, hloading⟩
    · obtain ⟨since, intent, past, h⟩ := ih hbefore
      refine ⟨e :: since, intent, past, ?_, h.asks, ?_, h.invisible, h.loading⟩
      · rw [List.cons_append, ← h.split]
      · exact List.forall_mem_cons.mpr ⟨hrefills, h.kept⟩
    · exact ⟨[], intent, earlier, rfl, hasks, nofun, hnone, hloading⟩

theorem slot_of_loading (hkept : ∀ e ∈ others, ¬ e.Refills (.character 0))
    (hloading : (run sources workers (others ++ first)).loads.status (.character 0) = .loading) :
    (run sources workers (others ++ first)).loads.slot (.character 0) =
      (run sources workers first).loads.slot (.character 0) := by
  induction others with
  | nil => rfl
  | cons e others ih =>
    obtain ⟨he, hothers⟩ := List.forall_mem_cons.mp hkept
    let s := (run sources workers (others ++ first)).reading (sources (loadEvents (others ++ first)).length)
    have hrun : run sources workers (e :: others ++ first) = s.after e := rfl
    rw [hrun] at hloading ⊢
    have hbefore : s.loads.status (.character 0) = .loading := loading_before he hloading
    rw [← ih hothers hbefore]
    by_cases hupdate : ∃ delta, e = .update delta
    · obtain ⟨delta, rfl⟩ := hupdate
      have hloads : (s.after (.update delta)).loads = s.loads.after .pump := loads_update delta
      rw [hloads] at hloading ⊢
      rcases s.loads.slot_pump (.character 0) with hslot | ⟨d, -, -, -, hslot⟩
      · exact hslot
      · rw [Loads.status, hslot] at hloading
        exact absurd hloading (LoadSlot.status_settle_ne_loading _ d)
    · exact slot_after he (.inr fun delta heq => hupdate ⟨delta, heq⟩)

/-- Two scenes that differ at most in the animations that have been asked for, and in the files at hand. -/
structure Resembles (s s' : Scene) : Prop where
  loads : ∀ source, (s'.reading source).loads = (s.reading source).loads
  shown : s'.shown (.character 0) = s.shown (.character 0)

theorem any_character (s : Scene) (ticket : Nat) : (s.character.any fun c => c.resource.ticket = ticket) =
    (s.shown (.character 0)).any fun r => r.ticket = ticket := by
  rw [shown_character]
  cases s.character <;> rfl

theorem character_update (delta : Single) : (s.update delta).value.character =
    match (s.loads.after .pump).resource? (.character 0) with
    | none => none
    | some resource =>
      if (s.shown (.character 0)).any fun r => r.ticket = resource.ticket then
        s.character.map fun c => c.advance delta
      else some ((s.entrance resource).advance delta) := by
  rw [update_value]
  simp only [syncCharacter_value, ← any_character]
  cases (s.loads.after .pump).resource? (.character 0) with
  | none => rfl
  | some resource =>
    simp only [adopted]
    split <;> rfl

theorem shown_update_eq (delta : Single) : (s.update delta).value.shown (.character 0) =
    match (s.loads.after .pump).resource? (.character 0) with
    | none => none
    | some resource =>
      if (s.shown (.character 0)).any fun r => r.ticket = resource.ticket then s.shown (.character 0)
      else some resource := by
  rw [shown_character, character_update]
  split
  · rfl
  · split
    · rw [shown_character]
      cases s.character <;> simp
    · simp [resource_entrance]

theorem held_update_eq (delta : Single) : (s.update delta).value.held =
    match (s.loads.after .pump).resource? (.character 0) with
    | none => s.held
    | some resource =>
      if (s.shown (.character 0)).any fun r => r.ticket = resource.ticket then s.held else none := by
  rw [update_value]
  simp only [syncCharacter_value, ← any_character]
  cases (s.loads.after .pump).resource? (.character 0) with
  | none => rfl
  | some resource =>
    simp only [adopted]
    split <;> rfl

theorem held_intended_eq (s : Scene) (i : AnimationIntent) : (s.intended i).held =
    if (s.shown (.character 0)).isSome then s.held
    else match s.loads.status (.character 0) with
      | .loading | .loaded => some i
      | .unloaded | .failed => s.held := by
  rw [intended, shown_character]
  cases s.character with
  | some c => rfl
  | none => cases s.loads.status (.character 0) <;> rfl

theorem Resembles.after (h : s.Resembles s') (source : AssetSource) (e : SceneEvent) :
    ((s.reading source).after e).Resembles ((s'.reading source).after e) := by
  have hloads : ((s'.reading source).after e).loads = ((s.reading source).after e).loads := by
    rw [loads_after, loads_after, h.loads]
  refine ⟨fun other => ?_, ?_⟩
  · simp only [Scene.reading] at hloads ⊢
    rw [hloads]
  have hshown : (s'.reading source).shown (.character 0) = (s.reading source).shown (.character 0) := h.shown
  cases e with
  | update delta =>
    have hvalue (s : Scene) : s.after (.update delta) = (s.update delta).value := rfl
    rw [hvalue, hvalue, shown_update_eq, shown_update_eq, h.loads, hshown]
  | deliver ready => exact hshown
  | call intent =>
    have hcall (s : Scene) : s.after (.call intent) = Stage.heed s intent := rfl
    rw [hcall, hcall]
    cases intent with
    | load slot asset => rw [shown_load, shown_load, hshown]
    | release slot => rw [shown_release, shown_release, hshown]
    | play buffer animation mode => rw [shown_animation rfl, shown_animation rfl, hshown]
    | pose buffer animation => rw [shown_animation rfl, shown_animation rfl, hshown]

theorem Resembles.wish (h : s.Resembles s') (source : AssetSource) (hwish : e.wish? = some i) :
    s.Resembles ((s'.reading source).after e) := by
  obtain ⟨intent, rfl, hintent⟩ := SceneEvent.wish?_eq_some_iff.mp hwish
  have hcall : (s'.reading source).after (.call intent) = Stage.heed (s'.reading source) intent := rfl
  rw [hcall]
  refine ⟨fun other => ?_, (shown_animation hintent).trans h.shown⟩
  rw [Scene.reading, loads_animation hintent]
  exact h.loads other

theorem loadEvents_otherwise (history : List SceneEvent) : loadEvents (otherwise history) = loadEvents history := by
  induction history with
  | nil => rfl
  | cons e earlier ih =>
    cases hwish : e.wish? with
    | some i =>
      obtain ⟨intent, rfl, hintent⟩ := SceneEvent.wish?_eq_some_iff.mp hwish
      have hdrop : otherwise (.call intent :: earlier) = otherwise earlier := by simp [otherwise, hwish]
      have hnone : SceneEvent.loadEvent? (.call intent) = none := by cases intent <;> first | rfl | cases hintent
      rw [hdrop, ih, loadEvents_cons_none hnone]
    | none =>
      have hkeep : otherwise (e :: earlier) = e :: otherwise earlier := by simp [otherwise, hwish]
      rw [hkeep]
      cases hevent : e.loadEvent? with
      | none => rw [loadEvents_cons_none hevent, loadEvents_cons_none hevent, ih]
      | some event => rw [loadEvents_cons_some hevent, loadEvents_cons_some hevent, ih]

theorem length_loadEvents_append (others first : List SceneEvent) :
    (loadEvents (others ++ otherwise first)).length = (loadEvents (others ++ first)).length := by
  have hfirst := loadEvents_otherwise first
  simp only [loadEvents, List.filterMap_append, List.length_append] at hfirst ⊢
  rw [hfirst]

theorem resembles_otherwise (history : List SceneEvent) :
    (run sources workers (otherwise history)).Resembles (run sources workers history) := by
  induction history with
  | nil => exact ⟨fun _ => rfl, rfl⟩
  | cons e earlier ih =>
    cases hwish : e.wish? with
    | some i =>
      have hdrop : otherwise (e :: earlier) = otherwise earlier := by simp [otherwise, hwish]
      rw [hdrop]
      exact ih.wish _ hwish
    | none =>
      have hkeep : otherwise (e :: earlier) = e :: otherwise earlier := by simp [otherwise, hwish]
      rw [hkeep, run, loadEvents_otherwise]
      exact ih.after _ e

theorem resembles_append (others first : List SceneEvent) :
    (run sources workers (others ++ otherwise first)).Resembles (run sources workers (others ++ first)) := by
  induction others with
  | nil => exact resembles_otherwise first
  | cons e others ih =>
    rw [List.cons_append, List.cons_append, run, length_loadEvents_append]
    exact ih.after _ e

theorem Resembles.held_after (h : s.Resembles s') (hheld : s'.held = s.held) (source : AssetSource)
    (e : SceneEvent) : ((s'.reading source).after e).held = ((s.reading source).after e).held := by
  have hshown : (s'.reading source).shown (.character 0) = (s.reading source).shown (.character 0) := h.shown
  have hloads := h.loads source
  have hheld : (s'.reading source).held = (s.reading source).held := hheld
  by_cases hrefills : e.Refills (.character 0)
  · rw [held_of_refills hrefills, held_of_refills hrefills]
  · cases hwish : e.wish? with
    | some i =>
      rw [after_wish hwish, after_wish hwish, held_intended_eq, held_intended_eq, hloads, hshown, hheld]
    | none =>
      by_cases hupdate : ∃ delta, e = .update delta
      · obtain ⟨delta, rfl⟩ := hupdate
        have hvalue (s : Scene) : s.after (.update delta) = (s.update delta).value := rfl
        rw [hvalue, hvalue, held_update_eq, held_update_eq, hloads, hshown, hheld]
      · have hne : ∀ delta, e ≠ .update delta := fun delta heq => hupdate ⟨delta, heq⟩
        have hanimates := SceneEvent.not_animates_of_wish? hwish
        rw [Scene.held_after hne hrefills hanimates, Scene.held_after hne hrefills hanimates, hheld]

theorem held_append (hrefills : ∃ e ∈ others, e.Refills (.character 0)) :
    (run sources workers (others ++ first)).held = (run sources workers (others ++ otherwise first)).held := by
  induction others with
  | nil =>
    obtain ⟨e, he, -⟩ := hrefills
    cases he
  | cons e others ih =>
    rw [List.cons_append, List.cons_append, run, run, length_loadEvents_append]
    by_cases he : e.Refills (.character 0)
    · rw [held_of_refills he, held_of_refills he]
    · have hothers : ∃ e ∈ others, e.Refills (.character 0) := by
        obtain ⟨e', hmem, he'⟩ := hrefills
        rcases List.mem_cons.mp hmem with rfl | hmem
        · exact absurd he' he
        · exact ⟨e', hmem, he'⟩
      exact (resembles_append others first).held_after (ih hothers) _ e

/-- What an update that finds a new resource does with it. -/
structure Adopts (s : Scene) (delta : Single) (c : Character) : Prop where
  loading : s.loads.status (.character 0) = .loading
  resource : (s.loads.after .pump).resource? (.character 0) = some c.resource
  unseen : (s.shown (.character 0)).any (fun r => r.ticket = c.resource.ticket) = false
  entrance : c = (s.entrance c.resource).advance delta

theorem Faithful.adopts (h : s.Faithful (.character 0)) (hc : (s.after (.update delta)).character = some c)
    (hnew : s.character.map Character.resource ≠ some c.resource) : s.Adopts delta c := by
  have hvalue : s.after (.update delta) = (s.update delta).value := rfl
  rw [hvalue, character_update] at hc
  cases hresource : (s.loads.after .pump).resource? (.character 0) with
  | none => simp [hresource] at hc
  | some resource =>
    simp only [hresource] at hc
    split at hc
    · obtain ⟨old, hold, rfl⟩ := Option.map_eq_some_iff.mp hc
      rw [hold, resource_advance] at hnew
      exact absurd rfl hnew
    · rename_i hunseen
      obtain rfl := Option.some_inj.mp hc
      have hsame : ((s.entrance resource).advance delta).resource = resource := by
        rw [resource_advance, resource_entrance]
      rw [hsame] at hnew
      refine ⟨?_, ?_, ?_, ?_⟩
      · -- a slot that has settled is shown already
        refine Classical.byContradiction fun hsettled => hnew ?_
        rw [Loads.resource?, Loads.slot_pump_of_settled hsettled] at hresource
        exact (h.shown_eq hsettled).trans hresource
      · rw [hsame, hresource]
      · rw [hsame]
        exact Bool.eq_false_iff.mpr hunseen
      · rw [hsame]

theorem Adopts.character (h : s.Adopts delta c) : (s.after (.update delta)).character = some c := by
  have hvalue : s.after (.update delta) = (s.update delta).value := rfl
  rw [hvalue, character_update, h.resource]
  simp only [h.unseen]
  exact congrArg some h.entrance.symm

/-- An adoption depends on the loads, what is visible and what is held. -/
theorem Adopts.of_resembles (h : s.Adopts delta c) (hloads : s'.loads = s.loads)
    (hshown : s'.shown (.character 0) = s.shown (.character 0)) (hheld : s'.held = s.held) : s'.Adopts delta c := by
  refine ⟨?_, ?_, ?_, ?_⟩
  · rw [hloads, h.loading]
  · rw [hloads, h.resource]
  · rw [hshown, h.unseen]
  · have hentrance : s'.entrance c.resource = s.entrance c.resource := by rw [Scene.entrance, Scene.entrance, hheld]
    rw [hentrance]
    exact h.entrance

/-- The animation of an adopted character is that of the held intent. -/
theorem Adopts.exists_held {animation : UInt16} (h : s.Adopts delta c)
    (hcurrent : c.currentAnimation? = some animation) :
    ∃ i, s.held = some i ∧ i.animation = animation ∧ c.playing = i.playing := by
  have hobeys : c.Obeys s.held := by
    rw [h.entrance]
    exact obeys_advance (obeys_entrance c.resource) delta
  cases hheld : s.held with
  | none =>
    rw [hheld] at hobeys
    rw [hobeys.1] at hcurrent
    cases hcurrent
  | some i =>
    rw [hheld] at hobeys
    simp only [Character.Obeys] at hobeys
    split at hobeys
    · refine ⟨i, rfl, ?_, hobeys.2⟩
      rw [hobeys.1] at hcurrent
      exact Option.some_inj.mp hcurrent
    · rw [hobeys.1] at hcurrent
      cases hcurrent

theorem exists_load_of_request {r : LoadRequest} (h : r ∈ Loads.requests sources workers (loadEvents history)) :
    ∃ recent slot asset earlier, history = recent ++ .call (.load slot asset) :: earlier ∧
      r = ⟨(loadEvents earlier).length, (run sources workers earlier).loads.jobFor slot asset⟩ := by
  induction history with
  | nil => cases h
  | cons e earlier ih =>
    have hearlier (hmem : r ∈ Loads.requests sources workers (loadEvents earlier)) :
        ∃ recent slot asset first, e :: earlier = recent ++ .call (.load slot asset) :: first ∧
          r = ⟨(loadEvents first).length, (run sources workers first).loads.jobFor slot asset⟩ := by
      obtain ⟨recent, slot, asset, first, rfl, hr⟩ := ih hmem
      exact ⟨e :: recent, slot, asset, first, rfl, hr⟩
    cases hevent : e.loadEvent? with
    | none =>
      rw [loadEvents_cons_none hevent] at h
      exact hearlier h
    | some event =>
      rw [loadEvents_cons_some hevent] at h
      cases event with
      | release slot | pump | deliver ready => exact hearlier h
      | request slot asset =>
        rcases List.mem_cons.mp h with rfl | hmem
        · obtain rfl : e = .call (.load slot asset) := by
            cases e with
            | update delta | deliver ready => cases hevent
            | call intent =>
              cases intent with
              | load other asset' =>
                simp only [SceneEvent.loadEvent?, Option.ite_none_right_eq_some, Option.some.injEq,
                  LoadEvent.request.injEq] at hevent
                obtain ⟨-, rfl, rfl⟩ := hevent
                rfl
              | release other | play buffer animation mode | pose buffer animation => cases hevent
          refine ⟨[], slot, asset, earlier, rfl, ?_⟩
          obtain ⟨source, hloads⟩ : ∃ source, (run sources workers earlier).loads =
              { Loads.run sources workers (loadEvents earlier) with source } := loads_run earlier
          rw [hloads]
          rfl
        · exact hearlier hmem

theorem exists_produced
    (hresource : (run sources workers (.update delta :: history)).loads.resource? (.character 0) = some resource) :
    ∃ recent asset earlier, Produced sources workers history resource recent asset earlier := by
  obtain ⟨asset, hcontent⟩ := exists_settled_of_resource hresource
  obtain ⟨r, hr, hslot, -, time, hle, hlt, hresult⟩ := (Loads.traced_run _).settled _ asset _ hcontent
  obtain ⟨recent, slot, asset, earlier, hsplit, rfl⟩ := exists_load_of_request hr
  obtain rfl : slot = .character 0 := hslot
  obtain ⟨model, hmodel, rfl⟩ := Loads.complete_ok_iff.mp hresult
  cases recent with
  | nil => cases hsplit
  | cons e recent =>
    obtain ⟨-, hsplit⟩ := List.cons.inj hsplit
    exact ⟨recent, asset, earlier, hsplit, rfl, time, hle, Nat.le_of_lt_succ hlt, hmodel⟩

/-- The slot has been filled or emptied only before an intent that is still held. -/
theorem Holds.exists_between {since past recent earlier : List SceneEvent} {intent : Intent}
    (h : Holds sources workers history i since intent past) (hsplit : history = recent ++ e :: earlier)
    (hrefills : e.Refills (.character 0)) :
    ∃ between, recent = since ++ .call intent :: between ∧ past = between ++ e :: earlier := by
  have hne : SceneEvent.call intent ≠ e := by
    rintro rfl
    exact SceneEvent.not_refills_of_asks h.asks hrefills
  have hlists := h.split.symm.trans hsplit
  rcases List.append_eq_append_iff.mp hlists with ⟨between, hrecent, hpast⟩ | ⟨between, hsince, hearlier⟩
  · cases between with
    | nil => exact absurd (List.cons.inj hpast).1 hne
    | cons first between =>
      obtain ⟨rfl, hbetween⟩ := List.cons.inj hpast
      exact ⟨between, hrecent, hbetween⟩
  · cases between with
    | nil => exact absurd (List.cons.inj hearlier).1.symm hne
    | cons first between =>
      obtain ⟨rfl, -⟩ := List.cons.inj hearlier
      exact absurd hrefills (h.kept e (by simp [hsince]))

/-- What an adopted character owes to the history before the update: it comes from a load request, its animation
from an intent that has been held for that load since, and nothing from the intents before the slot was last filled
or emptied, or before any point at which it was not loading. -/
structure Adoption (sources : Nat → AssetSource) (workers : Workers) (history : List SceneEvent) (delta : Single)
    (c : Character) : Prop where
  produced : ∃ recent asset earlier, Produced sources workers history c.resource recent asset earlier
  asked : ∀ animation, c.currentAnimation? = some animation →
    ∃ i since intent past, Holds sources workers history i since intent past ∧
      i.animation = animation ∧ c.playing = i.playing ∧
      (run sources workers history).loads.slot (.character 0) = (run sources workers past).loads.slot (.character 0) ∧
      ∀ recent asset earlier, Produced sources workers history c.resource recent asset earlier →
        ∃ between, recent = since ++ .call intent :: between ∧
          past = between ++ .call (.load (.character 0) asset) :: earlier
  forgets : ∀ others first, history = others ++ first →
    ((∃ e ∈ others, e.Refills (.character 0)) ∨
      (run sources workers first).loads.status (.character 0) ≠ .loading) →
    (run sources workers (.update delta :: (others ++ otherwise first))).character = some c

/-- A newly adopted character starts with an animation only if that has been asked for since the request for it. -/
theorem adoption_run (hc : (run sources workers (.update delta :: history)).character = some c)
    (hnew : (run sources workers history).character.map Character.resource ≠ some c.resource) :
    Adoption sources workers history delta c := by
  let s := (run sources workers history).reading (sources (loadEvents history).length)
  have hf : s.Faithful (.character 0) := (faithful_run history (.character 0)).reading _
  have hadopts : s.Adopts delta c := hf.adopts hc hnew
  have hloading : (run sources workers history).loads.status (.character 0) = .loading := hadopts.loading
  refine ⟨?_, ?_, ?_⟩
  · have hloads : (run sources workers (.update delta :: history)).loads = s.loads.after .pump := loads_update delta
    exact exists_produced (by rw [hloads, hadopts.resource])
  · intro animation hcurrent
    obtain ⟨i, hheld, hanimation, hplaying⟩ := hadopts.exists_held hcurrent
    obtain ⟨since, intent, past, hholds⟩ := exists_holds hheld
    refine ⟨i, since, intent, past, hholds, hanimation, hplaying, ?_, ?_⟩
    · have hcall : ¬ (SceneEvent.call intent).Refills (.character 0) :=
        SceneEvent.not_refills_of_asks hholds.asks
      have hkept : ∀ e ∈ since ++ [.call intent], ¬ e.Refills (.character 0) := by
        simpa [or_imp, forall_and] using ⟨hholds.kept, hcall⟩
      have hsplit : history = (since ++ [.call intent]) ++ past := by rw [hholds.split, List.append_assoc]; rfl
      rw [hsplit] at hloading ⊢
      exact slot_of_loading hkept hloading
    · intro recent asset earlier hproduced
      exact hholds.exists_between hproduced.split rfl
  · intro others first hsplit hpast
    have hrefills : ∃ e ∈ others, e.Refills (.character 0) := by
      rcases hpast with hrefills | hsettled
      · exact hrefills
      · refine Classical.byContradiction fun hnone => hsettled ?_
        have hkept : ∀ e ∈ others, ¬ e.Refills (.character 0) := fun e he hrefills => hnone ⟨e, he, hrefills⟩
        rw [hsplit] at hloading
        rw [Loads.status, ← slot_of_loading hkept hloading]
        exact hloading
    subst hsplit
    let s' := (run sources workers (others ++ otherwise first)).reading
      (sources (loadEvents (others ++ otherwise first)).length)
    have hresembles : (run sources workers (others ++ otherwise first)).Resembles
        (run sources workers (others ++ first)) := resembles_append others first
    have hadopts' : s'.Adopts delta c := by
      refine hadopts.of_resembles ?_ hresembles.shown.symm (held_append hrefills).symm
      rw [show s' = (run sources workers (others ++ otherwise first)).reading
        (sources (loadEvents (others ++ first)).length) by rw [← length_loadEvents_append]]
      exact (hresembles.loads _).symm
    exact hadopts'.character

/-- A pose asked for during a load that has failed is forgotten; the animation asked for during the next one starts,
although a result for the earlier request is still to come. -/
theorem adoption_run_failed :
    let sources : Nat → AssetSource := fun _ _ asset =>
      if asset = 12 then .error "missing" else .ok (Model.write ⟨asset, [], [], [⟨5, .one, [], [], []⟩]⟩)
    let failed : List SceneEvent := [.update .zero, .deliver fun j => j.asset = 12, .call (.pose 0 5),
      .call (.load (.character 0) 12), .call (.load (.character 0) 11)]
    let history : List SceneEvent := [.deliver fun j => j.asset = 10, .call (.play 0 5 0),
      .call (.load (.character 0) 10)] ++ failed
    ∃ c, (run sources .pool (.update .zero :: history)).character = some c ∧
      (run sources .pool history).character.map Character.resource ≠ some c.resource ∧
      Adoption sources .pool history .zero c ∧
      (run sources .pool failed).loads.status (.character 0) = .failed ∧
      (run sources .pool failed).held = some ⟨5, false⟩ ∧
      (run sources .pool (.update .zero :: history)).character.map (fun c => (c.currentAnimation?, c.playing)) =
        some (some 5, true) := by
  intro sources failed history
  have hsome : (run sources .pool (.update .zero :: history)).character.isSome = true := by decide
  have hnone : (run sources .pool history).character = none := by decide
  obtain ⟨c, hc⟩ := Option.isSome_iff_exists.mp hsome
  have hnew : (run sources .pool history).character.map Character.resource ≠ some c.resource := by
    rw [hnone]
    exact nofun
  exact ⟨c, hc, hnew, adoption_run hc hnew, by decide, by decide, by decide⟩

end Scene
end NovelEngine
