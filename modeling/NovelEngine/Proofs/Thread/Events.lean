import NovelEngine.Proofs.Thread.Standing
import NovelEngine.Script.Container

/-!
# The events of an arena

A log of the threads that have begun and ended tells for every place whether it is live and how often it has been freed,
and so its generation. It tells what a handle stands for, long after its thread has ended.
-/
namespace NovelEngine

inductive ThreadEvent
  | began (id : ThreadId) (script : Script)
  | ended (id : ThreadId)

namespace ThreadEvent

def id : ThreadEvent → ThreadId
  | began id _ | ended id => id

def place (e : ThreadEvent) : Nat := e.id.index.toNat

def standing : ThreadEvent → Standing
  | began id _ => ⟨id.generation, true⟩
  | ended id => ⟨id.generation + 1, false⟩

/-- What the place has to be before. -/
def Fits : ThreadEvent → Option Standing → Prop
  | began id _, s => Standing.offer? s = some id.generation
  | ended id, s => s = some ⟨id.generation, true⟩

def frees (place : Nat) : ThreadEvent → Bool
  | began _ _ => false
  | ended id => id.index.toNat == place

end ThreadEvent

/-- How often a place is freed. The latest event of a log comes first. -/
def removals (place : Nat) (log : List ThreadEvent) : Nat := log.countP (ThreadEvent.frees place)

/-- What a log tells of a place. -/
def told (place : Nat) : List ThreadEvent → Option Standing
  | [] => none
  | e :: log => if e.place = place then some e.standing else told place log

/-- Each event of the log can happen where the ones before it lead to. -/
def Lawful : List ThreadEvent → Prop
  | [] => True
  | e :: log => e.Fits (told e.place log) ∧ Lawful log

/-- The generation of a place; a place that is not there yet has 0. -/
def Standing.current (s : Option Standing) : UInt32 := (s.map Standing.generation).getD 0

variable {log later earlier es : List ThreadEvent} {e : ThreadEvent} {id : ThreadId} {place : Nat} {script : Script}

theorem Standing.offer?_eq_some {s : Option Standing} {generation : UInt32} (h : offer? s = some generation) :
    current s = generation := by
  obtain _ | ⟨g, _ | _⟩ := s
  · exact Option.some_inj.mp h
  · exact Option.some_inj.mp h
  · cases h

theorem removals_append : removals place (later ++ log) = removals place later + removals place log :=
  List.countP_append

theorem told_append_of_ne (h : ∀ e ∈ es, e.place ≠ place) : told place (es ++ log) = told place log := by
  induction es with
  | nil => rfl
  | cons e es ih =>
    obtain ⟨he, hes⟩ := List.forall_mem_cons.mp h
    exact (if_neg he).trans (ih hes)

theorem told_append_of_mem (hpair : es.Pairwise fun e e' => e.place ≠ e'.place) (he : e ∈ es) :
    told e.place (es ++ log) = some e.standing := by
  induction es with
  | nil => cases he
  | cons first es ih =>
    obtain ⟨hfirst, hpair⟩ := List.pairwise_cons.mp hpair
    rcases List.mem_cons.mp he with rfl | he
    · exact if_pos rfl
    · exact (if_neg (hfirst e he)).trans (ih hpair he)

/-- Events of different places may happen in any order. -/
theorem Lawful.append (hlog : Lawful log) (hpair : es.Pairwise fun e e' => e.place ≠ e'.place)
    (hfits : ∀ e ∈ es, e.Fits (told e.place log)) : Lawful (es ++ log) := by
  induction es with
  | nil => exact hlog
  | cons e es ih =>
    obtain ⟨hfirst, hpair⟩ := List.pairwise_cons.mp hpair
    obtain ⟨he, hes⟩ := List.forall_mem_cons.mp hfits
    refine ⟨?_, ih hpair hes⟩
    show e.Fits (told e.place (es ++ log))
    rw [told_append_of_ne fun e' he' => (hfirst e' he').symm]
    exact he

theorem Lawful.of_append (h : Lawful (later ++ log)) : Lawful log := by
  induction later with
  | nil => exact h
  | cons e later ih => exact ih h.2

theorem Lawful.current_told (h : Lawful log) (place : Nat) :
    Standing.current (told place log) = UInt32.ofNat (removals place log) := by
  induction log with
  | nil => rfl
  | cons e log ih =>
    obtain ⟨hfits, hlog⟩ := h
    have hrest := ih hlog
    rw [told, removals, List.countP_cons]
    by_cases hplace : e.place = place
    · rw [if_pos hplace]
      rw [hplace] at hfits
      cases e with
      | began id script =>
        rw [Standing.offer?_eq_some hfits] at hrest
        exact hrest
      | ended id =>
        have hfrees : (ThreadEvent.ended id).frees place = true := beq_iff_eq.mpr hplace
        rw [show told place log = some ⟨id.generation, true⟩ from hfits] at hrest
        rw [if_pos hfrees, UInt32.ofNat_add]
        exact congrArg (· + 1) hrest
    · have hfrees : e.frees place = false := by
        cases e with
        | began id script => rfl
        | ended id => exact beq_false_of_ne hplace
      rw [if_neg hplace, hrest, if_neg (by simp [hfrees])]
      rfl

theorem Lawful.generation_eq (h : Lawful (later ++ .began id script :: earlier)) :
    id.generation = UInt32.ofNat (removals id.index.toNat earlier) := by
  obtain ⟨hfits, hearlier⟩ := h.of_append
  rw [← hearlier.current_told]
  exact (Standing.offer?_eq_some hfits).symm

theorem isSome_told (he : e ∈ log) : (told e.place log).isSome = true := by
  induction log with
  | nil => cases he
  | cons first log ih =>
    rw [told]
    split
    · rfl
    · rename_i hplace
      rcases List.mem_cons.mp he with rfl | he
      · exact absurd rfl hplace
      · exact ih he

theorem told_eq_live_iff : told id.index.toNat log = some ⟨id.generation, true⟩ ↔
    ∃ later script earlier, log = later ++ .began id script :: earlier ∧ ∀ e ∈ later, e.place ≠ id.index.toNat := by
  constructor
  · intro h
    induction log with
    | nil => cases h
    | cons e log ih =>
      rw [told] at h
      split at h
      · rename_i hplace
        cases e with
        | began other script =>
          have hindex : other.index = id.index := UInt32.toNat_inj.mp hplace
          have hgeneration : other.generation = id.generation := congrArg Standing.generation (Option.some_inj.mp h)
          obtain rfl : other = id := by
            cases other
            cases id
            simp_all
          exact ⟨[], script, log, rfl, nofun⟩
        | ended other => cases congrArg Standing.live (Option.some_inj.mp h)
      · rename_i hplace
        obtain ⟨later, script, earlier, rfl, hlater⟩ := ih h
        exact ⟨e :: later, script, earlier, rfl, List.forall_mem_cons.mpr ⟨hplace, hlater⟩⟩
  · rintro ⟨later, script, earlier, rfl, hlater⟩
    rw [told_append_of_ne hlater]
    exact if_pos rfl

/-- The log tells of every place of the arena what it is. -/
structure Arena.Logged {α : Type} (a : Arena α) (log : List ThreadEvent) : Prop where
  lawful : Lawful log
  standing?_eq : ∀ place, a.standing? place = told place log

namespace Arena

variable {α : Type} {a b : Arena α} {other : ThreadId}

theorem Logged.append (h : a.Logged log) (hpair : es.Pairwise fun e e' => e.place ≠ e'.place)
    (hes : ∀ e ∈ es, e.Fits (a.standing? e.place) ∧ b.standing? e.place = some e.standing)
    (hother : ∀ place, (∀ e ∈ es, e.place ≠ place) → b.standing? place = a.standing? place) :
    b.Logged (es ++ log) := by
  constructor
  · refine h.lawful.append hpair fun e he => ?_
    rw [← h.standing?_eq]
    exact (hes e he).1
  · intro place
    by_cases hmem : ∃ e ∈ es, e.place = place
    · obtain ⟨e, he, rfl⟩ := hmem
      rw [told_append_of_mem hpair he]
      exact (hes e he).2
    · have hne : ∀ e ∈ es, e.place ≠ place := fun e he heq => hmem ⟨e, he, heq⟩
      rw [told_append_of_ne hne, hother place hne]
      exact h.standing?_eq place

theorem Logged.lets (h : a.Logged log) (hlets : a.Lets id b) (script : Script) :
    b.Logged (.began id script :: log) := by
  refine ⟨⟨?_, h.lawful⟩, fun place => ?_⟩
  · show Standing.offer? (told id.index.toNat log) = some id.generation
    rw [← h.standing?_eq]
    exact hlets.offer
  · rw [hlets.standing?_eq, h.standing?_eq, told]
    simp only [ThreadEvent.place, ThreadEvent.id, eq_comm]
    rfl

theorem Logged.live_iff (h : a.Logged log) : a.contains id = true ↔
    ∃ later script earlier, log = later ++ .began id script :: earlier ∧ ∀ e ∈ later, e.place ≠ id.index.toNat := by
  rw [contains_iff_standing?, h.standing?_eq, told_eq_live_iff]

theorem Logged.generation_eq (h : a.Logged log) (hid : a.contains id = true) :
    id.generation = UInt32.ofNat (removals id.index.toNat log) := by
  rw [contains_iff_standing?, h.standing?_eq] at hid
  rw [← h.lawful.current_told, hid]
  rfl

/-- The handle of a thread that has begun stands for the present tenant of its place, if that has been freed a
multiple of 0x8000 times since. -/
theorem Logged.resolve_iff (h : a.Logged log) (ha : a.WellFormed) (hlog : log = later ++ .began id script :: earlier) :
    a.resolve id.toScriptHandle = some other ↔
      a.contains other = true ∧ other.index = id.index ∧ 0x8000 ∣ removals id.index.toNat later := by
  have hfits : id.index.toNat ≤ ThreadId.maxScriptIndex := by
    have hmem : ThreadEvent.began id script ∈ log := by simp [hlog]
    have htold := isSome_told hmem
    rw [← h.standing?_eq, standing?, Option.isSome_map, Option.isSome_iff_exists] at htold
    obtain ⟨cell, hcell⟩ := htold
    exact ha.le_of_cellAt? hcell
  have hgeneration : id.generation = UInt32.ofNat (removals id.index.toNat earlier) :=
    Lawful.generation_eq (hlog ▸ h.lawful)
  have hremovals : removals id.index.toNat log =
      removals id.index.toNat later + removals id.index.toNat earlier := by
    rw [hlog, removals_append]
    rfl
  rw [resolve_toScriptHandle_iff hfits]
  refine and_congr_right fun hlive => and_congr_right fun hindex => ?_
  have hother := h.generation_eq hlive
  rw [hindex, hremovals] at hother
  rw [hother, hgeneration]
  simp only [UInt32.toNat_ofNat']
  omega

end Arena
end NovelEngine
