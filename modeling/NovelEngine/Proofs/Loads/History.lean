import NovelEngine.Scene.Loads

/-!
# Histories of loads

A history lists what has happened to the loads, the last event first: the calls of their owner, and
the deliveries, in which some of the running jobs hand in their results. The asset files may change
meanwhile: `sources n` is what they hold at the event that has `n` events before it.
-/
namespace NovelEngine

inductive LoadEvent
  | request (slot : SlotKey) (asset : UInt32)
  | release (slot : SlotKey)
  | pump
  | deliver (ready : Job → Bool)

/-- A request with the number of the events before it and the job that it starts. -/
structure LoadRequest where
  moment : Nat
  job : Job

/-- Whether a result is that of the request that the slot is loading for. -/
def LoadSlot.awaits (s : LoadSlot) (c : Completion) : Bool :=
  s.content.status = .loading && s.generation = c.job.generation

def Content.settle (asset : UInt32) : Except LoadError Resource → Content
  | .ok resource => .loaded asset resource
  | .error error => .failed asset error

def LoadSlot.settle (s : LoadSlot) (c : Completion) : LoadSlot :=
  ⟨s.generation, .settle (s.content.asset?.getD 0) c.result⟩

theorem LoadSlot.awaits_eq_true_iff {s : LoadSlot} {c : Completion} :
    s.awaits c = true ↔ s.content.status = .loading ∧ s.generation = c.job.generation := by
  simp [awaits]

theorem LoadSlot.status_settle_ne_loading (s : LoadSlot) (c : Completion) :
    (s.settle c).content.status ≠ .loading := by
  rw [settle]
  cases c.result <;> simp [Content.settle, Content.status]

namespace Loads

def after (l : Loads) : LoadEvent → Loads
  | .request slot asset => (l.request slot asset).value.2
  | .release slot => (l.release slot).value
  | .pump => l.pump.value.2
  | .deliver ready => l.deliver ready

def jobFor (l : Loads) (slot : SlotKey) (asset : UInt32) : Job :=
  ⟨l.issued, slot, (l.slot slot).nextGeneration, asset⟩

/-- The jobs whose results have not been applied, because they still run or wait for the next pump. -/
def outstanding (l : Loads) : List Job := l.running ++ l.arrived.map Completion.job

section

variable (sources : Nat → AssetSource) (workers : Workers)

def run : List LoadEvent → Loads
  | [] => create (sources 0) workers
  | e :: earlier => { run earlier with source := sources earlier.length }.after e

/-- The latest request of a slot, unless the slot has been released since. -/
def latest? (slot : SlotKey) : List LoadEvent → Option LoadRequest
  | [] => none
  | .request other asset :: earlier =>
    if other = slot then some ⟨earlier.length, (run sources workers earlier).jobFor slot asset⟩
    else latest? slot earlier
  | .release other :: earlier => if other = slot then none else latest? slot earlier
  | .pump :: earlier | .deliver _ :: earlier => latest? slot earlier

/-- No slot's generation falls back to its start while a result of the slot is outstanding. -/
def Unwrapped : List LoadEvent → Prop
  | [] => True
  | e :: earlier =>
    Unwrapped earlier ∧ ∀ slot,
      ((run sources workers (e :: earlier)).slot slot).generation <
          ((run sources workers earlier).slot slot).generation →
        ∀ j ∈ (run sources workers earlier).outstanding, j.slot ≠ slot

end

def start (l : Loads) (slot : SlotKey) (asset : UInt32) : Loads :=
  { l with
    slots := l.slots.set slot ⟨(l.slot slot).nextGeneration, .loading asset⟩
    issued := l.issued + 1
    running := l.running ++ [l.jobFor slot asset] }

variable {l : Loads} {slot other : SlotKey} {asset : UInt32} {j : Job}

theorem after_request : l.after (.request slot asset) =
    if slot.fitsHandle then
      if l.workers = .inline then (l.start slot asset).deliver fun _ => true else l.start slot asset
    else l := by
  simp only [after, request]
  by_cases hf : slot.fitsHandle = true
  · simp only [hf, if_true]
    cases (l.slot slot).content <;> rfl
  · simp only [hf]
    rfl

theorem after_release : l.after (.release slot) =
    if (l.slot slot).content = .empty then l
    else { l with slots := l.slots.set slot ⟨(l.slot slot).nextGeneration, .empty⟩ } := by
  simp only [after, release]
  split <;> rfl

theorem slot_set (slots : SlotMap LoadSlot) (s : LoadSlot) :
    { l with slots := slots.set slot s }.slot other =
      if slot = other then s else { l with slots }.slot other := by
  by_cases h : slot = other <;> simp [Loads.slot, SlotMap.get?_set, h]

@[simp] theorem slot_deliver (ready : Job → Bool) : (l.deliver ready).slot other = l.slot other := rfl

theorem mem_outstanding_deliver (ready : Job → Bool) :
    j ∈ (l.deliver ready).outstanding ↔ j ∈ l.outstanding := by
  simp only [outstanding, deliver, List.mem_append, List.mem_filter, List.map_append, List.map_reverse,
    List.mem_reverse, List.map_map, List.mem_map, Function.comp_apply, Job.complete]
  by_cases h : ready j <;> simp [h]

theorem slot_start : (l.start slot asset).slot other =
    if slot = other then ⟨(l.slot slot).nextGeneration, .loading asset⟩ else l.slot other :=
  slot_set l.slots _

theorem mem_outstanding_start :
    j ∈ (l.start slot asset).outstanding ↔ j ∈ l.outstanding ∨ j = l.jobFor slot asset := by
  simp only [outstanding, start, List.mem_append, List.mem_singleton]
  exact or_right_comm

theorem mem_outstanding_request :
    j ∈ (l.after (.request slot asset)).outstanding ↔
      j ∈ l.outstanding ∨ slot.fitsHandle ∧ j = l.jobFor slot asset := by
  rw [after_request]
  split
  · split
    · simp [mem_outstanding_deliver, mem_outstanding_start, *]
    · simp [mem_outstanding_start, *]
  · simp [*]

theorem slot_request : (l.after (.request slot asset)).slot other =
    if slot.fitsHandle ∧ slot = other then ⟨(l.slot slot).nextGeneration, .loading asset⟩
    else l.slot other := by
  rw [after_request]
  split
  · split <;> simp [slot_start, *]
  · simp [*]

theorem slot_release : (l.after (.release slot)).slot other =
    if (l.slot slot).content ≠ .empty ∧ slot = other then ⟨(l.slot slot).nextGeneration, .empty⟩
    else l.slot other := by
  rw [after_release]
  split
  · simp [*]
  · simp [slot_set, *]

theorem content_release : ((l.after (.release slot)).slot slot).content = .empty := by
  rw [slot_release]
  by_cases h : (l.slot slot).content = .empty <;> simp [h]

theorem outstanding_release : (l.after (.release slot)).outstanding = l.outstanding := by
  rw [after_release]
  split <;> rfl

theorem apply_eq (slots : SlotMap LoadSlot) (c : Completion) :
    (apply slots c).value =
      if ((slots.get? c.job.slot).getD .unused).awaits c then
        (true, slots.set c.job.slot (((slots.get? c.job.slot).getD .unused).settle c))
      else (false, slots) := by
  simp only [apply]
  generalize (slots.get? c.job.slot).getD .unused = s
  obtain ⟨generation, content⟩ := s
  by_cases hg : generation = c.job.generation
  · cases content <;> cases hr : c.result <;>
      simp [LoadSlot.awaits, LoadSlot.settle, Content.settle, Content.status, Content.asset?, hg, hr]
  · cases content <;> simp [LoadSlot.awaits, Content.status, hg]

theorem slot_apply (slots : SlotMap LoadSlot) (c : Completion) :
    { l with slots := (apply slots c).value.2 }.slot slot =
      if c.job.slot = slot ∧ ({ l with slots }.slot slot).awaits c then
        ({ l with slots }.slot slot).settle c
      else { l with slots }.slot slot := by
  rw [apply_eq]
  by_cases hs : c.job.slot = slot
  · subst hs
    by_cases ha : (({ l with slots } : Loads).slot c.job.slot).awaits c = true
    · have ha' := ha
      simp only [Loads.slot] at ha'
      simp only [ha', if_true, slot_set, ha, and_self]
      rfl
    · have ha' := ha
      simp only [Loads.slot] at ha'
      simp only [ha', ha]
      rfl
  · split
    · simp only [slot_set, hs, false_and, if_false]
    · simp only [hs, false_and, if_false]

theorem slot_applyAll {P : LoadSlot → Prop} (results : List Completion) (slots : SlotMap LoadSlot)
    (hP : P ({ l with slots }.slot slot))
    (hsettle : ∀ c ∈ results, c.job.slot = slot → ∀ s, s.awaits c → P s → P (s.settle c)) :
    P ({ l with slots := (applyAll results slots).value.2 }.slot slot) := by
  induction results generalizing slots with
  | nil => exact hP
  | cons c cs ih =>
    change P ({ l with slots := (applyAll cs (apply slots c).value.2).value.2 }.slot slot)
    apply ih
    · rw [slot_apply]
      split
      · rename_i h
        exact hsettle c List.mem_cons_self h.1 _ h.2 hP
      · exact hP
    · intro d hd
      exact hsettle d (List.mem_cons_of_mem c hd)

theorem source_after (e : LoadEvent) : (l.after e).source = l.source := by
  cases e with
  | request slot asset =>
    rw [after_request]
    split
    · split <;> rfl
    · rfl
  | release slot =>
    rw [after_release]
    split <;> rfl
  | pump => rfl
  | deliver ready => rfl

/-- A pump leaves a slot as it is or settles it by a result that the slot awaits. -/
theorem slot_pump (l : Loads) (slot : SlotKey) : (l.after .pump).slot slot = l.slot slot ∨
    ∃ c ∈ l.arrived, c.job.slot = slot ∧ (l.slot slot).awaits c ∧
      (l.after .pump).slot slot = (l.slot slot).settle c := by
  let Pumped (s : LoadSlot) : Prop := s = l.slot slot ∨ ∃ c ∈ l.arrived, c.job.slot = slot ∧
    (l.slot slot).awaits c ∧ s = (l.slot slot).settle c
  have hsettle : ∀ c ∈ l.arrived.reverse, c.job.slot = slot → ∀ s, s.awaits c → Pumped s →
      Pumped (s.settle c) := by
    intro c hc hslot s hawaits hs
    rcases hs with rfl | ⟨d, -, -, -, rfl⟩
    · exact .inr ⟨c, List.mem_reverse.mp hc, hslot, hawaits, rfl⟩
    · -- a slot that has settled awaits nothing
      exact absurd (LoadSlot.awaits_eq_true_iff.mp hawaits).1 (LoadSlot.status_settle_ne_loading _ d)
  exact slot_applyAll (P := Pumped) l.arrived.reverse l.slots (.inl rfl) hsettle

theorem slot_pump_of_settled (h : l.status slot ≠ .loading) : (l.after .pump).slot slot = l.slot slot := by
  rcases l.slot_pump slot with hslot | ⟨c, -, -, hawaits, -⟩
  · exact hslot
  · exact absurd (LoadSlot.awaits_eq_true_iff.mp hawaits).1 h

theorem generation_pump : ((l.after .pump).slot slot).generation = (l.slot slot).generation := by
  rcases l.slot_pump slot with heq | ⟨c, -, -, -, heq⟩
  · rw [heq]
  · rw [heq, LoadSlot.settle]

end Loads
end NovelEngine
