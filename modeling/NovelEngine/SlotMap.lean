import NovelEngine.Slot

/-! # Finite maps from slots -/
namespace NovelEngine

structure SlotMap (α : Type) where
  entries : List (SlotKey × α)

namespace SlotMap

variable {α : Type}

def empty : SlotMap α := ⟨[]⟩

def lookup : List (SlotKey × α) → SlotKey → Option α
  | [], _ => none
  | (k, a) :: rest, slot => if k = slot then some a else lookup rest slot

def replace : List (SlotKey × α) → SlotKey → α → List (SlotKey × α)
  | [], slot, b => [(slot, b)]
  | (k, a) :: rest, slot, b => if k = slot then (k, b) :: rest else (k, a) :: replace rest slot b

def get? (m : SlotMap α) (slot : SlotKey) : Option α := lookup m.entries slot

def set (m : SlotMap α) (slot : SlotKey) (a : α) : SlotMap α := ⟨replace m.entries slot a⟩

@[simp] theorem get?_empty (slot : SlotKey) : (empty : SlotMap α).get? slot = none := rfl

theorem get?_set (m : SlotMap α) (slot other : SlotKey) (a : α) :
    (m.set slot a).get? other = if slot = other then some a else m.get? other := by
  obtain ⟨entries⟩ := m
  unfold set get?
  induction entries with
  | nil => rfl
  | cons e rest ih =>
    obtain ⟨k, b⟩ := e
    by_cases hk : k = slot
    · subst hk
      by_cases ho : k = other <;> simp [replace, lookup, ho]
    · by_cases ho : k = other
      · subst ho
        simp [replace, lookup, hk, Ne.symm hk]
      · simp only [replace, hk, lookup, ho, if_false]
        exact ih

@[simp] theorem get?_set_self (m : SlotMap α) (slot : SlotKey) (a : α) :
    (m.set slot a).get? slot = some a := by simp [get?_set]

theorem get?_set_of_ne (m : SlotMap α) {slot other : SlotKey} (a : α) (h : slot ≠ other) :
    (m.set slot a).get? other = m.get? other := by simp [get?_set, h]

/-- No slot has two entries. -/
def Distinct (m : SlotMap α) : Prop := (m.entries.map Prod.fst).Nodup

theorem distinct_empty : (empty : SlotMap α).Distinct := List.nodup_nil

theorem mem_keys_replace {entries : List (SlotKey × α)} {slot other : SlotKey} {a : α} :
    other ∈ (replace entries slot a).map Prod.fst ↔ other = slot ∨ other ∈ entries.map Prod.fst := by
  induction entries with
  | nil => simp [replace]
  | cons e rest ih =>
    by_cases hk : e.1 = slot
    · simp [replace, hk]
    · simp only [replace, hk, if_false, List.map_cons, List.mem_cons, ih]
      exact or_left_comm

theorem Distinct.set {m : SlotMap α} (h : m.Distinct) (slot : SlotKey) (a : α) : (m.set slot a).Distinct := by
  obtain ⟨entries⟩ := m
  unfold Distinct SlotMap.set at *
  induction entries with
  | nil => simp [replace]
  | cons e rest ih =>
    simp only [List.map_cons, List.nodup_cons] at h
    by_cases hk : e.1 = slot
    · simpa [replace, hk] using h
    · simp only [replace, hk, if_false, List.map_cons, List.nodup_cons, mem_keys_replace, false_or]
      exact ⟨h.1, ih h.2⟩

theorem Distinct.mem_entries_iff {m : SlotMap α} (h : m.Distinct) {slot : SlotKey} {a : α} :
    (slot, a) ∈ m.entries ↔ m.get? slot = some a := by
  obtain ⟨entries⟩ := m
  unfold Distinct get? at *
  induction entries with
  | nil => simp [lookup]
  | cons e rest ih =>
    obtain ⟨k, b⟩ := e
    simp only [List.map_cons, List.nodup_cons] at h
    by_cases hk : k = slot
    · subst hk
      have hrest : (k, a) ∉ rest := fun hmem => h.1 (List.mem_map_of_mem hmem)
      simp [lookup, hrest, eq_comm]
    · simp [lookup, hk, Ne.symm hk, ih h.2]

end SlotMap
end NovelEngine
