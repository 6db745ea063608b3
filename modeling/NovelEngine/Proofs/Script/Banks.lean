import NovelEngine.Proofs.Expression.Evaluation

/-!
# Banks as arrays

The shared variables are two arrays. A variable holds what was written to it last, whatever has been written to the
others, be they flags of the same word. An access outside a bank says where it went and changes nothing.
-/
namespace NovelEngine

theorem exists_fin_of_inside {count : Nat} {index : Int} (h : 0 ≤ index ∧ index < count) :
    ∃ i : Fin count, index = i.val := by
  obtain ⟨n, rfl⟩ := Int.eq_ofNat_of_zero_le h.1
  exact ⟨⟨n, Int.ofNat_lt.mp h.2⟩, rfl⟩

theorem inside_of_fin {count : Nat} (i : Fin count) : (0 : Int) ≤ i.val ∧ (i.val : Int) < count :=
  ⟨Int.natCast_nonneg _, Int.ofNat_lt.mpr i.isLt⟩

theorem Bank.place_of_outside (bank : Bank) {count : Nat} {index : Int} (h : ¬ (0 ≤ index ∧ index < count)) :
    bank.place count index = .error (.variableOutOfRange bank index) := by
  cases index with
  | ofNat n =>
    apply place_of_not_lt
    intro hn
    exact h ⟨Int.natCast_nonneg n, Int.ofNat_lt.mpr hn⟩
  | negSucc n => rfl

inductive GlobalWrite
  | work (index : Int) (value : Int32)
  | flag (index : Int) (value : Bool)
  deriving DecidableEq

namespace GlobalWrite

def bank : GlobalWrite → Bank
  | work _ _ => .work
  | flag _ _ => .flags

def index : GlobalWrite → Int
  | work index _ | flag index _ => index

def Inside : GlobalWrite → Prop
  | work index _ => 0 ≤ index ∧ index < workCount
  | flag index _ => 0 ≤ index ∧ index < flagCount

def work? (index : Int) : GlobalWrite → Option Int32
  | work i value => if i = index then some value else none
  | flag _ _ => none

def flag? (index : Int) : GlobalWrite → Option Bool
  | work _ _ => none
  | flag i value => if i = index then some value else none

variable {w : GlobalWrite}

theorem Inside.eq (h : w.Inside) :
    (∃ (i : Fin workCount) (value : Int32), w = work i value) ∨ ∃ (i : Fin flagCount) (value : Bool), w = flag i value := by
  cases w with
  | work index value =>
    obtain ⟨i, rfl⟩ := exists_fin_of_inside h
    exact .inl ⟨i, value, rfl⟩
  | flag index value =>
    obtain ⟨i, rfl⟩ := exists_fin_of_inside h
    exact .inr ⟨i, value, rfl⟩

theorem work?_of_outside (h : ¬ w.Inside) (i : Fin workCount) : w.work? i = none := by
  cases w with
  | work index value =>
    apply if_neg
    rintro rfl
    exact h (inside_of_fin i)
  | flag index value => rfl

theorem flag?_of_outside (h : ¬ w.Inside) (i : Fin flagCount) : w.flag? i = none := by
  cases w with
  | work index value => rfl
  | flag index value =>
    apply if_neg
    rintro rfl
    exact h (inside_of_fin i)

end GlobalWrite

namespace Globals

variable {g : Globals} {w : GlobalWrite} {writes : List GlobalWrite}

def write (g : Globals) : GlobalWrite → Except Defect Globals
  | .work index value => g.setWork index value
  | .flag index value => g.setFlag index value

/-- The variables after a write, which are the same if it fails. -/
def after (g : Globals) (w : GlobalWrite) : Globals := (g.write w).toOption.getD g

/-- The variables after some writes, the last of which comes first. -/
def ofWrites : List GlobalWrite → Globals
  | [] => empty
  | w :: writes => (ofWrites writes).after w

def numberAt (g : Globals) (i : Fin workCount) : Int32 := getElem g.numbers i.val i.isLt

@[simp] theorem toBitVec_flagMask (i : Fin flagCount) : (flagMask i).toBitVec = BitVec.twoPow 64 (i % 64) := by
  have hbit : (i.val % 64) % 64 = i.val % 64 := Nat.mod_mod _ _
  simp [flagMask, BitVec.twoPow_eq]

theorem and_flagMask_ne_zero_iff (word : UInt64) (i : Fin flagCount) :
    word &&& flagMask i ≠ 0 ↔ word.toBitVec.getLsbD (i % 64) = true := by
  have hpow : BitVec.twoPow 64 (i % 64) ≠ 0#64 := by
    intro hzero
    have hbit := congrArg (fun v => v.getLsbD (i % 64)) hzero
    simp [Nat.mod_lt] at hbit
  rw [Ne, ← UInt64.toBitVec_inj, UInt64.toBitVec_and, toBitVec_flagMask, BitVec.and_twoPow]
  split <;> simp_all

def wordAt (g : Globals) (place : Fin flagWordCount) : UInt64 := getElem g.flagWords place.val place.isLt

theorem flagAt_eq (g : Globals) (i : Fin flagCount) :
    g.flagAt i = (g.wordAt (flagWord i)).toBitVec.getLsbD (i % 64) := by
  simp [flagAt, wordAt, and_flagMask_ne_zero_iff]

def withFlag (word : UInt64) (i : Fin flagCount) (value : Bool) : UInt64 :=
  if value then word ||| flagMask i else word &&& ~~~flagMask i

theorem getLsbD_withFlag (word : UInt64) (i j : Fin flagCount) (value : Bool) :
    (withFlag word i value).toBitVec.getLsbD (j % 64) =
      if j.val % 64 = i.val % 64 then value else word.toBitVec.getLsbD (j % 64) := by
  have hlt : j.val % 64 < 64 := Nat.mod_lt _ (by decide)
  by_cases h : j.val % 64 = i.val % 64
  · rw [h] at hlt ⊢
    cases value <;> simp [withFlag, hlt]
  · cases value <;> simp [withFlag, h, hlt]

def putWord (g : Globals) (place : Fin flagWordCount) (word : UInt64) : Globals :=
  { g with flagWords := g.flagWords.set place.val word place.isLt }

theorem wordAt_putWord (g : Globals) (place other : Fin flagWordCount) (word : UInt64) :
    (g.putWord place word).wordAt other = if other = place then word else g.wordAt other := by
  simp only [putWord, wordAt, Vector.getElem_set, Fin.ext_iff, eq_comm]

def putFlag (g : Globals) (i : Fin flagCount) (value : Bool) : Globals :=
  g.putWord (flagWord i) (withFlag (g.wordAt (flagWord i)) i value)

theorem setFlag_eq (g : Globals) (index : Int) (value : Bool) :
    g.setFlag index value = (Bank.flags.place flagCount index).map fun i => g.putFlag i value := rfl

/-- Two flags differ in their words or in their bits. -/
theorem flagAt_putFlag (g : Globals) (i j : Fin flagCount) (value : Bool) :
    (g.putFlag i value).flagAt j = if j = i then value else g.flagAt j := by
  rw [flagAt_eq, flagAt_eq, putFlag, wordAt_putWord]
  by_cases hword : flagWord j = flagWord i
  · have hbit : j.val % 64 = i.val % 64 ↔ j = i := by
      have hdiv : j.val / 64 = i.val / 64 := congrArg Fin.val hword
      rw [Fin.ext_iff]
      omega
    rw [if_pos hword, getLsbD_withFlag, hword]
    simp only [hbit]
  · have hne : j ≠ i := fun h => hword (congrArg flagWord h)
    rw [if_neg hword, if_neg hne]

theorem flagAt_empty (i : Fin flagCount) : empty.flagAt i = false := by
  simp [flagAt_eq, wordAt, empty]

theorem after_of_outside (h : ¬ w.Inside) :
    g.write w = .error (.variableOutOfRange w.bank w.index) ∧ g.after w = g := by
  have herror : g.write w = .error (.variableOutOfRange w.bank w.index) := by
    cases w with
    | work index value =>
      simp only [write, setWork, Bank.place_of_outside .work h]
      rfl
    | flag index value =>
      simp only [write, setFlag_eq, Bank.place_of_outside .flags h]
      rfl
  refine ⟨herror, ?_⟩
  rw [after, herror]
  rfl

theorem after_work (g : Globals) (i : Fin workCount) (value : Int32) : g.after (.work i value) = g.putWork i value := by
  simp only [after, write, setWork, Bank.place_of_lt i.isLt]
  rfl

theorem after_flag (g : Globals) (i : Fin flagCount) (value : Bool) : g.after (.flag i value) = g.putFlag i value := by
  simp only [after, write, setFlag_eq, Bank.place_of_lt i.isLt]
  rfl

theorem numberAt_after (g : Globals) (w : GlobalWrite) (i : Fin workCount) :
    (g.after w).numberAt i = (w.work? i).getD (g.numberAt i) := by
  by_cases h : w.Inside
  · obtain ⟨j, value, rfl⟩ | ⟨j, value, rfl⟩ := h.eq
    · have hij : (j.val : Int) = i.val ↔ j.val = i.val := Int.ofNat_inj
      rw [after_work]
      by_cases heq : j.val = i.val <;> simp [GlobalWrite.work?, numberAt, putWork, heq, hij]
    · rw [after_flag]
      rfl
  · rw [(after_of_outside h).2, GlobalWrite.work?_of_outside h]
    rfl

theorem flagAt_after (g : Globals) (w : GlobalWrite) (i : Fin flagCount) :
    (g.after w).flagAt i = (w.flag? i).getD (g.flagAt i) := by
  by_cases h : w.Inside
  · obtain ⟨j, value, rfl⟩ | ⟨j, value, rfl⟩ := h.eq
    · rw [after_work]
      rfl
    · have hij : (j.val : Int) = i.val ↔ i = j := by
        rw [Int.ofNat_inj, Fin.ext_iff, eq_comm]
      rw [after_flag, flagAt_putFlag]
      by_cases heq : i = j <;> simp [GlobalWrite.flag?, heq, hij]
  · rw [(after_of_outside h).2, GlobalWrite.flag?_of_outside h]
    rfl

/-- The number that was written last; 0 if none was. -/
def lastWork (index : Int) (writes : List GlobalWrite) : Int32 := (writes.findSome? (GlobalWrite.work? index)).getD 0

/-- What the flag was set to last; it is clear if it never was. -/
def lastFlag (index : Int) (writes : List GlobalWrite) : Bool := (writes.findSome? (GlobalWrite.flag? index)).getD false

theorem numberAt_ofWrites (writes : List GlobalWrite) (i : Fin workCount) :
    (ofWrites writes).numberAt i = lastWork i writes := by
  induction writes with
  | nil => simp [ofWrites, numberAt, empty, lastWork]
  | cons w writes ih =>
    rw [ofWrites, numberAt_after, ih, lastWork, lastWork, List.findSome?_cons]
    cases w.work? i <;> rfl

theorem flagAt_ofWrites (writes : List GlobalWrite) (i : Fin flagCount) :
    (ofWrites writes).flagAt i = lastFlag i writes := by
  induction writes with
  | nil => exact flagAt_empty i
  | cons w writes ih =>
    rw [ofWrites, flagAt_after, ih, lastFlag, lastFlag, List.findSome?_cons]
    cases w.flag? i <;> rfl

theorem work_fin (g : Globals) (i : Fin workCount) : g.work i = .ok (g.numberAt i) := by
  rw [work, Bank.place_of_lt i.isLt]
  rfl

theorem flag_fin (g : Globals) (i : Fin flagCount) : g.flag i = .ok (g.flagAt i) := by
  rw [flag, Bank.place_of_lt i.isLt]
  rfl

theorem work_of_outside {index : Int} (h : ¬ (0 ≤ index ∧ index < workCount)) (g : Globals) :
    g.work index = .error (.variableOutOfRange .work index) := by
  rw [work, Bank.place_of_outside .work h]
  rfl

theorem flag_of_outside {index : Int} (h : ¬ (0 ≤ index ∧ index < flagCount)) (g : Globals) :
    g.flag index = .error (.variableOutOfRange .flags index) := by
  rw [flag, Bank.place_of_outside .flags h]
  rfl

theorem write_of_inside (h : w.Inside) (g : Globals) : g.write w = .ok (g.after w) := by
  obtain ⟨i, value, rfl⟩ | ⟨i, value, rfl⟩ := h.eq
  · rw [after_work, write, setWork, Bank.place_of_lt i.isLt]
    rfl
  · rw [after_flag, write, setFlag_eq, Bank.place_of_lt i.isLt]
    rfl

theorem work_after_of_none {index : Int} (h : w.work? index = none) (g : Globals) :
    (g.after w).work index = g.work index := by
  by_cases hinside : 0 ≤ index ∧ index < workCount
  · obtain ⟨i, rfl⟩ := exists_fin_of_inside hinside
    rw [work_fin, work_fin, numberAt_after, h]
    rfl
  · rw [work_of_outside hinside, work_of_outside hinside]

theorem flag_after_of_none {index : Int} (h : w.flag? index = none) (g : Globals) :
    (g.after w).flag index = g.flag index := by
  by_cases hinside : 0 ≤ index ∧ index < flagCount
  · obtain ⟨i, rfl⟩ := exists_fin_of_inside hinside
    rw [flag_fin, flag_fin, flagAt_after, h]
    rfl
  · rw [flag_of_outside hinside, flag_of_outside hinside]

/-- The variables are two arrays, in which these writes have left their values. The last write comes first. -/
structure Arrays (g : Globals) (writes : List GlobalWrite) : Prop where
  work_eq : ∀ index : Int, 0 ≤ index → index < workCount → g.work index = .ok (lastWork index writes)
  flag_eq : ∀ index : Int, 0 ≤ index → index < flagCount → g.flag index = .ok (lastFlag index writes)
  /-- A write to a flag or to another number leaves a number as it is. -/
  work_apart : ∀ w index, w.work? index = none → (g.after w).work index = g.work index
  /-- A write to a number or to another flag leaves a flag as it is. -/
  flag_apart : ∀ w index, w.flag? index = none → (g.after w).flag index = g.flag index
  work_outside : ∀ index : Int, ¬ (0 ≤ index ∧ index < workCount) →
    g.work index = .error (.variableOutOfRange .work index)
  flag_outside : ∀ index : Int, ¬ (0 ≤ index ∧ index < flagCount) →
    g.flag index = .error (.variableOutOfRange .flags index)
  write_inside : ∀ w : GlobalWrite, w.Inside → g.write w = .ok (g.after w)
  write_outside : ∀ w : GlobalWrite, ¬ w.Inside →
    g.write w = .error (.variableOutOfRange w.bank w.index) ∧ g.after w = g

/-- Whatever is written, and wherever, the variables are two arrays of what was written last. -/
theorem arrays_ofWrites (writes : List GlobalWrite) : (ofWrites writes).Arrays writes where
  work_eq := by
    intro index hpos hlt
    obtain ⟨i, rfl⟩ := exists_fin_of_inside ⟨hpos, hlt⟩
    rw [work_fin, numberAt_ofWrites]
  flag_eq := by
    intro index hpos hlt
    obtain ⟨i, rfl⟩ := exists_fin_of_inside ⟨hpos, hlt⟩
    rw [flag_fin, flagAt_ofWrites]
  work_apart w index h := work_after_of_none h _
  flag_apart w index h := flag_after_of_none h _
  work_outside index h := work_of_outside h _
  flag_outside index h := flag_of_outside h _
  write_inside w h := write_of_inside h _
  write_outside w h := after_of_outside h

end Globals
end NovelEngine
