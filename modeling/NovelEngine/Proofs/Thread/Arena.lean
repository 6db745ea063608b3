import NovelEngine.Thread.Arena

/-!
# Arenas as maps

An arena maps live identifiers to their tenants. Every operation changes the tenant of one identifier, and
the free list names exactly the vacant cells.
-/
namespace NovelEngine

variable {α : Type}

theorem Tenancy.isLive_eq_false_iff {t : Tenancy α} : t.isLive = false ↔ t = .vacant := by
  cases t <;> simp [Tenancy.isLive]

theorem ThreadId.generation_ne {id other : ThreadId} (hne : other ≠ id) (hindex : other.index = id.index) :
    id.generation ≠ other.generation := by
  intro heq
  apply hne
  cases other
  cases id
  simp_all

namespace Arena

variable {a a' : Arena α} {id other : ThreadId} {c c₀ : Cell α} {generation : UInt32} {t t' : Tenancy α}
  {value : α} {i j : Nat}

/-- What a live identifier stands for. -/
def tenant? (a : Arena α) (id : ThreadId) : Option (Tenancy α) :=
  ((a.cell? id).map Cell.tenancy).filter Tenancy.isLive

theorem cell?_eq_some_iff :
    a.cell? id = some c ↔ a.cellAt? id.index.toNat = some c ∧ c.generation = id.generation := by
  simp [cell?, Option.filter_eq_some_iff]

theorem tenant?_eq_some_iff :
    a.tenant? id = some t ↔ t.isLive = true ∧ a.cell? id = some ⟨id.generation, t⟩ := by
  simp only [tenant?, Option.filter_eq_some_iff, Option.map_eq_some_iff]
  constructor
  · rintro ⟨⟨⟨generation, tenancy⟩, hc, rfl⟩, hlive⟩
    obtain rfl : generation = id.generation := (cell?_eq_some_iff.mp hc).2
    exact ⟨hlive, hc⟩
  · rintro ⟨hlive, hc⟩
    exact ⟨⟨_, hc, rfl⟩, hlive⟩

theorem contains_eq (a : Arena α) (id : ThreadId) : a.contains id = (a.tenant? id).isSome := by
  rw [contains, tenant?]
  cases a.cell? id with
  | none => rfl
  | some c => cases h : c.tenancy.isLive <;> simp [Option.filter, h]

theorem contains_eq_false_iff : a.contains id = false ↔ a.tenant? id = none := by
  rw [contains_eq, Option.isSome_eq_false_iff, Option.isNone_iff_eq_none]

theorem contains_of_tenant? (h : a.tenant? id = some t) : a.contains id = true := by
  rw [contains_eq, h]
  rfl

theorem get?_eq (a : Arena α) (id : ThreadId) : a.get? id = (a.tenant? id).bind Tenancy.value? := by
  rw [get?, tenant?]
  cases a.cell? id with
  | none => rfl
  | some c => cases h : c.tenancy <;> simp [Option.filter, h, Tenancy.isLive, Tenancy.value?]

theorem get?_eq_some_iff : a.get? id = some value ↔ a.tenant? id = some (.occupied value) := by
  rw [get?_eq]
  rcases a.tenant? id with _ | _ | _ | _ <;> simp [Tenancy.value?]

theorem tenant?_empty (id : ThreadId) : (empty : Arena α).tenant? id = none := by
  have hnone : ∀ i, (empty : Arena α).cellAt? i = none := by
    intro i
    cases i <;> rfl
  rw [tenant?, cell?, hnone]
  rfl

theorem exists_of_cellAt? (h : a.cellAt? i = some c) : ∃ n, i = n + 1 ∧ a.cells[n]? = some c := by
  cases i with
  | zero => cases h
  | succ n => exact ⟨n, rfl, h⟩

theorem cellAt?_setCell (h : a.cellAt? i = some c₀) :
    (a.setCell i c).cellAt? j = if j = i then some c else a.cellAt? j := by
  obtain ⟨n, rfl, hn⟩ := exists_of_cellAt? h
  obtain ⟨hlt, -⟩ := List.getElem?_eq_some_iff.mp hn
  cases j with
  | zero => simp [cellAt?]
  | succ m =>
    simp only [cellAt?, setCell, Nat.add_sub_cancel, Nat.add_right_cancel_iff]
    rw [List.getElem?_set]
    split
    · rename_i heq
      rw [if_pos heq.symm]
    · rename_i hne
      rw [if_neg fun heq => hne heq.symm]

theorem length_setCell (a : Arena α) (i : Nat) (c : Cell α) : (a.setCell i c).cells.length = a.cells.length :=
  List.length_set

theorem le_length_of_cellAt? (h : a.cellAt? i = some c) : i ≤ a.cells.length := by
  obtain ⟨n, rfl, hn⟩ := exists_of_cellAt? h
  obtain ⟨hlt, -⟩ := List.getElem?_eq_some_iff.mp hn
  exact hlt

theorem setCell_setCell : (a.setCell i c₀).setCell i c = a.setCell i c := by
  simp only [setCell, List.set_set]

theorem setCell_self (h : a.cellAt? i = some c) : a.setCell i c = a := by
  obtain ⟨n, rfl, hn⟩ := exists_of_cellAt? h
  obtain ⟨hlt, rfl⟩ := List.getElem?_eq_some_iff.mp hn
  simp only [setCell, Nat.add_sub_cancel, List.set_getElem_self]

theorem cell?_setCell (h : a.cell? id = some ⟨generation, t⟩) :
    (a.setCell id.index.toNat ⟨generation, t'⟩).cell? id = some ⟨generation, t'⟩ := by
  obtain ⟨hat, hgen⟩ := cell?_eq_some_iff.mp h
  rw [cell?_eq_some_iff, cellAt?_setCell hat, if_pos rfl]
  exact ⟨rfl, hgen⟩

theorem tenant?_setCell (hc : a.cell? id = some ⟨generation, t⟩) (hlive : t'.isLive = true)
    (other : ThreadId) :
    (a.setCell id.index.toNat ⟨generation, t'⟩).tenant? other =
      if other = id then some t' else a.tenant? other := by
  obtain ⟨hat, hgen⟩ := cell?_eq_some_iff.mp hc
  by_cases hid : other = id
  · rw [if_pos hid, hid, tenant?_eq_some_iff, cell?_eq_some_iff, cellAt?_setCell hat, if_pos rfl]
    exact ⟨hlive, by rw [← hgen], rfl⟩
  · rw [if_neg hid]
    by_cases hindex : other.index = id.index
    · have hne : generation ≠ other.generation :=
        fun heq => ThreadId.generation_ne hid hindex (hgen.symm.trans heq)
      have hnone (b : Arena α) (s : Tenancy α) (hb : b.cellAt? id.index.toNat = some ⟨generation, s⟩) :
          b.tenant? other = none := by
        rw [tenant?, cell?, hindex, hb]
        simp [Option.filter, hne]
      rw [hnone a t hat, hnone _ t' (by rw [cellAt?_setCell hat, if_pos rfl])]
    · have hne : other.index.toNat ≠ id.index.toNat := fun heq => hindex (UInt32.toNat_inj.mp heq)
      simp only [tenant?, cell?, cellAt?_setCell hat, if_neg hne]

/-- The books of an arena agree with its cells. -/
structure Booked (a : Arena α) : Prop where
  live_eq : a.live = a.cells.countP fun c => c.tenancy.isLive
  free_nodup : a.free.Nodup
  mem_free_iff : ∀ i, i ∈ a.free ↔ ∃ c, a.cellAt? i = some c ∧ c.tenancy = .vacant

theorem booked_empty : (empty : Arena α).Booked where
  live_eq := rfl
  free_nodup := List.nodup_nil
  mem_free_iff i := by cases i <;> simp [empty, cellAt?]

/-- The books agree with the cells, and handles have room for all places. -/
structure WellFormed (a : Arena α) : Prop where
  live_eq : a.live = a.cells.countP fun c => c.tenancy.isLive
  free_nodup : a.free.Nodup
  mem_free_iff : ∀ i, i ∈ a.free ↔ ∃ c, a.cellAt? i = some c ∧ c.tenancy = .vacant
  length_le : a.cells.length ≤ ThreadId.maxScriptIndex

theorem WellFormed.booked (h : a.WellFormed) : a.Booked := ⟨h.live_eq, h.free_nodup, h.mem_free_iff⟩

theorem Booked.wellFormed (h : a.Booked) (hlength : a.cells.length ≤ ThreadId.maxScriptIndex) : a.WellFormed :=
  ⟨h.live_eq, h.free_nodup, h.mem_free_iff, hlength⟩

theorem wellFormed_empty : (empty : Arena α).WellFormed := booked_empty.wellFormed (Nat.zero_le _)

theorem countP_setCell (h : a.cellAt? i = some c₀) :
    (a.setCell i c).cells.countP (fun c => c.tenancy.isLive) =
      a.cells.countP (fun c => c.tenancy.isLive) - (if c₀.tenancy.isLive then 1 else 0) +
        (if c.tenancy.isLive then 1 else 0) := by
  obtain ⟨n, rfl, hn⟩ := exists_of_cellAt? h
  obtain ⟨hlt, hget⟩ := List.getElem?_eq_some_iff.mp hn
  rw [setCell, Nat.add_sub_cancel, List.countP_set hlt, hget]

theorem countP_pos (h : a.cellAt? i = some c₀) (hlive : c₀.tenancy.isLive = true) :
    0 < a.cells.countP fun c => c.tenancy.isLive := by
  obtain ⟨n, rfl, hn⟩ := exists_of_cellAt? h
  exact List.countP_pos_iff.mpr ⟨c₀, List.mem_of_getElem? hn, hlive⟩

theorem Booked.setCell (h : a.Booked) (hc : a.cellAt? i = some c₀)
    (hlive₀ : c₀.tenancy.isLive = true) (hlive : c.tenancy.isLive = true) :
    (a.setCell i c).Booked where
  live_eq := by
    have hpos := countP_pos hc hlive₀
    rw [countP_setCell hc, if_pos hlive₀, if_pos hlive]
    show a.live = _
    rw [h.live_eq]
    omega
  free_nodup := h.free_nodup
  mem_free_iff j := by
    show j ∈ a.free ↔ _
    rw [h.mem_free_iff, cellAt?_setCell hc]
    split
    · rename_i hj
      subst hj
      constructor
      · rintro ⟨c', hc', hvacant⟩
        rw [hc, Option.some.injEq] at hc'
        rw [hc', hvacant] at hlive₀
        cases hlive₀
      · rintro ⟨c', hc', hvacant⟩
        rw [Option.some.injEq] at hc'
        rw [hc', hvacant] at hlive
        cases hlive
    · exact Iff.rfl

theorem WellFormed.setCell (h : a.WellFormed) (hc : a.cellAt? i = some c₀)
    (hlive₀ : c₀.tenancy.isLive = true) (hlive : c.tenancy.isLive = true) :
    (a.setCell i c).WellFormed := by
  apply (h.booked.setCell hc hlive₀ hlive).wellFormed
  rw [length_setCell]
  exact h.length_le

/-- An operation on the tenant of one identifier, which stays live. -/
structure Replaces (a : Arena α) (id : ThreadId) (t : Tenancy α) (a' : Arena α) : Prop where
  wellFormed : a.WellFormed → a'.WellFormed
  live_eq : a'.live = a.live
  tenant?_eq : ∀ other, a'.tenant? other = if other = id then some t else a.tenant? other

theorem replaces_setCell (hc : a.cell? id = some ⟨generation, t⟩) (hlive : t.isLive = true)
    (hlive' : t'.isLive = true) :
    a.Replaces id t' (a.setCell id.index.toNat ⟨generation, t'⟩) where
  wellFormed h := h.setCell (cell?_eq_some_iff.mp hc).1 hlive hlive'
  live_eq := rfl
  tenant?_eq := tenant?_setCell hc hlive'

theorem Replaces.contains_eq (h : a.Replaces id t a') (hid : a.contains id = true)
    (other : ThreadId) : a'.contains other = a.contains other := by
  rw [Arena.contains_eq, h.tenant?_eq, Arena.contains_eq]
  split
  · rename_i heq
    rw [Arena.contains_eq] at hid
    rw [heq, hid]
    rfl
  · rfl

theorem cell?_of_tenant? (h : a.tenant? id = some t) : a.cell? id = some ⟨id.generation, t⟩ :=
  (tenant?_eq_some_iff.mp h).2

theorem tenant?_of_cell? (h : a.cell? id = some ⟨generation, t⟩) (hlive : t.isLive = true) :
    a.tenant? id = some t := by
  simp [tenant?, h, Option.filter, hlive]

theorem checkout_eq_some_iff : a.checkout id = some (value, a') ↔ ∃ generation,
    a.cell? id = some ⟨generation, .occupied value⟩ ∧ a' = a.setCell id.index.toNat ⟨generation, .lent⟩ := by
  rw [checkout]
  split
  · rename_i g v hc
    simp only [hc, Option.some.injEq, Prod.mk.injEq, Cell.mk.injEq, Tenancy.occupied.injEq]
    constructor
    · rintro ⟨rfl, rfl⟩
      exact ⟨g, ⟨rfl, rfl⟩, rfl⟩
    · rintro ⟨_, ⟨rfl, rfl⟩, rfl⟩
      exact ⟨rfl, rfl⟩
  · rename_i hnone
    constructor
    · intro h
      cases h
    · rintro ⟨g, hc, -⟩
      exact absurd hc (hnone g value)

theorem checkout_eq_some (h : a.checkout id = some (value, a')) :
    a.tenant? id = some (.occupied value) ∧ a.Replaces id .lent a' := by
  obtain ⟨generation, hc, rfl⟩ := checkout_eq_some_iff.mp h
  obtain rfl : generation = id.generation := (cell?_eq_some_iff.mp hc).2
  exact ⟨tenant?_eq_some_iff.mpr ⟨rfl, hc⟩, replaces_setCell hc rfl rfl⟩

/-- A value that comes back as it was leaves no trace of having been lent. -/
theorem checkin_of_checkout (h : a.checkout id = some (value, a')) : a'.checkin id value = a := by
  obtain ⟨generation, hc, rfl⟩ := checkout_eq_some_iff.mp h
  rw [checkin, cell?_setCell hc]
  dsimp only
  rw [setCell_setCell, setCell_self (cell?_eq_some_iff.mp hc).1]

theorem checkout_checkin (h : a.checkout id = some (value, a')) (value' : α) :
    (a'.checkin id value').checkout id = some (value', a') := by
  obtain ⟨generation, hc, rfl⟩ := checkout_eq_some_iff.mp h
  have hcheckin : (a.setCell id.index.toNat ⟨generation, .lent⟩).checkin id value' =
      a.setCell id.index.toNat ⟨generation, .occupied value'⟩ := by
    rw [checkin, cell?_setCell hc]
    exact setCell_setCell
  rw [hcheckin, checkout_eq_some_iff]
  exact ⟨generation, cell?_setCell hc, setCell_setCell.symm⟩

theorem get?_of_checkout (h : a.checkout id = some (value, a')) : a.get? id = some value :=
  get?_eq_some_iff.mpr (checkout_eq_some h).1

theorem exists_checkout (h : a.get? id = some value) : ∃ a', a.checkout id = some (value, a') := by
  have hc := cell?_of_tenant? (get?_eq_some_iff.mp h)
  exact ⟨_, checkout_eq_some_iff.mpr ⟨_, hc, rfl⟩⟩

theorem tenant?_of_get?_eq_none (h : a.get? id = none) : a.tenant? id = none ∨ a.tenant? id = some .lent := by
  rw [get?_eq] at h
  rcases ht : a.tenant? id with _ | _ | _ | _
  · exact .inl rfl
  · cases (tenant?_eq_some_iff.mp ht).1
  · rw [ht] at h
    cases h
  · exact .inr rfl

theorem checkout_of_occupied (h : a.tenant? id = some (.occupied value)) :
    a.checkout id = some (value, a.setCell id.index.toNat ⟨id.generation, .lent⟩) :=
  checkout_eq_some_iff.mpr ⟨id.generation, cell?_of_tenant? h, rfl⟩

theorem map_fst_checkout (a : Arena α) (id : ThreadId) : (a.checkout id).map Prod.fst = a.get? id := by
  apply Option.ext
  intro value
  rw [Option.map_eq_some_iff]
  constructor
  · rintro ⟨⟨_, a'⟩, h, rfl⟩
    exact get?_of_checkout h
  · intro h
    obtain ⟨a', h⟩ := exists_checkout h
    exact ⟨_, h, rfl⟩

theorem checkin_of_lent (h : a.tenant? id = some .lent) (value : α) :
    a.checkin id value = a.setCell id.index.toNat ⟨id.generation, .occupied value⟩ := by
  rw [checkin, cell?_of_tenant? h]

theorem checkin_of_not_lent (h : a.tenant? id ≠ some .lent) (value : α) : a.checkin id value = a := by
  rw [checkin]
  split
  · rename_i generation hc
    exact absurd (tenant?_of_cell? hc rfl) h
  · rfl

theorem put_of_occupied {old : α} (h : a.tenant? id = some (.occupied old)) (value : α) :
    a.put id value = a.setCell id.index.toNat ⟨id.generation, .occupied value⟩ := by
  rw [put, cell?_of_tenant? h]

theorem replaces_checkin (h : a.tenant? id = some .lent) (value : α) :
    a.Replaces id (.occupied value) (a.checkin id value) := by
  rw [checkin_of_lent h]
  exact replaces_setCell (cell?_of_tenant? h) rfl rfl

theorem replaces_put {old : α} (h : a.tenant? id = some (.occupied old)) (value : α) :
    a.Replaces id (.occupied value) (a.put id value) := by
  rw [put_of_occupied h]
  exact replaces_setCell (cell?_of_tenant? h) rfl rfl

/-- An operation that makes one identifier live. -/
structure Inserts (a : Arena α) (id : ThreadId) (value : α) (a' : Arena α) : Prop where
  wellFormed : a'.WellFormed
  fresh : a.tenant? id = none
  live_eq : a'.live = a.live + 1
  tenant?_eq : ∀ other, a'.tenant? other = if other = id then some (.occupied value) else a.tenant? other

theorem toNat_ofNat_of_cellAt? (hroom : a.cells.length < UInt32.size) (h : a.cellAt? i = some c) :
    (UInt32.ofNat i).toNat = i :=
  UInt32.toNat_ofNat_of_lt' (Nat.lt_of_le_of_lt (le_length_of_cellAt? h) hroom)

theorem WellFormed.length_lt (h : a.WellFormed) : a.cells.length < UInt32.size :=
  Nat.lt_of_le_of_lt h.length_le (by decide)

theorem toNat_ofNat_of_le (h : i ≤ ThreadId.maxScriptIndex) : (UInt32.ofNat i).toNat = i := by
  apply UInt32.toNat_ofNat_of_lt'
  have hmax : ThreadId.maxScriptIndex < UInt32.size := by decide
  omega

theorem WellFormed.le_of_cellAt? (h : a.WellFormed) (hc : a.cellAt? i = some c) :
    i ≤ ThreadId.maxScriptIndex :=
  Nat.le_trans (le_length_of_cellAt? hc) h.length_le

theorem WellFormed.exists_tenant? (h : a.WellFormed) (hc : c ∈ a.cells) (hlive : c.tenancy.isLive = true) :
    ∃ id, a.tenant? id = some c.tenancy := by
  obtain ⟨n, hn⟩ := List.getElem?_of_mem hc
  have hat : a.cellAt? (n + 1) = some c := hn
  have hindex := toNat_ofNat_of_le (h.le_of_cellAt? hat)
  refine ⟨⟨UInt32.ofNat (n + 1), c.generation⟩, tenant?_eq_some_iff.mpr ⟨hlive, ?_⟩⟩
  exact cell?_eq_some_iff.mpr ⟨by rw [hindex]; exact hat, rfl⟩

theorem cellAt?_append (x : Cell α) (free : List Nat) (live : Nat) :
    (⟨a.cells ++ [x], free, live⟩ : Arena α).cellAt? j =
      if j = a.cells.length + 1 then some x else a.cellAt? j := by
  cases j with
  | zero => rfl
  | succ m =>
    simp only [cellAt?, Nat.add_right_cancel_iff]
    split
    · rename_i hm
      rw [hm, List.getElem?_concat_length]
    · rename_i hm
      by_cases hlt : m < a.cells.length
      · rw [List.getElem?_append_left hlt]
      · have hlen : (a.cells ++ [x]).length ≤ m := by
          rw [List.length_append, List.length_singleton]
          omega
        rw [List.getElem?_eq_none hlen, List.getElem?_eq_none (by omega)]

theorem Booked.length_eq_live (h : a.Booked) (hfree : a.free = []) : a.cells.length = a.live := by
  rw [h.live_eq, eq_comm, List.countP_eq_length]
  intro c hc
  obtain ⟨n, hn⟩ := List.getElem?_of_mem hc
  cases hlive : c.tenancy.isLive with
  | true => rfl
  | false =>
    have hmem := (h.mem_free_iff (n + 1)).mpr ⟨c, hn, Tenancy.isLive_eq_false_iff.mp hlive⟩
    rw [hfree] at hmem
    cases hmem

/-- A value takes the place freed last, or a new one behind the others. -/
theorem Booked.insert_cases (h : a.Booked) (value : α) :
    (∃ i free c, a.free = i :: free ∧ a.cellAt? i = some c ∧ c.tenancy = .vacant ∧
      a.insert value = (⟨UInt32.ofNat i, c.generation⟩,
        { a.setCell i ⟨c.generation, .occupied value⟩ with free, live := a.live + 1 })) ∨
    (a.free = [] ∧ a.insert value = (⟨UInt32.ofNat (a.cells.length + 1), 0⟩,
      { a with cells := a.cells ++ [⟨0, .occupied value⟩], live := a.live + 1 })) := by
  cases hfree : a.free with
  | nil =>
    refine .inr ⟨rfl, ?_⟩
    simp only [Arena.insert, hfree]
  | cons i free =>
    obtain ⟨c, hc, hvacant⟩ := (h.mem_free_iff i).mp (by rw [hfree]; exact List.mem_cons_self)
    refine .inl ⟨i, free, c, rfl, hc, hvacant, ?_⟩
    simp only [Arena.insert, hfree, hc, Option.map_some, Option.getD_some]

theorem live_insert (a : Arena α) (value : α) : (a.insert value).2.live = a.live + 1 := by
  rw [Arena.insert]
  split <;> rfl

theorem Booked.length_insert_le (h : a.Booked) (value : α) :
    (a.insert value).2.cells.length ≤ max a.cells.length (a.live + 1) := by
  obtain ⟨i, free, c, -, -, -, heq⟩ | ⟨hfree, heq⟩ := h.insert_cases value
  · rw [heq]
    show (a.setCell i _).cells.length ≤ _
    rw [length_setCell]
    exact Nat.le_max_left _ _
  · rw [heq, ← h.length_eq_live hfree]
    show (a.cells ++ [_]).length ≤ _
    rw [List.length_append, List.length_singleton]
    exact Nat.le_max_right _ _

theorem Booked.length_le_insert (h : a.Booked) (value : α) : a.cells.length ≤ (a.insert value).2.cells.length := by
  obtain ⟨i, free, c, -, -, -, heq⟩ | ⟨-, heq⟩ := h.insert_cases value
  · rw [heq]
    exact Nat.le_of_eq (a.length_setCell _ _).symm
  · rw [heq]
    show a.cells.length ≤ (a.cells ++ [_]).length
    rw [List.length_append]
    exact Nat.le_add_right _ _

theorem Booked.insert (h : a.Booked) (value : α) : (a.insert value).2.Booked := by
  obtain ⟨i, free, c, hfree, hc, hvacant, heq⟩ | ⟨hfree, heq⟩ := h.insert_cases value
  · have hnodup := h.free_nodup
    rw [hfree, List.nodup_cons] at hnodup
    rw [heq]
    refine ⟨?_, hnodup.2, fun j => ?_⟩
    · show a.live + 1 = (a.setCell i _).cells.countP _
      rw [countP_setCell hc, hvacant, h.live_eq]
      rfl
    · show j ∈ free ↔ ∃ c', (a.setCell i _).cellAt? j = some c' ∧ c'.tenancy = .vacant
      rw [cellAt?_setCell hc]
      split
      · rename_i hj
        subst hj
        simp [hnodup.1]
      · rename_i hj
        rw [← h.mem_free_iff, hfree, List.mem_cons, or_iff_right hj]
  · have hnone : a.cellAt? (a.cells.length + 1) = none := List.getElem?_eq_none (Nat.le_refl _)
    rw [heq]
    refine ⟨?_, h.free_nodup, fun j => ?_⟩
    · show a.live + 1 = (a.cells ++ [_]).countP _
      rw [List.countP_append, h.live_eq]
      rfl
    · rw [cellAt?_append]
      show j ∈ a.free ↔ _
      split
      · rename_i hj
        rw [h.mem_free_iff, hj, hnone]
        simp
      · exact h.mem_free_iff j

/-- One identifier gets a value at a place that is vacant or new. -/
structure Seats (a : Arena α) (id : ThreadId) (value : α) (a' : Arena α) : Prop where
  before : a.cellAt? id.index.toNat = none ∧ id.generation = 0 ∨
    a.cellAt? id.index.toNat = some ⟨id.generation, .vacant⟩
  cellAt?_eq : ∀ i, a'.cellAt? i =
    if i = id.index.toNat then some ⟨id.generation, .occupied value⟩ else a.cellAt? i

/-- An insertion gives an identifier its value as long as indices have room for all places. -/
theorem Booked.seats_insert (h : a.Booked) (hroom : (a.insert value).2.cells.length < UInt32.size) :
    a.Seats (a.insert value).1 value (a.insert value).2 := by
  obtain ⟨i, free, c, hfree, hc, hvacant, heq⟩ | ⟨hfree, heq⟩ := h.insert_cases value
  · have hi : (UInt32.ofNat i).toNat = i := by
      rw [heq] at hroom
      change (a.setCell i _).cells.length < _ at hroom
      rw [length_setCell] at hroom
      exact toNat_ofNat_of_cellAt? hroom hc
    rw [heq]
    constructor
    · simp only [hi]
      right
      rw [hc, ← hvacant]
    · intro j
      simp only [hi]
      exact cellAt?_setCell hc
  · have hi : (UInt32.ofNat (a.cells.length + 1)).toNat = a.cells.length + 1 := by
      apply UInt32.toNat_ofNat_of_lt'
      rw [heq] at hroom
      change (a.cells ++ [_]).length < _ at hroom
      rwa [List.length_append] at hroom
    rw [heq]
    constructor
    · refine .inl ⟨?_, rfl⟩
      show a.cellAt? (UInt32.ofNat (a.cells.length + 1)).toNat = none
      rw [hi]
      exact List.getElem?_eq_none (Nat.le_refl _)
    · intro j
      simp only [hi]
      exact cellAt?_append _ _ _

theorem Seats.ne_nil (h : a.Seats id value a') : id ≠ .nil := by
  rintro rfl
  obtain ⟨n, hn, -⟩ := exists_of_cellAt? ((h.cellAt?_eq _).trans (if_pos rfl))
  cases hn

theorem Seats.fresh (h : a.Seats id value a') (other : ThreadId) (hindex : other.index = id.index) :
    a.tenant? other = none := by
  rcases h.before with ⟨hnone, -⟩ | hvacant
  · rw [tenant?, cell?, hindex, hnone]
    rfl
  · rw [tenant?, cell?, hindex, hvacant]
    cases hgen : (id.generation == other.generation) <;> simp [Option.filter, hgen, Tenancy.isLive]

theorem Seats.tenant?_eq (h : a.Seats id value a') (other : ThreadId) :
    a'.tenant? other = if other = id then some (.occupied value) else a.tenant? other := by
  have hcell := h.cellAt?_eq other.index.toNat
  by_cases hindex : other.index = id.index
  · rw [hindex, if_pos rfl] at hcell
    split
    · rename_i heq
      rw [heq, tenant?_eq_some_iff, cell?_eq_some_iff]
      exact ⟨rfl, hcell, rfl⟩
    · rename_i hne
      rw [h.fresh other hindex, tenant?, cell?, hindex, hcell]
      simp [Option.filter, ThreadId.generation_ne hne hindex]
  · have hplace : other.index.toNat ≠ id.index.toNat := fun heq => hindex (UInt32.toNat_inj.mp heq)
    rw [if_neg hplace] at hcell
    rw [if_neg fun heq => hindex (congrArg ThreadId.index heq), tenant?, cell?, hcell]
    rfl

theorem WellFormed.length_insert_le (h : a.WellFormed) (hroom : a.live < ThreadId.maxScriptIndex) (value : α) :
    (a.insert value).2.cells.length ≤ ThreadId.maxScriptIndex :=
  Nat.le_trans (h.booked.length_insert_le value) (Nat.max_le.mpr ⟨h.length_le, hroom⟩)

theorem WellFormed.seats_insert (h : a.WellFormed) (hroom : a.live < ThreadId.maxScriptIndex) (value : α) :
    a.Seats (a.insert value).1 value (a.insert value).2 := by
  have hmax : ThreadId.maxScriptIndex < UInt32.size := by decide
  exact h.booked.seats_insert (Nat.lt_of_le_of_lt (h.length_insert_le hroom value) hmax)

theorem WellFormed.insert (h : a.WellFormed) (hroom : a.live < ThreadId.maxScriptIndex) (value : α) :
    a.Inserts (a.insert value).1 value (a.insert value).2 where
  wellFormed := (h.booked.insert value).wellFormed (h.length_insert_le hroom value)
  fresh := (h.seats_insert hroom value).fresh _ rfl
  live_eq := a.live_insert value
  tenant?_eq := (h.seats_insert hroom value).tenant?_eq

/-- An operation after which one identifier is no longer live. -/
structure Removes (a : Arena α) (id : ThreadId) (a' : Arena α) : Prop where
  wellFormed : a.WellFormed → a'.WellFormed
  live_eq : a.WellFormed → a'.live + 1 = a.live
  tenant?_eq : ∀ other, a'.tenant? other = if other = id then none else a.tenant? other

theorem tenant?_setCell_vacant (hc : a.cell? id = some c₀) :
    (a.setCell id.index.toNat ⟨generation, .vacant⟩).tenant? other =
      if other = id then none else a.tenant? other := by
  obtain ⟨hat, hgen⟩ := cell?_eq_some_iff.mp hc
  by_cases hindex : other.index = id.index
  · have hnone : (a.setCell id.index.toNat ⟨generation, .vacant⟩).tenant? other = none := by
      rw [tenant?, cell?, hindex, cellAt?_setCell hat, if_pos rfl]
      cases h : (generation == other.generation) <;> simp [Option.filter, h, Tenancy.isLive]
    rw [hnone]
    split
    · rfl
    · rename_i hid
      have hne : c₀.generation ≠ other.generation := hgen ▸ ThreadId.generation_ne hid hindex
      rw [tenant?, cell?, hindex, hat]
      simp [Option.filter, hne]
  · have hne : other.index.toNat ≠ id.index.toNat := fun heq => hindex (UInt32.toNat_inj.mp heq)
    rw [if_neg fun heq => hindex (congrArg ThreadId.index heq)]
    simp only [tenant?, cell?, cellAt?_setCell hat, if_neg hne]

theorem Booked.free (h : a.Booked) (hc : a.cellAt? i = some c₀)
    (hlive : c₀.tenancy.isLive = true) :
    ({ a.setCell i ⟨generation, .vacant⟩ with free := i :: a.free, live := a.live - 1 } :
      Arena α).Booked where
  live_eq := by
    show a.live - 1 = (a.setCell i _).cells.countP _
    rw [countP_setCell hc, if_pos hlive, h.live_eq]
    rfl
  free_nodup := by
    refine List.nodup_cons.mpr ⟨?_, h.free_nodup⟩
    rw [h.mem_free_iff]
    rintro ⟨c', hc', hvacant⟩
    rw [hc, Option.some.injEq] at hc'
    rw [hc', hvacant] at hlive
    cases hlive
  mem_free_iff j := by
    show j ∈ i :: a.free ↔ ∃ c', (a.setCell i _).cellAt? j = some c' ∧ c'.tenancy = .vacant
    rw [cellAt?_setCell hc, List.mem_cons]
    split
    · rename_i hj
      simp [hj]
    · rename_i hj
      rw [or_iff_right hj]
      exact h.mem_free_iff j

theorem remove_of_tenant? (h : a.tenant? id = some t) : a.remove id = (t.value?,
    { a.setCell id.index.toNat ⟨id.generation + 1, .vacant⟩ with
      free := id.index.toNat :: a.free, live := a.live - 1 }) := by
  obtain ⟨hlive, hc⟩ := tenant?_eq_some_iff.mp h
  rw [remove, hc]
  exact if_pos hlive

theorem remove_of_tenant?_eq_none (h : a.tenant? id = none) : a.remove id = (none, a) := by
  have hdead := contains_eq_false_iff.mpr h
  rw [contains] at hdead
  rw [remove]
  split
  · rename_i generation tenancy hc
    rw [hc] at hdead
    exact if_neg (Bool.eq_false_iff.mp hdead)
  · rfl

theorem Booked.remove (h : a.Booked) (id : ThreadId) : (a.remove id).2.Booked := by
  cases ht : a.tenant? id with
  | none =>
    rw [remove_of_tenant?_eq_none ht]
    exact h
  | some t =>
    obtain ⟨hlive, hc⟩ := tenant?_eq_some_iff.mp ht
    rw [remove_of_tenant? ht]
    exact h.free (cell?_eq_some_iff.mp hc).1 hlive

theorem length_remove (a : Arena α) (id : ThreadId) : (a.remove id).2.cells.length = a.cells.length := by
  cases ht : a.tenant? id with
  | none => rw [remove_of_tenant?_eq_none ht]
  | some t =>
    rw [remove_of_tenant? ht]
    exact a.length_setCell _ _

theorem removes_remove (h : a.tenant? id = some t) : a.Removes id (a.remove id).2 where
  wellFormed hwf := by
    apply (hwf.booked.remove id).wellFormed
    rw [length_remove]
    exact hwf.length_le
  live_eq hwf := by
    obtain ⟨hlive, hc⟩ := tenant?_eq_some_iff.mp h
    have hpos := countP_pos (cell?_eq_some_iff.mp hc).1 hlive
    rw [remove_of_tenant? h]
    show a.live - 1 + 1 = a.live
    rw [hwf.live_eq]
    omega
  tenant?_eq other := by
    rw [remove_of_tenant? h]
    exact tenant?_setCell_vacant (cell?_of_tenant? h)

/-- A freed identifier stands for nothing, and the others for what they did. -/
theorem tenant?_remove (a : Arena α) (id other : ThreadId) :
    (a.remove id).2.tenant? other = if other = id then none else a.tenant? other := by
  cases ht : a.tenant? id with
  | some t => exact (removes_remove ht).tenant?_eq other
  | none =>
    rw [remove_of_tenant?_eq_none ht]
    split
    · rename_i heq
      rw [heq, ht]
    · rfl

theorem contains_iff_exists : a.contains id = true ↔
    ∃ c, a.cellAt? id.index.toNat = some c ∧ c.generation = id.generation ∧ c.tenancy.isLive = true := by
  simp only [contains, Option.any_eq_true, cell?_eq_some_iff, and_assoc]

theorem resolve_eq_some_iff {handle : Int32} : a.resolve handle = some id ↔
    (ThreadId.ofScriptHandle handle).index = id.index ∧
      (ThreadId.ofScriptHandle handle).matchesGeneration id.generation = true ∧ a.contains id = true := by
  obtain ⟨index, generation⟩ := id
  rw [resolve, contains_iff_exists]
  generalize ThreadId.ofScriptHandle handle = short
  dsimp only
  constructor
  · intro h
    split at h
    · rename_i c hc
      split at h
      · rename_i hmatch
        obtain ⟨hlive, hgeneration⟩ := Bool.and_eq_true_iff.mp hmatch
        cases h
        exact ⟨rfl, hgeneration, c, hc, rfl, hlive⟩
      · cases h
    · cases h
  · rintro ⟨rfl, hmatch, c, hc, rfl, hlive⟩
    rw [hc]
    simp [hlive, hmatch]

theorem resolve_congr {a' : Arena α} (hsame : ∀ id, a'.contains id = a.contains id) (handle : Int32) :
    a'.resolve handle = a.resolve handle := by
  refine Option.ext fun id => ?_
  rw [resolve_eq_some_iff, resolve_eq_some_iff, hsame]

end Arena
end NovelEngine
