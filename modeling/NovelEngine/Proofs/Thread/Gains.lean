import NovelEngine.Proofs.Thread.Standing

/-!
# What an arena gains

An arena that is only added to keeps the cells that it had, whether they are occupied or lent. Each new value is in a
cell that was vacant, with the generation that the cell had, or in a new one.
-/
namespace NovelEngine

/-- No cell, or a vacant one with this generation. -/
def Cell.Vacant {α : Type} (generation : UInt32) : Option (Cell α) → Prop
  | none => generation = 0
  | some c => c = ⟨generation, .vacant⟩

namespace Arena

variable {α : Type} {a b c : Arena α} {id : ThreadId} {value : α} {news more : List (ThreadId × α)} {i : Nat}
  {generation : UInt32}

/-- The second arena has come of the first one by insertions, of which the last one comes first. -/
structure Gains (a : Arena α) (news : List (ThreadId × α)) (b : Arena α) : Prop where
  place : ∀ i, b.cellAt? i = a.cellAt? i ∨ ∃ n ∈ news, n.1.index.toNat = i ∧
    Cell.Vacant n.1.generation (a.cellAt? i) ∧ b.cellAt? i = some ⟨n.1.generation, .occupied n.2⟩
  there : ∀ n ∈ news, b.get? n.1 = some n.2

theorem vacant_of_offer? (h : Standing.offer? (a.standing? i) = some generation) :
    Cell.Vacant generation (a.cellAt? i) := by
  rw [standing?] at h
  cases hcell : a.cellAt? i with
  | none =>
    rw [hcell] at h
    exact (Option.some_inj.mp h).symm
  | some cell =>
    obtain ⟨generation', tenancy⟩ := cell
    rw [hcell] at h
    cases tenancy with
    | vacant =>
      obtain rfl := Option.some_inj.mp h
      rfl
    | occupied _ | lent => cases h

theorem WellFormed.gains_insert (h : a.WellFormed) (hroom : a.live < ThreadId.maxScriptIndex) (value : α) :
    a.Gains [((a.insert value).1, value)] (a.insert value).2 := by
  have hseats := h.seats_insert hroom value
  constructor
  · intro i
    rw [hseats.cellAt?_eq]
    split
    · rename_i heq
      have hvacant := vacant_of_offer? hseats.lets.offer
      exact .inr ⟨_, List.mem_singleton_self _, heq.symm, heq ▸ hvacant, rfl⟩
    · exact .inl rfl
  · intro n hn
    obtain rfl := List.mem_singleton.mp hn
    rw [get?_eq_some_iff, hseats.tenant?_eq, if_pos rfl]

theorem Gains.refl (a : Arena α) : a.Gains [] a := ⟨fun _ => .inl rfl, nofun⟩

theorem Gains.cellAt?_eq (h : a.Gains news b) (hvacant : ∀ generation, ¬ Cell.Vacant generation (a.cellAt? i)) :
    b.cellAt? i = a.cellAt? i := by
  rcases h.place i with hsame | ⟨n, -, -, hwas, -⟩
  · exact hsame
  · exact absurd hwas (hvacant _)

theorem not_vacant_occupied (generation generation' : UInt32) (value : α) :
    ¬ Cell.Vacant generation (some ⟨generation', .occupied value⟩) := by
  simp [Cell.Vacant]

theorem cellAt?_of_get? (hget : a.get? id = some value) :
    a.cellAt? id.index.toNat = some ⟨id.generation, .occupied value⟩ := by
  have hcell := cell?_of_tenant? (get?_eq_some_iff.mp hget)
  exact (cell?_eq_some_iff.mp hcell).1

theorem get?_of_cellAt? (hcell : a.cellAt? id.index.toNat = some ⟨id.generation, .occupied value⟩) :
    a.get? id = some value := by
  rw [get?_eq_some_iff, tenant?_eq_some_iff, cell?_eq_some_iff]
  exact ⟨rfl, hcell, rfl⟩

theorem Gains.get? (h : a.Gains news b) (hget : a.get? id = some value) : b.get? id = some value := by
  have hcell := cellAt?_of_get? hget
  apply get?_of_cellAt?
  rw [h.cellAt?_eq, hcell]
  simp [hcell, not_vacant_occupied]

theorem Gains.get?_or (h : a.Gains news b) (hget : b.get? id = some value) :
    a.get? id = some value ∨ (id, value) ∈ news := by
  have hcell := cellAt?_of_get? hget
  rcases h.place id.index.toNat with hsame | ⟨n, hn, hindex, -, hthere⟩
  · exact .inl (get?_of_cellAt? (hsame.symm.trans hcell))
  · obtain ⟨⟨index, generation⟩, new⟩ := n
    obtain rfl := UInt32.toNat_inj.mp hindex
    rw [hcell] at hthere
    cases hthere
    exact .inr hn

theorem Gains.trans (h : a.Gains news b) (h' : b.Gains more c) : a.Gains (more ++ news) c := by
  constructor
  · intro i
    rcases h.place i with hb | ⟨n, hn, hindex, hvacant, hb⟩
    · rcases h'.place i with hc | ⟨n, hn, hindex, hvacant, hc⟩
      · exact .inl (hc.trans hb)
      · exact .inr ⟨n, List.mem_append_left _ hn, hindex, hb ▸ hvacant, hc⟩
    · have hc : c.cellAt? i = b.cellAt? i := by
        apply h'.cellAt?_eq
        simp [hb, not_vacant_occupied]
      exact .inr ⟨n, List.mem_append_right _ hn, hindex, hvacant, hc.trans hb⟩
  · intro n hn
    rcases List.mem_append.mp hn with hn | hn
    · exact h'.there n hn
    · exact h'.get? (h.there n hn)

theorem cellAt?_checkout (h : a.checkout id = some (value, b)) (hi : i ≠ id.index.toNat) :
    b.cellAt? i = a.cellAt? i := by
  obtain ⟨generation, hcell, rfl⟩ := checkout_eq_some_iff.mp h
  rw [cellAt?_setCell (cell?_eq_some_iff.mp hcell).1, if_neg hi]

theorem cellAt?_checkin (a : Arena α) (id : ThreadId) (value : α) (hi : i ≠ id.index.toNat) :
    (a.checkin id value).cellAt? i = a.cellAt? i := by
  rw [checkin]
  split
  · rename_i generation hcell
    rw [cellAt?_setCell (cell?_eq_some_iff.mp hcell).1, if_neg hi]
  · rfl

end Arena
end NovelEngine
