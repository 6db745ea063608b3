import NovelEngine.Proofs.Thread.Arena

/-!
# What all tenants have in common

What holds of every value in an arena holds on if the values that come in have it too.
-/
namespace NovelEngine.Arena

variable {α : Type} {a b : Arena α} {p : α → Prop} {id : ThreadId} {value : α} {i : Nat} {generation : UInt32}
  {t : Tenancy α}

/-- Every stored value has the property; one that is lent out need not. -/
def All (a : Arena α) (p : α → Prop) : Prop := ∀ cell ∈ a.cells, ∀ value, cell.tenancy = .occupied value → p value

theorem all_empty : (empty : Arena α).All p := by
  intro cell hcell
  cases hcell

theorem All.get (h : a.All p) (hget : a.get? id = some value) : p value := by
  obtain ⟨hcell, -⟩ := cell?_eq_some_iff.mp (cell?_of_tenant? (get?_eq_some_iff.mp hget))
  obtain ⟨n, -, hn⟩ := exists_of_cellAt? hcell
  exact h _ (List.mem_of_getElem? hn) value rfl

theorem All.setCell (h : a.All p) (ht : ∀ value, t = .occupied value → p value) :
    (a.setCell i ⟨generation, t⟩).All p := by
  intro cell hcell value hvalue
  rcases List.mem_or_eq_of_mem_set hcell with hold | rfl
  · exact h cell hold value hvalue
  · exact ht value hvalue

theorem All.insert (h : a.All p) (hvalue : p value) : (a.insert value).2.All p := by
  have hnew (other : α) (heq : Tenancy.occupied value = .occupied other) : p other := by
    cases heq
    exact hvalue
  rw [Arena.insert]
  split
  · exact h.setCell (a := a) hnew
  · intro cell hcell other hother
    rcases List.mem_append.mp hcell with hold | hlast
    · exact h cell hold other hother
    · rw [List.mem_singleton.mp hlast] at hother
      exact hnew other hother

theorem All.checkout (h : a.All p) (hc : a.checkout id = some (value, b)) : b.All p := by
  obtain ⟨generation, -, rfl⟩ := checkout_eq_some_iff.mp hc
  exact h.setCell nofun

theorem All.checkin (h : a.All p) (hvalue : p value) : (a.checkin id value).All p := by
  rw [Arena.checkin]
  split
  · refine h.setCell fun other heq => ?_
    cases heq
    exact hvalue
  · exact h

theorem All.put (h : a.All p) (hvalue : p value) : (a.put id value).All p := by
  rw [Arena.put]
  split
  · refine h.setCell fun other heq => ?_
    cases heq
    exact hvalue
  · exact h

theorem All.remove (h : a.All p) : (a.remove id).2.All p := by
  rw [Arena.remove]
  split
  · split
    · refine h.setCell (a := a) ?_
      intro value heq
      cases heq
    · exact h
  · exact h

end NovelEngine.Arena
