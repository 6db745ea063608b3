import NovelEngine.Proofs.Thread.Gains

/-!
# Amended values

A value that is stored can be amended before or after anything is done to other identifiers of the arena; the outcome is
the same. Removing the value makes the amendment void.
-/
namespace NovelEngine.Arena

variable {α : Type} {a b : Arena α} {own id : ThreadId} {value new : α} {c d : Cell α} {i j : Nat}

theorem setCell_comm (hi : a.cellAt? i = some c) (hj : a.cellAt? j = some d) (hne : i ≠ j) (c' d' : Cell α) :
    (a.setCell i c').setCell j d' = (a.setCell j d').setCell i c' := by
  obtain ⟨m, rfl, -⟩ := exists_of_cellAt? hi
  obtain ⟨n, rfl, -⟩ := exists_of_cellAt? hj
  have hmn : m ≠ n := fun heq => hne (congrArg (· + 1) heq)
  simp only [setCell, Nat.add_sub_cancel, List.set_comm _ _ hmn]

theorem index_ne (h : a.cell? own = some c) (h' : a.cell? id = some d) (hne : id ≠ own) :
    id.index.toNat ≠ own.index.toNat := by
  intro hindex
  obtain ⟨hcell, hgeneration⟩ := cell?_eq_some_iff.mp h
  obtain ⟨hcell', hgeneration'⟩ := cell?_eq_some_iff.mp h'
  rw [hindex, hcell] at hcell'
  cases hcell'
  apply hne
  cases id
  cases own
  simp_all [UInt32.toNat_inj]

theorem cell?_of_get? (h : a.get? own = some value) : a.cell? own = some ⟨own.generation, .occupied value⟩ :=
  cell?_of_tenant? (get?_eq_some_iff.mp h)

theorem put_eq (h : a.get? own = some value) (new : α) :
    a.put own new = a.setCell own.index.toNat ⟨own.generation, .occupied new⟩ := by
  rw [put, cell?_of_get? h]

theorem cell?_put (h : a.get? own = some value) (hne : id ≠ own) (new : α) : (a.put own new).cell? id = a.cell? id := by
  have hcell := cellAt?_of_get? h
  rw [put_eq h, cell?, cell?, cellAt?_setCell hcell]
  split
  · rename_i hindex
    have hgeneration : own.generation ≠ id.generation := by
      intro heq
      apply hne
      cases id
      cases own
      simp_all [UInt32.toNat_inj]
    rw [hindex, hcell]
    simp [Option.filter, hgeneration]
  · rfl

theorem get?_setCell (h : a.get? own = some value) (hc : a.cell? id = some c) (hne : id ≠ own) (d : Cell α) :
    (a.setCell id.index.toNat d).get? own = some value := by
  have hindex := index_ne (cell?_of_get? h) hc hne
  apply get?_of_cellAt?
  rw [cellAt?_setCell (cell?_eq_some_iff.mp hc).1, if_neg (Ne.symm hindex)]
  exact cellAt?_of_get? h

theorem setCell_put (h : a.get? own = some value) (hc : a.cell? id = some c) (hne : id ≠ own) (d : Cell α) (new : α) :
    (a.put own new).setCell id.index.toNat d = (a.setCell id.index.toNat d).put own new := by
  have hindex := index_ne (cell?_of_get? h) hc hne
  rw [put_eq h, put_eq (get?_setCell h hc hne d)]
  exact setCell_comm (cellAt?_of_get? h) (cell?_eq_some_iff.mp hc).1 (Ne.symm hindex) _ _

theorem free_put (a : Arena α) (own : ThreadId) (new : α) : (a.put own new).free = a.free := by
  rw [put]
  split <;> rfl

theorem live_put (a : Arena α) (own : ThreadId) (new : α) : (a.put own new).live = a.live := by
  rw [put]
  split <;> rfl

theorem put_books (a : Arena α) (free : List Nat) (live : Nat) (own : ThreadId) (new : α) :
    ({ a with free, live } : Arena α).put own new = { a.put own new with free, live } := by
  have hcell : ({ a with free, live } : Arena α).cell? own = a.cell? own := rfl
  rw [put, put, hcell]
  split <;> rfl

theorem checkout_put (h : a.get? own = some value) (hne : id ≠ own) (new : α) :
    (a.put own new).checkout id = (a.checkout id).map fun p => (p.1, p.2.put own new) := by
  rw [checkout, checkout, cell?_put h hne]
  split
  · rename_i hc
    rw [setCell_put h hc hne]
    rfl
  · rfl

theorem checkin_put (h : a.get? own = some value) (hne : id ≠ own) (new other : α) :
    (a.put own new).checkin id other = (a.checkin id other).put own new := by
  rw [checkin, checkin, cell?_put h hne]
  split
  · rename_i hc
    exact setCell_put h hc hne _ new
  · rfl

theorem put_comm (h : a.get? own = some value) (hne : id ≠ own) (new other : α) :
    (a.put own new).put id other = (a.put id other).put own new := by
  rw [put, put.eq_def a id, cell?_put h hne]
  split
  · rename_i hc
    exact setCell_put h hc hne _ new
  · rfl

theorem remove_put (h : a.get? own = some value) (hne : id ≠ own) (new : α) :
    ((a.put own new).remove id).2 = (a.remove id).2.put own new := by
  rw [remove, remove, cell?_put h hne, free_put, live_put]
  split
  · rename_i hc
    split
    · rw [setCell_put h hc hne]
      exact (put_books _ _ _ own new).symm
    · rfl
  · rfl

theorem get?_remove (h : a.get? own = some value) (hne : id ≠ own) : (a.remove id).2.get? own = some value := by
  rw [remove]
  split
  · rename_i hc
    split
    · exact get?_setCell h hc hne _
    · exact h
  · exact h

/-- A new value takes a place that is not the one of the amended value. -/
theorem WellFormed.insert_put (hwf : a.WellFormed) (h : a.get? own = some value) (new other : α) :
    (a.put own new).insert other = ((a.insert other).1, (a.insert other).2.put own new) := by
  have hcell := cellAt?_of_get? h
  cases hfree : a.free with
  | cons i free =>
    obtain ⟨vacant, hc, hvacant⟩ := (hwf.mem_free_iff i).mp (by simp [hfree])
    have hne : i ≠ own.index.toNat := by
      intro heq
      rw [heq, hcell] at hc
      cases hc
      cases hvacant
    have hc' : (a.put own new).cellAt? i = some vacant := by
      rw [put_eq h, cellAt?_setCell hcell, if_neg hne, hc]
    have hown : (a.setCell i ⟨vacant.generation, .occupied other⟩).get? own = some value := by
      apply get?_of_cellAt?
      rw [cellAt?_setCell hc, if_neg (Ne.symm hne), hcell]
    have hcomm : (a.put own new).setCell i ⟨vacant.generation, .occupied other⟩ =
        (a.setCell i ⟨vacant.generation, .occupied other⟩).put own new := by
      rw [put_eq h, put_eq hown]
      exact setCell_comm hcell hc (Ne.symm hne) _ _
    have hinsert (b : Arena α) (hfree : b.free = i :: free) (hc : b.cellAt? i = some vacant) : b.insert other =
        (⟨UInt32.ofNat i, vacant.generation⟩,
          { b.setCell i ⟨vacant.generation, .occupied other⟩ with free, live := b.live + 1 }) := by
      simp only [Arena.insert, hfree, hc, Option.map_some, Option.getD_some]
    rw [hinsert a hfree hc, hinsert _ ((free_put a own new).trans hfree) hc', hcomm, live_put]
    exact congrArg (Prod.mk _) (put_books _ _ _ own new).symm
  | nil =>
    obtain ⟨n, hn, hget⟩ := exists_of_cellAt? hcell
    obtain ⟨hlt, -⟩ := List.getElem?_eq_some_iff.mp hget
    have hown : ({ a with cells := a.cells ++ [⟨0, .occupied other⟩], live := a.live + 1 } : Arena α).get? own =
        some value := by
      apply get?_of_cellAt?
      rw [cellAt?_append, if_neg (by omega), hcell]
    have hinsert (b : Arena α) (hfree : b.free = []) : b.insert other =
        (⟨UInt32.ofNat (b.cells.length + 1), 0⟩,
          { b with cells := b.cells ++ [⟨0, .occupied other⟩], live := b.live + 1 }) := by
      simp only [Arena.insert, hfree]
    rw [hinsert a hfree, hinsert _ ((free_put a own new).trans hfree), put_eq hown, put_eq h]
    simp only [Arena.setCell, hn, Nat.add_sub_cancel, List.length_set, List.set_append_left _ _ hlt]

theorem get?_put (h : a.get? own = some value) (new : α) (id : ThreadId) :
    (a.put own new).get? id = if id = own then some new else a.get? id := by
  have hput := replaces_put (get?_eq_some_iff.mp h) new
  rw [get?_eq, hput.tenant?_eq]
  split
  · rfl
  · exact (get?_eq _ _).symm

theorem contains_put (h : a.get? own = some value) (new : α) (id : ThreadId) :
    (a.put own new).contains id = a.contains id := by
  have ht := get?_eq_some_iff.mp h
  exact (replaces_put ht new).contains_eq (contains_of_tenant? ht) id

theorem put_put (h : a.get? own = some value) (new newer : α) : (a.put own new).put own newer = a.put own newer := by
  have hnew : (a.put own new).get? own = some new := by rw [get?_put h, if_pos rfl]
  rw [put_eq hnew, put_eq h, put_eq h, setCell_setCell]

theorem checkin_eq_put (h : a.tenant? own = some .lent) (value new : α) :
    a.checkin own new = (a.checkin own value).put own new := by
  have hc := cell?_of_tenant? h
  have hback (v : α) : a.checkin own v = a.setCell own.index.toNat ⟨own.generation, .occupied v⟩ := by
    rw [checkin, hc]
  have hthere : (a.checkin own value).get? own = some value := by
    rw [get?_eq, (replaces_checkin h value).tenant?_eq, if_pos rfl]
    rfl
  rw [put_eq hthere, hback, hback, setCell_setCell]

theorem remove_put_self (h : a.get? own = some value) (new : α) :
    ((a.put own new).remove own).2 = (a.remove own).2 := by
  have hnew : (a.put own new).get? own = some new := by rw [get?_put h, if_pos rfl]
  rw [remove, remove, cell?_of_get? hnew, cell?_of_get? h, put_eq h]
  simp only [Tenancy.isLive, if_true, setCell_setCell]
  rfl

end NovelEngine.Arena
