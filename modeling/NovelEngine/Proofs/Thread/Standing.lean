import NovelEngine.Proofs.Thread.Newcomers

/-!
# Places and handles

To identifiers nothing matters about a place but its generation and whether it is live. An insertion takes a vacant
place with the generation that it has, or a new one with generation 0; a removal moves the generation of a live place
on. As all places fit into handles, no two live identifiers have the same one.
-/
namespace NovelEngine

namespace ThreadId

variable {id : ThreadId}

theorem toInt_toScriptHandle (id : ThreadId) : id.toScriptHandle.toInt =
    ((id.index.toNat % 0x10000 + 0x10000 * (id.generation.toNat % 0x8000) : Nat) : Int) :=
  Int32.toInt_ofNat_of_lt (by omega)

theorem toNat_toScriptHandle (id : ThreadId) : id.toScriptHandle.toUInt32.toNat =
    id.index.toNat % 0x10000 + 0x10000 * (id.generation.toNat % 0x8000) := by
  have hsmall : id.index.toNat % 0x10000 + 0x10000 * (id.generation.toNat % 0x8000) < 0x100000000 := by omega
  show (UInt32.ofNat _).toNat = _
  exact UInt32.toNat_ofNat_of_lt' hsmall

theorem ofScriptHandle_toScriptHandle (id : ThreadId) : ofScriptHandle id.toScriptHandle =
    ⟨UInt32.ofNat (id.index.toNat % 0x10000), UInt32.ofNat (id.generation.toNat % 0x8000)⟩ := by
  have hindex : (id.index.toNat % 0x10000 + 0x10000 * (id.generation.toNat % 0x8000)) % 0x10000 =
      id.index.toNat % 0x10000 := by omega
  have hgeneration : (id.index.toNat % 0x10000 + 0x10000 * (id.generation.toNat % 0x8000)) / 0x10000 % 0x8000 =
      id.generation.toNat % 0x8000 := by omega
  simp only [ofScriptHandle, toNat_toScriptHandle, hindex, hgeneration]

end ThreadId

/-- What a place is to identifiers. -/
structure Standing where
  generation : UInt32
  live : Bool
  deriving DecidableEq

/-- The generation that the next tenant of a place gets, unless the place is live. -/
def Standing.offer? : Option Standing → Option UInt32
  | none => some 0
  | some ⟨generation, false⟩ => some generation
  | some ⟨_, true⟩ => none

namespace Arena

variable {α : Type} {a b c : Arena α} {id other : ThreadId} {value : α} {cell cell₀ : Cell α} {i j : Nat}

def standing? (a : Arena α) (i : Nat) : Option Standing :=
  (a.cellAt? i).map fun cell => ⟨cell.generation, cell.tenancy.isLive⟩

theorem contains_iff_standing? : a.contains id = true ↔ a.standing? id.index.toNat = some ⟨id.generation, true⟩ := by
  simp [contains_iff_exists, standing?]

theorem standing?_setCell (hcell : a.cellAt? i = some cell₀) : (a.setCell i cell).standing? j =
    if j = i then some ⟨cell.generation, cell.tenancy.isLive⟩ else a.standing? j := by
  rw [standing?, cellAt?_setCell hcell]
  split
  · rfl
  · rfl

theorem standing?_setCell_of_same (hcell : a.cellAt? i = some cell₀) (hgeneration : cell.generation = cell₀.generation)
    (hlive : cell.tenancy.isLive = cell₀.tenancy.isLive) : (a.setCell i cell).standing? = a.standing? := by
  funext j
  rw [standing?_setCell hcell]
  split
  · rename_i heq
    rw [heq, standing?, hcell, hgeneration, hlive]
    rfl
  · rfl

theorem standing?_checkout (h : a.checkout id = some (value, b)) : b.standing? = a.standing? := by
  obtain ⟨generation, hcell, rfl⟩ := checkout_eq_some_iff.mp h
  exact standing?_setCell_of_same (cell?_eq_some_iff.mp hcell).1 rfl rfl

theorem standing?_checkin (a : Arena α) (id : ThreadId) (value : α) :
    (a.checkin id value).standing? = a.standing? := by
  rw [checkin]
  split
  · rename_i generation hcell
    exact standing?_setCell_of_same (cell?_eq_some_iff.mp hcell).1 rfl rfl
  · rfl

theorem standing?_put (a : Arena α) (id : ThreadId) (value : α) : (a.put id value).standing? = a.standing? := by
  rw [put]
  split
  · rename_i generation old hcell
    exact standing?_setCell_of_same (cell?_eq_some_iff.mp hcell).1 rfl rfl
  · rfl

/-- Vacant places may have been given out, and nothing else has happened. -/
def Grows (a b : Arena α) : Prop := ∀ i, b.standing? i = a.standing? i ∨
  ∃ generation, Standing.offer? (a.standing? i) = some generation ∧ b.standing? i = some ⟨generation, true⟩

/-- Live places may have been freed, and nothing else has happened. -/
def Sheds (a b : Arena α) : Prop := ∀ i, b.standing? i = a.standing? i ∨
  ∃ generation, a.standing? i = some ⟨generation, true⟩ ∧ b.standing? i = some ⟨generation + 1, false⟩

theorem grows_of_standing? (h : b.standing? = a.standing?) : a.Grows b := fun i => .inl (congrFun h i)

theorem sheds_of_standing? (h : b.standing? = a.standing?) : a.Sheds b := fun i => .inl (congrFun h i)

theorem Grows.refl (a : Arena α) : a.Grows a := grows_of_standing? rfl

theorem Sheds.refl (a : Arena α) : a.Sheds a := sheds_of_standing? rfl

theorem Grows.trans (h : a.Grows b) (h' : b.Grows c) : a.Grows c := by
  intro i
  rcases h i with hb | ⟨generation, hoffer, hb⟩
  · rw [← hb]
    exact h' i
  · rcases h' i with hc | ⟨generation', hoffer', -⟩
    · exact .inr ⟨generation, hoffer, hc.trans hb⟩
    · rw [hb] at hoffer'
      cases hoffer'

theorem Sheds.trans (h : a.Sheds b) (h' : b.Sheds c) : a.Sheds c := by
  intro i
  rcases h i with hb | ⟨generation, ha, hb⟩
  · rw [← hb]
    exact h' i
  · rcases h' i with hc | ⟨generation', hb', -⟩
    · exact .inr ⟨generation, ha, hc.trans hb⟩
    · rw [hb] at hb'
      cases hb'

theorem Grows.contains (h : a.Grows b) (hid : a.contains id = true) : b.contains id = true := by
  rw [contains_iff_standing?] at hid ⊢
  rcases h id.index.toNat with hb | ⟨generation, hoffer, -⟩
  · exact hb.trans hid
  · rw [hid] at hoffer
    cases hoffer

/-- A vacant or new place is given to one identifier. -/
structure Lets (a : Arena α) (id : ThreadId) (b : Arena α) : Prop where
  offer : Standing.offer? (a.standing? id.index.toNat) = some id.generation
  standing?_eq : ∀ i, b.standing? i = if i = id.index.toNat then some ⟨id.generation, true⟩ else a.standing? i

theorem Lets.grows (h : a.Lets id b) : a.Grows b := by
  intro i
  rw [h.standing?_eq]
  split
  · rename_i heq
    rw [heq]
    exact .inr ⟨id.generation, h.offer, rfl⟩
  · exact .inl rfl

theorem Seats.lets (h : a.Seats id value b) : a.Lets id b := by
  constructor
  · rw [standing?]
    rcases h.before with ⟨hnone, hgeneration⟩ | hvacant
    · rw [hnone, hgeneration]
      rfl
    · rw [hvacant]
      rfl
  · intro i
    rw [standing?, h.cellAt?_eq]
    split
    · rfl
    · rfl

theorem WellFormed.lets_insert (h : a.WellFormed) (hroom : a.live < ThreadId.maxScriptIndex) (value : α) :
    a.Lets (a.insert value).1 (a.insert value).2 :=
  (h.seats_insert hroom value).lets

theorem standing?_remove (hid : a.contains id = true) : (a.remove id).2.standing? i =
    if i = id.index.toNat then some ⟨id.generation + 1, false⟩ else a.standing? i := by
  rw [contains_eq, Option.isSome_iff_exists] at hid
  obtain ⟨t, ht⟩ := hid
  rw [remove_of_tenant? ht]
  exact standing?_setCell (cell?_eq_some_iff.mp (cell?_of_tenant? ht)).1

theorem sheds_remove (a : Arena α) (id : ThreadId) : a.Sheds (a.remove id).2 := by
  cases hid : a.contains id with
  | true =>
    intro i
    rw [standing?_remove hid]
    split
    · rename_i heq
      rw [heq]
      exact .inr ⟨id.generation, contains_iff_standing?.mp hid, rfl⟩
    · exact .inl rfl
  | false =>
    rw [remove_of_tenant?_eq_none (contains_eq_false_iff.mp hid)]
    exact Sheds.refl a

theorem WellFormed.index_bounds (h : a.WellFormed) (hid : a.contains id = true) :
    1 ≤ id.index.toNat ∧ id.index.toNat ≤ ThreadId.maxScriptIndex := by
  obtain ⟨cell, hcell, -⟩ := contains_iff_exists.mp hid
  obtain ⟨n, hn, -⟩ := exists_of_cellAt? hcell
  exact ⟨by omega, h.le_of_cellAt? hcell⟩

/-- The handle of an identifier whose place fits into it stands for whoever lives there now, if the low bits of the
generation are the same. -/
theorem resolve_toScriptHandle_iff (hid : id.index.toNat ≤ ThreadId.maxScriptIndex) :
    a.resolve id.toScriptHandle = some other ↔ a.contains other = true ∧ other.index = id.index ∧
      other.generation.toNat % 0x8000 = id.generation.toNat % 0x8000 := by
  have hmax : ThreadId.maxScriptIndex < 0x10000 := by decide
  have hindex : UInt32.ofNat (id.index.toNat % 0x10000) = id.index := by
    rw [Nat.mod_eq_of_lt (by omega), UInt32.ofNat_toNat]
  have hgeneration : (UInt32.ofNat (id.generation.toNat % 0x8000)).toNat = id.generation.toNat % 0x8000 := by
    have hlt : id.generation.toNat % 0x8000 < UInt32.size := by
      have hsize : 0x8000 < UInt32.size := by decide
      omega
    exact UInt32.toNat_ofNat_of_lt' hlt
  rw [resolve_eq_some_iff, ThreadId.ofScriptHandle_toScriptHandle, ThreadId.matchesGeneration, hindex]
  simp only [hgeneration, beq_iff_eq]
  constructor
  · rintro ⟨hsame, hmatch, hlive⟩
    exact ⟨hlive, hsame.symm, hmatch.symm⟩
  · rintro ⟨hlive, hsame, hmatch⟩
    exact ⟨hsame.symm, hmatch.symm, hlive⟩

theorem WellFormed.resolve_toScriptHandle (h : a.WellFormed) (hid : a.contains id = true) :
    a.resolve id.toScriptHandle = some id :=
  (resolve_toScriptHandle_iff (h.index_bounds hid).2).mpr ⟨hid, rfl, rfl⟩

theorem WellFormed.toScriptHandle_inj (h : a.WellFormed) (hid : a.contains id = true)
    (hother : a.contains other = true) (heq : id.toScriptHandle = other.toScriptHandle) : id = other := by
  have hresolve := h.resolve_toScriptHandle hid
  rw [heq, h.resolve_toScriptHandle hother] at hresolve
  exact (Option.some_inj.mp hresolve).symm

theorem WellFormed.toScriptHandle_pos (h : a.WellFormed) (hid : a.contains id = true) : 0 < id.toScriptHandle := by
  obtain ⟨hpos, hle⟩ := h.index_bounds hid
  have hmax : ThreadId.maxScriptIndex < 0x10000 := by decide
  rw [Int32.lt_iff_toInt_lt, ThreadId.toInt_toScriptHandle]
  show (0 : Int) < _
  omega

theorem WellFormed.pairwise_index (h : a.WellFormed) {ids : List ThreadId} (hids : ids.Sublist a.ids) :
    ids.Pairwise fun id other => id.index ≠ other.index := by
  refine List.Pairwise.imp_of_mem ?_ (hids.nodup h.nodup_ids)
  intro id other hid hother hne hindex
  have hlive := contains_iff_standing?.mp (h.mem_ids_iff.mp (hids.subset hid))
  have hlive' := contains_iff_standing?.mp (h.mem_ids_iff.mp (hids.subset hother))
  rw [hindex, hlive'] at hlive
  apply hne
  cases id
  cases other
  simp_all

theorem newcomers_sublist (a b : Arena α) : (a.newcomers b).Sublist b.ids := List.filter_sublist

theorem WellFormed.mem_newcomers_iff_standing? (hb : b.WellFormed) : id ∈ a.newcomers b ↔
    b.standing? id.index.toNat = some ⟨id.generation, true⟩ ∧
      a.standing? id.index.toNat ≠ some ⟨id.generation, true⟩ := by
  rw [hb.mem_newcomers_iff, contains_iff_standing?, Bool.eq_false_iff, Ne, contains_iff_standing?]

theorem WellFormed.exists_newcomer {generation : UInt32} (hb : b.WellFormed)
    (hnew : b.standing? i = some ⟨generation, true⟩) (hold : a.standing? i ≠ some ⟨generation, true⟩) :
    ∃ id ∈ a.newcomers b, id.index.toNat = i := by
  obtain ⟨cell, hcell, -⟩ := Option.map_eq_some_iff.mp hnew
  have htoNat := toNat_ofNat_of_le (hb.le_of_cellAt? hcell)
  refine ⟨⟨UInt32.ofNat i, generation⟩, hb.mem_newcomers_iff_standing?.mpr ?_, htoNat⟩
  rw [htoNat]
  exact ⟨hnew, hold⟩

theorem Grows.offer_of_mem (h : a.Grows b) (hb : b.WellFormed) (hid : id ∈ a.newcomers b) :
    Standing.offer? (a.standing? id.index.toNat) = some id.generation ∧
      b.standing? id.index.toNat = some ⟨id.generation, true⟩ := by
  obtain ⟨hnew, hold⟩ := hb.mem_newcomers_iff_standing?.mp hid
  rcases h id.index.toNat with hsame | ⟨generation, hoffer, hgrown⟩
  · exact absurd (hsame.symm.trans hnew) hold
  · rw [hnew] at hgrown
    cases hgrown
    exact ⟨hoffer, hnew⟩

theorem Grows.standing?_eq (h : a.Grows b) (hb : b.WellFormed) (hi : ∀ id ∈ a.newcomers b, id.index.toNat ≠ i) :
    b.standing? i = a.standing? i := by
  rcases h i with hsame | ⟨generation, hoffer, hgrown⟩
  · exact hsame
  · obtain ⟨id, hid, hindex⟩ := hb.exists_newcomer (a := a) hgrown fun hlive => by
      rw [hlive] at hoffer
      cases hoffer
    exact absurd hindex (hi id hid)

theorem Sheds.freed_of_mem (h : a.Sheds b) (ha : a.WellFormed) (hid : id ∈ b.newcomers a) :
    a.standing? id.index.toNat = some ⟨id.generation, true⟩ ∧
      b.standing? id.index.toNat = some ⟨id.generation + 1, false⟩ := by
  obtain ⟨hold, hnew⟩ := ha.mem_newcomers_iff_standing?.mp hid
  rcases h id.index.toNat with hsame | ⟨generation, hwas, hfreed⟩
  · exact absurd (hsame.trans hold) hnew
  · rw [hold] at hwas
    cases hwas
    exact ⟨hold, hfreed⟩

theorem Sheds.standing?_eq (h : a.Sheds b) (ha : a.WellFormed) (hi : ∀ id ∈ b.newcomers a, id.index.toNat ≠ i) :
    b.standing? i = a.standing? i := by
  rcases h i with hsame | ⟨generation, hwas, hfreed⟩
  · exact hsame
  · obtain ⟨id, hid, hindex⟩ := ha.exists_newcomer (a := b) hwas (by simp [hfreed])
    exact absurd hindex (hi id hid)

end Arena
end NovelEngine
