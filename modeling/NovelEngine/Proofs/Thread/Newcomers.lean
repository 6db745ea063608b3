import NovelEngine.Proofs.Thread.Arena

/-!
# New identifiers

The live identifiers of an arena can be listed, and so can those that have become live between two arenas. An
insertion brings one, and an arena whose identifiers are the same brings none.
-/
namespace NovelEngine.Arena

variable {α : Type} {a a' : Arena α} {id : ThreadId} {value : α}

/-- The identifier of the cell at an index, if the cell is live. -/
def liveAt? (a : Arena α) (index : Nat) : Option ThreadId :=
  ((a.cellAt? index).filter fun c => c.tenancy.isLive).map fun c => ⟨UInt32.ofNat index, c.generation⟩

/-- The live identifiers, by rising index. -/
def ids (a : Arena α) : List ThreadId := (List.range' 1 a.cells.length).filterMap a.liveAt?

def newcomers (a a' : Arena α) : List ThreadId := a'.ids.filter fun id => !a.contains id

theorem liveAt?_eq_some_iff {i : Nat} : a.liveAt? i = some id ↔
    UInt32.ofNat i = id.index ∧ ∃ t : Tenancy α, t.isLive = true ∧ a.cellAt? i = some ⟨id.generation, t⟩ := by
  obtain ⟨index, generation⟩ := id
  simp only [liveAt?, Option.map_eq_some_iff, Option.filter_eq_some_iff, ThreadId.mk.injEq]
  constructor
  · rintro ⟨⟨generation', t⟩, ⟨hc, hlive⟩, hindex, rfl⟩
    exact ⟨hindex, t, hlive, hc⟩
  · rintro ⟨hindex, t, hlive, hc⟩
    exact ⟨_, ⟨hc, hlive⟩, hindex, rfl⟩

section

variable (hroom : a.cells.length < UInt32.size)
include hroom

theorem mem_ids_iff : id ∈ a.ids ↔ a.contains id = true := by
  have hat (t : Tenancy α) : a.cell? id = some ⟨id.generation, t⟩ ↔
      a.cellAt? id.index.toNat = some ⟨id.generation, t⟩ := by simp [cell?_eq_some_iff]
  rw [ids, List.mem_filterMap, contains_eq, Option.isSome_iff_exists]
  constructor
  · rintro ⟨i, -, hi⟩
    obtain ⟨hindex, t, hlive, hc⟩ := liveAt?_eq_some_iff.mp hi
    have htoNat : id.index.toNat = i := by rw [← hindex, toNat_ofNat_of_cellAt? hroom hc]
    exact ⟨t, tenant?_eq_some_iff.mpr ⟨hlive, (hat t).mpr (htoNat ▸ hc)⟩⟩
  · rintro ⟨t, ht⟩
    obtain ⟨hlive, hc⟩ := tenant?_eq_some_iff.mp ht
    have hc : a.cellAt? id.index.toNat = some ⟨id.generation, t⟩ := (hat t).mp hc
    obtain ⟨n, hn, hget⟩ := exists_of_cellAt? hc
    obtain ⟨hlt, -⟩ := List.getElem?_eq_some_iff.mp hget
    refine ⟨id.index.toNat, List.mem_range'_1.mpr (by omega), ?_⟩
    exact liveAt?_eq_some_iff.mpr ⟨UInt32.ofNat_toNat, t, hlive, hc⟩

theorem nodup_ids : a.ids.Nodup := by
  rw [ids, List.Nodup, List.pairwise_filterMap]
  refine List.Pairwise.imp ?_ (List.pairwise_lt_range' 1)
  intro i j hlt id hi id' hj heq
  obtain ⟨hindex, _, -, hci⟩ := liveAt?_eq_some_iff.mp hi
  obtain ⟨hindex', _, -, hcj⟩ := liveAt?_eq_some_iff.mp hj
  have hi : id.index.toNat = i := by rw [← hindex, toNat_ofNat_of_cellAt? hroom hci]
  have hj : id'.index.toNat = j := by rw [← hindex', toNat_ofNat_of_cellAt? hroom hcj]
  rw [heq] at hi
  omega

end

theorem WellFormed.mem_ids_iff (h : a.WellFormed) : id ∈ a.ids ↔ a.contains id = true :=
  Arena.mem_ids_iff h.length_lt

theorem WellFormed.nodup_ids (h : a.WellFormed) : a.ids.Nodup := Arena.nodup_ids h.length_lt

theorem map_cellAt?_range' (a : Arena α) : (List.range' 1 a.cells.length).map a.cellAt? = a.cells.map some := by
  apply List.ext_getElem
  · simp
  · intro i hi hi'
    simp [cellAt?, Nat.add_comm 1 i]

theorem isSome_liveAt? (a : Arena α) (i : Nat) :
    (a.liveAt? i).isSome = (a.cellAt? i).any fun c => c.tenancy.isLive := by
  rw [liveAt?]
  cases a.cellAt? i with
  | none => rfl
  | some c => cases h : c.tenancy.isLive <;> simp [Option.filter, h]

/-- The books count the live identifiers. -/
theorem Booked.length_ids (h : a.Booked) : a.ids.length = a.live := by
  calc a.ids.length
      = (List.range' 1 a.cells.length).countP fun i => (a.cellAt? i).any fun c => c.tenancy.isLive := by
        simp only [ids, List.length_filterMap_eq_countP, isSome_liveAt?]
    _ = ((List.range' 1 a.cells.length).map a.cellAt?).countP (Option.any fun c => c.tenancy.isLive) := by
        rw [List.countP_map]
        rfl
    _ = a.cells.countP fun c => c.tenancy.isLive := by
        rw [map_cellAt?_range', List.countP_map]
        rfl
    _ = a.live := h.live_eq.symm

theorem WellFormed.mem_newcomers_iff (h : a'.WellFormed) :
    id ∈ a.newcomers a' ↔ a'.contains id = true ∧ a.contains id = false := by
  simp [newcomers, h.mem_ids_iff]

theorem newcomers_eq_nil (h : a'.WellFormed) (hsame : ∀ id, a'.contains id = a.contains id) :
    a.newcomers a' = [] := by
  rw [List.eq_nil_iff_forall_not_mem]
  intro id hid
  obtain ⟨hnew, hold⟩ := h.mem_newcomers_iff.mp hid
  rw [hsame, hold] at hnew
  cases hnew

theorem Inserts.newcomers_eq (h : a.Inserts id value a') : a.newcomers a' = [id] := by
  have hmem : ∀ other, other ∈ a.newcomers a' ↔ other ∈ [id] := by
    intro other
    rw [h.wellFormed.mem_newcomers_iff, contains_eq, contains_eq, h.tenant?_eq, List.mem_singleton]
    by_cases heq : other = id
    · simp [heq, h.fresh]
    · cases a.tenant? other <;> simp [heq]
  have hnodup : (a.newcomers a').Nodup := h.wellFormed.nodup_ids.filter _
  have hone : [id].Nodup := List.nodup_cons.mpr ⟨List.not_mem_nil, List.nodup_nil⟩
  exact List.perm_singleton.mp ((List.perm_ext_iff_of_nodup hnodup hone).mpr hmem)

end NovelEngine.Arena
