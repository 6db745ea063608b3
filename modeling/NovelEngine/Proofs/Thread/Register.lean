import NovelEngine.Proofs.Thread.Events

/-!
# Arenas as registers

An arena is a register in which no identifier is entered twice. An identifier is live from its entry to its first
removal. What it stands for is decided by the calls under it, whatever is done under others, former and later tenants of
its place among them.

An identifier has 32 bits for the place and 32 for the generation. So this holds of an arena of which no place has been
freed so often that its generation starts again, and which has no more places than 32 bits can number.
-/
namespace NovelEngine.Arena

/-- What is done under an identifier. A value is edited in its place. -/
inductive Deed (α : Type)
  | get
  | edit (f : α → α)
  | checkout
  | checkin (value : α)
  | remove
  | contains

inductive Answer (α : Type)
  | value (value? : Option α)
  | live (isLive : Bool)
  | done

inductive Call (α : Type)
  | insert (value : α)
  | under (id : ThreadId) (deed : Deed α)

inductive Event (α : Type)
  | began (id : ThreadId) (value : α)
  | did (id : ThreadId) (deed : Deed α)

variable {α : Type} {a : Arena α} {id other : ThreadId} {deed : Deed α} {call : Call α} {calls : List (Call α)}
  {log : List (Event α)} {place : Nat}

namespace Deed

/-- What an identifier stands for after a deed under it. -/
def effect : Deed α → Option (Tenancy α) → Option (Tenancy α)
  | edit f, some (.occupied value) => some (.occupied (f value))
  | checkout, some (.occupied _) => some .lent
  | checkin value, some .lent => some (.occupied value)
  | remove, _ => none
  | _, tenant? => tenant?

/-- What a deed answers, given what its identifier stands for. -/
def answer (tenant? : Option (Tenancy α)) : Deed α → Answer α
  | get | edit _ | checkout | remove => .value (tenant?.bind Tenancy.value?)
  | checkin _ => .done
  | contains => .live tenant?.isSome

theorem isSome_effect (h : deed ≠ remove) (tenant? : Option (Tenancy α)) :
    (deed.effect tenant?).isSome = tenant?.isSome := by
  cases deed with
  | remove => exact absurd rfl h
  | get | contains => rfl
  | edit f | checkout | checkin value => rcases tenant? with _ | _ | _ | _ <;> rfl

end Deed

def act (a : Arena α) (id : ThreadId) : Deed α → Answer α × Arena α
  | .get => (.value (a.get? id), a)
  | .edit f => (.value (a.get? id), ((a.get? id).map fun value => a.put id (f value)).getD a)
  | .checkout => (.value ((a.checkout id).map Prod.fst), ((a.checkout id).map Prod.snd).getD a)
  | .checkin value => (.done, a.checkin id value)
  | .remove => (.value (a.remove id).1, (a.remove id).2)
  | .contains => (.live (a.contains id), a)

def after (a : Arena α) : Call α → Arena α
  | .insert value => (a.insert value).2
  | .under id deed => (a.act id deed).2

def eventOf (a : Arena α) : Call α → Event α
  | .insert value => .began (a.insert value).1 value
  | .under id deed => .did id deed

def frees (a : Arena α) (place : Nat) : Call α → Bool
  | .under id .remove => id.index.toNat == place && a.contains id
  | _ => false

/-- What the calls make of an empty arena. The latest call comes first. -/
def ofCalls : List (Call α) → Arena α
  | [] => empty
  | call :: calls => (ofCalls calls).after call

def events : List (Call α) → List (Event α)
  | [] => []
  | call :: calls => (ofCalls calls).eventOf call :: events calls

/-- How often a place is freed. -/
def freeings (place : Nat) : List (Call α) → Nat
  | [] => 0
  | call :: calls => freeings place calls + ((ofCalls calls).frees place call).toNat

def Event.entry? : Event α → Option ThreadId
  | .began id _ => some id
  | .did _ _ => none

def issued (log : List (Event α)) : List ThreadId := log.filterMap Event.entry?

/-- What an identifier stands for after a log. Events of others do not count. -/
def tenantIn (id : ThreadId) : List (Event α) → Option (Tenancy α)
  | [] => none
  | .began other value :: log => if id = other then some (.occupied value) else tenantIn id log
  | .did other deed :: log => if id = other then deed.effect (tenantIn id log) else tenantIn id log

theorem answer_act (a : Arena α) (id : ThreadId) (deed : Deed α) :
    (a.act id deed).1 = deed.answer (a.tenant? id) := by
  cases deed with
  | get | edit f => exact congrArg Answer.value (a.get?_eq id)
  | checkout => exact congrArg Answer.value ((a.map_fst_checkout id).trans (a.get?_eq id))
  | checkin value => rfl
  | remove =>
    apply congrArg Answer.value
    cases ht : a.tenant? id with
    | none => rw [remove_of_tenant?_eq_none ht]; rfl
    | some t => rw [remove_of_tenant? ht]; rfl
  | contains => exact congrArg Answer.live (a.contains_eq id)

theorem act_cases (a : Arena α) (id : ThreadId) (deed : Deed α) :
    (deed.effect (a.tenant? id) = a.tenant? id ∧ (a.act id deed).2 = a) ∨
    (∃ t t', a.tenant? id = some t ∧ deed.effect (some t) = some t' ∧ t'.isLive = true ∧
      (a.act id deed).2 = a.setCell id.index.toNat ⟨id.generation, t'⟩) ∨
    (deed = .remove ∧ a.contains id = true) := by
  cases deed with
  | get | contains => exact .inl ⟨rfl, rfl⟩
  | edit f =>
    cases hget : a.get? id with
    | none =>
      refine .inl ⟨?_, by simp [act, hget]⟩
      rcases tenant?_of_get?_eq_none hget with ht | ht <;> rw [ht] <;> rfl
    | some value =>
      have ht := get?_eq_some_iff.mp hget
      exact .inr (.inl ⟨_, _, ht, rfl, rfl, by simp [act, hget, put_of_occupied ht]⟩)
  | checkout =>
    cases hget : a.get? id with
    | none =>
      have hnone : a.checkout id = none := by
        rwa [← map_fst_checkout, Option.map_eq_none_iff] at hget
      refine .inl ⟨?_, by simp [act, hnone]⟩
      rcases tenant?_of_get?_eq_none hget with ht | ht <;> rw [ht] <;> rfl
    | some value =>
      have ht := get?_eq_some_iff.mp hget
      exact .inr (.inl ⟨_, _, ht, rfl, rfl, by simp [act, checkout_of_occupied ht]⟩)
  | checkin value =>
    by_cases ht : a.tenant? id = some .lent
    · exact .inr (.inl ⟨_, _, ht, rfl, rfl, checkin_of_lent ht value⟩)
    · refine .inl ⟨?_, checkin_of_not_lent ht value⟩
      generalize a.tenant? id = tenant? at ht
      rcases tenant? with _ | _ | _ | _ <;> first | rfl | exact absurd rfl ht
  | remove =>
    cases hlive : a.contains id with
    | true => exact .inr (.inr ⟨rfl, rfl⟩)
    | false =>
      have hnone := contains_eq_false_iff.mp hlive
      exact .inl ⟨by rw [hnone]; rfl, by rw [act, remove_of_tenant?_eq_none hnone]⟩

theorem tenant?_act (a : Arena α) (id : ThreadId) (deed : Deed α) (other : ThreadId) :
    (a.act id deed).2.tenant? other = if other = id then deed.effect (a.tenant? id) else a.tenant? other := by
  obtain ⟨heffect, heq⟩ | ⟨t, t', ht, heffect, hlive, heq⟩ | ⟨rfl, hlive⟩ := a.act_cases id deed
  · rw [heq, heffect]
    split
    · rename_i hid
      rw [hid]
    · rfl
  · rw [heq, ht, heffect]
    exact tenant?_setCell (cell?_of_tenant? ht) hlive other
  · exact a.tenant?_remove id other

theorem Booked.act (h : a.Booked) (id : ThreadId) (deed : Deed α) : (a.act id deed).2.Booked := by
  obtain ⟨-, heq⟩ | ⟨t, t', ht, -, hlive, heq⟩ | ⟨rfl, hlive⟩ := a.act_cases id deed
  · rw [heq]
    exact h
  · obtain ⟨hlive₀, hc⟩ := tenant?_eq_some_iff.mp ht
    rw [heq]
    exact h.setCell (cell?_eq_some_iff.mp hc).1 hlive₀ hlive
  · exact h.remove id

theorem length_act (a : Arena α) (id : ThreadId) (deed : Deed α) :
    (a.act id deed).2.cells.length = a.cells.length := by
  obtain ⟨-, heq⟩ | ⟨t, t', -, -, -, heq⟩ | ⟨rfl, hlive⟩ := a.act_cases id deed
  · rw [heq]
  · rw [heq, length_setCell]
  · exact a.length_remove id

theorem standing?_act (h : (deed.effect (a.tenant? id)).isSome = (a.tenant? id).isSome) :
    (a.act id deed).2.standing? = a.standing? := by
  obtain ⟨-, heq⟩ | ⟨t, t', ht, -, hlive, heq⟩ | ⟨rfl, hlive⟩ := a.act_cases id deed
  · rw [heq]
  · obtain ⟨hlive₀, hc⟩ := tenant?_eq_some_iff.mp ht
    rw [heq]
    exact standing?_setCell_of_same (cell?_eq_some_iff.mp hc).1 rfl (hlive.trans hlive₀.symm)
  · rw [contains_eq, ← h] at hlive
    cases hlive

theorem frees_of_ne (h : deed ≠ .remove) : a.frees place (.under id deed) = false := by
  cases deed with
  | remove => exact absurd rfl h
  | get | edit f | checkout | checkin value | contains => rfl

theorem current_act (a : Arena α) (id : ThreadId) (deed : Deed α) (place : Nat) :
    Standing.current ((a.act id deed).2.standing? place) =
      Standing.current (a.standing? place) + UInt32.ofNat (a.frees place (.under id deed)).toNat := by
  by_cases hdeed : deed = .remove
  · subst hdeed
    show Standing.current ((a.remove id).2.standing? place) =
      _ + UInt32.ofNat (id.index.toNat == place && a.contains id).toNat
    cases hlive : a.contains id with
    | true =>
      rw [standing?_remove hlive]
      by_cases hplace : place = id.index.toNat
      · rw [if_pos hplace, hplace, contains_iff_standing?.mp hlive, beq_self_eq_true]
        rfl
      · rw [if_neg hplace, beq_false_of_ne (Ne.symm hplace)]
        exact (UInt32.add_zero _).symm
    | false =>
      rw [remove_of_tenant?_eq_none (contains_eq_false_iff.mp hlive), Bool.and_false]
      exact (UInt32.add_zero _).symm
  · rw [standing?_act (Deed.isSome_effect hdeed _), frees_of_ne hdeed]
    exact (UInt32.add_zero _).symm

theorem contains_act (h : a.contains id = true) (other : ThreadId) (deed : Deed α) :
    (a.act other deed).2.contains id = true ∨ a.frees id.index.toNat (.under other deed) = true := by
  rw [contains_eq, tenant?_act]
  by_cases hid : id = other
  · subst hid
    rw [if_pos rfl]
    by_cases hdeed : deed = .remove
    · subst hdeed
      right
      simp [frees, h]
    · left
      rw [Deed.isSome_effect hdeed, ← contains_eq, h]
  · left
    rw [if_neg hid, ← contains_eq, h]

theorem Booked.after (h : a.Booked) (call : Call α) : (a.after call).Booked := by
  cases call with
  | insert value => exact h.insert value
  | under id deed => exact h.act id deed

theorem Booked.length_le_after (h : a.Booked) (call : Call α) : a.cells.length ≤ (a.after call).cells.length := by
  cases call with
  | insert value => exact h.length_le_insert value
  | under id deed => exact Nat.le_of_eq (a.length_act id deed).symm

theorem Booked.current_after (h : a.Booked) (hplaces : (a.after call).cells.length < UInt32.size) (place : Nat) :
    Standing.current ((a.after call).standing? place) =
      Standing.current (a.standing? place) + UInt32.ofNat (a.frees place call).toNat := by
  cases call with
  | insert value =>
    have hlets := (h.seats_insert hplaces).lets
    show Standing.current ((a.insert value).2.standing? place) = _
    rw [hlets.standing?_eq]
    split
    · rename_i heq
      rw [heq, Standing.offer?_eq_some hlets.offer]
      exact (UInt32.add_zero _).symm
    · exact (UInt32.add_zero _).symm
  | under id deed => exact a.current_act id deed place

theorem booked_ofCalls (calls : List (Call α)) : (ofCalls calls).Booked := by
  induction calls with
  | nil => exact booked_empty
  | cons call calls ih => exact ih.after call

/-- Identifiers have enough generations and enough numbers of places, of which 0 is none. The arena of a machine always
has the latter, as `WellFormed.length_le` says. -/
structure Fits (calls : List (Call α)) : Prop where
  /-- No place is freed as often as there are generations. -/
  freeings_lt : ∀ place, freeings place calls < UInt32.size
  /-- There are fewer places than numbers. -/
  length_lt : (ofCalls calls).cells.length < UInt32.size

/-- The first place that has no number of its own gets 0, which is nil. -/
theorem Booked.fst_insert_of_full (h : a.Booked) (hfree : a.free = []) (hfull : a.cells.length + 1 = UInt32.size)
    (value : α) : (a.insert value).1 = .nil := by
  obtain ⟨i, free, c, hcons, -⟩ | ⟨-, heq⟩ := h.insert_cases value
  · rw [hfree] at hcons
    cases hcons
  · rw [heq, hfull]
    rfl

theorem freeings_replicate_insert (value : α) (n place : Nat) :
    freeings place (List.replicate n (Call.insert value)) = 0 := by
  induction n with
  | zero => rfl
  | succ n ih =>
    rw [List.replicate_succ, freeings, ih]
    rfl

theorem ofCalls_replicate_insert (value : α) (n : Nat) :
    (ofCalls (List.replicate n (Call.insert value))).free = [] ∧
      (ofCalls (List.replicate n (Call.insert value))).cells.length = n := by
  induction n with
  | zero => exact ⟨rfl, rfl⟩
  | succ n ih =>
    obtain ⟨hfree, hlength⟩ := ih
    show ((ofCalls (List.replicate n (Call.insert value))).insert value).2.free = [] ∧
      ((ofCalls (List.replicate n (Call.insert value))).insert value).2.cells.length = n + 1
    obtain ⟨i, free, c, hcons, -⟩ | ⟨-, heq⟩ := (booked_ofCalls (List.replicate n (.insert value))).insert_cases value
    · rw [hfree] at hcons
      cases hcons
    · rw [heq]
      exact ⟨hfree, by rw [List.length_append, hlength]; rfl⟩

theorem nil_mem_issued_replicate (value : α) :
    .nil ∈ issued (events (List.replicate UInt32.size (Call.insert value))) := by
  obtain ⟨hfree, hlength⟩ := ofCalls_replicate_insert value (UInt32.size - 1)
  have hlast : UInt32.size = (UInt32.size - 1) + 1 := by decide
  rw [hlast, List.replicate_succ]
  refine List.mem_cons.mpr (.inl ?_)
  exact ((booked_ofCalls _).fst_insert_of_full hfree (by rw [hlength, ← hlast]) value).symm

theorem Booked.length_after_le (h : a.Booked) (call : Call α) : (a.after call).cells.length ≤ a.cells.length + 1 := by
  cases call with
  | insert value =>
    have hlive : a.live ≤ a.cells.length := h.live_eq ▸ List.countP_le_length
    refine Nat.le_trans (h.length_insert_le value) ?_
    omega
  | under id deed => exact Nat.le_succ_of_le (Nat.le_of_eq (a.length_act id deed))

theorem fits_of_length_lt (h : calls.length < UInt32.size) : Fits calls := by
  have hcalls (place : Nat) : freeings place calls ≤ calls.length ∧ (ofCalls calls).cells.length ≤ calls.length := by
    clear h
    induction calls with
    | nil => exact ⟨Nat.le_refl _, Nat.le_refl _⟩
    | cons call calls ih =>
      have hafter := (booked_ofCalls calls).length_after_le call
      have hfrees := Bool.toNat_le ((ofCalls calls).frees place call)
      simp only [freeings, ofCalls, List.length_cons]
      omega
  exact ⟨fun place => Nat.lt_of_le_of_lt (hcalls place).1 h, Nat.lt_of_le_of_lt (hcalls 0).2 h⟩

theorem Fits.of_cons (h : Fits (call :: calls)) : Fits calls where
  freeings_lt place := Nat.lt_of_le_of_lt (Nat.le_add_right _ _) (h.freeings_lt place)
  length_lt := Nat.lt_of_le_of_lt ((booked_ofCalls calls).length_le_after call) h.length_lt

theorem Fits.seats_insert {value : α} (h : Fits (.insert value :: calls)) :
    (ofCalls calls).Seats ((ofCalls calls).insert value).1 value ((ofCalls calls).insert value).2 :=
  (booked_ofCalls calls).seats_insert h.length_lt

/-- What an identifier stands for is what the log tells. -/
theorem Fits.tenant?_ofCalls (h : Fits calls) (id : ThreadId) :
    (ofCalls calls).tenant? id = tenantIn id (events calls) := by
  induction calls with
  | nil => exact tenant?_empty id
  | cons call calls ih =>
    have ih := ih h.of_cons
    cases call with
    | insert value =>
      refine (h.seats_insert.tenant?_eq id).trans ?_
      rw [ih]
      rfl
    | under other deed =>
      refine ((ofCalls calls).tenant?_act other deed id).trans ?_
      show _ = if id = other then deed.effect (tenantIn id _) else tenantIn id _
      rw [ih]
      split
      · rename_i heq
        rw [← heq, ih]
      · rfl

theorem Fits.current_ofCalls (h : Fits calls) (place : Nat) :
    (Standing.current ((ofCalls calls).standing? place)).toNat = freeings place calls := by
  -- As numbers of 32 bits the two agree even where the generation starts again.
  have hnumber : Standing.current ((ofCalls calls).standing? place) = UInt32.ofNat (freeings place calls) := by
    induction calls with
    | nil =>
      cases place <;> rfl
    | cons call calls ih =>
      refine ((booked_ofCalls calls).current_after h.length_lt place).trans ?_
      rw [ih h.of_cons, freeings, UInt32.ofNat_add]
  rw [hnumber]
  exact UInt32.toNat_ofNat_of_lt' (h.freeings_lt place)

theorem Fits.generation_of_contains (h : Fits calls) (hid : (ofCalls calls).contains id = true) :
    id.generation.toNat = freeings id.index.toNat calls := by
  rw [← h.current_ofCalls, contains_iff_standing?.mp hid]
  rfl

theorem Fits.generation_of_insert {value : α} (h : Fits (.insert value :: calls)) :
    ((ofCalls calls).insert value).1.generation.toNat =
      freeings ((ofCalls calls).insert value).1.index.toNat calls := by
  rw [← h.of_cons.current_ofCalls, Standing.offer?_eq_some h.seats_insert.lets.offer]

/-- An identifier that was given out is live, or its place has been freed since. -/
theorem Fits.live_or_spent (h : Fits calls) (hid : id ∈ issued (events calls)) :
    (ofCalls calls).contains id = true ∨ id.generation.toNat < freeings id.index.toNat calls := by
  induction calls with
  | nil => cases hid
  | cons call calls ih =>
    cases call with
    | insert value =>
      have htenant := h.seats_insert.tenant?_eq id
      show ((ofCalls calls).insert value).2.contains id = true ∨ id.generation.toNat < freeings id.index.toNat calls
      rw [contains_eq, htenant]
      rcases List.mem_cons.mp hid with rfl | hid
      · left
        rw [if_pos rfl]
        rfl
      · rcases ih h.of_cons hid with hlive | hspent
        · left
          rw [contains_eq] at hlive
          split
          · rfl
          · exact hlive
        · exact .inr hspent
    | under other deed =>
      show ((ofCalls calls).act other deed).2.contains id = true ∨
        id.generation.toNat < freeings id.index.toNat calls + ((ofCalls calls).frees id.index.toNat _).toNat
      -- Whoever is live has the number of freeings for its generation, so the one that ends it leaves it behind.
      rcases ih h.of_cons hid with hlive | hspent
      · rcases contains_act hlive other deed with hkept | hfreed
        · exact .inl hkept
        · right
          rw [hfreed, h.of_cons.generation_of_contains hlive]
          exact Nat.lt_succ_self _
      · exact .inr (Nat.lt_of_lt_of_le hspent (Nat.le_add_right _ _))

theorem Fits.insert_not_mem_issued {value : α} (h : Fits (.insert value :: calls)) :
    ((ofCalls calls).insert value).1 ∉ issued (events calls) := by
  intro hmem
  rcases h.of_cons.live_or_spent hmem with hlive | hspent
  · rw [contains_eq, h.seats_insert.fresh _ rfl] at hlive
    cases hlive
  · rw [h.generation_of_insert] at hspent
    exact Nat.lt_irrefl _ hspent

theorem Fits.nodup_issued (h : Fits calls) : (issued (events calls)).Nodup := by
  induction calls with
  | nil => exact List.nodup_nil
  | cons call calls ih =>
    cases call with
    | insert value => exact List.nodup_cons.mpr ⟨h.insert_not_mem_issued, ih h.of_cons⟩
    | under id deed => exact ih h.of_cons

theorem Fits.nil_not_mem_issued (h : Fits calls) : .nil ∉ issued (events calls) := by
  induction calls with
  | nil => exact List.not_mem_nil
  | cons call calls ih =>
    cases call with
    | insert value =>
      intro hmem
      rcases List.mem_cons.mp hmem with hnil | hmem
      · exact h.seats_insert.ne_nil hnil.symm
      · exact ih h.of_cons hmem
    | under id deed => exact ih h.of_cons

theorem isSome_tenantIn_cons {e : Event α} : (tenantIn id (e :: log)).isSome = true ↔
    (∃ value, e = .began id value) ∨ (tenantIn id log).isSome = true ∧ e ≠ .did id .remove := by
  cases e with
  | began other value =>
    by_cases heq : id = other
    · simp [tenantIn, heq]
    · simp [tenantIn, heq, Ne.symm heq]
  | did other deed =>
    by_cases heq : id = other
    · subst heq
      by_cases hdeed : deed = .remove
      · simp [tenantIn, hdeed, Deed.effect]
      · simp [tenantIn, hdeed, Deed.isSome_effect hdeed]
    · simp [tenantIn, heq, Ne.symm heq]

theorem isSome_tenantIn_iff : (tenantIn id log).isSome = true ↔
    ∃ later value earlier, log = later ++ .began id value :: earlier ∧ .did id .remove ∉ later := by
  constructor
  · intro h
    induction log with
    | nil => cases h
    | cons e log ih =>
      rcases isSome_tenantIn_cons.mp h with ⟨value, rfl⟩ | ⟨hsome, hkept⟩
      · exact ⟨[], value, log, rfl, List.not_mem_nil⟩
      · obtain ⟨later, value, earlier, rfl, hlater⟩ := ih hsome
        exact ⟨e :: later, value, earlier, rfl, List.not_mem_cons_of_ne_of_not_mem hkept.symm hlater⟩
  · rintro ⟨later, value, earlier, rfl, hlater⟩
    induction later with
    | nil => exact isSome_tenantIn_cons.mpr (.inl ⟨value, rfl⟩)
    | cons e later ih =>
      rw [List.mem_cons, not_or] at hlater
      obtain ⟨he, hlater⟩ := hlater
      exact isSome_tenantIn_cons.mpr (.inr ⟨ih hlater, Ne.symm he⟩)

/-- Where no identifier is given out twice, one that was removed never comes back. -/
theorem isSome_tenantIn_of_removed {later earlier : List (Event α)} (hid : id ∈ issued earlier)
    (hnodup : (issued (later ++ .did id .remove :: earlier)).Nodup) :
    (tenantIn id (later ++ .did id .remove :: earlier)).isSome = false := by
  rw [Bool.eq_false_iff]
  intro h
  induction later with
  | nil =>
    rcases isSome_tenantIn_cons.mp h with ⟨value, hbegan⟩ | ⟨-, hkept⟩
    · cases hbegan
    · exact hkept rfl
  | cons e later ih =>
    rcases isSome_tenantIn_cons.mp h with ⟨value, rfl⟩ | ⟨hsome, -⟩
    · have hagain : id ∈ issued (later ++ .did id .remove :: earlier) := by
        rw [issued, List.filterMap_append]
        exact List.mem_append_right _ hid
      exact (List.nodup_cons.mp hnodup).1 hagain
    · exact ih (((List.sublist_cons_self e _).filterMap _).nodup hnodup) hsome

/-- What the arena is after the calls, and what comes of the next one, is told by the log. -/
structure Faithful (calls : List (Call α)) : Prop where
  nil_not_mem_issued : .nil ∉ issued (events calls)
  nodup_issued : (issued (events calls)).Nodup
  /-- An identifier is live from when it is given out until it is removed, -/
  contains_iff : ∀ id, (ofCalls calls).contains id = true ↔ ∃ later value earlier,
    events calls = later ++ .began id value :: earlier ∧ .did id .remove ∉ later
  /-- and from then on it is never live again. -/
  not_contains : ∀ later id earlier, events calls = later ++ .did id .remove :: earlier → id ∈ issued earlier →
    (ofCalls calls).contains id = false
  tenant?_eq : ∀ id, (ofCalls calls).tenant? id = tenantIn id (events calls)
  answer_eq : ∀ id deed, ((ofCalls calls).act id deed).1 = deed.answer (tenantIn id (events calls))
  tenant?_act : ∀ id deed, ((ofCalls calls).act id deed).2.tenant? id = deed.effect (tenantIn id (events calls))
  apart : ∀ id deed other, other ≠ id → ((ofCalls calls).act id deed).2.tenant? other = (ofCalls calls).tenant? other
  /-- What comes back to an identifier that has nothing lent is dropped. -/
  checkin_eq_self : ∀ id value, tenantIn id (events calls) ≠ some .lent →
    (ofCalls calls).checkin id value = ofCalls calls
  live_eq : ∃ ids : List ThreadId, ids.Nodup ∧ (∀ id, id ∈ ids ↔ (ofCalls calls).contains id = true) ∧
    (ofCalls calls).live = ids.length

theorem Fits.faithful_ofCalls (h : Fits calls) : Faithful calls where
  nil_not_mem_issued := h.nil_not_mem_issued
  nodup_issued := h.nodup_issued
  contains_iff id := by rw [contains_eq, h.tenant?_ofCalls, isSome_tenantIn_iff]
  not_contains later id earlier hlog hid := by
    have hnodup := h.nodup_issued
    rw [hlog] at hnodup
    rw [contains_eq, h.tenant?_ofCalls, hlog]
    exact isSome_tenantIn_of_removed hid hnodup
  tenant?_eq := h.tenant?_ofCalls
  answer_eq id deed := by rw [answer_act, h.tenant?_ofCalls]
  tenant?_act id deed := by rw [Arena.tenant?_act, if_pos rfl, h.tenant?_ofCalls]
  apart id deed other hne := by rw [Arena.tenant?_act, if_neg hne]
  checkin_eq_self id value hidle := checkin_of_not_lent (h.tenant?_ofCalls id ▸ hidle) value
  live_eq := ⟨(ofCalls calls).ids, nodup_ids h.length_lt, fun _ => mem_ids_iff h.length_lt,
    (booked_ofCalls calls).length_ids.symm⟩

/-- A value that was removed while it was lent, and that comes back when its place has another tenant. -/
def lateReturn : List (Call Nat) :=
  [.under ⟨1, 0⟩ (.checkin 7), .insert 9, .under ⟨1, 0⟩ .remove, .under ⟨1, 0⟩ .checkout, .insert 5]

theorem faithful_lateReturn : Fits lateReturn ∧ Faithful lateReturn ∧
    issued (events lateReturn) = [⟨1, 1⟩, ⟨1, 0⟩] ∧ (ofCalls lateReturn).get? ⟨1, 1⟩ = some 9 ∧
    (ofCalls lateReturn).contains ⟨1, 0⟩ = false := by
  have hfits : Fits lateReturn := fits_of_length_lt (by decide)
  exact ⟨hfits, hfits.faithful_ofCalls, by decide, by decide, by decide⟩

/-- Without a bound on the places nil is given out, though no place is ever freed. And an identifier that was removed
before it was given out is live all the same. -/
theorem unfaithful_replicate :
    (∀ place, freeings place (List.replicate UInt32.size (Call.insert 5)) = 0) ∧
      .nil ∈ issued (events (List.replicate UInt32.size (Call.insert 5))) ∧
      (ofCalls [.insert 5, .under ⟨1, 0⟩ .remove]).contains ⟨1, 0⟩ = true :=
  ⟨freeings_replicate_insert 5 UInt32.size, nil_mem_issued_replicate 5, by decide⟩

end NovelEngine.Arena
