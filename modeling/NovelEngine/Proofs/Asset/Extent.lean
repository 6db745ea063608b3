import NovelEngine.Proofs.Asset.Reading

/-!
# How far a reader reads

A reader takes the front of its bytes and leaves the rest. That front spells the value, in a sense that follows the parts
of the reader. A prompt reader looks at nothing behind it, and cut off before it ends, the same bytes lead to no value and
to no other fault than that they are too few: a reader cannot come to a fault early, because with more bytes it would come
to the same fault.
-/
namespace NovelEngine.Reader

variable {α β : Type} {r : Reader α} {f : α → Reader β} {bytes chunk chunk' rest : Bytes} {a : α} {b : β}
  {p p' : Bytes → α → Prop} {q : Bytes → β → Prop}

/-- Whatever the reader comes to, it takes a front of its bytes that spells the value. -/
def Spells (r : Reader α) (p : Bytes → α → Prop) : Prop :=
  ∀ bytes a rest, r bytes = .ok (a, rest) → ∃ chunk, bytes = chunk ++ rest ∧ p chunk a

theorem spells_pure (h : p [] a) : Spells (pure a) p := by
  intro bytes a' rest ha
  cases ha
  exact ⟨[], rfl, h⟩

theorem spells_throw (e : AssetError) : Spells (throw e : Reader α) p := by
  intro bytes a rest h
  cases h

theorem spells_throw_bind (e : AssetError) (f : α → Reader β) : Spells (throw e >>= f) q := by
  intro bytes b rest h
  cases h

theorem Spells.mono (h : Spells r p) (hp : ∀ chunk a, p chunk a → p' chunk a) : Spells r p' := by
  intro bytes a rest ha
  obtain ⟨chunk, hbytes, hchunk⟩ := h bytes a rest ha
  exact ⟨chunk, hbytes, hp chunk a hchunk⟩

theorem Spells.bind (h : Spells r p) (hf : ∀ chunk a, p chunk a → Spells (f a) fun chunk' b => q (chunk ++ chunk') b) :
    Spells (r >>= f) q := by
  intro bytes b rest hb
  obtain ⟨a, mid, ha, hmid⟩ := bind_eq_ok_iff.mp hb
  obtain ⟨chunk, rfl, hchunk⟩ := h bytes a mid ha
  obtain ⟨chunk', rfl, hchunk'⟩ := hf chunk a hchunk mid b rest hmid
  exact ⟨chunk ++ chunk', (List.append_assoc _ _ _).symm, hchunk'⟩

theorem spells_ite {c : Prop} [Decidable c] {r' : Reader α} (h : Spells r p) (h' : Spells r' p) :
    Spells (if c then r else r') p := by
  split
  · exact h
  · exact h'

theorem spells_lift {x : Except AssetError α} (h : ∀ a, x = .ok a → p [] a) : Spells (liftM x) p := by
  cases x with
  | error e => exact spells_throw e
  | ok a => exact spells_pure (h a rfl)

theorem spells_take (n : Nat) : Spells (take n) fun chunk a => chunk = a ∧ a.length = n := by
  intro bytes chunk rest h
  cases hsplit : splitExact n bytes with
  | none =>
    simp only [take, hsplit] at h
    cases h
  | some s =>
    simp only [take, hsplit] at h
    cases h
    obtain ⟨hlength, hbytes⟩ := splitExact_eq_some_iff.mp hsplit
    exact ⟨chunk, hbytes, rfl, hlength⟩

/-- A number is spelled by its written form, if that has every chunk for the number that the chunk is taken for. -/
theorem spells_number {width : Nat} {g : Nat → α} {form : α → Bytes}
    (h : ∀ chunk : Bytes, chunk.length = width → form (g (littleEndian chunk)) = chunk) :
    Spells (number width g) fun chunk a => chunk = form a := by
  refine (spells_take width).bind fun chunk a hchunk => spells_pure ?_
  rw [List.append_nil, hchunk.1, h a hchunk.2]

theorem spells_u16 : Spells u16 fun chunk n => chunk = u16Bytes n := by
  refine spells_number fun chunk hlength => ?_
  have hlt := littleEndian_lt chunk
  rw [hlength] at hlt
  rw [u16Bytes, UInt16.toNat_ofNat_of_lt' hlt, ← hlength, toLittleEndian_littleEndian]

theorem wordBytes_littleEndian {chunk : Bytes} (h : chunk.length = 4) :
    wordBytes (UInt32.ofNat (littleEndian chunk)) = chunk := by
  have hlt := littleEndian_lt chunk
  rw [h] at hlt
  rw [wordBytes, UInt32.toNat_ofNat_of_lt' hlt, ← h, toLittleEndian_littleEndian]

theorem spells_u32 : Spells u32 fun chunk n => chunk = wordBytes n :=
  spells_number fun _ hlength => wordBytes_littleEndian hlength

theorem spells_single : Spells single fun chunk x => chunk = singleBytes x :=
  spells_number fun _ hlength => wordBytes_littleEndian hlength

theorem spells_quat : Spells quat fun chunk x => chunk = quatBytes x := by
  refine spells_single.bind fun x₁ x h₁ => spells_single.bind fun y₁ y h₂ => spells_single.bind fun z₁ z h₃ =>
    spells_single.bind fun w₁ w h₄ => spells_pure ?_
  simp [quatBytes, Quat.toList, h₁, h₂, h₃, h₄]

theorem spells_many {item : Reader α} {ps : Bytes → List α → Prop} (h : Spells item p) (hnil : ps [] [])
    (hcons : ∀ chunk a chunks l, p chunk a → ps chunks l → ps (chunk ++ chunks) (a :: l)) (count : Nat) :
    Spells (many item count) fun chunks l => l.length = count ∧ ps chunks l := by
  suffices ∀ first, Spells (manyFrom (fun _ => item) first count) fun chunks l => l.length = count ∧ ps chunks l from
    this 0
  induction count with
  | zero => exact fun first => spells_pure ⟨rfl, hnil⟩
  | succ count ih =>
    intro first
    refine h.bind fun chunk a ha => (ih (first + 1)).bind fun chunks l hl => spells_pure ⟨congrArg (· + 1) hl.1, ?_⟩
    rw [List.append_nil]
    exact hcons chunk a chunks l ha hl.2

/-- The reader takes these bytes for the value, and it needs all of them. -/
structure Takes (r : Reader α) (chunk : Bytes) (a : α) : Prop where
  reads : Reads r chunk a
  truncated : ∀ cut, cut <+: chunk → cut ≠ chunk → r cut = .error .truncated

/-- Whatever the reader comes to, it has taken the front of its bytes for it. -/
def Prompt (r : Reader α) : Prop := Spells r (Takes r)

theorem bind_eq_error (h : r bytes = .error .truncated) : (r >>= f) bytes = .error .truncated := by
  rw [bind_apply, h]

theorem run_eq_error {e : AssetError} (h : r bytes = .error e) : r.run bytes = .error e := by
  simp only [run, StateT.run, h]

theorem Takes.error_of_cut (h : Takes r chunk a) {cut : Bytes} (hcut : cut <+: chunk ++ rest) (hfront : ¬ chunk <+: cut) :
    r cut = .error .truncated := by
  have hshort := List.prefix_or_prefix_of_prefix hcut (List.prefix_append chunk rest)
  apply h.truncated cut (hshort.resolve_right hfront)
  rintro rfl
  exact hfront (List.prefix_refl _)

theorem takes_pure (a : α) : Takes (pure a) [] a where
  reads := reads_pure a
  truncated _ hcut hne := absurd (List.prefix_nil.mp hcut) hne

theorem Takes.bind (h : Takes r chunk a) (hf : Takes (f a) chunk' b) : Takes (r >>= f) (chunk ++ chunk') b where
  reads := h.reads.bind hf.reads
  truncated cut hcut hne := by
    by_cases hfront : chunk <+: cut
    · -- The cut is behind what the first reader takes.
      obtain ⟨more, rfl⟩ := hfront
      rw [List.prefix_append_right_inj] at hcut
      rw [h.reads.bind_append]
      exact hf.truncated more hcut fun heq => hne (congrArg (chunk ++ ·) heq)
    · exact bind_eq_error (h.error_of_cut hcut hfront)

theorem prompt_pure (a : α) : Prompt (pure a) := spells_pure (takes_pure a)

theorem prompt_throw (e : AssetError) : Prompt (throw e : Reader α) := spells_throw e

theorem prompt_throw_bind (e : AssetError) (f : α → Reader β) : Prompt (throw e >>= f) := spells_throw_bind e f

theorem Prompt.bind (h : Prompt r) (hf : ∀ a, Prompt (f a)) : Prompt (r >>= f) :=
  Spells.bind h fun _ a ha => (hf a).mono fun _ _ hb => ha.bind hb

theorem prompt_ite {c : Prop} [Decidable c] {r' : Reader α} (h : Prompt r) (h' : Prompt r') :
    Prompt (if c then r else r') := by
  split
  · exact h
  · exact h'

theorem prompt_lift (x : Except AssetError α) : Prompt (liftM x) := by
  cases x with
  | error e => exact prompt_throw e
  | ok a => exact prompt_pure a

theorem prompt_take (n : Nat) : Prompt (take n) := by
  refine (spells_take n).mono fun chunk a h => ?_
  obtain ⟨rfl, rfl⟩ := h
  refine ⟨reads_take chunk, ?_⟩
  intro cut hcut hne
  have hlt : cut.length < chunk.length :=
    Nat.lt_of_le_of_ne hcut.length_le fun heq => hne (hcut.eq_of_length heq)
  have hnone : splitExact chunk.length cut = none := splitExact_eq_none_iff.mpr hlt
  simp only [take, hnone]

theorem prompt_number (width : Nat) (g : Nat → α) : Prompt (number width g) :=
  (prompt_take width).bind fun _ => prompt_pure _

theorem prompt_single : Prompt single := prompt_number 4 _

theorem prompt_vec2 : Prompt vec2 := prompt_single.bind fun _ => prompt_single.bind fun _ => prompt_pure _

theorem prompt_vec3 : Prompt vec3 :=
  prompt_single.bind fun _ => prompt_single.bind fun _ => prompt_single.bind fun _ => prompt_pure _

theorem prompt_quat : Prompt quat :=
  prompt_single.bind fun _ => prompt_single.bind fun _ => prompt_single.bind fun _ => prompt_single.bind fun _ =>
    prompt_pure _

theorem prompt_manyFrom {item : Nat → Reader α} (h : ∀ i, Prompt (item i)) (first count : Nat) :
    Prompt (manyFrom item first count) := by
  induction count generalizing first with
  | zero => exact prompt_pure []
  | succ count ih => exact (h first).bind fun a => (ih (first + 1)).bind fun l => prompt_pure _

theorem prompt_many {item : Reader α} (h : Prompt item) (count : Nat) : Prompt (many item count) :=
  prompt_manyFrom (fun _ => h) 0 count

theorem prompt_forM {f : α → Reader PUnit} (h : ∀ a, Prompt (f a)) (l : List α) : Prompt (l.forM f) := by
  induction l with
  | nil => exact prompt_pure _
  | cons a l ih => exact (h a).bind fun _ => ih

end NovelEngine.Reader
