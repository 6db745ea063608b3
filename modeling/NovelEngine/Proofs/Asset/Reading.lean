import NovelEngine.Asset.Reader

/-!
# Reading what was written

A reader reads a value off its written form if it has the value behind those bytes and leaves what follows them,
whatever that is. Conversely, a reader grants a property if every value that it comes to has it.
-/
namespace NovelEngine

theorem littleEndian_toLittleEndian_of_lt {width n : Nat} (h : n < byteSpan width) :
    littleEndian (toLittleEndian width n) = n := by
  rw [littleEndian_toLittleEndian, Nat.mod_eq_of_lt h]

@[simp] theorem length_u16Bytes (n : UInt16) : (u16Bytes n).length = 2 := length_toLittleEndian 2 n.toNat

@[simp] theorem length_singleBytes (x : Single) : (singleBytes x).length = 4 := length_wordBytes x.bits

@[simp] theorem length_quatBytes (q : Quat) : (quatBytes q).length = 16 := by simp [quatBytes, Quat.toList]

theorem length_le_length_flatMap {α : Type} (bytes : α → Bytes) (h : ∀ a, 0 < (bytes a).length) (l : List α) :
    l.length ≤ (l.flatMap bytes).length := by
  induction l with
  | nil => simp
  | cons a l ih =>
    have ha := h a
    simp only [List.length_cons, List.flatMap_cons, List.length_append]
    omega

theorem length_le_length_flatMap_of_mem {α : Type} (bytes : α → Bytes) {a : α} {l : List α} (h : a ∈ l) :
    (bytes a).length ≤ (l.flatMap bytes).length := by
  obtain ⟨l₁, l₂, rfl⟩ := List.append_of_mem h
  simp only [List.flatMap_append, List.flatMap_cons, List.length_append]
  omega

theorem bind_eq_ok_iff_exists {ε α β : Type} {x : Except ε α} {f : α → Except ε β} {b : β} :
    (x >>= f) = .ok b ↔ ∃ a, x = .ok a ∧ f a = .ok b := by
  cases x with
  | error e => simp [Bind.bind, Except.bind]
  | ok a => simp [Bind.bind, Except.bind]

namespace Reader

variable {α β : Type} {r : Reader α} {f : α → Reader β} {bytes bytes' rest : Bytes} {a : α} {b : β}
  {p : α → Prop} {q : β → Prop}

/-- The bytes are a written form of the value. -/
def Reads (r : Reader α) (bytes : Bytes) (a : α) : Prop := ∀ rest, r (bytes ++ rest) = .ok (a, rest)

/-- Whatever the reader comes to has the property. -/
def Grants (r : Reader α) (p : α → Prop) : Prop := ∀ bytes a rest, r bytes = .ok (a, rest) → p a

theorem bind_apply (r : Reader α) (f : α → Reader β) (bytes : Bytes) :
    (r >>= f) bytes = match r bytes with
      | .ok (a, rest) => f a rest
      | .error e => .error e := by
  show (r bytes >>= fun p => f p.1 p.2) = _
  cases r bytes <;> rfl

theorem bind_eq_ok_iff : (r >>= f) bytes = .ok (b, rest) ↔ ∃ a mid, r bytes = .ok (a, mid) ∧ f a mid = .ok (b, rest) := by
  rw [bind_apply]
  cases r bytes with
  | error e => simp
  | ok s =>
    obtain ⟨a, mid⟩ := s
    constructor
    · intro h
      exact ⟨a, mid, rfl, h⟩
    · rintro ⟨a', mid', heq, h⟩
      cases heq
      exact h

theorem run_eq_ok_iff : r.run bytes = .ok a ↔ ∃ rest, r bytes = .ok (a, rest) := by
  simp only [run, StateT.run]
  cases r bytes with
  | error e => simp
  | ok s =>
    obtain ⟨a', rest⟩ := s
    simp

theorem reads_pure (a : α) : Reads (pure a) [] a := by
  intro rest
  rfl

/-- Behind a written form the next reader goes on. -/
theorem Reads.bind_append (h : Reads r bytes a) (f : α → Reader β) (rest : Bytes) :
    (r >>= f) (bytes ++ rest) = f a rest := by
  rw [bind_apply, h]

theorem Reads.bind (h : Reads r bytes a) (hf : Reads (f a) bytes' b) :
    Reads (r >>= f) (bytes ++ bytes') b := by
  intro rest
  rw [List.append_assoc, h.bind_append]
  exact hf rest

theorem Reads.of_eq (h : Reads r bytes a) (heq : bytes' = bytes) : Reads r bytes' a := heq ▸ h

theorem Reads.bind_nil (h : Reads r bytes a) (hf : Reads (f a) [] b) : Reads (r >>= f) bytes b :=
  (h.bind hf).of_eq (List.append_nil bytes).symm

theorem Reads.run_append (h : Reads r bytes a) (rest : Bytes) : r.run (bytes ++ rest) = .ok a :=
  run_eq_ok_iff.mpr ⟨rest, h rest⟩

theorem Reads.run_eq (h : Reads r bytes a) : r.run bytes = .ok a := by
  simpa using h.run_append []

theorem reads_lift {x : Except AssetError α} (h : x = .ok a) : Reads (liftM x) [] a := by
  intro rest
  rw [h]
  rfl

theorem reads_take (chunk : Bytes) : Reads (take chunk.length) chunk chunk := by
  intro rest
  have hsplit : splitExact chunk.length (chunk ++ rest) = some (chunk, rest) :=
    splitExact_eq_some_iff.mpr ⟨rfl, rfl⟩
  simp only [take, hsplit]

theorem reads_number {width n : Nat} (g : Nat → α) (h : n < byteSpan width) :
    Reads (number width g) (toLittleEndian width n) (g n) := by
  have hchunk := reads_take (toLittleEndian width n)
  rw [length_toLittleEndian] at hchunk
  have hvalue : Reads (pure (g (littleEndian (toLittleEndian width n)))) [] (g n) := by
    rw [littleEndian_toLittleEndian_of_lt h]
    exact reads_pure _
  exact hchunk.bind_nil hvalue

theorem reads_u8 (n : UInt8) : Reads u8 [n] n := by
  have hlt : n.toNat < byteSpan 1 := n.toNat_lt
  have hread := reads_number UInt8.ofNat hlt
  have hbyte : toLittleEndian 1 n.toNat = [n] := by simp [toLittleEndian]
  rwa [hbyte, UInt8.ofNat_toNat] at hread

theorem reads_u16 (n : UInt16) : Reads u16 (u16Bytes n) n := by
  have hlt : n.toNat < byteSpan 2 := n.toNat_lt
  have hread := reads_number UInt16.ofNat hlt
  rwa [UInt16.ofNat_toNat] at hread

theorem reads_i16 (n : UInt16) : Reads i16 (u16Bytes n) (Int16.ofNat n.toNat) := by
  have hlt : n.toNat < byteSpan 2 := n.toNat_lt
  exact reads_number Int16.ofNat hlt

theorem reads_u32 (n : UInt32) : Reads u32 (wordBytes n) n := by
  have hlt : n.toNat < byteSpan 4 := n.toNat_lt
  have hread := reads_number UInt32.ofNat hlt
  rwa [UInt32.ofNat_toNat] at hread

theorem reads_single (x : Single) : Reads single (singleBytes x) x := by
  have hlt : x.bits.toNat < byteSpan 4 := x.bits.toNat_lt
  have hread := reads_number (fun n => (⟨UInt32.ofNat n⟩ : Single)) hlt
  rwa [UInt32.ofNat_toNat] at hread

theorem reads_vec2 (v : Vec2) : Reads vec2 (vec2Bytes v) v := by
  apply Reads.of_eq
  · exact (reads_single v.x).bind ((reads_single v.y).bind (reads_pure _))
  · simp [vec2Bytes]

theorem reads_vec3 (v : Vec3) : Reads vec3 (vec3Bytes v) v := by
  apply Reads.of_eq
  · exact (reads_single v.x).bind ((reads_single v.y).bind ((reads_single v.z).bind (reads_pure _)))
  · simp [vec3Bytes, Vec3.toList]

theorem reads_quat (q : Quat) : Reads quat (quatBytes q) q := by
  apply Reads.of_eq
  · exact (reads_single q.x).bind ((reads_single q.y).bind ((reads_single q.z).bind
      ((reads_single q.w).bind (reads_pure _))))
  · simp [quatBytes, Quat.toList]

theorem reads_manyFrom {item : Nat → Reader α} {bytes : α → Bytes} {first : Nat} {l : List α}
    (h : ∀ i a, l[i]? = some a → Reads (item (first + i)) (bytes a) a) :
    Reads (manyFrom item first l.length) (l.flatMap bytes) l := by
  induction l generalizing first with
  | nil => exact reads_pure _
  | cons a l ih =>
    have hhead : Reads (item first) (bytes a) a := h 0 a rfl
    have htail : Reads (manyFrom item (first + 1) l.length) (l.flatMap bytes) l := by
      apply ih
      intro i b hb
      have hitem := h (i + 1) b hb
      rwa [Nat.add_comm i, ← Nat.add_assoc] at hitem
    apply Reads.of_eq
    · exact hhead.bind (htail.bind (reads_pure _))
    · simp

theorem reads_many {item : Reader α} {bytes : α → Bytes} {l : List α} (h : ∀ a ∈ l, Reads item (bytes a) a) :
    Reads (many item l.length) (l.flatMap bytes) l := by
  apply reads_manyFrom
  intro i a ha
  exact h a (List.mem_of_getElem? ha)

theorem reads_forM {f : α → Reader PUnit} {l : List α} (h : ∀ a ∈ l, Reads (f a) [] ()) :
    Reads (l.forM f) [] () := by
  induction l with
  | nil => exact reads_pure _
  | cons a l ih =>
    obtain ⟨ha, hl⟩ := List.forall_mem_cons.mp h
    exact ha.bind (ih hl)

theorem grants_pure (h : p a) : Grants (pure a) p := by
  intro bytes b rest hb
  cases hb
  exact h

theorem grants_throw (e : AssetError) : Grants (throw e : Reader α) p := by
  intro bytes a rest h
  cases h

theorem grants_throw_bind (e : AssetError) (f : α → Reader β) : Grants (throw e >>= f) q := by
  intro bytes b rest h
  cases h

theorem Grants.bind (h : Grants r p) (hf : ∀ a, p a → Grants (f a) q) : Grants (r >>= f) q := by
  intro bytes b rest hb
  obtain ⟨a, mid, ha, hmid⟩ := bind_eq_ok_iff.mp hb
  exact hf a (h bytes a mid ha) mid b rest hmid

theorem grants_bind (hf : ∀ a, Grants (f a) q) : Grants (r >>= f) q :=
  Grants.bind (p := fun _ => True) (fun _ _ _ _ => trivial) fun a _ => hf a

theorem grants_ite {c : Prop} [Decidable c] {r' : Reader α} (h : c → Grants r p) (h' : ¬ c → Grants r' p) :
    Grants (if c then r else r') p := by
  split
  · exact h ‹c›
  · exact h' ‹¬ c›

theorem grants_lift {x : Except AssetError α} (h : ∀ a, x = .ok a → p a) : Grants (liftM x) p := by
  intro bytes a rest ha
  cases x with
  | error e => cases ha
  | ok b =>
    cases ha
    exact h a rfl

theorem Grants.run_eq (h : Grants r p) (hrun : r.run bytes = .ok a) : p a := by
  obtain ⟨rest, hr⟩ := run_eq_ok_iff.mp hrun
  exact h bytes a rest hr

theorem grants_manyFrom {item : Nat → Reader α} {p : Nat → α → Prop} (h : ∀ i, Grants (item i) (p i))
    (first count : Nat) : Grants (manyFrom item first count)
      fun l => l.length = count ∧ ∀ i a, l[i]? = some a → p (first + i) a := by
  induction count generalizing first with
  | zero => exact grants_pure ⟨rfl, by simp⟩
  | succ count ih =>
    refine (h first).bind fun a ha => (ih (first + 1)).bind fun l hl => ?_
    apply grants_pure
    refine ⟨congrArg (· + 1) hl.1, ?_⟩
    intro i b hb
    cases i with
    | zero =>
      cases hb
      exact ha
    | succ i =>
      have hrest := hl.2 i b hb
      rwa [Nat.add_assoc, Nat.add_comm 1] at hrest

theorem grants_many {item : Reader α} (h : Grants item p) (count : Nat) :
    Grants (many item count) fun l => l.length = count ∧ ∀ a ∈ l, p a := by
  intro bytes l rest hl
  obtain ⟨hlength, hall⟩ := grants_manyFrom (p := fun _ => p) (fun _ => h) 0 count bytes l rest hl
  refine ⟨hlength, ?_⟩
  intro a ha
  obtain ⟨i, hi⟩ := List.getElem?_of_mem ha
  exact hall i a hi

theorem grants_forM {f : α → Reader PUnit} (h : ∀ a, Grants (f a) fun _ => p a) (l : List α) :
    Grants (l.forM f) fun _ => ∀ a ∈ l, p a := by
  induction l with
  | nil => exact grants_pure (by simp)
  | cons a l ih =>
    refine (h a).bind fun _ ha => ?_
    intro bytes u rest hu
    exact List.forall_mem_cons.mpr ⟨ha, ih bytes u rest hu⟩

end Reader
end NovelEngine
