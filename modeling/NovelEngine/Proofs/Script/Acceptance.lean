import NovelEngine.Script.Container

/-!
# Which files are scripts

A file is accepted exactly if its header, its label table and its return table fit together. The label table has no
length of its own: the first label says where it ends, and the end bounds that label and all others. What is accepted is
read off entry by entry.
-/
namespace NovelEngine

theorem ite_error_eq_ok_iff {ε α : Type} {c : Prop} [Decidable c] {e : ε} {x : Except ε α} {a : α} :
    (if c then .error e else x) = .ok a ↔ ¬ c ∧ x = .ok a := by
  split <;> simp [*]

theorem dite_error_eq_ok_iff {ε α : Type} {c : Prop} [Decidable c] {e : ε} {x : ¬ c → Except ε α} {a : α} :
    (if h : c then .error e else x h) = .ok a ↔ ∃ h : ¬ c, x h = .ok a := by
  split <;> simp [*]

theorem littleEndian_take_lt (bs : Bytes) : littleEndian (bs.take 4) < 0x100000000 := by
  have hlt := littleEndian_lt (bs.take 4)
  have hlength : (bs.take 4).length ≤ 4 := List.length_take_le 4 bs
  have hspan : byteSpan (bs.take 4).length ≤ byteSpan 4 := by
    match (bs.take 4).length, hlength with
    | 0, _ | 1, _ | 2, _ | 3, _ | 4, _ => decide
  exact Nat.lt_of_lt_of_le hlt hspan

namespace Script

variable {id : UInt32} {bytes : Bytes} {s s' : Script} {offset count : Nat}

theorem eq_of_fields (hid : s.id = s'.id) (hbytes : s.bytes = s'.bytes) (hcode : s.code = s'.code)
    (hcodeEnd : s.codeEnd = s'.codeEnd) (hlabels : s.labels = s'.labels) (hreturns : s.returns = s'.returns) :
    s = s' := by
  have hsuffixes : s.suffixes = s'.suffixes := by
    rw [s.suffixes_code, s'.suffixes_code, hcode]
  cases s
  cases s'
  simp_all

/-- The words at an offset, four bytes apart. -/
def wordsAt (bytes : Bytes) (offset count : Nat) : List UInt32 :=
  (List.range count).map fun i => UInt32.ofNat (wordAt bytes (offset + 4 * i))

/-- Where a file says that its string table begins; its code ends there. -/
def stringTable (bytes : Bytes) : Nat := wordAt bytes 4

def returnTable (bytes : Bytes) : Nat := wordAt bytes 8

def firstLabel (bytes : Bytes) : Nat := wordAt bytes 12

/-- As many labels as have room in front of the place of the first, or none where not even one has room. -/
def labelEntries (bytes : Bytes) : Nat :=
  if stringTable bytes < 16 then 0 else (firstLabel bytes - 12) / 4

def returnEntries (bytes : Bytes) : Nat := (bytes.length - returnTable bytes) / 4

/-- A place between the label table and the string table, the ends included. -/
def InCode (bytes : Bytes) (pos : Nat) : Prop := 12 + 4 * labelEntries bytes ≤ pos ∧ pos ≤ stringTable bytes

/-- The tables of a file lie one behind the other, and every entry of them is a place in the code. -/
structure IsContainer (bytes : Bytes) : Prop where
  header : 12 ≤ bytes.length
  magic : bytes.take 4 = scriptMagic
  le_stringTable : 12 ≤ stringTable bytes
  le_returnTable : stringTable bytes ≤ returnTable bytes
  returnTable_le : returnTable bytes ≤ bytes.length
  whole : (bytes.length - returnTable bytes) % 4 = 0
  firstLabel : 16 ≤ stringTable bytes → 16 ≤ firstLabel bytes ∧ firstLabel bytes ≤ stringTable bytes
  labels : ∀ i < labelEntries bytes, InCode bytes (wordAt bytes (12 + 4 * i))
  returns : ∀ i < returnEntries bytes, InCode bytes (wordAt bytes (returnTable bytes + 4 * i))

structure ReadFrom (s : Script) (id : UInt32) (bytes : Bytes) : Prop where
  id_eq : s.id = id
  bytes_eq : s.bytes = bytes
  code_eq : s.code = bytes.take (stringTable bytes)
  codeEnd_eq : s.codeEnd = stringTable bytes
  labels_eq : s.labels = wordsAt bytes 12 (labelEntries bytes)
  returns_eq : s.returns = wordsAt bytes (returnTable bytes) (returnEntries bytes)

/-- The label table as the parser takes it, whether or not the labels are in the code. -/
def labelTable (bytes : Bytes) : List UInt32 :=
  words ((bytes.drop 12).take (4 * labelCount bytes (stringTable bytes)))

/-- A place that the parser takes for one in the code. -/
def PassesBounds (bytes : Bytes) (pos : Nat) : Prop :=
  12 + 4 * labelCount bytes (stringTable bytes) ≤ pos ∧ pos ≤ stringTable bytes

theorem parse_eq_ok_iff : parse id bytes = .ok s ↔
    (12 ≤ bytes.length ∧ bytes.take 4 = scriptMagic) ∧
    (12 ≤ stringTable bytes ∧ stringTable bytes ≤ bytes.length) ∧
    (stringTable bytes ≤ returnTable bytes ∧ returnTable bytes ≤ bytes.length) ∧
    (bytes.length - returnTable bytes) % 4 = 0 ∧
    (∀ l ∈ labelTable bytes, PassesBounds bytes l.toNat) ∧
    (∀ r ∈ words (bytes.drop (returnTable bytes)), PassesBounds bytes r.toNat) ∧
    s.id = id ∧ s.bytes = bytes ∧ s.code = bytes.take (stringTable bytes) ∧ s.codeEnd = stringTable bytes ∧
    s.labels = labelTable bytes ∧ s.returns = words (bytes.drop (returnTable bytes)) := by
  unfold parse
  dsimp only
  rw [ite_error_eq_ok_iff, dite_error_eq_ok_iff]
  simp only [ite_error_eq_ok_iff, not_or, Nat.not_lt, Decidable.not_not, List.any_eq_true, decide_eq_true_eq, not_exists,
    not_and, exists_and_left, ne_eq]
  constructor
  · rintro ⟨hmagic, hreturn, hpast, hbefore, hwhole, houtside, hend, h⟩
    cases h
    refine ⟨hmagic, hend, hreturn, hwhole, ?_, houtside, rfl, rfl, rfl, rfl, rfl, rfl⟩
    exact fun l hl => ⟨hbefore l hl, hpast l hl⟩
  · rintro ⟨hmagic, hend, hreturn, hwhole, hbounds, houtside, hid, hbytes, hcode, hcodeEnd, hlabels, hreturns⟩
    refine ⟨hmagic, hreturn, fun l hl => (hbounds l hl).2, fun l hl => (hbounds l hl).1, hwhole, houtside, hend, ?_⟩
    exact congrArg Except.ok
      (eq_of_fields hid.symm hbytes.symm hcode.symm hcodeEnd.symm hlabels.symm hreturns.symm)

theorem labelTable_le (bytes : Bytes) {n : Nat} (h : scriptHeaderSize ≤ n) :
    scriptHeaderSize + 4 * labelCount bytes n ≤ n := by
  unfold labelCount
  split
  · omega
  · dsimp only
    omega

@[simp] theorem length_wordsAt (bytes : Bytes) (offset count : Nat) : (wordsAt bytes offset count).length = count := by
  simp [wordsAt]

theorem wordsAt_succ (bytes : Bytes) (offset count : Nat) : wordsAt bytes offset (count + 1) =
    UInt32.ofNat (wordAt bytes offset) :: wordsAt bytes (offset + 4) count := by
  have hshift : ∀ i, offset + 4 * (i + 1) = offset + 4 + 4 * i := by
    intro i
    omega
  simp [wordsAt, List.range_succ_eq_map, Function.comp_def, hshift]

theorem words_take_drop (h : offset + 4 * count ≤ bytes.length) :
    words ((bytes.drop offset).take (4 * count)) = wordsAt bytes offset count := by
  induction count generalizing offset with
  | zero => rfl
  | succ count ih =>
    have hrest : words ((bytes.drop (offset + 4)).take (4 * count)) = wordsAt bytes (offset + 4) count :=
      ih (by omega)
    rw [← List.drop_drop] at hrest
    rw [wordsAt_succ, ← hrest, wordAt]
    have hlength : 4 ≤ (bytes.drop offset).length := by
      rw [List.length_drop]
      omega
    match bytes.drop offset, hlength with
    | a :: b :: c :: d :: rest, _ => simp [Nat.mul_succ, words]

theorem forall_mem_wordsAt_iff {p : Nat → Prop} :
    (∀ l ∈ wordsAt bytes offset count, p l.toNat) ↔ ∀ i < count, p (wordAt bytes (offset + 4 * i)) := by
  have hword : ∀ n, (UInt32.ofNat (wordAt bytes n)).toNat = wordAt bytes n := by
    intro n
    exact UInt32.toNat_ofNat_of_lt' (littleEndian_take_lt _)
  simp only [wordsAt, List.forall_mem_map, List.mem_range, hword]

theorem labelTable_eq (hheader : 12 ≤ stringTable bytes) (hlength : stringTable bytes ≤ bytes.length) :
    labelTable bytes = wordsAt bytes 12 (labelCount bytes (stringTable bytes)) := by
  have htable := labelTable_le bytes hheader
  exact words_take_drop (Nat.le_trans htable hlength)

theorem words_returns (hlength : returnTable bytes ≤ bytes.length)
    (hwhole : (bytes.length - returnTable bytes) % 4 = 0) :
    words (bytes.drop (returnTable bytes)) = wordsAt bytes (returnTable bytes) (returnEntries bytes) := by
  have hbytes : 4 * returnEntries bytes = bytes.length - returnTable bytes := by
    rw [returnEntries]
    omega
  rw [← words_take_drop (by omega), hbytes, ← List.length_drop, List.take_length]

theorem firstLabel_of_bounds (hroom : 16 ≤ stringTable bytes)
    (h : ∀ i < labelCount bytes (stringTable bytes), PassesBounds bytes (wordAt bytes (12 + 4 * i))) :
    16 ≤ firstLabel bytes ∧ firstLabel bytes ≤ stringTable bytes := by
  have hcount : 1 ≤ labelCount bytes (stringTable bytes) := by
    have hnot : ¬ stringTable bytes < scriptHeaderSize + 4 := Nat.not_lt_of_le hroom
    rw [labelCount, if_neg hnot]
    exact Nat.le_max_left _ _
  obtain ⟨hstart, hend⟩ : _ ≤ firstLabel bytes ∧ firstLabel bytes ≤ _ := h 0 hcount
  exact ⟨by omega, hend⟩

/-- The label table is taken to end where a first label in its place says. -/
theorem labelCount_eq (h : 16 ≤ stringTable bytes → 16 ≤ firstLabel bytes ∧ firstLabel bytes ≤ stringTable bytes) :
    labelCount bytes (stringTable bytes) = labelEntries bytes := by
  unfold labelCount labelEntries
  by_cases hroom : stringTable bytes < 16
  · rw [if_pos hroom, if_pos (show stringTable bytes < scriptHeaderSize + 4 from hroom)]
  · rw [if_neg hroom, if_neg (show ¬ stringTable bytes < scriptHeaderSize + 4 from hroom)]
    have hfirst := h (by omega)
    show max 1 ((min (firstLabel bytes) (stringTable bytes) - 12) / 4) = _
    omega

theorem passesBounds_eq (h : 16 ≤ stringTable bytes → 16 ≤ firstLabel bytes ∧ firstLabel bytes ≤ stringTable bytes) :
    PassesBounds bytes = InCode bytes := by
  unfold PassesBounds InCode
  rw [labelCount_eq h]

theorem parse_eq_ok_iff_readFrom : parse id bytes = .ok s ↔ IsContainer bytes ∧ s.ReadFrom id bytes := by
  rw [parse_eq_ok_iff]
  constructor
  · rintro ⟨hmagic, hend, hreturn, hwhole, hbounds, houtside, hid, hbytes, hcode, hcodeEnd, hlabels, hreturns⟩
    rw [labelTable_eq hend.1 hend.2] at hbounds hlabels
    rw [words_returns hreturn.2 hwhole] at houtside hreturns
    have hbounds := (forall_mem_wordsAt_iff (p := PassesBounds bytes)).mp hbounds
    have houtside := (forall_mem_wordsAt_iff (p := PassesBounds bytes)).mp houtside
    have hfirst : 16 ≤ stringTable bytes → 16 ≤ firstLabel bytes ∧ firstLabel bytes ≤ stringTable bytes :=
      fun hroom => firstLabel_of_bounds hroom hbounds
    rw [labelCount_eq hfirst] at hbounds hlabels
    rw [passesBounds_eq hfirst] at hbounds houtside
    exact ⟨⟨hmagic.1, hmagic.2, hend.1, hreturn.1, hreturn.2, hwhole, hfirst, hbounds, houtside⟩,
      ⟨hid, hbytes, hcode, hcodeEnd, hlabels, hreturns⟩⟩
  · rintro ⟨h, hread⟩
    have hend := Nat.le_trans h.le_returnTable h.returnTable_le
    have hlabels := labelTable_eq h.le_stringTable hend
    rw [labelCount_eq h.firstLabel] at hlabels
    rw [hlabels, words_returns h.returnTable_le h.whole, passesBounds_eq h.firstLabel]
    refine ⟨⟨h.header, h.magic⟩, ⟨h.le_stringTable, hend⟩, ⟨h.le_returnTable, h.returnTable_le⟩, h.whole, ?_, ?_, ?_⟩
    · exact forall_mem_wordsAt_iff.mpr h.labels
    · exact forall_mem_wordsAt_iff.mpr h.returns
    · exact ⟨hread.id_eq, hread.bytes_eq, hread.code_eq, hread.codeEnd_eq, hread.labels_eq, hread.returns_eq⟩

theorem IsContainer.exists_readFrom (h : IsContainer bytes) (id : UInt32) : ∃ s : Script, s.ReadFrom id bytes := by
  have hlength : (bytes.take (stringTable bytes)).length = stringTable bytes :=
    List.length_take_of_le (Nat.le_trans h.le_returnTable h.returnTable_le)
  exact ⟨⟨id, bytes, _, _, _, _, _, hlength, rfl⟩, rfl, rfl, rfl, rfl, rfl, rfl⟩

/-- A file is accepted exactly if its tables fit together, and then it is read as what it says. -/
theorem parse_accepts (id : UInt32) (bytes : Bytes) : ((∃ s, parse id bytes = .ok s) ↔ IsContainer bytes) ∧
    ∀ s, parse id bytes = .ok s ↔ IsContainer bytes ∧ s.ReadFrom id bytes := by
  refine ⟨⟨?_, ?_⟩, fun s => parse_eq_ok_iff_readFrom⟩
  · rintro ⟨s, hs⟩
    exact (parse_eq_ok_iff_readFrom.mp hs).1
  · intro h
    obtain ⟨s, hs⟩ := h.exists_readFrom id
    exact ⟨s, parse_eq_ok_iff_readFrom.mpr ⟨h, hs⟩⟩

/-- The first label need not be aligned: it ends the table at the last whole entry before it. -/
example : (parse 7 (scriptMagic ++ wordBytes 23 ++ wordBytes 23 ++ wordBytes 23 ++ wordBytes 21 ++ [1, 2, 3] ++
    wordBytes 20)).toOption.map (fun s => (s.codeEnd, s.labels, s.returns)) = some (23, [23, 21], [20]) := by
  decide +kernel

end Script
end NovelEngine
