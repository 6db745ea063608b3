import NovelEngine.Proofs.Script.Acceptance

/-!
# Reading a script that was laid out

A script is laid out from the number of its labels and read from the place of the first one. The two agree on where the
code starts if the first label points into the first word of the code. If it points further on, the words of the code
before that place are taken for labels: the file is refused for one of them, or the script has labels that it was not
given.
-/
namespace NovelEngine.Script

variable {id : UInt32} {code : Bytes} {labels returns table back : List UInt32} {s : Script}

/-- A file whose return table stands right behind the code. The entries of both tables are offsets into the file. -/
def layOut (table : List UInt32) (code : Bytes) (back : List UInt32) : Bytes :=
  let ends := wordBytes (UInt32.ofNat (12 + 4 * table.length + code.length))
  scriptMagic ++ (ends ++ (ends ++ (table.flatMap wordBytes ++ (code ++ back.flatMap wordBytes))))

theorem length_layOut (table : List UInt32) (code : Bytes) (back : List UInt32) : (layOut table code back).length =
    12 + 4 * table.length + code.length + 4 * back.length := by
  have hmagic : scriptMagic.length = 4 := rfl
  simp only [layOut, List.length_append, length_wordBytes, length_flatMap_wordBytes, hmagic]
  omega

theorem wordAt_append (pre : Bytes) (w : UInt32) (rest : Bytes) :
    wordAt (pre ++ (wordBytes w ++ rest)) pre.length = w.toNat := by
  have hword : (wordBytes w ++ rest).take 4 = wordBytes w := List.take_left' (length_wordBytes w)
  rw [wordAt, List.drop_left, hword, littleEndian_wordBytes]

theorem take_layOut : (layOut table code back).take 4 = scriptMagic := by
  simp [layOut, scriptMagic]

theorem stringTable_layOut (hsize : (layOut table code back).length < 0x100000000) :
    stringTable (layOut table code back) = 12 + 4 * table.length + code.length := by
  have hword := wordAt_append scriptMagic (UInt32.ofNat (12 + 4 * table.length + code.length))
    (wordBytes (UInt32.ofNat (12 + 4 * table.length + code.length)) ++
      (table.flatMap wordBytes ++ (code ++ back.flatMap wordBytes)))
  rw [length_layOut] at hsize
  have hlt : 12 + 4 * table.length + code.length < 0x100000000 := by omega
  rw [UInt32.toNat_ofNat_of_lt' hlt] at hword
  exact hword

theorem returnTable_layOut (hsize : (layOut table code back).length < 0x100000000) :
    returnTable (layOut table code back) = 12 + 4 * table.length + code.length := by
  have hword := wordAt_append (scriptMagic ++ wordBytes (UInt32.ofNat (12 + 4 * table.length + code.length)))
    (UInt32.ofNat (12 + 4 * table.length + code.length)) (table.flatMap wordBytes ++ (code ++ back.flatMap wordBytes))
  rw [length_layOut] at hsize
  have hlt : 12 + 4 * table.length + code.length < 0x100000000 := by omega
  rw [UInt32.toNat_ofNat_of_lt' hlt, List.append_assoc] at hword
  exact hword

theorem drop_layOut : (layOut table code back).drop 12 =
    table.flatMap wordBytes ++ (code ++ back.flatMap wordBytes) := by
  have hfront (w : UInt32) (rest : Bytes) : (scriptMagic ++ (wordBytes w ++ (wordBytes w ++ rest))).drop 12 = rest := by
    rw [← List.append_assoc, ← List.append_assoc]
    exact List.drop_left' (by simp [scriptMagic])
  exact hfront _ _

theorem firstLabel_layOut {first : UInt32} (h : table.head? = some first) :
    firstLabel (layOut table code back) = first.toNat := by
  obtain ⟨more, rfl⟩ : ∃ more, table = first :: more := by
    cases table with
    | nil => cases h
    | cons l more =>
      cases h
      exact ⟨more, rfl⟩
  have hword := wordAt_append [] first (more.flatMap wordBytes ++ (code ++ back.flatMap wordBytes))
  rw [firstLabel, wordAt, drop_layOut, List.flatMap_cons, List.append_assoc]
  exact hword

theorem words_layOut {more : Nat} (h : 4 * more ≤ code.length) :
    words (((layOut table code back).drop 12).take (4 * (table.length + more))) =
      table ++ words (code.take (4 * more)) := by
  have hlength : 4 * (table.length + more) = (table.flatMap wordBytes).length + 4 * more := by
    rw [length_flatMap_wordBytes]
    omega
  rw [drop_layOut, hlength, List.take_length_add_append, List.take_append_of_le_length h, words_flatMap_append]

theorem words_returns_layOut (hsize : (layOut table code back).length < 0x100000000) :
    words ((layOut table code back).drop (returnTable (layOut table code back))) = back := by
  have hfront : 4 * table.length + code.length = (table.flatMap wordBytes ++ code).length := by
    rw [List.length_append, length_flatMap_wordBytes]
  have hback : words (back.flatMap wordBytes) = back := by
    simpa using words_flatMap_append back []
  rw [returnTable_layOut hsize, Nat.add_assoc, ← List.drop_drop, drop_layOut, ← List.append_assoc, hfront,
    List.drop_left, hback]

/-- What is read, where the first label has `more` whole words of the code before it. -/
theorem parse_layOut_iff (id : UInt32) (s : Script) {first : UInt32} (more : Nat) (hfirst : table.head? = some first)
    (hroom : 12 + 4 * (table.length + more) ≤ first.toNat) (hmore : first.toNat < 16 + 4 * (table.length + more))
    (hend : first.toNat ≤ 12 + 4 * table.length + code.length)
    (hsize : (layOut table code back).length < 0x100000000) :
    parse id (layOut table code back) = .ok s ↔
      (∀ l ∈ table ++ words (code.take (4 * more)) ++ back,
        12 + 4 * (table.length + more) ≤ l.toNat ∧ l.toNat ≤ 12 + 4 * table.length + code.length) ∧
      s.id = id ∧ s.bytes = layOut table code back ∧
      s.code = (layOut table code back).take (12 + 4 * table.length + code.length) ∧
      s.codeEnd = 12 + 4 * table.length + code.length ∧ s.labels = table ++ words (code.take (4 * more)) ∧
      s.returns = back := by
  have hlength : 0 < table.length := by
    cases table with
    | nil => cases hfirst
    | cons l rest => simp
  have hstring := stringTable_layOut hsize
  have hreturn := returnTable_layOut hsize
  have hall := length_layOut table code back
  have hcount : labelCount (layOut table code back) (stringTable (layOut table code back)) = table.length + more := by
    rw [labelCount_eq, labelEntries, firstLabel_layOut hfirst, hstring, if_neg (by omega)]
    · omega
    · rw [firstLabel_layOut hfirst, hstring]
      omega
  have hlabels : labelTable (layOut table code back) = table ++ words (code.take (4 * more)) := by
    rw [labelTable, hcount, words_layOut (by omega)]
  have hbounds (pos : Nat) : PassesBounds (layOut table code back) pos ↔
      12 + 4 * (table.length + more) ≤ pos ∧ pos ≤ 12 + 4 * table.length + code.length := by
    rw [PassesBounds, hcount, hstring]
  rw [parse_eq_ok_iff, words_returns_layOut hsize, hlabels, hstring, hreturn]
  simp only [hbounds]
  constructor
  · rintro ⟨-, -, -, -, htable, hback, hread⟩
    exact ⟨List.forall_mem_append.mpr ⟨htable, hback⟩, hread⟩
  · rintro ⟨hplaces, hread⟩
    obtain ⟨htable, hback⟩ := List.forall_mem_append.mp hplaces
    exact ⟨⟨by omega, take_layOut⟩, ⟨by omega, by omega⟩, ⟨by omega, by omega⟩, by omega, htable, hback, hread⟩

/-- Without labels there is one at the start of the code. -/
def entries (labels : List UInt32) : List UInt32 := if labels.isEmpty then [0] else labels

/-- How many whole words of the code stand before the first label. -/
def wordsBefore (labels : List UInt32) : Nat := (labels.headD 0).toNat / 4

theorem head?_entries (labels : List UInt32) : (entries labels).head? = some (labels.headD 0) := by
  cases labels <;> rfl

theorem labels_build : (build id code labels returns).labels =
    (entries labels).map (UInt32.ofNat (12 + 4 * (entries labels).length) + ·) := rfl

@[simp] theorem length_labels_build : (build id code labels returns).labels.length = (entries labels).length := by
  rw [labels_build, List.length_map]

theorem codeEnd_build : (build id code labels returns).codeEnd = 12 + 4 * (entries labels).length + code.length := rfl

theorem bytes_build : (build id code labels returns).bytes =
    layOut (build id code labels returns).labels code (build id code labels returns).returns := by
  simp only [layOut, length_labels_build]
  simp only [build, entries, List.append_assoc, scriptHeaderSize]

theorem code_build : (build id code labels returns).code =
    (build id code labels returns).bytes.take (build id code labels returns).codeEnd := by
  have hlength := (build id code labels returns).length_code
  exact (List.take_left' hlength).symm

theorem toNat_place {start : Nat} {offset : UInt32} (hoffset : offset.toNat ≤ code.length)
    (hsize : start + code.length < 0x100000000) : (UInt32.ofNat start + offset).toNat = start + offset.toNat := by
  have hstart : start < 0x100000000 := by omega
  rw [UInt32.toNat_add, UInt32.toNat_ofNat_of_lt' hstart]
  omega

theorem bounds_place {start : Nat} {offsets : List UInt32} (h : ∀ o ∈ offsets, o.toNat ≤ code.length)
    (hsize : start + code.length < 0x100000000) :
    ∀ l ∈ offsets.map (UInt32.ofNat start + ·), start ≤ l.toNat ∧ l.toNat ≤ start + code.length := by
  intro l hl
  obtain ⟨offset, hoffset, rfl⟩ := List.mem_map.mp hl
  rw [toNat_place (h offset hoffset) hsize]
  have hle := h offset hoffset
  omega

theorem entries_le (h : ∀ l ∈ labels, l.toNat ≤ code.length) : ∀ l ∈ entries labels, l.toNat ≤ code.length := by
  cases labels with
  | nil => simp [entries]
  | cons first rest => exact h

/-- The script has the tables and the code range of another. -/
structure Matches (s b : Script) : Prop where
  id_eq : s.id = b.id
  codeEnd_eq : s.codeEnd = b.codeEnd
  labels_eq : s.labels = b.labels
  returns_eq : s.returns = b.returns

theorem toNat_headD_le (hlabels : ∀ l ∈ labels, l.toNat ≤ code.length) : (labels.headD 0).toNat ≤ code.length := by
  cases labels with
  | nil => simp
  | cons first rest => exact hlabels first List.mem_cons_self

theorem parse_build_iff (hlabels : ∀ l ∈ labels, l.toNat ≤ code.length)
    (hsize : (build id code labels returns).bytes.length < 0x100000000) :
    parse id (build id code labels returns).bytes = .ok s ↔
      (∀ l ∈ (build id code labels returns).labels ++ words (code.take (4 * wordsBefore labels)) ++
          (build id code labels returns).returns,
        12 + 4 * ((entries labels).length + wordsBefore labels) ≤ l.toNat ∧
          l.toNat ≤ (build id code labels returns).codeEnd) ∧
      s.id = id ∧ s.bytes = (build id code labels returns).bytes ∧ s.code = (build id code labels returns).code ∧
      s.codeEnd = (build id code labels returns).codeEnd ∧
      s.labels = (build id code labels returns).labels ++ words (code.take (4 * wordsBefore labels)) ∧
      s.returns = (build id code labels returns).returns := by
  have hhead := toNat_headD_le hlabels
  have hfirst : (build id code labels returns).labels.head? =
      some (UInt32.ofNat (12 + 4 * (entries labels).length) + labels.headD 0) := by
    rw [labels_build, List.head?_map, head?_entries]
    rfl
  rw [code_build, codeEnd_build]
  rw [bytes_build] at hsize ⊢
  have hlength := length_layOut (build id code labels returns).labels code (build id code labels returns).returns
  rw [length_labels_build] at hlength
  have hplace : (UInt32.ofNat (12 + 4 * (entries labels).length) + labels.headD 0).toNat =
      12 + 4 * (entries labels).length + (labels.headD 0).toNat := toNat_place hhead (by omega)
  have hparse := parse_layOut_iff id s (wordsBefore labels) hfirst
    (by rw [hplace, length_labels_build, wordsBefore]; omega)
    (by rw [hplace, length_labels_build, wordsBefore]; omega)
    (by rw [hplace, length_labels_build]; omega) hsize
  rw [length_labels_build] at hparse
  exact hparse

theorem length_words_before (hlabels : ∀ l ∈ labels, l.toNat ≤ code.length) :
    (words (code.take (4 * wordsBefore labels))).length = wordsBefore labels := by
  have hhead := toNat_headD_le hlabels
  have hroom : 4 * wordsBefore labels ≤ code.length := by
    rw [wordsBefore]
    omega
  rw [length_words, List.length_take_of_le hroom]
  omega

/-- With no whole word of the code before the first label a script is read back as it was laid out. -/
theorem parse_build_of_wordsBefore (hlabels : ∀ l ∈ labels, l.toNat ≤ code.length)
    (hreturns : ∀ r ∈ returns, r.toNat ≤ code.length)
    (hsize : (build id code labels returns).bytes.length < 0x100000000) (hnone : wordsBefore labels = 0) :
    parse id (build id code labels returns).bytes = .ok (build id code labels returns) := by
  have hfile := length_layOut (build id code labels returns).labels code (build id code labels returns).returns
  rw [← bytes_build, length_labels_build] at hfile
  have hend : 12 + 4 * (entries labels).length + code.length < 0x100000000 := by omega
  have htable := bounds_place (entries_le hlabels) hend
  have hback := bounds_place hreturns hend
  rw [parse_build_iff hlabels hsize, hnone, Nat.mul_zero, List.take_zero, words_nil, List.append_nil,
    Nat.add_zero]
  exact ⟨List.forall_mem_append.mpr ⟨htable, hback⟩, rfl, rfl, rfl, rfl, rfl, rfl⟩

/-- A script that was laid out is read back exactly if its first label points into the first word of the code. With a
label further on the words before that place are read for labels, unless one of them makes the file be refused. -/
theorem parse_build (hlabels : ∀ l ∈ labels, l.toNat ≤ code.length) (hreturns : ∀ r ∈ returns, r.toNat ≤ code.length)
    (hsize : (build id code labels returns).bytes.length < 0x100000000) :
    ((∃ s, parse id (build id code labels returns).bytes = .ok s ∧ s.Matches (build id code labels returns)) ↔
      labels = [] ∨ ∃ first ∈ labels.head?, first.toNat < 4) ∧
    ∀ first ∈ labels.head?, 4 ≤ first.toNat → ∀ s, parse id (build id code labels returns).bytes = .ok s →
      s.labels = (build id code labels returns).labels ++ words (code.take (4 * (first.toNat / 4))) ∧
      (build id code labels returns).labels.length < s.labels.length := by
  have hcount := length_words_before hlabels
  constructor
  · constructor
    · rintro ⟨s, hparse, hmatches⟩
      obtain ⟨-, -, -, -, -, htable, -⟩ := (parse_build_iff hlabels hsize).mp hparse
      rw [hmatches.labels_eq] at htable
      have hnone : wordsBefore labels = 0 := by
        rw [← hcount, List.self_eq_append_right.mp htable, List.length_nil]
      cases labels with
      | nil => exact .inl rfl
      | cons first rest =>
        have hlow : first.toNat / 4 = 0 := hnone
        exact .inr ⟨first, rfl, by omega⟩
    · intro hlow
      have hnone : wordsBefore labels = 0 := by
        cases labels with
        | nil => rfl
        | cons l rest =>
          have hlt : l.toNat < 4 := by simpa using hlow
          exact Nat.div_eq_of_lt hlt
      exact ⟨_, parse_build_of_wordsBefore hlabels hreturns hsize hnone, rfl, rfl, rfl, rfl⟩
  · intro first hfirst hle s hparse
    obtain ⟨-, -, -, -, -, htable, -⟩ := (parse_build_iff hlabels hsize).mp hparse
    have hbefore : wordsBefore labels = first.toNat / 4 := by
      rw [wordsBefore, List.headD_eq_head?_getD, Option.mem_def.mp hfirst, Option.getD_some]
    have hlength := congrArg List.length htable
    rw [List.length_append, hcount] at hlength
    rw [hbefore] at htable hlength
    exact ⟨htable, by omega⟩

/-- Code whose first word names the end of a file with two labels. -/
def wordy : Bytes := [28, 0, 0, 0, 1, 2, 3, 4]

theorem parse_build_wordy :
    (∃ s, parse 3 (build 3 wordy [3, 8] [5]).bytes = .ok s ∧ s.Matches (build 3 wordy [3, 8] [5])) ∧
    (¬ ∃ s, parse 3 (build 3 wordy [4, 8] [5]).bytes = .ok s ∧ s.Matches (build 3 wordy [4, 8] [5])) ∧
    ∃ s, parse 3 (build 3 wordy [4, 8] [5]).bytes = .ok s ∧ s.labels = [24, 28, 28] := by
  have hlow : ∀ l ∈ ([3, 8] : List UInt32), l.toNat ≤ wordy.length := by simp [wordy]
  have hhigh : ∀ l ∈ ([4, 8] : List UInt32), l.toNat ≤ wordy.length := by simp [wordy]
  have hreturns : ∀ r ∈ ([5] : List UInt32), r.toNat ≤ wordy.length := by simp [wordy]
  refine ⟨(parse_build hlow hreturns (by decide)).1.mpr (by decide), ?_, ?_⟩
  · intro h
    have hfirst := (parse_build hhigh hreturns (by decide)).1.mp h
    revert hfirst
    decide
  · have haccepted : (parse 3 (build 3 wordy [4, 8] [5]).bytes).toOption.isSome := by decide +kernel
    cases hparse : parse 3 (build 3 wordy [4, 8] [5]).bytes with
    | error e =>
      rw [hparse] at haccepted
      cases haccepted
    | ok s =>
      have hread := (parse_build hhigh hreturns (by decide)).2 4 rfl (by decide) s hparse
      exact ⟨s, rfl, hread.1.trans (by decide)⟩

end NovelEngine.Script
