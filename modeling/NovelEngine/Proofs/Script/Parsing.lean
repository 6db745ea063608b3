import NovelEngine.Proofs.Expression.Evaluation
import NovelEngine.Proofs.Script.Acceptance

/-!
# Positions in parsed scripts

A position is in the code of a script if it is behind the label table and not past the end. In a parsed script all
labels and return addresses are, and reading on from a position in the code leads to one.
-/
namespace NovelEngine

namespace Script

variable {s : Script} {id : UInt32} {bytes : Bytes} {pos : Nat}

/-- Where the code starts: behind the header and the label table. -/
def codeStart (s : Script) : Nat := scriptHeaderSize + 4 * s.labels.length

/-- A position of the code, or its end. -/
def Holds (s : Script) (pos : Nat) : Prop := s.codeStart ≤ pos ∧ pos ≤ s.codeEnd

/-- The script was accepted by the parser. -/
def Parsed (s : Script) : Prop := ∃ id bytes, parse id bytes = .ok s

structure Sound (s : Script) : Prop where
  labels : ∀ l ∈ s.labels, s.Holds l.toNat
  returns : ∀ r ∈ s.returns, s.Holds r.toNat
  code_eq : s.code = s.bytes.take s.codeEnd
  codeEnd_lt : s.codeEnd < 0x100000000

theorem sound_of_parse (h : parse id bytes = .ok s) : s.Sound := by
  obtain ⟨hfile, hread⟩ := parse_eq_ok_iff_readFrom.mp h
  have hcount : s.labels.length = labelEntries bytes := by
    rw [hread.labels_eq, length_wordsAt]
  have hholds (pos : Nat) (hpos : InCode bytes pos) : s.Holds pos := by
    rw [Holds, codeStart, hcount, hread.codeEnd_eq]
    exact hpos
  refine ⟨?_, ?_, ?_, ?_⟩
  · intro l hl
    rw [hread.labels_eq] at hl
    exact hholds _ (forall_mem_wordsAt_iff.mpr hfile.labels l hl)
  · intro r hr
    rw [hread.returns_eq] at hr
    exact hholds _ (forall_mem_wordsAt_iff.mpr hfile.returns r hr)
  · rw [hread.bytes_eq, hread.codeEnd_eq]
    exact hread.code_eq
  · rw [hread.codeEnd_eq]
    exact littleEndian_take_lt _

theorem Parsed.sound (h : s.Parsed) : s.Sound := by
  obtain ⟨id, bytes, h⟩ := h
  exact sound_of_parse h

theorem Sound.holds_label {index : Int32} (h : s.Sound) (hpos : s.label index = .ok pos) : s.Holds pos := by
  unfold label at hpos
  split at hpos
  · rename_i offset hoffset
    cases hpos
    split at hoffset
    · cases hoffset
    · exact h.labels offset (List.mem_of_getElem? hoffset)
  · cases hpos

theorem Sound.holds_returnAddress {number : UInt16} (h : s.Sound) (hpos : s.returnAddress number = .ok pos) :
    s.Holds pos := by
  unfold returnAddress at hpos
  split at hpos
  · rename_i offset hoffset
    cases hpos
    exact h.returns offset (List.mem_of_getElem? hoffset)
  · cases hpos

theorem Sound.toNat_ofNat (h : s.Sound) (hpos : s.Holds pos) : (UInt32.ofNat pos).toNat = pos :=
  UInt32.toNat_ofNat_of_lt' (Nat.lt_of_le_of_lt hpos.2 h.codeEnd_lt)

theorem Holds.of_passes {chunk : Bytes} {c : Cursor} (hpos : s.Holds pos)
    (h : (⟨s.codeFrom pos, pos, s.codeEnd⟩ : Cursor).Passes chunk c) : s.Holds c.pos := by
  have hrest : s.codeFrom pos = chunk ++ c.rest := h.rest_eq
  have hnew : c.pos = pos + chunk.length := h.pos_eq
  have hlength := congrArg List.length hrest
  rw [codeFrom_eq_drop, List.length_drop, s.length_code, List.length_append] at hlength
  obtain ⟨hstart, hend⟩ := hpos
  exact ⟨by omega, by omega⟩

end Script

/-- What an evaluation reads is a tree and its closing byte, and it comes to what the tree denotes. -/
theorem exists_denote_of_evaluate {c c' : Cursor} {scope : Scope} {value : Int32}
    (h : (evaluate c scope).1 = .ok (value, c')) :
    ∃ e : Expr, c.Passes (e.encode ++ [0]) c' ∧ e.denote scope = (value, (evaluate c scope).2) := by
  have hstart : Built c scope [] c [] scope := ⟨.refl _, by simp, trivial, rfl⟩
  obtain ⟨e, c₁, he, hclose⟩ := hstart.exists_of_evaluateFrom (Prod.ext h rfl)
  have hdenote := he.denote
  simp only [Expr.denoteAll, Prod.mk.injEq, List.cons.injEq, and_true] at hdenote
  exact ⟨e, he.passes.append hclose, Prod.ext hdenote.1 hdenote.2⟩

theorem exists_passes_of_evaluate {c c' : Cursor} {scope : Scope} {value : Int32}
    (h : (evaluate c scope).1 = .ok (value, c')) : ∃ chunk, c.Passes chunk c' := by
  obtain ⟨e, hpasses, -⟩ := exists_denote_of_evaluate h
  exact ⟨_, hpasses⟩

theorem exists_passes_of_opcode {c c' : Cursor} {opcode : UInt16} (h : c.opcode = .ok (opcode, c')) :
    ∃ chunk, chunk.length = 2 ∧ c.Passes chunk c' := by
  unfold Cursor.opcode at h
  cases hread : c.read 2 with
  | error e =>
    rw [hread] at h
    cases h
  | ok r =>
    obtain ⟨chunk, rest⟩ := r
    rw [hread] at h
    cases h
    obtain ⟨hlength, hrest, hpos, hsize⟩ := Cursor.read_ok_iff.mp hread
    exact ⟨chunk, hlength, hrest, by rw [hpos, hlength], hsize⟩

end NovelEngine
