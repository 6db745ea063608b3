import NovelEngine.Bytes
import NovelEngine.Script.Defect

/-!
# Reading position in a script

A cursor holds the unread bytes, the position of the first of them and the size of the whole stream.
Operands are stored lowest byte first; opcodes are stored group byte first.
-/
namespace NovelEngine

structure Cursor where
  rest : Bytes
  pos : Nat
  size : Nat
  deriving DecidableEq, Inhabited

namespace Cursor

def ofBytes (bytes : Bytes) (pos : Nat) : Cursor := ⟨bytes.drop pos, pos, bytes.length⟩

def remaining (c : Cursor) : Nat := c.rest.length

/-- Takes the next `n` bytes, or fails and reads none. -/
def read (c : Cursor) (n : Nat) : Except Defect (Bytes × Cursor) :=
  match splitExact n c.rest with
  | some (chunk, rest) => .ok (chunk, ⟨rest, c.pos + n, c.size⟩)
  | none => .error (.outOfBounds c.pos n c.size)

/-- Takes a number of `width` bytes and converts it. -/
def number {α : Type} (c : Cursor) (width : Nat) (f : Nat → α) : Except Defect (α × Cursor) :=
  (c.read width).map fun r => (f (littleEndian r.1), r.2)

def u8 (c : Cursor) : Except Defect (UInt8 × Cursor) := c.number 1 UInt8.ofNat
def u16 (c : Cursor) : Except Defect (UInt16 × Cursor) := c.number 2 UInt16.ofNat
def u32 (c : Cursor) : Except Defect (UInt32 × Cursor) := c.number 4 UInt32.ofNat
def i8 (c : Cursor) : Except Defect (Int8 × Cursor) := c.number 1 Int8.ofNat
def i16 (c : Cursor) : Except Defect (Int16 × Cursor) := c.number 2 Int16.ofNat
def i32 (c : Cursor) : Except Defect (Int32 × Cursor) := c.number 4 Int32.ofNat

def opcode (c : Cursor) : Except Defect (UInt16 × Cursor) :=
  (c.read 2).map fun r => (UInt16.ofNat (littleEndian r.1.reverse), r.2)

theorem read_ok_iff {c c' : Cursor} {n : Nat} {chunk : Bytes} :
    c.read n = .ok (chunk, c') ↔
      chunk.length = n ∧ c.rest = chunk ++ c'.rest ∧ c'.pos = c.pos + n ∧ c'.size = c.size := by
  obtain ⟨rest', pos', size'⟩ := c'
  unfold read
  cases h : splitExact n c.rest with
  | none =>
    rw [splitExact_eq_none_iff] at h
    simp only [reduceCtorEq, false_iff]
    rintro ⟨hl, he, -⟩
    rw [he, List.length_append] at h
    omega
  | some r =>
    obtain ⟨xs, rest⟩ := r
    obtain ⟨hl, he⟩ := splitExact_eq_some_iff.mp h
    simp only [Except.ok.injEq, Prod.mk.injEq, Cursor.mk.injEq]
    constructor
    · rintro ⟨rfl, rfl, rfl, rfl⟩; exact ⟨hl, he, rfl, rfl⟩
    · rintro ⟨hl', he', rfl, rfl⟩
      obtain ⟨rfl, rfl⟩ := List.append_inj (he.symm.trans he') (hl.trans hl'.symm)
      exact ⟨rfl, rfl, rfl, rfl⟩

theorem length_rest_of_number {α : Type} {c c' : Cursor} {width : Nat} {f : Nat → α} {v : α}
    (h : c.number width f = .ok (v, c')) : c'.rest.length + width = c.rest.length := by
  cases hr : c.read width with
  | error e => rw [number, hr] at h; cases h
  | ok r =>
    rw [number, hr] at h
    cases h
    have := read_ok_iff.mp (show c.read width = .ok (r.1, r.2) from hr)
    rw [this.2.1, List.length_append]
    omega

end Cursor
end NovelEngine
