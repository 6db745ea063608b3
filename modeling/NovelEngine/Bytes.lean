/-! # Byte strings and little-endian numbers -/
namespace NovelEngine

abbrev Bytes := List UInt8

/-- The number that a byte string spells, lowest byte first. -/
def littleEndian : Bytes → Nat
  | [] => 0
  | b :: bs => b.toNat + 256 * littleEndian bs

/-- The lowest `width` base-256 digits of a number, lowest first. -/
def toLittleEndian : Nat → Nat → Bytes
  | 0, _ => []
  | width + 1, n => UInt8.ofNat n :: toLittleEndian width (n / 256)

/-- How many numbers `width` bytes can spell. -/
def byteSpan : Nat → Nat
  | 0 => 1
  | width + 1 => 256 * byteSpan width

/-- The first `n` bytes and what follows them; `none` when fewer are left. -/
def splitExact : Nat → Bytes → Option (Bytes × Bytes)
  | 0, bs => some ([], bs)
  | _ + 1, [] => none
  | n + 1, b :: bs => (splitExact n bs).map fun r => (b :: r.1, r.2)

/-- A byte string, what it has behind its first byte, behind its first two, and so on. -/
def suffixes : Bytes → List Bytes
  | [] => [[]]
  | b :: bs => (b :: bs) :: suffixes bs

/-- The consecutive 32-bit words of a byte string; an incomplete last word is dropped. -/
def words : Bytes → List UInt32
  | a :: b :: c :: d :: rest => UInt32.ofNat (littleEndian [a, b, c, d]) :: words rest
  | _ => []

def wordBytes (w : UInt32) : Bytes := toLittleEndian 4 w.toNat

@[simp] theorem length_toLittleEndian (width n : Nat) :
    (toLittleEndian width n).length = width := by
  induction width generalizing n with
  | zero => rfl
  | succ width ih => simp [toLittleEndian, ih]

theorem littleEndian_toLittleEndian (width n : Nat) :
    littleEndian (toLittleEndian width n) = n % byteSpan width := by
  induction width generalizing n with
  | zero => simp [toLittleEndian, littleEndian, byteSpan, Nat.mod_one]
  | succ width ih =>
    have h8 : (UInt8.ofNat n).toNat = n % 256 := by simp
    rw [toLittleEndian, littleEndian, byteSpan, ih, h8, Nat.mod_mul]

theorem toLittleEndian_littleEndian (bs : Bytes) :
    toLittleEndian bs.length (littleEndian bs) = bs := by
  induction bs with
  | nil => rfl
  | cons b bs ih =>
    have hb : b.toNat < 256 := b.toNat_lt
    have hd : (b.toNat + 256 * littleEndian bs) / 256 = littleEndian bs := by omega
    have hm : UInt8.ofNat (b.toNat + 256 * littleEndian bs) = b := by
      apply UInt8.toNat_inj.mp
      simp
    simp only [List.length_cons, littleEndian, toLittleEndian, hd, hm, ih]

@[simp] theorem length_wordBytes (w : UInt32) : (wordBytes w).length = 4 :=
  length_toLittleEndian 4 w.toNat

theorem littleEndian_wordBytes (w : UInt32) : littleEndian (wordBytes w) = w.toNat := by
  have hspan : w.toNat % byteSpan 4 = w.toNat := Nat.mod_eq_of_lt w.toNat_lt
  rw [wordBytes, littleEndian_toLittleEndian, hspan]

theorem length_flatMap_wordBytes (ws : List UInt32) : (ws.flatMap wordBytes).length = 4 * ws.length := by
  induction ws with
  | nil => rfl
  | cons w ws ih =>
    simp only [List.flatMap_cons, List.length_append, length_wordBytes, ih, List.length_cons]
    omega

theorem littleEndian_lt (bs : Bytes) : littleEndian bs < byteSpan bs.length := by
  induction bs with
  | nil => simp [littleEndian, byteSpan]
  | cons b bs ih =>
    have hb : b.toNat < 256 := b.toNat_lt
    rw [littleEndian, List.length_cons, byteSpan]
    omega

@[simp] theorem words_nil : words [] = [] := rfl

theorem words_wordBytes_append (w : UInt32) (rest : Bytes) : words (wordBytes w ++ rest) = w :: words rest := by
  have hvalue := littleEndian_wordBytes w
  simp only [wordBytes, toLittleEndian, List.cons_append, List.nil_append, words] at hvalue ⊢
  rw [hvalue, UInt32.ofNat_toNat]

theorem words_flatMap_append (ws : List UInt32) (rest : Bytes) :
    words (ws.flatMap wordBytes ++ rest) = ws ++ words rest := by
  induction ws with
  | nil => rfl
  | cons w ws ih => rw [List.flatMap_cons, List.append_assoc, words_wordBytes_append, ih, List.cons_append]

theorem length_words (bs : Bytes) : (words bs).length = bs.length / 4 := by
  fun_induction words bs with
  | case1 a b c d rest ih =>
    simp only [List.length_cons, ih]
    omega
  | case2 bs hshort =>
    match bs, hshort with
    | [], _ | [_], _ | [_, _], _ | [_, _, _], _ => simp
    | a :: b :: c :: d :: rest, hshort => exact absurd rfl (hshort a b c d rest)

theorem getD_suffixes (bs : Bytes) (n : Nat) : (suffixes bs).getD n [] = bs.drop n := by
  induction bs generalizing n with
  | nil => cases n <;> simp [suffixes]
  | cons b bs ih =>
    cases n with
    | zero => rfl
    | succ n => simpa [suffixes] using ih n

theorem splitExact_eq_some_iff {n : Nat} {bs xs rest : Bytes} :
    splitExact n bs = some (xs, rest) ↔ xs.length = n ∧ bs = xs ++ rest := by
  induction n generalizing bs xs with
  | zero =>
    simp only [splitExact, Option.some.injEq, Prod.mk.injEq, List.length_eq_zero_iff]
    constructor
    · rintro ⟨rfl, rfl⟩; exact ⟨rfl, rfl⟩
    · rintro ⟨rfl, h⟩; exact ⟨rfl, h⟩
  | succ n ih =>
    cases bs with
    | nil => cases xs <;> simp [splitExact]
    | cons b bs =>
      simp only [splitExact, Option.map_eq_some_iff, Prod.exists, Prod.mk.injEq]
      constructor
      · rintro ⟨ys, tl, h, rfl, rfl⟩
        obtain ⟨hl, rfl⟩ := ih.mp h
        exact ⟨by simp [hl], rfl⟩
      · rintro ⟨hl, h⟩
        cases xs with
        | nil => simp at hl
        | cons y ys =>
          obtain ⟨rfl, rfl⟩ := List.cons.inj h
          exact ⟨ys, rest, ih.mpr ⟨by simpa using hl, rfl⟩, rfl, rfl⟩

theorem splitExact_eq_none_iff {n : Nat} {bs : Bytes} :
    splitExact n bs = none ↔ bs.length < n := by
  induction n generalizing bs with
  | zero => simp [splitExact]
  | succ n ih => cases bs <;> simp [splitExact, ih]

end NovelEngine
