/-!
# Single-precision numbers

A `Single` is its bit pattern, so that a number read from a file is written back unchanged. The order
is read off the pattern: apart from the sign, a larger pattern is a larger magnitude. Sums, products,
quotients and square roots are rounded once, to nearest with ties to even.
-/
namespace NovelEngine

structure Single where
  bits : UInt32
  deriving DecidableEq, Inhabited

namespace Single

def ofFloat (x : Float32) : Single := ⟨x.toBits⟩
def toFloat (x : Single) : Float32 := Float32.ofBits x.bits

instance : Add Single := ⟨fun a b => ofFloat (a.toFloat + b.toFloat)⟩
instance : Sub Single := ⟨fun a b => ofFloat (a.toFloat - b.toFloat)⟩
instance : Mul Single := ⟨fun a b => ofFloat (a.toFloat * b.toFloat)⟩
instance : Div Single := ⟨fun a b => ofFloat (a.toFloat / b.toFloat)⟩

def sqrt (a : Single) : Single := ofFloat a.toFloat.sqrt

/-- The nearest number to a 32-bit integer. -/
def ofInt32 (n : Int32) : Single := ofFloat n.toFloat32

def zero : Single := ⟨0⟩
def one : Single := ⟨0x3f800000⟩

/-- The pattern without its sign bit. -/
def magnitude (a : Single) : Nat := a.bits.toNat % 0x80000000

def isNegative (a : Single) : Bool := 0x80000000 ≤ a.bits.toNat

def infinityMagnitude : Nat := 0x7f800000

def isNaN (a : Single) : Bool := infinityMagnitude < a.magnitude

def isInfinite (a : Single) : Bool := a.magnitude == infinityMagnitude

def isZero (a : Single) : Bool := a.magnitude == 0

/-- Position in the order of the numbers; both zeros have rank 0. -/
def rank (a : Single) : Int := if a.isNegative then -a.magnitude else a.magnitude

instance : LT Single := ⟨fun a b => a.isNaN = false ∧ b.isNaN = false ∧ a.rank < b.rank⟩
instance : LE Single := ⟨fun a b => a.isNaN = false ∧ b.isNaN = false ∧ a.rank ≤ b.rank⟩
instance (a b : Single) : Decidable (a < b) :=
  inferInstanceAs (Decidable (a.isNaN = false ∧ b.isNaN = false ∧ a.rank < b.rank))
instance (a b : Single) : Decidable (a ≤ b) :=
  inferInstanceAs (Decidable (a.isNaN = false ∧ b.isNaN = false ∧ a.rank ≤ b.rank))

theorem le_trans {a b c : Single} (h : a ≤ b) (h' : b ≤ c) : a ≤ c :=
  ⟨h.1, h'.2.1, Int.le_trans h.2.2 h'.2.2⟩

theorem not_lt_iff_le {a b : Single} (ha : a.isNaN = false) (hb : b.isNaN = false) :
    ¬ a < b ↔ b ≤ a := by
  show ¬ (_ ∧ _ ∧ _) ↔ _ ∧ _ ∧ _
  simp only [ha, hb, true_and]
  omega

instance : Neg Single := ⟨fun a => ⟨a.bits ^^^ 0x80000000⟩⟩

def abs (a : Single) : Single := ⟨a.bits &&& 0x7fffffff⟩

/-- The magnitude of `a` under the sign of `b`. -/
def withSignOf (a b : Single) : Single :=
  if b.isNegative then ⟨a.bits ||| 0x80000000⟩ else a.abs

/-- The larger of two numbers, or the other one when one is no number. -/
def max (a b : Single) : Single :=
  if a.isNaN then b else if b.isNaN then a else if a < b then b else a

/-- The smaller of two numbers, or the other one when one is no number. -/
def min (a b : Single) : Single :=
  if a.isNaN then b else if b.isNaN then a else if b < a then b else a

/-- Moves a number into `[low, high]`; what is no number stays so. -/
def clamp (a low high : Single) : Single :=
  if a < low then low else if high < a then high else a

/-- A finite magnitude counted in units of the smallest positive number. -/
def units (a : Single) : Nat :=
  let exponent := a.magnitude / 0x800000
  let fraction := a.magnitude % 0x800000
  if exponent = 0 then fraction else (0x800000 + fraction) <<< (exponent - 1)

/-- The number of `n` units, for an `n` of at most 24 significant bits. -/
def ofUnits (n : Nat) : Single :=
  if n < 0x800000 then ⟨UInt32.ofNat n⟩
  else
    let shift := n.log2 - 23
    ⟨UInt32.ofNat (shift * 0x800000 + n >>> shift)⟩

def nan : Single := ⟨0x7fc00000⟩

/-- The exact remainder of a division that truncates: it has the sign of `a`. -/
def remainder (a b : Single) : Single :=
  if a.isNaN || b.isNaN || a.isInfinite || b.isZero then nan
  else if b.isInfinite then a
  else (ofUnits (a.units % b.units)).withSignOf a

/-- The remainder moved up by one divisor where it is negative. -/
def wrap (a b : Single) : Single :=
  let r := a.remainder b
  if r < zero then r + b.abs else r

end Single
end NovelEngine
