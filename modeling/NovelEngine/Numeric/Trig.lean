import NovelEngine.Numeric.Single

/-!
# Sine and arc cosine by polynomials

Each function is one fixed polynomial of its reduced argument, evaluated by Horner's rule, so that its
result is the same on every machine.
-/
namespace NovelEngine.Single

def pi : Single := ⟨0x40490fdb⟩
def twoPi : Single := ⟨0x40c90fdb⟩
def halfPi : Single := ⟨0x3fc90fdb⟩
def inverseTwoPi : Single := ⟨0x3e22f983⟩

/-- Horner's rule, highest coefficient first. -/
def horner (x : Single) : List UInt32 → Single
  | [] => zero
  | c :: cs => cs.foldl (fun p k => p * x + ⟨k⟩) ⟨c⟩

/-- Rounds to a whole number by adding and taking away a number beyond which all are whole. -/
def roundWhole (k : Single) : Single :=
  let big : Single := ⟨0x4b000000⟩
  if k.abs ≤ big then (k + big.withSignOf k) - big.withSignOf k else k

def sin (a : Single) : Single :=
  let k := roundWhole (a * inverseTwoPi)
  let x := a - twoPi * k
  let x := if x.abs ≤ halfPi then x else pi.withSignOf x - x
  let p := horner (x * x)
    [0xb2cd365b, 0x3638b88e, 0xb9500bf1, 0x3c088886, 0xbe2aaaab, 0x3f800000]
  p * x

def acos (v : Single) : Single :=
  let x := v.abs
  let gap := one - x
  let gap := if gap < zero then zero else gap
  let p := horner x
    [0xbaa57a2c, 0x3bda90c5, 0xbc8bfc66, 0x3cfd10f8, 0xbd4d8392, 0x3db63a9e, 0xbe5bbfca, 0x3fc90fda]
  let p := p * sqrt gap
  if zero ≤ v then p else pi - p

end NovelEngine.Single
