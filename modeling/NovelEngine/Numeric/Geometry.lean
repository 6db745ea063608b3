import NovelEngine.Numeric.Trig

/-! # Vectors, rotations and bone transforms -/
namespace NovelEngine

structure Vec2 where
  x : Single
  y : Single
  deriving DecidableEq, Inhabited

structure Vec3 where
  x : Single
  y : Single
  z : Single
  deriving DecidableEq, Inhabited

structure Quat where
  x : Single
  y : Single
  z : Single
  w : Single
  deriving DecidableEq, Inhabited

namespace Vec3

def zero : Vec3 := ⟨.zero, .zero, .zero⟩
def one : Vec3 := ⟨.one, .one, .one⟩
def toList (v : Vec3) : List Single := [v.x, v.y, v.z]

end Vec3

namespace Quat

def identity : Quat := ⟨.zero, .zero, .zero, .one⟩

def toList (q : Quat) : List Single := [q.x, q.y, q.z, q.w]

def map (f : Single → Single) (q : Quat) : Quat := ⟨f q.x, f q.y, f q.z, f q.w⟩

def zipWith (f : Single → Single → Single) (p q : Quat) : Quat :=
  ⟨f p.x q.x, f p.y q.y, f p.z q.z, f p.w q.w⟩

/-- The four products are added in two pairs. -/
def dot (p q : Quat) : Single := (p.x * q.x + p.z * q.z) + (p.y * q.y + p.w * q.w)

def scale (q : Quat) (s : Single) : Quat := q.map (· * s)

/-- The cosine above which two rotations are blended along the chord. -/
def nearlyEqual : Single := ⟨0x3f7ffffe⟩

/-- Spherical interpolation along the shorter arc. -/
def slerp (q e : Quat) (s : Single) : Quat :=
  let d := dot q e
  let e := if d < .zero then e.scale (-.one) else e
  let d := if d < .zero then -d else d
  if nearlyEqual < d then
    let v := zipWith (· + ·) (q.scale (.one - s)) (e.scale s)
    let length := (dot v v).sqrt
    v.map (· / length)
  else
    let angle := d.acos
    let v := zipWith (· + ·) (q.scale (angle * (.one - s)).sin) (e.scale (angle * s).sin)
    let whole := (angle * .one).sin
    v.map (· / whole)

end Quat

/-- Where a bone stands relative to its parent. -/
structure Transform where
  position : Vec3
  rotation : Quat
  scale : Vec3
  deriving DecidableEq, Inhabited

namespace Transform

def identity : Transform := ⟨.zero, .identity, .one⟩

/-- The four columns of the matrix that scales, then rotates, then moves. -/
def columns (t : Transform) : List (List Single) :=
  let q := t.rotation
  let x2 := q.x + q.x
  let y2 := q.y + q.y
  let z2 := q.z + q.z
  let xx := q.x * x2
  let xy := q.x * y2
  let xz := q.x * z2
  let yy := q.y * y2
  let yz := q.y * z2
  let zz := q.z * z2
  let wx := q.w * x2
  let wy := q.w * y2
  let wz := q.w * z2
  [[.one - (yy + zz), xy + wz, xz - wy, .zero].map (· * t.scale.x),
   [xy - wz, .one - (xx + zz), yz + wx, .zero].map (· * t.scale.y),
   [xz + wy, yz - wx, .one - (xx + yy), .zero].map (· * t.scale.z),
   t.position.toList ++ [.one]]

/-- The matrix entries, column by column. -/
def matrix (t : Transform) : List Single := t.columns.flatten

end Transform
end NovelEngine
