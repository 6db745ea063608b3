import NovelEngine.Script.Cursor
import NovelEngine.Script.Globals

/-!
# Expressions

An expression is a run of postfix tokens closed by a zero byte. Tokens act from left to right on a stack
of at most 16 numbers, and exactly one number must be left at the end. Arithmetic wraps around; a
division by zero gives zero; a shift uses the low five bits of its amount.
-/
namespace NovelEngine

def expressionStackDepth : Nat := 16
def localCount : Nat := 32

abbrev Locals := Vector Int32 localCount

/-- The variables that an expression reads and writes. -/
structure Scope where
  globals : Globals
  locals : Locals
  result : Int32

def truth (b : Bool) : Int32 := if b then 1 else 0

inductive UnaryOp
  | neg
  | not
  | bitNot
  deriving DecidableEq, Inhabited

namespace UnaryOp

def ofCode? : UInt8 → Option UnaryOp
  | 0x14 => some neg
  | 0x15 => some not
  | 0x16 => some bitNot
  | _ => none

def apply : UnaryOp → Int32 → Int32
  | neg, a => -a
  | not, a => truth (a == 0)
  | bitNot, a => ~~~a

end UnaryOp

inductive BinaryOp
  | add
  | sub
  | mul
  | div
  | mod
  | bitAnd
  | bitOr
  | bitXor
  | shiftLeft
  | shiftRight
  | eq
  | ne
  | lt
  | le
  | gt
  | ge
  | and
  | or
  deriving DecidableEq, Inhabited

namespace BinaryOp

def ofCode? : UInt8 → Option BinaryOp
  | 0x01 => some add
  | 0x02 => some sub
  | 0x03 => some mul
  | 0x04 => some div
  | 0x05 => some mod
  | 0x06 => some bitAnd
  | 0x07 => some bitOr
  | 0x08 => some bitXor
  | 0x09 => some shiftLeft
  | 0x0A => some shiftRight
  | 0x0C => some eq
  | 0x0D => some ne
  | 0x0E => some lt
  | 0x0F => some le
  | 0x10 => some gt
  | 0x11 => some ge
  | 0x12 => some and
  | 0x13 => some or
  | _ => none

def apply : BinaryOp → Int32 → Int32 → Int32
  | add, a, b => a + b
  | sub, a, b => a - b
  | mul, a, b => a * b
  | div, a, b => if b = 0 then 0 else a / b
  | mod, a, b => if b = 0 then 0 else a % b
  | bitAnd, a, b => a &&& b
  | bitOr, a, b => a ||| b
  | bitXor, a, b => a ^^^ b
  | shiftLeft, a, b => a <<< (b &&& 31)
  | shiftRight, a, b => a >>> (b &&& 31)
  | eq, a, b => truth (a == b)
  | ne, a, b => truth (a != b)
  | lt, a, b => truth (a < b)
  | le, a, b => truth (a ≤ b)
  | gt, a, b => truth (b < a)
  | ge, a, b => truth (b ≤ a)
  | and, a, b => truth (a != 0 && b != 0)
  | or, a, b => truth (a != 0 || b != 0)

end BinaryOp

inductive Token
  | push (value : Int32)
  | loadWork (index : UInt16)
  | loadLocal (index : UInt8)
  | loadFlag (index : UInt16)
  | loadResult
  | storeWork (index : UInt16)
  | storeLocal (index : UInt8)
  | unary (op : UnaryOp)
  | binary (op : BinaryOp)
  deriving DecidableEq, Inhabited

namespace Token

/-- The token that a byte without operand bytes stands for. -/
def ofByte? (byte : UInt8) : Option Token :=
  if 0x80 ≤ byte then some (.push (Int32.ofNat (byte.toNat - 0x80)))
  else if byte = 0x2B then some .loadResult
  else (UnaryOp.ofCode? byte).map .unary <|> (BinaryOp.ofCode? byte).map .binary

/-- Reads one token with its operand; `none` is the closing byte. -/
def read (c : Cursor) : Except Defect (Option Token × Cursor) :=
  match c.u8 with
  | .error e => .error e
  | .ok (byte, rest) =>
    match byte with
    | 0x00 => .ok (none, rest)
    | 0x20 => rest.number 2 fun n => some (.storeWork (UInt16.ofNat n))
    | 0x21 => rest.number 1 fun n => some (.storeLocal (UInt8.ofNat n))
    | 0x28 => rest.number 2 fun n => some (.loadWork (UInt16.ofNat n))
    | 0x29 => rest.number 1 fun n => some (.loadLocal (UInt8.ofNat n))
    | 0x2A => rest.number 2 fun n => some (.loadFlag (UInt16.ofNat n))
    | 0x30 => rest.number 1 fun n => some (.push (Int8.ofNat n).toInt32)
    | 0x31 => rest.number 2 fun n => some (.push (Int16.ofNat n).toInt32)
    | 0x32 => rest.number 4 fun n => some (.push (Int32.ofNat n))
    | byte =>
      match ofByte? byte with
      | some t => .ok (some t, rest)
      | none => .error (.unknownToken c.pos byte)

theorem length_rest_of_read {c c' : Cursor} {t : Option Token} (h : read c = .ok (t, c')) :
    c'.rest.length < c.rest.length := by
  unfold read at h
  split at h
  · cases h
  · rename_i byte rest hb
    have hrest : rest.rest.length + 1 = c.rest.length := Cursor.length_rest_of_number hb
    split at h
    case h_1 => cases h; omega
    case h_10 =>
      split at h
      · cases h; omega
      · cases h
    all_goals
      have := Cursor.length_rest_of_number h
      omega

end Token

def pushOperand (offset : Nat) (value : Int32) (stack : List Int32) : Except Defect (List Int32) :=
  if stack.length < expressionStackDepth then .ok (value :: stack) else .error (.stackOverflow offset)

namespace Token

/-- The effect of the token at `offset` on the stack (top first) and the variables. A defect changes no
variable. -/
def apply (offset : Nat) (t : Token) (stack : List Int32) (scope : Scope) :
    Except Defect (List Int32) × Scope :=
  match t, stack with
  | push value, stack => (pushOperand offset value stack, scope)
  | loadWork index, stack =>
    (do pushOperand offset (← scope.globals.work index.toNat) stack, scope)
  | loadLocal index, stack =>
    (do pushOperand offset scope.locals[← Bank.locals.place localCount index.toNat] stack, scope)
  | loadFlag index, stack =>
    (do pushOperand offset (truth (← scope.globals.flag index.toNat)) stack, scope)
  | loadResult, stack => (pushOperand offset scope.result stack, scope)
  | storeWork index, a :: stack =>
    match Bank.work.place workCount index.toNat with
    | .error e => (.error e, scope)
    | .ok i => (.ok (a :: stack), { scope with globals := scope.globals.putWork i a })
  | storeWork _, [] => (.error (.stackUnderflow offset), scope)
  | storeLocal index, stack =>
    match Bank.locals.place localCount index.toNat, stack with
    | .error e, _ => (.error e, scope)
    | .ok _, [] => (.error (.stackUnderflow offset), scope)
    | .ok i, a :: stack => (.ok (a :: stack), { scope with locals := scope.locals.set i.val a i.isLt })
  | unary op, a :: stack => (.ok (op.apply a :: stack), scope)
  | unary _, [] => (.error (.stackUnderflow offset), scope)
  | binary op, b :: a :: stack => (.ok (op.apply a b :: stack), scope)
  | binary _, _ => (.error (.stackUnderflow offset), scope)

end Token

/-- Runs the tokens from the cursor on. Stores made before a defect stay made. -/
def evaluateFrom (c : Cursor) (stack : List Int32) (scope : Scope) :
    Except Defect (Int32 × Cursor) × Scope :=
  match _h : Token.read c with
  | .error e => (.error e, scope)
  | .ok (none, c') =>
    match stack with
    | [value] => (.ok (value, c'), scope)
    | stack => (.error (.unbalanced c.pos stack.length), scope)
  | .ok (some t, c') =>
    match t.apply c.pos stack scope with
    | (.error e, scope) => (.error e, scope)
    | (.ok stack, scope) => evaluateFrom c' stack scope
termination_by c.rest.length
decreasing_by exact Token.length_rest_of_read _h

/-- The value of the expression at the cursor and the cursor just behind its closing byte. -/
def evaluate (c : Cursor) (scope : Scope) : Except Defect (Int32 × Cursor) × Scope :=
  evaluateFrom c [] scope

end NovelEngine
