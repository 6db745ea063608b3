import NovelEngine.Proofs.Expression.Arithmetic

/-!
# Expression trees

A tree is written in postfix order, one symbol for each node, and evaluated from left to right. Symbols are
finer than tokens: a number may be written in four forms, which all push it.
-/
namespace NovelEngine

/-- What an expression reads: a number of up to 7, 8, 16 or 32 bits, a variable, or the last result. -/
inductive Leaf
  | small (value : Fin 128)
  | byte (value : Int8)
  | short (value : Int16)
  | word (value : Int32)
  | work (index : UInt16)
  | localVar (index : UInt8)
  | flag (index : UInt16)
  | result
  deriving DecidableEq

/-- A variable that an expression writes. -/
inductive Place
  | work (index : UInt16)
  | localVar (index : UInt8)
  deriving DecidableEq

inductive Expr
  | leaf (l : Leaf)
  | store (p : Place) (e : Expr)
  | unary (op : UnaryOp) (e : Expr)
  | binary (op : BinaryOp) (a b : Expr)
  deriving DecidableEq

inductive Symbol
  | leaf (l : Leaf)
  | store (p : Place)
  | unary (op : UnaryOp)
  | binary (op : BinaryOp)
  deriving DecidableEq

def UnaryOp.code : UnaryOp → UInt8
  | neg => 0x14
  | not => 0x15
  | bitNot => 0x16

def BinaryOp.code : BinaryOp → UInt8
  | add => 0x01
  | sub => 0x02
  | mul => 0x03
  | div => 0x04
  | mod => 0x05
  | bitAnd => 0x06
  | bitOr => 0x07
  | bitXor => 0x08
  | shiftLeft => 0x09
  | shiftRight => 0x0A
  | eq => 0x0C
  | ne => 0x0D
  | lt => 0x0E
  | le => 0x0F
  | gt => 0x10
  | ge => 0x11
  | and => 0x12
  | or => 0x13

namespace Leaf

def encode : Leaf → Bytes
  | small value => [0x80 + UInt8.ofNat value.val]
  | byte value => [0x30, value.toUInt8]
  | short value => 0x31 :: toLittleEndian 2 value.toUInt16.toNat
  | word value => 0x32 :: toLittleEndian 4 value.toUInt32.toNat
  | work index => 0x28 :: toLittleEndian 2 index.toNat
  | localVar index => [0x29, index]
  | flag index => 0x2A :: toLittleEndian 2 index.toNat
  | result => [0x2B]

def InRange : Leaf → Prop
  | work index => index.toNat < workCount
  | localVar index => index.toNat < localCount
  | flag index => index.toNat < flagCount
  | _ => True

def value (s : Scope) : Leaf → Int32
  | small value => Int32.ofNat value.val
  | byte value => Int32.ofInt value.toInt
  | short value => Int32.ofInt value.toInt
  | word value => value
  | work index => (s.globals.numbers[index.toNat]?).getD 0
  | localVar index => (s.locals[index.toNat]?).getD 0
  | flag index => if s.globals.flag index.toNat = .ok true then 1 else 0
  | result => s.result

end Leaf

namespace Place

def encode : Place → Bytes
  | work index => 0x20 :: toLittleEndian 2 index.toNat
  | localVar index => [0x21, index]

def InRange : Place → Prop
  | work index => index.toNat < workCount
  | localVar index => index.toNat < localCount

def write (s : Scope) (value : Int32) : Place → Scope
  | work index => { s with globals.numbers := s.globals.numbers.setIfInBounds index.toNat value }
  | localVar index => { s with locals := s.locals.setIfInBounds index.toNat value }

end Place

namespace Expr

/-- The postfix form, without the closing byte. -/
def encode : Expr → Bytes
  | leaf l => l.encode
  | store p e => e.encode ++ p.encode
  | unary op e => e.encode ++ [op.code]
  | binary op a b => a.encode ++ b.encode ++ [op.code]

def InRange : Expr → Prop
  | leaf l => l.InRange
  | store p e => p.InRange ∧ e.InRange
  | unary _ e => e.InRange
  | binary _ a b => a.InRange ∧ b.InRange

/-- How many numbers the evaluation keeps at most. -/
def need : Expr → Nat
  | leaf _ => 1
  | store _ e | unary _ e => e.need
  | binary _ a b => max a.need (1 + b.need)

def denote : Expr → Scope → Int32 × Scope
  | leaf l, s => (l.value s, s)
  | store p e, s =>
    let (value, s) := e.denote s
    (value, p.write s value)
  | unary op e, s =>
    let (value, s) := e.denote s
    (Int32.ofInt (op.meaning value), s)
  | binary op a b, s =>
    let (x, s) := a.denote s
    let (y, s) := b.denote s
    (Int32.ofInt (op.meaning x y), s)

def symbols : Expr → List Symbol
  | leaf l => [.leaf l]
  | store p e => e.symbols ++ [.store p]
  | unary op e => e.symbols ++ [.unary op]
  | binary op a b => a.symbols ++ b.symbols ++ [.binary op]

end Expr

namespace Symbol

def encode : Symbol → Bytes
  | leaf l => l.encode
  | store p => p.encode
  | unary op => [op.code]
  | binary op => [op.code]

def token : Symbol → Token
  | leaf (.small value) => .push (Int32.ofNat value.val)
  | leaf (.byte value) => .push value.toInt32
  | leaf (.short value) => .push value.toInt32
  | leaf (.word value) => .push value
  | leaf (.work index) => .loadWork index
  | leaf (.localVar index) => .loadLocal index
  | leaf (.flag index) => .loadFlag index
  | leaf .result => .loadResult
  | store (.work index) => .storeWork index
  | store (.localVar index) => .storeLocal index
  | unary op => .unary op
  | binary op => .binary op

/-- Puts a node on top of the trees built so far, the last one first. -/
def build : Symbol → List Expr → Option (List Expr)
  | leaf l, es => some (.leaf l :: es)
  | store p, e :: es => some (.store p e :: es)
  | unary op, e :: es => some (.unary op e :: es)
  | binary op, b :: a :: es => some (.binary op a b :: es)
  | _, _ => none

def buildAll : List Symbol → List Expr → Option (List Expr)
  | [], es => some es
  | s :: ss, es => (s.build es).bind (buildAll ss)

theorem buildAll_append (ss ts : List Symbol) (es : List Expr) :
    buildAll (ss ++ ts) es = (buildAll ss es).bind (buildAll ts) := by
  induction ss generalizing es with
  | nil => rfl
  | cons s ss ih =>
    rw [List.cons_append, buildAll, buildAll, Option.bind_assoc]
    congr 1
    funext es
    exact ih es

end Symbol

theorem Expr.flatMap_symbols (e : Expr) : e.symbols.flatMap Symbol.encode = e.encode := by
  induction e with
  | leaf l => simp [Expr.symbols, Expr.encode, Symbol.encode]
  | store p e ih => simp [Expr.symbols, Expr.encode, Symbol.encode, ih]
  | unary op e ih => simp [Expr.symbols, Expr.encode, Symbol.encode, ih]
  | binary op a b iha ihb => simp [Expr.symbols, Expr.encode, Symbol.encode, iha, ihb]

theorem Expr.buildAll_symbols (e : Expr) (es : List Expr) :
    Symbol.buildAll e.symbols es = some (e :: es) := by
  induction e generalizing es with
  | leaf l => rfl
  | store p e ih =>
    rw [Expr.symbols, Symbol.buildAll_append, ih]
    rfl
  | unary op e ih =>
    rw [Expr.symbols, Symbol.buildAll_append, ih]
    rfl
  | binary op a b iha ihb =>
    rw [Expr.symbols, Symbol.buildAll_append, Symbol.buildAll_append, iha, Option.bind_some, ihb]
    rfl

theorem Expr.symbols_injective {e e' : Expr} (h : e.symbols = e'.symbols) : e = e' := by
  have he := e.buildAll_symbols []
  rw [h, e'.buildAll_symbols] at he
  exact (List.cons.inj (Option.some.inj he)).1.symm

end NovelEngine
