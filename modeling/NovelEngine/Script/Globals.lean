import NovelEngine.Script.Defect

/-!
# Variables shared by all threads

Two banks: 8000 numbers and 10000 flags. Flags are packed 64 to a word. An access outside a bank is a
defect and changes nothing.
-/
namespace NovelEngine

def workCount : Nat := 8000
def flagCount : Nat := 10000
def flagWordCount : Nat := 157

/-- The place of an index in a bank of `count` variables. -/
def Bank.place (bank : Bank) (count : Nat) : Int → Except Defect (Fin count)
  | .ofNat n => if h : n < count then .ok ⟨n, h⟩ else .error (.variableOutOfRange bank n)
  | .negSucc n => .error (.variableOutOfRange bank (.negSucc n))

structure Globals where
  numbers : Vector Int32 workCount
  flagWords : Vector UInt64 flagWordCount

namespace Globals

def empty : Globals := ⟨Vector.replicate workCount 0, Vector.replicate flagWordCount 0⟩

instance : Inhabited Globals := ⟨empty⟩

def work (g : Globals) (index : Int) : Except Defect Int32 :=
  (Bank.work.place workCount index).map fun i => g.numbers[i]

def putWork (g : Globals) (i : Fin workCount) (value : Int32) : Globals :=
  { g with numbers := g.numbers.set i.val value i.isLt }

def setWork (g : Globals) (index : Int) (value : Int32) : Except Defect Globals :=
  (Bank.work.place workCount index).map fun i => g.putWork i value

/-- The word that holds flag `i`. -/
def flagWord (i : Fin flagCount) : Fin flagWordCount :=
  ⟨i / 64, by
    have := i.isLt
    simp only [flagCount, flagWordCount] at *
    omega⟩

/-- The bit of flag `i` in its word. -/
def flagMask (i : Fin flagCount) : UInt64 := 1 <<< UInt64.ofNat (i % 64)

def flagAt (g : Globals) (i : Fin flagCount) : Bool := g.flagWords[flagWord i] &&& flagMask i ≠ 0

def flag (g : Globals) (index : Int) : Except Defect Bool :=
  (Bank.flags.place flagCount index).map g.flagAt

def setFlag (g : Globals) (index : Int) (value : Bool) : Except Defect Globals :=
  (Bank.flags.place flagCount index).map fun i =>
    let word := g.flagWords[flagWord i]
    let word := if value then word ||| flagMask i else word &&& ~~~flagMask i
    { g with flagWords := g.flagWords.set (flagWord i).val word (flagWord i).isLt }

/-- The numbers that are not zero, with their indices, in rising order. -/
def nonzeroWork (g : Globals) : List (Nat × Int32) :=
  g.numbers.toList.zipIdx.filterMap fun p => if p.1 = 0 then none else some (p.2, p.1)

/-- The flags that are set, in rising order. -/
def setFlags (g : Globals) : List Nat :=
  (List.finRange flagCount).filterMap fun i => if g.flagAt i then some i.val else none

end Globals
end NovelEngine
