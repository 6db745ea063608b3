import NovelEngine.Ident

/-!
# Load slots

A slot is a place on the stage that one resource can be loaded into. A slot with a small enough index is
packed, category first, into the index half of the handles of its loads.
-/
namespace NovelEngine

inductive Category
  | background
  | character
  deriving DecidableEq, Inhabited

namespace Category

/-- The byte that stands for a category in scripts and handles. -/
def code : Category → UInt8
  | background => 1
  | character => 2

def ofCode? : UInt8 → Option Category
  | 1 => some background
  | 2 => some character
  | _ => none

@[simp] theorem ofCode?_code (c : Category) : ofCode? c.code = some c := by cases c <;> rfl

def name : Category → String
  | background => "background"
  | character => "character"

end Category

structure SlotKey where
  category : Category
  index : UInt32
  deriving DecidableEq, Inhabited

namespace SlotKey

/-- The largest slot index that fits into a handle. -/
def maxIndex : UInt32 := 0x00FFFFFF

def background : SlotKey := ⟨.background, 0⟩
def character (buffer : UInt32) : SlotKey := ⟨.character, buffer⟩

/-- Category in the top byte, index in the other three. -/
def packed (slot : SlotKey) : UInt32 :=
  UInt32.ofNat (slot.category.code.toNat * 0x1000000 + slot.index.toNat % 0x1000000)

def unpack? (packed : UInt32) : Option SlotKey :=
  (Category.ofCode? (UInt8.ofNat (packed.toNat / 0x1000000))).map
    fun category => ⟨category, UInt32.ofNat (packed.toNat % 0x1000000)⟩

def fitsHandle (slot : SlotKey) : Bool := slot.index ≤ maxIndex

def handle (slot : SlotKey) (generation : UInt32) : LoadHandle := ⟨slot.packed, generation⟩

def ofHandle? (h : LoadHandle) : Option SlotKey := unpack? h.index

theorem ofHandle?_handle (slot : SlotKey) (generation : UInt32) (h : slot.fitsHandle = true) :
    ofHandle? (slot.handle generation) = some slot := by
  obtain ⟨category, index⟩ := slot
  have hi : index.toNat < 0x1000000 := by
    have : index.toNat ≤ 0x00FFFFFF := by
      simpa [fitsHandle, maxIndex, UInt32.le_iff_toNat_le] using h
    omega
  have hm : index.toNat % 0x1000000 = index.toNat := Nat.mod_eq_of_lt hi
  have hc : category.code.toNat ≤ 2 := by cases category <;> decide
  have hp : (packed ⟨category, index⟩).toNat = category.code.toNat * 0x1000000 + index.toNat := by
    simp only [packed, hm, UInt32.toNat_ofNat']
    omega
  have hd : (category.code.toNat * 0x1000000 + index.toNat) / 0x1000000 = category.code.toNat := by omega
  have hr : (category.code.toNat * 0x1000000 + index.toNat) % 0x1000000 = index.toNat := by omega
  simp only [ofHandle?, handle, unpack?, hp, hd, hr, UInt8.ofNat_toNat, UInt32.ofNat_toNat,
    Category.ofCode?_code, Option.map_some]

end SlotKey

inductive LoadStatus
  | unloaded
  | loading
  | loaded
  | failed
  deriving DecidableEq, Inhabited

namespace LoadStatus

def all : List LoadStatus := [unloaded, loading, loaded, failed]

def name : LoadStatus → String
  | unloaded => "unloaded"
  | loading => "loading"
  | loaded => "loaded"
  | failed => "failed"

/-- The number that a script finds in its result register after waiting for a load. -/
def scriptCode : LoadStatus → Int32
  | unloaded => 0
  | loading => 1
  | loaded => 2
  | failed => 3

def isSettled (s : LoadStatus) : Bool := s ≠ loading

end LoadStatus
end NovelEngine
