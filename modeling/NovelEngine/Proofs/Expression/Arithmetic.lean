import Mathlib.Tactic.NormNum
import NovelEngine.Script.Expression

/-!
# The arithmetic of expressions

What each operator computes, as an integer before it is wrapped to 32 bits. Quotients go towards zero, a
shift to the right goes towards minus infinity, and a shift amount is what the number leaves modulo 32.
-/
namespace NovelEngine

def indicator (p : Prop) [Decidable p] : Int := if p then 1 else 0

theorem truth_eq_ofInt (p : Prop) [Decidable p] {b : Bool} (h : b = true ↔ p) :
    truth b = Int32.ofInt (indicator p) := by
  by_cases hp : p
  · have hb : b = true := h.mpr hp
    simp only [truth, indicator, hb, hp, if_true]
    rfl
  · have hb : ¬ b = true := fun hb => hp (h.mp hb)
    simp only [truth, indicator, hb, hp, if_false]
    rfl

def UnaryOp.meaning : UnaryOp → Int32 → Int
  | neg, a => -a.toInt
  | not, a => indicator (a.toInt = 0)
  | bitNot, a => -a.toInt - 1

/-- The low five bits of a number, as it stands in two's complement. -/
def shiftAmount (b : Int32) : Nat := (b.toInt % 32).toNat

def BinaryOp.meaning : BinaryOp → Int32 → Int32 → Int
  | add, a, b => a.toInt + b.toInt
  | sub, a, b => a.toInt - b.toInt
  | mul, a, b => a.toInt * b.toInt
  | div, a, b => if b.toInt = 0 then 0 else a.toInt.tdiv b.toInt
  | mod, a, b => if b.toInt = 0 then 0 else a.toInt.tmod b.toInt
  | bitAnd, a, b => a.toUInt32.toNat &&& b.toUInt32.toNat
  | bitOr, a, b => a.toUInt32.toNat ||| b.toUInt32.toNat
  | bitXor, a, b => a.toUInt32.toNat ^^^ b.toUInt32.toNat
  | shiftLeft, a, b => a.toInt * 2 ^ shiftAmount b
  | shiftRight, a, b => a.toInt / 2 ^ shiftAmount b
  | eq, a, b => indicator (a.toInt = b.toInt)
  | ne, a, b => indicator (a.toInt ≠ b.toInt)
  | lt, a, b => indicator (a.toInt < b.toInt)
  | le, a, b => indicator (a.toInt ≤ b.toInt)
  | gt, a, b => indicator (b.toInt < a.toInt)
  | ge, a, b => indicator (b.toInt ≤ a.toInt)
  | and, a, b => indicator (a.toInt ≠ 0 ∧ b.toInt ≠ 0)
  | or, a, b => indicator (a.toInt ≠ 0 ∨ b.toInt ≠ 0)

theorem toInt_eq_zero_iff (a : Int32) : a.toInt = 0 ↔ a = 0 := by
  rw [← Int32.toInt_inj]
  rfl

theorem UnaryOp.apply_eq (op : UnaryOp) (a : Int32) : op.apply a = Int32.ofInt (op.meaning a) := by
  cases op with
  | neg => simp [UnaryOp.apply, UnaryOp.meaning]
  | not => exact truth_eq_ofInt _ (by simp [toInt_eq_zero_iff])
  | bitNot =>
    rw [← Int32.toInt_inj]
    simp [UnaryOp.apply, UnaryOp.meaning]

theorem toNat_lowBits (b : Int32) : (b &&& 31).toBitVec.toNat = shiftAmount b := by
  have hand : (b &&& 31).toBitVec.toNat = b.toBitVec.toNat % 32 := by
    rw [Int32.toBitVec_and, BitVec.toNat_and]
    exact Nat.and_two_pow_sub_one_eq_mod b.toBitVec.toNat 5
  have hint : b.toInt = if 2 * b.toBitVec.toNat < 2 ^ 32 then (b.toBitVec.toNat : Int)
      else (b.toBitVec.toNat : Int) - (2 ^ 32 : Nat) := BitVec.toInt_eq_toNat_cond b.toBitVec
  rw [hand, shiftAmount, hint]
  split <;> omega

/-- Shifts take their amount modulo 32 once more, which changes nothing below 32. -/
theorem toNat_lowBits_smod (b : Int32) : ((b &&& 31).toBitVec.smod 32).toNat = shiftAmount b := by
  have hlow := toNat_lowBits b
  have hlt : shiftAmount b < 32 := by
    rw [shiftAmount]
    omega
  have hmsb : (b &&& 31).toBitVec.msb = false := by
    rw [BitVec.msb_eq_false_iff_two_mul_lt]
    omega
  have hwidth : (32 : BitVec 32).msb = false := by decide
  rw [BitVec.toNat_smod, hmsb, hwidth]
  change ((b &&& 31).toBitVec % 32).toNat = shiftAmount b
  rw [BitVec.toNat_umod, hlow]
  exact Nat.mod_eq_of_lt hlt

theorem shiftLeft_lowBits (a b : Int32) :
    a <<< (b &&& 31) = Int32.ofInt (a.toInt * 2 ^ shiftAmount b) := by
  have ha : a.toInt = Int.bmod a.toBitVec.toNat Int32.size := BitVec.toInt_eq_toNat_bmod a.toBitVec
  have hshift : (a <<< (b &&& 31)).toInt =
      Int.bmod (a.toBitVec.toNat <<< shiftAmount b : Nat) Int32.size := by
    rw [← Int32.toInt_toBitVec, Int32.toBitVec_shiftLeft, BitVec.shiftLeft_eq', toNat_lowBits_smod]
    exact BitVec.toInt_shiftLeft
  rw [← Int32.toInt_inj, Int32.toInt_ofInt, hshift, ha, Int.bmod_mul_bmod, Nat.shiftLeft_eq]
  push_cast
  rfl

theorem shiftRight_lowBits (a b : Int32) :
    a >>> (b &&& 31) = Int32.ofInt (a.toInt / 2 ^ shiftAmount b) := by
  have hshift : (a >>> (b &&& 31)).toInt = a.toInt / 2 ^ shiftAmount b := by
    rw [← Int32.toInt_toBitVec, Int32.toBitVec_shiftRight, BitVec.sshiftRight', toNat_lowBits_smod,
      BitVec.toInt_sshiftRight, Int.shiftRight_eq_div_pow, Int32.toInt_toBitVec]
    push_cast
    rfl
  rw [← hshift, Int32.ofInt_toInt]

theorem div_eq_ofInt (a b : Int32) :
    (if b = 0 then 0 else a / b) = Int32.ofInt (if b.toInt = 0 then 0 else a.toInt.tdiv b.toInt) := by
  by_cases hb : b = 0
  · rw [if_pos hb, if_pos ((toInt_eq_zero_iff b).mpr hb)]
    rfl
  · rw [if_neg hb, if_neg fun h => hb ((toInt_eq_zero_iff b).mp h), ← Int32.toInt_inj,
      Int32.toInt_ofInt, Int32.toInt_div]

theorem mod_eq_ofInt (a b : Int32) :
    (if b = 0 then 0 else a % b) = Int32.ofInt (if b.toInt = 0 then 0 else a.toInt.tmod b.toInt) := by
  by_cases hb : b = 0
  · rw [if_pos hb, if_pos ((toInt_eq_zero_iff b).mpr hb)]
    rfl
  · rw [if_neg hb, if_neg fun h => hb ((toInt_eq_zero_iff b).mp h), ← Int32.toInt_mod,
      Int32.ofInt_toInt]

theorem BinaryOp.apply_eq (op : BinaryOp) (a b : Int32) :
    op.apply a b = Int32.ofInt (op.meaning a b) := by
  cases op with
  | add => simp [BinaryOp.apply, BinaryOp.meaning]
  | sub => simp [BinaryOp.apply, BinaryOp.meaning]
  | mul => simp [BinaryOp.apply, BinaryOp.meaning]
  | div => exact div_eq_ofInt a b
  | mod => exact mod_eq_ofInt a b
  | bitAnd =>
    rw [← Int32.toInt_inj, Int32.toInt_ofInt, ← Int32.toInt_toBitVec]
    exact BitVec.toInt_and a.toBitVec b.toBitVec
  | bitOr =>
    rw [← Int32.toInt_inj, Int32.toInt_ofInt, ← Int32.toInt_toBitVec]
    exact BitVec.toInt_or a.toBitVec b.toBitVec
  | bitXor =>
    rw [← Int32.toInt_inj, Int32.toInt_ofInt, ← Int32.toInt_toBitVec]
    exact BitVec.toInt_xor a.toBitVec b.toBitVec
  | shiftLeft => exact shiftLeft_lowBits a b
  | shiftRight => exact shiftRight_lowBits a b
  | eq => exact truth_eq_ofInt _ (by simp [Int32.toInt_inj])
  | ne => exact truth_eq_ofInt _ (by simp [Int32.toInt_inj])
  | lt => exact truth_eq_ofInt _ (by simp [Int32.lt_iff_toInt_lt])
  | le => exact truth_eq_ofInt _ (by simp [Int32.le_iff_toInt_le])
  | gt => exact truth_eq_ofInt _ (by simp [Int32.lt_iff_toInt_lt])
  | ge => exact truth_eq_ofInt _ (by simp [Int32.le_iff_toInt_le])
  | and => exact truth_eq_ofInt _ (by simp [toInt_eq_zero_iff])
  | or => exact truth_eq_ofInt _ (by simp [toInt_eq_zero_iff])

/-- The least number divided by minus one wraps around to itself. -/
example : BinaryOp.div.apply Int32.minValue (-1) = Int32.minValue := by decide

end NovelEngine
