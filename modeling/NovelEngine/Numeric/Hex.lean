/-! # Hexadecimal text -/
namespace NovelEngine

/-- Lower-case hexadecimal digits, zero-padded on the left to at least `width`. -/
def hexDigits (width n : Nat) : String :=
  let digits := Nat.toDigits 16 n
  String.ofList (List.replicate (width - digits.length) '0' ++ digits)

def hex (n : Nat) : String := "0x" ++ hexDigits 1 n

/-- Upper-case hexadecimal digits, zero-padded on the left to at least `width`. -/
def hexUpper (width n : Nat) : String := (hexDigits width n).map Char.toUpper

end NovelEngine
