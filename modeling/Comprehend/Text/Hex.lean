/-! Hexadecimal digits. -/
namespace Comprehend.Text

def hexValue (c : Char) : Option Nat :=
  if c.isDigit then some (c.toNat - '0'.toNat)
  else if 'a' ≤ c ∧ c ≤ 'f' then some (c.toNat - 'a'.toNat + 10)
  else if 'A' ≤ c ∧ c ≤ 'F' then some (c.toNat - 'A'.toNat + 10)
  else none

/-- The number that hexadecimal digits denote. -/
def hexNumber? (ds : List Char) : Option Nat :=
  ds.foldlM (fun n c => (hexValue c).map (n * 16 + ·)) 0

end Comprehend.Text
