/-!
Bytes and numbers as hexadecimal digits, in lower case.
-/

namespace Tenancy.Text.Hex

def ofByte (b : UInt8) : String :=
  String.ofList [Nat.digitChar (b.toNat / 16), Nat.digitChar (b.toNat % 16)]

def ofBytes (bytes : List UInt8) : String := String.join (bytes.map ofByte)

def ofWord (word : UInt64) : String :=
  ofBytes ((List.range 8).map fun i => UInt8.ofNat (word.toNat / Nat.pow 256 (7 - i)))

def digit? (c : Char) : Option Nat :=
  if c.isDigit then some (c.toNat - '0'.toNat)
  else if 'a' ≤ c ∧ c ≤ 'f' then some (c.toNat - 'a'.toNat + 10)
  else none

def number? (digits : String) : Option Nat :=
  digits.toList.foldlM (fun n c => return n * 16 + (← digit? c)) 0

def bytes? : List Char → Option (List UInt8)
  | [] => some []
  | a :: b :: rest => return UInt8.ofNat ((← digit? a) * 16 + (← digit? b)) :: (← bytes? rest)
  | [_] => none

end Tenancy.Text.Hex
