import Tenancy.Fault

/-!
Sizes, and blocks of memory.

A size is a number of elements or bytes below a limit, and a calculation that leads beyond it is a
breach. The bytes of a buffer are one block, and so is each stack of a thread. How many bytes a
block can have is limited too.
-/

namespace Tenancy

/-- Sizes are less. -/
def Size.limit : Nat := 0x10000000000000000

def Size.add (a b : Nat) : Except Breach Nat :=
  if a + b < limit then .ok (a + b) else .error .sumTooLarge

def Size.mul (a b : Nat) : Except Breach Nat :=
  if a * b < limit then .ok (a * b) else .error .productTooLarge

def Block.limit : Nat := 0x8000000000000000

def Block.fits (width count : Nat) : Bool := width * count < limit

def Block.reserve (width count : Nat) : Except Breach Unit :=
  if fits width count then .ok () else .error .capacity

end Tenancy
