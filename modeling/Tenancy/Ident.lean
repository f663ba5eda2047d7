/-!
Identities of objects and domains.

An identity is one 64-bit word. From high to low it holds the process that issued it (16 bits), the
page (24) and the place on the page (8) of its slot, and the version of that slot (16).
-/

namespace Tenancy

structure GlobalId where
  raw : UInt64
deriving DecidableEq

namespace GlobalId

def pageSize : Nat := 256

def null : GlobalId := ⟨0⟩

instance : Inhabited GlobalId := ⟨null⟩

/-- Page numbers past 24 bits lose their high bits. -/
def ofParts (process : UInt16) (index : Nat) (version : UInt16) : GlobalId :=
  ⟨UInt64.ofNat (process.toNat * 0x1000000000000 + index / pageSize % 0x1000000 * 0x1000000
    + index % pageSize * 0x10000 + version.toNat)⟩

def process (id : GlobalId) : UInt16 := UInt16.ofNat (id.raw.toNat / 0x1000000000000)

def page (id : GlobalId) : Nat := id.raw.toNat / 0x1000000 % 0x1000000

def place (id : GlobalId) : Nat := id.raw.toNat / 0x10000 % 0x100

def index (id : GlobalId) : Nat := id.page * pageSize + id.place

def version (id : GlobalId) : UInt16 := UInt16.ofNat (id.raw.toNat % 0x10000)

def isNull (id : GlobalId) : Bool := id.raw == 0

def text (id : GlobalId) : String :=
  s!"{id.process.toNat}:{id.index}v{id.version.toNat}"

/-- The text with its type named, as it stands inside larger descriptions. -/
def describe (id : GlobalId) : String := s!"GlobalId({id.text})"

end GlobalId

structure ObjectId where
  global : GlobalId
deriving DecidableEq

namespace ObjectId

def null : ObjectId := ⟨.null⟩

instance : Inhabited ObjectId := ⟨null⟩

def text (id : ObjectId) : String := id.global.text

def describe (id : ObjectId) : String := s!"ObjectId({id.global.describe})"

end ObjectId

structure DomainId where
  global : GlobalId
deriving DecidableEq

namespace DomainId

def null : DomainId := ⟨.null⟩

instance : Inhabited DomainId := ⟨null⟩

def text (id : DomainId) : String := id.global.text

def describe (id : DomainId) : String := s!"DomainId({id.global.describe})"

end DomainId

/-- Who holds a domain. Every attached thread has a key of its own. -/
structure ThreadKey where
  number : Nat
deriving DecidableEq, Inhabited

def ThreadKey.text (key : ThreadKey) : String := s!"thread#{key.number}"

end Tenancy
