import Tenancy.Function
import Tenancy.Numeral
import Tenancy.Text.CharClass

/-!
Prototypes: the head of a function as text.

    prototype := ['?'] type name '(' [param (',' param)* [',' '...'] | '...'] ')'
    param     := type ['?'] name ['=' literal]
    literal   := integer | real | '"' chars '"' | 'nil'

Blanks may stand before every token and at the end. A parameter after one with a default needs a
default too.
-/

namespace Tenancy

inductive Literal where
  | nil
  | integer (i : Int64)
  | real (r : Binary64)
  | string (text : String)
deriving DecidableEq

structure PrototypeParam where
  name : String
  type : ParamType
  nullable : Bool
  default : Option Literal
deriving DecidableEq

structure Prototype where
  name : String
  returnType : ParamType
  traits : Traits
  params : List PrototypeParam
deriving DecidableEq

namespace Prototype

inductive Reason where
  | expectedToken (token : String)
  | expectedIdentifier
  | unknownType (name : String)
  | unterminatedString
  | badDefault (word : String)
  | needsDefault (param : String)
  | trailing (rest : String)
deriving DecidableEq

def Reason.message : Reason → String
  | .expectedToken token => "expected `" ++ token ++ "`"
  | .expectedIdentifier => "expected identifier"
  | .unknownType name => "unknown type `" ++ name ++ "`"
  | .unterminatedString => "unterminated string"
  | .badDefault word => "bad default `" ++ word ++ "`"
  | .needsDefault param => "`" ++ param ++ "` needs a default"
  | .trailing rest => "trailing `" ++ rest ++ "`"

abbrev Reader := StateT (List Char) (Except Reason)

def skipBlank : Reader Unit := modify (·.dropWhile Text.isBlank)

/-- The rest of `cs` after `token`. -/
def after? : List Char → List Char → Option (List Char)
  | [], cs => some cs
  | t :: token, c :: cs => if t = c then after? token cs else none
  | _ :: _, [] => none

def eat (token : String) : Reader Bool := do
  skipBlank
  match after? token.toList (← get) with
  | some rest => set rest; return true
  | none => return false

def expect (token : String) : Reader Unit := do
  if !(← eat token) then throw (.expectedToken token)

def isNameChar (c : Char) : Bool := c.isAlphanum || c == '_'

def isWordChar (c : Char) : Bool := isNameChar c || c == '-' || c == '+' || c == '.'

def readName : Reader String := do
  skipBlank
  let (name, rest) := (← get).span isNameChar
  if name.isEmpty then throw .expectedIdentifier
  set rest
  return String.ofList name

def readType : Reader ParamType := do
  let name ← readName
  match ParamType.ofName? name with
  | some t => return t
  | none => throw (.unknownType name)

def word? (word : List Char) : Option Literal :=
  if word = ['n', 'i', 'l'] then some .nil
  else
    match Numeral.int64? word with
    | some i => some (.integer i)
    | none => (Numeral.real? word).map .real

def readLiteral : Reader Literal := do
  skipBlank
  match ← get with
  | '"' :: rest =>
    match rest.span (· != '"') with
    | (text, _ :: rest) => set rest; return .string (String.ofList text)
    | (_, []) => throw .unterminatedString
  | cs =>
    let (word, rest) := cs.span isWordChar
    match word? word with
    | some l => set rest; return l
    | none => throw (.badDefault (String.ofList word))

def readParam (earlier : List PrototypeParam) : Reader PrototypeParam := do
  let t ← readType
  let nullable ← eat "?"
  let name ← readName
  if ← eat "=" then
    return ⟨name, t, nullable, some (← readLiteral)⟩
  else if earlier.any (·.default.isSome) then throw (.needsDefault name)
  else return ⟨name, t, nullable, none⟩

/-- The parameters from the start of one on, up to the closing parenthesis, and whether more
arguments are taken. Every round reads a name, so the length of the text bounds the rounds. -/
def readParams : Nat → List PrototypeParam → Reader (List PrototypeParam × Bool)
  | 0, _ => throw .expectedIdentifier
  | fuel + 1, earlier => do
    if ← eat "..." then
      expect ")"
      return (earlier, true)
    else
      let earlier := earlier ++ [← readParam earlier]
      if ← eat ")" then return (earlier, false)
      else
        expect ","
        readParams fuel earlier

def readPrototype : Reader Prototype := do
  let nullable ← eat "?"
  let returnType ← readType
  let name ← readName
  expect "("
  let (params, variadic) ←
    if ← eat ")" then pure ([], false) else readParams ((← get).length + 1) []
  skipBlank
  let rest ← get
  if !rest.isEmpty then throw (.trailing (String.ofList rest))
  return { name, returnType, traits := { variadic, nullable }, params }

end Prototype

structure PrototypeError where
  text : String
  reason : Prototype.Reason
deriving DecidableEq

def PrototypeError.message (e : PrototypeError) : String :=
  "bad prototype `" ++ e.text ++ "`: " ++ e.reason.message

namespace Prototype

def parse (text : String) : Except PrototypeError Prototype :=
  match readPrototype.run text.toList with
  | .ok (p, _) => .ok p
  | .error reason => .error ⟨text, reason⟩

/-- A literal as a value; the payload of a string is constant. -/
def literalValue (h : Heap) : Literal → Value × Heap
  | .nil => (.nil, h)
  | .integer i => (.integer i, h)
  | .real r => (.real r, h)
  | .string text => h.make (.exempt .constant) (.string text)

def parameter (h : Heap) (p : PrototypeParam) : Parameter × Heap :=
  match p.default with
  | none => ({ name := p.name, type := p.type, nullable := p.nullable }, h)
  | some l =>
    let (v, h) := literalValue h l
    ({ name := p.name, type := p.type, nullable := p.nullable, default := some v }, h)

def parameters (h : Heap) : List PrototypeParam → List Parameter × Heap
  | [] => ([], h)
  | p :: rest =>
    let (p, h) := parameter h p
    let (rest, h) := parameters h rest
    (p :: rest, h)

def toFunction (p : Prototype) (number : Nat) (body : Body) (h : Heap) : Function × Heap :=
  let (params, h) := parameters h p.params
  ({ name := p.name, number, traits := p.traits, params, returnType := p.returnType, body }, h)

end Prototype

end Tenancy
