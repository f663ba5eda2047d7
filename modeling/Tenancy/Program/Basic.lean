import Tenancy.Function
import Tenancy.Text.Quoted

/-!
Programs: code and layout shared by all objects made from them.

A program is composed of other programs. Its components are the program itself, then all that it is
composed of, each once. Code refers to components by the number that they have in its own program;
a table for each component says which number that is in the composing one.
-/

namespace Tenancy

structure Variable where
  name : String
  type : ParamType

structure Declaration where
  name : String
  parts : List String := []
  ownVariables : List Variable := []
  constants : List Value := []
  functions : List Function := []

structure Program where
  name : String
  ownVariables : List Variable
  constants : List Value
  functions : List Function
  inherited : List Program

instance : Inhabited Program := ⟨⟨"", [], [], [], []⟩⟩

def Declaration.literals (d : Declaration) : List Value :=
  d.constants ++ d.functions.flatMap Function.defaults

structure Callee where
  component : Nat
  function : Nat
deriving DecidableEq

namespace Program

def components (p : Program) : List Program := p :: p.inherited

def component? (p : Program) (k : Nat) : Option Program := p.components[k]?

def literals (p : Program) : List Value :=
  p.components.flatMap fun q => q.constants ++ q.functions.flatMap Function.defaults

/-- The programs among `found` and then `more`, the first of each name. -/
def firstOfName (found more : List Program) : List Program :=
  more.foldl (fun found q => if found.any (·.name = q.name) then found else found ++ [q]) found

/-- All components of the parts but the program `name` itself, the first of each name. -/
def flatten (name : String) (parts : List Program) : List Program :=
  firstOfName [] ((parts.flatMap components).filter (·.name ≠ name))

def link (d : Declaration) (parts : List Program) : Program :=
  { name := d.name
    ownVariables := d.ownVariables
    constants := d.constants
    functions := d.functions
    inherited := flatten d.name parts }

def storage : List Program → Nat
  | [] => 0
  | p :: rest => p.ownVariables.length + storage rest

def offset (p : Program) (k : Nat) : Nat := storage (p.components.take k)

def size (p : Program) : Nat := storage p.components

def slice? (p : Program) (k : Nat) : Option (Nat × Nat) :=
  (p.component? k).map fun q => (p.offset k, q.ownVariables.length)

def numberOf (p : Program) (name : String) : Nat := p.components.findIdx (·.name = name)

def numbers (p : Program) (k : Nat) (q : Program) : List Nat :=
  if k = 0 then List.range p.components.length else q.components.map fun c => p.numberOf c.name

def numberTable (p : Program) : List Nat := (p.components.mapIdx p.numbers).flatten

def tableSize : List Program → Nat
  | [] => 0
  | p :: rest => p.components.length + tableSize rest

def tableOffsets (p : Program) : List Nat :=
  (List.range p.components.length).map fun k => tableSize (p.components.take k)

/-- The number in this program of component `target` as component `running` sees it. -/
def mapped? (p : Program) (running target : Nat) : Option Nat := do
  let base ← p.tableOffsets[running]?
  let q ← p.component? running
  if target < q.components.length then p.numberTable[base + target]? else none

def publicFunctions (p : Program) : List (String × Callee) :=
  (p.components.mapIdx fun k q =>
    (q.functions.filter fun f => !f.traits.internal).map fun f => (f.name, ⟨k, f.number⟩)).flatten

/-- The program's own functions, then the public ones of the other components. -/
def selfFunctions (p : Program) : List (String × Callee) :=
  p.functions.map (fun f => (f.name, ⟨0, f.number⟩)) ++ p.publicFunctions

def publicCallee? (p : Program) (name : String) : Option Callee := p.publicFunctions.lookup name

def selfCallee? (p : Program) (name : String) : Option Callee := p.selfFunctions.lookup name

def publicCallees (p : Program) : List (String × Callee) :=
  p.publicFunctions.foldl
    (fun found c => if found.any (·.1 = c.1) then found else found ++ [c]) []

def function? (p : Program) (name : String) : Option Function := p.functions.find? (·.name = name)

def variableIndex? (p : Program) (name : String) : Option Nat :=
  p.ownVariables.findIdx? (·.name = name)

def numberList (numbers : List Nat) : String :=
  "[" ++ ", ".intercalate (numbers.map toString) ++ "]"

def layoutText (p : Program) : String :=
  let lines := p.components.mapIdx fun k q =>
    let map := (List.range q.components.length).filterMap (p.mapped? k)
    s!"  #{k} {q.name} @{p.offset k}+{q.ownVariables.length} map {numberList map}\n"
  s!"program {p.name} ({p.size} slots)\n" ++ String.join lines

def describe (p : Program) : String :=
  let fields := [
    "name: " ++ Text.quote p.name,
    "components: " ++ Text.quoteAll (p.components.map Program.name),
    s!"functions: {p.functions.length}"]
  "Program \x7b " ++ ", ".intercalate fields ++ " \x7d"

end Program

end Tenancy
