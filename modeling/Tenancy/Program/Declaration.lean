import Tenancy.Program.Basic

/-!
Building declarations piece by piece.
-/

namespace Tenancy.Declaration

/-- A part that is named again counts once. -/
def addPart (d : Declaration) (name : String) : Declaration :=
  if d.parts.contains name then d else { d with parts := d.parts ++ [name] }

def addVariable (d : Declaration) (v : Variable) : Declaration :=
  { d with ownVariables := d.ownVariables ++ [v] }

def addConstant (d : Declaration) (v : Value) : Declaration :=
  { d with constants := d.constants ++ [v] }

def function? (d : Declaration) (name : String) : Option Function :=
  d.functions.find? (·.name = name)

def functionNumber (d : Declaration) (name : String) : Nat := d.functions.findIdx (·.name = name)

/-- Declares a function. One that is declared already takes the new traits and keeps the rest. -/
def defineFunction (d : Declaration) (name : String) (traits : Traits) : Declaration :=
  if d.functions.any (·.name = name) then
    { d with functions := d.functions.modify (d.functionNumber name) fun f => { f with traits } }
  else { d with functions := d.functions ++ [{ name, number := d.functions.length, traits }] }

def modifyFunction (d : Declaration) (number : Nat) (f : Function → Function) : Declaration :=
  { d with functions := d.functions.modify number f }

end Tenancy.Declaration
