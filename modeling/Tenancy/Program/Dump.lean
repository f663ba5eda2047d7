import Tenancy.Heap.Render
import Tenancy.Program.Basic

/-!
Programs written out for reading: layout, constants and code.
-/

namespace Tenancy.Program

def dumpNumber (n : Nat) : String :=
  let digits := toString n
  String.ofList (List.replicate (4 - digits.length) ' ') ++ digits

def dumpFunction (f : Function) : List String :=
  match f.body with
  | .code instructions =>
    s!"  {f.name}:" ::
      instructions.toList.mapIdx fun pc i => s!"    {dumpNumber pc}  {i.text}"
  | .native _ => [s!"  {f.name}: <native>"]
  | .undefined => [s!"  {f.name}: <undefined>"]

def dump (h : Heap) (p : Program) : List String :=
  [s!"== {p.name} ==", p.layoutText]
    ++ p.constants.mapIdx (fun k c => s!"  c{k} = {h.describe c}")
    ++ p.functions.flatMap dumpFunction

end Tenancy.Program
