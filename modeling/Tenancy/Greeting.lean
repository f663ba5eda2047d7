import Tenancy.Code.Assembly
import Tenancy.Machine.Run
import Tenancy.Program.Dump

/-!
A small world to look at: a player in a home domain greets a listener in another one.

The player is composed of a part that keeps its name. The listener prints what it hears and answers
how many bytes that was. A last call has one argument too many and shows what a failure looks like.
-/

namespace Tenancy

structure Report where
  code : UInt8
  out : String := ""
  err : String := ""
deriving DecidableEq

namespace Greeting

def text : ParamType := .exact (.payload .string)

def constants (texts : List String) : StateM Heap (List Value) :=
  texts.mapM fun text h => h.make (.exempt .constant) (.string text)

def namePart : Declaration where
  name := "/feature/name"
  ownVariables := [⟨"name", text⟩]
  functions := [
    { name := "set_name"
      number := 0
      params := [⟨"name", text, false, none⟩]
      body := .native do
        let name ← Efun.argument 0
        Native.ofExcept (← Native.ask (.setMember 0 name))
        return .nil },
    { name := "get_name"
      number := 1
      returnType := text
      body := .native do Native.ofExcept (← Native.ask (.member 0)) }]

def player : StateM Heap Declaration := do
  return {
    name := "/player"
    parts := ["/feature/name"]
    constants := ← constants ["Hello, ", "get_name", "hear"]
    functions := [
      { name := "greet"
        number := 0
        params := [⟨"listener", .exact .object, false, none⟩]
        locals := 4
        body := .code (assemble [
          .chkparam,
          .callName (.local 0) 1 0 0,
          .binary .add .dynamic (.local 2) (.constant 0) (.local 0),
          .mov (.local 1) (.argument 0),
          .callOther (.local 3) 2 1 1,
          .ret (.local 3)]) }] }

def listener : StateM Heap Declaration := do
  return {
    name := "/listener"
    constants := ← constants ["\n", "print", "sizeof"]
    functions := [
      { name := "hear"
        number := 0
        params := [⟨"text", text, false, none⟩]
        locals := 2
        body := .code (assemble [
          .chkparam,
          .binary .add .dynamic (.local 0) (.argument 0) (.constant 0),
          .callEfun (.local 1) 1 0 1,
          .mov (.local 0) (.argument 0),
          .callEfun (.local 1) 2 0 1,
          .ret (.local 1)]) }] }

def populate (w : World) : Except LinkError World := do
  let (player, heap) := player w.heap
  let (listener, heap) := listener heap
  let w ← [namePart, player, listener].foldlM World.declare { w with heap }
  return (← w.link).2

def paragraph (lines : List String) : String := String.join (lines.map (· ++ "\n"))

def dump (w : World) : String := paragraph (w.registry.linked.flatMap (·.dump w.heap))

def patience : Nat := 4096

def call (s : State) (target : ObjectId) (name : String) (args : List Value) :
    Except String Value × State :=
  match Machine.runFrom false patience (s.call target name args) with
  | .finished (.returned v) s => (.ok v, s)
  | .finished (.failed fault trace) s => (.error (fault.message ++ "\n" ++ trace.text), s)
  | .finished _ s | .exhausted ⟨s, _, _⟩ | .blocked ⟨s, _, _⟩ => (.error "stuck", s)
  | .broken breach => (.error breach.message, s)

def greet (thread : Thread) (w : World) (name : String) : Report :=
  match w.findProgram? "/player", w.findProgram? "/listener" with
  | some playerProgram, some listenerProgram =>
    let (player, w) := w.newObject playerProgram thread.home
    let (domain, w) := w.createDomain "world"
    let (listener, w) := w.newObject listenerProgram domain
    let player := (w.object player).id
    let listener := (w.object listener).id
    let (name, heap) := w.heap.make (.owned thread.scratch) (.string name)
    match call ⟨{ w with heap }, thread⟩ player "set_name" [name] with
    | (.error failure, s) => ⟨1, String.join s.world.output.reverse, s!"Error: {failure}\n"⟩
    | (.ok _, s) =>
      let (heard, s) := call s player "greet" [.object listener]
      let printed := String.join s.world.output.reverse
      let farewell :=
        match (call s player "get_name" [.integer 1]).1 with
        | .ok _ => ""
        | .error failure => failure ++ "\n"
      match heard with
      | .ok v => ⟨0, printed ++ s!"listener heard {s.world.heap.text v} bytes\n" ++ farewell, ""⟩
      | .error failure => ⟨1, printed ++ farewell, s!"Error: {failure}\n"⟩
  | _, _ => ⟨1, "", "Error: demo programs are not linked\n"⟩

def run (settings : Settings) (withDump : Bool) (name : String) : Report :=
  match populate (World.init settings) with
  | .error e => ⟨1, "", s!"Error linking demo programs: {e.message}\n"⟩
  | .ok w =>
    let report :=
      match Thread.attach w with
      | .ok (thread, w) => greet thread w name
      | .error breach => ⟨101, "", breach.message ++ "\n"⟩
    if withDump then { report with out := dump w ++ report.out } else report

end Greeting

end Tenancy
