import Tenancy.Machine.Basic

/-!
Calls: from a request to the frame that runs, or to the domain to go to first.
-/

namespace Tenancy

structure Callable where
  object : ObjectKey
  program : Program
  function : Function
  component : Nat
  isEfun : Bool

namespace Machine

def raise (m : Machine) (f : Fault) : Machine := { m with focus := .fault f }

def answer (m : Machine) (v : Value) : Machine := { m with focus := .result v }

def newFrame (m : Machine) (c : Callable) (args : List Value) : Frame :=
  let base := m.thread.stack.size
  let slots := max args.length c.function.maxArgs
  let (offset, count) :=
    if c.isEfun then (0, 0)
    else ((m.world.object c.object).program.slice? c.component).getD (0, 0)
  { object := c.object
    program := c.program
    function := c.function
    component := c.component
    memberOffset := offset
    memberCount := count
    isEfun := c.isEfun
    argsBase := base
    argc := args.length
    argSlots := slots
    localsBase := base + slots
    localCount := c.function.locals
    domainDepth := m.thread.domains.length - 1 }

def pushFrame (t : Thread) (f : Frame) (args : List Value) : Thread :=
  { t with
    stack := t.stack ++ args.toArray
      ++ Array.replicate (f.argSlots - f.argc + f.localCount) Value.nil
    frames := f :: t.frames }

def beginNative (m : Machine) (f : Frame) (body : Native Value) : Except Breach Machine :=
  match Exec.checkParameters f m.toState with
  | .ok () s => .ok { m with toState := s, focus := .native body }
  | .error (.fault fault) s => .ok { m with toState := s, focus := .fault fault }
  | .error (.breach b) _ => .error b

def reserve (f : Frame) : Except Breach Unit := do
  Block.reserve Value.width (← Size.add f.localsBase f.localCount)

def invoke (m : Machine) (c : Callable) (args : List Value) : Except Breach Machine :=
  let depth := m.thread.frames.length
  if m.world.settings.callDepth ≤ depth then .ok (m.raise (.stackOverflow depth))
  else
    let f := m.newFrame c args
    match reserve f with
    | .error b => .error b
    | .ok () =>
      let m :=
        { m with
          thread := pushFrame m.thread f args
          pending := .frame f.argsBase :: m.pending }
      match c.function.body with
      | .native body => m.beginNative f body
      | .code instructions => .ok { m with focus := .code f instructions 0 }
      | .undefined => .ok (m.answer .nil)

def callComponent (m : Machine) (object : ObjectKey) (component function : Nat)
    (args : List Value) : Except Breach Machine :=
  match (m.world.object object).program.component? component with
  | none => .ok (m.raise (.badComponent component function))
  | some program =>
    match program.functions[function]? with
    | none => .ok (m.raise (.badComponent component function))
    | some f => m.invoke ⟨object, program, f, component, false⟩ args

/-- A name that the object does not offer yields nil. -/
def callObject (m : Machine) (object : ObjectKey) (name : String) (args : List Value) :
    Except Breach Machine :=
  match (m.world.object object).program.publicCallee? name with
  | none => .ok (m.answer .nil)
  | some callee => m.callComponent object callee.component callee.function args

def noFrame : Fault := .custom "no active call context"

def callFar (m : Machine) (component function : Nat) (args : List Value) :
    Except Breach Machine :=
  match m.thread.frames with
  | [] => .ok (m.raise noFrame)
  | f :: _ =>
    let running := if f.isEfun then 0 else f.component
    match (m.world.object f.object).program.mapped? running component with
    | none => .ok (m.raise (.badComponent component function))
    | some mapped => m.callComponent f.object mapped function args

def callSelf (m : Machine) (name : String) (args : List Value) : Except Breach Machine :=
  match m.thread.frames with
  | [] => .ok (m.raise noFrame)
  | f :: _ =>
    let whole := (m.world.object f.object).program
    let (program, running) := if f.isEfun then (whole, 0) else (f.program, f.component)
    match program.selfCallee? name with
    | none => .ok (m.answer .nil)
    | some callee =>
      match whole.mapped? running callee.component with
      | none => .ok (m.raise (.badComponent callee.component callee.function))
      | some mapped => m.callComponent f.object mapped callee.function args

def efunProgram : Program := Program.link { name := Efun.programName } []

def callEfun (m : Machine) (name : String) (args : List Value) : Except Breach Machine :=
  match m.world.efuns.find? name with
  | none => .ok (m.raise (.unknownEfun name))
  | some function =>
    match m.thread.frames with
    | [] => .ok (m.raise noFrame)
    | f :: _ => m.invoke ⟨f.object, efunProgram, function, 0, true⟩ args

/-- The visit leads nowhere: the thread stays where it is. -/
def stay (errand : Errand) : Focus :=
  match errand with
  | .call _ => .result .nil
  | .stay => .done .stayed

def departHere (m : Machine) : Except Breach Machine := do
  let context := m.thread.current
  let size := m.thread.stack.size
  if size < context.start then throw (.stackStart context.start size)
  let parked : ParkedWindow := ⟨m.thread.key, m.thread.domains.length - 1, m.thread.window⟩
  let w := m.world.modifyDomain context.domain (·.park parked)
  return { m with world := ← w.leave context.domain m.thread.key }

def visit (m : Machine) (target : ObjectId) (args : List Value) (errand : Errand) :
    Except Breach Machine :=
  let depth := m.thread.domains.length
  if m.world.settings.domainDepth ≤ depth then .ok (m.raise (.domainStackOverflow depth))
  else
    let found := m.world.findObject? target
    match found.bind fun o => m.world.findDomain? (m.world.object o).domain with
    | none => .ok { m with focus := stay errand }
    | some domain =>
      match Exec.onHeap (Heap.copyAll m.thread.transfer args) m.toState with
      | .error (.fault f) s => .ok { m with toState := s, focus := .fault f }
      | .error (.breach b) _ => .error b
      | .ok moved s => do
        let m ← departHere { m with toState := s }
        return { m with focus := .visiting domain target moved errand }

/-- A dead object and a name that the object does not offer yield nil. -/
def callOther (m : Machine) (target : ObjectId) (name : String) (args : List Value) :
    Except Breach Machine :=
  match m.world.findObject? target with
  | none => .ok (m.answer .nil)
  | some key =>
    let o := m.world.object key
    match o.program.publicCallee? name with
    | none => .ok (m.answer .nil)
    | some _ =>
      if o.domain = (m.world.domain m.thread.current.domain).id then m.callObject key name args
      else m.visit target args (.call name)

def request (m : Machine) : Request → Except Breach Machine
  | .other target name args => m.callOther target name args
  | .far component function args => m.callFar component function args
  | .self name args => m.callSelf name args
  | .efun name args => m.callEfun name args

end Machine

end Tenancy
