import Tenancy.Blueprint
import Tenancy.Heap.Render

/-!
Scripts: native bodies as lists of steps on registers.

A body that comes to the end of its steps returns nil.
-/

namespace Tenancy

inductive ScriptCall where
  | other (target : Blueprint) (name : String)
  /-- A fault is caught and its text is the result. -/
  | tryOther (target : Blueprint) (name : String)
  | far (component function : Nat)
  | self (name : String)
  | efun (name : String)

inductive ScriptOp where
  | binary (op : BinaryOp)
  | index

inductive ScriptAction where
  | value (v : Blueprint)
  | fail (text : String)
  | argc
  | args
  | member (index : Nat)
  | setMember (value : Blueprint) (index : Nat)
  | keep (value : Blueprint)
  /-- With a mark, a fault is caught, unwound to the mark, and its text is the result. -/
  | call (call : ScriptCall) (args : List Blueprint) (rescue : Option String)
  | save (mark : String)
  | output (value : Blueprint)
  | log (value : Blueprint)
  | depth
  | objectSize
  | domainSize
  | domainName
  | newObject (program : String)
  | destruct (target : Blueprint)
  | collect (roots : List Blueprint)
  | operate (op : ScriptOp) (left right : Blueprint)
  | indexSet (container key value : Blueprint)
  | arrayPush (container value : Blueprint)

inductive ScriptStep where
  /-- The result goes to the register. -/
  | perform (action : ScriptAction) (register : Option String)
  | ret (value : Blueprint)
  | branch (condition : Blueprint) (yes no : List ScriptStep) (register : Option String)

instance : Inhabited ScriptStep := ⟨.ret default⟩

namespace Script

structure Env where
  registers : List (String × Value) := []
  marks : List (String × Mark) := []

def Env.set (e : Env) (register : Option String) (v : Value) : Env :=
  match register with
  | some name => { e with registers := (name, v) :: e.registers }
  | none => e

open Native

def builder (e : Env) : Builder Native where
  make share draft := ask (.make share draft)
  named name := ask (.lookup name)
  register name := pure ((e.registers.lookup name).getD .nil)
  argument index := do return (← ask .args).getD index .nil
  this := ask .thisObject

def build (e : Env) (v : Blueprint) : Native Value := (builder e).build .here v

def buildAll (e : Env) (vs : List Blueprint) : Native (List Value) := (builder e).buildAll .here vs

def objectOf (v : Value) : ObjectId := v.object?.getD .null

def faultText (f : Fault) : Native Value := ask (.make .here (.string f.message))

/-- The result of a call; a fault is raised, or else unwound to the mark and turned into its
text. -/
def settle (e : Env) (rescue : Option String) : Except Fault Value → Native Value
  | .ok v => pure v
  | .error f =>
    match rescue with
    | none => .raise f
    | some name =>
      match e.marks.lookup name with
      | some mark => do
        ask (.restore mark)
        faultText f
      | none => .raise f

def call (e : Env) (c : ScriptCall) (args : List Blueprint) (rescue : Option String) :
    Native Value :=
  match c with
  | .other target name => do
    let target ← build e target
    let args ← buildAll e args
    settle e rescue (← ask (.call (.other (objectOf target) name args)))
  | .tryOther target name => do
    let target ← build e target
    let args ← buildAll e args
    match ← ask (.tryCall (objectOf target) name args) with
    | .ok v => return v
    | .error f =>
      if let some mark := rescue.bind fun name => e.marks.lookup name then ask (.restore mark)
      faultText f
  | .far component function => do
    let args ← buildAll e args
    settle e rescue (← ask (.call (.far component function args)))
  | .self name => do
    let args ← buildAll e args
    settle e rescue (← ask (.call (.self name args)))
  | .efun name => do
    let args ← buildAll e args
    settle e rescue (← ask (.call (.efun name args)))

def natural (n : Nat) : Value := .integer (Int64.ofNat n)

/-- Home domains are named alike, whatever thread they are the home of. -/
def plainDomainName (name : String) : String :=
  if name.startsWith "home of " then "home" else name

def perform (e : Env) : ScriptAction → Native Value
  | .value v => build e v
  | .fail text => .raise (.custom text)
  | .argc => do return natural (← ask .argc)
  | .args => do ask (.make .here (.array (← ask .args)))
  | .member index => do ofExcept (← ask (.member index))
  | .setMember v index => do
    let v ← build e v
    ofExcept (← ask (.setMember index v))
    return .nil
  | .keep v => do
    let v ← build e v
    ask (.keep v)
    return .nil
  | .call c args rescue => call e c args rescue
  | .save _ => return .nil
  | .output v => do
    let v ← build e v
    let h ← ask .heap
    ask (.output (h.text v))
    return .nil
  | .log v => do
    let v ← build e v
    ask (.report v)
    return .nil
  | .depth => do return natural (← ask .callDepth)
  | .objectSize => do return natural (← ask .objectSize)
  | .domainSize => do return natural (← ask .domainSize)
  | .domainName => do
    let name ← ask .domainName
    ask (.make .here (.string (plainDomainName name)))
  | .newObject program => do
    match ← ask (.newObject program) with
    | some id => return .object id
    | none => return .nil
  | .destruct target => do
    let target ← build e target
    return .ofBool (← ask (.destruct (objectOf target)))
  | .collect roots => do
    let roots ← buildAll e roots
    return natural (← ask (.collect roots))
  | .operate op a b => do
    let a ← build e a
    let b ← build e b
    match op with
    | .binary op => ofExcept (← ask (.binary op a b))
    | .index => ofExcept (← ask (.indexGet a b))
  | .indexSet container key v => do
    let container ← build e container
    let key ← build e key
    let v ← build e v
    ofExcept (← ask (.indexSet container key v))
    return .nil
  | .arrayPush container v => do
    let container ← build e container
    let v ← build e v
    ofExcept (← ask (.arrayPush container v))
    return .nil

inductive Flow where
  | returned (v : Value)
  | next (e : Env)

mutual

def step (e : Env) : ScriptStep → Native Flow
  | .perform (.save name) register => do
    let mark ← ask .savePoint
    return .next ({ e with marks := (name, mark) :: e.marks }.set register .nil)
  | .perform action register => do
    return .next (e.set register (← perform e action))
  | .ret v => do return .returned (← build e v)
  | .branch condition yes no register => do
    let c ← build e condition
    match ← (if c.truthy then steps e yes else steps e no) with
    | .returned v => return .returned v
    | .next e => return .next (e.set register .nil)

def steps (e : Env) : List ScriptStep → Native Flow
  | [] => return .next e
  | s :: rest => do
    match ← step e s with
    | .returned v => return .returned v
    | .next e => steps e rest

end

def body (script : List ScriptStep) : Native Value := do
  match ← steps {} script with
  | .returned v => return v
  | .next _ => return .nil

end Script

end Tenancy
