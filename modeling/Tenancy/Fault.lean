import Tenancy.Code.Instruction
import Tenancy.Value

/-!
Failures.

A fault is a recoverable failure of an operation or a call. A breach is a broken rule of use, after
which nothing more can be said about the state.
-/

namespace Tenancy

inductive Fault where
  | badArgumentCount (expected got : Nat)
  | badArgumentType (function : String) (index : Nat) (expected got : ValueType)
  | unsupportedOperands (op : String) (left right : ValueType)
  | divisionByZero
  | indexOutOfRange (index : Int64) (length : Nat)
  | notIndexable (container key : ValueType)
  | readOnly (type : ValueType)
  | stackOverflow (depth : Nat)
  | domainStackOverflow (depth : Nat)
  | invalidOpcode (code : UInt8)
  | badOperand (operand : Operand)
  | badComponent (component function : Nat)
  | domainTimeout (domain : DomainId)
  | domainReentered (domain : DomainId)
  | domainNotEmpty (domain : DomainId) (objects : Nat)
  | unknownEfun (name : String)
  | freedValue
  | alreadyAttached
  | custom (text : String)
deriving DecidableEq

def Fault.name : Fault → String
  | .badArgumentCount _ _ => "BadArgumentCount"
  | .badArgumentType _ _ _ _ => "BadArgumentType"
  | .unsupportedOperands _ _ _ => "UnsupportedOperands"
  | .divisionByZero => "DivisionByZero"
  | .indexOutOfRange _ _ => "IndexOutOfRange"
  | .notIndexable _ _ => "NotIndexable"
  | .readOnly _ => "ReadOnly"
  | .stackOverflow _ => "StackOverflow"
  | .domainStackOverflow _ => "DomainStackOverflow"
  | .invalidOpcode _ => "InvalidOpcode"
  | .badOperand _ => "BadOperand"
  | .badComponent _ _ => "BadComponent"
  | .domainTimeout _ => "DomainTimeout"
  | .domainReentered _ => "DomainReentered"
  | .domainNotEmpty _ _ => "DomainNotEmpty"
  | .unknownEfun _ => "UnknownEfun"
  | .freedValue => "FreedValue"
  | .alreadyAttached => "ThreadAlreadyAttached"
  | .custom _ => "Custom"

def Fault.message : Fault → String
  | .badArgumentCount expected got => s!"Bad parameters, expected {expected}, got {got}"
  | .badArgumentType function index expected got =>
    s!"Bad argument {index} to {function}, expected {expected.name}, got {got.name}"
  | .unsupportedOperands op left right =>
    s!"Unsupported operand types for {op}: {left.name} and {right.name}"
  | .divisionByZero => "Division by zero"
  | .indexOutOfRange index length => s!"Index {index.toInt} out of range for length {length}"
  | .notIndexable container key => s!"Cannot index {container.name} with {key.name}"
  | .readOnly type => s!"Cannot modify constant {type.name}"
  | .stackOverflow depth => s!"Call stack overflow at depth {depth}"
  | .domainStackOverflow depth => s!"Domain stack overflow at depth {depth}"
  | .invalidOpcode code => s!"Invalid opcode 0x{Text.Hex.ofByte code}"
  | .badOperand operand => s!"Operand {operand.text} out of range"
  | .badComponent component function => s!"No function {function} in component {component}"
  | .domainTimeout domain => s!"Timed out waiting for domain {domain.text}"
  | .domainReentered domain => s!"Domain {domain.text} entered twice by the same thread"
  | .domainNotEmpty domain objects => s!"Domain {domain.text} still has {objects} objects"
  | .unknownEfun name => s!"Unknown efun {name}"
  | .freedValue => "Access to a collected value"
  | .alreadyAttached => "This OS thread already has a runtime thread attached"
  | .custom text => text

inductive Exemption where
  | constant | shared
deriving DecidableEq

def Exemption.name : Exemption → String
  | .constant => "CONSTANT"
  | .shared => "SHARED"

inductive Breach where
  | boundElsewhere
  | ownedExemption (exemption : Exemption)
  | reentered (domain : DomainId)
  | notHeld (domain : DomainId) (thread : ThreadKey)
  | corruptMark
  | leavingHome
  | stackIndex (index size : Nat)
  | stackStart (start size : Nat)
  | stackStop (stop size : Nat)
  /-- More than fits into a block. -/
  | capacity
  /-- A sum of sizes that is no size. -/
  | sumTooLarge
  /-- A product of sizes that is no size. -/
  | productTooLarge
deriving DecidableEq

def Breach.message : Breach → String
  | .boundElsewhere => "already bound to other owner"
  | .ownedExemption exemption => s!"Cannot make an owned value RefAttrib({exemption.name})"
  | .reentered domain => s!"Domain {domain.text} entered twice by the same thread"
  | .notHeld domain thread => s!"Leaving domain {domain.text} not held by {thread.text}"
  | .corruptMark => "Corrupted call stack restore target"
  | .leavingHome => "Switching back out of the home domain"
  | .stackIndex index size => s!"index out of bounds: the len is {size} but the index is {index}"
  | .stackStart start size => s!"range start index {start} out of range for slice of length {size}"
  | .stackStop stop size => s!"range end index {stop} out of range for slice of length {size}"
  | .capacity => "capacity overflow"
  | .sumTooLarge => "attempt to add with overflow"
  | .productTooLarge => "attempt to multiply with overflow"

end Tenancy
