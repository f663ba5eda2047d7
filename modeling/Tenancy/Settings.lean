/-!
Limits of a world, and the choices that override the defaults.
-/

namespace Tenancy

structure Settings where
  /-- Stamped into every identity. -/
  process : UInt16 := 1
  callDepth : Nat := 256
  domainDepth : Nat := 64
  stackCapacity : Nat := 4096
  firstThreshold : Nat := 8
  minThreshold : Nat := 256
  maxThreshold : Nat := 1024
  /-- How long a thread waits for a busy domain, in milliseconds; without it, forever. -/
  enterTimeout : Option Nat := none
deriving DecidableEq

structure Overrides where
  process : Option UInt16 := none
  callDepth : Option Nat := none
  domainDepth : Option Nat := none
  stackCapacity : Option Nat := none
  firstThreshold : Option Nat := none
  minThreshold : Option Nat := none
  maxThreshold : Option Nat := none
  enterTimeout : Option Nat := none

def Overrides.ofNames (choice : String → Option Nat) : Overrides where
  process := (choice "process_id").map UInt16.ofNat
  callDepth := choice "call_stack_size"
  domainDepth := choice "domain_stack_size"
  stackCapacity := choice "value_stack_size"
  firstThreshold := choice "gc_initial_threshold"
  minThreshold := choice "gc_min_threshold"
  maxThreshold := choice "gc_max_threshold"
  enterTimeout := choice "domain_enter_timeout_ms"

namespace Settings

/-- The greatest threshold is never below the least one. -/
def ofOverrides (o : Overrides) : Settings :=
  let defaults : Settings := {}
  let minThreshold := o.minThreshold.getD defaults.minThreshold
  { process := o.process.getD defaults.process
    callDepth := o.callDepth.getD defaults.callDepth
    domainDepth := o.domainDepth.getD defaults.domainDepth
    stackCapacity := o.stackCapacity.getD defaults.stackCapacity
    firstThreshold := o.firstThreshold.getD defaults.firstThreshold
    minThreshold := minThreshold
    maxThreshold := max (o.maxThreshold.getD defaults.maxThreshold) minThreshold
    enterTimeout := o.enterTimeout }

/-- The threshold of a domain in which `live` payloads survived a collection. -/
def nextThreshold (s : Settings) (live : Nat) : Nat :=
  if live < s.minThreshold then s.minThreshold
  else if s.maxThreshold < live then s.maxThreshold
  else live

def thousandths (n : Nat) : String :=
  let digits := [n / 100 % 10, n / 10 % 10, n % 10].map Nat.digitChar
  String.ofList ((digits.reverse.dropWhile (· = '0')).reverse)

def spanText (ms : Nat) : String :=
  if ms = 0 then "0ns"
  else if ms < 1000 then s!"{ms}ms"
  else if ms % 1000 = 0 then s!"{ms / 1000}s"
  else s!"{ms / 1000}.{thousandths ms}s"

def timeoutText : Option Nat → String
  | none => "None"
  | some ms => s!"Some({spanText ms})"

def limits (s : Settings) : List (String × Nat) := [
  ("process_id", s.process.toNat),
  ("call_stack_size", s.callDepth),
  ("domain_stack_size", s.domainDepth),
  ("value_stack_size", s.stackCapacity),
  ("gc_initial_threshold", s.firstThreshold),
  ("gc_min_threshold", s.minThreshold),
  ("gc_max_threshold", s.maxThreshold)]

def describe (s : Settings) : String :=
  let fields := s.limits.map fun (name, limit) => s!"{name}: {limit}"
  "RuntimeSettings \x7b " ++ ", ".intercalate fields
    ++ s!", domain_enter_timeout: {timeoutText s.enterTimeout} \x7d"

end Settings

end Tenancy
