import Tenancy.Greeting

/-!
The words of the command line.

Options stand anywhere before a lone `--`, each at most once. A setting takes its value after `=` or
from the next word, which must not look like an option. What is left is the name to greet.
-/

namespace Tenancy.CommandLine

inductive Argument where
  | name (text : String)
  | dump
  | verbose
  | setting (option : String) (value : Nat)
deriving DecidableEq

def process? (word : String) : Option Nat :=
  match Numeral.integer? word.toList with
  | some i => if 0 ≤ i ∧ i < 0x10000 then some i.toNat else none
  | none => none

def size? (word : String) : Option Nat :=
  if word.toList.head? = some '-' then none
  else
    match Numeral.integer? word.toList with
    | some i => if i < 0x10000000000000000 then some i.toNat else none
    | none => none

def settings : List (String × String) := [
  ("process-id", "process_id"),
  ("call-stack-size", "call_stack_size"),
  ("domain-stack-size", "domain_stack_size"),
  ("value-stack-size", "value_stack_size"),
  ("gc-initial-threshold", "gc_initial_threshold"),
  ("gc-min-threshold", "gc_min_threshold"),
  ("gc-max-threshold", "gc_max_threshold"),
  ("domain-timeout-ms", "domain_enter_timeout_ms")]

def setting? (option value : String) : Option Argument := do
  let name ← settings.lookup option
  return .setting name (← if option = "process-id" then process? value else size? value)

def flag? (option : String) : Option Argument :=
  match option with
  | "dump" => some .dump
  | "verbose" => some .verbose
  | _ => none

def letter? (c : Char) : Option Argument := if c = 'v' then some .verbose else none

inductive Shape where
  | stop
  | long (option : String) (value : Option String)
  | short (letters : List Char)
  | plain (word : String)

/-- How a word looks. A dash alone is plain. -/
def shape (word : String) : Shape :=
  match word.toList with
  | ['-', '-'] => .stop
  | '-' :: '-' :: rest =>
    match rest.dropWhile (· ≠ '=') with
    | [] => .long (String.ofList rest) none
    | _ :: value => .long (String.ofList (rest.takeWhile (· ≠ '='))) (some (String.ofList value))
  | '-' :: c :: rest => .short (c :: rest)
  | _ => .plain word

def arguments? : List String → Option (List Argument)
  | [] => some []
  | word :: rest =>
    match shape word with
    | .stop => some (rest.map .name)
    | .plain text => do return .name text :: (← arguments? rest)
    | .short letters => do
      let flags ← letters.mapM letter?
      return flags ++ (← arguments? rest)
    | .long option (some value) => do
      let setting ← setting? option value
      return setting :: (← arguments? rest)
    | .long option none =>
      match flag? option with
      | some flag => do return flag :: (← arguments? rest)
      | none =>
        match rest with
        | [] => none
        | value :: rest =>
          match shape value with
          | .plain value => do
            let setting ← setting? option value
            return setting :: (← arguments? rest)
          | _ => none

def Argument.clashes : Argument → Argument → Bool
  | .name _, .name _ | .dump, .dump | .verbose, .verbose => true
  | .setting a _, .setting b _ => a = b
  | _, _ => false

def distinct : List Argument → Bool
  | [] => true
  | a :: rest => !rest.any a.clashes && distinct rest

def nameOf (arguments : List Argument) : String :=
  (arguments.findSome? fun
    | .name text => some text
    | _ => none).getD "Alice"

def choice (arguments : List Argument) (setting : String) : Option Nat :=
  arguments.findSome? fun
    | .setting name value => if name = setting then some value else none
    | _ => none

/-- Runs the greeting as the words ask for it. Words without meaning make a misuse, code 2. -/
def run (words : List String) : Report :=
  match (arguments? words).filter distinct with
  | none => ⟨2, "", "error: the command line is not understood\n"⟩
  | some arguments =>
    let settings := Settings.ofOverrides (Overrides.ofNames (choice arguments))
    Greeting.run settings (arguments.contains .dump) (nameOf arguments)

end Tenancy.CommandLine
