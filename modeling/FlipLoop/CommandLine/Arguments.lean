import FlipLoop.Survey
import FlipLoop.Text.Numeral

/-!
# Arguments

The command line names a subcommand with its flags, its options and its operands. A flag or option
may be given once, in any place behind the subcommand; the counted flag for the log may also stand in
front of it, as often as one likes.
-/

namespace FlipLoop.CommandLine

inductive Argument where
  /-- All arguments behind this one are operands. -/
  | terminator
  /-- The counted flag, as many times. -/
  | verbose (times : Nat)
  | long (name : String) (value? : Option String)
  | plain (text : String)
  | malformed

/-- A lone dash is plain, and a value is split off at the first equals sign. -/
def Argument.ofText (text : String) : Argument :=
  match text.toList with
  | ['-', '-'] => .terminator
  | '-' :: '-' :: rest =>
    let name := String.ofList (rest.takeWhile (· != '='))
    match rest.dropWhile (· != '=') with
    | [] => if name = "verbose" then .verbose 1 else .long name none
    | _ :: value => .long name (some (String.ofList value))
  | '-' :: c :: rest => if (c :: rest).all (· == 'v') then .verbose (rest.length + 1) else .malformed
  | _ => .plain text

/-- The names that a subcommand accepts: flags stand alone, options take a value. -/
structure Vocabulary where
  flags : List String
  options : List String

structure Gathered where
  verbose : Nat := 0
  flags : List String := []
  values : List (String × String) := []
  operands : List String := []

namespace Gathered

def addFlag (g : Gathered) (name : String) : Option Gathered :=
  if name ∈ g.flags then none else some { g with flags := name :: g.flags }

def value? (g : Gathered) (name : String) : Option String :=
  g.values.lookup name

def addValue (g : Gathered) (name value : String) : Option Gathered :=
  if (g.value? name).isSome then none else some { g with values := (name, value) :: g.values }

/-- Sorts `arguments` behind those in `g`. The value of an option is split off its argument or is the
next argument, which then must look plain. -/
def extend (known : Vocabulary) (g : Gathered) : List String → Option Gathered
  | [] => some g
  | argument :: rest =>
    match Argument.ofText argument with
    | .terminator => some { g with operands := g.operands ++ rest }
    | .verbose times => extend known { g with verbose := g.verbose + times } rest
    | .plain text => extend known { g with operands := g.operands ++ [text] } rest
    | .malformed => none
    | .long name none =>
      if name ∈ known.flags then
        match g.addFlag name with
        | some g => extend known g rest
        | none => none
      else if name ∈ known.options then
        match rest with
        | [] => none
        | value :: rest =>
          match Argument.ofText value, g.addValue name value with
          | .plain _, some g => extend known g rest
          | _, _ => none
      else
        none
    | .long name (some value) =>
      if name ∈ known.options then
        match g.addValue name value with
        | some g => extend known g rest
        | none => none
      else
        none

/-- The only operand, which names a file and so is not empty. -/
def file? (g : Gathered) : Option String :=
  match g.operands with
  | [file] => if file.isEmpty then none else some file
  | _ => none

end Gathered

/-- A number of 64 bits without a sign: digits, with a plus in front or not. -/
def wordNumber? (text : String) : Option Nat :=
  let digits := match text.toList with
    | '+' :: digits => digits
    | digits => digits
  if digits.isEmpty || !digits.all Char.isDigit then none
  else Text.boundedNumber? (UInt64.size - 1) digits

/-- The value of an option that takes a number; a malformed number is no value. -/
def Gathered.number? (g : Gathered) (name : String) (absent : Option Nat) : Option Nat :=
  match g.value? name with
  | some value => wordNumber? value
  | none => absent

structure RunRequest where
  file : String
  memory : String := ""
  maxSteps : Nat := defaultLimit
  /-- The file is written in the shorthand. -/
  numeric : Bool := false
  quiet : Bool := false

inductive Command where
  | run (request : RunRequest)
  | disasm (file : String) (numeric : Bool)
  | sample (survey : Survey)

def Command.file? : Command → Option String
  | run request => some request.file
  | disasm file _ => some file
  | sample _ => none

structure Invocation where
  verbosity : Nat
  command : Command

def readRun (arguments : List String) : Option Invocation := do
  let g ← Gathered.extend ⟨["numeric", "quiet"], ["memory", "max-steps"]⟩ {} arguments
  let file ← g.file?
  let maxSteps ← g.number? "max-steps" (some defaultLimit)
  some
    { verbosity := g.verbose
      command := .run
        { file
          memory := (g.value? "memory").getD ""
          maxSteps
          numeric := decide ("numeric" ∈ g.flags)
          quiet := decide ("quiet" ∈ g.flags) } }

def readDisasm (arguments : List String) : Option Invocation := do
  let g ← Gathered.extend ⟨["numeric"], []⟩ {} arguments
  let file ← g.file?
  some { verbosity := g.verbose, command := .disasm file (decide ("numeric" ∈ g.flags)) }

def readSample (arguments : List String) : Option Invocation := do
  let g ← Gathered.extend ⟨[], ["seed", "count", "length", "variables", "max-steps"]⟩ {} arguments
  let standard : Survey := { seed := 0 }
  let seed ← g.number? "seed" none
  let count ← g.number? "count" (some standard.count)
  let length ← g.number? "length" (some standard.recipe.length)
  let variableBound ← g.number? "variables" (some standard.recipe.variableBound)
  let maxSteps ← g.number? "max-steps" (some standard.limit)
  if g.operands.isEmpty then
    some
      { verbosity := g.verbose
        command := .sample
          { seed := UInt64.ofNat seed
            count
            recipe := { length, variableBound }
            limit := effectiveLimit maxSteps } }
  else
    none

def readSubcommand (name : String) (arguments : List String) : Option Invocation :=
  if name = "run" then readRun arguments
  else if name = "disasm" then readDisasm arguments
  else if name = "sample" then readSample arguments
  else none

namespace Invocation

/-- Reads the arguments from the front, where the counted flag was given `verbosity` times already.
Given behind the subcommand it counts anew. -/
def ofArgumentsFrom (verbosity : Nat) : List String → Option Invocation
  | [] => none
  | argument :: rest =>
    match Argument.ofText argument with
    | .verbose times => ofArgumentsFrom (verbosity + times) rest
    | .plain name =>
      (readSubcommand name rest).map fun inner =>
        if inner.verbosity = 0 then { inner with verbosity } else inner
    | _ => none

def ofArguments (arguments : List String) : Option Invocation :=
  ofArgumentsFrom 0 arguments

end Invocation

end FlipLoop.CommandLine
