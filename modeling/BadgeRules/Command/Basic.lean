import BadgeRules.Command.Arguments

/-!
# Commands

What can be asked for on the command line.
-/

namespace BadgeRules

inductive Command
  | compile (canvas id name : String) (description output : Option String)
  | expand (rule : String) (grid output : Option String)
  | validate (rule : String)
  | connect (canvas source target : String)
deriving DecidableEq, Repr

namespace Command

def outputOption : ValueOption := { long := "output", short := some 'o' }

def compileOptions : List ValueOption :=
  [{ long := "id" }, { long := "name" }, { long := "description" }, outputOption]

def expandOptions : List ValueOption := [{ long := "layout-config" }, outputOption]

def connectOptions : List ValueOption := [{ long := "source" }, { long := "target" }]

def ofArguments? (name : String) (args : List String) : Option (Bool × Command) :=
  let parse (options : List ValueOption) := Arguments.parse options {} .nothing args
  match name with
  | "compile" => do
    let a ← parse compileOptions
    let [canvas] := a.others | none
    let id ← a.values.lookup "id"
    let name ← a.values.lookup "name"
    return (a.verbose,
      .compile canvas id name (a.values.lookup "description") (a.values.lookup "output"))
  | "expand" => do
    let a ← parse expandOptions
    let [rule] := a.others | none
    return (a.verbose, .expand rule (a.values.lookup "layout-config") (a.values.lookup "output"))
  | "validate" => do
    let a ← parse []
    let [rule] := a.others | none
    return (a.verbose, .validate rule)
  | "connect" => do
    let a ← parse connectOptions
    let [canvas] := a.others | none
    return (a.verbose,
      .connect canvas (← a.values.lookup "source") (← a.values.lookup "target"))
  | _ => none

/-- Reads a command line: switches, the name of a command, and its arguments. Also says whether
details were asked for. -/
def parse? (verbose : Arguments) : List String → Option (Bool × Command)
  | [] => none
  | arg :: args =>
    match arg.toList with
    | ['-', '-'] => none
    | '-' :: '-' :: cs => (Arguments.addLong [] verbose cs).bind fun (a, _) => parse? a args
    | '-' :: c :: cs => (Arguments.addShort [] verbose (c :: cs)).bind fun (a, _) => parse? a args
    | _ => (ofArguments? arg args).map fun (v, c) => (verbose.verbose || v, c)

end Command

end BadgeRules
