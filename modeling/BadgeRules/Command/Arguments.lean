/-!
# Arguments

How the arguments of a command are taken apart: options with a value (`--id r1`, `--id=r1`, `-o f`,
`-of`), the switch `--verbose` or `-v`, and all others in order. Nothing may be given twice, and after
`--` there are no more options.
-/

namespace BadgeRules

structure ValueOption where
  long : String
  short : Option Char := none

structure Arguments where
  verbose : Bool := false
  values : List (String × String) := []
  others : List String := []

namespace Arguments

def addVerbose (a : Arguments) : Option Arguments :=
  if a.verbose then none else some { a with verbose := true }

def addValue (a : Arguments) (name value : String) : Option Arguments :=
  if (a.values.lookup name).isSome then none
  else some { a with values := a.values ++ [(name, value)] }

def addOther (a : Arguments) (arg : String) : Arguments := { a with others := a.others ++ [arg] }

/-- Whether an argument is read as an option. A single hyphen is not. -/
def isOption (arg : String) : Bool :=
  match arg.toList with
  | '-' :: _ :: _ => true
  | _ => false

inductive Pending
  | nothing
  /-- The value of this option has to follow. -/
  | value (name : String)

/-- An argument that starts with two hyphens, given without them. -/
def addLong (options : List ValueOption) (a : Arguments) (arg : List Char) :
    Option (Arguments × Pending) :=
  let name := String.ofList (arg.takeWhile (· ≠ '='))
  match arg.dropWhile (· ≠ '=') with
  | [] =>
    if name = "verbose" then (a.addVerbose).map (·, .nothing)
    else if options.any (·.long == name) then some (a, .value name)
    else none
  | _ :: value =>
    if options.any (·.long == name) then
      (a.addValue name (String.ofList value)).map (·, .nothing)
    else none

/-- The letters after one hyphen. The rest of the letters after an option is its value. -/
def addShort (options : List ValueOption) (a : Arguments) :
    List Char → Option (Arguments × Pending)
  | [] => some (a, .nothing)
  | c :: cs =>
    if c = 'v' then (a.addVerbose).bind fun a => addShort options a cs
    else
      match options.find? (·.short == some c), cs with
      | none, _ => none
      | some o, [] => some (a, .value o.long)
      | some o, '=' :: cs => (a.addValue o.long (String.ofList cs)).map (·, .nothing)
      | some o, cs => (a.addValue o.long (String.ofList cs)).map (·, .nothing)

def parse (options : List ValueOption) (a : Arguments) (pending : Pending) :
    List String → Option Arguments
  | [] =>
    match pending with
    | .nothing => some a
    | .value _ => none
  | arg :: args =>
    match pending with
    | .value name =>
      if isOption arg then none
      else (a.addValue name arg).bind fun a => parse options a .nothing args
    | .nothing =>
      match arg.toList with
      | ['-', '-'] => some (args.foldl addOther a)
      | '-' :: '-' :: cs => (addLong options a cs).bind fun (a, p) => parse options a p args
      | '-' :: c :: cs =>
        (addShort options a (c :: cs)).bind fun (a, p) => parse options a p args
      | _ => parse options (a.addOther arg) .nothing args

end Arguments

end BadgeRules
