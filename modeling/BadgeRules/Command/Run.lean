import BadgeRules.Canvas.Check
import BadgeRules.Command.Basic
import BadgeRules.Rule.Compile
import BadgeRules.Rule.Expand
import BadgeRules.Rule.Summary
import BadgeRules.Rule.Validation
import BadgeRules.Storage.Basic

/-!
# Running commands

Results go to the standard output or to a file, reports to the standard error. A command that cannot
be carried out ends with status 1, one whose answer is no with status 2.
-/

namespace BadgeRules.Command

/-- What a command has printed so far, and what its conversions reported. -/
structure Printed where
  out : String := ""
  err : String := ""
  events : List Event := []

/-- The status with which a command ends early. -/
abbrev Run (m : Type → Type) := ExceptT UInt32 (StateT Printed m)

variable {m : Type → Type} [Monad m]

def say (line : String) : Run m Unit := modify fun p => { p with out := p.out ++ line ++ "\n" }

def report (line : String) : Run m Unit := modify fun p => { p with err := p.err ++ line ++ "\n" }

def log (events : List Event) : Run m Unit :=
  modify fun p => { p with events := p.events ++ events }

def fail {α : Type} (message : String) : Run m α := do
  report ("\nError: " ++ message)
  throw 1

/-- The answer is no. -/
def refuse : Run m Unit := throw 2

/-- Goes on with a value, or fails with a message. -/
def orFail {ε α : Type} (message : ε → String) : Except ε α → Run m α
  | .ok a => return a
  | .error e => fail (message e)

def deliver (st : Storage m) (output : Option String) (text : String) : Run m Unit := do
  match output with
  | some path =>
    let written ← st.write path text
    orFail (fun e => "Failed to write '" ++ path ++ "': " ++ e.message) written
    report ("Wrote '" ++ path ++ "'")
  | none => say text

def loadCanvas (st : Storage m) (path : String) : Run m (Canvas Position) := do
  let canvas ← st.loadCanvas path
  orFail (fun e => "Failed to load canvas: " ++ e.message) canvas

def runCompile (st : Storage m) (canvas id name : String) (description output : Option String) :
    Run m Unit := do
  let c ← loadCanvas st canvas
  let compiled := c.compile id name description
  let r := compiled.rule
  log compiled.events
  unless r.isValid do
    report "\nRule is not valid and should not be saved:"
    for v in r.violations do report ("  - " ++ v.message)
  report ("Compiled " ++ toString c.nodes.length ++ " node(s) into " ++
    toString r.awards.length ++ " action(s)")
  report r.describe
  deliver st output r.toJson.pretty
  unless r.isValid do refuse

def runExpand (st : Storage m) (rule : String) (grid output : Option String) : Run m Unit := do
  let text ← st.read rule
  let text ← orFail (fun e => "Failed to read rule file '" ++ rule ++ "': " ++ e.message) text
  let (r, events) := Rule.deserialize text
  log events
  let some r := r | fail ("Could not load rule from '" ++ rule ++ "'")
  let g ← match grid with
    | none => pure Grid.standard
    | some path => do
      let text ← st.read path
      let text ← orFail
        (fun e => "Failed to read layout config '" ++ path ++ "': " ++ e.message) text
      match Grid.parse? text with
      | some g => pure g
      | none => fail "Failed to parse layout config: malformed document"
  let c := r.expand g
  log r.expansionEvents
  report ("Expanded rule '" ++ r.name ++ "' into " ++ toString c.nodes.length ++
    " node(s) and " ++ toString c.edges.length ++ " edge(s)")
  deliver st output c.toJson.pretty

def runValidate (st : Storage m) (rule : String) : Run m Unit := do
  let r ← st.loadRule rule
  let r ← orFail (fun e => "Failed to load rule: " ++ e.message) r
  if r.isValid then
    say ("Rule '" ++ r.name ++ "' is valid.")
    say r.describe
  else
    say ("Rule '" ++ r.id ++ "' has " ++ toString r.violations.length ++ " problem(s):")
    for v in r.violations do say ("  - " ++ v.message)
    refuse

def runConnect (st : Storage m) (canvas source target : String) : Run m Unit := do
  let c ← loadCanvas st canvas
  match c.check { source := some source, target := some target } with
  | .ok () => say (source ++ " -> " ++ target ++ ": allowed")
  | .error e =>
    say (source ++ " -> " ++ target ++ ": refused (" ++ e.message ++ ")")
    refuse

/-- Runs a command to its end: its status and what it printed. -/
def run (st : Storage m) (c : Command) : m (UInt32 × Printed) := do
  let steps : Run m Unit := match c with
    | .compile canvas id name description output => runCompile st canvas id name description output
    | .expand rule grid output => runExpand st rule grid output
    | .validate rule => runValidate st rule
    | .connect canvas source target => runConnect st canvas source target
  let (status, printed) ← (ExceptT.run steps).run {}
  return (match status with | .ok () => 0 | .error status => status, printed)

end BadgeRules.Command
