import BadgeRules.Document.Rule
import BadgeRules.Event

/-!
# Storing rules and canvases

Files are read and written through a `Storage`, so that the same code works on a disk and on a
`Folder` in memory.
-/

namespace BadgeRules

inductive FileError
  | notFound
  | isDirectory
  | notDirectory
  | notText
  | other (details : String)
deriving DecidableEq, Repr

def FileError.message : FileError → String
  | notFound => "No such file or directory (os error 2)"
  | isDirectory => "Is a directory (os error 21)"
  | notDirectory => "Not a directory (os error 20)"
  | notText => "stream did not contain valid UTF-8"
  | other details => details

/-- A way to read and write whole files. -/
structure Storage (m : Type → Type) where
  read : String → m (Except FileError String)
  write : String → String → m (Except FileError Unit)

inductive StoreError
  | malformed
  | file (path : String) (error : FileError)
deriving DecidableEq, Repr

def StoreError.message : StoreError → String
  | malformed => "Failed to parse rule JSON: malformed document"
  | file path e => "Could not access rule file '" ++ path ++ "': " ++ e.message

/-- Reads a stored rule. Text that is no rule is rejected as a whole. -/
def Rule.deserialize (text : String) : Option (Rule Position) × List Event :=
  match Rule.parse? text with
  | some r => (some r, [])
  | none => (none, [.rejected])

namespace Storage

variable {m : Type → Type} [Monad m] (st : Storage m)

def load {α : Type} (parse? : String → Option α) (path : String) : m (Except StoreError α) := do
  match ← st.read path with
  | .error e => return .error (.file path e)
  | .ok text =>
    match parse? text with
    | some a => return .ok a
    | none => return .error .malformed

def save (path : String) (j : Json) : m (Except StoreError Unit) := do
  match ← st.write path j.pretty with
  | .error e => return .error (.file path e)
  | .ok () => return .ok ()

def loadRule : String → m (Except StoreError (Rule Position)) := st.load Rule.parse?

def loadCanvas : String → m (Except StoreError (Canvas Position)) := st.load Canvas.parse?

def saveRule (path : String) (r : Rule Position) : m (Except StoreError Unit) :=
  st.save path r.toJson

def saveCanvas (path : String) (c : Canvas Position) : m (Except StoreError Unit) :=
  st.save path c.toJson

end Storage

end BadgeRules
