import BadgeRules.Storage.Basic

/-!
# Folders in memory

A tree of files and directories, as far as reading and writing whole files can tell. Paths start
from a home directory, or from the root if they begin with a slash.
-/

namespace BadgeRules

inductive Entry
  | file (content : ByteArray)
  | directory

/-- A home directory with what is in it. Entries have the names that lead to them from the root. -/
structure Folder where
  home : List String := []
  entries : List (List String × Entry) := []

namespace Folder

/-- What is at a place. Home is a directory, and so is everything on the way there. -/
def entry? (f : Folder) (place : List String) : Option Entry :=
  if place.isPrefixOf f.home then some .directory else f.entries.lookup place

/-- Puts an entry at a place, in front of what was there. -/
def put (f : Folder) (place : List String) (e : Entry) : Folder :=
  { f with entries := (place, e) :: f.entries }

/-- The names in a path. A slash at the end leaves an empty name there. -/
def names (path : String) : List String := path.splitOn "/"

def start (f : Folder) (path : String) : List String :=
  if path.toList.head? = some '/' then [] else f.home

/-- Goes on from a place by names. Every name but the last one has to lead to a directory. -/
def walk (f : Folder) (place : List String) : List String → Except FileError (List String)
  | [] => .ok place
  | name :: rest =>
    match f.entry? place with
    | none => .error .notFound
    | some (.file _) => .error .notDirectory
    | some .directory =>
      if name = "" ∨ name = "." then f.walk place rest
      else if name = ".." then f.walk place.dropLast rest
      else f.walk (place ++ [name]) rest

def locate (f : Folder) (path : String) : Except FileError (List String) :=
  if path = "" then .error .notFound else f.walk (f.start path) (names path)

/-- The place of a file that is to be written, which need not be there yet. A path with a slash at
its end can name directories only. -/
def locateNew (f : Folder) (path : String) : Except FileError (List String) :=
  if path.toList.getLast? = some '/' then do
    let _ ← f.walk (f.start path) ((names path).reverse.dropWhile (· = "")).reverse
    throw .isDirectory
  else f.locate path

def read (f : Folder) (path : String) : Except FileError String := do
  match f.entry? (← f.locate path) with
  | none => throw .notFound
  | some .directory => throw .isDirectory
  | some (.file bytes) =>
    match String.fromUTF8? bytes with
    | some text => return text
    | none => throw .notText

def write (f : Folder) (path text : String) : Except FileError Folder := do
  let place ← f.locateNew path
  match f.entry? place with
  | some .directory => throw .isDirectory
  | _ => return f.put place (.file text.toUTF8)

/-- Reads and writes a folder that is passed along. -/
def storage : Storage (StateM Folder) where
  read path := do return (← get).read path
  write path text := do
    match (← get).write path text with
    | .ok f => set f; return .ok ()
    | .error e => return .error e

end Folder

end BadgeRules
