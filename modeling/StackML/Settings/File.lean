import StackML.Settings.Toml
import StackML.Settings.Yaml

/-!
Settings files. A file is looked for in a directory and then in those above it, under the names of
settings files in their order; the name decides in which notation it is read.
-/

namespace StackML.Settings

inductive Refusal where
  | unreadable (path : String)
  | malformed (path : String)
  | invalid (path : String) (issue : Issue)
  deriving DecidableEq, Repr

def Refusal.message : Refusal → String
  | unreadable path => "reading config " ++ path ++ ": read " ++ path ++ ": is a directory"
  | malformed path => "parsing " ++ path
  | invalid path issue => path ++ ": " ++ issue.message

/-- The ending of a path's last name, in small letters: from its last dot on. -/
def ending (path : String) : String :=
  let name := path.toList.reverse.takeWhile (· != '/')
  if name.contains '.' then
    String.ofList ((name.takeWhile (· != '.') ++ ['.']).reverse.map Char.toLower)
  else ""

def parse (path text : String) : Except Refusal Settings :=
  let settings? :=
    if ending path == ".toml" then (Toml.read? text).bind Toml.dialect.settings?
    else (Yaml.read? text).bind Yaml.Document.settings?
  match settings? with
  | none => .error (.malformed path)
  | some s =>
    match s.issue? with
    | some issue => .error (.invalid path issue)
    | none => .ok s.withDefaults

abbrev Path := List String

/-- A path without empty names, the present directory and steps back. -/
def Path.ofString (path : String) : Path :=
  (path.splitOn "/").foldl (fun names name =>
    if name == "" || name == "." then names
    else if name == ".." then names.dropLast
    else names ++ [name]) []

def Path.toString (path : Path) : String := "/".intercalate path

structure Tree where
  files : List (Path × String)
  /-- Directories besides those in which files stand. -/
  directories : List Path
  deriving Repr

def fileNames : List String := ["miniml.yaml", "miniml.yml", "miniml.toml"]

namespace Tree

def exists? (t : Tree) (path : Path) : Bool :=
  (t.files.map (·.1) ++ t.directories).any fun p => path.isPrefixOf p

/-- The settings file of a directory, given by its names from the last, or of one above it. -/
def findUp (t : Tree) : Path → Option Path
  | [] => (fileNames.map ([·])).find? t.exists?
  | name :: above =>
    ((fileNames.map fun file => (name :: above).reverse ++ [file]).find? t.exists?).or
      (t.findUp above)

def find? (t : Tree) (directory : Path) : Option Path := t.findUp directory.reverse

def load (t : Tree) (path : Path) : Except Refusal Settings :=
  match t.files.lookup path with
  | some text => parse path.toString text
  | none => .error (.unreadable path.toString)

end Tree
end StackML.Settings
