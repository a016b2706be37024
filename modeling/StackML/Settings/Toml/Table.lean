import StackML.Settings.Toml.Line

/-!
The tables that the lines of a TOML file build up. A key is given once. Tables that only came to be
because a key or a header led through them may be given once more; a key that holds an array may be
given anew. Both are remembered by the path of the key, whatever element of an array it lies in.
-/

namespace StackML.Settings.Toml

inductive Value where
  | text (text : String)
  | truth (value : Bool)
  | number
  | moment
  | list (items : List Value)
  | table (entries : List (String × Value))
  /-- The elements that headers opened, the last first. -/
  | tables (elements : List (List (String × Value)))
  deriving Inhabited

abbrev Entries := List (String × Value)

abbrev Path := List String

def Entries.put (key : String) (value : Value) : Entries → Entries
  | [] => [(key, value)]
  | (k, v) :: rest => if k == key then (k, value) :: rest else (k, v) :: Entries.put key value rest

/-- Changes the table at the end of a path; of an array the path leads through the last element. -/
def Entries.within (change : Entries → Option Entries) : Path → Entries → Option Entries
  | [], entries => change entries
  | key :: path, entries =>
    match entries.lookup key with
    | some (.table inner) =>
      (Entries.within change path inner).map fun inner => entries.put key (.table inner)
    | some (.tables (last :: before)) =>
      (Entries.within change path last).map fun last =>
        entries.put key (.tables (last :: before))
    | _ => none

def Entries.at? : Path → Entries → Option Entries
  | [], entries => some entries
  | key :: path, entries =>
    match entries.lookup key with
    | some (.table inner) => Entries.at? path inner
    | some (.tables (last :: _)) => Entries.at? path last
    | _ => none

structure Draft where
  root : Entries := []
  /-- The paths of tables that may be given once more. -/
  implied : List Path := []
  /-- The paths of keys that hold arrays. -/
  arrays : List Path := []

namespace Draft

def imply (d : Draft) (path : Path) : Draft := { d with implied := path :: d.implied }

def settle (d : Draft) (path : Path) : Draft :=
  { d with implied := d.implied.filter (· != path) }

def change (d : Draft) (context : Path) (f : Entries → Option Entries) : Option Draft :=
  (Entries.within f context d.root).map fun root => { d with root }

def give (d : Draft) (context : Path) (key : String) (value : Value) : Option Draft := do
  let path := context ++ [key]
  let entries ← Entries.at? context d.root
  if (entries.lookup key).isNone then d.change context fun es => some (es.put key value)
  else if d.arrays.contains path then
    (d.settle path).change context fun es => some (es.put key value)
  else if d.implied.contains path then some (d.settle path)
  else none

/-- Remembers whether a key holds an array. A key without a name stands for its table. -/
def note (d : Draft) (context : Path) (key : String) (isArray : Bool) : Draft :=
  let path := if key.isEmpty then (if context.isEmpty then [""] else context) else context ++ [key]
  let others := d.arrays.filter (· != path)
  { d with arrays := if isArray then path :: others else others }

/-- Makes sure that there is a table at each step from a path on. -/
def pave (d : Draft) (context : Path) : (steps : Path) → Option Draft
  | [] => some d
  | step :: steps => do
    let entries ← Entries.at? context d.root
    let path := context ++ [step]
    let d ← match entries.lookup step with
      | some _ => some d
      | none => (d.imply path).change context fun es => some (es.put step (.table []))
    let _ ← Entries.at? path d.root
    d.pave path steps

def openTable (d : Draft) (key : Key) : Option Draft := do
  (← d.pave [] key.parents).give key.parents key.name (.table [])

def openElement (d : Draft) (key : Key) : Option Draft := do
  (← d.pave [] key.parents).change key.parents fun entries =>
    match entries.lookup key.name with
    | none => some (entries.put key.name (.tables [[]]))
    | some (.tables before) => some (entries.put key.name (.tables ([] :: before)))
    | some _ => none

/-- Goes through tables one step after the other; each may be given once more. -/
def enter (d : Draft) (context : Path) : (steps : Path) → Option Draft
  | [] => some d
  | step :: steps => do
    let d ← (d.imply (context ++ [step])).openTable ⟨context, step⟩
    d.enter (context ++ [step]) steps

end Draft

def Literal.isArray : Literal → Bool
  | .array _ => true
  | _ => false

/-- Gives a key below tables that may be missing its value, whatever it had before. -/
def Entries.putBelow (key : String) (value : Value) : Path → Entries → Option Entries
  | [], entries => some (entries.put key value)
  | step :: path, entries =>
    match entries.lookup step with
    | none => (Entries.putBelow key value path []).map fun es => entries.put step (.table es)
    | some (.table inner) =>
      (Entries.putBelow key value path inner).map fun es => entries.put step (.table es)
    | some _ => none

mutual
/-- The value of a key. Tables in braces are built in place, like those under headers, and given as
a value of their own as well; `inArray` if the value is an item of an array. -/
def Literal.value? (context : Path) (key : String) (inArray : Bool) :
    Literal → Draft → Option (Value × Draft)
  | .text s, d => some (.text s, d)
  | .truth b, d => some (.truth b, d)
  | .number, d => some (.number, d)
  | .moment, d => some (.moment, d)
  | .array items, d => do
    let (values, d) ← itemValues? context key items (d.note context key true)
    pure (.list values, d)
  | .table fields, d => do
    let d := d.imply (context ++ [key])
    let d ← if inArray then d.openElement ⟨context, key⟩ else d.openTable ⟨context, key⟩
    let (entries, d) ← fieldValues? (context ++ [key]) [] fields d
    pure (.table entries, d)

def itemValues? (context : Path) (key : String) : List Literal → Draft → Option (List Value × Draft)
  | [], d => some ([], d)
  | item :: items, d => do
    let (value, d) ← item.value? context key true d
    let (values, d) ← itemValues? context key items d
    pure (value :: values, d)

def fieldValues? (context : Path) (entries : Entries) :
    List (Key × Literal) → Draft → Option (Entries × Draft)
  | [], d => some (entries, d)
  | (key, literal) :: fields, d => do
    let place := context ++ key.parents
    let d ← d.enter context key.parents
    let (value, d) ← literal.value? place key.name false d
    let d ← d.give place key.name value
    let entries ← Entries.putBelow key.name value key.parents entries
    fieldValues? context entries fields (d.note place key.name literal.isArray)
end

/-- Adds what a line says; the path of the table under whose header it stands goes along. -/
def Draft.add : Path × Draft → Line → Option (Path × Draft)
  | (_, d), .table key => do
    pure (key.path, (← d.openTable key).note key.path "" false)
  | (_, d), .element key => do
    pure (key.path, (← d.openElement key).note key.path "" false)
  | (context, d), .entry key literal => do
    let place := context ++ key.parents
    let d ← d.enter context key.parents
    let (value, d) ← literal.value? place key.name false d
    let d ← d.give place key.name value
    pure (context, d.note place key.name literal.isArray)

def read? (text : String) : Option Value := do
  let cs := match text.toList with
    | '\uFEFF' :: rest => rest
    | rest => rest
  guard (isClean cs)
  let (_, d) ← (← lines? (cs.length + 1) cs).foldlM Draft.add ([], {})
  pure (.table d.root)

end StackML.Settings.Toml
