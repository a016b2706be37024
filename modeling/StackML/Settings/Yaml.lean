import StackML.Settings.Dialect
import StackML.Settings.Yaml.Content

/-!
Settings in YAML. A key stands once in a mapping. The key `<<` merges other mappings into the one it
stands in: their entries count where the mapping itself, or a mapping merged before, has no entry of
that key. What stands for nothing leaves a setting as it is and is no item of a list.
-/

namespace StackML.Settings.Yaml

structure View where
  node : Node
  aliases : List Nat := []

namespace Document

/-- The node that a node stands for; an alias that leads to itself has none. -/
def view? (d : Document) (aliases : List Nat) : Node → Option View
  | .reference _ number target =>
    if aliases.contains number then none
    else (d.anchored[target]?).map fun node => ⟨node, number :: aliases⟩
  | node => some ⟨node, aliases⟩

def content? (v : View) : Option Content :=
  match v.node with
  | .scalar s => s.content?
  | _ => none

def keyName? (d : Document) (aliases : List Nat) (key : Node) : Option (Option String) := do
  match ← content? (← d.view? aliases key) with
  | .nothing => pure none
  | .truth _ text => pure (some text)
  | .text text => pure (some text)

def keyMark : Node → Nat × String
  | .scalar s => (0, s.text)
  | .reference name _ _ => (1, name)
  | .sequence _ => (2, "")
  | .mapping _ => (3, "")

def hasRepeated {α : Type} [BEq α] : List α → Bool
  | [] => false
  | a :: as => as.contains a || hasRepeated as

def isMerge : Node → Bool
  | .scalar s => s.text == "<<" && ((s.plain && s.tag == "") || s.tag == "!!merge")
  | _ => false

/-- The entries of a mapping that have names, in order, and the value under the key that merges. Its
keys are scalars, and no two are alike. -/
def entries? (d : Document) (v : View) : Option (List (String × Node) × Option Node) :=
  match v.node with
  | .mapping entries => do
    guard !(hasRepeated (entries.map fun e => keyMark e.1))
    let named ← (entries.filter fun e => !isMerge e.1).mapM fun (key, value) =>
      return (← d.keyName? v.aliases key).map fun name => (name, value)
    pure (named.filterMap id, ((entries.find? fun e => isMerge e.1).map (·.2)))
  | _ => none

/-- The mappings that a value under the key that merges gives: one, or a list of them. -/
def merged? (d : Document) (aliases : List Nat) (value : Node) : Option (List View) :=
  match value with
  | .sequence items => items.mapM (d.view? aliases)
  | value => (d.view? aliases value).map ([·])

mutual
/-- Adds the entries of a mapping whose keys are not there yet; `depth` bounds how deeply mappings
are merged. -/
def merge? (d : Document) : (depth : Nat) → List (String × View) → View →
    Option (List (String × View))
  | 0, _, _ => none
  | depth + 1, before, v => do
    let (entries, merging) ← d.entries? v
    let fields := entries.foldl (fun fields (name, value) =>
      if fields.any (·.1 == name) then fields
      else fields ++ [(name, ⟨value, v.aliases⟩)]) before
    match merging with
    | some value => mergeAll? d depth fields (← d.merged? v.aliases value)
    | none => pure fields

def mergeAll? (d : Document) : (depth : Nat) → List (String × View) → List View →
    Option (List (String × View))
  | 0, _, _ => none
  | _ + 1, fields, [] => some fields
  | depth + 1, fields, v :: views => do mergeAll? d depth (← merge? d depth fields v) views
end

def fields? (d : Document) (names : List String) (v : View) : Option (List (String × View)) := do
  let (entries, merging) ← d.entries? v
  guard !(hasRepeated ((entries.map (·.1)).filter names.contains))
  let fields := entries.map fun (name, value) => (name, View.mk value v.aliases)
  match merging with
  | some value => mergeAll? d d.size fields (← d.merged? v.aliases value)
  | none => pure fields

def isNothing (v : View) : Bool := content? v == some .nothing

/-- The entries with their nodes seen through aliases, of those that have one of the names. -/
def table? (d : Document) (names : List String) (v : View) : Option (List (String × View)) :=
  if isNothing v then some []
  else do
    let fields ← d.fields? names v
    (fields.filter fun e => names.contains e.1).mapM fun (name, part) =>
      return (name, ← d.view? part.aliases part.node)

def list? (d : Document) (v : View) : Option (List View) :=
  if isNothing v then some []
  else
    match v.node with
    | .sequence items => do
      let views ← items.mapM (d.view? v.aliases)
      pure (views.filter (!isNothing ·))
    | _ => none

def text? (v : View) : Option (Option String) := do
  match ← content? v with
  | .nothing => pure none
  | .truth _ text => pure (some text)
  | .text text => pure (some text)

def truth? (v : View) : Option (Option Bool) := do
  match ← content? v with
  | .nothing => pure none
  | .truth value _ => pure (some value)
  | .text text => (looseTruthOf? text).map some

def dialect (d : Document) : Dialect View where
  table? := d.table?
  list? := d.list?
  text? := text?
  truth? := truth?

def settings? (d : Document) : Option Settings := d.dialect.settings? ⟨d.root, []⟩

end Document
end StackML.Settings.Yaml
