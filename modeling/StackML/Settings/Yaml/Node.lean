import StackML.Settings.Yaml.Source

/-!
The first document of a YAML text as a tree: scalars, sequences, mappings, and aliases of nodes that
bear an anchor. An alias stands for the last node before it with its anchor, also for one that it
lies in, so that anchored nodes are kept in a table of their own.
-/

namespace StackML.Settings.Yaml

structure Scalar where
  text : String := ""
  /-- Whether the scalar stands without quotes and not as a block. -/
  plain : Bool := true
  /-- Its tag; empty if it has none or the one that says nothing. -/
  tag : String := ""
  deriving DecidableEq, Repr, Inhabited

inductive Node where
  | scalar (scalar : Scalar)
  | sequence (items : List Node)
  | mapping (entries : List (Node × Node))
  /-- An alias with its number among all aliases and that of the anchored node. -/
  | reference (name : String) (number target : Nat)
  deriving Inhabited

structure Draft where
  source : Source
  /-- A bound for the number of tokens. -/
  size : Nat
  /-- The beginnings of tags that handles stand for. -/
  handles : List (String × String) := []
  /-- The anchors, the last first, with the numbers of their nodes. -/
  anchors : List (String × Nat) := []
  /-- The anchored nodes by number. -/
  anchored : Array Node := #[]
  /-- The number of aliases. -/
  aliases : Nat := 0

abbrev Build := StateT Draft Option

namespace Build

def peek : Build Token := do
  let d ← get
  let source ← liftM (d.source.prepare d.size)
  set { d with source }
  liftM source.queue.head?

def skip : Build Unit := modify fun d => { d with source := d.source.drop }

def next : Build Token := do
  skip
  peek

def declare (name : String) : Build Nat := do
  let d ← get
  let number := d.anchored.size
  set { d with
    anchors := (name, number) :: d.anchors, anchored := d.anchored.push (.sequence []) }
  pure number

def settle (number : Nat) (node : Node) : Build Unit :=
  modify fun d => { d with anchored := d.anchored.setIfInBounds number node }

def refer (name : String) : Build Node := do
  let d ← get
  let target ← liftM (d.anchors.lookup name)
  set { d with aliases := d.aliases + 1 }
  pure (.reference name d.aliases target)

def standardStem : String := "tag:yaml.org,2002:"

/-- A tag in its shortest form: those of the standard start with two exclamation marks. -/
def shortTag (tag : String) : String :=
  if tag.startsWith standardStem then "!!" ++ String.ofList (tag.toList.drop standardStem.length)
  else tag

def fullTag (handle suffix : String) : Build String := do
  if handle.isEmpty then pure suffix
  else
    let stem ← liftM ((← get).handles.lookup handle)
    pure (stem ++ suffix)

structure Properties where
  anchor : Option String := none
  tag : Option String := none

def properties : Build Properties := do
  match ← peek with
  | .anchor name =>
    match ← next with
    | .tag handle suffix =>
      skip
      pure ⟨some name, some (← fullTag handle suffix)⟩
    | _ => pure ⟨some name, none⟩
  | .tag handle suffix =>
    let tag ← fullTag handle suffix
    match ← next with
    | .anchor name =>
      skip
      pure ⟨some name, some tag⟩
    | _ => pure ⟨none, some tag⟩
  | _ => pure {}

/-- The tag of a scalar; an exclamation mark alone says nothing. -/
def Properties.scalarTag (p : Properties) : String :=
  match p.tag with
  | some tag => if tag == "!" then "" else shortTag tag
  | none => ""

def nothing : Node := .scalar {}

mutual
/-- Reads a node. Blocks are allowed if `block`, and a sequence that is not indented if `items`;
`depth` bounds how deeply rules nest. -/
def node : (depth : Nat) → (block items : Bool) → Build Node
  | 0, _, _ => failure
  | depth + 1, block, items => do
    match ← peek with
    | .reference name =>
      skip
      refer name
    | _ =>
      let p ← properties
      match p.anchor with
      | none => content depth block items p
      | some name =>
        let number ← declare name
        let n ← content depth block items p
        settle number n
        pure n

def content : (depth : Nat) → (block items : Bool) → Properties → Build Node
  | 0, _, _, _ => failure
  | depth + 1, block, items, p => do
    match ← peek, block, items with
    | .item, _, true => return .sequence (← looseItems depth [])
    | .scalar text plain, _, _ =>
      skip
      pure (.scalar ⟨text, plain, p.scalarTag⟩)
    | .openBracket, _, _ =>
      skip
      return .sequence (← bracketItems depth true [])
    | .openBrace, _, _ =>
      skip
      return .mapping (← braceEntries depth true [])
    | .blockSequence, true, _ =>
      skip
      return .sequence (← blockItems depth [])
    | .blockMapping, true, _ =>
      skip
      return .mapping (← blockEntries depth [])
    | _, _, _ =>
      if p.anchor.isSome || p.tag.isSome then pure (.scalar { tag := p.scalarTag }) else failure

def blockItems : (depth : Nat) → (before : List Node) → Build (List Node)
  | 0, _ => failure
  | depth + 1, before => do
    match ← peek with
    | .item =>
      let t ← next
      let item ← if t == .item || t == .blockEnd then pure nothing else node depth true false
      blockItems depth (item :: before)
    | .blockEnd =>
      skip
      pure before.reverse
    | _ => failure

def looseItems : (depth : Nat) → (before : List Node) → Build (List Node)
  | 0, _ => failure
  | depth + 1, before => do
    match ← peek with
    | .item =>
      let t ← next
      let item ←
        if [.item, .key, .value, .blockEnd].contains t then pure nothing else node depth true false
      looseItems depth (item :: before)
    | _ => pure before.reverse

def blockEntries : (depth : Nat) → (before : List (Node × Node)) → Build (List (Node × Node))
  | 0, _ => failure
  | depth + 1, before => do
    match ← peek with
    | .key =>
      let t ← next
      let key ← blockPart depth t
      let value ← match ← peek with
        | .value => do
          let t ← next
          blockPart depth t
        | _ => pure nothing
      blockEntries depth ((key, value) :: before)
    | .blockEnd =>
      skip
      pure before.reverse
    | _ => failure

/-- Reads a key or a value of an indented mapping, given its first token. -/
def blockPart : (depth : Nat) → Token → Build Node
  | 0, _ => failure
  | depth + 1, t =>
    if [.key, .value, .blockEnd].contains t then pure nothing else node depth true true

def bracketItems : (depth : Nat) → (first : Bool) → (before : List Node) → Build (List Node)
  | 0, _, _ => failure
  | depth + 1, first, before => do
    let t ← peek
    let t ← if first || t == .closeBracket then pure t
      else if t == .comma then next
      else failure
    match t with
    | .closeBracket =>
      skip
      pure before.reverse
    | .key =>
      let t ← next
      let pair ← bracketPair depth t
      bracketItems depth false (pair :: before)
    | _ =>
      let item ← node depth false false
      bracketItems depth false (item :: before)

/-- Reads a key with its value as an item of a sequence in brackets. A key that is left out takes
the token at its place with it. -/
def bracketPair : (depth : Nat) → Token → Build Node
  | 0, _ => failure
  | depth + 1, t => do
    let key ←
      if [.value, .comma, .closeBracket].contains t then do
        skip
        pure nothing
      else node depth false false
    let value ← match ← peek with
      | .value => do
        let t ← next
        if t == .comma || t == .closeBracket then pure nothing else node depth false false
      | _ => pure nothing
    pure (.mapping [(key, value)])

def braceEntries : (depth : Nat) → (first : Bool) → (before : List (Node × Node)) →
    Build (List (Node × Node))
  | 0, _, _ => failure
  | depth + 1, first, before => do
    let t ← peek
    let t ← if first || t == .closeBrace then pure t
      else if t == .comma then next
      else failure
    match t with
    | .closeBrace =>
      skip
      pure before.reverse
    | .key =>
      let t ← next
      let key ←
        if [.value, .comma, .closeBrace].contains t then pure nothing else node depth false false
      let value ← match ← peek with
        | .value => do
          let t ← next
          if t == .comma || t == .closeBrace then pure nothing else node depth false false
        | _ => pure nothing
      braceEntries depth false ((key, value) :: before)
    | _ =>
      let key ← node depth false false
      braceEntries depth false ((key, nothing) :: before)
end

def addHandle (handle stem : String) : Build Unit := do
  let d ← get
  guard (d.handles.lookup handle).isNone
  set { d with handles := d.handles ++ [(handle, stem)] }

/-- Reads directives. There is one for the version at most, and the version is 1.1. -/
def directives : (size : Nat) → (versioned : Bool) → Build Unit
  | 0, _ => failure
  | size + 1, versioned => do
    match ← peek with
    | .version major minor =>
      guard (!versioned && major == 1 && minor == 1)
      skip
      directives size true
    | .handle handle stem =>
      addHandle handle stem
      skip
      directives size versioned
    | _ => pure ()

def standardHandles : List (String × String) := [("!", "!"), ("!!", standardStem)]

def endsDocument : Token → Bool
  | .version .. | .handle .. | .documentStart | .documentEnd | .streamEnd => true
  | _ => false

def document : Build (Option Node) := do
  let _ ← peek
  let t ← next
  if t == .streamEnd then pure none
  else
    let size := (← get).size
    let explicit := match t with
      | .version .. | .handle .. | .documentStart => true
      | _ => false
    directives size false
    modify fun d => { d with handles := d.handles ++ standardHandles }
    let n ←
      if explicit then do
        guard ((← peek) == .documentStart)
        if endsDocument (← next) then pure nothing else node size true false
      else node size true false
    let _ ← peek
    pure (some n)

end Build

structure Document where
  root : Node
  anchored : Array Node
  /-- The number of steps that following aliases through the document takes at most. -/
  size : Nat

/-- The first document of a text; a text without one says nothing. The number of tokens is bounded
by that of characters: each takes one, but for those that mark a block or a key. -/
def read? (text : String) : Option Document := do
  let cs := match text.toList with
    | '\uFEFF' :: rest => rest
    | rest => rest
  guard (cs.all isAllowed)
  let size := 16 * cs.length + 16
  let (root, d) ← Build.document.run { source := { cursor := ⟨unixLines cs, {}⟩ }, size }
  pure ⟨root.getD Build.nothing, d.anchored, (d.aliases + 1) * size⟩

end StackML.Settings.Yaml
