import StackML.Settings.Yaml.Scalar

/-!
Tokens of YAML and those of them that are more than an indicator: anchors and aliases, tags, and
directives, which announce the version and short forms of tags.
-/

namespace StackML.Settings.Yaml

inductive Token where
  | streamStart
  | streamEnd
  | version (major minor : Nat)
  | handle (handle stem : String)
  | documentStart
  | documentEnd
  | blockSequence
  | blockMapping
  | blockEnd
  | openBracket
  | closeBracket
  | openBrace
  | closeBrace
  | item
  | comma
  | key
  | value
  | reference (name : String)
  | anchor (name : String)
  /-- A tag in short form, or in full if it has no handle. -/
  | tag (handle suffix : String)
  | scalar (text : String) (plain : Bool)
  deriving DecidableEq, Repr

def isWordChar (c : Char) : Bool := c.isAlphanum || c == '_' || c == '-'

/-- Reads the name of an anchor or an alias; only some indicators may stand right behind it. -/
def name? (c : Cursor) : Option (String × Cursor) :=
  let (name, after) := c.span isWordChar
  let ends := match after.rest with
    | [] => true
    | ch :: _ =>
      isBlank ch || isBreak ch || ['?', ':', ',', ']', '\x7d', '%', '@', '\x60'].contains ch
  if name.isEmpty || !ends then none else some (String.ofList name, after)

/-- The number that the two hexadecimal digits behind a percent sign write. -/
def octet? (cs : List Char) : Option (Nat × List Char) :=
  match cs with
  | '%' :: c :: d :: rest => do pure ((← hexDigit? c) * 16 + (← hexDigit? d), rest)
  | _ => none

/-- The number of octets of the character that starts with an octet. -/
def octets (lead : Nat) : Nat :=
  if lead < 0x80 then 1
  else if 0xC0 ≤ lead && lead < 0xE0 then 2
  else if 0xE0 ≤ lead && lead < 0xF0 then 3
  else if 0xF0 ≤ lead && lead < 0xF8 then 4
  else 0

def continuation? : (count : Nat) → (code : Nat) → List Char → Option (Nat × List Char)
  | 0, code, cs => some (code, cs)
  | count + 1, code, cs => do
    let (octet, rest) ← octet? cs
    guard (0x80 ≤ octet && octet < 0xC0)
    continuation? count (code * 64 + octet % 64) rest

def escapedChar? (cs : List Char) : Option (Char × List Char) := do
  let (lead, rest) ← octet? cs
  let count := octets lead
  guard (0 < count)
  let (code, rest) ← continuation? (count - 1) (if count = 1 then lead else lead % 16) rest
  pure (Char.ofNat code, rest)

def isTagChar (c : Char) : Bool :=
  isWordChar c || [';', '/', '?', ':', '@', '&', '=', '+', '$', ',', '.', '!', '~', '*', '\'', '(',
    ')', '[', ']', '%'].contains c

def tagTextFrom : (size : Nat) → (text : List Char) → List Char → Option (List Char × List Char)
  | 0, text, cs => some (text, cs)
  | size + 1, text, cs =>
    match cs with
    | '%' :: _ => do
      let (c, rest) ← escapedChar? cs
      tagTextFrom size (c :: text) rest
    | c :: rest => if isTagChar c then tagTextFrom size (c :: text) rest else some (text, cs)
    | [] => some (text, [])

def tagText? (c : Cursor) : Option (String × Cursor) := do
  let (text, rest) ← tagTextFrom c.rest.length [] c.rest
  pure (String.ofList text.reverse, c.advance (c.rest.length - rest.length))

/-- Reads a handle: an exclamation mark, a word, and the second mark if it is there. -/
def handle? (c : Cursor) : Option (List Char × Cursor) := do
  let (word, after) := (← c.accept? '!').span isWordChar
  match after.accept? '!' with
  | some after => pure ('!' :: word ++ ['!'], after)
  | none => pure ('!' :: word, after)

/-- Reads a tag: in full between angle brackets, behind a handle of two marks, or behind one mark. A
mark alone is a tag of its own, which has no handle. -/
def tag? (c : Cursor) : Option (Token × Cursor) := do
  let (tag, after) ←
    if c.rest.take 2 == ['!', '<'] then do
      let (text, after) ← tagText? (c.advance 2)
      guard !text.isEmpty
      pure (Token.tag "" text, ← after.accept? '>')
    else do
      let (handle, after) ← handle? c
      let (text, after) ← tagText? after
      if 1 < handle.length && handle.getLast? == some '!' then
        guard !text.isEmpty
        pure (Token.tag (String.ofList handle) text, after)
      else
        let suffix := String.ofList handle.tail ++ text
        pure (if suffix.isEmpty then Token.tag "" "!" else Token.tag "!" suffix, after)
  guard (atGap after.rest)
  pure (tag, after)

def versionNumber? (c : Cursor) : Option (Nat × Cursor) :=
  let (digits, after) := c.span Char.isDigit
  if digits.isEmpty || 2 < digits.length then none
  else some (digits.foldl (fun n d => n * 10 + (d.toNat - 48)) 0, after)

/-- Reads a directive behind its percent sign, up to the next line. -/
def directive? (c : Cursor) : Option (Token × Cursor) := do
  let (name, c) := c.span isWordChar
  guard (atGap c.rest)
  let c := c.skipWhile isBlank
  if name == "YAML".toList then
    let (major, c) ← versionNumber? c
    let (minor, c) ← versionNumber? (← c.accept? '.')
    pure (.version major minor, ← c.endLine?)
  else if name == "TAG".toList then
    let (handle, c) ← handle? c
    guard (handle == ['!'] || handle.getLast? == some '!')
    guard (c.rest.head?.any isBlank)
    let (stem, c) ← tagText? (c.skipWhile isBlank)
    guard (!stem.isEmpty && atGap c.rest)
    pure (.handle (String.ofList handle) stem, ← c.endLine?)
  else none

end StackML.Settings.Yaml
