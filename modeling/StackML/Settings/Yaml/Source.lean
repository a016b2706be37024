import StackML.Settings.Yaml.Token

/-!
The tokens of a YAML text, read as far as they are asked for. Indentation opens and closes blocks,
which tokens of their own mark. Whether a value is a key shows only at the colon behind it: until
then its place is a candidate, and no token from it on is handed out. A key without a question mark
lies in one line and has its colon within 1024 characters. Two tokens beyond the next one are
always read.
-/

namespace StackML.Settings.Yaml

structure Candidate where
  /-- Whether nothing but a key can stand there. -/
  required : Bool
  /-- The number of its first token. -/
  number : Nat
  place : Place

structure Source where
  cursor : Cursor
  /-- The tokens that were read and not handed out yet. -/
  queue : List Token := [.streamStart]
  /-- How many tokens have been handed out. -/
  taken : Nat := 0
  /-- The column of the innermost block, and of those around it. -/
  indent : Int := -1
  outerIndents : List Int := []
  /-- The candidate within the innermost brackets, and within those around them. -/
  candidate : Option Candidate := none
  outerCandidates : List (Option Candidate) := []
  /-- Whether a key may start at the cursor. -/
  keys : Bool := true

namespace Source

def place (s : Source) : Place := s.cursor.place

def inBrackets (s : Source) : Bool := !s.outerCandidates.isEmpty

def push (s : Source) (t : Token) : Source := { s with queue := s.queue ++ [t] }

def insert (s : Source) (number : Nat) (t : Token) : Source :=
  let i := number - s.taken
  { s with queue := s.queue.take i ++ t :: s.queue.drop i }

/-- The place is no longer that of a key, which it must be if nothing else can stand there. -/
def forgetKey (s : Source) : Option Source :=
  match s.candidate with
  | some k => if k.required then none else some { s with candidate := none }
  | none => some s

def offerKey (s : Source) : Option Source :=
  if s.keys then do
    let s ← s.forgetKey
    let required := !s.inBrackets && s.indent == s.place.column
    pure { s with candidate := some ⟨required, s.taken + s.queue.length, s.place⟩ }
  else some s

def isFresh (s : Source) (k : Candidate) : Bool :=
  k.place.line == s.place.line && s.place.index ≤ k.place.index + 1024

/-- Closes the blocks that are deeper than a column, given the columns around the innermost. -/
def closeTo (column : Int) (s : Source) : (outer : List Int) → Source
  | [] => s
  | i :: outer =>
    if column < s.indent then
      closeTo column { s.push .blockEnd with indent := i, outerIndents := outer } outer
    else s

/-- Outside brackets, closes the blocks that are deeper than a column. -/
def closeBlocks (s : Source) (column : Int) : Source :=
  if s.inBrackets then s else closeTo column s s.outerIndents

/-- Outside brackets, opens a block at a column deeper than the innermost; its token comes before
the one with a number. -/
def openBlock (s : Source) (column number : Nat) (t : Token) : Source :=
  if s.inBrackets || (column : Int) ≤ s.indent then s
  else { s.insert number t with indent := column, outerIndents := s.indent :: s.outerIndents }

def nextNumber (s : Source) : Nat := s.taken + s.queue.length

/-- Moves over the characters of a token, and over a comment behind it. -/
def indicator (s : Source) (t : Token) : Source :=
  { s.push t with cursor := (s.cursor.advance 1).skipComment }

def reset (s : Source) : Option Source := do
  let s ← (s.closeBlocks (-1)).forgetKey
  pure { s with keys := false }

def readEnd (s : Source) : Option Source := do
  let p := s.place
  let p := if p.column = 0 then p else { p with line := p.line + 1, column := 0 }
  pure ((← ({ s with cursor := ⟨s.cursor.rest, p⟩ } : Source).reset).push .streamEnd)

def readDirective (s : Source) : Option Source := do
  let s ← s.reset
  let (t, cursor) ← directive? (s.cursor.advance 1)
  pure { s.push t with cursor }

def readMarker (s : Source) (t : Token) : Option Source := do
  let s ← s.reset
  pure { s.push t with cursor := s.cursor.advance 3 }

def readOpen (s : Source) (t : Token) : Option Source := do
  let s ← s.offerKey
  pure { s.indicator t with
    candidate := none, outerCandidates := s.candidate :: s.outerCandidates, keys := true }

def readClose (s : Source) (t : Token) : Option Source := do
  let s ← s.forgetKey
  let s := match s.outerCandidates with
    | k :: outer => { s with candidate := k, outerCandidates := outer }
    | [] => s
  pure { s.indicator t with keys := false }

def readComma (s : Source) : Option Source := do
  pure { (← s.forgetKey).indicator .comma with keys := true }

def readItem (s : Source) : Option Source := do
  guard (s.inBrackets || s.keys)
  let s ← (s.openBlock s.place.column s.nextNumber .blockSequence).forgetKey
  pure { s.push .item with cursor := s.cursor.advance 1, keys := true }

def readKey (s : Source) : Option Source := do
  guard (s.inBrackets || s.keys)
  let s ← (s.openBlock s.place.column s.nextNumber .blockMapping).forgetKey
  pure { s.indicator .key with keys := !s.inBrackets }

/-- Reads a colon. It turns a candidate into a key; without one it stands behind a key that a
question mark announced. -/
def readColon (s : Source) : Option Source := do
  match s.candidate with
  | some k =>
    if s.isFresh k then
      let s := (s.insert k.number .key).openBlock k.place.column k.number .blockMapping
      return { s.indicator .value with candidate := none, keys := false }
    else guard !k.required
  | none => pure ()
  guard (s.inBrackets || s.keys)
  let s := s.openBlock s.place.column s.nextNumber .blockMapping
  pure { s.indicator .value with keys := !s.inBrackets }

def readProperty (s : Source) (read : Cursor → Option (Token × Cursor)) : Option Source := do
  let s ← s.offerKey
  let (t, cursor) ← read s.cursor
  pure { s.push t with cursor := cursor.skipComment, keys := false }

def readBlock (s : Source) (literal : Bool) : Option Source := do
  let s ← s.forgetKey
  let r ← block? literal (s.indent + 1).toNat (s.cursor.advance 1)
  pure { s.push (.scalar r.text false) with cursor := r.after, keys := true }

def readQuoted (s : Source) (quote : Char) : Option Source := do
  let s ← s.offerKey
  let start := s.cursor.advance 1
  let r ← quotedFrom quote [] .none {} start.place start.rest
  pure { s.push (.scalar r.text false) with cursor := r.after.skipComment, keys := false }

def readPlain (s : Source) : Option Source := do
  let s ← s.offerKey
  let r ← plainFrom s.inBrackets (s.indent + 1).toNat [] {} s.place s.cursor.rest
  pure { s.push (.scalar r.text true) with
    cursor := if r.broken then r.after else r.after.skipComment, keys := r.broken }

def readToken (s : Source) (c : Char) (rest : List Char) : Option Source :=
  let brackets := s.inBrackets
  if c == '[' then s.readOpen .openBracket
  else if c == '\x7b' then s.readOpen .openBrace
  else if c == ']' then s.readClose .closeBracket
  else if c == '\x7d' then s.readClose .closeBrace
  else if c == ',' then s.readComma
  else if c == '-' && atGap rest then s.readItem
  else if c == '?' && (brackets || atGap rest) then s.readKey
  else if c == ':' && (brackets || atGap rest) then s.readColon
  else if c == '*' then
    s.readProperty fun c => (name? (c.advance 1)).map fun (name, after) => (.reference name, after)
  else if c == '&' then
    s.readProperty fun c => (name? (c.advance 1)).map fun (name, after) => (.anchor name, after)
  else if c == '!' then s.readProperty tag?
  else if c == '|' && !brackets then s.readBlock true
  else if c == '>' && !brackets then s.readBlock false
  else if c == '\'' || c == '"' then s.readQuoted c
  else if startsPlain brackets (c :: rest) then s.readPlain
  else none

def read (s : Source) : Option Source :=
  let (keys, cursor) := s.cursor.skipGap s.inBrackets s.keys
  let s := ({ s with cursor, keys } : Source).closeBlocks cursor.place.column
  match cursor.rest with
  | [] => s.readEnd
  | c :: rest =>
    let atStart := cursor.place.column == 0
    if atStart && c == '%' then s.readDirective
    else if atStart && atTriple '-' cursor.rest then s.readMarker .documentStart
    else if atStart && atTriple '.' cursor.rest then s.readMarker .documentEnd
    else s.readToken c rest

/-- Whether the next token can be handed out: two more are there, and no key starts with it whose
colon may still come. None if such a colon is missing. -/
def ready? (s : Source) : Option Bool :=
  if s.queue.length < 3 then some false
  else
    match (s.candidate :: s.outerCandidates).find? fun k => k.any (·.number == s.taken) with
    | some (some k) =>
      if s.isFresh k then some false else if k.required then none else some true
    | _ => some true

/-- Reads until the next token can be handed out; `size` bounds the number of tokens. -/
def prepare : (size : Nat) → Source → Option Source
  | 0, _ => none
  | size + 1, s => do
    if ← s.ready? then pure s else prepare size (← s.read)

def drop (s : Source) : Source := { s with queue := s.queue.tail, taken := s.taken + 1 }

end Source
end StackML.Settings.Yaml
