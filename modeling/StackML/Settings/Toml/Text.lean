import StackML.Settings.Numeral

/-!
Strings and keys of TOML. A string stands between single or double quotes, or, if it may have
several lines, between three of them; only double quotes know escape sequences.
-/

namespace StackML.Settings.Toml

def isBlank (c : Char) : Bool := c == ' ' || c == '\t'

def isLineEnd (c : Char) : Bool := c == '\n' || c == '\r'

def isBareKey (c : Char) : Bool := c.isAlphanum || c == '_' || c == '-'

def skipBlanks (cs : List Char) : List Char := cs.dropWhile isBlank

/-- Whether a text has only characters that it may have: no control characters but tabs and line
ends, and carriage returns only before line feeds. -/
def isClean : List Char → Bool
  | [] => true
  | '\r' :: rest => rest.head? == some '\n' && isClean rest
  | c :: rest => (0x20 ≤ c.toNat && c.toNat != 0x7F || c == '\t' || c == '\n') && isClean rest

def escape? (c : Char) : Option Char :=
  [('b', '\x08'), ('t', '\t'), ('n', '\n'), ('f', '\x0c'), ('r', '\r'), ('e', '\x1b'), ('"', '"'),
    ('\\', '\\')].lookup c

inductive Escape where
  | none
  | backslash
  | hex (missing : Nat) (digits : List Char)
  /-- Blanks behind a backslash in a string of several lines; `ended` after a line end. -/
  | joined (ended : Bool)

def lineString (quote : Char) (text : List Char) :
    (escape : Escape) → List Char → Option (String × List Char)
  | _, [] => none
  | .hex missing digits, c :: rest =>
    let digits := digits ++ [c]
    if 1 < missing then lineString quote text (.hex (missing - 1) digits) rest
    else
      match hexChar? digits with
      | some e => lineString quote (e :: text) .none rest
      | none => none
  | .backslash, c :: rest =>
    match hexLength? c, escape? c with
    | some n, _ => lineString quote text (.hex n []) rest
    | none, some e => lineString quote (e :: text) .none rest
    | none, none => none
  | _, c :: rest =>
    if c == quote then some (String.ofList text.reverse, rest)
    else if isLineEnd c then none
    else if c == '\\' && quote == '"' then lineString quote text .backslash rest
    else lineString quote (c :: text) .none rest

/-- Reads on in a string of several lines, up to three quotes; two more may stand before them. A
backslash at the end of a line takes away the line end and the blanks and line ends behind it. -/
def blockString (quote : Char) (text : List Char) :
    (escape : Escape) → List Char → Option (String × List Char)
  | _, [] => none
  | .hex missing digits, c :: rest =>
    let digits := digits ++ [c]
    if 1 < missing then blockString quote text (.hex (missing - 1) digits) rest
    else
      match hexChar? digits with
      | some e => blockString quote (e :: text) .none rest
      | none => none
  | .backslash, c :: rest =>
    if isBlank c || isLineEnd c then blockString quote text (.joined (c == '\n')) rest
    else
      match hexLength? c, escape? c with
      | some n, _ => blockString quote text (.hex n []) rest
      | none, some e => blockString quote (e :: text) .none rest
      | none, none => none
  | escape, c :: rest =>
    let skipped := match escape with
      | .joined ended => if isBlank c || isLineEnd c then some (ended || c == '\n') else none
      | _ => none
    match escape, skipped with
    | _, some ended => blockString quote text (.joined ended) rest
    | .joined false, none => none
    | _, none =>
      if c == quote && rest.take 2 == [quote, quote] then
        let more := (rest.drop 2).takeWhile (· == quote)
        let kept := min more.length 2
        some (String.ofList (List.replicate kept quote ++ text).reverse, rest.drop (2 + kept))
      else if c == '\\' && quote == '"' then blockString quote text .backslash rest
      else blockString quote (c :: text) .none rest

/-- Reads a string behind its first quote. A line end right behind three quotes does not count. -/
def string? (quote : Char) (rest : List Char) : Option (String × List Char) :=
  if rest.take 2 == [quote, quote] then
    match rest.drop 2 with
    | '\n' :: rest => blockString quote [] .none rest
    | '\r' :: '\n' :: rest => blockString quote [] .none rest
    | rest => blockString quote [] .none rest
  else lineString quote [] .none rest

def keyPart? (cs : List Char) : Option (String × List Char) :=
  match cs with
  | '"' :: rest => lineString '"' [] .none rest
  | '\'' :: rest => lineString '\'' [] .none rest
  | cs =>
    let part := cs.takeWhile isBareKey
    if part.isEmpty then none else some (String.ofList part, cs.drop part.length)

structure Key where
  parents : List String
  name : String
  deriving DecidableEq, Repr

def Key.path (k : Key) : List String := k.parents ++ [k.name]

/-- Reads a key whose parts are divided by dots; `depth` bounds their number. -/
def key? : (depth : Nat) → (parents : List String) → List Char → Option (Key × List Char)
  | 0, _, _ => none
  | depth + 1, parents, cs => do
    let (part, rest) ← keyPart? (skipBlanks cs)
    match skipBlanks rest with
    | '.' :: rest => key? depth (parents ++ [part]) rest
    | rest => pure (⟨parents, part⟩, rest)

end StackML.Settings.Toml
