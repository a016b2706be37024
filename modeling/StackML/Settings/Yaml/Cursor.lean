/-!
Places in a YAML text. A place is known by its index among all characters and by its line and
column; moving on keeps count of all three. Line ends are line feeds and the line and paragraph
separators; other forms of line ends are line feeds before anything is read.
-/

namespace StackML.Settings.Yaml

def isBlank (c : Char) : Bool := c == ' ' || c == '\t'

def isBreak (c : Char) : Bool := c == '\n' || c == '\u2028' || c == '\u2029'

def unixLines : List Char → List Char
  | '\r' :: '\n' :: rest => '\n' :: unixLines rest
  | c :: rest => (if c == '\r' || c == '\u0085' then '\n' else c) :: unixLines rest
  | [] => []

def isAllowed (c : Char) : Bool :=
  let n := c.toNat
  n == 0x09 || n == 0x0A || n == 0x0D || (0x20 ≤ n && n ≤ 0x7E) || n == 0x85 ||
    (0xA0 ≤ n && n ≤ 0xFFFD) || 0x10000 ≤ n

def atGap : List Char → Bool
  | [] => true
  | c :: _ => isBlank c || isBreak c

/-- Whether the text goes on with one character three times and a gap behind them. -/
def atTriple (mark : Char) (rest : List Char) : Bool :=
  rest.take 3 == [mark, mark, mark] && atGap (rest.drop 3)

def atMarker (rest : List Char) : Bool := atTriple '-' rest || atTriple '.' rest

structure Place where
  index : Nat := 0
  line : Nat := 0
  column : Nat := 0
  deriving DecidableEq, Repr

def Place.next (p : Place) (c : Char) : Place :=
  if isBreak c then ⟨p.index + 1, p.line + 1, 0⟩ else ⟨p.index + 1, p.line, p.column + 1⟩

structure Cursor where
  rest : List Char
  place : Place := {}

namespace Cursor

def advance (c : Cursor) (n : Nat) : Cursor :=
  ⟨c.rest.drop n, (c.rest.take n).foldl Place.next c.place⟩

/-- Splits off the characters up to the first that is not of a class. -/
def span (c : Cursor) (p : Char → Bool) : List Char × Cursor :=
  let front := c.rest.takeWhile p
  (front, c.advance front.length)

def skipWhile (c : Cursor) (p : Char → Bool) : Cursor := (c.span p).2

def accept? (c : Cursor) (expected : Char) : Option Cursor :=
  if c.rest.head? == some expected then some (c.advance 1) else none

def skipLine (c : Cursor) : Cursor := c.skipWhile fun ch => !isBreak ch

/-- Moves over a comment that stands in the same line, behind blanks at most. -/
def skipComment (c : Cursor) : Cursor :=
  let after := c.skipWhile isBlank
  if after.rest.head? == some '#' then after.skipLine else c

/-- Moves to the next line; only a comment may stand before its end. -/
def endLine? (c : Cursor) : Option Cursor :=
  let after := c.skipComment.skipWhile isBlank
  match after.rest with
  | [] => some after
  | ch :: _ => if isBreak ch then some (after.advance 1) else none

/-- Where a gap between tokens is read: between them, within a comment, or between two comments
that nothing but blanks and line ends separates. -/
inductive Gap where
  | open
  | comment
  | between

/-- Moves to the next token. Tabs count as blanks only where no key may start; `keys` is whether
one may, which a line end turns on outside brackets. -/
def skipGapFrom (brackets : Bool) : (gap : Gap) → (keys : Bool) → Place → List Char →
    Bool × Cursor
  | _, keys, p, [] => (keys, ⟨[], p⟩)
  | gap, keys, p, c :: rest =>
    match gap with
    | .open =>
      if c == ' ' || (c == '\t' && (brackets || !keys)) then
        skipGapFrom brackets .open keys (p.next c) rest
      else if c == '#' then skipGapFrom brackets .comment keys (p.next c) rest
      else if isBreak c then skipGapFrom brackets .open (keys || !brackets) (p.next c) rest
      else (keys, ⟨c :: rest, p⟩)
    | .comment =>
      if !isBreak c then skipGapFrom brackets .comment keys (p.next c) rest
      else if (rest.dropWhile fun c => isBlank c || isBreak c).head? == some '#' then
        skipGapFrom brackets .between keys (p.next c) rest
      else skipGapFrom brackets .open (keys || !brackets) (p.next c) rest
    | .between =>
      skipGapFrom brackets (if c == '#' then .comment else .between) keys (p.next c) rest

def skipGap (c : Cursor) (brackets keys : Bool) : Bool × Cursor :=
  skipGapFrom brackets .open keys c.place c.rest

end Cursor
end StackML.Settings.Yaml
