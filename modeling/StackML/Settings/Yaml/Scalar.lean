import StackML.Settings.Numeral
import StackML.Settings.Yaml.Cursor

/-!
Scalars of YAML as they are written: plain, between quotes, and as blocks of indented lines. Within
the first two a line end stands for a blank, and of several line ends the first is dropped.
-/

namespace StackML.Settings.Yaml

structure Fold where
  blanks : List Char := []
  breaks : List Char := []
  /-- Whether a backslash took away the first line end. -/
  escaped : Bool := false

namespace Fold

def isEmpty (f : Fold) : Bool := f.blanks.isEmpty && f.breaks.isEmpty

def blank (f : Fold) (c : Char) : Fold :=
  if f.breaks.isEmpty && !f.escaped then { f with blanks := c :: f.blanks } else f

def lineEnd (f : Fold) (c : Char) : Fold := { f with blanks := [], breaks := c :: f.breaks }

def text (f : Fold) : List Char :=
  if f.escaped then f.breaks
  else
    match f.breaks.reverse with
    | [] => f.blanks
    | ['\n'] => [' ']
    | '\n' :: more => more.reverse
    | more => more.reverse

end Fold

structure Scanned where
  text : String
  after : Cursor
  /-- Whether line ends were read behind it. -/
  broken : Bool := false

def isBracket (c : Char) : Bool :=
  c == ',' || c == '[' || c == ']' || c == '\x7b' || c == '\x7d'

/-- Whether a plain scalar ends before a character, `rest` being what follows the character. -/
def endsPlain (brackets : Bool) (c : Char) (rest : List Char) : Bool :=
  (c == ':' && atGap rest) || (brackets && (isBracket c || c == '?'))

/-- Reads on in a plain scalar, whose further lines start at the column `least` or behind it. -/
def plainFrom (brackets : Bool) (least : Nat) :
    (text : List Char) → Fold → Place → List Char → Option Scanned
  | text, fold, p, [] => some ⟨String.ofList text.reverse, ⟨[], p⟩, !fold.breaks.isEmpty⟩
  | text, fold, p, c :: rest =>
    if isBreak c then plainFrom brackets least text (fold.lineEnd c) (p.next c) rest
    else if isBlank c then
      if c == '\t' && !fold.breaks.isEmpty && p.column < least then none
      else plainFrom brackets least text (fold.blank c) (p.next c) rest
    else if (!fold.isEmpty && ((!brackets && p.column < least) || c == '#' ||
          (p.column == 0 && atMarker (c :: rest)))) || endsPlain brackets c rest then
      some ⟨String.ofList text.reverse, ⟨c :: rest, p⟩, !fold.breaks.isEmpty⟩
    else plainFrom brackets least (c :: (fold.text ++ text)) {} (p.next c) rest

def indicators : List Char :=
  ['-', '?', ':', ',', '[', ']', '\x7b', '\x7d', '#', '&', '*', '!', '|', '>', '\'', '"', '%', '@',
    '\x60']

def startsPlain (brackets : Bool) : List Char → Bool
  | [] => false
  | c :: rest =>
    (!isBlank c && !isBreak c && !indicators.contains c) || (c == '-' && !atGap rest) ||
      (!brackets && (c == '?' || c == ':') && !atGap rest)

def escape? (c : Char) : Option Char :=
  [('0', '\x00'), ('a', '\x07'), ('b', '\x08'), ('t', '\t'), ('\t', '\t'), ('n', '\n'),
    ('v', '\x0b'), ('f', '\x0c'), ('r', '\r'), ('e', '\x1b'), (' ', ' '), ('"', '"'), ('\'', '\''),
    ('\\', '\\'), ('N', '\u0085'), ('_', '\u00a0'), ('L', '\u2028'), ('P', '\u2029')].lookup c

inductive Escape where
  | none
  | backslash
  | hex (missing : Nat) (digits : List Char)

/-- Reads on in a scalar between quotes. In single quotes a doubled quote stands for one. -/
def quotedFrom (quote : Char) :
    (text : List Char) → Escape → Fold → Place → List Char → Option Scanned
  | _, _, _, _, [] => none
  | text, .backslash, fold, p, c :: rest =>
    if isBreak c then quotedFrom quote text .none { escaped := true } (p.next c) rest
    else
      match hexLength? c, escape? c with
      | some n, _ => quotedFrom quote text (.hex n []) fold (p.next c) rest
      | none, some e => quotedFrom quote (e :: text) .none fold (p.next c) rest
      | none, none => none
  | text, .hex missing digits, fold, p, c :: rest =>
    let digits := digits ++ [c]
    if 1 < missing then quotedFrom quote text (.hex (missing - 1) digits) fold (p.next c) rest
    else
      match hexChar? digits with
      | some e => quotedFrom quote (e :: text) .none fold (p.next c) rest
      | none => none
  | text, .none, fold, p, c :: rest =>
    if isBreak c then quotedFrom quote text .none (fold.lineEnd c) (p.next c) rest
    else if isBlank c then quotedFrom quote text .none (fold.blank c) (p.next c) rest
    else if p.column == 0 && atMarker (c :: rest) then none
    else
      let text := fold.text ++ text
      if c == quote then
        match quote, rest with
        | '\'', '\'' :: rest =>
          quotedFrom quote ('\'' :: text) .none {} ((p.next c).next c) rest
        | _, _ => some ⟨String.ofList text.reverse, ⟨rest, p.next c⟩, false⟩
      else if c == '\\' && quote == '"' then quotedFrom quote text .backslash {} (p.next c) rest
      else quotedFrom quote (c :: text) .none {} (p.next c) rest

inductive Chomping where
  | clip
  | strip
  | keep
  deriving DecidableEq

def chomping (cs : List Char) : Option Chomping × List Char :=
  match cs with
  | '-' :: rest => (some .strip, rest)
  | '+' :: rest => (some .keep, rest)
  | rest => (none, rest)

/-- Reads the depth of a block's lines, if it is given; it is not zero. -/
def depth? (cs : List Char) : Option (Nat × List Char) :=
  match cs with
  | c :: rest =>
    if c == '0' then none
    else if c.isDigit then some (c.toNat - '0'.toNat, rest)
    else some (0, cs)
  | [] => some (0, [])

/-- Reads what stands behind the first character of a block: the depth of its lines and the
chomping, in either order. -/
def blockHeader? (cs : List Char) : Option (Nat × Chomping × List Char) :=
  match chomping cs with
  | (some chomp, rest) => (depth? rest).map fun (depth, rest) => (depth, chomp, rest)
  | (none, rest) => (depth? rest).map fun (depth, after) =>
    if depth = 0 then (0, .clip, after)
    else
      let (chomp, after) := chomping after
      (depth, chomp.getD .clip, after)

/-- Reads the indentation of the next line of a block that is not empty, and the line ends before
it, the last first. An indentation of zero is not known yet: the deepest one is found. `lines`
bounds their number. -/
def blockGap? (indent : Nat) : (lines : Nat) → (deepest : Nat) → (breaks : List Char) → Cursor →
    Option (Nat × List Char × Cursor)
  | 0, _, _, _ => none
  | lines + 1, deepest, breaks, c =>
    let spaces := (c.rest.takeWhile (· == ' ')).length
    let c := c.advance (if indent = 0 then spaces else min spaces (indent - c.place.column))
    let deepest := max deepest c.place.column
    match c.rest with
    | ch :: _ =>
      if ch == '\t' && (indent = 0 || c.place.column < indent) then none
      else if isBreak ch then blockGap? indent lines deepest (ch :: breaks) (c.advance 1)
      else some (deepest, breaks, c)
    | [] => some (deepest, breaks, c)

/-- Reads the lines of a block at an indentation. Of a folded block, a line end between two lines
that do not start with blanks is a blank, or nothing if empty lines follow it. The text and the
line ends are kept last first. -/
def blockLines? (literal : Bool) (indent : Nat) : (lines : Nat) → (text : List Char) →
    (lineEnd breaks : List Char) → (afterBlank : Bool) → Cursor →
    Option (List Char × List Char × List Char × Cursor)
  | 0, _, _, _, _, _ => none
  | lines + 1, text, lineEnd, breaks, afterBlank, c =>
    if c.place.column != indent || c.rest.isEmpty then some (text, lineEnd, breaks, c)
    else
      let startsBlank := c.rest.head?.any isBlank
      let folds := !literal && !afterBlank && !startsBlank && lineEnd == ['\n']
      let joint := if folds then (if breaks.isEmpty then [' '] else []) else lineEnd
      let (line, c) := c.span fun ch => !isBreak ch
      let lineEnd := c.rest.take 1
      match blockGap? indent (c.rest.length + 1) 0 [] (c.advance 1) with
      | none => none
      | some (_, more, c) =>
        blockLines? literal indent lines (line.reverse ++ (breaks ++ (joint ++ text))) lineEnd more
          startsBlank c

/-- Reads a block behind its first character; `least` is the least column that its lines may
have. -/
def block? (literal : Bool) (least : Nat) (c : Cursor) : Option Scanned := do
  let (depth, chomp, rest) ← blockHeader? c.rest
  let c ← (c.advance (c.rest.length - rest.length)).endLine?
  let size := c.rest.length + 1
  let given := if depth = 0 || least = 0 then depth else least - 1 + depth
  let (deepest, breaks, c) ← blockGap? given size 0 [] c
  let indent := if depth = 0 then max (max deepest least) 1 else given
  let (text, lineEnd, breaks, c) ← blockLines? literal indent size [] [] breaks false c
  let text := match chomp with
    | .strip => text
    | .clip => lineEnd ++ text
    | .keep => breaks ++ (lineEnd ++ text)
  pure ⟨String.ofList text.reverse, c, true⟩

end StackML.Settings.Yaml
