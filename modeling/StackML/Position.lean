/-!
Places in source files. The default place means that nothing is known; a file name alone may be
known without a line.
-/

namespace StackML

structure Position where
  file : String := ""
  line : Int := 0
  column : Int := 0
  deriving DecidableEq, Repr, Inhabited

namespace Position

def isKnown (p : Position) : Bool := 0 < p.line

def text (p : Position) : String :=
  if p.isKnown then
    let place := toString p.line ++ ":" ++ toString p.column
    if p.file.isEmpty then place else p.file ++ ":" ++ place
  else if p.file.isEmpty then "-"
  else p.file

end Position
end StackML
