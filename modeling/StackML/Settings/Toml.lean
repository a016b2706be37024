import StackML.Settings.Dialect
import StackML.Settings.Toml.Table

/-!
Settings in TOML. Keys name settings in small letters or capitals, and every value has the type of
its setting.
-/

namespace StackML.Settings.Toml

/-- A letter without regard to case; the long s and the sign of the kelvin are forms of letters. -/
def foldCase (c : Char) : Char :=
  if c == '\u017F' then 's' else if c == '\u212A' then 'k' else c.toLower

def dialect : Dialect Value where
  table? names
    | .table entries => some <|
      (entries.map fun (k, v) => (String.ofList (k.toList.map foldCase), v)).filter fun e =>
        names.contains e.1
    | _ => none
  list?
    | .list items => some items
    | .tables elements => some (elements.reverse.map .table)
    | _ => none
  text?
    | .text s => some (some s)
    | _ => none
  truth?
    | .truth b => some (some b)
    | _ => none

end StackML.Settings.Toml
