import StackML.Settings.Basic

/-!
From what a settings file says to settings. A dialect tells how a kind of file says things: which
tables, lists, texts and truth values its parts are. What names no setting is ignored together with
what stands under it; what names one has to have its shape.
-/

namespace StackML.Settings

structure Dialect (D : Type) where
  /-- The entries of a table that bear one of the names, in the order in which they count. -/
  table? : (names : List String) → D → Option (List (String × D))
  list? : D → Option (List D)
  /-- A text, or nothing, which leaves a setting as it is. -/
  text? : D → Option (Option String)
  /-- A truth value, or nothing. -/
  truth? : D → Option (Option Bool)

namespace Dialect

variable {D α : Type}

def textOr? (d : Dialect D) (before : String) (doc : D) : Option String :=
  (d.text? doc).map (·.getD before)

/-- Goes through the entries of a table that name a part of a record. -/
def fill? (d : Dialect D) (names : List String) (put : α → String → D → Option α) (record : α)
    (doc : D) : Option α := do
  (← d.table? names doc).foldlM (fun record (name, part) => put record name part) record

def log? (d : Dialect D) : Settings → D → Option Settings :=
  d.fill? ["level", "color"] fun s name doc =>
    match name with
    | "level" => (d.textOr? s.level doc).map fun level => { s with level }
    | _ => (d.textOr? s.color doc).map fun color => { s with color }

def store? (d : Dialect D) : Settings → D → Option Settings :=
  d.fill? ["dsn"] fun s _ doc => (d.textOr? s.dsn doc).map fun dsn => { s with dsn }

def binding? (d : Dialect D) : D → Option Host.Binding :=
  d.fill? ["owner", "member", "signature", "kind"] (fun b name doc =>
    match name with
    | "owner" => (d.textOr? b.owner doc).map fun owner => { b with owner }
    | "member" => (d.textOr? b.member doc).map fun member => { b with member }
    | "signature" => (d.textOr? b.signature doc).map fun signature => { b with signature }
    | _ => (d.textOr? b.kind doc).map fun kind => { b with kind }) {}

def host? (d : Dialect D) : Settings → D → Option Settings :=
  d.fill? ["packages_dir", "reflective", "bindings"] fun s name doc =>
    match name with
    | "packages_dir" =>
      (d.textOr? s.packagesDir doc).map fun packagesDir => { s with packagesDir }
    | "reflective" =>
      (d.truth? doc).map fun value => { s with reflective := value.getD s.reflective }
    | _ => do pure { s with bindings := ← (← d.list? doc).mapM d.binding? }

/-- The settings that a file gives; none if something has another shape than its setting. -/
def settings? (d : Dialect D) : D → Option Settings :=
  d.fill? ["module", "log", "host", "store"] (fun s name doc =>
    match name with
    | "module" => (d.textOr? s.module doc).map fun module => { s with module }
    | "log" => d.log? s doc
    | "host" => d.host? s doc
    | _ => d.store? s doc) {}

end Dialect
end StackML.Settings
