import StackML.Machine.Rep

/-!
The local variables of a method under construction. Slots are handed out in order, as wide as the
representation needs, and given back when a scope is left; `max` remembers the most ever in use.
A later binding of a name hides an earlier one. Names of a scope that was left come back when the
table is taken to a checkpoint inside that scope, unless others took their places.
-/

namespace StackML

structure SelfRef where
  method : String := ""
  descriptor : String := ""
  captures : List String := []
  params : List Rep := []
  result : Rep := .ref
  deriving DecidableEq, Repr, Inhabited

structure Local where
  name : String
  slot : Int
  repr : Rep
  self : Option SelfRef := none
  deriving DecidableEq, Repr, Inhabited

/-- The names in scope, innermost first, with the next free slot and the most slots ever used.
Names that went out of scope and were not replaced since are kept in `past`, outermost first. -/
structure LocalTable where
  entries : List Local := []
  past : List Local := []
  next : Nat := 0
  max : Nat := 0
  deriving DecidableEq, Repr, Inhabited

namespace LocalTable

structure Checkpoint where
  count : Nat
  next : Nat
  deriving DecidableEq, Repr, Inhabited

/-- Adds an entry in the place of the first one that went out of scope. -/
def push (t : LocalTable) (l : Local) : LocalTable :=
  { t with entries := l :: t.entries, past := t.past.tail }

def define (t : LocalTable) (name : String) (r : Rep) : Local × LocalTable :=
  let l : Local := { name, slot := t.next, repr := r }
  let next := t.next + r.width
  (l, { t.push l with next, max := Nat.max t.max next })

/-- Binds a name to the recursive function being compiled, which takes no slot. -/
def defineSelf (t : LocalTable) (name : String) (self : SelfRef) : LocalTable :=
  t.push { name, slot := -1, repr := .ref, self := some self }

def addAlias (t : LocalTable) (name : String) (l : Local) : LocalTable :=
  t.push { l with name }

def find? (t : LocalTable) (name : String) : Option Local :=
  t.entries.find? (·.name == name)

def checkpoint (t : LocalTable) : Checkpoint := ⟨t.entries.length, t.next⟩

/-- Forgets the bindings made since the checkpoint and frees their slots. A checkpoint that lies
behind a scope left before brings back the names of that scope. -/
def rollback (t : LocalTable) (c : Checkpoint) : LocalTable :=
  let left := t.entries.length - c.count
  let back := c.count - t.entries.length
  { t with
    entries := (t.past.take back).reverse ++ t.entries.drop left
    past := (t.entries.take left).reverse ++ t.past.drop back
    next := c.next }

end LocalTable

/-- Whether a name is bound in one of the tables, the method's own first and then those of the
enclosing methods. -/
def boundInAny (tables : List LocalTable) (name : String) : Bool :=
  tables.any fun t => (t.find? name).isSome

end StackML
