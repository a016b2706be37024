/-!
Maps keyed by names. Each name has at most one entry, the last one given to it; `get?` is the view
that the small lemmas describe. Listings are in byte order of the names.
-/

namespace StackML

structure NameMap (β : Type) where
  entries : List (String × β) := []
  deriving Inhabited

namespace NameMap

variable {β : Type}

def empty : NameMap β := ⟨[]⟩

def get? (m : NameMap β) (name : String) : Option β := m.entries.lookup name

def contains (m : NameMap β) (name : String) : Bool := (m.get? name).isSome

def insert (m : NameMap β) (name : String) (value : β) : NameMap β :=
  ⟨(name, value) :: m.entries.filter (·.1 != name)⟩

def erase (m : NameMap β) (name : String) : NameMap β := ⟨m.entries.filter (·.1 != name)⟩

def size (m : NameMap β) : Nat := m.entries.length

def values (m : NameMap β) : List β := m.entries.map (·.2)

def map {γ : Type} (f : β → γ) (m : NameMap β) : NameMap γ :=
  ⟨m.entries.map fun (name, value) => (name, f value)⟩

def toSortedList (m : NameMap β) : List (String × β) :=
  m.entries.mergeSort fun a b => a.1 ≤ b.1

def names (m : NameMap β) : List String := m.toSortedList.map (·.1)

@[simp] theorem get?_empty (name : String) : (empty : NameMap β).get? name = none := rfl

@[simp] theorem get?_insert_self (m : NameMap β) (name : String) (value : β) :
    (m.insert name value).get? name = some value := by
  simp [insert, get?]

theorem lookup_filter_ne (l : List (String × β)) {name other : String} (h : other ≠ name) :
    (l.filter (·.1 != name)).lookup other = l.lookup other := by
  induction l with
  | nil => rfl
  | cons e l ih =>
    obtain ⟨k, v⟩ := e
    by_cases hk : k = name
    · subst hk
      have : (other == k) = false := by simpa using h
      simp [ih, List.lookup_cons, this]
    · by_cases ho : other = k
      · subst ho; simp [hk]
      · simp [hk, List.lookup_cons, ih]

theorem get?_insert (m : NameMap β) (name other : String) (value : β) :
    (m.insert name value).get? other = if other = name then some value else m.get? other := by
  by_cases h : other = name
  · subst h; simp
  · simp only [insert, get?, List.lookup_cons, h, if_false]
    have : (other == name) = false := by simpa using h
    simp [this, lookup_filter_ne m.entries h]

theorem lookup_map {γ : Type} (f : β → γ) (l : List (String × β)) (name : String) :
    (l.map fun e => (e.1, f e.2)).lookup name = (l.lookup name).map f := by
  induction l with
  | nil => rfl
  | cons e l ih =>
    rw [List.map_cons, List.lookup_cons, List.lookup_cons, ih]
    cases name == e.1 <;> rfl

@[simp] theorem get?_map {γ : Type} (f : β → γ) (m : NameMap β) (name : String) :
    (m.map f).get? name = (m.get? name).map f :=
  lookup_map f m.entries name

end NameMap
end StackML
