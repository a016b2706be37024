import StackML.Codegen.Locals

/-!
The table of locals in use. Whatever names are bound and whichever scopes are opened and left, as long
as the scope that is left is the last one opened, locals in use at the same time do not share slots,
the table has room for every local it ever handed out, and a scope that is left leaves the names as
they were when it was opened.
-/

namespace StackML

def Local.Takes (l : Local) (slot : Int) : Prop := l.slot ≤ slot ∧ slot < l.slot + l.repr.width

namespace LocalTable

/-! ### Uses of a table -/

inductive Action where
  | define (name : String) (r : Rep)
  | defineSelf (name : String) (self : SelfRef)
  | addAlias (name : String) (l : Local)
  | checkpoint
  | rollback
  deriving DecidableEq, Repr

structure Mark where
  point : Checkpoint
  table : LocalTable
  live : List (Local × Bool)
  deriving DecidableEq, Repr

/-- A table with its history: the entries that are live, the last one added first, each with whether
it was defined with slots of its own; the checkpoints it was not taken back to yet, the last one taken
first; and all locals ever defined. -/
structure Usage where
  table : LocalTable := {}
  live : List (Local × Bool) := []
  marks : List Mark := []
  defined : List Local := []
  deriving DecidableEq, Repr

namespace Usage

def owned (live : List (Local × Bool)) : List Local := (live.filter (·.2)).map (·.1)

/-- What an action does. Only a live local gets another name, and the table is only taken back to the
last checkpoint. -/
def act (u : Usage) : Action → Option Usage
  | .define name r =>
    let (l, table) := u.table.define name r
    some { u with table, live := (l, true) :: u.live, defined := l :: u.defined }
  | .defineSelf name self =>
    let l : Local := { name, slot := -1, repr := .ref, self := some self }
    some { u with table := u.table.defineSelf name self, live := (l, false) :: u.live }
  | .addAlias name l =>
    if l ∈ u.live.map (·.1) then
      some { u with table := u.table.addAlias name l, live := ({ l with name }, false) :: u.live }
    else none
  | .checkpoint => some { u with marks := ⟨u.table.checkpoint, u.table, u.live⟩ :: u.marks }
  | .rollback =>
    match u.marks with
    | [] => none
    | m :: rest => some { u with table := u.table.rollback m.point, live := m.live, marks := rest }

/-- What a sequence of actions does. -/
def acts (u : Usage) (actions : List Action) : Option Usage := actions.foldlM act u

/-! ### What each action keeps -/

structure Laid (live : List (Local × Bool)) (next : Nat) : Prop where
  apart : (owned live).Pairwise fun newer older : Local => older.slot + older.repr.width ≤ newer.slot
  below : ∀ l ∈ owned live, 0 ≤ l.slot ∧ l.slot + l.repr.width ≤ next

theorem Laid.unowned {live : List (Local × Bool)} {next : Nat} (laid : Laid live next) (l : Local) :
    Laid ((l, false) :: live) next := ⟨laid.apart, laid.below⟩

theorem Laid.define {live : List (Local × Bool)} {next : Nat} (laid : Laid live next) {l : Local}
    (slot : l.slot = next) : Laid ((l, true) :: live) (next + l.repr.width) := by
  have owned_cons : owned ((l, true) :: live) = l :: owned live := rfl
  refine ⟨?_, ?_⟩
  · rw [owned_cons, List.pairwise_cons, slot]
    exact ⟨fun older inside => (laid.below older inside).2, laid.apart⟩
  · rw [owned_cons, List.forall_mem_cons]
    refine ⟨by omega, fun older inside => ?_⟩
    have := laid.below older inside
    omega

structure Recorded (m : Mark) (max : Nat) : Prop where
  point : m.point = m.table.checkpoint
  entries : m.table.entries = m.live.map (·.1)
  laid : Laid m.live m.table.next
  next_le : m.table.next ≤ max

structure Kept (u : Usage) : Prop where
  entries : u.table.entries = u.live.map (·.1)
  laid : Laid u.live u.table.next
  next_le : u.table.next ≤ u.table.max
  defined_le : ∀ l ∈ u.defined, l.slot + l.repr.width ≤ u.table.max
  marks : ∀ m ∈ u.marks, Recorded m u.table.max
  nested : (u.live :: u.marks.map Mark.live).Pairwise fun newer older => older <:+ newer

theorem kept_new : Kept {} where
  entries := rfl
  laid := ⟨List.Pairwise.nil, nofun⟩
  next_le := Nat.le_refl 0
  defined_le := nofun
  marks := nofun
  nested := List.pairwise_singleton _ _

variable {u u' : Usage}

theorem Kept.nested_cons (kept : Kept u) (e : Local × Bool) :
    ((e :: u.live) :: u.marks.map Mark.live).Pairwise fun newer older => older <:+ newer := by
  obtain ⟨inner, outer⟩ := List.pairwise_cons.1 kept.nested
  exact List.pairwise_cons.2
    ⟨fun older inside => (inner older inside).trans (List.suffix_cons e u.live), outer⟩

theorem Kept.push (kept : Kept u) (l : Local) :
    Kept { u with table := u.table.push l, live := (l, false) :: u.live } where
  entries := congrArg (l :: ·) kept.entries
  laid := kept.laid.unowned l
  next_le := kept.next_le
  defined_le := kept.defined_le
  marks := kept.marks
  nested := kept.nested_cons (l, false)

theorem Kept.define (kept : Kept u) {name : String} {r : Rep}
    (run : u.act (.define name r) = some u') : Kept u' := by
  obtain rfl := Option.some.inj run
  have grows : u.table.max ≤ Nat.max u.table.max (u.table.next + r.width) := Nat.le_max_left _ _
  refine ⟨congrArg (_ :: ·) kept.entries, kept.laid.define rfl, Nat.le_max_right _ _, ?_, ?_,
    kept.nested_cons _⟩
  · refine List.forall_mem_cons.2 ⟨?_, fun l inside => ?_⟩
    · have room : u.table.next + r.width ≤ Nat.max u.table.max (u.table.next + r.width) :=
        Nat.le_max_right _ _
      exact Int.ofNat_le.2 room
    · exact Int.le_trans (kept.defined_le l inside) (Int.ofNat_le.2 grows)
  · intro m inside
    have recorded := kept.marks m inside
    exact { recorded with next_le := Nat.le_trans recorded.next_le grows }

theorem Kept.checkpoint (kept : Kept u) (run : u.act .checkpoint = some u') : Kept u' := by
  obtain rfl := Option.some.inj run
  refine { kept with marks := List.forall_mem_cons.2 ⟨?_, kept.marks⟩, nested := ?_ }
  · exact ⟨rfl, kept.entries, kept.laid, kept.next_le⟩
  · refine List.pairwise_cons.2 ⟨?_, kept.nested⟩
    rw [List.map_cons, List.forall_mem_cons]
    exact ⟨List.suffix_rfl, (List.pairwise_cons.1 kept.nested).1⟩

end Usage

theorem entries_rollback {t : LocalTable} {older : List Local} (still : older <:+ t.entries)
    (next : Nat) : (t.rollback ⟨older.length, next⟩).entries = older := by
  obtain ⟨newer, split⟩ := still
  have left : t.entries.length - older.length = newer.length := by
    rw [← split, List.length_append]
    omega
  have back : older.length - t.entries.length = 0 := by
    rw [← split, List.length_append]
    omega
  simp only [rollback, left, back, List.take_zero, List.reverse_nil, List.nil_append]
  rw [← split, List.drop_left]

namespace Usage

variable {u u' : Usage}

theorem Kept.entries_rollback (kept : Kept u) {m : Mark} {rest : List Mark}
    (last : u.marks = m :: rest) : (u.table.rollback m.point).entries = m.table.entries := by
  have recorded := kept.marks m (last ▸ List.mem_cons_self)
  have live : m.live <:+ u.live := by
    have nested := kept.nested
    rw [last] at nested
    exact (List.pairwise_cons.1 nested).1 m.live List.mem_cons_self
  have still : m.table.entries <:+ u.table.entries := by
    rw [recorded.entries, kept.entries]
    exact live.map _
  rw [recorded.point]
  exact LocalTable.entries_rollback still m.table.next

theorem Kept.rollback (kept : Kept u) (run : u.act .rollback = some u') : Kept u' := by
  cases last : u.marks with
  | nil =>
    rw [act, last] at run
    cases run
  | cons m rest =>
    have recorded := kept.marks m (last ▸ List.mem_cons_self)
    have entries := kept.entries_rollback last
    rw [act, last] at run
    obtain rfl := Option.some.inj run
    have next : (u.table.rollback m.point).next = m.table.next := by
      rw [recorded.point]
      rfl
    refine ⟨entries.trans recorded.entries, ?_, ?_, kept.defined_le,
      fun k inside => kept.marks k (last ▸ List.mem_cons_of_mem m inside), ?_⟩
    · exact next ▸ recorded.laid
    · exact next ▸ recorded.next_le
    · have nested := kept.nested
      rw [last] at nested
      exact (List.pairwise_cons.1 nested).2

theorem Kept.act (kept : Kept u) {a : Action} (run : u.act a = some u') : Kept u' := by
  cases a with
  | define name r => exact kept.define run
  | defineSelf name self =>
    obtain rfl := Option.some.inj run
    exact kept.push _
  | addAlias name l =>
    dsimp only [Usage.act] at run
    split at run
    · obtain rfl := Option.some.inj run
      exact kept.push _
    · cases run
  | checkpoint => exact kept.checkpoint run
  | rollback => exact kept.rollback run

theorem Kept.acts {actions : List Action} (kept : Kept u) (run : u.acts actions = some u') :
    Kept u' := by
  induction actions generalizing u with
  | nil =>
    obtain rfl := Option.some.inj run
    exact kept
  | cons a actions ih =>
    obtain ⟨u₁, first, rest⟩ := Option.bind_eq_some_iff.1 run
    exact ih (kept.act first) rest

/-! ### The most slots in use -/

theorem max_le_act {a : Action} (run : u.act a = some u') : u.table.max ≤ u'.table.max := by
  unfold act at run
  cases a with
  | define name r =>
    obtain rfl := Option.some.inj run
    exact Nat.le_max_left _ _
  | defineSelf name self | checkpoint =>
    obtain rfl := Option.some.inj run
    exact Nat.le_refl _
  | addAlias name l | rollback =>
    dsimp only at run
    split at run
    all_goals cases run
    exact Nat.le_refl _

theorem max_le_acts {actions : List Action} (run : u.acts actions = some u') :
    u.table.max ≤ u'.table.max := by
  induction actions generalizing u with
  | nil =>
    obtain rfl := Option.some.inj run
    exact Nat.le_refl _
  | cons a actions ih =>
    obtain ⟨u₁, first, rest⟩ := Option.bind_eq_some_iff.1 run
    exact Nat.le_trans (max_le_act first) (ih rest)

/-! ### Tables in use -/

structure Orderly (u : Usage) : Prop where
  entries : u.table.entries = u.live.map (·.1)
  /-- Live locals with slots of their own share none. -/
  apart : (owned u.live).Pairwise fun a b => ∀ slot, ¬ (a.Takes slot ∧ b.Takes slot)
  below : ∀ l ∈ owned u.live, 0 ≤ l.slot ∧ l.slot + l.repr.width ≤ u.table.next
  next_le : u.table.next ≤ u.table.max
  /-- There is room for every local that was ever defined. -/
  defined_le : ∀ l ∈ u.defined, l.slot + l.repr.width ≤ u.table.max
  /-- Whatever is done next, the room does not shrink. -/
  max_le : ∀ actions u', u.acts actions = some u' → u.table.max ≤ u'.table.max
  /-- A name stands for the live entry of that name that was added last. -/
  find?_eq_some : ∀ name l, u.table.find? name = some l ↔
    ∃ newer older, u.live.map (·.1) = newer ++ l :: older ∧ l.name = name ∧
      ∀ k ∈ newer, k.name ≠ name
  find?_eq_none : ∀ name, u.table.find? name = none ↔ ∀ e ∈ u.live, e.1.name ≠ name
  /-- Taken back to the last checkpoint, the table answers as the one it was taken of. -/
  find?_rollback : ∀ u', u.act .rollback = some u' →
    ∃ m, u.marks = m :: u'.marks ∧ ∀ name, u'.table.find? name = m.table.find? name

theorem Laid.disjoint {live : List (Local × Bool)} {next : Nat} (laid : Laid live next) :
    (owned live).Pairwise fun a b => ∀ slot, ¬ (a.Takes slot ∧ b.Takes slot) := by
  refine laid.apart.imp fun {newer older} behind slot => ?_
  rintro ⟨⟨least, -⟩, -, greatest⟩
  omega

theorem Kept.find?_rollback (kept : Kept u) (run : u.act .rollback = some u') :
    ∃ m, u.marks = m :: u'.marks ∧ ∀ name, u'.table.find? name = m.table.find? name := by
  cases last : u.marks with
  | nil =>
    rw [Usage.act, last] at run
    cases run
  | cons m rest =>
    have entries := kept.entries_rollback last
    rw [Usage.act, last] at run
    obtain rfl := Option.some.inj run
    refine ⟨m, rfl, fun name => ?_⟩
    unfold find?
    rw [entries]

/-- Every use of a new table, of whatever length, leaves it in order. -/
theorem acts_orderly {actions : List Action} {u : Usage} (run : acts {} actions = some u) :
    Orderly u := by
  have kept := kept_new.acts run
  refine ⟨kept.entries, kept.laid.disjoint, kept.laid.below, kept.next_le, kept.defined_le,
    fun _ _ => max_le_acts, fun name l => ?_, fun name => ?_, fun _ => kept.find?_rollback⟩
  · rw [find?, kept.entries, List.find?_eq_some_iff_append]
    simp only [beq_iff_eq, Bool.not_eq_true', beq_eq_false_iff_ne, ne_eq]
    grind
  · rw [find?, kept.entries, List.find?_eq_none]
    grind

/-- A double, an integer of the same name with another name for it, and in a scope inside, which is
left, a recursive function and one more double. -/
def nestedUse : List Action :=
  [.define "x" .double, .checkpoint, .define "x" .int, .addAlias "y" ⟨"x", 2, .int, none⟩,
    .checkpoint, .defineSelf "f" {}, .define "x" .double, .rollback]

theorem acts_orderly_nested : ∃ u, acts {} nestedUse = some u ∧ u.table.next = 3 ∧
    u.table.max = 5 ∧ Orderly u := by
  have run : acts {} nestedUse = some _ := rfl
  exact ⟨_, run, rfl, rfl, acts_orderly run⟩

end Usage
end LocalTable
end StackML
