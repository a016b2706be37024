import StackML.Proofs.Codegen.Follow
import StackML.Proofs.Codegen.Making.Expressions
import StackML.Proofs.Machine.Entry
import StackML.Proofs.Machine.Equality

/-!
Equality of programs is one relation, whatever code the type of the operands asks for: integers and
truth values are compared as numbers, texts by the host, everything else as boxed values.
-/

namespace StackML

namespace Codegen

open Machine Semantics

variable {site : Site} {ctx : Context} {s s' : State} {a b : Value} {t : Ty}

theorem findsCompare_of_alone (alone : s.pool.ComparesAlone)
    (given : s'.pool.entries.toList <+: site.constants.toList) : FindsCompare site ctx s s' := by
  intro code run
  unfold emitConst constant at run
  obtain ⟨i, s₁, run, emitted⟩ := bind_ok run
  obtain ⟨_, _, ⟨⟩, run⟩ := bind_ok run
  cases added : s.pool.add stringCompare with
  | none =>
    simp only [added] at run
    cases run
  | some found =>
    obtain ⟨j, p⟩ := found
    simp only [added] at run
    cases run
    cases emitted
    obtain ⟨holds, -, d, found, same, key⟩ := Pool.Holds.add alone (fun _ => rfl) added
    obtain rfl := same key
    exact ⟨i, _, rfl, constant_found given holds.small found⟩

/-- The operands of comparisons: values of a type with an order, and boxed values of any other. -/
def Operand (t : Ty) (v : Value) : Prop := Comparable t v ∨ t.rep = .ref ∧ t ≠ .string

/-- The code for comparing two operands leaves a truth value in their place, wherever it stands in a
method that was given the constants it refers to, and whatever lies below the operands. -/
def Compares (op : BinaryOp) (t : Ty) (a b : Value) (c : Bool) : Prop :=
  ∀ (site : Site) (ctx : Context) (place : Position) (s s' : State) (code : Fragment) (ip : Nat)
    (L S : List Word) (out : List Text), ComparesTexts site.setup.registry →
    s.pool.ComparesAlone → comparison ctx place op t s = .ok code s' → site.Located ip code →
    s'.pool.entries.toList <+: site.constants.toList →
    Leads site ⟨ip, L, words t.rep b ++ (words t.rep a ++ S), out⟩
      ⟨ip + code.size, L, .ofBool c :: S, out⟩

theorem Comparable.not_boxed {v : Value} (h : Comparable t v) : ¬(t.rep = .ref ∧ t ≠ .string) := by
  cases h <;> simp [Ty.rep]

theorem compares_ordered (op : BinaryOp) (first : Comparable t a) (second : Comparable t b) :
    ∃ o, order? a b = some o ∧ Compares op t a b (Semantics.holds op o) := by
  have order : ∃ o, order? a b = some o := by
    cases first <;> cases second <;> exact ⟨_, rfl⟩
  obtain ⟨o, known⟩ := order
  refine ⟨o, known, ?_⟩
  intro site ctx place s s' code ip L S out linked alone run at_ given
  obtain ⟨o', same, way⟩ := comparison_ordered linked first second
    (fun _ => findsCompare_of_alone alone given) run at_
  cases known.symm.trans same
  exact way

theorem compares_boxed (a b : Value) (boxed : t.rep = .ref) (text : t ≠ .string) :
    Compares .eq t a b (a.equal b) ∧ Compares .ne t a b (!a.equal b) := by
  constructor
  all_goals
    intro site ctx place s s' code ip L S out linked alone run at_ given
    rcases comparison_equal boxed text run at_ with ⟨same, way⟩ | ⟨same, way⟩
    all_goals cases same
    exact way

theorem comparesAlone_of_expr {e : Expr Typing.Typed} {code : Fragment} (sane : s.Sane ctx.checked)
    (run : expr ctx e s = .ok code s') : s'.pool.ComparesAlone :=
  ((emits_expr ctx 0 e).run sane (Nat.zero_le _) run).1.sane.pool.comparesAlone

theorem Compares.behind {op : BinaryOp} {c : Bool} (h : Compares op t a b c) {e : Expr Typing.Typed}
    {place : Position} {s₁ : State} {code test : Fragment} {ip : Nat} (linked : ComparesTexts site.setup.registry)
    (sane : s.Sane ctx.checked) (operand : expr ctx e s = .ok code s₁)
    (run : comparison ctx place op t s₁ = .ok test s') (at_ : site.Located ip test)
    (given : s'.pool.entries.toList <+: site.constants.toList) (L S : List Word) (out : List Text) :
    Leads site ⟨ip, L, words t.rep b ++ (words t.rep a ++ S), out⟩
      ⟨ip + test.size, L, .ofBool c :: S, out⟩ :=
  h site ctx place s₁ s' test ip L S out linked (comparesAlone_of_expr sane operand) run at_ given

theorem isEq_eq_equal {o : Ordering} (first : Comparable t a) (second : Comparable t b)
    (single : t ≠ .double) (known : order? a b = some o) : o.isEq = a.equal b := by
  cases first with
  | double => exact (single rfl).elim
  | int | bool | str =>
    cases second
    cases known
    rw [Bool.eq_iff_iff]
    simp [Value.equal, Ordering.isEq_iff_eq_eq, Std.LawfulEqCmp.compare_eq_iff_eq]

/-- Equality of boxed values is an equivalence on those made of unit, integers, truth values, texts,
lists and constructors, and goes through lists and payloads. The code for `==` at any type but
`Double` decides it of the boxed operands, and the code for `!=` at any type decides the contrary. -/
theorem equality_agrees :
    ((∀ a : Value, a.Structural → a.equal a = true) ∧
      (∀ a b : Value, a.Structural → b.Structural → a.equal b = true → b.equal a = true) ∧
      (∀ a b c : Value, a.Structural → b.Structural → c.Structural →
        a.equal b = true → b.equal c = true → a.equal c = true)) ∧
    ((∀ a b : Value, a.isUnit = true → a.equal b = b.isUnit) ∧
      (∀ as bs : List Value, (Value.list as).equal (.list bs) = true ↔ as.length = bs.length ∧
        ∀ (i : Nat) (h : i < as.length) (h' : i < bs.length),
          (as.get ⟨i, h⟩).equal (bs.get ⟨i, h'⟩) = true) ∧
      (∀ (c d : HolderClass) (p q : Value), (Value.holder c p).equal (.holder d q) = true ↔
        c.owner = d.owner ∧ c.name = d.name ∧ p.equal q = true)) ∧
    ∀ (t : Ty) (a b : Value), Operand t a → Operand t b → ∃ c : Bool,
      Compares .eq t a b c ∧ Compares .ne t a b (!c) ∧ (t ≠ .double → c = a.equal b) := by
  refine ⟨⟨fun a h => h.equal_refl, fun a b h h' => h.equal_symm h',
    fun a b c h h' _ => h.equal_trans h'⟩, ⟨?_, Value.equal_list_iff, Value.equal_holder_iff⟩, ?_⟩
  · intro a b unit
    cases a with
    | null | unit => rfl
    | _ => cases unit
  · intro t a b first second
    rcases first with first | ⟨boxed, text⟩
    · have second : Comparable t b := second.resolve_right first.not_boxed
      obtain ⟨o, known, same⟩ := compares_ordered .eq first second
      obtain ⟨o', known', other⟩ := compares_ordered .ne first second
      cases known.symm.trans known'
      refine ⟨o.isEq, same, ?_, fun single => isEq_eq_equal first second single known⟩
      have contrary : Semantics.holds .ne o = !o.isEq := by cases o <;> rfl
      exact contrary ▸ other
    · obtain ⟨same, other⟩ := compares_boxed a b boxed text
      exact ⟨_, same, other, fun _ => rfl⟩

def differCode : Fragment :=
  [⟨.invokehost, .word 0, 0⟩, ⟨.ifNe, .jump 5, 0⟩, ⟨.zconst, .byte 0, 0⟩, ⟨.goto, .jump 2, 0⟩,
    ⟨.zconst, .byte 1, 0⟩]

/-- A method that compares two texts. -/
def differSite : Site :=
  mainSite {} { name := "M", constants := #[stringCompare] }
    { code := (differCode.assemble.map (·.1)).toArray } ⟨[], .bool⟩ differCode rfl (by decide)

theorem equality_agrees_texts :
    (Value.list [.int 1, .null]).equal (.list [.int 1, .unit]) = true ∧
      Leads differSite ⟨0, [], [.ofValue (.str "b"), .ofValue (.str "a")], []⟩
        ⟨13, [], [.ofBool true], []⟩ := by
  obtain ⟨⟨-, symmetric, -⟩, -, agrees⟩ := equality_agrees
  have pair : ∀ v : Value, v.Structural → (Value.list [.int 1, v]).Structural := fun v plain =>
    .list (by simpa using ⟨.int 1, plain⟩)
  refine ⟨symmetric _ _ (pair _ .unit) (pair _ .null) (by decide +kernel), ?_⟩
  obtain ⟨c, -, differs, same⟩ :=
    agrees .string (.str "a") (.str "b") (.inl (.str _)) (.inl (.str _))
  obtain rfl : c = false := (same (by simp)).trans (by decide +kernel)
  let ctx : Context := { checked := { module := ⟨⟨default, .unit, none⟩, "M", [], [], none⟩ } }
  exact differs differSite ctx default {}
    { pool := ⟨#[stringCompare], Std.TreeMap.insert {} stringCompare.key 0⟩ } differCode 0 [] [] []
    comparesTexts_wellKnown (Pool.holds_empty _) rfl ⟨[], [], rfl, rfl⟩ List.prefix_rfl

end Codegen
end StackML
