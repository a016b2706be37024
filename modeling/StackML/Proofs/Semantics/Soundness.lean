import StackML.Proofs.Computation
import StackML.Proofs.Semantics.Eval
import StackML.Proofs.Typing.Stage

/-!
Values of a type, and evaluation that follows the typing rules: it is never stuck, and a value it
gives has the type of its node. A type variable has no values, so a tree whose type is one of them
gives none.
-/

namespace StackML

namespace Ty

def isSum : Ty → Bool
  | named _ | app .. | result .. => true
  | _ => false

theorem isSum_assign {t : Ty} (sum : t.isSum) (σ : Assignment) : (t.assign σ).isSum := by
  cases t <;> first | rfl | cases sum

end Ty

namespace Assignment

def splice (vars : List VarId) (ρ θ : Assignment) : Assignment where
  var id := if id ∈ vars then ρ.var id else θ.var id
  num id := if id ∈ vars then ρ.num id else θ.num id

theorem get_splice (vars : List VarId) (ρ θ : Assignment) (o : VarId × Bool) :
    (splice vars ρ θ).get o = if o.1 ∈ vars then ρ.get o else θ.get o := by
  obtain ⟨id, numeric⟩ := o
  cases numeric <;> rfl

theorem kinded_splice {vars : List VarId} {ρ θ : Assignment} (hρ : ρ.Kinded) (hθ : θ.Kinded) :
    (splice vars ρ θ).Kinded := by
  constructor
  · intro o
    rw [get_splice]
    split
    · exact hρ.mono o
    · exact hθ.mono o
  · intro id
    change ((if id ∈ vars then ρ.num id else θ.num id) : Ty).fitsNumeric
    split
    · exact hρ.numeric id
    · exact hθ.numeric id

theorem AgreesOff.get {σ τ : Assignment} {vars : List VarId}
    (h : σ.AgreesOff τ vars) {o : VarId × Bool} (off : o.1 ∉ vars) : σ.get o = τ.get o := by
  obtain ⟨id, numeric⟩ := o
  cases numeric
  · exact (h id off).1
  · exact (h id off).2

end Assignment

namespace Semantics

open Typing Assignment

variable {ctors : NameMap Constructor} {table : List (String × HolderClass)}

/-! ### Values of a type -/

structure Describes (table : List (String × HolderClass)) (ctors : NameMap Constructor) : Prop where
  classed : ∀ {name c}, ctors.get? name = some c →
    ∃ cls, table.lookup name = some cls ∧ cls.hasArg = c.hasArg
  apart : ∀ {name other cls}, table.lookup name = some cls → table.lookup other = some cls →
    name = other
  bare : ∀ {name c}, ctors.get? name = some c → c.hasArg = false → c.type.body.isSum
  filled : ∀ {name c}, ctors.get? name = some c → c.hasArg = true →
    ∃ arg self, c.type.body = .fn arg self ∧ self.isSum ∧ self.isMono ∧
      ∀ o ∈ arg.occurrences, o ∈ self.occurrences

inductive HasType (table : List (String × HolderClass)) (ctors : NameMap Constructor) :
    Value → Ty → Prop where
  | int (n) : HasType table ctors (.int n) .int
  | double (bits) : HasType table ctors (.double bits) .double
  | bool (b) : HasType table ctors (.bool b) .bool
  | str (s) : HasType table ctors (.str s) .string
  | unit : HasType table ctors .unit .unit
  | list {vs t} : (∀ v ∈ vs, HasType table ctors v t) → HasType table ctors (.list vs) (.list t)
  | tag {name c cls t} {ρ : Assignment} :
      ctors.get? name = some c → c.hasArg = false → table.lookup name = some cls →
      t = c.type.body.assign ρ → HasType table ctors (.holder cls .null) t
  | build {name c cls arg self payload t} {ρ : Assignment} :
      ctors.get? name = some c → c.hasArg = true → table.lookup name = some cls →
      c.type.body = .fn arg self → t = self.assign ρ →
      HasType table ctors payload (arg.assign ρ) → HasType table ctors (.holder cls payload) t

namespace HasType

variable {v : Value} {t : Ty}

theorem isSum_of_holder (known : Describes table ctors) {cls : HolderClass} {payload : Value}
    (h : HasType table ctors (.holder cls payload) t) : t.isSum := by
  cases h with
  | tag found bare _ same => exact same ▸ Ty.isSum_assign (known.bare found bare) _
  | build found filled _ shape same =>
    obtain ⟨arg, self, shape', sum, -⟩ := known.filled found filled
    rw [shape, Ty.fn.injEq] at shape'
    exact same ▸ Ty.isSum_assign (shape'.2 ▸ sum) _

theorem not_sum (known : Describes table ctors) (h : HasType table ctors v t) (plain : ¬t.isSum) :
    ∀ cls payload, v ≠ .holder cls payload := by
  rintro cls payload rfl
  exact plain (isSum_of_holder known h)

theorem int_inv (known : Describes table ctors) (h : HasType table ctors v .int) :
    ∃ n, v = .int n := by
  have plain := h.not_sum known (by simp [Ty.isSum])
  cases h with
  | int n => exact ⟨n, rfl⟩
  | tag | build => exact (plain _ _ rfl).elim

theorem double_inv (known : Describes table ctors) (h : HasType table ctors v .double) :
    ∃ bits, v = .double bits := by
  have plain := h.not_sum known (by simp [Ty.isSum])
  cases h with
  | double bits => exact ⟨bits, rfl⟩
  | tag | build => exact (plain _ _ rfl).elim

theorem bool_inv (known : Describes table ctors) (h : HasType table ctors v .bool) :
    ∃ b, v = .bool b := by
  have plain := h.not_sum known (by simp [Ty.isSum])
  cases h with
  | bool b => exact ⟨b, rfl⟩
  | tag | build => exact (plain _ _ rfl).elim

theorem str_inv (known : Describes table ctors) (h : HasType table ctors v .string) :
    ∃ s, v = .str s := by
  have plain := h.not_sum known (by simp [Ty.isSum])
  cases h with
  | str s => exact ⟨s, rfl⟩
  | tag | build => exact (plain _ _ rfl).elim

theorem unit_inv (known : Describes table ctors) (h : HasType table ctors v .unit) :
    v = .unit := by
  have plain := h.not_sum known (by simp [Ty.isSum])
  cases h with
  | unit => rfl
  | tag | build => exact (plain _ _ rfl).elim

theorem list_inv (known : Describes table ctors) (h : HasType table ctors v (.list t)) :
    ∃ vs, v = .list vs ∧ ∀ x ∈ vs, HasType table ctors x t := by
  have plain := h.not_sum known (by simp [Ty.isSum])
  cases h with
  | list each => exact ⟨_, rfl, each⟩
  | tag | build => exact (plain _ _ rfl).elim

theorem numeric_inv (known : Describes table ctors) (h : HasType table ctors v t)
    (numeric : t.fitsNumeric) :
    (t = .int ∧ ∃ n, v = .int n) ∨ (t = .double ∧ ∃ bits, v = .double bits) := by
  cases t with
  | int => exact .inl ⟨rfl, h.int_inv known⟩
  | double => exact .inr ⟨rfl, h.double_inv known⟩
  | num id =>
    have plain := h.not_sum known (by simp [Ty.isSum])
    cases h with
    | tag | build => exact (plain _ _ rfl).elim
  | _ => cases numeric

theorem payload_inv (known : Describes table ctors) {name : String} {c : Constructor}
    {cls : HolderClass} {payload : Value} {arg self : Ty} {ρ : Assignment}
    (h : HasType table ctors (.holder cls payload) (self.assign ρ))
    (found : ctors.get? name = some c) (filled : c.hasArg = true)
    (listed : table.lookup name = some cls) (shape : c.type.body = .fn arg self) :
    HasType table ctors payload (arg.assign ρ) := by
  obtain ⟨arg', self', shape', -, mono, inside⟩ := known.filled found filled
  rw [shape, Ty.fn.injEq] at shape'
  obtain ⟨rfl, rfl⟩ := shape'
  generalize typed : self.assign ρ = t at h
  cases h with
  | tag found' bare listed' =>
    obtain rfl := known.apart listed listed'
    rw [found] at found'
    cases found'
    simp [bare] at filled
  | build found' _ listed' shape' same typedPayload =>
    obtain rfl := known.apart listed listed'
    rw [found] at found'
    cases found'
    rw [shape, Ty.fn.injEq] at shape'
    obtain ⟨rfl, rfl⟩ := shape'
    have agree := Ty.get_eq_of_assign_eq mono (typed.trans same)
    rwa [Ty.assign_congr fun o occurs => agree o (inside o occurs)]

theorem holder_inv (h : HasType table ctors v t) (sum : t.isSum) :
    ∃ cls payload, v = .holder cls payload := by
  cases h with
  | tag => exact ⟨_, _, rfl⟩
  | build => exact ⟨_, _, rfl⟩
  | _ => cases sum

theorem payload_of_instance (known : Describes table ctors) {name : String} {c : Constructor}
    {cls : HolderClass} {payload : Value} {arg result : Ty} {θ : Assignment}
    (found : ctors.get? name = some c) (filled : c.hasArg = true)
    (used : c.type.Instance θ (.fn arg result)) (listed : table.lookup name = some cls)
    (h : HasType table ctors (.holder cls payload) (result.assign θ)) :
    HasType table ctors payload (arg.assign θ) := by
  obtain ⟨ρ, -, -, same⟩ := used
  obtain ⟨argType, self, shape, -⟩ := known.filled found filled
  rw [shape, Ty.assign, Ty.assign, Ty.fn.injEq] at same
  rw [same.2] at h
  rw [same.1]
  exact h.payload_inv known found filled listed shape

end HasType

theorem Describes.isSum_of_bare (known : Describes table ctors) {name : String} {c : Constructor}
    {t : Ty} {θ : Assignment} (found : ctors.get? name = some c) (bare : c.hasArg = false)
    (used : c.type.Instance θ t) : (t.assign θ).isSum := by
  obtain ⟨ρ, -, -, same⟩ := used
  exact same ▸ Ty.isSum_assign (known.bare found bare) ρ

theorem Describes.isSum_of_filled (known : Describes table ctors) {name : String} {c : Constructor}
    {arg result : Ty} {θ : Assignment} (found : ctors.get? name = some c) (filled : c.hasArg = true)
    (used : c.type.Instance θ (.fn arg result)) : (result.assign θ).isSum := by
  obtain ⟨ρ, -, -, same⟩ := used
  obtain ⟨argType, self, shape, sum, -⟩ := known.filled found filled
  rw [shape, Ty.assign, Ty.assign, Ty.fn.injEq] at same
  exact same.2 ▸ Ty.isSum_assign sum ρ

/-! ### Computations and their values -/

def Yields {A : Type} (P : A → Prop) (x : Eval A) : Prop :=
  ∀ out a out', x out = .ok a out' → P a

namespace Yields

variable {A B : Type} {P : A → Prop} {Q : B → Prop} {x : Eval A}

theorem pure {a : A} (h : P a) : Yields P (Pure.pure a) := by
  intro out b out' run
  cases run
  exact h

theorem throw {s : Stop} : Yields P (MonadExcept.throw s : Eval A) := by
  intro out b out' run
  cases run

theorem bind {f : A → Eval B} (first : Yields P x) (next : ∀ a, P a → Yields Q (f a)) :
    Yields Q (x >>= f) := by
  intro out b out' run
  obtain ⟨a, mid, runX, runF⟩ := bind_ok run
  exact next a (first out a mid runX) mid b out' runF

theorem trivial : Yields (fun _ => True) x := fun _ _ _ _ => True.intro

end Yields

/-! ### Operations -/

theorem arithmetic_yields (known : Describes table ctors) {op : BinaryOp} {a b : Value}
    {left right result : Ty} (fits : ArithmeticFits left right result)
    (ha : HasType table ctors a left) (hb : HasType table ctors b right) :
    Yields (HasType table ctors · result) (arithmetic op a b) := by
  obtain ⟨numL, numR, typed⟩ := fits
  have onInts : ∀ m n : Int64, Yields (HasType table ctors · .int) (intArithmetic op m n) := by
    intro m n
    unfold intArithmetic
    split <;> try split
    all_goals first | exact .pure (.int _) | exact .throw
  have onDoubles : ∀ x y : UInt64,
      Yields (HasType table ctors · .double) (doubleArithmetic op x y) := by
    intro x y
    unfold doubleArithmetic
    split
    all_goals first | exact .pure (.double _) | exact .throw
  rcases ha.numeric_inv known numL with ⟨rfl, m, rfl⟩ | ⟨rfl, x, rfl⟩ <;>
    rcases hb.numeric_inv known numR with ⟨rfl, n, rfl⟩ | ⟨rfl, y, rfl⟩ <;>
    simp only [reduceCtorEq, or_self, or_true, true_or, if_true, if_false, true_and] at typed <;>
    subst typed
  · exact onInts m n
  · exact onDoubles _ _
  · exact onDoubles _ _
  · exact onDoubles _ _

theorem comparison_yields {op : BinaryOp} {a b : Value} :
    Yields (HasType table ctors · .bool) (comparison op a b) := by
  unfold comparison
  split
  · exact .pure (.bool _)
  · split
    all_goals first | exact .pure (.bool _) | exact .throw

theorem unaryOp_yields (known : Describes table ctors) {op : UnaryOp} {v : Value}
    {operand result : Ty} (fits : UnaryFits op operand result) (hv : HasType table ctors v operand) :
    Yields (HasType table ctors · result) (unaryOp op v) := by
  cases op with
  | not =>
    obtain ⟨rfl, rfl⟩ := fits
    obtain ⟨b, rfl⟩ := hv.bool_inv known
    exact .pure (.bool _)
  | neg =>
    obtain ⟨numeric, rfl⟩ := fits
    rcases hv.numeric_inv known numeric with ⟨rfl, n, rfl⟩ | ⟨rfl, bits, rfl⟩
    · exact .pure (.int _)
    · exact .pure (.double _)

/-! ### Names and what they stand for -/

structure EnvFits (table : List (String × HolderClass)) (ctors : NameMap Constructor)
    (θ : Assignment) (Γ : Context) (bound : List String) (env : NameMap Value) : Prop where
  known : ∀ name ∈ bound, ∃ v, env.get? name = some v
  typed : ∀ name v, env.get? name = some v → ∃ b, Γ name = some b ∧
    ∀ ρ : Assignment, ρ.Kinded → ρ.AgreesOff θ b.quantified →
      HasType table ctors v (b.body.assign ρ)

namespace EnvFits

variable {θ : Assignment} {Γ : Context} {bound : List String} {env : NameMap Value}

theorem extend (fits : EnvFits table ctors θ Γ bound env) {name : String} {v : Value} {b : Ty}
    (typed : ∀ ρ : Assignment, ρ.Kinded → ρ.AgreesOff θ b.quantified →
      HasType table ctors v (b.body.assign ρ)) :
    EnvFits table ctors θ (Γ.extend name b) (name :: bound) (env.insert name v) := by
  constructor
  · intro other member
    rw [NameMap.get?_insert]
    by_cases same : other = name
    · exact ⟨v, if_pos same⟩
    · rw [if_neg same]
      exact fits.known other (List.mem_of_ne_of_mem same member)
  · intro other w found
    rw [NameMap.get?_insert] at found
    unfold Context.extend
    by_cases same : other = name
    · rw [if_pos same, Option.some.injEq] at found
      rw [if_pos same]
      exact ⟨b, rfl, found ▸ typed⟩
    · rw [if_neg same] at found ⊢
      exact fits.typed other w found

theorem reassign (fits : EnvFits table ctors θ Γ bound env) (kinded : θ.Kinded)
    {vars : List VarId} (lacks : Γ.Lacks vars) {ρ : Assignment} (agrees : ρ.AgreesOff θ vars) :
    EnvFits table ctors ρ Γ bound env := by
  refine ⟨fits.known, fun name v found => ?_⟩
  obtain ⟨b, listed, typed⟩ := fits.typed name v found
  refine ⟨b, listed, fun σ kindedσ agreesσ => ?_⟩
  have instance_ := typed (splice b.quantified σ θ) (kinded_splice kindedσ kinded) (by
    intro id off
    exact ⟨if_neg off, if_neg off⟩)
  rwa [Ty.assign_congr (τ := σ) fun o occurs => ?_] at instance_
  rw [get_splice]
  by_cases own : o.1 ∈ b.quantified
  · rw [if_pos own]
  · have free : o ∈ b.occurrences := by
      cases b with
      | scheme ids a => exact List.mem_filter.2 ⟨occurs, by simpa [Ty.quantified] using own⟩
      | _ => exact occurs
    rw [if_neg own, agreesσ.get own, agrees.get (lacks name b listed o free)]

theorem bindPattern (fits : EnvFits table ctors θ Γ bound env) (known : Describes table ctors)
    {p : Pattern Typed} {v : Value} {env' : NameMap Value} (mono : ∀ n ∈ p.notes, n.type.isMono)
    (pattern : PatternFits ctors θ p) (typed : HasType table ctors v (p.note.type.assign θ))
    (run : Semantics.bindPattern table p v env = some env') :
    EnvFits table ctors θ (Γ.extendPattern p) (patternNames p ++ bound) env' := by
  induction pattern generalizing v Γ bound env env' with
  | wild | int | bool | str | nil | tag | tagOfArg =>
    simp only [Semantics.bindPattern] at run
    repeat' split at run
    all_goals cases run
    all_goals exact fits
  | @var n name =>
    cases run
    refine fits.extend fun ρ kinded agrees => ?_
    have plain := mono n (by simp [Pattern.notes])
    rw [Ty.quantified_of_mono plain] at agrees
    rw [Ty.body_of_mono plain, Ty.assign_congr (τ := θ) fun o _ => agrees.get (by simp)]
    exact typed
  | @cons n head tail typeHead typeTail _ _ ihHead ihTail =>
    simp only [Pattern.notes, List.mem_cons, List.mem_append] at mono
    change HasType table ctors v (n.type.assign θ) at typed
    rw [typeHead] at typed
    obtain ⟨vs, rfl, each⟩ := typed.list_inv known
    cases vs with
    | nil => cases run
    | cons x xs =>
      simp only [Semantics.bindPattern, Option.bind_eq_some_iff] at run
      obtain ⟨mid, runHead, runTail⟩ := run
      have first := ihHead fits (fun n member => mono n (.inr (.inl member)))
        (each x List.mem_cons_self) runHead
      have second := ihTail first (fun n member => mono n (.inr (.inr member))) (by
        rw [← typeTail, typeHead]
        exact .list fun y member => each y (List.mem_cons_of_mem x member)) runTail
      refine ⟨fun name member => second.known name ?_, second.typed⟩
      simp only [patternNames, List.mem_append] at member ⊢
      grind
  | @build n name arg c found filled instance_ _ ih =>
    simp only [Pattern.notes, List.mem_cons] at mono
    simp only [Semantics.bindPattern] at run
    split at run
    · split at run
      · next listed =>
        have inner := typed.payload_of_instance known found filled instance_ listed
        exact ih fits (fun n member => mono n (.inr member)) inner run
      · cases run
    · cases run

end EnvFits

/-! ### Expressions -/

section Lists

variable {α : Type} {env : NameMap Value} {P : Value → Prop}

theorem evalAll_yields {es : List (Expr α)} (each : ∀ e ∈ es, Yields P (eval table env e)) :
    Yields (fun vs => ∀ v ∈ vs, P v) (evalAll table env es) := by
  induction es with
  | nil => exact .pure (by simp)
  | cons e es ih =>
    rw [List.forall_mem_cons] at each
    refine .bind each.1 fun v first => .bind (ih each.2) fun vs rest => .pure ?_
    rw [List.forall_mem_cons]
    exact ⟨first, rest⟩

theorem evalLast_yields {es : List (Expr α)} {last : Value} (none : es = [] → P last)
    (some : ∀ e, es.getLast? = some e → Yields P (eval table env e)) :
    Yields P (evalLast table env last es) := by
  induction es generalizing last with
  | nil => exact .pure (none rfl)
  | cons e es ih =>
    cases es with
    | nil => exact .bind (some e rfl) fun v typed => .pure typed
    | cons e' es => exact .bind .trivial fun v _ => ih (by simp) (by simpa using some)

theorem evalArms_yields {arms : List (Arm α)} {v : Value}
    (each : ∀ p b, .mk p b ∈ arms → ∀ env', bindPattern table p v env = some env' →
      Yields P (eval table env' b)) :
    Yields P (evalArms table env v arms) := by
  induction arms with
  | nil => exact .throw
  | cons arm arms ih =>
    obtain ⟨p, b⟩ := arm
    rw [evalArms]
    cases bound : bindPattern table p v env with
    | some env' => exact each p b List.mem_cons_self env' bound
    | none => exact ih fun p b member => each p b (List.mem_cons_of_mem _ member)

end Lists

theorem eval_yields {host : Host.Resolver} (known : Describes table ctors) {bound : List String}
    {e : Expr Typed} (first : FirstOrder bound e) {θ : Assignment} {Γ : Context}
    {env : NameMap Value} (kinded : θ.Kinded) (mono : ∀ n ∈ e.notes, n.type.isMono)
    (derived : Derives host ctors θ Γ e) (fits : EnvFits table ctors θ Γ bound env) :
    Yields (HasType table ctors · (e.note.type.assign θ)) (eval table env e) := by
  induction first generalizing θ Γ env with
  | int =>
    cases derived with
    | int typed => exact .pure (by simpa [Expr.note, typed] using .int _)
  | float =>
    cases derived with
    | float typed => exact .pure (by simpa [Expr.note, typed] using .double _)
  | bool =>
    cases derived with
    | bool typed => exact .pure (by simpa [Expr.note, typed] using .bool _)
  | str =>
    cases derived with
    | str typed => exact .pure (by simpa [Expr.note, typed] using .str _)
  | unit =>
    cases derived with
    | unit typed => exact .pure (by simpa [Expr.note, typed] using .unit)
  | interp each ih =>
    cases derived with
    | interp typed _ =>
      refine .bind .trivial fun texts _ => .pure ?_
      simpa [Expr.note, typed, Ty.assign] using .str _
  | @var bound n name member =>
    cases derived with
    | var listed instance_ =>
      obtain ⟨v, found⟩ := fits.known name member
      obtain ⟨b, listed', typed⟩ := fits.typed name v found
      rw [listed, Option.some.injEq] at listed'
      subst listed'
      obtain ⟨ρ, kindedρ, agrees, same⟩ := instance_
      simp only [eval, found, Expr.note, same]
      exact .pure (typed ρ kindedρ agrees)
  | unary _ ih =>
    cases derived with
    | unary derived shape =>
      exact .bind (ih kinded (fun n member => mono n (.tail _ member)) derived fits)
        fun v typed => unaryOp_yields known shape typed
  | @binary bound n op l r _ _ ihL ihR =>
    have monoL : ∀ n ∈ l.notes, n.type.isMono := fun n member =>
      mono n (.tail _ (List.mem_append_left _ member))
    have monoR : ∀ n ∈ r.notes, n.type.isMono := fun n member =>
      mono n (.tail _ (List.mem_append_right _ member))
    cases derived with
    | binary left right shape =>
      have ihL := ihL kinded monoL left fits
      have ihR := ihR kinded monoR right fits
      unfold BinaryFits at shape
      simp only [eval, Expr.note]
      split at shape
      · rw [if_pos ‹_›]
        exact .bind ihL fun a typedA => .bind ihR fun b typedB =>
          arithmetic_yields known shape typedA typedB
      · rw [if_neg ‹_›]
        split at shape
        · rw [if_pos ‹_›, shape.2]
          exact .bind .trivial fun a _ => .bind .trivial fun b _ => comparison_yields
        · rw [if_neg ‹_›]
          obtain ⟨-, boolR, boolN⟩ := shape
          rw [boolN]
          refine .bind .trivial fun a _ => .bind .trivial fun b _ => ?_
          split
          · exact .pure (.bool b)
          · exact boolR ▸ ihR
  | cond _ _ _ _ ihT ihE =>
    simp only [Expr.notes, List.mem_cons, List.mem_append] at mono
    cases derived with
    | cond _ left right _ typeT typeE =>
      have ihT := ihT kinded (fun n member => mono n (.inr (.inr (.inl member)))) left fits
      have ihE := ihE kinded (fun n member => mono n (.inr (.inr (.inr member)))) right fits
      simp only [eval, Expr.note]
      rw [typeT] at ihT
      rw [typeE] at ihE
      refine .bind .trivial fun a _ => .bind .trivial fun b _ => ?_
      split
      · exact ihT
      · exact ihE
  | @letIn bound n name v b _ _ _ ihV ihB =>
    simp only [Expr.notes, List.mem_cons, List.mem_append] at mono
    cases derived with
    | @letIn _ _ _ _ _ _ vars lacks _ values body typeB =>
      have plain : v.note.type.isMono := mono _ (.inr (.inl v.note_mem_notes))
      have whole : Yields (fun a => ∀ ρ : Assignment, ρ.Kinded → ρ.AgreesOff θ vars →
          HasType table ctors a (v.note.type.assign ρ)) (eval table env v) := by
        intro out a out' run ρ kindedρ agrees
        exact ihV kindedρ (fun n member => mono n (.inr (.inl member))) (values ρ kindedρ agrees)
          (fits.reassign kinded lacks agrees) out a out' run
      refine .bind whole fun a typed => ?_
      change Yields (HasType table ctors · (n.type.assign θ)) _
      rw [← typeB]
      refine ihB kinded (fun n member => mono n (.inr (.inr member))) body (fits.extend fun ρ => ?_)
      rw [Ty.body_quantify plain, Ty.quantified_quantify plain]
      exact typed ρ
  | @sequence bound n es _ ih =>
    cases derived with
    | sequence each typed =>
      simp only [eval, Expr.note, typed]
      refine evalLast_yields (fun empty => ?_) fun e last => ?_
      · simpa [lastType, empty, Ty.assign] using .unit
      · have member : e ∈ es := List.mem_of_getLast? last
        have monoE : ∀ n ∈ e.notes, n.type.isMono := fun n inside =>
          mono n (.tail _ (Expr.mem_notesOfAll.2 ⟨e, member, inside⟩))
        simpa [lastType, last] using ih e member kinded monoE (each e member) fits
  | print =>
    cases derived with
    | print _ typed =>
      refine .bind .trivial fun v _ => .bind .trivial fun _ _ => .pure ?_
      simpa [Expr.note, typed, Ty.assign] using .unit
  | @list bound n es _ ih =>
    cases derived with
    | list each typed elems =>
      simp only [eval, Expr.note, typed]
      refine .bind (evalAll_yields fun e member => ?_) fun vs typed => .pure (.list typed)
      have monoE : ∀ n ∈ e.notes, n.type.isMono := fun n inside =>
        mono n (.tail _ (Expr.mem_notesOfAll.2 ⟨e, member, inside⟩))
      rw [← elems e member]
      exact ih e member kinded monoE (each e member) fits
  | @cons bound n h t _ _ ihH ihT =>
    simp only [Expr.notes, List.mem_cons, List.mem_append] at mono
    cases derived with
    | cons head tail typeN typeT =>
      have ihH := ihH kinded (fun n member => mono n (.inr (.inl member))) head fits
      have ihT := ihT kinded (fun n member => mono n (.inr (.inr member))) tail fits
      simp only [eval, Expr.note]
      rw [typeT, typeN] at ihT
      rw [typeN]
      refine .bind ihH fun v typedV => .bind ihT fun w typedW => ?_
      obtain ⟨vs, rfl, each⟩ := typedW.list_inv known
      refine .pure (.list ?_)
      rw [List.forall_mem_cons]
      exact ⟨typedV, each⟩
  | @matchOn bound n e arms _ _ _ ihE ihArms =>
    simp only [Expr.notes, List.mem_cons, List.mem_append] at mono
    cases derived with
    | matchOn scrutinee _ shapes bodies =>
      have ihE := ihE kinded (fun n member => mono n (.inr (.inl member))) scrutinee fits
      refine .bind ihE fun v typed => evalArms_yields fun p b member env' run => ?_
      have inside : ∀ n, n ∈ p.notes ∨ n ∈ b.notes → n.type.isMono := fun n found =>
        mono n (.inr (.inr (Expr.mem_notesOfArms.2 ⟨p, b, member, found⟩)))
      obtain ⟨patternFits, typeP, typeB⟩ := shapes p b member
      change Yields (HasType table ctors · (n.type.assign θ)) _
      rw [← typeB]
      refine ihArms p b member kinded (fun n found => inside n (.inr found)) (bodies p b member) ?_
      exact fits.bindPattern known (fun n found => inside n (.inl found)) patternFits
        (by rwa [typeP]) run
  | tag =>
    cases derived with
    | tag found bare instance_ =>
      obtain ⟨cls, listed, -⟩ := known.classed found
      obtain ⟨ρ, -, -, same⟩ := instance_
      simp only [eval, listed]
      exact .pure (.tag found bare listed same)
  | build _ ih =>
    cases derived with
    | build found filled derived instance_ =>
      obtain ⟨cls, listed, -⟩ := known.classed found
      obtain ⟨arg, self, shape, -⟩ := known.filled found filled
      obtain ⟨ρ, -, -, same⟩ := instance_
      rw [shape, Ty.assign, Ty.assign, Ty.fn.injEq] at same
      have ih := ih kinded (fun n member => mono n (.tail _ member)) derived fits
      rw [same.1] at ih
      refine .bind ih fun v typed => ?_
      simp only [listed]
      exact .pure (.build found filled listed shape same.2 typed)

end Semantics
end StackML
