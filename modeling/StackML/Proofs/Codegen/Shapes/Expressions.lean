import StackML.Proofs.Codegen.Scope
import StackML.Proofs.Codegen.Shapes.Closures
import StackML.Proofs.Codegen.Shapes.Patterns

/-!
The code of an expression leaves one value, held as the type of the expression says. The types are those of
a derivation, read under an assignment of their variables: the code of a form fits together because its
parts have the types that the rule for the form asks for.
-/

namespace StackML

namespace Codegen

open Fragment Verify
open StackML.Expr (captured paramNames subset_paramNames)
open Typing (Typed Checked Derives)

variable {α β : Type} {w : Place} {K : Array Constant} {Q : Array Constant → β → Prop} {r : Rep}
  {done : List Fragment} {n : Typed}

/-! ### Operations -/

theorem produces_comparison (place : Position) (op : BinaryOp) (t : Ty) :
    Produces w (comparison w.ctx place op t) fun K code =>
      ∀ r, Rep.ofTy t = .ok r → w.Turns K code (r.kinds ++ r.kinds) [.int] := by
  have ints : (intCompareOp op).operands = .jump ∧ exchanged (intCompareOp op) = some ([.int, .int], []) := by
    cases op <;> exact ⟨rfl, rfl⟩
  have zeros : (zeroCompareOp op).operands = .jump ∧ exchanged (zeroCompareOp op) = some ([.int], []) := by
    cases op <;> exact ⟨rfl, rfl⟩
  unfold comparison
  split
  · refine (produces_boolFromJump ints.1 ints.2).mono fun K code turns r rep => ?_
    obtain rfl : Rep.int = r := Except.ok.inj rep
    exact turns
  · refine (produces_boolFromJump ints.1 ints.2).mono fun K code turns r rep => ?_
    obtain rfl : Rep.bool = r := Except.ok.inj rep
    exact turns
  · refine Produces.bind (produces_emit (q := [.int]) rfl rfl) fun _ =>
      (produces_boolFromJump zeros.1 zeros.2).bind fun _ =>
      .pure fun K second first r rep => ?_
    obtain rfl : Rep.double = r := Except.ok.inj rep
    exact first.append second
  · refine turns_stringCompare.bind fun _ => (produces_boolFromJump zeros.1 zeros.2).bind fun _ =>
      .pure fun K second first r rep => ?_
    obtain rfl : Rep.ref = r := Except.ok.inj rep
    exact first.append second
  · next notInt notBool notDouble notString =>
    have reference {r : Rep} (rep : Rep.ofTy t = .ok r) : r = .ref := by
      unfold Rep.ofTy at rep
      split at rep
      · exact absurd rfl notInt
      · exact absurd rfl notBool
      · exact absurd rfl notDouble
      · cases rep
      · exact (Except.ok.inj rep).symm
    have asked : Produces w (emit .objEq) fun K code => w.Turns K code [.ref, .ref] [.int] := produces_emit rfl rfl
    split
    · exact asked.mono fun K code turns r rep => reference rep ▸ turns
    · exact asked.bind fun _ => (produces_boolFromJump rfl rfl).bind fun _ =>
        .pure fun K second first r rep => reference rep ▸ first.append second
    · exact .throw _

theorem produces_toText {t : Ty} (rep : Rep.ofTy t = .ok r) :
    Produces w (toText r t) fun K code => w.Turns K code r.kinds [.ref] := by
  cases r with
  | int | bool | double => exact produces_emit rfl rfl
  | ref => exact .ite (fun _ => produces_nothing [.ref]) fun _ => produces_emit rfl rfl
  | void => exact absurd rfl (Rep.ofTy_ne_void rep)

theorem produces_joinTexts {pending : Nat} (some : 0 < pending) (few : pending < 256) :
    Produces w (joinTexts pending) fun K code => w.Turns K code (List.replicate pending .ref) [.ref] := by
  refine .ite (fun _ => ?_) fun one => ?_
  · exact produces_emitWith fun _ _ => w.turns_single (.byte rfl few) nofun fun rest => exchange_append _ _ rest _
  · obtain rfl : pending = 1 := by omega
    exact produces_nothing [.ref]

theorem arithmetic_reps {left right result : Ty} {lr rr rep : Rep} (fits : Typing.ArithmeticFits left right result)
    (known : Rep.ofTy left = .ok lr) (known' : Rep.ofTy right = .ok rr) (rep_ : Rep.ofTy result = .ok rep) :
    (rep = .int ∧ lr = .int ∧ rr = .int) ∨
      (rep = .double ∧ (lr = .int ∨ lr = .double) ∧ (rr = .int ∨ rr = .double)) := by
  obtain ⟨numeric, numeric', which⟩ := fits
  have held {t : Ty} {r : Rep} (numeric : t.fitsNumeric = true) (known : Rep.ofTy t = .ok r) :
      (t = .int ∧ r = .int) ∨ (t = .double ∧ r = .double) := by
    cases t with
    | int => exact .inl ⟨rfl, (Except.ok.inj known).symm⟩
    | double => exact .inr ⟨rfl, (Except.ok.inj known).symm⟩
    | num id => cases known
    | _ => cases numeric
  rcases held numeric known with ⟨rfl, rfl⟩ | ⟨rfl, rfl⟩ <;>
    rcases held numeric' known' with ⟨rfl, rfl⟩ | ⟨rfl, rfl⟩ <;>
    simp_all [Rep.ofTy]

theorem Produces.widened {p : Prop} [Decidable p] {next : Fragment → Gen α} {P : Array Constant → α → Prop} {lr : Rep}
    (only : p → lr = .int)
    (each : ∀ code, Produces w (next code) fun K a =>
      w.Turns K code lr.kinds (if p then [.double] else lr.kinds) → P K a) :
    Produces w (if p then emit .i2d >>= next else pure [] >>= next) P := by
  split
  · next holds =>
    obtain rfl := only holds
    exact (produces_emit rfl rfl).bind fun code => (each code).mono fun K a known => by rwa [if_pos holds] at known
  · next fails =>
    exact (produces_nothing lr.kinds).bind fun code => (each code).mono fun K a known => by
      rwa [if_neg fails] at known

theorem produces_arithmetic {op : BinaryOp} {rep : Rep} (numeric : rep = .int ∨ rep = .double) :
    Produces w (emit (arithmeticOp (rep = .double) op)) fun K code =>
      w.Turns K code (rep.kinds ++ rep.kinds) rep.kinds := by
  rcases numeric with rfl | rfl <;> cases op <;> exact produces_emit rfl rfl

/-! ### Calls -/

theorem produces_finishCall {finish : Gen (Fragment × Rep)} {below : List Kind} (use : Rep)
    (ends : w.Ends [] below finish) :
    Produces w (finishCall finish use) fun K code => w.Turns K code below use.kinds :=
  ends.done.bind fun ⟨_, r⟩ => (produces_coerce r use).bind fun _ => .pure fun _ second first => first.append second

structure HostPlain (host : Host.Resolver) : Prop where
  kind : ∀ {owner member kind s}, host owner member kind = .ok s → s.kind = kind
  member : ∀ {owner member kind s}, host owner member kind = .ok s → Distinct s.member
  owner : ∀ {owner member kind s}, host owner member kind = .ok s → '(' ∉ s.owner.toList
  legible : ∀ {owner member kind s}, host owner member kind = .ok s →
    (∀ t ∈ s.params, t.isLegible) ∧ s.result.isLegible

theorem Produces.hostCall {host : Host.Resolver} {owner member : String} {kind : Host.MemberKind}
    {s : Host.Signature} {f : DirectCall × Rep → Gen β} (plain : HostPlain host)
    (found : host owner member kind = .ok s) (resolved : n.host = some s)
    (next : ∀ call use, Rep.ofTy (w.ctx.typeOf n) = .ok use → call.params = s.params.map Rep.ofTy →
      w.Ends call.params (if kind = .method then [.ref] else []) call.finish → Produces w (f (call, use)) Q) :
    Produces w (Codegen.hostCall w.ctx n >>= f) Q := by
  obtain ⟨legible, last⟩ := plain.legible found
  obtain rfl := plain.kind found
  unfold Codegen.hostCall
  simp only [resolved, bind_assoc]
  refine .repOf fun use rep => .lift fun d written => ?_
  rw [pure_bind]
  refine next _ use rep rfl fun reps params => ?_
  obtain ⟨reps', result, each, result', parsed⟩ := Descriptor.parse_of_write legible last written
  obtain rfl : reps = reps' := map_ok_injective (params.symm.trans each)
  obtain ⟨rest, rfl⟩ := Descriptor.opens_of_write written
  let k (kind : Host.MemberKind) : Constant :=
    { kind := .host, int := kind.code, owner := s.owner, name := s.member
      descriptor := ("(" ++ rest : String) }
  have named : (k s.kind).Named w.ctx.checked.module.name :=
    .host s.kind s.owner s.member rest (plain.member found) (plain.owner found)
  have known (kind : Host.MemberKind) : signature? (k kind) = some ⟨reps, result⟩ := by
    rw [signature?, parsed]
    rfl
  refine Produces.bind (P := fun K code => w.Turns K code
      (reps.reverse.flatMap Rep.kinds ++ if s.kind = .method then [.ref] else []) result.kinds) ?_ fun call =>
    .lift fun r result'' => ?_
  · refine produces_emitConst (k := k s.kind) named (by cases s.kind <;> rfl) (by cases s.kind <;> rfl) fun rest => ?_
    cases s.kind <;>
      simp only [hostOp, effect, Option.bind_some, known, Option.bind_eq_bind, reduceCtorEq, if_true, if_false,
        List.append_nil] <;> exact exchange_append _ _ rest _
  · obtain rfl : result = r := Except.ok.inj (result'.symm.trans result'')
    exact .pure fun K turns => turns

/-! ### Pieces -/

theorem turns_piece {p q : List Kind} {code : Fragment} (first : w.Turns K (joinPieces done) [] p)
    (last : w.Turns K code p q) : w.Turns K (joinPieces (code :: done)) [] q := by
  rw [joinPieces_cons]
  exact first.append last

theorem turns_none : w.Turns K (joinPieces []) [] [] := .refl []

/-- The code of the expression leaves its value at the place. -/
abbrev Compiles (w : Place) (e : Expr Typed) : Prop := Produces w (expr w.ctx e) (w.Leaves e.note)

theorem produces_boxedAll {es : List (Expr Typed)} (each : ∀ e ∈ es, Compiles w e) (done : List Fragment)
    (p : List Kind) :
    Produces w (boxedAll w.ctx done es) fun K code =>
      w.Turns K (joinPieces done) [] p → w.Turns K code [] (List.replicate es.length .ref ++ p) := by
  induction es generalizing done p with
  | nil => exact .pure fun _ before => before
  | cons e es ih =>
    rw [List.forall_mem_cons] at each
    refine (each.1.asRep .ref).bind fun code => (ih each.2 _ (.ref :: p)).mono fun K whole rest last before => ?_
    rw [List.length_cons, List.replicate_succ', List.append_assoc]
    exact rest (turns_piece before (last.over p))

theorem produces_sequence {es : List (Expr Typed)} (each : ∀ e ∈ es, Compiles w e) (done : List Fragment) :
    Produces w (sequence w.ctx done es) fun K code =>
      w.Turns K (joinPieces done) [] [] → ∀ e, es.getLast? = some e → w.Leaves e.note K code := by
  induction es generalizing done with
  | nil => exact .pure fun _ _ => nofun
  | cons e es ih =>
    rw [List.forall_mem_cons] at each
    refine each.1.bind fun code => .ite (fun last => ?_) fun more => ?_
    · obtain rfl := List.isEmpty_iff.1 last
      refine .pure fun K leaves before e' same => ?_
      obtain rfl : e = e' := Option.some.inj same
      obtain ⟨r, rep, turns⟩ := leaves
      exact ⟨r, rep, turns_piece before turns⟩
    · refine .repOf fun r rep => (produces_drop r).bind fun gone => (ih each.2 _).mono ?_
      intro K whole rest gone leaves before e' same
      refine rest (turns_piece before ((leaves.turns rep).append gone)) e' ?_
      cases es with
      | nil => exact absurd rfl more
      | cons e₂ es => rwa [List.getLast?_cons_cons] at same

theorem produces_joined {done : List Fragment} {pending : Nat} {code : Fragment} {ps : List (Part Typed)}
    {P : Array Constant → Fragment → Prop} (few : pending + 1 ≤ maxJoin)
    (after : ∀ pending, pending < maxJoin → 0 < pending → ∀ code,
      Produces w (interpolation w.ctx pending (code :: done) ps) fun K whole =>
      w.Turns K (joinPieces (code :: done)) [] (List.replicate pending .ref) → P K whole) :
    Produces w (if pending + 1 = maxJoin then do
        let joined ← joinTexts (pending + 1)
        interpolation w.ctx 1 ((code ++ joined) :: done) ps
      else interpolation w.ctx (pending + 1) (code :: done) ps) fun K whole =>
      w.Turns K code [] [.ref] → w.Turns K (joinPieces done) [] (List.replicate pending .ref) → P K whole := by
  have put {K : Array Constant} (turns : w.Turns K code [] [.ref]) :
      w.Turns K code (List.replicate pending .ref) (List.replicate (pending + 1) .ref) := turns.over _
  have limit : maxJoin = 255 := rfl
  refine .ite (fun full => ?_) fun other => ?_
  · refine (produces_joinTexts (Nat.succ_pos _) (by omega)).bind fun joined =>
      (after 1 (by decide) (by decide) _).mono fun K whole rest joined turns before => ?_
    exact rest (turns_piece before ((put turns).append joined))
  · exact (after _ (by omega) (Nat.succ_pos _) _).mono fun K whole rest turns before =>
      rest (turns_piece before (put turns))

theorem produces_interpolation {parts : List (Part Typed)} (each : ∀ e, .hole e ∈ parts → Compiles w e)
    {pending : Nat} (few : pending < maxJoin) (done : List Fragment) :
    Produces w (interpolation w.ctx pending done parts) fun K code =>
      w.Turns K (joinPieces done) [] (List.replicate pending .ref) → w.Turns K code [] [.ref] := by
  induction parts generalizing pending done with
  | nil =>
    have limit : maxJoin = 255 := rfl
    rw [interpolation]
    refine .ite (fun none => ?_) fun some => ?_
    · subst none
      exact turns_string.bind fun _ => .pure fun K turns before => turns_piece before turns
    · exact (produces_joinTexts (Nat.pos_of_ne_zero some) (by omega)).bind fun _ =>
        .pure fun K turns before => turns_piece before turns
  | cons part parts ih =>
    have rest : ∀ e, .hole e ∈ parts → Compiles w e := fun e inside => each e (List.mem_cons_of_mem _ inside)
    cases part with
    | text t =>
      by_cases empty : t = ""
      · subst empty
        exact ih rest few done
      · rw [interpolation.eq_3 _ _ _ _ _ empty]
        exact turns_string.bind fun _ => produces_joined few fun pending few _ code => ih rest few _
    | hole e =>
      rw [interpolation]
      refine .repOf fun r rep => (each e List.mem_cons_self).bind fun code =>
        (produces_toText rep).bind fun text => (produces_joined few fun pending few _ code => ih rest few _).mono ?_
      exact fun K whole known text leaves => known ((leaves.turns rep).append text)

theorem produces_applyArgs {es : List (Expr Typed)} (each : ∀ e ∈ es, Compiles w e) (use : Rep)
    (done : List Fragment) :
    Produces w (applyArgs w.ctx use done es) fun K code =>
      w.Turns K (joinPieces done) [] [.ref] → w.Turns K code [] use.kinds := by
  induction es generalizing done with
  | nil => exact (produces_coerce .ref use).bind fun _ => .pure fun K turns before => turns_piece before turns
  | cons e es ih =>
    rw [List.forall_mem_cons] at each
    refine (each.1.asRep .ref).bind fun code => (produces_emit (p := [.ref, .ref]) rfl rfl).bind fun apply =>
      (ih each.2 _).mono fun K whole rest apply arg before => ?_
    exact rest (turns_piece before ((arg.over [.ref]).append apply))

theorem produces_callArgs {es : List (Expr Typed)} (each : ∀ e ∈ es, Compiles w e) {use : Rep}
    {finish : Gen (Fragment × Rep)} {params : List (Except Defect Rep)} {below : List Kind}
    (enough : params.length ≤ es.length) (ends : w.Ends params below finish) (done : List Fragment) :
    Produces w (callArgs w.ctx use finish done params es) fun K code =>
      w.Turns K (joinPieces done) [] below → w.Turns K code [] use.kinds := by
  induction es generalizing params below done with
  | nil =>
    obtain rfl := List.length_eq_zero_iff.1 (Nat.le_zero.1 enough)
    exact (produces_finishCall _ ends).bind fun _ => .pure fun K turns before => turns_piece before turns
  | cons e es ih =>
    rw [List.forall_mem_cons] at each
    cases params with
    | nil =>
      refine (produces_finishCall .ref ends).bind fun call => (each.1.asRep .ref).bind fun arg =>
        (produces_emit (p := [.ref, .ref]) rfl rfl).bind fun apply =>
          (produces_applyArgs each.2 use _).mono fun K whole rest apply arg call before => ?_
      exact rest (turns_piece (turns_piece before call) ((arg.over [.ref]).append apply))
    | cons p params =>
      refine .lift fun r known => (each.1.asRep r).bind fun arg => ?_
      subst known
      exact (ih each.2 (Nat.le_of_succ_le_succ enough) ends.next _).mono fun K whole rest arg before =>
        rest (turns_piece before (arg.over below))

/-! ### Matches -/

variable {θ : Assignment} {source : Local}

theorem produces_matchArms {arms : List (Arm Typed)} (supported : w.Supported)
    (fits : ∀ p e, .mk p e ∈ arms → Typing.PatternFits w.ctx.checked.ctors θ p)
    (reads : ∀ p e, .mk p e ∈ arms → ∀ n ∈ p.notes, w.ctx.Reads θ n)
    (holds : ∀ p e, .mk p e ∈ arms → w.Holds source p.note)
    (each : ∀ p e, .mk p e ∈ arms → ∀ cells,
      Compiles { w with names := p.names.reverse ++ w.names, cells } e) (done : List Case) :
    Produces w (matchArms w.ctx source r done arms) fun K cases =>
      (∀ c ∈ done, w.Decides r K c) → ∀ c ∈ cases, w.Decides r K c := by
  induction arms generalizing done with
  | nil => exact .pure fun K before c inside => before c (List.mem_reverse.1 inside)
  | cons arm arms ih =>
    obtain ⟨p, e⟩ := arm
    have here : Arm.mk p e ∈ Arm.mk p e :: arms := List.mem_cons_self
    have decides : Produces w (inScope do
        let tests ← testPattern w.ctx source p
        let body ← asRep w.ctx e.note r (expr w.ctx e)
        pure (Case.of tests body (← jump .goto))) (w.Decides r) := by
      refine (widens_testPattern supported (fits p e here) (reads p e here) (holds p e here)).inScope
        fun tests cells more => ?_
      refine ((each p e here cells).asRep r).bind fun body => .jump fun line => .pure fun K turns leaves => ?_
      exact ⟨tests, body, line, cells, rfl, more, leaves, turns⟩
    refine decides.bind fun c => (ih (fun p e inside => fits p e (List.mem_cons_of_mem _ inside))
      (fun p e inside => reads p e (List.mem_cons_of_mem _ inside))
      (fun p e inside => holds p e (List.mem_cons_of_mem _ inside))
      (fun p e inside => each p e (List.mem_cons_of_mem _ inside)) _).mono fun K cases rest decides before => ?_
    exact rest (List.forall_mem_cons.2 ⟨decides, before⟩)

/-! ### Forms -/

/-- A name of the module stands for a function without parameters, a value or something that is held by
reference. -/
def Global (c : Checked) (name : String) (t : Ty) : Prop :=
  (∃ F, c.functions.get? name = some F ∧ F.arity = 0) ∨
    (c.functions.get? name = none ∧ c.values.contains name) ∨ t.body.Boxed

def Surrounds (c : Checked) (Γ : Typing.Context) (names : List String) : Prop :=
  ∀ name t, Γ name = some t → name ∉ names → '.' ∉ name.toList → Global c name t

structure Context.Admits (ctx : Context) (names : List String) (host : Host.Resolver) (θ : Assignment)
    (Γ : Typing.Context) (e : Expr Typed) : Prop where
  derives : Derives host ctx.checked.ctors θ Γ e
  reads : ∀ n ∈ e.notes, ctx.Reads θ n
  modest : e.isModest names
  around : Surrounds ctx.checked Γ names

/-- The expression follows the typing rules at the place. -/
abbrev Place.Admits (w : Place) (host : Host.Resolver) (θ : Assignment) (Γ : Typing.Context)
    (e : Expr Typed) : Prop :=
  w.ctx.Admits w.names host θ Γ e

theorem Surrounds.extend {c : Checked} {Γ : Typing.Context} {names : List String} (h : Surrounds c Γ names)
    (name : String)
    (t : Ty) : Surrounds c (Γ.extend name t) (name :: names) := by
  intro other b found fresh plain
  rw [List.mem_cons, not_or] at fresh
  rw [Typing.Context.extend, if_neg fresh.1] at found
  exact h other b found fresh.2 plain

theorem Surrounds.mono {c : Checked} {Γ : Typing.Context} {names names' : List String} (h : Surrounds c Γ names)
    (more : names ⊆ names') : Surrounds c Γ names' :=
  fun name t found fresh => h name t found fun inside => fresh (more inside)

theorem Surrounds.extendAll {c : Checked} {Γ : Typing.Context} {names : List String} (h : Surrounds c Γ names)
    (params : List String) (ps : List Ty) : Surrounds c (Γ.extendAll params ps) (params ++ names) := by
  induction params generalizing Γ names ps with
  | nil => exact h
  | cons name params ih =>
    cases ps with
    | nil => exact h.mono (List.subset_append_right _ _)
    | cons t ps =>
      refine (ih (h.extend name t) ps).mono fun x inside => ?_
      simp only [List.mem_append, List.mem_cons] at inside ⊢
      tauto

theorem Surrounds.extendPattern {c : Checked} {Γ : Typing.Context} {names : List String} (h : Surrounds c Γ names)
    (p : Pattern Typed) : Surrounds c (Γ.extendPattern p) (p.names.reverse ++ names) := by
  induction p generalizing Γ names with
  | var n name => exact h.extend name n.type
  | cons n head tail ihHead ihTail =>
    rw [Pattern.names, List.reverse_append, List.append_assoc]
    exact ihTail (ihHead h)
  | build n name arg ih => exact ih h
  | _ => exact h

variable {e l r' c y v b : Expr Typed} {es : List (Expr Typed)} {name : String} {host : Host.Resolver}
  {Γ : Typing.Context}

theorem Place.Leaves.as {code : Fragment} {t : Ty} (h : w.Leaves n K code) (reads : w.ctx.Reads θ n)
    (known : n.type.assign θ = t) {r : Rep} (rep : Rep.ofTy t = .ok r) : w.Turns K code [] r.kinds :=
  h.turns (reads.rep known rep)

theorem Context.Reads.leaves {code : Fragment} {t : Ty} {r : Rep} (reads : w.ctx.Reads θ n)
    (known : n.type.assign θ = t) (rep : Rep.ofTy t = .ok r) (turns : w.Turns K code [] r.kinds) :
    w.Leaves n K code := ⟨r, reads.rep known rep, turns⟩

theorem compiles_unary {op : UnaryOp} (value : Compiles w e) (reads : w.ctx.Reads θ n)
    (reads' : w.ctx.Reads θ e.note) (fits : Typing.UnaryFits op (e.note.type.assign θ) (n.type.assign θ)) :
    Compiles w (.unary n op e) := by
  refine .atLine <| .repOf fun r rep => value.bind fun code => ?_
  cases op with
  | not =>
    obtain ⟨operand, result⟩ := fits
    refine Produces.bind (produces_boolFromJump rfl rfl) fun _ => .pure fun K turns leaves => ?_
    exact ⟨.bool, reads.rep result rfl, (leaves.as reads' operand rfl).append turns⟩
  | neg =>
    obtain ⟨numeric, result⟩ := fits
    have same : Rep.ofTy (w.ctx.typeOf e.note) = .ok r := by rw [reads'.same, ← result, ← reads.same, rep]
    have held : r = .int ∨ r = .double := by
      rw [reads'.same] at same
      cases type : e.note.type.assign θ with
      | int => exact .inl (Except.ok.inj (same.symm.trans (by rw [type]; rfl)))
      | double => exact .inr (Except.ok.inj (same.symm.trans (by rw [type]; rfl)))
      | num id =>
        rw [type] at same
        cases same
      | _ =>
        rw [type] at numeric
        cases numeric
    have negated : Produces w (emit (if r = .double then .dneg else .ineg)) fun K code =>
        w.Turns K code r.kinds r.kinds := by
      rcases held with rfl | rfl <;> exact produces_emit rfl rfl
    exact negated.bind fun _ => .pure fun K turns leaves => ⟨r, rep, (leaves.turns same).append turns⟩

theorem compiles_binary {op : BinaryOp} (left : Compiles w l) (right : Compiles w r') (reads : w.ctx.Reads θ n)
    (readsLeft : w.ctx.Reads θ l.note) (readsRight : w.ctx.Reads θ r'.note)
    (fits : Typing.BinaryFits op (l.note.type.assign θ) (r'.note.type.assign θ) (n.type.assign θ)) :
    Compiles w (.binary n op l r') := by
  unfold Compiles expr
  refine .atLine <| .ite (fun arithmetic => ?_) fun other => .ite (fun compares => ?_) fun logical => ?_
  · rw [Typing.BinaryFits, if_pos arithmetic, ← reads.same, ← readsLeft.same, ← readsRight.same] at fits
    refine .repOf fun rep result => .repOf fun lr known => left.bind fun lc => .widened And.right fun lw =>
      .repOf fun rr known' => right.bind fun rc => .widened And.right fun rw_ => ?_
    have reps := arithmetic_reps fits known known' result
    have numeric : rep = .int ∨ rep = .double := reps.imp And.left And.left
    refine (produces_arithmetic numeric).bind fun _ => .pure fun K done widened second widened' first =>
      ⟨rep, result, ?_⟩
    have wide {r : Rep} (r_ : r = rep ∨ rep = .double ∧ r = .int) :
        (if rep = .double ∧ r = .int then [Kind.double] else r.kinds) = rep.kinds := by
      rcases r_ with rfl | ⟨rfl, rfl⟩
      · rcases numeric with rfl | rfl <;> rfl
      · rfl
    rw [wide (by grind)] at widened widened'
    have both := (((first.turns known).append widened').append ((second.turns known').over _)).append
      (widened.below rep.kinds)
    exact both.append done
  · rw [Typing.BinaryFits, if_neg other, if_pos compares] at fits
    refine left.bind fun lc => right.bind fun rc => (produces_comparison _ _ _).bind fun _ =>
      .pure fun K decides second first => ?_
    obtain ⟨r, rep, turns⟩ := first
    have turns' := second.as readsRight fits.1.symm (readsLeft.same ▸ rep)
    exact ⟨.bool, reads.rep fits.2 rfl, (turns.append (turns'.over r.kinds)).append (decides r rep)⟩
  · rw [Typing.BinaryFits, if_neg other, if_neg logical] at fits
    refine left.bind fun lc => .jump fun line => right.bind fun rc => .jump fun line' =>
      (produces_zconst _ (by split <;> decide)).bind fun decided => .pure fun K shortcut second first => ?_
    have test : (if op = .or then Opcode.ifNe else .ifEq).operands = .jump ∧
        exchanged (if op = .or then Opcode.ifNe else .ifEq) = some ([.int], []) := by
      split <;> exact ⟨rfl, rfl⟩
    exact ⟨.bool, reads.rep fits.2.2 rfl, w.turns_branch line line' test.1 test.2 (first.as readsLeft fits.1 rfl)
      (second.as readsRight fits.2.1 rfl) shortcut⟩

theorem compiles_cond (asked : Compiles w c) (yes : Compiles w y) (no : Compiles w e)
    (reads : w.ctx.Reads θ c.note) (truth : c.note.type.assign θ = .bool) : Compiles w (.cond n c y e) := by
  refine .atLine <| .repOf fun r rep => asked.bind fun cc => .jump fun line => (yes.asRep r).bind fun tc =>
    .jump fun line' => (no.asRep r).bind fun ec => .pure fun K other taken test => ?_
  exact ⟨r, rep, w.turns_branch line line' rfl rfl (test.as reads truth rfl) taken other⟩

theorem compiles_letIn (value : Compiles w v) (body : ∀ cells, Compiles { w with names := name :: w.names, cells } b)
    (same : w.ctx.typeOf b.note = w.ctx.typeOf n) : Compiles w (.letIn n name v b) := by
  refine .atLine <| .repOf fun r rep => value.bind fun vc =>
    .define (Rep.ofTy_ne_void rep) (adds_cons name w.names) fun l keep held repr => ?_
  refine (body _).bind fun bc => .pure fun K leaves stored first => ?_
  obtain ⟨r', rep', turns⟩ := leaves
  exact ⟨r', same ▸ rep', w.turns_within (first.turns rep) stored turns⟩

theorem compiles_lambda {params : List String} {ps : List Ty} (few : (captured w.names params b).length ≤ 255)
    (body : ∀ outer cells,
      Compiles { w with ctx := { w.ctx with outer }, names := paramNames params ++ w.names, cells } b)
    (reads : w.ctx.Reads θ n) (type : n.type = Typing.lambdaType ps b.note.type) :
    Compiles w (.lambda n params b) := by
  refine .atLine <| (produces_closure few body).mono fun K code turns => ?_
  have function : ∃ a r, n.type = .fn a r := by
    rw [type, Typing.lambdaType]
    cases ps with
    | nil => exact ⟨_, _, rfl⟩
    | cons p ps => exact ⟨p, _, rfl⟩
  obtain ⟨a, r, function⟩ := function
  refine ⟨.ref, ?_, turns⟩
  change Rep.ofTy (w.ctx.typeOf n) = _
  rw [reads.same, function]
  rfl

theorem Compiles.called {call : Option DirectCall} {use : Rep} (callee : Compiles w c)
    (args : ∀ e ∈ es, Compiles w e) (calls : ∀ d ∈ call, w.Calls es d) : Produces w (match call with
      | some call => callArgs w.ctx use call.finish [call.before] call.params es
      | none => do
        let cc ← asRep w.ctx c.note .ref (expr w.ctx c)
        applyArgs w.ctx use [cc] es) fun K code => w.Turns K code [] use.kinds := by
  cases call with
  | some call =>
    obtain ⟨before, enough, ends⟩ := calls call rfl
    refine (produces_callArgs args enough ends _).mono fun K code turns => turns ?_
    rw [before]
    exact turns_piece turns_none (.refl [])
  | none =>
    refine (callee.asRep .ref).bind fun cc => (produces_applyArgs args use _).mono fun K code turns first => turns ?_
    exact turns_piece turns_none first

theorem compiles_apply (supported : w.Supported) (callee : Compiles w c) (args : ∀ e ∈ es, Compiles w e)
    (reads : w.ctx.Reads θ c.note) : Compiles w (.apply n c es) := by
  unfold Compiles expr
  refine .atLine <| .repOf fun use rep => Produces.mono (P := fun K code => w.Turns K code [] use.kinds) ?_
    fun K code turns => ⟨use, rep, turns⟩
  dsimp only
  split
  · next cn name => exact .directCall? supported reads.regular fun call calls => callee.called args calls
  · have none_calls : ∀ d ∈ (none : Option DirectCall), w.Calls es d := by simp
    rw [pure_bind]
    exact callee.called args none_calls

theorem compiles_sequence (each : ∀ e ∈ es, Compiles w e) (reads : w.ctx.Reads θ n)
    (type : n.type = Typing.lastType es) : Compiles w (.sequence n es) := by
  unfold Compiles expr
  refine .atLine <| .ite (fun none => ?_) fun some => ?_
  · obtain rfl := List.isEmpty_iff.1 none
    have unit := reads.rep (congrArg (fun t => t.assign θ) type) rfl
    exact Produces.mono (produces_emit (q := [.ref]) rfl rfl) fun K code turns => ⟨.ref, unit, turns⟩
  · refine (produces_sequence each []).mono fun K code last => ?_
    cases final : es.getLast? with
    | none => exact absurd (List.isEmpty_iff.2 (List.getLast?_eq_none_iff.1 final)) some
    | some e =>
      obtain ⟨r, rep, turns⟩ := last turns_none e final
      have same : n.type = e.note.type := by rw [type, Typing.lastType, final]
      refine ⟨r, ?_, turns⟩
      change Rep.ofTy (n.type.replace w.ctx.mapping) = _
      rw [same]
      exact rep

theorem compiles_print (value : Compiles w e) (reads : w.ctx.Reads θ n) (type : n.type = .unit) :
    Compiles w (.print n e) := by
  refine .atLine <| .repOf fun r rep => value.bind fun _ => (turns_print (Rep.ofTy_ne_void rep)).bind fun _ =>
    (produces_emit (q := [.ref]) rfl rfl).bind fun _ => .pure fun K unit printed first => ?_
  exact ⟨.ref, reads.rep (congrArg (fun t => t.assign θ) type) rfl, ((first.turns rep).append printed).append unit⟩

theorem compiles_list {elem : Ty} (each : ∀ e ∈ es, Compiles w e) (reads : w.ctx.Reads θ n)
    (type : n.type.assign θ = .list elem) : Compiles w (.list n es) := by
  unfold Compiles expr
  refine .atLine ?_
  dsimp only
  refine .ite (fun _ => .failed _) fun few => (produces_boxedAll each [] []).bind fun _ => ?_
  refine Produces.bind (P := fun K code => w.Turns K code (List.replicate es.length .ref) [.ref])
    (produces_emitWith fun _ _ => w.turns_single (.number (.inr rfl) (by omega)) nofun fun rest => ?_)
    fun _ => .pure fun K made first => ⟨.ref, reads.rep type rfl, ?_⟩
  · exact exchange_append _ _ rest _
  · have filled := first turns_none
    rw [List.append_nil] at filled
    exact filled.append made

theorem compiles_cons {t : Expr Typed} (head : Compiles w e) (tail : Compiles w t) (reads : w.ctx.Reads θ n)
    (reads' : w.ctx.Reads θ t.note) {elem : Ty} (type : n.type.assign θ = .list elem)
    (same : t.note.type.assign θ = n.type.assign θ) : Compiles w (.cons n e t) := by
  refine .atLine <| (head.asRep .ref).bind fun _ => tail.bind fun _ =>
    (produces_emit (p := [.ref, .ref]) rfl rfl).bind fun _ => .pure fun K put second first => ?_
  have list := second.as reads' (same.trans type) rfl
  exact ⟨.ref, reads.rep type rfl, (first.append (list.over [.ref])).append put⟩

theorem compiles_matchOn {arms : List (Arm Typed)} (supported : w.Supported) (value : Compiles w e)
    (reads : w.ctx.Reads θ e.note) (readsArms : ∀ p b, .mk p b ∈ arms → ∀ n ∈ p.notes, w.ctx.Reads θ n)
    (fits : ∀ p b, .mk p b ∈ arms → Typing.PatternFits w.ctx.checked.ctors θ p ∧
      p.note.type.assign θ = e.note.type.assign θ)
    (each : ∀ p b, .mk p b ∈ arms → ∀ cells, Compiles { w with names := p.names.reverse ++ w.names, cells } b) :
    Compiles w (.matchOn n e arms) := by
  refine .atLine <| .repOf fun r rep => .repOf fun sr known => value.bind fun ec =>
    .define (Rep.ofTy_ne_void known) (adds_blank w.names) fun source keep held repr => ?_
  have holds (p : Pattern Typed) (b : Expr Typed) (inside : .mk p b ∈ arms) :
      ({ w with cells := w.cells ++ sr.cells } : Place).Holds source p.note := by
    refine ⟨held, ?_⟩
    rw [(readsArms p b inside p.note p.note_mem_notes).same, (fits p b inside).2, ← reads.same, known, repr]
  refine (produces_matchArms (w := { w with cells := w.cells ++ sr.cells }) supported
    (fun p b inside => (fits p b inside).1)
    readsArms holds each []).bind fun cases => .modify (fun _ => ⟨rfl, rfl, rfl, List.Subset.refl _⟩) ?_
  refine Produces.bind (P := fun _ code => ∃ line, code = [⟨.matchfail, .none, line⟩]) (fun s code s' at_ run => ?_)
    fun otherwise => .pure fun K fails decides stored first => ?_
  · obtain ⟨rfl, rfl⟩ := emit_ok run
    exact ⟨at_, .refl s, fun K _ => ⟨_, rfl⟩⟩
  · obtain ⟨line, rfl⟩ := fails
    have cases_ := turns_joinCases line (decides (List.forall_mem_nil _))
    exact ⟨r, rep, w.turns_within (first.turns known) stored cases_⟩

theorem compiles_interp {parts : List (Part Typed)} (each : ∀ e, .hole e ∈ parts → Compiles w e)
    (reads : w.ctx.Reads θ n) (type : n.type = .string) : Compiles w (.interp n parts) :=
  .atLine <| (produces_interpolation each (by decide) []).mono fun _ _ turns =>
    ⟨.ref, reads.rep (congrArg (fun t => t.assign θ) type) rfl, turns turns_none⟩

theorem compiles_var {t : Ty} (supported : w.Supported) (reads : w.ctx.Reads θ n) (found : Γ name = some t)
    (use : t.Instance θ n.type) (around : Surrounds w.ctx.checked Γ w.names) (plain : '.' ∉ name.toList) :
    Compiles w (.var n name) := by
  refine .atLine <| produces_nameValue supported reads.regular ?_ plain
  by_cases inside : name ∈ w.names
  · exact .inl inside
  · rcases around name t found inside plain with function | value | boxed
    · exact .inr (.inl function)
    · exact .inr (.inr (.inl value))
    · obtain ⟨ρ, -, -, same⟩ := use
      refine .inr (.inr (.inr ?_))
      rw [reads.same, same]
      exact boxed ρ

theorem compiles_tag {info : Typing.Constructor} (supported : w.Supported) (reads : w.ctx.Reads θ n)
    (found : w.ctx.checked.ctors.get? name = some info) (alone : info.hasArg = false)
    (use : info.type.Instance θ n.type) : Compiles w (.tag n name) := by
  refine .atLine <| .holderRef fun info' same => ?_
  cases found.symm.trans same
  refine (produces_new supported found).mono fun K code turns => ⟨.ref, ?_, ?_⟩
  · change Rep.ofTy (w.ctx.typeOf n) = _
    rw [reads.same]
    exact (supported.ctors found).alone_ref alone use
  · rwa [alone] at turns

theorem compiles_build {info : Typing.Constructor} (supported : w.Supported) (value : Compiles w e)
    (reads : w.ctx.Reads θ n) (found : w.ctx.checked.ctors.get? name = some info) (argument : info.hasArg = true)
    (use : info.type.Instance θ (.fn e.note.type n.type)) : Compiles w (.build n name e) := by
  refine .atLine <| .holderRef fun info' same => (value.asRep .ref).bind fun _ => ?_
  cases found.symm.trans same
  refine (produces_new supported found).bind fun _ => .pure fun K turns first => ⟨.ref, ?_, ?_⟩
  · change Rep.ofTy (w.ctx.typeOf n) = _
    rw [reads.same]
    exact (supported.ctors found).applied_ref argument use
  · rw [argument] at turns
    exact first.append turns

variable {owner member : String} {kind : Host.MemberKind}

theorem params_length {s : Host.Signature} (fits : es.map (fun e => e.note.type.assign θ) = s.params) :
    (s.params.map Rep.ofTy).length ≤ es.length := by
  rw [List.length_map, ← fits, List.length_map]

theorem compiles_hostCall (plain : HostPlain host) (args : ∀ e ∈ es, Compiles w e)
    (fits : Typing.HostFits host θ n owner member .func es) : Compiles w (.hostCall n owner member es) := by
  obtain ⟨s, found, resolved, -, params⟩ := fits
  refine .atLine <| .hostCall plain found resolved fun call use rep taken ends => ?_
  exact (produces_callArgs args (taken ▸ params_length params) ends []).mono fun K code turns =>
    ⟨use, rep, turns turns_none⟩

theorem compiles_hostMethod (plain : HostPlain host) (receiver : Compiles w e) (args : ∀ e ∈ es, Compiles w e)
    (fits : Typing.HostFits host θ n owner member .method es) : Compiles w (.hostMethod n e member es) := by
  obtain ⟨s, found, resolved, -, params⟩ := fits
  refine .atLine <| .hostCall plain found resolved fun call use rep taken ends => ?_
  refine (receiver.asRep .ref).bind fun rc => ?_
  exact (produces_callArgs args (taken ▸ params_length params) ends [rc]).mono fun K code turns first =>
    ⟨use, rep, turns (turns_piece turns_none first)⟩

theorem produces_hostValue (plain : HostPlain host) (fits : Typing.HostFits host θ n owner member kind [])
    (other : kind ≠ .method) : Produces w (do
      let (call, use) ← hostCall w.ctx n
      finishCall call.finish use) (w.Leaves n) := by
  obtain ⟨s, found, resolved, -, params⟩ := fits
  refine .hostCall plain found resolved fun call use rep taken ends => ?_
  rw [if_neg other, taken, ← params] at ends
  exact (produces_finishCall _ ends).mono fun K code turns => ⟨use, rep, turns⟩

/-! ### Expressions -/

theorem Place.Admits.part {e e' : Expr Typed} (admits : w.Admits host θ Γ e) (modest : e'.isModest w.names)
    (notes : e'.notes ⊆ e.notes) (derives : Derives host w.ctx.checked.ctors θ Γ e') : w.Admits host θ Γ e' :=
  ⟨derives, fun n inside => admits.reads n (notes inside), modest, admits.around⟩

theorem Place.Admits.note (admits : w.Admits host θ Γ e) : w.ctx.Reads θ e.note := admits.reads _ e.note_mem_notes

theorem Place.Admits.leaves {code : Fragment} {t : Ty} {r : Rep} (admits : w.Admits host θ Γ e)
    (type : e.note.type = t)
    (rep : Rep.ofTy (t.assign θ) = .ok r) (turns : w.Turns K code [] r.kinds) : w.Leaves e.note K code :=
  ⟨r, admits.note.rep (congrArg (fun t => t.assign θ) type) rep, turns⟩

theorem Place.Admits.all {es : List (Expr Typed)} {e : Expr Typed} (admits : w.Admits host θ Γ e)
    (modest : Expr.modestAll w.names es) (notes : Expr.notesOfAll es ⊆ e.notes)
    (derives : ∀ e ∈ es, Derives host w.ctx.checked.ctors θ Γ e) : ∀ e ∈ es, w.Admits host θ Γ e :=
  fun e inside => admits.part (Expr.modestAll_iff.1 modest e inside)
    (fun _ note => notes (Expr.mem_notesOfAll.2 ⟨e, inside, note⟩)) (derives e inside)

/-- The code of an expression that follows the typing rules leaves exactly one value, held as the type of the
expression says. -/
theorem produces_expr (plain : HostPlain host) (kinded : θ.Kinded) (supported : w.Supported)
    (admits : w.Admits host θ Γ e) : Compiles w e := by
  induction e using Expr.induct generalizing w Γ with
  | int n v =>
    cases admits.derives with
    | int type => exact .atLine <| turns_int.mono fun _ _ turns => admits.leaves type rfl turns
  | float n v =>
    cases admits.derives with
    | float type => exact .atLine <| turns_double.mono fun _ _ turns => admits.leaves type rfl turns
  | bool n v =>
    cases admits.derives with
    | bool type =>
      refine .atLine <| (produces_zconst _ ?_).mono fun _ _ turns => admits.leaves type rfl turns
      split <;> decide
  | str n v =>
    cases admits.derives with
    | str type => exact .atLine <| turns_string.mono fun _ _ turns => admits.leaves type rfl turns
  | unit n =>
    cases admits.derives with
    | unit type =>
      exact .atLine <| Produces.mono (produces_emit (q := [.ref]) rfl rfl) fun _ _ turns =>
        admits.leaves type rfl turns
  | interp n parts ih =>
    have modest := Expr.modestParts_iff.1 admits.modest
    cases admits.derives with
    | interp type each =>
      refine compiles_interp (fun e inside => ih e inside supported
        (admits.part (modest e inside) ?_ (each e inside))) admits.note type
      exact fun _ note => List.mem_cons_of_mem _ (Expr.mem_notesOfParts.2 ⟨e, inside, note⟩)
  | var n name =>
    cases admits.derives with
    | var found use =>
      exact compiles_var supported admits.note found use admits.around (of_decide_eq_true admits.modest)
  | qualified n m name => exact .atLine (produces_qualifiedValue n m name)
  | unary n op e ih =>
    cases admits.derives with
    | unary value fits =>
      have inner : w.Admits host θ Γ e := admits.part admits.modest (List.subset_cons_self _ _) value
      exact compiles_unary (ih supported inner) admits.note inner.note fits
  | binary n op l r ihl ihr =>
    obtain ⟨modest, modest'⟩ := Bool.and_eq_true_iff.1 admits.modest
    cases admits.derives with
    | binary left right fits =>
      have left := admits.part modest (by simp [Expr.notes]) left
      have right := admits.part modest' (by simp [Expr.notes]) right
      exact compiles_binary (ihl supported left) (ihr supported right) admits.note left.note right.note fits
  | cond n c t e ihc iht ihe =>
    obtain ⟨modest, modestE⟩ := Bool.and_eq_true_iff.1 admits.modest
    obtain ⟨modestC, modestT⟩ := Bool.and_eq_true_iff.1 modest
    cases admits.derives with
    | cond asked yes no truth _ _ =>
      have asked := admits.part modestC (by simp [Expr.notes]) asked
      have yes := admits.part modestT (fun n inside => by simp [Expr.notes, inside]) yes
      have no := admits.part modestE (fun n inside => by simp [Expr.notes, inside]) no
      exact compiles_cond (ihc supported asked) (iht supported yes) (ihe supported no) asked.note truth
  | letIn n name v b ihv ihb =>
    obtain ⟨modest, modest'⟩ := Bool.and_eq_true_iff.1 admits.modest
    cases admits.derives with
    | letIn _ _ value body same =>
      have value := admits.part modest (by simp [Expr.notes]) (value θ kinded fun _ _ => ⟨rfl, rfl⟩)
      have reads : ∀ n ∈ b.notes, w.ctx.Reads θ n := fun n inside => admits.reads n (by simp [Expr.notes, inside])
      refine compiles_letIn (ihv supported value) (fun cells => ihb supported ⟨body, reads, modest', ?_⟩) ?_
      · exact admits.around.extend name _
      · rw [(reads _ b.note_mem_notes).same, same]
        exact admits.note.same.symm
  | letRec n name fn params fb b => cases admits.modest
  | lambda n params b ih =>
    obtain ⟨few, modest⟩ := Bool.and_eq_true_iff.1 admits.modest
    cases admits.derives with
    | lambda lengths type body =>
      have reads : ∀ n ∈ b.notes, w.ctx.Reads θ n := fun n inside => admits.reads n (List.mem_cons_of_mem _ inside)
      refine compiles_lambda (of_decide_eq_true few)
        (fun outer cells => ih supported ⟨body, ?_, modest, ?_⟩) admits.note type
      · exact fun n inside => ⟨(reads n inside).same, (reads n inside).regular⟩
      · refine (admits.around.extendAll params _).mono (List.append_subset.2 ⟨?_, List.subset_append_right _ _⟩)
        exact List.Subset.trans (subset_paramNames params) (List.subset_append_left _ _)
  | apply n c args ihc iha =>
    obtain ⟨modest, modest'⟩ := Bool.and_eq_true_iff.1 admits.modest
    cases admits.derives with
    | apply callee each _ =>
      have callee := admits.part modest (by simp [Expr.notes]) callee
      have args := admits.all modest' (by simp [Expr.notes]) each
      exact compiles_apply supported (ihc supported callee)
        (fun e inside => iha e inside supported (args e inside)) callee.note
  | sequence n es ih =>
    cases admits.derives with
    | sequence each type =>
      have each := admits.all admits.modest (List.subset_cons_self _ _) each
      exact compiles_sequence (fun e inside => ih e inside supported (each e inside)) admits.note type
  | print n e ih =>
    cases admits.derives with
    | print value type =>
      exact compiles_print (ih supported (admits.part admits.modest (List.subset_cons_self _ _) value))
        admits.note type
  | list n es ih =>
    cases admits.derives with
    | list each type _ =>
      have each := admits.all admits.modest (List.subset_cons_self _ _) each
      exact compiles_list (fun e inside => ih e inside supported (each e inside)) admits.note type
  | cons n h t ihh iht =>
    obtain ⟨modest, modest'⟩ := Bool.and_eq_true_iff.1 admits.modest
    cases admits.derives with
    | cons head tail type same =>
      have head := admits.part modest (by simp [Expr.notes]) head
      have tail := admits.part modest' (by simp [Expr.notes]) tail
      exact compiles_cons (ihh supported head) (iht supported tail) admits.note tail.note type same
  | matchOn n e arms ihe iha =>
    obtain ⟨modest, modest'⟩ := Bool.and_eq_true_iff.1 admits.modest
    cases admits.derives with
    | matchOn value _ fits bodies =>
      have value := admits.part modest (by simp [Expr.notes]) value
      have reads (p : Pattern Typed) (b : Expr Typed) (inside : .mk p b ∈ arms) :
          ∀ n, n ∈ p.notes ∨ n ∈ b.notes → w.ctx.Reads θ n := fun n note => admits.reads n <| by
        simp only [Expr.notes, List.mem_cons, List.mem_append]
        exact .inr (.inr (Expr.mem_notesOfArms.2 ⟨p, b, inside, note⟩))
      refine compiles_matchOn supported (ihe supported value) value.note
        (fun p b inside n note => reads p b inside n (.inl note))
        (fun p b inside => ⟨(fits p b inside).1, (fits p b inside).2.1⟩) fun p b inside cells => ?_
      refine iha p b inside supported ⟨bodies p b inside, fun n note => reads p b inside n (.inr note), ?_, ?_⟩
      · exact Expr.modestArms_iff.1 modest' p b inside
      · exact admits.around.extendPattern p
  | tag n name =>
    cases admits.derives with
    | tag found alone use => exact compiles_tag supported admits.note found alone use
  | build n name e ih =>
    cases admits.derives with
    | build found argument value use =>
      exact compiles_build supported (ih supported (admits.part admits.modest (List.subset_cons_self _ _) value))
        admits.note found argument use
  | hostCall n owner member args ih =>
    cases admits.derives with
    | hostCall each fits =>
      have each := admits.all admits.modest (List.subset_cons_self _ _) each
      exact compiles_hostCall plain (fun e inside => ih e inside supported (each e inside)) fits
  | hostMethod n r member args ihr iha =>
    obtain ⟨modest, modest'⟩ := Bool.and_eq_true_iff.1 admits.modest
    cases admits.derives with
    | hostMethod receiver _ each fits =>
      have receiver := admits.part modest (by simp [Expr.notes]) receiver
      have args := admits.all modest' (by simp [Expr.notes]) each
      exact compiles_hostMethod plain (ihr supported receiver)
        (fun e inside => iha e inside supported (args e inside)) fits
  | hostField n owner name =>
    cases admits.derives with
    | hostField fits => exact .atLine (produces_hostValue plain fits (by decide))
  | hostNew n owner =>
    cases admits.derives with
    | hostNew fits => exact .atLine (produces_hostValue plain fits (by decide))

end Codegen
end StackML
