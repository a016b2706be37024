import StackML.Proofs.Codegen.Expressions

/-!
The code of expressions that bind names, and with it that of every tree without functions: it does
what the evaluator does with the tree.
-/

namespace StackML.Codegen

open Machine Semantics
open Typing (Typed)

variable {σ : Scene} {Γ : Typing.Context} {bound : List String} {env : NameMap Value}
variable {site : Site} {ip : Nat} {L S : List Word} {out : List Text} {v : Value}
variable {s s' s₁ s₂ s₃ : State} {code a b c : Fragment} {n : Typed} {e : Expr Typed}

/-! ### Scopes -/

theorem Realizes.store {x : NameMap Value → Eval Value} {P : Value → Prop} {name : String} {r : Rep}
    {line : Int} (h : Realizes σ Γ bound s a s₁ x (words r) P) (fits : ∀ v, P v → Fits r v)
    (filled : r ≠ .void) (hosts : Hosts σ.ctx σ.table site) (ready : Ready σ Γ bound env L s)
    (placed : Placed site ip (a ++ stores ⟨name, s₁.locals.next, r, none⟩ line)
      { s₁ with locals := (s₁.locals.define name r).2 } L) :
    Follows site ⟨ip, L, S, out⟩ (x env) fun v w =>
      Leaves (ip + Fragment.size (a ++ stores ⟨name, s₁.locals.next, r, none⟩ line))
        s.locals.next L S w ∧ Ready σ Γ bound env w.locals s₁ ∧
      Held (s₁.locals.next + r.width) w.locals ⟨name, s₁.locals.next, r, none⟩ v ∧ P v := by
  have opens : Binds σ.module [name] s₁ _ := binds_define s₁ name r
  have value := placed.left opens.toGrows (h.settles.plain ready.pool)
  refine (h.follows hosts ready value).extend ?_
  rintro v ⟨_, L₁, _, out₁⟩ ⟨⟨rfl, keeps₁, rfl⟩, known⟩
  have room : s₁.locals.next + r.width ≤ L₁.length :=
    keeps₁.length ▸ Nat.le_trans (Nat.le_max_right _ _) placed.room
  obtain ⟨L₂, keeps₂, held, way⟩ := store_leads (S := S) name (fits v known) filled room
    (placed.right keeps₁).small placed.located.right
  have done := ready.after h.settles keeps₁
  refine ⟨_, way, rfl, ⟨?_, keeps₁.trans (h.settles.next ▸ keeps₂), rfl⟩,
    ⟨done.pool, done.shelters.keeps keeps₂, done.typed⟩, held, known⟩
  rw [Fragment.size_append, Nat.add_assoc]
  rfl

theorem carries_letIn {name : String} {v b : Expr Typed} {vars : List VarId} (named : name ≠ "")
    (plain : v.note.type.isMono) (type : b.note.type = n.type) (value : Carries σ Γ bound v)
    (body : Carries σ (Γ.extend name (v.note.type.quantify vars)) (name :: bound) b)
    (whole : ∀ env, EnvFits σ.table σ.ctx.checked.ctors {} Γ bound env →
      Yields (fun a => ∀ ρ : Assignment, ρ.Kinded → ρ.AgreesOff {} vars →
        σ.HasType (v.note.type.assign ρ) a) (eval σ.table env v))
    (typed : Types σ Γ bound (.letIn n name v b)) : Carries σ Γ bound (.letIn n name v b) := by
  intro s code s' visible run
  obtain ⟨s₁, r, vc, s₂, bc, s₃, runL, rep, runV, runB, rfl, rfl⟩ := expr_letIn run
  rw [σ.setting.typeOf_eq] at rep
  obtain rfl := Rep.eq_rep_of_ofTy rep
  have start : Settles σ.module s s₁ := atLine_settles runL
  have visible := visible.of_entries start.entries
  have onValue := (value visible runV).yields whole
  have opens : Binds σ.module [name] s₂ _ := binds_define s₂ name v.note.type.rep
  have onBody := body (opens.visible (visible.of_entries onValue.settles.entries)) runB
  have settles := onValue.settles.trans (opens.toOpens.trans onBody.settles.opens).rollback
  refine .yields (P := fun _ => True) (.before start ⟨settles, ?_⟩) typed
  intro site ip L S out env hosts ready placed
  have placed : Placed site ip (vc ++ _ ++ bc) s₃ L :=
    ⟨placed.located, placed.constants, placed.room, placed.small⟩
  have front := placed.left onBody.settles.toGrows (onValue.settles.plain ready.pool)
  have fits : ∀ a, (∀ ρ : Assignment, ρ.Kinded → ρ.AgreesOff {} vars →
      σ.HasType (v.note.type.assign ρ) a) → Fits v.note.type.rep a := fun a typed => by
    have own := typed {} Assignment.kinded_default fun _ _ => ⟨rfl, rfl⟩
    rw [Ty.assign_default] at own
    exact own.fits
  simp only [eval]
  refine (onValue.store fits v.note.type.rep_ne_void hosts ready front).bind ?_
  rintro a ⟨_, L₁, _, out₁⟩ ⟨⟨rfl, keeps₁, rfl⟩, after, held, typedA⟩
  have inner : Ready σ (Γ.extend name (v.note.type.quantify vars)) (name :: bound)
      (env.insert name a) L₁ { s₂ with locals := (s₂.locals.define name v.note.type.rep).2 } := by
    refine ⟨after.pool, after.shelters.push (l := ⟨name, s₂.locals.next, _, none⟩) named
      (Nat.le_add_right _ _) rfl held, ready.typed.extend fun ρ => ?_⟩
    rw [Ty.body_quantify plain, Ty.quantified_quantify plain]
    exact typedA ρ
  refine (onBody.follows hosts inner (placed.right keeps₁)).mono ?_
  rintro r w ⟨⟨done, keeps₂, stack⟩, -⟩
  have below : s₁.locals.next ≤ s₂.locals.next + v.note.type.rep.width := by
    rw [onValue.settles.next]
    exact Nat.le_add_right _ _
  refine ⟨⟨?_, keeps₁.trans (keeps₂.mono below), type ▸ stack⟩, trivial⟩
  rw [done, Fragment.size_append _ bc, Nat.add_assoc]

/-! ### Matches -/

theorem joinCases_size (otherwise : Fragment) (cases : List Case) :
    (cases.foldr (fun (c : Case) (rest : Fragment × Nat) =>
      (c.code ++ c.done rest.2 :: rest.1, c.code.size + (c.done rest.2).size + rest.2))
      (otherwise, otherwise.size)).2 = (joinCases otherwise cases).size := by
  unfold joinCases
  induction cases with
  | nil => rfl
  | cons c cases ih =>
    simp only [List.foldr_cons, Fragment.size_append, size_cons, ih]
    omega

theorem joinCases_cons (otherwise : Fragment) (c : Case) (cases : List Case) :
    joinCases otherwise (c :: cases) =
      c.code ++ c.done (joinCases otherwise cases).size :: joinCases otherwise cases := by
  rw [← joinCases_size]
  rfl

theorem joinCases_of (otherwise : Fragment) (tests : List Test) (body : Fragment) (line : Int)
    (cases : List Case) :
    joinCases otherwise (.of tests body (fun d => ⟨.goto, .jump d, line⟩) :: cases) =
      testCode (body.size + 3) tests ++ body ++
        ⟨.goto, .jump (joinCases otherwise cases).size, line⟩ :: joinCases otherwise cases :=
  joinCases_cons otherwise _ cases

theorem matchArms_follows {source : Local} {t : Ty} {arms : List (Arm Typed)} {cases : List Case}
    {line : Int} (hosts : Hosts σ.ctx σ.table site)
    (names : ∀ p b, .mk p b ∈ arms → ∀ name ∈ patternNames p, name ≠ "")
    (shapes : ∀ p b, .mk p b ∈ arms → Typing.PatternFits σ.ctx.checked.ctors {} p ∧
      p.note.type = t ∧ b.note.type = n.type ∧ ∀ n ∈ p.notes, n.type.isMono)
    (bodies : ∀ p b, .mk p b ∈ arms → Carries σ (Γ.extendPattern p) (patternNames p ++ bound) b)
    (rep : source.repr = t.rep) (value : σ.HasType t v) (ready : Ready σ Γ bound env L s)
    (visible : Scoped bound s.locals) (held : Held s.locals.next L source v)
    (run : matchArms σ.ctx source n.type.rep [] arms s = .ok cases s')
    (placed : Placed site ip (joinCases [⟨.matchfail, .none, line⟩] cases) s' L) :
    Follows site ⟨ip, L, S, out⟩ (evalArms σ.table env v arms) fun r =>
      Leaves (ip + (joinCases [⟨.matchfail, .none, line⟩] cases).size) s.locals.next L
        (words n.type.rep r ++ S) := by
  induction arms generalizing s cases ip L with
  | nil =>
    rw [matchArms] at run
    cases run
    exact .fault .noCase rfl (.matchfail placed.located)
  | cons arm arms ih =>
    obtain ⟨p, b⟩ := arm
    obtain ⟨tests, s₁, body, s₂, rest, runT, runB, runR, rfl⟩ := matchArms_cons run
    obtain ⟨pattern, typeP, typeB, mono⟩ := shapes p b List.mem_cons_self
    have binds := testPattern_binds σ.setting held.plain runT
    have onBody := (bodies p b List.mem_cons_self).asRep (fun v typed => typeB ▸ typed.fits)
      (binds.visible visible) runB
    have first := (binds.toOpens.trans onBody.settles.opens).rollback
    have inside := visible.of_entries first.entries
    have more := matchArms_settles σ.setting held.plain
      (fun p b member => (bodies p b (List.mem_cons_of_mem _ member)).leavesScope) inside runR
    have back : Grows σ.module s₂
        { s₂ with locals := s₂.locals.rollback s.locals.checkpoint } :=
      ⟨rfl, id, fun _ => List.prefix_rfl, Nat.le_refl _⟩
    have pool₁ := binds.plain ready.pool
    rw [joinCases_of] at placed ⊢
    have front := placed.left (back.trans more.toGrows) (onBody.settles.plain pool₁)
    have decides : Decides site ip (testCode (body.size + 3) tests) _ L S out _ s₁.locals _ :=
      testPattern_decides σ.setting hosts σ.known pattern (names p b List.mem_cons_self)
        (typeP ▸ rep) (typeP ▸ value) ready.pool held ready.shelters runT
        (front.left onBody.settles.toGrows pool₁)
    rw [evalArms]
    cases fits : bindPattern σ.table p v env with
    | some env' =>
      rw [fits] at decides
      obtain ⟨L₁, keeps₁, shelters, way⟩ := decides
      refine .leads way rfl ?_
      have value : HasType σ.table σ.ctx.checked.ctors v (p.note.type.assign {}) := by
        rw [Ty.assign_default, typeP]
        exact value
      have inner : Ready σ (Γ.extendPattern p) (patternNames p ++ bound) env' L₁ s₁ :=
        ⟨pool₁, shelters, ready.typed.bindPattern σ.known mono pattern value fits⟩
      refine (onBody.follows hosts inner (front.right keeps₁)).extend ?_
      rintro r ⟨_, L₂, _, out₂⟩ ⟨⟨rfl, keeps₂, rfl⟩, -⟩
      have leave := placed.located.right.head
      rw [Fragment.size_append, ← Nat.add_assoc] at leave
      refine ⟨_, .goto leave, rfl, ?_, keeps₁.trans (keeps₂.mono binds.next), rfl⟩
      simp only [Fragment.size_append, size_cons, size_jump]
      omega
    | none =>
      rw [fits] at decides
      obtain ⟨L₁, keeps₁, way⟩ := decides
      refine .leads way rfl ?_
      have held := (held.keeps keeps₁).mono (Nat.le_of_eq first.next.symm)
      have rest := (placed.right keeps₁).right (a := [_]) (.refl 0 L₁)
      have follows := ih (fun p b member => names p b (List.mem_cons_of_mem _ member))
        (fun p b member => shapes p b (List.mem_cons_of_mem _ member))
        (fun p b member => bodies p b (List.mem_cons_of_mem _ member))
        (ready.after first keeps₁) inside held runR rest
      rw [size_single, size_jump, Fragment.size_append, ← Nat.add_assoc, Nat.add_assoc _ _ 3]
        at follows
      refine follows.mono fun r w leaves => ?_
      obtain ⟨done, keeps₂, stack⟩ := leaves
      rw [first.next] at keeps₂
      refine ⟨?_, keeps₁.trans keeps₂, stack⟩
      rw [done]
      simp only [Fragment.size_append, size_cons, size_jump]
      omega

theorem carries_matchOn {arms : List (Arm Typed)} (scrutinee : Carries σ Γ bound e)
    (names : ∀ p b, .mk p b ∈ arms → ∀ name ∈ patternNames p, name ≠ "")
    (shapes : ∀ p b, .mk p b ∈ arms → Typing.PatternFits σ.ctx.checked.ctors {} p ∧
      p.note.type = e.note.type ∧ b.note.type = n.type ∧ ∀ n ∈ p.notes, n.type.isMono)
    (bodies : ∀ p b, .mk p b ∈ arms → Carries σ (Γ.extendPattern p) (patternNames p ++ bound) b)
    (typed : Types σ Γ bound (.matchOn n e arms)) : Carries σ Γ bound (.matchOn n e arms) := by
  refine .of_body typed (by rw [expr]; rfl) rfl fun visible run => ?_
  obtain ⟨r, _, runR, run⟩ := bind_ok run
  obtain ⟨rfl, rfl⟩ := repOf_eq runR
  obtain ⟨r, _, runR, run⟩ := bind_ok run
  obtain ⟨rfl, rfl⟩ := repOf_eq runR
  obtain ⟨ec, s₁, runE, run⟩ := bind_ok run
  obtain ⟨s₂, runI, rfl⟩ := inScope_ok run
  obtain ⟨source, _, runD, runI⟩ := bind_ok runI
  obtain ⟨rfl, rfl⟩ := define_ok runD
  obtain ⟨keep, _, runK, runI⟩ := bind_ok runI
  obtain ⟨rfl, rfl⟩ := emitWith_ok runK
  obtain ⟨cases, s₃, runA, runI⟩ := bind_ok runI
  obtain ⟨_, _, runL, runI⟩ := bind_ok runI
  cases runL
  obtain ⟨last, _, runF, runI⟩ := bind_ok runI
  obtain ⟨rfl, rfl⟩ := emit_ok runF
  cases runI
  have onValue := scrutinee visible runE
  have opens : Binds σ.module [""] s₁ _ := binds_define s₁ "" e.note.type.rep
  have inside := (opens.visible (visible.of_entries onValue.settles.entries)).mono
    (List.subset_cons_self "" bound)
  have onArms := matchArms_settles σ.setting rfl (fun p b member => (bodies p b member).leavesScope)
    inside runA
  have settles := onValue.settles.trans (opens.toOpens.trans
    (onArms.trans (settles_line s₃ n.position.line)).opens).rollback
  refine ⟨settles, fun {site ip L S out env} hosts ready placed => ?_⟩
  have placed : Placed site ip (ec ++ _ ++ joinCases _ cases) s₃ L :=
    ⟨placed.located, placed.constants, placed.room, placed.small⟩
  have front := placed.left onArms.toGrows (onValue.settles.plain ready.pool)
  simp only [eval]
  refine (onValue.store (fun _ typed => typed.fits) e.note.type.rep_ne_void hosts ready front).bind ?_
  rintro v ⟨_, L₁, _, out₁⟩ ⟨⟨rfl, keeps₁, rfl⟩, after, held, typedV⟩
  have inner : Ready σ Γ bound env L₁
      { s₁ with locals := (s₁.locals.define "" e.note.type.rep).2 } :=
    ⟨after.pool, after.shelters.hide (l := ⟨"", s₁.locals.next, _, none⟩) rfl (Nat.le_add_right _ _)
      rfl, after.typed⟩
  refine (matchArms_follows hosts names shapes bodies rfl typedV inner inside held runA
    (placed.right keeps₁)).mono fun r w leaves => ?_
  obtain ⟨done, keeps₂, stack⟩ := leaves
  have below := Nat.le_trans (Nat.le_of_eq onValue.settles.next.symm) opens.next
  refine ⟨⟨?_, keeps₁.trans (keeps₂.mono below), stack⟩, trivial⟩
  rw [done, Fragment.size_append _ (joinCases _ cases), Nat.add_assoc]

/-! ### Trees -/

theorem types_of_derives {host : Host.Resolver} (first : FirstOrder bound e)
    (mono : ∀ n ∈ e.notes, n.type.isMono)
    (derived : Typing.Derives host σ.ctx.checked.ctors {} Γ e) : Types σ Γ bound e := by
  intro env fits
  have yields := eval_yields σ.known first Assignment.kinded_default mono derived fits
  rwa [Ty.assign_default] at yields

theorem carries_of_derives {host : Host.Resolver} (first : FirstOrder bound e)
    (mono : ∀ n ∈ e.notes, n.type.isMono)
    (derived : Typing.Derives host σ.ctx.checked.ctors {} Γ e) : Carries σ Γ bound e := by
  induction first generalizing Γ with
  | int =>
    refine carries_int ?_ (types_of_derives .int mono derived)
    cases derived with
    | int type => exact type
  | float =>
    refine carries_float ?_ (types_of_derives .float mono derived)
    cases derived with
    | float type => exact type
  | bool =>
    refine carries_bool ?_ (types_of_derives .bool mono derived)
    cases derived with
    | bool type => exact type
  | str =>
    refine carries_str ?_ (types_of_derives .str mono derived)
    cases derived with
    | str type => exact type
  | unit =>
    refine carries_unit ?_ (types_of_derives .unit mono derived)
    cases derived with
    | unit type => exact type
  | @interp bound n parts holes ih =>
    have typed := types_of_derives (.interp holes) mono derived
    cases derived with
    | interp type each =>
      refine carries_interp type (fun e member => ih e member (fun n inside => ?_) (each e member)) typed
      exact mono n (.tail _ (Expr.mem_notesOfParts.2 ⟨e, member, inside⟩))
  | var member => exact carries_var member (types_of_derives (.var member) mono derived)
  | @unary bound n op e first ih =>
    have typed := types_of_derives (.unary first) mono derived
    cases derived with
    | unary derived shape =>
      have operand := ih (fun n member => mono n (.tail _ member)) derived
      simp only [Ty.assign_default] at shape
      cases op with
      | not => exact carries_not shape.1 shape.2 operand typed
      | neg => exact carries_neg shape.1 shape.2 operand typed
  | @binary bound n op l r firstL firstR ihL ihR =>
    have typed := types_of_derives (.binary firstL firstR) mono derived
    simp only [Expr.notes, List.mem_cons, List.mem_append] at mono
    cases derived with
    | binary left right shape =>
      have left := ihL (fun n member => mono n (.inr (.inl member))) left
      have right := ihR (fun n member => mono n (.inr (.inr member))) right
      simp only [Ty.assign_default, Typing.BinaryFits] at shape
      split at shape
      · exact carries_arithmetic ‹_› shape left right typed
      · split at shape
        · exact carries_comparison ‹_› shape.1 shape.2 left right typed
        · have logic : op = .and ∨ op = .or := by
            cases op <;> first | exact .inl rfl | exact .inr rfl | contradiction
          exact carries_logic logic shape.1 shape.2.1 shape.2.2 left right typed
  | @cond bound n c t e firstC firstT firstE ihC ihT ihE =>
    have typed := types_of_derives (.cond firstC firstT firstE) mono derived
    simp only [Expr.notes, List.mem_cons, List.mem_append] at mono
    cases derived with
    | cond test yes no typeC typeT typeE =>
      simp only [Ty.assign_default] at typeC typeT typeE
      exact carries_cond typeC typeT typeE (ihC (fun n member => mono n (.inr (.inl member))) test)
        (ihT (fun n member => mono n (.inr (.inr (.inl member)))) yes)
        (ihE (fun n member => mono n (.inr (.inr (.inr member)))) no) typed
  | @letIn bound n name v b named firstV firstB ihV ihB =>
    have typed := types_of_derives (.letIn named firstV firstB) mono derived
    simp only [Expr.notes, List.mem_cons, List.mem_append] at mono
    have monoV : ∀ n ∈ v.notes, n.type.isMono := fun n member => mono n (.inr (.inl member))
    cases derived with
    | letIn lacks _ values body typeB =>
      simp only [Ty.assign_default] at typeB
      refine carries_letIn named (monoV _ v.note_mem_notes) typeB
        (ihV monoV (values {} Assignment.kinded_default fun _ _ => ⟨rfl, rfl⟩))
        (ihB (fun n member => mono n (.inr (.inr member))) body) ?_ typed
      intro env fits out a out' run ρ kinded agrees
      exact eval_yields σ.known firstV kinded monoV (values ρ kinded agrees)
        (fits.reassign Assignment.kinded_default lacks agrees) out a out' run
  | @sequence bound n es firsts ih =>
    have typed := types_of_derives (.sequence firsts) mono derived
    cases derived with
    | sequence each type =>
      refine carries_sequence type (fun e member => ih e member (fun n inside => ?_) (each e member)) typed
      exact mono n (.tail _ (Expr.mem_notesOfAll.2 ⟨e, member, inside⟩))
  | print first ih =>
    have typed := types_of_derives (.print first) mono derived
    cases derived with
    | print derived type =>
      exact carries_print type (ih (fun n member => mono n (.tail _ member)) derived) typed
  | @list bound n es firsts ih =>
    have typed := types_of_derives (.list firsts) mono derived
    cases derived with
    | list each type =>
      rw [Ty.assign_default] at type
      refine carries_list type (fun e member => ih e member (fun n inside => ?_) (each e member)) typed
      exact mono n (.tail _ (Expr.mem_notesOfAll.2 ⟨e, member, inside⟩))
  | @cons bound n h t firstH firstT ihH ihT =>
    have typed := types_of_derives (.cons firstH firstT) mono derived
    simp only [Expr.notes, List.mem_cons, List.mem_append] at mono
    cases derived with
    | cons head tail typeN typeT =>
      simp only [Ty.assign_default] at typeN typeT
      exact carries_cons typeN typeT (ihH (fun n member => mono n (.inr (.inl member))) head)
        (ihT (fun n member => mono n (.inr (.inr member))) tail) typed
  | @matchOn bound n e arms firstE names firstArms ihE ihArms =>
    have typed := types_of_derives (.matchOn firstE names firstArms) mono derived
    simp only [Expr.notes, List.mem_cons, List.mem_append] at mono
    have inside : ∀ p b, .mk p b ∈ arms → ∀ n, n ∈ p.notes ∨ n ∈ b.notes → n.type.isMono :=
      fun p b member n found => mono n (.inr (.inr (Expr.mem_notesOfArms.2 ⟨p, b, member, found⟩)))
    cases derived with
    | matchOn scrutinee _ shapes bodies =>
      simp only [Ty.assign_default] at shapes
      refine carries_matchOn (ihE (fun n member => mono n (.inr (.inl member))) scrutinee) names
        (fun p b member => ?_) (fun p b member => ?_) typed
      · obtain ⟨fits, typeP, typeB⟩ := shapes p b member
        exact ⟨fits, typeP, typeB, fun n found => inside p b member n (.inl found)⟩
      · exact ihArms p b member (fun n found => inside p b member n (.inr found)) (bodies p b member)
  | @tag bound =>
    have typed : Types σ Γ bound _ := types_of_derives .tag mono derived
    cases derived with
    | tag found bare used =>
      obtain ⟨cls, listed, same⟩ := σ.known.classed found
      have sum := σ.known.isSum_of_bare found bare used
      rw [Ty.assign_default] at sum
      exact carries_tag listed (same.trans bare) sum typed
  | build first ih =>
    have typed := types_of_derives (.build first) mono derived
    cases derived with
    | build found filled derived used =>
      obtain ⟨cls, listed, same⟩ := σ.known.classed found
      have sum := σ.known.isSum_of_filled found filled used
      rw [Ty.assign_default] at sum
      exact carries_build listed (same.trans filled) sum
        (ih (fun n member => mono n (.tail _ member)) derived) typed

end StackML.Codegen
