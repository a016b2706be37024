import StackML.Proofs.Expr.Notes
import StackML.Proofs.Typing.Steps

/-!
Inference notes every node of a tree and changes nothing else: with the types taken away again, the
tree is the one it was given.
-/

namespace StackML

/-- A tree without its types. -/
def Expr.erase (e : Expr Typing.Typed) : Expr Position := e.mapNotes Typing.Typed.position

namespace Typing

variable {host : Host.Resolver} {env : Env} {s s' : State}

def Faithful (host : Host.Resolver) (e : Expr Position) : Prop :=
  ∀ {env : Env} {s s' : State} {e' : Expr Typed}, infer host env e s = .ok e' s' → e'.erase = e

theorem checkPattern_faithful {t : Ty} {env' : Env} {p : Pattern Position} {p' : Pattern Typed}
    (run : checkPattern env t p s = .ok (p', env') s') : p'.mapNotes Typed.position = p := by
  induction p generalizing env t s s' p' env' with
  | wild n | var n name =>
    cases run
    rfl
  | int n v | bool n v | str n v =>
    obtain ⟨_, s₁, -, run⟩ := bind_ok run
    cases run
    rfl
  | nil n =>
    obtain ⟨_, s₁, -, run⟩ := bind_ok run
    obtain ⟨_, s₂, -, run⟩ := bind_ok run
    cases run
    rfl
  | cons n head tail ihHead ihTail =>
    obtain ⟨_, s₁, -, run⟩ := bind_ok run
    obtain ⟨_, s₂, -, run⟩ := bind_ok run
    obtain ⟨⟨head', env₁⟩, s₃, runHead, run⟩ := bind_ok run
    obtain ⟨⟨tail', env₂⟩, s₄, runTail, run⟩ := bind_ok run
    cases run
    simp only [Pattern.mapNotes, ihHead runHead, ihTail runTail]
  | tag n name =>
    obtain ⟨c, s₁, -, run⟩ := bind_ok run
    obtain ⟨ct, s₂, -, run⟩ := bind_ok run
    dsimp only at run
    split at run
    · obtain ⟨_, s₃, -, run⟩ := bind_ok run
      obtain ⟨_, s₄, -, run⟩ := bind_ok run
      cases run
      rfl
    · obtain ⟨_, s₃, -, run⟩ := bind_ok run
      cases run
      rfl
  | build n name arg ih =>
    obtain ⟨c, s₁, -, run⟩ := bind_ok run
    obtain ⟨ct, s₂, -, run⟩ := bind_ok run
    dsimp only at run
    split at run
    · obtain ⟨_, _, failed, -⟩ := bind_ok run
      exact (not_refuse_ok failed).elim
    · obtain ⟨_, s₃, -, run⟩ := bind_ok run
      obtain ⟨_, s₄, -, run⟩ := bind_ok run
      obtain ⟨⟨arg', env₁⟩, s₅, runArg, run⟩ := bind_ok run
      cases run
      simp only [Pattern.mapNotes, ih runArg]

/-! ### Lists of children -/

theorem inferAll_faithful {es : List (Expr Position)} {done es' : List (Expr Typed)}
    (each : ∀ e ∈ es, Faithful host e) (run : inferAll host env done es s = .ok es' s') :
    es'.map Expr.erase = done.reverse.map Expr.erase ++ es := by
  induction es generalizing done s with
  | nil =>
    cases run
    simp
  | cons e es ih =>
    simp only [List.forall_mem_cons] at each
    simp only [inferAll] at run
    obtain ⟨e', s₁, runE, run⟩ := bind_ok run
    simp [ih each.2 run, each.1 runE]

theorem inferElems_faithful {es : List (Expr Position)} {elem : Ty} {done es' : List (Expr Typed)}
    (each : ∀ e ∈ es, Faithful host e) (run : inferElems host env elem done es s = .ok es' s') :
    es'.map Expr.erase = done.reverse.map Expr.erase ++ es := by
  induction es generalizing done s with
  | nil =>
    cases run
    simp
  | cons e es ih =>
    simp only [List.forall_mem_cons] at each
    simp only [inferElems] at run
    obtain ⟨e', s₁, runE, run⟩ := bind_ok run
    obtain ⟨_, s₂, -, run⟩ := bind_ok run
    simp [ih each.2 run, each.1 runE]

theorem inferArgs_faithful {es : List (Expr Position)} {fn t : Ty} {done es' : List (Expr Typed)}
    (each : ∀ e ∈ es, Faithful host e) (run : inferArgs host env fn done es s = .ok (t, es') s') :
    es'.map Expr.erase = done.reverse.map Expr.erase ++ es := by
  induction es generalizing done s fn with
  | nil =>
    cases run
    simp
  | cons e es ih =>
    simp only [List.forall_mem_cons] at each
    simp only [inferArgs] at run
    obtain ⟨e', s₁, runE, run⟩ := bind_ok run
    obtain ⟨_, s₂, -, run⟩ := bind_ok run
    obtain ⟨_, s₃, -, run⟩ := bind_ok run
    simp [ih each.2 run, each.1 runE]

theorem inferParts_faithful {ps : List (Part Position)} {done ps' : List (Part Typed)}
    (each : ∀ e, .hole e ∈ ps → Faithful host e)
    (run : inferParts host env done ps s = .ok ps' s') :
    ps'.map (Expr.mapPart Typed.position) =
      done.reverse.map (Expr.mapPart Typed.position) ++ ps := by
  induction ps generalizing done s with
  | nil =>
    cases run
    simp
  | cons p ps ih =>
    have rest : ∀ e, .hole e ∈ ps → Faithful host e := fun e member =>
      each e (List.mem_cons_of_mem _ member)
    cases p with
    | text t =>
      simp only [inferParts] at run
      simp [ih rest run, Expr.mapPart]
    | hole e =>
      simp only [inferParts] at run
      obtain ⟨e', s₁, runE, run⟩ := bind_ok run
      have same := each e List.mem_cons_self runE
      rw [Expr.erase] at same
      simp [ih rest run, Expr.mapPart, same]

theorem inferArms_faithful {as : List (Arm Position)} {t result : Ty} {done as' : List (Arm Typed)}
    (each : ∀ p e, .mk p e ∈ as → Faithful host e)
    (run : inferArms host env t result done as s = .ok as' s') :
    as'.map (Expr.mapArm Typed.position) = done.reverse.map (Expr.mapArm Typed.position) ++ as := by
  induction as generalizing done s with
  | nil =>
    cases run
    simp
  | cons a as ih =>
    obtain ⟨p, e⟩ := a
    have rest : ∀ p e, .mk p e ∈ as → Faithful host e := fun p e member =>
      each p e (List.mem_cons_of_mem _ member)
    simp only [inferArms] at run
    obtain ⟨⟨p', inner⟩, s₁, runP, run⟩ := bind_ok run
    obtain ⟨e', s₂, runE, run⟩ := bind_ok run
    obtain ⟨_, s₃, -, run⟩ := bind_ok run
    have same := each p e List.mem_cons_self runE
    rw [Expr.erase] at same
    simp [ih rest run, Expr.mapArm, same, checkPattern_faithful runP]

theorem mapAll_position {es : List (Expr Position)} {es' : List (Expr Typed)}
    (same : es'.map Expr.erase = [].reverse.map Expr.erase ++ es) :
    Expr.mapAll Typed.position [] es' = es := by
  rw [Expr.mapAll_eq]
  exact same

theorem hostMember_position {place : Position} {owner member : String} {kind : Host.MemberKind}
    {args : List (Position × Ty)} {n : Typed}
    (run : hostMember host place owner member kind args s = .ok n s') : n.position = place := by
  unfold hostMember at run
  cases found : host owner member kind with
  | error u =>
    simp only [found] at run
    exact (not_refuse_ok run).elim
  | ok signature =>
    simp only [found] at run
    split at run
    · obtain ⟨_, _, failed, -⟩ := bind_ok run
      exact (not_refuse_ok failed).elim
    · obtain ⟨_, s₁, -, run⟩ := bind_ok run
      cases run
      rfl

/-! ### All expressions -/

theorem infer_faithful (e : Expr Position) : Faithful host e := by
  induction e using Expr.induct with
  | int p v | float p v | bool p v | str p v | unit p =>
    intro env s s' e' run
    simp only [infer] at run
    cases run
    rfl
  | interp p parts ih =>
    intro env s s' e' run
    simp only [infer] at run
    obtain ⟨parts', s₁, runP, run⟩ := bind_ok run
    cases run
    have same := inferParts_faithful ih runP
    simp only [Expr.erase, Expr.mapNotes, Expr.mapParts_eq, same, List.reverse_nil, List.map_nil,
      List.nil_append]
  | var p name | qualified p m name =>
    intro env s s' e' run
    simp only [infer] at run
    obtain ⟨t, s₁, -, run⟩ := bind_ok run
    cases run
    rfl
  | unary p op e ih =>
    intro env s s' e' run
    simp only [infer] at run
    obtain ⟨e₁, s₁, runE, run⟩ := bind_ok run
    have same := ih runE
    cases op with
    | not =>
      obtain ⟨_, s₂, -, run⟩ := bind_ok run
      cases run
      rw [← same]
      rfl
    | neg =>
      obtain ⟨_, s₂, -, run⟩ := bind_ok run
      obtain ⟨_, s₃, -, run⟩ := bind_ok run
      cases run
      rw [← same]
      rfl
  | binary p op l r ihl ihr =>
    intro env s s' e' run
    simp only [infer] at run
    obtain ⟨l', s₁, runL, run⟩ := bind_ok run
    obtain ⟨r', s₂, runR, run⟩ := bind_ok run
    obtain ⟨t, s₃, -, run⟩ := bind_ok run
    cases run
    rw [← ihl runL, ← ihr runR]
    rfl
  | cond p c t e ihc iht ihe =>
    intro env s s' e' run
    simp only [infer] at run
    obtain ⟨c', s₁, runC, run⟩ := bind_ok run
    obtain ⟨_, s₂, -, run⟩ := bind_ok run
    obtain ⟨t', s₃, runT, run⟩ := bind_ok run
    obtain ⟨e', s₄, runE, run⟩ := bind_ok run
    obtain ⟨_, s₅, -, run⟩ := bind_ok run
    cases run
    rw [← ihc runC, ← iht runT, ← ihe runE]
    rfl
  | letIn p name v b ihv ihb =>
    intro env s s' e' run
    simp only [infer] at run
    obtain ⟨v', s₁, runV, run⟩ := bind_ok run
    obtain ⟨t, s₂, -, run⟩ := bind_ok run
    obtain ⟨b', s₃, runB, run⟩ := bind_ok run
    cases run
    rw [← ihv runV, ← ihb runB]
    rfl
  | letRec p name fp params fb b ihf ihb =>
    intro env s s' e' run
    simp only [infer] at run
    obtain ⟨self, s₁, -, run⟩ := bind_ok run
    obtain ⟨⟨ps, inner⟩, s₂, -, run⟩ := bind_ok run
    obtain ⟨fb', s₃, runF, run⟩ := bind_ok run
    obtain ⟨_, s₄, -, run⟩ := bind_ok run
    obtain ⟨t, s₅, -, run⟩ := bind_ok run
    obtain ⟨b', s₆, runB, run⟩ := bind_ok run
    cases run
    rw [← ihf runF, ← ihb runB]
    rfl
  | lambda p params b ih =>
    intro env s s' e' run
    simp only [infer] at run
    obtain ⟨⟨ps, inner⟩, s₁, -, run⟩ := bind_ok run
    obtain ⟨b', s₂, runB, run⟩ := bind_ok run
    cases run
    rw [← ih runB]
    rfl
  | apply p c args ihc ih =>
    intro env s s' e' run
    simp only [infer] at run
    obtain ⟨c', s₁, runC, run⟩ := bind_ok run
    obtain ⟨⟨t, args'⟩, s₂, runA, run⟩ := bind_ok run
    obtain ⟨_, s₃, -, run⟩ := bind_ok run
    cases run
    have same := mapAll_position (inferArgs_faithful ih runA)
    simp only [Expr.erase, Expr.mapNotes, same]
    exact congrArg (fun c => Expr.apply p c args) (ihc runC)
  | sequence p es ih =>
    intro env s s' e' run
    simp only [infer] at run
    obtain ⟨es', s₁, runE, run⟩ := bind_ok run
    cases run
    have same := mapAll_position (inferAll_faithful ih runE)
    simp only [Expr.erase, Expr.mapNotes, same]
  | print p e ih =>
    intro env s s' e' run
    simp only [infer] at run
    obtain ⟨e₁, s₁, runE, run⟩ := bind_ok run
    cases run
    rw [← ih runE]
    rfl
  | list p es ih =>
    intro env s s' e' run
    simp only [infer] at run
    obtain ⟨elem, s₁, -, run⟩ := bind_ok run
    obtain ⟨es', s₂, runE, run⟩ := bind_ok run
    cases run
    have same := mapAll_position (inferElems_faithful ih runE)
    simp only [Expr.erase, Expr.mapNotes, same]
  | cons p h t ihh iht =>
    intro env s s' e' run
    simp only [infer] at run
    obtain ⟨h', s₁, runH, run⟩ := bind_ok run
    obtain ⟨t', s₂, runT, run⟩ := bind_ok run
    obtain ⟨_, s₃, -, run⟩ := bind_ok run
    cases run
    rw [← ihh runH, ← iht runT]
    rfl
  | matchOn p e arms ihe ih =>
    intro env s s' e' run
    simp only [infer] at run
    obtain ⟨e₁, s₁, runE, run⟩ := bind_ok run
    split at run
    · obtain ⟨_, _, failed, -⟩ := bind_ok run
      exact (not_refuse_ok failed).elim
    · obtain ⟨result, s₂, -, run⟩ := bind_ok run
      obtain ⟨arms', s₃, runA, run⟩ := bind_ok run
      cases run
      have same := inferArms_faithful ih runA
      simp only [Expr.erase, Expr.mapNotes, Expr.mapArms_eq, same, List.reverse_nil, List.map_nil,
        List.nil_append]
      exact congrArg (fun e => Expr.matchOn p e arms) (ihe runE)
  | tag p name =>
    intro env s s' e' run
    simp only [infer] at run
    obtain ⟨c, s₁, -, run⟩ := bind_ok run
    obtain ⟨ct, s₂, -, run⟩ := bind_ok run
    split at run
    · obtain ⟨_, _, failed, -⟩ := bind_ok run
      exact (not_refuse_ok failed).elim
    · cases run
      rfl
  | build p name e ih =>
    intro env s s' e' run
    simp only [infer] at run
    obtain ⟨c, s₁, -, run⟩ := bind_ok run
    obtain ⟨ct, s₂, -, run⟩ := bind_ok run
    split at run
    · obtain ⟨_, _, failed, -⟩ := bind_ok run
      exact (not_refuse_ok failed).elim
    · obtain ⟨e₁, s₃, runE, run⟩ := bind_ok run
      obtain ⟨result, s₄, -, run⟩ := bind_ok run
      obtain ⟨_, s₅, -, run⟩ := bind_ok run
      cases run
      rw [← ih runE]
      rfl
  | hostCall p o m args ih =>
    intro env s s' e' run
    simp only [infer] at run
    obtain ⟨args', s₁, runA, run⟩ := bind_ok run
    obtain ⟨n, s₂, runN, run⟩ := bind_ok run
    cases run
    have same := mapAll_position (inferAll_faithful ih runA)
    simp only [Expr.erase, Expr.mapNotes, same, hostMember_position runN]
  | hostMethod p r m args ihr ih =>
    intro env s s' e' run
    simp only [infer] at run
    obtain ⟨r', s₁, runR, run⟩ := bind_ok run
    obtain ⟨t, s₂, -, run⟩ := bind_ok run
    cases found : Host.ownerOf? t with
    | none =>
      simp only [found] at run
      exact (not_refuse_ok run).elim
    | some owner =>
      simp only [found] at run
      obtain ⟨args', s₃, runA, run⟩ := bind_ok run
      obtain ⟨n, s₄, runN, run⟩ := bind_ok run
      cases run
      have same := mapAll_position (inferAll_faithful ih runA)
      simp only [Expr.erase, Expr.mapNotes, same, hostMember_position runN]
      exact congrArg (fun r => Expr.hostMethod p r m args) (ihr runR)
  | hostField p o name | hostNew p o =>
    intro env s s' e' run
    simp only [infer] at run
    obtain ⟨n, s₁, runN, run⟩ := bind_ok run
    cases run
    simp only [Expr.erase, Expr.mapNotes, hostMember_position runN]

/-! ### Declarations -/

/-- A declaration without its types. -/
def eraseDecl : Decl Typed → Decl Position
  | .fn d => .fn { d with note := d.note.position, body := d.body.erase }
  | .value d => .value { d with note := d.note.position, value := d.value.erase }
  | .type d => .type { d with note := d.note.position }

theorem inferFunction_faithful {d : FnDecl Position} {F : Function}
    (run : inferFunction host env d s = .ok F s') : eraseDecl (.fn F.decl) = .fn d := by
  unfold inferFunction at run
  obtain ⟨self, s₁, -, run⟩ := bind_ok run
  obtain ⟨⟨ps, inner, m⟩, s₂, -, run⟩ := bind_ok run
  obtain ⟨body, s₃, runB, run⟩ := bind_ok run
  have same := infer_faithful d.body runB
  have made : ∃ t u, F = ⟨⟨⟨d.note, t, none⟩, d.name, d.params, d.result, body⟩, u⟩ := by
    cases annotated : d.result with
    | some t =>
      simp only [annotated] at run
      obtain ⟨_, s₄, -, run⟩ := bind_ok run
      obtain ⟨_, s₅, -, run⟩ := bind_ok run
      obtain ⟨_, s₆, -, run⟩ := bind_ok run
      obtain ⟨u, s₇, -, run⟩ := bind_ok run
      cases run
      exact ⟨_, _, rfl⟩
    | none =>
      simp only [annotated] at run
      obtain ⟨_, s₄, -, run⟩ := bind_ok run
      obtain ⟨u, s₅, -, run⟩ := bind_ok run
      cases run
      exact ⟨_, _, rfl⟩
  obtain ⟨t, u, rfl⟩ := made
  simp only [eraseDecl, same]

theorem erase_mapNotes (f : Typed → Typed) (keep : ∀ n, (f n).position = n.position)
    (e : Expr Typed) : (e.mapNotes f).erase = e.erase := by
  rw [Expr.erase, Expr.mapNotes_mapNotes]
  exact Expr.mapNotes_congr fun n _ => keep n

theorem eraseDecl_mapDecl (f : Typed → Typed) (keep : ∀ n, (f n).position = n.position)
    (d : Decl Typed) : eraseDecl (mapDecl f d) = eraseDecl d := by
  cases d <;> simp [mapDecl, eraseDecl, keep, erase_mapNotes]

end Typing
end StackML
