import StackML.Proofs.Codegen.Match

/-!
Code that does what the evaluator does. `Realizes` says it of one run of generation, and such runs
are put together as their pieces of code are; `Carries` says it of every run for an expression.
-/

namespace StackML.Codegen

open Machine Semantics
open Typing (Typed)

structure Scene where
  module : String
  ctx : Context
  table : List (String × HolderClass)
  setting : Setting module ctx
  known : Describes table ctx.checked.ctors

/-- The values of a type among the constructors of the scene. -/
def Scene.HasType (σ : Scene) (t : Ty) (v : Value) : Prop :=
  Semantics.HasType σ.table σ.ctx.checked.ctors v t

theorem Scene.HasType.fits {σ : Scene} {t : Ty} {v : Value} (h : σ.HasType t v) : Fits t.rep v :=
  Codegen.HasType.fits σ.known h

variable {σ : Scene} {Γ : Typing.Context} {bound : List String} {env : NameMap Value}
variable {site : Site} {ip : Nat} {L L' S : List Word} {out : List Text} {v : Value}
variable {s s' s₁ s₂ s₃ : State} {code a b c : Fragment} {n : Typed} {e : Expr Typed}

structure Ready (σ : Scene) (Γ : Typing.Context) (bound : List String) (env : NameMap Value)
    (L : List Word) (s : State) : Prop where
  pool : s.pool.Plain σ.module
  shelters : Shelters s.locals L env
  typed : EnvFits σ.table σ.ctx.checked.ctors {} Γ bound env

theorem Ready.after (h : Ready σ Γ bound env L s) (settles : Settles σ.module s s')
    (keeps : Keeps s.locals.next L L') : Ready σ Γ bound env L' s' :=
  ⟨settles.plain h.pool, (h.shelters.keeps keeps).of_entries settles.entries settles.next, h.typed⟩

/-! ### Runs of generation -/

structure Realizes {A : Type} (σ : Scene) (Γ : Typing.Context) (bound : List String) (s : State)
    (code : Fragment) (s' : State) (x : NameMap Value → Eval A) (push : A → List Word)
    (P : A → Prop) : Prop where
  settles : Settles σ.module s s'
  follows : ∀ {site ip L S out env}, Hosts σ.ctx σ.table site → Ready σ Γ bound env L s →
    Placed site ip code s' L → Follows site ⟨ip, L, S, out⟩ (x env) fun r w =>
      Leaves (ip + code.size) s.locals.next L (push r ++ S) w ∧ P r

namespace Realizes

variable {A B : Type} {x : NameMap Value → Eval A} {push push' : A → List Word} {P : A → Prop}
  {y : NameMap Value → Eval B} {pushB : B → List Word} {Q : B → Prop}

theorem value {r : A} (settles : Settles σ.module s s')
    (leads : ∀ {site ip L S out}, Hosts σ.ctx σ.table site → s.pool.Plain σ.module →
      Placed site ip code s' L →
      Leads site ⟨ip, L, S, out⟩ ⟨ip + code.size, L, push r ++ S, out⟩) (known : P r) :
    Realizes σ Γ bound s code s' (fun _ => pure r) push P :=
  ⟨settles, fun hosts ready placed =>
    .leads (leads hosts ready.pool placed) rfl (.pure ⟨⟨rfl, .refl _ _, rfl⟩, known⟩)⟩

theorem of_eq {x' : NameMap Value → Eval A} (h : Realizes σ Γ bound s code s' x' push P)
    (same : ∀ env, x env = x' env) : Realizes σ Γ bound s code s' x push P := by
  rwa [funext same]

theorem yields {R : A → Prop} (h : Realizes σ Γ bound s code s' x push P)
    (yields : ∀ env, EnvFits σ.table σ.ctx.checked.ctors {} Γ bound env → Yields R (x env)) :
    Realizes σ Γ bound s code s' x push R :=
  ⟨h.settles, fun {_ _ _ _ _ env} hosts ready placed =>
    ((h.follows hosts ready placed).yields (yields env ready.typed)).mono
      fun _ _ ⟨⟨leaves, _⟩, known⟩ => ⟨leaves, known⟩⟩

theorem before (first : Settles σ.module s s₁) (h : Realizes σ Γ bound s₁ code s' x push P) :
    Realizes σ Γ bound s code s' x push P := by
  refine ⟨first.trans h.settles, fun {site ip L S out env} hosts ready placed => ?_⟩
  rw [← first.next]
  exact h.follows hosts (ready.after first (.refl _ L)) placed

theorem andThen {f : A → Eval B} (h : Realizes σ Γ bound s a s₁ x push P)
    (settles : Settles σ.module s₁ s₂)
    (each : ∀ {site ip L S out r}, P r → Hosts σ.ctx σ.table site → s₁.pool.Plain σ.module →
      Placed site ip b s₂ L → Follows site ⟨ip, L, push r ++ S, out⟩ (f r) fun r w =>
        Leaves (ip + b.size) s₁.locals.next L (pushB r ++ S) w ∧ Q r) :
    Realizes σ Γ bound s (a ++ b) s₂ (fun env => x env >>= f) pushB Q := by
  refine ⟨h.settles.trans settles, fun hosts ready placed => ?_⟩
  have pool := h.settles.plain ready.pool
  refine (h.follows hosts ready (placed.left settles.toGrows pool)).bind ?_
  rintro r ⟨_, L', _, out'⟩ ⟨⟨rfl, keeps, rfl⟩, known⟩
  refine (each known hosts pool (placed.right keeps)).mono ?_
  rintro q w ⟨leaves, known⟩
  rw [h.settles.next] at leaves
  refine ⟨⟨?_, keeps.trans leaves.locals, leaves.operands⟩, known⟩
  rw [leaves.ip, Fragment.size_append, Nat.add_assoc]

theorem operate {f : A → Eval B} (h : Realizes σ Γ bound s a s₁ x push P)
    (settles : Settles σ.module s₁ s₂)
    (each : ∀ {site ip L S out r}, P r → Hosts σ.ctx σ.table site → s₁.pool.Plain σ.module →
      Placed site ip b s₂ L → Follows site ⟨ip, L, push r ++ S, out⟩ (f r) fun r =>
        Leaves (ip + b.size) s₁.locals.next L (pushB r ++ S)) :
    Realizes σ Γ bound s (a ++ b) s₂ (fun env => x env >>= f) pushB fun _ => True :=
  h.andThen settles fun known hosts pool placed =>
    (each known hosts pool placed).mono fun _ _ leaves => ⟨leaves, trivial⟩

theorem convert (h : Realizes σ Γ bound s a s₁ x push P)
    (each : ∀ {site ip L S out r}, P r → Hosts σ.ctx σ.table site → Placed site ip b s₁ L →
      Leads site ⟨ip, L, push r ++ S, out⟩ ⟨ip + b.size, L, push' r ++ S, out⟩) :
    Realizes σ Γ bound s (a ++ b) s₁ x push' P :=
  (h.andThen (f := pure) (.refl s₁) fun known hosts _ placed =>
    .leads (each known hosts placed) rfl (.pure ⟨⟨rfl, .refl _ _, rfl⟩, known⟩)).of_eq
      fun env => (bind_pure (x env)).symm

theorem pair (h : Realizes σ Γ bound s a s₁ x push P) (k : Realizes σ Γ bound s₁ b s₂ y pushB Q) :
    Realizes σ Γ bound s (a ++ b) s₂
      (fun env => x env >>= fun r => y env >>= fun q => pure (r, q))
      (fun r => pushB r.2 ++ push r.1) fun r => P r.1 ∧ Q r.2 := by
  refine ⟨h.settles.trans k.settles, fun {site ip L S out env} hosts ready placed => ?_⟩
  have pool := h.settles.plain ready.pool
  refine (h.follows hosts ready (placed.left k.settles.toGrows pool)).bind ?_
  rintro r ⟨_, L', _, out'⟩ ⟨⟨rfl, keeps, rfl⟩, known⟩
  refine (k.follows hosts (ready.after h.settles keeps) (placed.right keeps)).bind ?_
  rintro q ⟨_, L'', _, out''⟩ ⟨⟨rfl, keeps', rfl⟩, known'⟩
  rw [h.settles.next] at keeps'
  refine .pure ⟨⟨?_, keeps.trans keeps', by simp⟩, known, known'⟩
  rw [Fragment.size_append, Nat.add_assoc]

theorem next (h : Realizes σ Γ bound s a s₁ x (fun _ => []) P)
    (k : Realizes σ Γ bound s₁ b s₂ y pushB Q) :
    Realizes σ Γ bound s (a ++ b) s₂ (fun env => x env >>= fun _ => y env) pushB Q := by
  have both : Realizes σ Γ bound s (a ++ b ++ []) s₂ _ pushB Q :=
    (h.pair k).andThen (f := fun r => pure r.2) (.refl s₂) fun known _ _ _ =>
      .pure ⟨⟨rfl, .refl _ _, by simp⟩, known.2⟩
  rw [List.append_nil] at both
  exact both.of_eq fun env => by simp

end Realizes

/-! ### Nodes -/

def Types (σ : Scene) (Γ : Typing.Context) (bound : List String) (e : Expr Typed) : Prop :=
  ∀ env, EnvFits σ.table σ.ctx.checked.ctors {} Γ bound env →
    Yields (σ.HasType e.note.type) (eval σ.table env e)

def Carries (σ : Scene) (Γ : Typing.Context) (bound : List String) (e : Expr Typed) : Prop :=
  ∀ ⦃s code s'⦄, Scoped bound s.locals → expr σ.ctx e s = .ok code s' →
    Realizes σ Γ bound s code s' (fun env => eval σ.table env e) (words e.note.type.rep)
      (σ.HasType e.note.type)

theorem Carries.of_body {body : Gen Fragment} {r : Rep} (typed : Types σ Γ bound e)
    (same : expr σ.ctx e = (atLine e.note >>= fun _ => body)) (rep : e.note.type.rep = r)
    (each : ∀ {s code s'}, Scoped bound s.locals → body s = .ok code s' →
      Realizes σ Γ bound s code s' (fun env => eval σ.table env e) (words r) fun _ => True) :
    Carries σ Γ bound e := by
  intro s code s' visible run
  rw [same] at run
  obtain ⟨_, s₁, runL, run⟩ := bind_ok run
  have first : Settles σ.module s s₁ := atLine_settles runL
  rw [rep]
  exact ((each (visible.of_entries first.entries) run).before first).yields typed

theorem Carries.leavesScope (h : Carries σ Γ bound e) : LeavesScope σ.module σ.ctx bound e :=
  fun _ _ _ visible run => (h visible run).settles

theorem repOf_eq {r : Rep} (run : repOf σ.ctx n s = .ok r s') : n.type.rep = r ∧ s = s' := by
  obtain ⟨rep, rfl⟩ := repOf_ok run
  rw [σ.setting.typeOf_eq] at rep
  exact ⟨(Rep.eq_rep_of_ofTy rep).symm, rfl⟩

theorem Carries.asRep (h : Carries σ Γ bound e) {target : Rep}
    (fits : ∀ v, σ.HasType e.note.type v → Fits target v) (visible : Scoped bound s.locals)
    (run : asRep σ.ctx e.note target (expr σ.ctx e) s = .ok code s') :
    Realizes σ Γ bound s code s' (fun env => eval σ.table env e) (words target)
      (σ.HasType e.note.type) := by
  obtain ⟨r, c, co, rep, runE, runC, rfl⟩ := asRep_ok run
  rw [σ.setting.typeOf_eq] at rep
  obtain rfl := Rep.eq_rep_of_ofTy rep
  exact (h visible runE).convert fun typed _ placed =>
    coerce_leads typed.fits (fits _ typed) runC placed.located

theorem Carries.boxed (h : Carries σ Γ bound e) (visible : Scoped bound s.locals)
    (run : Codegen.asRep σ.ctx e.note .ref (expr σ.ctx e) s = .ok code s') :
    Realizes σ Γ bound s code s' (fun env => eval σ.table env e) (words .ref)
      (σ.HasType e.note.type) :=
  h.asRep (fun v _ => .ref v) visible run

end StackML.Codegen
