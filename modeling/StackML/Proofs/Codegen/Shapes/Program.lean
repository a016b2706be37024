import StackML.Proofs.Codegen.Making.Program
import StackML.Proofs.Codegen.Shapes.Expressions

/-!
The methods of a compiled module are verified. What is queued follows the typing rules, at what stands for
the variables of the function; so does all that its body calls for, and the queue never comes to anything
else.
-/

namespace StackML

theorem Method.Verifies.shown {payload : Constant → Option Bool} {constants : Array Constant} {m : Method}
    (h : m.Verifies payload constants) (function signature : Text) :
    Method.Verifies payload constants { m with function, signature } := by
  obtain ⟨room, locals, small, verified⟩ := h
  refine ⟨room, locals, small, fun K later room short => ?_⟩
  obtain ⟨s, shapes, parsed, entry, returns, goes⟩ := verified K later room short
  exact ⟨s, shapes, parsed, entry, fun offset op has => returns offset op ⟨has.1, has.2⟩,
    fun offset op has => goes offset op ⟨has.1, has.2⟩⟩

namespace Codegen

open Fragment Verify
open Typing (Typed Checked)

/-- The expression follows the typing rules in some scope that has those names in front. -/
def Context.Allows (ctx : Context) (names : List String) (host : Host.Resolver) (e : Expr Typed) : Prop :=
  ∃ θ Γ, Assignment.Kinded θ ∧ ctx.Admits names host θ Γ e

structure Specialization.Lawful (host : Host.Resolver) (c : Checked) (f : Specialization) : Prop where
  legible : f.type.isLegible
  body : Context.Allows { checked := c, mapping := f.mapping } (f.fn.decl.params.map (·.name)) host f.fn.decl.body

structure Outset (host : Host.Resolver) (c : Checked) : Prop where
  uses : ∀ {name t}, t ∈ c.usesOf name → t.Regular
  own : ∀ {key F}, c.functions.get? key = some F → F.isPolymorphic = false →
    Specialization.Lawful host c { fn := F, name := F.decl.name, type := F.type }
  unused : ∀ {key F}, c.functions.get? key = some F → F.isPolymorphic = true →
    Specialization.Lawful host c (defaulted F)
  values : ∀ {d}, .value d ∈ c.module.decls →
    (c.values.get? d.name).getD d.note.type = d.value.note.type ∧ d.value.note.type.isLegible ∧
      Context.Allows { checked := c } [] host d.value
  main : ∀ {e}, c.module.main = some e →
    (c.main.getD e.note.type).isLegible ∧ Context.Allows { checked := c } [] host e

section

variable {α β : Type} {payload : Constant → Option Bool} {host : Host.Resolver} {c : Checked} {w : Place}
  {s s' : State}

theorem compiles_allowed {names : List String} {e : Expr Typed} (plain : HostPlain host) (supported : w.Supported)
    (allows : w.ctx.Allows names host e) (same : w.names = names) : Compiles w e := by
  obtain ⟨θ, Γ, kinded, admits⟩ := allows
  subst same
  exact produces_expr plain kinded supported admits

/-! ### Functions -/

theorem at_typed {params : List Param} {types : List Ty} {u : Unit} (at_ : w.At s)
    (lengths : types.length = params.length) (run : defineTyped params types s = .ok u s') :
    ∃ reps : List Rep, types.map Rep.ofTy = reps.map .ok ∧
      ({ w with names := (params.map (·.name)).reverse ++ w.names
                cells := w.cells ++ reps.flatMap Rep.cells } : Place).At s' := by
  induction params generalizing w s types with
  | nil =>
    obtain rfl := List.length_eq_zero_iff.1 lengths
    cases run
    exact ⟨[], rfl, by simpa using at_⟩
  | cons p params ih =>
    cases types with
    | nil => cases lengths
    | cons t types =>
      obtain ⟨r, s₁, runR, run⟩ := bind_ok run
      obtain ⟨rep, rfl⟩ := liftDefect_ok runR
      obtain ⟨l, s₂, runD, run⟩ := bind_ok run
      obtain ⟨reps, each, at'⟩ := ih (at_.param (Rep.ofTy_ne_void rep) runD) (Nat.succ.inj lengths) run
      refine ⟨r :: reps, by rw [List.map_cons, List.map_cons, rep, each], ?_⟩
      simpa only [List.map_cons, List.reverse_cons, List.append_assoc, List.singleton_append, List.flatMap_cons]
        using at'

def Preserves (payload : Constant → Option Bool) (host : Host.Resolver) (c : Checked) (x : Gen α) : Prop :=
  ∀ s a s', s.Good payload (Specialization.Lawful host c) c → x s = .ok a s' →
    s'.Good payload (Specialization.Lawful host c) c

namespace Preserves

variable {x : Gen α}

protected theorem bind {f : α → Gen β} (first : Preserves payload host c x)
    (next : ∀ a, Preserves payload host c (f a)) :
    Preserves payload host c (x >>= f) := by
  intro s b s' good run
  obtain ⟨a, s₁, runX, run⟩ := bind_ok run
  exact next a s₁ b s' (first s a s₁ good runX) run

protected theorem pure (a : α) : Preserves payload host c (pure a) := by
  intro s b s' good run
  obtain ⟨-, rfl⟩ := pure_ok run
  exact good

protected theorem get {f : State → Gen β}
    (next : ∀ s, s.Good payload (Specialization.Lawful host c) c → Preserves payload host c (f s)) :
    Preserves payload host c (get >>= f) := by
  intro s b s' good run
  obtain ⟨_, _, runG, run⟩ := bind_ok run
  cases runG
  exact next s good s b s' good run

protected theorem ite {p : Prop} [Decidable p] {y : Gen α} (yes : p → Preserves payload host c x)
    (no : ¬ p → Preserves payload host c y) : Preserves payload host c (if p then x else y) := by
  split
  · next holds => exact yes holds
  · next fails => exact no fails

theorem failed (d : Defect) {f : α → Gen β} : Preserves payload host c (fail d >>= f) := fun _ _ _ _ run => by
  obtain ⟨_, _, run, _⟩ := bind_ok run
  exact (fail_ok run).elim

theorem lift {y : Except Defect α} {f : α → Gen β} (next : ∀ a, y = .ok a → Preserves payload host c (f a)) :
    Preserves payload host c (liftDefect y >>= f) := by
  intro s b s' good run
  obtain ⟨a, s₁, runL, run⟩ := bind_ok run
  obtain ⟨known, rfl⟩ := liftDefect_ok runL
  exact next a known s b s' good run

theorem forIn {f : β → PUnit → Gen (ForInStep PUnit)} {bs : List β}
    (each : ∀ b ∈ bs, ∀ u, Preserves payload host c (f b u)) (u : PUnit) :
    Preserves payload host c (forIn bs u f) := by
  induction bs generalizing u with
  | nil => exact .pure u
  | cons b bs ih =>
    rw [List.forall_mem_cons] at each
    rw [List.forIn_cons]
    refine (each.1 u).bind fun step => ?_
    cases step with
    | done u => exact .pure u
    | yield u => exact ih each.2 u

theorem of_assembles (method : α → Method) {line : Int}
    (h : Assembles payload (Specialization.Lawful host c) c x method) :
    Preserves payload host c (do addMethod (method (← separately line x))) :=
  fun _ _ _ good run => (h.good good run).2.1

end Preserves

theorem preserves_compileFunction {f : Specialization} (plain : HostPlain host)
    (supported : Supports payload (Specialization.Lawful host c) c) (lawful : f.Lawful host c) (isOf : f.IsOf c) :
    Preserves payload host c (compileFunction c f) := by
  obtain ⟨legible, last⟩ := Ty.isLegible_split lawful.legible f.fn.arity
  let ctx : Context := { checked := c, mapping := f.mapping }
  let names := f.fn.decl.params.map (·.name)
  refine .ite (fun _ => .failed _) fun enough => ?_
  refine .of_assembles (fun m : Method => { m with function := f.fn.decl.name, signature := Signature.render f.type })
    fun s m s' good empty run => ?_
  obtain ⟨_, s₁, runP, run⟩ := bind_ok run
  obtain ⟨descriptor, s₂, runD, run⟩ := bind_ok run
  obtain ⟨written, rfl⟩ := liftDefect_ok runD
  obtain ⟨ret, s₃, runR, run⟩ := bind_ok run
  obtain ⟨result, rfl⟩ := liftDefect_ok runR
  obtain ⟨code, s₄, runB, run⟩ := bind_ok run
  obtain ⟨_, _, runG, run⟩ := bind_ok run
  cases runG
  obtain ⟨rfl, rfl⟩ := pure_ok run
  have begun := begun_typed (.start empty) runP
  have start : ({ payload, promise := Specialization.Lawful host c, ctx } : Place).At s := .start good empty nofun
  obtain ⟨reps, each, at_⟩ := at_typed start (not_not.1 enough) runP
  obtain ⟨reps', r, each', result', parsed⟩ := Descriptor.parse_of_write legible last written
  obtain rfl := map_ok_injective (each.symm.trans each')
  obtain rfl := Except.ok.inj (result.symm.trans result')
  let w : Place :=
    { payload, promise := Specialization.Lawful host c, ctx, names, cells := [] ++ reps.flatMap Rep.cells }
  have named : w.At s₁ := at_.renamed fun x => by simp [names]
  have value : Compiles w f.fn.decl.body := compiles_allowed plain supported lawful.body rfl
  have letters := Descriptor.length_write written
  have next := begun.next
  have most := begun.most
  obtain ⟨keeps, good', laid, verifies⟩ := finished_body f.name named
    (begun.sane (good.sane_of_empty empty)) value runB parsed rfl (List.nil_append _) (by omega) (by omega)
  rw [begun.others] at keeps
  exact ⟨keeps, good', ⟨laid.code, laid.lines⟩, .inr ⟨f, isOf, rfl, rfl, rfl⟩, verifies.shown _ _⟩

/-! ### The initializer and the main expression -/

def Place.outside (payload : Constant → Option Bool) (promise : Promise) (c : Checked) : Place where
  payload := payload
  promise := promise
  ctx := { checked := c }

theorem typeOf_outside (n : Typed) : Context.typeOf { checked := c } n = n.type := by
  have empty : Assignment.ofMapping [] = {} := rfl
  rw [Context.typeOf, Ty.replace_eq_assign, empty, Ty.assign_default]

theorem produces_storeValues {promise : Promise} {decls : List (Decl Typed)} (plain : HostPlain host)
    (supported : Supports payload promise c)
    (allowed : ∀ d, .value d ∈ decls → (c.values.get? d.name).getD d.note.type = d.value.note.type ∧
      d.value.note.type.isLegible ∧ Context.Allows { checked := c } [] host d.value) (done : List Fragment) :
    Produces (.outside payload promise c) (storeValues c done decls) fun K code =>
      (Place.outside payload promise c).Turns K (joinPieces done) [] [] →
        (Place.outside payload promise c).Turns K code [] [] := by
  induction decls generalizing done with
  | nil => exact .pure fun K before => before
  | cons d decls ih =>
    have rest := ih fun d inside => allowed d (List.mem_cons_of_mem _ inside)
    cases d with
    | value d =>
      obtain ⟨type, legible, allows⟩ := allowed d List.mem_cons_self
      have value : Compiles (.outside payload promise c) d.value := compiles_allowed plain supported allows rfl
      refine .modify (fun _ => ⟨rfl, rfl, rfl, List.Subset.refl _⟩) ?_
      dsimp only
      rw [type]
      refine .lift fun descriptor written => .modify (fun _ => ⟨rfl, rfl, rfl, List.Subset.refl _⟩) ?_
      obtain ⟨r, rep, rfl⟩ := Descriptor.ofTy_eq_ok written
      have held := Rep.ofTy_ne_void rep
      have nameable := Ty.nameable_of_isLegible legible
      refine value.bind fun code => Produces.bind (P := fun K code =>
          (Place.outside payload promise c).Turns K code r.kinds [])
        (produces_emitConst (.field d.name _ r held nameable) rfl rfl fun rest => ?_) fun put =>
          (rest _).mono fun K whole after put leaves before => after ?_
      · simp only [effect, Option.bind_some, Constant.field?_item held nameable, Option.bind_eq_bind]
        exact exchange_append _ _ rest _
      · refine turns_piece before ((leaves.turns ?_).append put)
        rw [← rep]
        exact congrArg _ (typeOf_outside _)
    | _ => exact rest done

theorem preserves_compileInitializer (plain : HostPlain host)
    (supported : Supports payload (Specialization.Lawful host c) c) (outset : Outset host c) :
    Preserves payload host c (compileInitializer c) := by
  refine .ite (fun _ => ?_) fun _ => .pure _
  refine .of_assembles (x := do
      let code ← storeValues c [] c.module.decls
      let code := code ++ (← emit .vreturn)
      pure (code, (← get).locals.max)) (fun made => methodOf Names.initializer "()V" made.2 made.1)
    fun s made s' good empty run => ?_
  obtain ⟨code, s₁, runS, run⟩ := bind_ok run
  obtain ⟨last, s₂, runL, run⟩ := bind_ok run
  obtain ⟨_, _, runG, run⟩ := bind_ok run
  cases runG
  obtain ⟨rfl, rfl⟩ := pure_ok run
  have whole : (do
      let code ← storeValues c [] c.module.decls
      pure (code ++ (← emit .vreturn))) s = .ok (code ++ last) s' := by
    rw [bind_of_ok runS, bind_of_ok runL]
    rfl
  obtain ⟨rfl, rfl⟩ := emit_ok runL
  obtain ⟨makes, built⟩ := (emits_initializer c).run (good.sane_of_empty empty) (Nat.zero_le _) whole
  have start : (Place.outside payload (Specialization.Lawful host c) c).At s := .start good empty nofun
  obtain ⟨at', -, turns⟩ := produces_storeValues plain supported (fun d => outset.values) [] s code s₁ start runS
  have next : s.locals.next ≤ 0 := by rw [empty]
  have most : s.locals.max ≤ 0 := by rw [empty]
  refine ⟨makes.keeps, at'.good, laid_body makes built (Nat.le_trans next (Nat.zero_le _))
    (Nat.le_trans most (Nat.zero_le _)), titled_methodOf,
    s₁.locals.max, rfl, ?_, fun K later room short => ?_⟩
  · have small := makes.small next most
    rw [Nat.zero_add] at small
    rw [bytes_methodOf, List.size_toArray, length_bytesOf]
    exact Nat.le_trans small (Nat.le_add_left _ _)
  · rw [bytes_methodOf, List.size_toArray, length_bytesOf] at short
    obtain ⟨⟨body, last, same, closed, returns⟩, -⟩ := built
    have near : Near (body ++ [last]) := Method.near_of_short (same ▸ makes.fits) closed returns (same ▸ short)
    have leads := turns K ⟨later, room⟩ (.refl []) []
    exact Method.verified_of_leads (s := ⟨[], .void⟩) (bytes_methodOf _ _ _ _) rfl leads (.none rfl) rfl rfl
      (same ▸ near)

theorem preserves_compileMain {e : Expr Typed} (plain : HostPlain host)
    (supported : Supports payload (Specialization.Lawful host c) c) (legible : (c.main.getD e.note.type).isLegible)
    (allows : Context.Allows { checked := c } [] host e) : Preserves payload host c (compileMain c e) := by
  refine .lift fun descriptor written => .lift fun ret result => ?_
  obtain ⟨reps, r, params, result', parsed⟩ := Descriptor.parse_of_write (List.forall_mem_nil _) legible written
  obtain rfl := Except.ok.inj (result.symm.trans result')
  obtain rfl : reps = [] := List.map_eq_nil_iff.1 params.symm
  refine .of_assembles (x := do
      let code ← bodyCode { checked := c } e.note ret (expr { checked := c } e)
      pure (code, (← get).locals.max)) (fun made => methodOf Names.entry descriptor made.2 made.1)
    fun s made s' good empty run => ?_
  obtain ⟨code, s₁, runB, run⟩ := bind_ok run
  obtain ⟨_, _, runG, run⟩ := bind_ok run
  cases runG
  obtain ⟨rfl, rfl⟩ := pure_ok run
  have start : (Place.outside payload (Specialization.Lawful host c) c).At s := .start good empty nofun
  have next : s.locals.next ≤ 0 := by rw [empty]
  have most : s.locals.max ≤ 0 := by rw [empty]
  obtain ⟨keeps, good', laid, verifies⟩ := finished_body Names.entry start (good.sane_of_empty empty)
    (compiles_allowed plain supported allows rfl) runB parsed rfl rfl (Nat.le_trans next (Nat.zero_le _))
    (Nat.le_trans most (Nat.zero_le _))
  exact ⟨keeps, good', laid, titled_methodOf, verifies⟩

/-! ### The queue -/

theorem preserves_enqueue {f : Specialization} (isOf : f.IsOf c) (lawful : f.Lawful host c) :
    Preserves payload host c (enqueue f) := fun _ _ _ good run => (good.enqueue isOf lawful run).1

theorem preserves_specialize {key : String} {F : Typing.Function} {t : Ty}
    (supported : Supports payload (Specialization.Lawful host c) c) (found : c.functions.get? key = some F)
    (regular : t.Regular) : Preserves payload host c (specialize F t) := by
  intro s made s' good run
  obtain ⟨m, matched, type, name, s₁, idle, queued⟩ := specialize_ok run
  obtain ⟨-, promised⟩ := supported.promised found regular matched
  have isOf : Specialization.IsOf ⟨F, made.1, made.2, withDefaults F.type.body m⟩ c :=
    ⟨⟨key, found⟩, .inr ⟨_, type, name⟩⟩
  exact ((good.idle idle).enqueue isOf (type ▸ promised made.1) queued).1

theorem preserves_prepare (plain : HostPlain host) (supported : Supports payload (Specialization.Lawful host c) c)
    (outset : Outset host c) : Preserves payload host c (prepare c) := by
  have queued : ∀ F ∈ ordered c, Preserves payload host c (queueFunction c F) := by
    intro F member
    obtain ⟨key, found⟩ := get?_of_mem_ordered member
    refine .ite (fun _ => ?_) fun single => ?_
    · exact (Preserves.forIn (fun t inside _ =>
        (preserves_specialize supported found (outset.uses inside)).bind fun _ => .pure _) _).bind fun _ => .pure _
    · have own := outset.own found (Bool.eq_false_iff.2 single)
      exact preserves_enqueue ⟨⟨key, found⟩, .inl rfl⟩ own
  refine (Preserves.forIn (fun F member _ => (queued F member).bind fun _ => .pure _) _).bind fun _ =>
    (preserves_compileInitializer plain supported outset).bind fun _ => ?_
  split
  · next e main =>
    obtain ⟨legible, allows⟩ := outset.main main
    exact preserves_compileMain plain supported legible allows
  · exact .pure _

theorem preserves_drain (plain : HostPlain host) (supported : Supports payload (Specialization.Lawful host c) c)
    (outset : Outset host c) (steps : Nat) : Preserves payload host c (drain c steps) := by
  induction steps with
  | zero => exact fun _ _ _ _ run => (fail_ok run).elim
  | succ steps ih =>
    refine .get fun s good => ?_
    split
    · next f rest work =>
      have waiting := work ▸ good.sane.work
      have lawful := work ▸ good.work
      rw [List.forall_mem_cons] at waiting lawful
      have taken : Preserves payload host c (modify fun st => { st with work := rest }) := by
        intro s₁ _ s₂ good₁ run
        cases run
        exact ⟨{ good₁.sane with work := waiting.2 }, good₁.pool, good₁.methods, lawful.2⟩
      exact taken.bind fun _ => (preserves_compileFunction plain supported lawful.1 waiting.1).bind fun _ => ih
    · refine .get fun s' _ => ?_
      split
      · exact .pure _
      · refine (Preserves.forIn (fun F member _ => ?_) _).bind fun _ => ih
        obtain ⟨listed, which⟩ := List.mem_filter.1 member
        obtain ⟨key, found⟩ := get?_of_mem_ordered listed
        have polymorphic : F.isPolymorphic = true := by
          simp only [Bool.and_eq_true] at which
          exact which.1.1
        have unused := outset.unused found polymorphic
        exact (preserves_enqueue ⟨⟨key, found⟩, .inl rfl⟩ unused).bind fun _ => .pure _

theorem good_start (payload : Constant → Option Bool) (promise : Promise) (c : Checked) :
    State.Good payload promise c {} := by
  refine ⟨sane_start c, ?_, List.forall_mem_nil _, List.forall_mem_nil _⟩
  exact Pool.holds_empty _

/-- All methods of the artifacts of a module are verified, if they are not too large. -/
theorem verifies_of_compile {artifacts : List Artifact} (plain : HostPlain host)
    (supported : Supports payload (Specialization.Lawful host c) c) (outset : Outset host c)
    (ok : (compile c).result = .ok artifacts) :
    ∀ a ∈ artifacts, ∀ m ∈ a.methods, m.Verifies payload a.constants := by
  unfold compile at ok
  split at ok
  · next run =>
    cases ok
    obtain ⟨_, s₁, runP, run⟩ := bind_ok run
    obtain ⟨_, s₂, runD, run⟩ := bind_ok run
    obtain ⟨_, _, runG, run⟩ := bind_ok run
    cases runG
    obtain ⟨rfl, rfl⟩ := pure_ok run
    have good := preserves_drain plain supported outset _ s₁ _ _
      (preserves_prepare plain supported outset _ _ s₁ (good_start _ _ _) runP) runD
    intro a listed m inside
    rcases List.mem_cons.1 listed with rfl | holder
    · exact good.methods m (List.mem_reverse.1 inside)
    · rw [methods_of_mem_holders holder] at inside
      cases inside
  · cases ok

end

end Codegen
end StackML
