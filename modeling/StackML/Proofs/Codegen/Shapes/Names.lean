import StackML.Proofs.Codegen.Making.Names
import StackML.Proofs.Codegen.Shapes.Basic
import StackML.Proofs.Ty.Legible
import StackML.Proofs.Ty.Suffix

/-!
The code of names as values and as callees. A name that stands for a function, a constructor or `print`
leaves a reference; everything else is converted to what its use calls for. The end of a direct call takes
the values of its parameters.
-/

namespace StackML

open Verify
open Descriptor (Nameable)

/-! ### Names and descriptors -/

theorem distinct_specializedName {name : String} (named : Distinct name) (t : Ty) (arity : Nat) :
    Distinct (t.specializedName name arity) := by
  have separator : Distinct Ty.suffixSeparator := by constructor <;> decide
  refine (named.append separator).append ⟨?_, ?_⟩
  · exact Ty.suffix_not_mem (by decide +kernel) (by decide)
  · exact Ty.suffix_not_mem (by decide +kernel) (by decide)

namespace Descriptor

theorem parse_of_write {params : List Ty} {result : Ty} {d : String} (legible : ∀ t ∈ params, t.isLegible)
    (last : result.isLegible) (written : write params result = .ok d) :
    ∃ reps r, params.map Rep.ofTy = reps.map .ok ∧ Rep.ofResult result = .ok r ∧
      parse d = .ok ⟨reps, r⟩ := by
  have nameable : ∀ t ∈ result :: params, Nameable (refName t) := by
    refine List.forall_mem_cons.2 ⟨Ty.nameable_of_isLegible last, fun t member => ?_⟩
    exact Ty.nameable_of_isLegible (legible t member)
  obtain ⟨reps, r, each, rep, describes⟩ := describes_write nameable written
  exact ⟨reps, r, each, rep, parse_eq_ok.2 describes⟩

theorem opens_of_write {params : List Ty} {result : Ty} {d : String} (written : write params result = .ok d) :
    ∃ rest, d = "(" ++ rest := by
  unfold write at written
  cases items : params.mapM ofTy with
  | error e =>
    rw [items] at written
    cases written
  | ok ps =>
    cases last : ofResult result with
    | error e =>
      rw [items, last] at written
      cases written
    | ok l =>
      rw [items, last] at written
      cases written
      exact ⟨_, (String.append_assoc ..).trans (String.append_assoc ..)⟩

end Descriptor

namespace Codegen

open Fragment
open Typing (Typed Checked)

/-! ### What a module must be like -/

def classOf (c : Checked) (info : Typing.Constructor) : Constant where
  kind := .holder
  owner := Text.ofString
    (if info.module != "" then info.module else if info.sum == Names.result then "" else c.module.name)
  name := Text.ofString info.name

structure Builds (payload : Constant → Option Bool) (c : Checked) (key : String)
    (info : Typing.Constructor) : Prop where
  named : Distinct info.name
  sum : Nameable info.sum
  own : '.' ∉ key.toList → info.name = key
  payload : payload (classOf c info) = some info.hasArg
  alone : info.hasArg = false → info.type.body.Boxed
  applied : info.hasArg = true → ∃ a r, info.type.body = .fn a r ∧ r.Boxed

structure Supports (payload : Constant → Option Bool) (promise : Promise) (c : Checked) : Prop where
  named : ∀ {key F}, c.functions.get? key = some F → Distinct F.decl.name ∧ F.type.body.isLegible
  plain : ∀ {key F}, c.functions.get? key = some F → F.isPolymorphic = false → F.type.body = F.type
  arrow : ∀ {key F}, c.functions.get? key = some F → 0 < F.arity → ∃ a b, F.type.body = .fn a b
  values : ∀ {key t}, c.values.get? key = some t → t.isLegible
  ctors : ∀ {key info}, c.ctors.get? key = some info → Builds payload c key info
  promised : ∀ {key F t m}, c.functions.get? key = some F → t.Regular →
    F.type.body.matchWith t [] = (true, m) →
    let type := F.type.body.replace (withDefaults F.type.body m)
    type.isLegible ∧ ∀ name, promise ⟨F, name, type, withDefaults F.type.body m⟩

abbrev Place.Supported (w : Place) : Prop := Supports w.payload w.promise w.ctx.checked

variable {α β : Type} {w : Place} {s s' : State} {Q : Array Constant → β → Prop}

/-! ### Methods of the module -/

theorem named_methodRef {ctx : Context} {name descriptor : String} (named : Distinct name)
    (opens : ∃ rest, descriptor = "(" ++ rest) :
    (methodRef ctx name descriptor).Named ctx.checked.module.name := by
  obtain ⟨rest, rfl⟩ := opens
  exact .method name rest named

theorem produces_invokestatic {name descriptor : String} {sig : Descriptor.Signature} (named : Distinct name)
    (opens : ∃ rest, descriptor = "(" ++ rest) (parsed : Descriptor.parse descriptor = .ok sig) :
    Produces w (emitConst w.ctx .invokestatic (methodRef w.ctx name descriptor)) fun K code =>
      w.Turns K code sig.operands sig.result.kinds := by
  refine produces_emitConst (named_methodRef named opens) rfl rfl fun rest => ?_
  have known : signature? (methodRef w.ctx name descriptor) = some sig := by
    rw [signature?, methodRef, parsed]
    rfl
  simp only [effect, Option.bind_some, known, Option.bind_eq_bind]
  exact exchange_append _ _ rest _

theorem State.Good.enqueue {payload : Constant → Option Bool} {promise : Promise} {c : Checked}
    {f : Specialization} {u : Unit} (good : s.Good payload promise c) (isOf : f.IsOf c)
    (promised : promise f) (run : enqueue f s = .ok u s') :
    s'.Good payload promise c ∧ s'.locals = s.locals ∧ s'.pool = s.pool := by
  cases run
  dsimp only
  split
  · exact ⟨good, rfl, rfl⟩
  · have sane := good.sane
    refine ⟨⟨⟨sane.locals, sane.pool, sane.methods, sane.titled, ?_⟩, good.pool, good.methods, ?_⟩, rfl, rfl⟩
    · exact List.forall_mem_append.2 ⟨sane.work, List.forall_mem_singleton.2 isOf⟩
    · exact List.forall_mem_append.2 ⟨good.work, List.forall_mem_singleton.2 promised⟩

theorem specialize_ok {F : Typing.Function} {t : Ty} {made : String × Ty} (run : specialize F t s = .ok made s') :
    ∃ m, F.type.body.matchWith t [] = (true, m) ∧
      made.2 = F.type.body.replace (withDefaults F.type.body m) ∧
      made.1 = made.2.specializedName F.decl.name F.arity ∧ ∃ s₁, Idle s s₁ ∧
        enqueue ⟨F, made.1, made.2, withDefaults F.type.body m⟩ s₁ = .ok () s' := by
  unfold specialize at run
  cases known : F.type.body.matchWith t [] with
  | mk fits m =>
    simp only [known] at run
    cases fits with
    | false =>
      obtain ⟨_, _, failed, -⟩ := bind_ok run
      exact (fail_ok failed).elim
    | true =>
      obtain ⟨_, s₁, runM, run⟩ := bind_ok run
      obtain ⟨_, s₂, runE, run⟩ := bind_ok run
      obtain ⟨rfl, rfl⟩ := pure_ok run
      refine ⟨m, rfl, rfl, rfl, s₁, ?_, runE⟩
      cases runM
      dsimp only
      split <;> exact ⟨rfl, rfl, rfl, List.Subset.refl _⟩

theorem Place.At.changed (at_ : w.At s) (good : s'.Good w.payload w.promise w.ctx.checked)
    (locals : s'.locals = s.locals) : w.At s' := by
  refine ⟨good, ?_, ?_, ?_, ?_, ?_⟩ <;> rw [locals]
  · exact at_.next
  · exact at_.most
  · exact at_.held
  · exact at_.named
  · exact at_.bound

/-- A method to be called or closed over: it has a name of its own and a type that can be read, which is
that of a function if arguments are taken. -/
theorem Produces.target {key : String} {F : Typing.Function} {t : Ty} {f : String × Ty → Gen β}
    (supported : w.Supported) (found : w.ctx.checked.functions.get? key = some F) (regular : t.Regular)
    (next : ∀ name type, Distinct name → type.isLegible → (0 < F.arity → ∃ a b, type = .fn a b) →
      Produces w (f (name, type)) Q) : Produces w (Codegen.target F t >>= f) Q := by
  obtain ⟨named, legible⟩ := supported.named found
  by_cases polymorphic : F.isPolymorphic = true
  · intro s b s' at_ run
    obtain ⟨made, s₁, runT, run⟩ := bind_ok run
    rw [Codegen.target, if_pos polymorphic] at runT
    obtain ⟨m, matched, type, name, s₀, idle, queued⟩ := specialize_ok runT
    obtain ⟨legible', promised⟩ := supported.promised found regular matched
    have isOf : Specialization.IsOf ⟨F, made.1, made.2, withDefaults F.type.body m⟩ w.ctx.checked :=
      ⟨⟨key, found⟩, .inr ⟨_, type, name⟩⟩
    have start := at_.idle idle
    obtain ⟨good, locals, pool⟩ := start.good.enqueue isOf (type ▸ promised made.1) queued
    have at₁ := start.changed good locals
    have kept : Kept s s₁ := (Kept.of_idle idle).trans
      ⟨pool ▸ .refl _, Nat.le_of_eq (congrArg _ locals.symm), locals ▸ List.suffix_rfl⟩
    have arrow : 0 < F.arity → ∃ a b, made.2 = .fn a b := by
      intro some
      obtain ⟨a, b, body⟩ := supported.arrow found some
      exact ⟨_, _, type.trans (by rw [body]; rfl)⟩
    obtain ⟨at', kept', known⟩ := next made.1 made.2 (name ▸ distinct_specializedName named _ _)
      (type ▸ legible') arrow s₁ b s' at₁ run
    exact ⟨at', kept.trans kept', known⟩
  · have plain := Bool.eq_false_iff.2 polymorphic
    rw [Codegen.target, if_neg polymorphic, pure_bind]
    have whole := supported.plain found plain
    refine next _ _ named (whole ▸ legible) fun some => ?_
    obtain ⟨a, b, arrow⟩ := supported.arrow found some
    exact ⟨a, b, whole.symm.trans arrow⟩

/-! ### Constructors and `print` -/

theorem named_classOf {c : Checked} {info : Typing.Constructor} (named : Distinct info.name) :
    (classOf c info).Named c.module.name := .holder _ info.name named

theorem idle_holderRef {ctx : Context} {name : String} {k : Constant} (run : holderRef ctx name s = .ok k s') :
    Idle s s' ∧ ∃ info, ctx.checked.ctors.get? name = some info ∧ k = classOf ctx.checked info := by
  unfold holderRef at run
  cases found : ctx.checked.ctors.get? name with
  | none =>
    rw [found] at run
    exact (fail_ok run).elim
  | some info =>
    rw [found] at run
    cases run
    exact ⟨.refl s, info, rfl, rfl⟩

theorem Produces.holderRef {name : String} {f : Constant → Gen β}
    (next : ∀ info, w.ctx.checked.ctors.get? name = some info → Produces w (f (classOf w.ctx.checked info)) Q) :
    Produces w (Codegen.holderRef w.ctx name >>= f) Q :=
  .idle _ (fun _ _ _ => idle_holderRef) fun _ known => by
    obtain ⟨info, found, rfl⟩ := known
    exact next info found

theorem produces_new {key : String} {info : Typing.Constructor} (supported : w.Supported)
    (found : w.ctx.checked.ctors.get? key = some info) :
    Produces w (emitConst w.ctx .new (classOf w.ctx.checked info)) fun K code =>
      w.Turns K code (if info.hasArg then [.ref] else []) [.ref] := by
  refine produces_emitConst (named_classOf (supported.ctors found).named) rfl rfl fun rest => ?_
  simp only [effect, Option.bind_some, (supported.ctors found).payload, Option.bind_eq_bind]
  exact exchange_append _ _ rest _

/-! ### Methods made on the way -/

def Returns (payload : Constant → Option Bool) (K : Array Constant) (code : Fragment)
    (sig : Descriptor.Signature) : Prop :=
  ∃ body last cells, code = body ++ [last] ∧ last.Sized ∧ last.op.isReturn = true ∧
    returned? last.op = some sig.result.kinds ∧ Leads payload K body ⟨[], sig.cells⟩ ⟨sig.result.kinds, cells⟩

def Assembles (payload : Constant → Option Bool) (promise : Promise) (c : Checked) (x : Gen α)
    (method : α → Method) : Prop :=
  ∀ s a s', s.Good payload promise c → s.locals = {} → x s = .ok a s' →
    Extends s.pool.entries s'.pool.entries ∧ s'.Good payload promise c ∧
      (method a).Laid c s'.pool.entries ∧ Titled c (method a) ∧ (method a).Verifies payload s'.pool.entries

variable {x : Gen α} {method : α → Method} {line : Int}

theorem Assembles.good {payload : Constant → Option Bool} {promise : Promise} {c : Checked}
    (h : Assembles payload promise c x method) (good : s.Good payload promise c)
    (run : (do addMethod (method (← separately line x)) : Gen Unit) s = .ok () s') :
    Extends s.pool.entries s'.pool.entries ∧ s'.Good payload promise c ∧ s'.locals = s.locals := by
  obtain ⟨a, s₁, apart, run⟩ := bind_ok run
  obtain ⟨s₂, runX, rfl⟩ := separately_ok apart
  cases run
  obtain ⟨keeps, good', laid, titled, verified⟩ := h _ a s₂ (good.within {} line) rfl runX
  have sane := good'.sane
  refine ⟨keeps, ⟨⟨sane.locals, sane.pool, List.forall_mem_cons.2 ⟨laid, sane.methods⟩,
    List.forall_mem_cons.2 ⟨titled, sane.titled⟩, sane.work⟩, good'.pool,
    List.forall_mem_cons.2 ⟨verified, good'.methods⟩, good'.work⟩, rfl⟩

theorem Assembles.at {u : Unit} (h : Assembles w.payload w.promise w.ctx.checked x method) (at_ : w.At s)
    (run : (do addMethod (method (← separately line x)) : Gen Unit) s = .ok u s') : w.At s' ∧ Kept s s' := by
  obtain ⟨keeps, good, locals⟩ := h.good at_.good run
  exact ⟨at_.changed good locals, keeps, Nat.le_of_eq (congrArg _ locals.symm), locals ▸ List.suffix_rfl⟩

theorem Assembles.produces {next : Gen β} (h : Assembles w.payload w.promise w.ctx.checked x method)
    (after : Produces w next Q) : Produces w (do
      addMethod (method (← separately line x))
      next) Q := by
  rw [← bind_assoc]
  intro s b s' at_ run
  obtain ⟨_, s₁, runM, run⟩ := bind_ok run
  obtain ⟨at₁, kept₁⟩ := h.at at_ runM
  obtain ⟨at', kept, known⟩ := after s₁ b s' at₁ run
  exact ⟨at', kept₁.trans kept, known⟩

theorem Produces.factory {name descriptor : String} {code : Gen Fragment} {f : Unit → Gen β}
    (h : Assembles w.payload w.promise w.ctx.checked code (methodOf name descriptor 1))
    (next : Produces w (f ()) Q) : Produces w (addFactory name descriptor code >>= f) Q := by
  intro s b s' at_ run
  obtain ⟨_, s₁, runF, run⟩ := bind_ok run
  suffices made : w.At s₁ ∧ Kept s s₁ by
    obtain ⟨at', kept, known⟩ := next s₁ b s' made.1 run
    exact ⟨at', made.2.trans kept, known⟩
  obtain ⟨_, _, runG, runF⟩ := bind_ok runF
  cases runG
  split at runF
  · cases runF
    exact ⟨at_, .refl s⟩
  · obtain ⟨_, s₂, runM, runF⟩ := bind_ok runF
    have idle : Idle s s₂ := by
      cases runM
      exact ⟨rfl, rfl, rfl, List.Subset.refl _⟩
    obtain ⟨at₁, kept⟩ := h.at (at_.idle idle) runF
    exact ⟨at₁, (Kept.of_idle idle).trans kept⟩

theorem returns_factory {payload : Constant → Option Bool} {K : Array Constant} {i last : Instr} {line : Int}
    {r : Rep} (sized : i.Sized) (straight : i.op.operands ≠ .jump) (sized' : last.Sized)
    (returns : last.op.isReturn = true) (result : returned? last.op = some r.kinds)
    (made : effect payload i.op (i.constant? K) i.number ⟨[.ref], [.ref]⟩ = some ⟨r.kinds, [.ref]⟩) :
    Returns payload K ([⟨.aload, .word 0, line⟩] ++ [i] ++ [last]) ⟨[.ref], r⟩ := by
  have load : Leads payload K [⟨.aload, .word 0, line⟩] ⟨[], [.ref]⟩ ⟨[.ref], [.ref]⟩ :=
    leads_single (.number (.inl rfl) (by decide)) rfl nofun
  exact ⟨_, last, [.ref], rfl, sized', returns, result, load.append (leads_single sized made straight)⟩

theorem verifies_factory {payload : Constant → Option Bool} {constants : Array Constant}
    {name descriptor : String} {i last : Instr} {line : Int} {r : Rep}
    (parsed : Descriptor.parse descriptor = .ok ⟨[.ref], r⟩) (plain : ∀ d, i.operand ≠ .jump d)
    (plain' : ∀ d, last.operand ≠ .jump d)
    (returns : ∀ K, Extends constants K →
      Returns payload K ([⟨.aload, .word 0, line⟩] ++ [i] ++ [last]) ⟨[.ref], r⟩) :
    (methodOf name descriptor 1 ([⟨.aload, .word 0, line⟩] ++ [i] ++ [last])).Verifies payload constants := by
  have bytes (code : Fragment) : (methodOf name descriptor 1 code).code = (bytesOf code).toArray :=
    congrArg List.toArray (bytesOf_eq _)
  have near : Near ([⟨.aload, .word 0, line⟩] ++ [i] ++ [last]) := by
    intro j inside
    simp only [List.mem_append, List.mem_singleton] at inside
    rcases inside with (rfl | rfl) | rfl
    · rfl
    · exact Instr.isFar_of_plain plain
    · exact Instr.isFar_of_plain plain'
  refine ⟨1, rfl, ?_, fun K later _ _ => ?_⟩
  · rw [bytes, List.size_toArray, length_bytesOf, size_append]
    have positive : 0 < size [last] := Nat.succ_pos _
    omega
  · obtain ⟨body, last', cells, same, sized, isReturn, result, leads⟩ := returns K later
    exact Method.verified_of_leads ((bytes _).trans (by rw [same])) parsed leads sized isReturn result (same ▸ near)

structure Factory (w : Place) (k : Constant) : Prop where
  named : k.Named w.ctx.checked.module.name
  kind : k.kind = .method
  parsed : ∃ r, signature? k = some ⟨[.ref], r⟩

theorem produces_closureOf {k : Constant} (factory : Factory w k) :
    Produces w (emitClosure w.ctx k 0) fun K code => w.Turns K code [] [.ref] := by
  obtain ⟨r, parsed⟩ := factory.parsed
  exact produces_emitClosure factory.named factory.kind parsed Nat.zero_lt_one (Nat.zero_le _)

theorem Produces.printFactory {f : Constant → Gen β} (next : ∀ k, Factory w k → Produces w (f k) Q) :
    Produces w (Codegen.printFactory w.ctx >>= f) Q := by
  have assembles : Assembles w.payload w.promise w.ctx.checked (do
      let arg ← emitWith .aload (.word 0)
      let print ← emit .printA
      pure (arg ++ print ++ (← emit .vreturn)))
      (methodOf (Names.lambdaStem ++ Names.print) "(Lobject;)V" 1) := by
    intro s code s' good _ run
    obtain ⟨arg, s₁, runA, run⟩ := bind_ok run
    obtain ⟨print, s₂, runP, run⟩ := bind_ok run
    obtain ⟨last, s₃, runL, run⟩ := bind_ok run
    obtain ⟨rfl, rfl⟩ := pure_ok run
    obtain ⟨rfl, rfl⟩ := emitWith_ok runA
    obtain ⟨rfl, rfl⟩ := emit_ok runP
    obtain ⟨rfl, rfl⟩ := emit_ok runL
    refine ⟨.refl _, good, laid_factory (.none rfl) (.none rfl) nofun rfl, titled_methodOf,
      verifies_factory (r := .void) rfl nofun nofun fun K _ => ?_⟩
    exact returns_factory (.none rfl) nofun (.none rfl) rfl rfl rfl
  unfold Codegen.printFactory
  rw [bind_assoc]
  refine .factory assembles ?_
  rw [pure_bind]
  have opens : ("(Lobject;)V" : String) = "(" ++ "Lobject;)V" := by decide
  refine next _ ⟨named_methodRef (by constructor <;> decide) ⟨_, opens⟩, rfl, .void, rfl⟩

theorem Produces.ctorFactory {info : Typing.Constructor} {f : Constant → Gen β} (supported : w.Supported)
    (found : w.ctx.checked.ctors.get? info.name = some info) (argument : info.hasArg = true)
    (next : ∀ k, Factory w k → Produces w (f k) Q) : Produces w (Codegen.ctorFactory w.ctx info >>= f) Q := by
  have named := (supported.ctors found).named
  have nameable := (supported.ctors found).sum
  let name := Names.factoryStem ++ info.name
  let descriptor := "(Lobject;)L" ++ info.sum ++ ";"
  have text : descriptor = "(" ++ String.join [Descriptor.item .ref "object"] ++ ")" ++
      Descriptor.item .ref info.sum := by
    simp [descriptor, Descriptor.item, String.join, ← String.toList_inj]
  have parsed : Descriptor.parse descriptor = .ok ⟨[.ref], .ref⟩ := by
    rw [text, Descriptor.parse_eq_ok]
    exact Descriptor.describes_joined (.cons (Descriptor.item_writes (by decide) (by decide)) .nil)
      (Descriptor.last_writes nameable)
  have assembles : Assembles w.payload w.promise w.ctx.checked (do
      let holder ← Codegen.holderRef w.ctx info.name
      let arg ← emitWith .aload (.word 0)
      let new ← emitConst w.ctx .new holder
      pure (arg ++ new ++ (← emit .areturn))) (methodOf name descriptor 1) := by
    intro s code s' good empty run
    have holder : Codegen.holderRef w.ctx info.name = pure (classOf w.ctx.checked info) := by
      unfold Codegen.holderRef
      rw [found]
      rfl
    rw [holder, pure_bind] at run
    obtain ⟨arg, s₁, runA, run⟩ := bind_ok run
    obtain ⟨new, s₂, runN, run⟩ := bind_ok run
    obtain ⟨last, s₃, runL, run⟩ := bind_ok run
    obtain ⟨rfl, rfl⟩ := pure_ok run
    obtain ⟨rfl, rfl⟩ := emitWith_ok runA
    obtain ⟨i, s₂, runC, runN⟩ := bind_ok runN
    have start : ({ w with names := [], cells := [] } : Place).At s := .start good empty (List.forall_mem_nil _)
    obtain ⟨at', kept, small, d, there, kind, -, serves⟩ := constant_serves (named_classOf named) start runC
    obtain ⟨rfl, rfl⟩ := emitWith_ok runN
    obtain ⟨rfl, rfl⟩ := emit_ok runL
    have refers : Opcode.new.Refers s₂.pool.entries i := ⟨small, d, there, by rw [kind]; rfl⟩
    have straight : Opcode.new.operands ≠ .jump := by decide
    refine ⟨kept.keeps, at'.good, laid_factory (.constant rfl refers) (.none rfl) straight rfl, titled_methodOf,
      verifies_factory parsed (by simp) (by simp) fun K later => ?_⟩
    refine returns_factory (.constant rfl small) straight (.none rfl) rfl rfl ?_
    change effect w.payload .new K[i]? 0 _ = _
    rw [later i d there]
    refine (serves .new 0 _ rfl).trans ?_
    simp only [effect, Option.bind_some, (supported.ctors found).payload, Option.bind_eq_bind, argument, if_true]
    exact exchange_append [.ref] [.ref] [] _
  unfold Codegen.ctorFactory
  rw [bind_assoc]
  refine .factory assembles ?_
  rw [pure_bind]
  have distinct : Distinct name := Distinct.append (by constructor <;> decide) named
  refine next _ ⟨named_methodRef distinct ⟨"Lobject;)L" ++ info.sum ++ ";", ?_⟩, rfl, .ref, ?_⟩
  · simp [← String.toList_inj]
  · rw [signature?, methodRef, parsed]
    rfl

/-! ### Values -/

theorem Produces.descriptorOf {t : Ty} {arity : Nat} {f : String → Gen β} (legible : t.isLegible)
    (next : ∀ d reps r, (∃ rest, d = "(" ++ rest) → (t.split arity).1.map Rep.ofTy = reps.map .ok →
      Rep.ofResult (t.split arity).2 = .ok r → Descriptor.parse d = .ok ⟨reps, r⟩ → Produces w (f d) Q) :
    Produces w (Codegen.descriptorOf t arity >>= f) Q := by
  obtain ⟨params, last⟩ := Ty.isLegible_split legible arity
  refine .lift fun d written => ?_
  obtain ⟨reps, r, each, result, parsed⟩ := Descriptor.parse_of_write params last written
  exact next d reps r (Descriptor.opens_of_write written) each result parsed

theorem produces_functionValue {key : String} {F : Typing.Function} {t : Ty} {use : Rep}
    (supported : w.Supported) (found : w.ctx.checked.functions.get? key = some F) (regular : t.Regular)
    (reference : 0 < F.arity → use = .ref) :
    Produces w (functionValue w.ctx F t use) fun K code => w.Turns K code [] use.kinds := by
  refine .target supported found regular fun name type named legible arrow => ?_
  refine .descriptorOf legible fun d reps r opens params result parsed => ?_
  have none {t : Ty} : t.split 0 = ([], t) := by cases t <;> rfl
  refine .ite (fun nullary => ?_) fun applied => ?_
  · rw [nullary, none] at params result
    obtain rfl : reps = [] := List.map_eq_nil_iff.1 params.symm
    refine (produces_invokestatic named opens parsed).bind fun call => .lift fun r' result' => ?_
    obtain rfl : r = r' := Except.ok.inj (result.symm.trans result')
    exact (produces_coerce r use).bind fun _ => .pure fun K second first => first.append second
  · obtain ⟨a, b, rfl⟩ := arrow (Nat.pos_of_ne_zero applied)
    obtain ⟨m, arity⟩ := Nat.exists_eq_succ_of_ne_zero applied
    have known : signature? (methodRef w.ctx name d) = some ⟨reps, r⟩ := by
      rw [signature?, methodRef, parsed]
      rfl
    have more : 0 < reps.length := by
      rw [arity] at params
      have lengths := congrArg List.length params
      rw [List.length_map, List.length_map] at lengths
      rw [← lengths]
      exact Nat.succ_pos _
    rw [reference (Nat.pos_of_ne_zero applied)]
    exact produces_emitClosure (named_methodRef named opens) rfl known more (Nat.zero_le _)

theorem produces_fieldValue {key : String} {t : Ty} {use : Rep} (supported : w.Supported)
    (found : w.ctx.checked.values.get? key = some t) :
    Produces w (fieldValue w.ctx key t use) fun K code => w.Turns K code [] use.kinds := by
  refine .lift fun d written => .lift fun r rep => ?_
  obtain ⟨r', rep', rfl⟩ := Descriptor.ofTy_eq_ok written
  obtain rfl : r = r' := Except.ok.inj (rep.symm.trans rep')
  have held := Rep.ofTy_ne_void rep
  have nameable := Ty.nameable_of_isLegible (supported.values found)
  refine Produces.bind (P := fun K code => w.Turns K code [] r.kinds)
    (produces_emitConst (.field key _ r held nameable) rfl rfl fun rest => ?_) fun _ =>
      (produces_coerce r use).bind fun _ => .pure fun K second first => first.append second
  simp only [effect, Option.bind_some, Constant.field?_item held nameable, Option.bind_eq_bind]
  exact exchange_append [] _ rest _

/-- What is known of a name: it comes from the function itself, or it stands for what has its type
converted, or its type is one of references. -/
def Place.Known (w : Place) (n : Typed) (name : String) : Prop :=
  name ∈ w.names ∨ (∃ F, w.ctx.checked.functions.get? name = some F ∧ F.arity = 0) ∨
    (w.ctx.checked.functions.get? name = none ∧ w.ctx.checked.values.contains name) ∨
      Rep.ofTy (w.ctx.typeOf n) = .ok .ref

theorem produces_nameValue {n : Typed} {name : String} (supported : w.Supported)
    (regular : (w.ctx.typeOf n).Regular) (known : w.Known n name) (plain : '.' ∉ name.toList) :
    Produces w (nameValue w.ctx n name) (w.Leaves n) := by
  refine .repOf fun use rep => .get fun s at_ => ?_
  refine Produces.mono (P := fun K code => w.Turns K code [] use.kinds) ?_ fun K code turns => ⟨use, rep, turns⟩
  dsimp only
  cases found : s.locals.find? name with
  | some l =>
    have held := at_.held l (List.mem_of_find?_eq_some found)
    simp only [held.plain]
    exact (produces_load held).bind fun _ => (produces_coerce l.repr use).bind fun _ =>
      .pure fun K second first => first.append second
  | none =>
    refine .ite (fun _ => .fail _) fun free => ?_
    have outside : name ∉ w.names := fun inside => by
      have bound := at_.bound name inside
      rw [boundInAny, List.any_cons, found] at bound
      exact free bound
    split
    · next F function =>
      refine produces_functionValue supported function regular fun positive => ?_
      rcases known with inside | ⟨F', same, nullary⟩ | ⟨none, -⟩ | reference
      · exact absurd inside outside
      · cases function.symm.trans same
        omega
      · cases function.symm.trans none
      · exact Except.ok.inj (rep.symm.trans reference)
    · next noFunction =>
      split
      · next t value => exact produces_fieldValue supported value
      · next noValue =>
        have reference : use = .ref := by
          rcases known with inside | ⟨F', same, -⟩ | ⟨-, value⟩ | reference
          · exact absurd inside outside
          · exact (noFunction F' same).elim
          · obtain ⟨t, value⟩ := Option.isSome_iff_exists.1 value
            exact (noValue t value).elim
          · exact Except.ok.inj (rep.symm.trans reference)
        subst reference
        split
        · next info ctor =>
          have own := (supported.ctors ctor).own plain
          refine .ite (fun argument => ?_) fun alone => ?_
          · exact .ctorFactory supported (own ▸ ctor) argument fun k factory => produces_closureOf factory
          · refine .holderRef fun info' same => ?_
            cases ctor.symm.trans same
            exact (produces_new supported ctor).mono fun K code turns => by rwa [if_neg alone] at turns
        · refine .ite (fun _ => ?_) fun _ => .fail _
          exact .printFactory fun k factory => produces_closureOf factory

theorem Produces.exportName {n : Typed} {module name : String} {f : String → Gen β}
    (next : ∀ name, Produces w (f name) Q) : Produces w (Codegen.exportName w.ctx n module name >>= f) Q := by
  unfold Codegen.exportName
  split
  · exact .failed _
  · split
    · exact .failed _
    · split
      · rw [pure_bind]
        exact next _
      · dsimp only
        split
        · rw [pure_bind]
          exact next _
        · exact fun _ _ _ _ run => nomatch run

theorem produces_qualifiedValue (n : Typed) (module name : String) :
    Produces w (qualifiedValue w.ctx n module name) (w.Leaves n) := by
  refine .repOf fun use rep => .exportName fun export_ => ?_
  refine Produces.bind (P := fun K code => w.Turns K code [] [.ref])
    (produces_emitConst (.literal (by simp [Constant.IsLiteral])) rfl rfl fun rest => exchange_append [] _ rest _)
    fun _ => (produces_coerce .ref use).bind fun _ => .pure fun K second first => ⟨use, rep, first.append second⟩

/-! ### Calls -/

/-- The end of a call takes values for the parameters, the last of them on top, and what lies below. -/
def Place.Ends (w : Place) (params : List (Except Defect Rep)) (below : List Kind)
    (finish : Gen (Fragment × Rep)) : Prop :=
  ∀ reps : List Rep, params = reps.map .ok → Produces w finish fun K made =>
    w.Turns K made.1 (reps.reverse.flatMap Rep.kinds ++ below) made.2.kinds

theorem Place.Ends.done {finish : Gen (Fragment × Rep)} {below : List Kind} (h : w.Ends [] below finish) :
    Produces w finish fun K made => w.Turns K made.1 below made.2.kinds := h [] rfl

theorem Place.Ends.next {finish : Gen (Fragment × Rep)} {below : List Kind}
    {params : List (Except Defect Rep)} {r : Rep} (h : w.Ends (.ok r :: params) below finish) :
    w.Ends params (r.kinds ++ below) finish := by
  rintro reps rfl
  have ends := h (r :: reps) rfl
  simpa only [List.reverse_cons, List.flatMap_append, List.flatMap_singleton, List.append_assoc] using ends

structure Place.Calls (w : Place) (args : List (Expr Typed)) (call : DirectCall) : Prop where
  before : call.before = []
  enough : call.params.length ≤ args.length
  ends : w.Ends call.params [] call.finish

theorem split_length (t : Ty) (n : Nat) : (t.split n).1.length ≤ n := by
  induction n generalizing t with
  | zero => cases t <;> exact Nat.le_refl 0
  | succ n ih =>
    cases t with
    | fn a b => exact Nat.succ_le_succ (ih b)
    | _ => exact Nat.zero_le _

theorem map_ok_injective {reps reps' : List Rep}
    (same : reps.map (Except.ok : Rep → Except Defect Rep) = reps'.map .ok) : reps = reps' :=
  List.map_injective_iff.2 (fun _ _ => Except.ok.inj) same

theorem Produces.functionCall {key : String} {F : Typing.Function} {t : Ty} {args : List (Expr Typed)}
    {f : DirectCall → Gen β} (supported : w.Supported)
    (found : w.ctx.checked.functions.get? key = some F) (regular : t.Regular) (enough : F.arity ≤ args.length)
    (next : ∀ call, w.Calls args call → Produces w (f call) Q) :
    Produces w (Codegen.functionCall w.ctx F t >>= f) Q := by
  unfold Codegen.functionCall
  rw [bind_assoc]
  refine .target supported found regular fun name type named legible _ => ?_
  rw [pure_bind]
  refine next _ ⟨rfl, ?_, fun reps params => ?_⟩
  · rw [List.length_map]
    exact Nat.le_trans (split_length _ _) enough
  obtain ⟨legibles, last⟩ := Ty.isLegible_split legible F.arity
  refine .lift fun d written => ?_
  obtain ⟨reps', r, each, result, parsed⟩ := Descriptor.parse_of_write legibles last written
  obtain rfl : reps = reps' := map_ok_injective (params.symm.trans each)
  refine (produces_invokestatic named (Descriptor.opens_of_write written) parsed).bind fun call =>
    .lift fun r' result' => ?_
  obtain rfl : r = r' := Except.ok.inj (result.symm.trans result')
  rw [List.append_nil]
  exact .pure fun K turns => turns

theorem turns_print {r : Rep} (filled : r ≠ .void) :
    Produces w (emit (printOp r)) fun K code => w.Turns K code r.kinds [] := by
  cases r with
  | void => exact absurd rfl filled
  | _ => exact produces_emit rfl rfl

theorem Produces.directCall? {n : Typed} {name : String} {args : List (Expr Typed)}
    {f : Option DirectCall → Gen β} (supported : w.Supported) (regular : (w.ctx.typeOf n).Regular)
    (next : ∀ call, (∀ d ∈ call, w.Calls args d) → Produces w (f call) Q) :
    Produces w (Codegen.directCall? w.ctx n name args >>= f) Q := by
  have none_ : Produces w (pure none >>= f) Q := by
    rw [pure_bind]
    exact next _ nofun
  have some_ {d : DirectCall} (calls : w.Calls args d) : Produces w (pure (some d) >>= f) Q := by
    rw [pure_bind]
    exact next _ fun _ same => Option.some.inj same ▸ calls
  unfold Codegen.directCall?
  rw [bind_assoc]
  refine .get fun s at_ => ?_
  cases found : s.locals.find? name with
  | some l =>
    have held := at_.held l (List.mem_of_find?_eq_some found)
    simp only [held.plain]
    exact none_
  | none =>
    dsimp only
    split
    · next F function =>
      split
      · exact none_
      · next fits =>
        rw [not_or, Nat.not_lt] at fits
        rw [bind_assoc]
        refine .functionCall supported function regular fits.2 fun call calls => some_ calls
    · split
      · exact none_
      · split
        · exact none_
        · next arg rest =>
          split
          · next ctor =>
            rw [bind_assoc]
            refine .holderRef fun info same => some_ ⟨rfl, Nat.succ_le_succ (Nat.zero_le _), fun reps params => ?_⟩
            obtain rfl : [.ref] = reps := map_ok_injective params
            have argument : info.hasArg = true := by rwa [same, Option.isSome_filter] at ctor
            exact (produces_new supported same).bind fun _ => .pure fun K turns => by
              rwa [if_pos argument] at turns
          · split
            · rw [bind_assoc]
              refine .repOf fun r rep => some_ ⟨rfl, Nat.succ_le_succ (Nat.zero_le _), fun reps params => ?_⟩
              obtain rfl : [r] = reps := map_ok_injective params
              rw [List.append_nil]
              exact (turns_print (Rep.ofTy_ne_void rep)).bind fun _ => .pure fun K turns => by
                change w.Turns K _ (r.kinds ++ []) []
                rwa [List.append_nil]
            · exact none_

end Codegen
end StackML
