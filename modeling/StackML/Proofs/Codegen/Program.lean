import StackML.Codegen.Module
import StackML.Proofs.Codegen.Bindings
import StackML.Proofs.Machine.Entry
import StackML.Proofs.Typing.Program

/-!
Compiled programs do what the evaluator does. A module of type declarations and a main expression
without functions compiles to one method and the classes of its constructors; run on a machine, the
method gives the value, the output or the fault that evaluation gives.
-/

namespace StackML.Codegen

open Machine Semantics
open Typing (Typed Checked Accepted IsProgram Registers)

variable {m : Module Position} {e : Expr Position} {c : Checked} {e' : Expr Typed}

/-! ### What is compiled -/

theorem mainBody_ok {ret : Rep} {code : Fragment} {n : Nat} {s s' : State}
    (run : mainBody c e' ret s = .ok (code, n) s') : 
    ∃ front s₁ line, asRep { checked := c } e'.note ret (expr { checked := c } e')
      { s with locals := {}, line := e'.note.position.line } = .ok front s₁ ∧
    code = front ++ [⟨returnOp ret, .none, line⟩] ∧ (∀ i ∈ code, i.isFar = false) ∧
    n = s₁.locals.max ∧ s' = { s₁ with locals := s.locals, line := s.line } := by
  unfold mainBody separately at run
  obtain ⟨_, _, runG, run⟩ := bind_ok run
  cases runG
  obtain ⟨_, _, runS, run⟩ := bind_ok run
  cases runS
  obtain ⟨⟨code', n'⟩, s₁, runC, run⟩ := bind_ok run
  cases run
  unfold bodyCode at runC
  obtain ⟨code'', s₂, runB, runC⟩ := bind_ok runC
  cases runC
  obtain ⟨front, s₃, runA, runB⟩ := bind_ok runB
  obtain ⟨last, s₄, runE, runB⟩ := bind_ok runB
  obtain ⟨rfl, rfl⟩ := emit_ok runE
  dsimp only at runB
  split at runB
  · obtain ⟨_, _, failed, -⟩ := bind_ok runB
    exact (fail_ok failed).elim
  · next near =>
    cases runB
    refine ⟨front, _, _, runA, rfl, by simpa [or_imp, forall_and] using near, rfl, rfl⟩

theorem compileMain_ok {s s' : State} {u : Unit} {t : Ty} (type : c.main = some t)
    (run : compileMain c e' s = .ok u s') :
    ∃ descriptor ret code n s₁, Descriptor.write [] t = .ok descriptor ∧
      Rep.ofResult t = .ok ret ∧ mainBody c e' ret s = .ok (code, n) s₁ ∧
      s' = { s₁ with methods := methodOf Names.entry descriptor n code :: s₁.methods } := by
  unfold compileMain at run
  rw [type] at run
  obtain ⟨descriptor, _, runD, run⟩ := bind_ok run
  obtain ⟨written, rfl⟩ := liftDefect_ok runD
  obtain ⟨ret, _, runR, run⟩ := bind_ok run
  obtain ⟨rep, rfl⟩ := liftDefect_ok runR
  obtain ⟨⟨code, n⟩, s₁, runB, run⟩ := bind_ok run
  cases run
  exact ⟨descriptor, ret, code, n, s₁, written, rep, runB, rfl⟩

theorem drain_idle {steps : Nat} {s s' : State} {u : Unit} (idle : s.work = [])
    (none : unused c s = []) (run : drain c steps s = .ok u s') : s' = s := by
  cases steps with
  | zero => exact (fail_ok run).elim
  | succ steps =>
    unfold drain at run
    obtain ⟨_, _, runG, run⟩ := bind_ok run
    cases runG
    simp only [idle] at run
    obtain ⟨_, _, runG, run⟩ := bind_ok run
    cases runG
    simp only [none] at run
    cases run
    rfl

/-! ### Main expressions -/

theorem setting_of_accepted (program : IsProgram m e) (accepted : Accepted m e c e') :
    Setting m.name { checked := c } where
  named := program.named
  owned := accepted.name
  mapping := rfl
  ctors found :=
    have own := accepted.registers.own found
    ⟨own.module_eq, own.name_eq, own.builtin⟩

def programScene (program : IsProgram m e) (accepted : Accepted m e c e') : Scene where
  module := m.name
  ctx := { checked := c }
  table := classes m
  setting := setting_of_accepted program accepted
  known := accepted.registers.describes

theorem Scene.HasType.fits_ofResult {σ : Scene} {t : Ty} {r : Rep} {v : Value}
    (typed : σ.HasType t v) (rep : Rep.ofResult t = .ok r) : Fits r v := by
  unfold Rep.ofResult at rep
  split at rep
  · cases rep
    rw [Semantics.HasType.unit_inv σ.known typed]
    exact .void
  · obtain rfl := Rep.eq_rep_of_ofTy rep
    exact typed.fits

theorem main_realizes (program : IsProgram m e) (accepted : Accepted m e c e') {ret : Rep}
    {s s' : State} {code : Fragment} (rep : Rep.ofResult e'.note.type = .ok ret)
    (run : asRep { checked := c } e'.note ret (expr { checked := c } e') s = .ok code s') :
    ∃ Γ, Realizes (programScene program accepted) Γ [] s code s' (fun env => eval (classes m) env e)
      (words ret) ((programScene program accepted).HasType e'.note.type) := by
  obtain ⟨Γ, derived⟩ := accepted.derives
  have first : FirstOrder [] e' := by
    refine .of_mapNotes (f := Typed.position) ?_
    rw [← Expr.erase, accepted.erased]
    exact program.first
  have carries : Carries (programScene program accepted) Γ [] e' :=
    carries_of_derives first accepted.mono derived
  have same : ∀ env, eval (classes m) env e = eval (classes m) env e' := by
    intro env
    rw [← accepted.erased, Expr.erase, eval_mapNotes]
  refine ⟨Γ, (carries.asRep (fun v typed => typed.fits_ofResult rep) ?_ run).of_eq same⟩
  intro name member
  cases member

theorem compileModule_ok (program : IsProgram m e) (accepted : Accepted m e c e')
    {artifacts : List Artifact} {s' : State} (run : compileModule c {} = .ok artifacts s') :
    ∃ descriptor ret code n s, Descriptor.write [] e'.note.type = .ok descriptor ∧
      Rep.ofResult e'.note.type = .ok ret ∧ mainBody c e' ret {} = .ok (code, n) s ∧
      artifacts = { name := m.name, constants := s.pool.entries
                    methods := [methodOf Names.entry descriptor n code] } :: holders c := by
  have functions : ordered c = [] := by
    simp [ordered, accepted.functions]
  have values : c.module.decls.any isValue = false := by
    rw [List.any_eq_false]
    intro d member
    obtain ⟨t, rfl⟩ := accepted.types d member
    simp [isValue]
  unfold compileModule at run
  obtain ⟨_, s₁, runP, run⟩ := bind_ok run
  unfold prepare at runP
  rw [functions] at runP
  obtain ⟨_, _, runQ, runP⟩ := bind_ok runP
  cases runQ
  obtain ⟨_, _, runI, runM⟩ := bind_ok runP
  unfold compileInitializer at runI
  rw [values] at runI
  cases runI
  rw [accepted.main] at runM
  obtain ⟨descriptor, ret, code, n, s, written, rep, runB, rfl⟩ := compileMain_ok accepted.type runM
  obtain ⟨front, s₂, line, runA, rfl, -, rfl, rfl⟩ := mainBody_ok runB
  obtain ⟨Γ, realizes⟩ := main_realizes program accepted rep runA
  have same := realizes.settles.same
  obtain ⟨_, s₃, runD, run⟩ := bind_ok run
  have idle := drain_idle (by rw [same]) (by rw [unused, functions]; rfl) runD
  cases run
  refine ⟨descriptor, ret, _, _, _, written, rep, runB, ?_⟩
  rw [idle, same, accepted.name]
  rfl

/-! ### Constructors -/

def holderOf (name : String) (info : Typing.Constructor) : Artifact where
  name := name
  kind := .holder
  sum := info.sum
  tag := .ofNat info.index
  payload := info.hasArg

theorem mem_holders {module : String} {table : List (String × HolderClass)}
    (registers : Registers module table c.ctors c.sums) {a : Artifact} :
    a ∈ holders c ↔ ∃ name info, c.ctors.get? name = some info ∧ info.sum ≠ Names.result ∧
      a = holderOf name info := by
  simp only [holders, ownSums, NameMap.toSortedList, List.mem_flatMap, List.mem_filter,
    List.mem_mergeSort, List.mem_filterMap, Option.map_eq_some_iff, bne_iff_ne]
  constructor
  · rintro ⟨⟨sum, names⟩, ⟨member, other⟩, name, inside, info, found, rfl⟩
    obtain ⟨info', found', rfl⟩ := registers.listed member inside
    obtain rfl := Option.some.inj (found.symm.trans found')
    exact ⟨name, info, found, other, rfl⟩
  · rintro ⟨name, info, found, other, rfl⟩
    obtain ⟨names, member, inside⟩ := registers.complete found
    exact ⟨⟨info.sum, names⟩, ⟨member, other⟩, name, inside, info, found, rfl⟩

theorem get?_foldl_insert {holders : List Artifact} {known : Std.TreeMap Text Artifact compare}
    {name : Text} {a : Artifact} (only : ∀ h ∈ holders, h.name = name → h = a)
    (there : a.name = name ∧ a ∈ holders ∨ known.get? name = some a) :
    (holders.foldl (fun t h => t.insert h.name h) known).get? name = some a := by
  induction holders generalizing known with
  | nil => simpa using there
  | cons h holders ih =>
    rw [List.forall_mem_cons] at only
    refine ih only.2 ?_
    simp only [Std.TreeMap.get?_eq_getElem?, Std.TreeMap.getElem?_insert,
      Std.compare_eq_iff_eq] at there ⊢
    by_cases same : h.name = name
    · exact .inr (by rw [if_pos same, only.1 same])
    · rw [if_neg same]
      refine there.imp_left fun ⟨named, member⟩ => ⟨named, ?_⟩
      exact (List.mem_cons.1 member).resolve_left fun equal => same (equal ▸ named)

theorem get?_holders {module : String} {table : List (String × HolderClass)}
    (registers : Registers module table c.ctors c.sums) {name : String} {info : Typing.Constructor}
    (found : c.ctors.get? name = some info) (other : info.sum ≠ Names.result) :
    ((holders c).foldl (fun t h => t.insert h.name h) ({} : Std.TreeMap Text Artifact compare)).get?
      name = some (holderOf name info) := by
  refine get?_foldl_insert (fun h member same => ?_)
    (.inl ⟨rfl, (mem_holders registers).2 ⟨name, info, found, other, rfl⟩⟩)
  obtain ⟨name', info', found', -, rfl⟩ := (mem_holders registers).1 member
  obtain rfl : name' = name := Text.ofString_injective same
  obtain rfl := Option.some.inj (found.symm.trans found')
  rfl

theorem hosts_main (program : IsProgram m e) (accepted : Accepted m e c e') {site : Site}
    (linked : ComparesTexts site.setup.registry) (heap : site.world.heap = {})
    (own : site.frame.code.module = m.name)
    (loaded : (site.world.instances.getD site.frame.code.home default).holders =
      (holders c).foldl (fun t h => t.insert h.name h) {}) :
    Hosts { checked := c } (classes m) site where
  linked := linked
  heap := heap
  named := accepted.registers.name_of_lookup
  classes {name k s s' cls} run found := by
    obtain ⟨-, -, info, known, rfl⟩ := holderRef_ok (setting_of_accepted program accepted) run
    have class_eq : info.classIn m.name = cls := by
      rw [accepted.registers.classed, known] at found
      exact Option.some.inj found
    have ownInfo := accepted.registers.own known
    by_cases builtin : info.sum = Names.result
    · simp only [if_pos builtin]
      rcases ownInfo.builtin builtin with rfl | rfl
      · obtain rfl : _ = cls := Option.some.inj found
        exact ⟨site.class_ok, rfl, rfl⟩
      · obtain rfl : _ = cls := Option.some.inj found
        exact ⟨site.class_error, rfl, rfl⟩
    · simp only [if_neg builtin]
      have listed := get?_holders accepted.registers known builtin
      rw [← loaded] at listed
      have found := site.class_own (k := { kind := .holder, owner := m.name, name := name })
        (Text.isEmpty_ofString program.named) own listed
      rw [← class_eq, Typing.Constructor.classIn, if_neg builtin, ownInfo.name_eq]
      exact ⟨found, rfl, rfl⟩

/-! ### Runs -/

/-- A run of the machine ends as evaluation does, unless its stack is full. -/
def Agrees (expected : EStateM.Result Stop (List Text) Value)
    (run : EStateM.Result Halt Machine Value) : Prop :=
  Overflows run ∨ match expected with
    | .ok v out => ∃ m, run = .ok v m ∧ m.output = out
    | .error stop out => ∃ fault m, run = .error (.fault fault) m ∧
        stop.issue? = some fault.issue ∧ m.output = out

theorem Agrees.guarded {expected : EStateM.Result Stop (List Text) Value} {x : Exec Value}
    {machine : Machine} (h : Agrees expected (x machine)) :
    Agrees expected (Machine.guarded x machine) := by
  unfold Machine.guarded
  rcases h with ⟨f, m, run, full⟩ | h
  · rw [run]
    exact .inl ⟨f, _, rfl, full⟩
  · cases expected with
    | ok v out =>
      obtain ⟨m, run, printed⟩ := h
      rw [run]
      exact .inr ⟨m, rfl, printed⟩
    | error stop out =>
      obtain ⟨f, m, run, known, printed⟩ := h
      rw [run]
      exact .inr ⟨f, _, rfl, known, printed⟩

theorem Follows.agrees {site : Site} {w : View} {machine : Machine} {x : Eval Value} {ret : Rep}
    {line : Int} {code : Fragment} {steps : Nat} {next : Nat} {L : List Word}
    (h : Follows site w x fun v w' => Leaves code.size next L (words ret v) w' ∧ Fits ret v)
    (whole : site.code = code ++ [⟨returnOp ret, .none, line⟩])
    (boxed : site.frame.boxResult = true) (low : site.below.length < maxStack)
    (last : site.world.depth = site.stop + 1) (result : site.frame.code.signature.result = ret)
    (enough : site.code.size < steps) (shows : Shows site w machine) :
    Agrees (x w.output)
      ((execute site.setup steps site.stop 0 >>= fun _ => popValue) machine) := by
  have size : site.code.size = code.size + 1 := by rw [whole, Fragment.size_append]; rfl
  have atEnd : site.Located code.size [⟨returnOp ret, .none, line⟩] :=
    ⟨code, [], by rw [whole, List.append_nil], rfl⟩
  unfold Follows at h
  cases evaluated : x w.output with
  | ok v out =>
    rw [evaluated] at h
    obtain ⟨⟨_, L', _, _⟩, ⟨n, le, runs⟩, rfl, ⟨rfl, -, rfl⟩, fits⟩ := h
    obtain ⟨k, rfl⟩ : ∃ k, steps = n + (k + 2) := ⟨steps - n - 2, by simp only at le; omega⟩
    rcases runs machine (k + 2) 0 shows with ⟨f, m, run, full⟩ | ⟨m, count, shows', same⟩
    · exact .inl ⟨f, m, bind_of_error run, full⟩
    · rw [← List.append_nil (words ret v)] at shows'
      obtain ⟨m', m'', left, popped, printed⟩ :=
        execute_return fits boxed low last result atEnd shows' k count
      exact .inr ⟨m'', (bind_of_ok (same.trans left)).trans popped, printed⟩
  | error stop out =>
    rw [evaluated] at h
    obtain ⟨issue, known, n, le, runs⟩ := h
    obtain ⟨k, rfl⟩ : ∃ k, steps = n + k := ⟨steps - n, by omega⟩
    rcases runs machine k 0 shows with ⟨f, m, run, full⟩ | ⟨f, m, run, rfl, printed⟩
    · exact .inl ⟨f, m, bind_of_error run, full⟩
    · exact .inr ⟨f, m, bind_of_error run, known, printed⟩

/-- The local words that the main expression of a module needs. -/
def mainLocals (c : Checked) : Nat :=
  match c.module.main with
  | none => 0
  | some e =>
    match Rep.ofResult (c.main.getD e.note.type) with
    | .error _ => 0
    | .ok ret =>
      match mainBody c e ret {} with
      | .ok (_, n) _ => n
      | .error _ _ => 0

/-- The number of bytes of the methods. -/
def codeSize (artifacts : List Artifact) : Nat :=
  ((artifacts.flatMap (·.methods)).map (·.code.size)).sum

theorem run_main (program : IsProgram m e) (accepted : Accepted m e c e') {setup : Setup}
    {descriptor : String} {ret : Rep} {code : Fragment} {n steps : Nat} {s : State}
    (nameable : Descriptor.Nameable (Descriptor.refName e'.note.type))
    (written : Descriptor.write [] e'.note.type = .ok descriptor)
    (rep : Rep.ofResult e'.note.type = .ok ret)
    (run : mainBody c e' ret {} = .ok (code, n) s) (small : n ≤ 65536)
    (allowed : 0 < setup.maxFrames) (linked : ComparesTexts setup.registry)
    (enough : code.size < steps) :
    Agrees (eval (classes m) .empty e []) (runModuleWithin steps setup m.name
      (holding (.ofArtifacts { name := m.name, constants := s.pool.entries
                               methods := [methodOf Names.entry descriptor n code] } (holders c)))) := by
  obtain ⟨ret', rep', parsed⟩ := Descriptor.parse_write nameable written
  obtain rfl : ret = ret' := Except.ok.inj (rep.symm.trans rep')
  obtain ⟨front, s₁, line, runA, rfl, near, rfl, rfl⟩ := mainBody_ok run
  obtain ⟨Γ, realizes⟩ := main_realizes program accepted rep runA
  let method := methodOf Names.entry descriptor s₁.locals.max (front ++ [⟨returnOp ret, .none, line⟩])
  let inst : Instance := .ofArtifacts
    { name := m.name, constants := s₁.pool.entries, methods := [method] } (holders c)
  change Agrees _ (runModuleWithin steps setup inst.name (holding inst))
  rw [runModuleWithin_holding steps (get?_initializer rfl rfl) rfl (get?_entry rfl rfl) parsed]
  refine Agrees.guarded ?_
  let L : List Word := List.replicate s₁.locals.max {}
  let site := mainSite setup { inst with initialized := true } method ⟨[], ret⟩ _ rfl near
  obtain ⟨machine, shows, invoked⟩ : ∃ machine, Shows site ⟨0, L, [], []⟩ machine ∧ _ :=
    invoke_main allowed rfl rfl small rfl near
  rw [invoked]
  have hosts : Hosts { checked := c } (classes m) site :=
    hosts_main program accepted linked rfl rfl rfl
  have ready : Ready (programScene program accepted) Γ [] .empty L
      { line := e'.note.position.line } :=
    ⟨Pool.holds_empty _, .empty _ _, by simp, by simp [NameMap.get?_empty]⟩
  have placed : Placed site 0 front s₁ L :=
    ⟨⟨[], [⟨returnOp ret, .none, line⟩], rfl, rfl⟩, List.prefix_rfl, by simp [L], by simpa [L] using small⟩
  have follows : Follows site ⟨0, L, [], []⟩ (eval (classes m) .empty e) fun v w =>
      Leaves front.size 0 L (words ret v) w ∧ Fits ret v := by
    refine (realizes.follows hosts ready placed).mono ?_
    rintro v w ⟨⟨ip, locals, operands⟩, typed⟩
    rw [Nat.zero_add] at ip
    rw [List.append_nil] at operands
    exact ⟨⟨ip, locals, operands⟩, typed.fits_ofResult rep⟩
  have low : 0 < maxStack := by decide
  exact follows.agrees rfl rfl low rfl rfl enough shows

theorem codeSize_program {name : Text} {constants : Array Constant} {descriptor : String} {n : Nat}
    {code : Fragment} :
    codeSize ({ name, constants, methods := [methodOf Names.entry descriptor n code] } :: holders c) =
      code.size := by
  have none : ∀ a ∈ holders c, a.methods = [] := by
    intro a member
    simp only [holders, List.mem_flatMap, List.mem_filterMap, Option.map_eq_some_iff] at member
    obtain ⟨_, _, _, _, _, _, rfl⟩ := member
    rfl
  rw [codeSize, List.flatMap_cons, List.flatMap_eq_nil_iff.2 none]
  simp [methodOf, Fragment.length_assemble]

theorem compile_ok (program : IsProgram m e) (accepted : Accepted m e c e')
    {artifacts : List Artifact} (compiled : (compile c).result = .ok artifacts) :
    ∃ descriptor ret code n s, Descriptor.write [] e'.note.type = .ok descriptor ∧
      Rep.ofResult e'.note.type = .ok ret ∧ mainBody c e' ret {} = .ok (code, n) s ∧
      mainLocals c = n ∧ codeSize artifacts = code.size ∧
      Machine.load artifacts {} = .ok () (holding (.ofArtifacts
        { name := m.name, constants := s.pool.entries
          methods := [methodOf Names.entry descriptor n code] } (holders c))) := by
  obtain ⟨s', run⟩ : ∃ s', compileModule c {} = .ok artifacts s' := by
    unfold compile at compiled
    split at compiled
    · next s' run =>
      cases compiled
      exact ⟨s', run⟩
    · cases compiled
  obtain ⟨descriptor, ret, code, n, s, written, rep, body, rfl⟩ := compileModule_ok program accepted run
  have holder : ∀ h ∈ holders c, h.kind = .holder := by
    intro h member
    obtain ⟨name, info, -, -, rfl⟩ := (mem_holders accepted.registers).1 member
    rfl
  refine ⟨descriptor, ret, code, n, s, written, rep, body, ?_, codeSize_program, load_eq rfl holder⟩
  unfold mainLocals
  rw [accepted.main, accepted.type]
  simp only [Option.getD_some, rep, body]

/-- A program that is accepted and compiled does what the evaluator does when it is run: it prints
the same text and gives the same value, or ends with the same fault, unless its stack is full. It
takes no more steps than its code has bytes. -/
theorem compile_preserves {host : Host.Resolver} {importer : Option Typing.Importer}
    {artifacts : List Artifact} {setup : Setup} {steps : Nat} (program : IsProgram m e)
    (plain : Typing.CtorArgsPlain m) (checked : Typing.check host importer m = .ok c)
    (compiled : (compile c).result = .ok artifacts)
    (nameable : ∀ t, c.main = some t → Descriptor.Nameable (Descriptor.refName t))
    (small : mainLocals c ≤ 65536) (allowed : 0 < setup.maxFrames)
    (linked : ComparesTexts setup.registry) (enough : codeSize artifacts < steps) :
    Agrees (eval (classes m) .empty e [])
      ((Machine.load artifacts >>= fun _ => runModuleWithin steps setup m.name) {}) := by
  obtain ⟨e', accepted⟩ := Typing.check_accepted program plain checked
  obtain ⟨descriptor, ret, code, n, s, written, rep, body, locals, size, loaded⟩ :=
    compile_ok program accepted compiled
  rw [bind_of_ok loaded]
  exact run_main program accepted (nameable _ accepted.type) written rep body (locals ▸ small) allowed
    linked (size ▸ enough)

/-- A list of shapes, of which the first that has a side is measured. -/
def areaMain : Expr Position :=
  .letIn default "side" (.build default "Square" (.int default 7))
    (.sequence default
      [.print default (.interp default [.text "side ", .hole (.var default "side")]),
        .matchOn default (.list default [.tag default "Point", .var default "side"])
          [.mk (.cons default (.build default "Square" (.var default "n")) (.wild default))
              (.var default "n"),
            .mk (.cons default (.wild default)
                (.cons default (.build default "Square" (.var default "n")) (.nil default)))
              (.binary default .mul (.var default "n")
                (.binary default .div (.var default "n") (.int default 2)))]])

def areaModule : Module Position where
  note := default
  name := "M"
  imports := []
  decls := [.type ⟨default, "Shape", [], [⟨"Point", none⟩, ⟨"Square", some .int⟩]⟩]
  main := some areaMain

theorem isProgram_area : IsProgram areaModule areaMain where
  named := by decide
  alone := rfl
  types d member := ⟨_, List.mem_singleton.1 member⟩
  main := rfl
  first := by
    refine .letIn (by decide) (.build .int) (.sequence ?_)
    have used : ∀ {bound n}, FirstOrder ("n" :: bound) (.var n "n" : Expr Position) :=
      .var List.mem_cons_self
    have side : ∀ {n}, FirstOrder ["side"] (.var n "side" : Expr Position) :=
      .var List.mem_cons_self
    simp only [List.mem_cons, List.not_mem_nil, or_false]
    rintro _ (rfl | rfl)
    · refine .print (.interp ?_)
      rintro _ (_ | ⟨_, _ | ⟨_, ⟨⟩⟩⟩)
      exact side
    · refine .matchOn (.list ?_) ?_ ?_
      · rintro _ (_ | ⟨_, _ | ⟨_, ⟨⟩⟩⟩)
        · exact .tag
        · exact side
      · rintro _ _ (_ | ⟨_, _ | ⟨_, ⟨⟩⟩⟩) <;> simp [patternNames]
      · rintro _ _ (_ | ⟨_, _ | ⟨_, ⟨⟩⟩⟩)
        · exact used
        · exact .binary used (.binary used .int)

theorem ctorArgsPlain_area : Typing.CtorArgsPlain areaModule := by
  intro d member c inside a argument
  obtain rfl := Decl.type.inj (List.mem_singleton.1 member)
  rcases List.mem_pair.1 inside with rfl | rfl
  · cases argument
  · cases argument
    exact ⟨rfl, rfl⟩

theorem compile_preserves_area : ∃ c artifacts,
    Typing.check (.chain []) none areaModule = .ok c ∧ (compile c).result = .ok artifacts ∧
    eval (classes areaModule) .empty areaMain [] = .ok (.int 21) ["side Square(7)\n"] ∧
    Agrees (eval (classes areaModule) .empty areaMain [])
      ((Machine.load artifacts >>= fun _ => runModuleWithin (codeSize artifacts + 1) {} "M") {}) := by
  have facts : ((Typing.check (.chain []) none areaModule).toOption.map fun c =>
      ((compile c).result.toBool, mainLocals c, c.main)) = some (true, 6, some .int) := by
    decide +kernel
  cases checked : Typing.check (.chain []) none areaModule with
  | error d => simp [checked, Except.toOption] at facts
  | ok c =>
    simp only [checked, Except.toOption, Option.map_some, Option.some.injEq, Prod.mk.injEq] at facts
    obtain ⟨done, locals, type⟩ := facts
    cases compiled : (compile c).result with
    | error d => simp [compiled, Except.toBool] at done
    | ok artifacts =>
      refine ⟨c, artifacts, rfl, compiled, by cbv, ?_⟩
      refine compile_preserves isProgram_area ctorArgsPlain_area checked compiled ?_ ?_ (by decide)
        comparesTexts_wellKnown (Nat.lt_succ_self _)
      · intro t found
        obtain rfl := Option.some.inj (type.symm.trans found)
        decide
      · omega

theorem compile_unreadable (program : IsProgram m e) (accepted : Accepted m e c e')
    {artifacts : List Artifact} {descriptor : String} {error : Descriptor.Error}
    (compiled : (compile c).result = .ok artifacts)
    (written : Descriptor.write [] e'.note.type = .ok descriptor)
    (invalid : Descriptor.parse descriptor = .error error) (setup : Setup) (steps : Nat) :
    Raises (Machine.load artifacts >>= fun _ => runModuleWithin steps setup m.name) {}
      (.badMethod m.name Names.entry error) [] := by
  obtain ⟨descriptor', ret, code, n, s, written', -, -, -, -, loaded⟩ :=
    compile_ok program accepted compiled
  obtain rfl : descriptor = descriptor' := Except.ok.inj (written.symm.trans written')
  let method := methodOf Names.entry descriptor n code
  let inst : Instance :=
    .ofArtifacts { name := m.name, constants := s.pool.entries, methods := [method] } (holders c)
  have bare : inst.methods.get? Names.initializer = none := get?_initializer rfl rfl
  have entry : inst.methods.get? Names.entry = some ⟨method, Descriptor.parse method.descriptor⟩ :=
    get?_entry rfl rfl
  exact .of_ok loaded (runModuleWithin_unreadable steps bare rfl entry invalid)

/-- A program whose value has a type with a semicolon in its name. -/
def semicolonModule : Module Position where
  note := default
  name := "M"
  imports := []
  decls := [.type ⟨default, "a;b", [], [⟨"A", none⟩]⟩]
  main := some (.tag default "A")

theorem isProgram_semicolon : IsProgram semicolonModule (.tag default "A") where
  named := by decide
  alone := rfl
  types d member := ⟨_, List.mem_singleton.1 member⟩
  main := rfl
  first := .tag

/-- The descriptor of a main method cannot be read when its result has such a type. -/
theorem compile_semicolon : ∃ c artifacts, IsProgram semicolonModule (.tag default "A") ∧
    Typing.check (.chain []) none semicolonModule = .ok c ∧ (compile c).result = .ok artifacts ∧
    mainLocals c ≤ 65536 ∧
    eval (classes semicolonModule) .empty (.tag default "A" : Expr Position) [] =
      .ok (.holder ⟨"M", "A", "a;b", 0, false⟩ .null) [] ∧
    ∀ steps, ¬Agrees (eval (classes semicolonModule) .empty (.tag default "A" : Expr Position) [])
      ((Machine.load artifacts >>= fun _ => runModuleWithin steps {} "M") {}) := by
  have program := isProgram_semicolon
  have plain : Typing.CtorArgsPlain semicolonModule := by
    intro d member c inside a argument
    obtain rfl := Decl.type.inj (List.mem_singleton.1 member)
    obtain rfl := List.mem_singleton.1 inside
    cases argument
  have facts : ((Typing.check (.chain []) none semicolonModule).toOption.map fun c =>
      ((compile c).result.toBool, mainLocals c, c.main)) = some (true, 0, some (.named "a;b")) := by
    decide +kernel
  cases checked : Typing.check (.chain []) none semicolonModule with
  | error d => simp [checked, Except.toOption] at facts
  | ok c =>
    simp only [checked, Except.toOption, Option.map_some, Option.some.injEq, Prod.mk.injEq] at facts
    obtain ⟨done, locals, type⟩ := facts
    cases compiled : (compile c).result with
    | error d => simp [compiled, Except.toBool] at done
    | ok artifacts =>
      refine ⟨c, artifacts, program, rfl, compiled, by omega, rfl, fun steps agrees => ?_⟩
      obtain ⟨e', accepted⟩ := Typing.check_accepted program plain checked
      have named : e'.note.type = .named "a;b" := Option.some.inj (accepted.type.symm.trans type)
      have written : Descriptor.write [] e'.note.type = .ok "()La;b;" := by
        rw [named]
        rfl
      have invalid : Descriptor.parse "()La;b;" = .error ⟨"()La;b;", .trailing⟩ := rfl
      obtain ⟨f, machine, run, issue, -⟩ :=
        compile_unreadable program accepted compiled written invalid {} steps
      rcases agrees with ⟨f', machine', run', full⟩ | ⟨machine', run', -⟩
      · cases run.symm.trans run'
        simp [issue] at full
      · cases run.symm.trans run'

end StackML.Codegen
