import StackML.Proofs.Typing.Erasure
import StackML.Proofs.Typing.Infer.Match

/-!
The type system of the part of the language that has neither arithmetic nor members of other
modules or of the host: which types a tree without notes has. Locals and local functions are
generalized over variables that the context lacks, a local function is used at one type in its own
body, and patterns bind names at one type. What inference notes in a tree follows these rules.
-/

namespace StackML

inductive Expr.Core {α : Type} : Expr α → Prop where
  | int {n v} : Core (.int n v)
  | float {n v} : Core (.float n v)
  | bool {n v} : Core (.bool n v)
  | str {n v} : Core (.str n v)
  | unit {n} : Core (.unit n)
  | interp {n parts} : (∀ e, .hole e ∈ parts → Core e) → Core (.interp n parts)
  | var {n name} : Core (.var n name)
  | not {n e} : Core e → Core (.unary n .not e)
  | binary {n op l r} : op.isArithmetic = false → Core l → Core r → Core (.binary n op l r)
  | cond {n c t e} : Core c → Core t → Core e → Core (.cond n c t e)
  | letIn {n name v b} : Core v → Core b → Core (.letIn n name v b)
  | letRec {n name fn params fb b} : Core fb → Core b → Core (.letRec n name fn params fb b)
  | lambda {n params b} : Core b → Core (.lambda n params b)
  | apply {n c args} : Core c → (∀ e ∈ args, Core e) → Core (.apply n c args)
  | sequence {n es} : (∀ e ∈ es, Core e) → Core (.sequence n es)
  | print {n e} : Core e → Core (.print n e)
  | list {n es} : (∀ e ∈ es, Core e) → Core (.list n es)
  | cons {n h t} : Core h → Core t → Core (.cons n h t)
  | matchOn {n e arms} : Core e → (∀ p b, .mk p b ∈ arms → Core b) → Core (.matchOn n e arms)
  | tag {n name} : Core (.tag n name)
  | build {n name e} : Core e → Core (.build n name e)

namespace Typing

inductive PatternHasType (ctors : NameMap Constructor) :
    Context → Pattern Position → Ty → Context → Prop where
  | wild {Γ p t} : PatternHasType ctors Γ (.wild p) t Γ
  | var {Γ p name t} : t.isMono → PatternHasType ctors Γ (.var p name) t (Γ.extend name t)
  | int {Γ p v} : PatternHasType ctors Γ (.int p v) .int Γ
  | bool {Γ p v} : PatternHasType ctors Γ (.bool p v) .bool Γ
  | str {Γ p v} : PatternHasType ctors Γ (.str p v) .string Γ
  | nil {Γ p t} : PatternHasType ctors Γ (.nil p) (.list t) Γ
  | cons {Γ Γ₁ Γ₂ p head tail t} :
      PatternHasType ctors Γ head t Γ₁ → PatternHasType ctors Γ₁ tail (.list t) Γ₂ →
      PatternHasType ctors Γ (.cons p head tail) (.list t) Γ₂
  | tag {Γ p name c t} :
      ctors.get? name = some c → c.hasArg = false → c.type.Instance {} t →
      PatternHasType ctors Γ (.tag p name) t Γ
  | tagOfArg {Γ p name c t payload} :
      ctors.get? name = some c → c.hasArg = true → c.type.Instance {} (.fn payload t) →
      PatternHasType ctors Γ (.tag p name) t Γ
  | build {Γ Γ₁ p name arg c t payload} :
      ctors.get? name = some c → c.hasArg = true → c.type.Instance {} (.fn payload t) →
      PatternHasType ctors Γ arg payload Γ₁ → PatternHasType ctors Γ (.build p name arg) t Γ₁

mutual
inductive HasType (ctors : NameMap Constructor) : Context → Expr Position → Ty → Prop where
  | int {Γ p v} : HasType ctors Γ (.int p v) .int
  | float {Γ p v} : HasType ctors Γ (.float p v) .double
  | bool {Γ p v} : HasType ctors Γ (.bool p v) .bool
  | str {Γ p v} : HasType ctors Γ (.str p v) .string
  | unit {Γ p} : HasType ctors Γ (.unit p) .unit
  | interp {Γ p parts} : PartsHaveTypes ctors Γ parts → HasType ctors Γ (.interp p parts) .string
  | var {Γ p name b t} :
      Γ name = some b → b.Instance {} t → HasType ctors Γ (.var p name) t
  | not {Γ p e} : HasType ctors Γ e .bool → HasType ctors Γ (.unary p .not e) .bool
  | comparison {Γ p op l r t} :
      op.isComparison = true → HasType ctors Γ l t → HasType ctors Γ r t →
      HasType ctors Γ (.binary p op l r) .bool
  | logical {Γ p op l r} :
      op.isArithmetic = false → op.isComparison = false → HasType ctors Γ l .bool →
      HasType ctors Γ r .bool → HasType ctors Γ (.binary p op l r) .bool
  | cond {Γ p c t e u} :
      HasType ctors Γ c .bool → HasType ctors Γ t u → HasType ctors Γ e u →
      HasType ctors Γ (.cond p c t e) u
  | letIn {Γ p name v b t u vars} :
      t.isMono → HasType ctors Γ v t → Γ.Lacks vars →
      HasType ctors (Γ.extend name (t.quantify vars)) b u →
      HasType ctors Γ (.letIn p name v b) u
  | letRec {Γ p name fp params ps fb b t u vars} :
      ps.length = params.length → (lambdaType ps t).isMono →
      HasType ctors ((Γ.extend name (lambdaType ps t)).extendAll params ps) fb t →
      Γ.Lacks vars → HasType ctors (Γ.extend name ((lambdaType ps t).quantify vars)) b u →
      HasType ctors Γ (.letRec p name fp params fb b) u
  | lambda {Γ p params ps b t} :
      ps.length = params.length → (∀ t ∈ ps, t.isMono) →
      HasType ctors (Γ.extendAll params ps) b t →
      HasType ctors Γ (.lambda p params b) (lambdaType ps t)
  | apply {Γ p c args ts t} :
      HasType ctors Γ c (.fns ts t) → HaveTypes ctors Γ args ts →
      HasType ctors Γ (.apply p c args) t
  | sequence {Γ p es ts} :
      HaveTypes ctors Γ es ts → HasType ctors Γ (.sequence p es) (ts.getLast?.getD .unit)
  | print {Γ p e t} : HasType ctors Γ e t → HasType ctors Γ (.print p e) .unit
  | list {Γ p es t} :
      t.isMono → (∀ e ∈ es, HasType ctors Γ e t) → HasType ctors Γ (.list p es) (.list t)
  | cons {Γ p h l t} :
      HasType ctors Γ h t → HasType ctors Γ l (.list t) → HasType ctors Γ (.cons p h l) (.list t)
  | matchOn {Γ p e arms t u} :
      HasType ctors Γ e t → arms ≠ [] → ArmsHaveType ctors Γ t u arms →
      HasType ctors Γ (.matchOn p e arms) u
  | tag {Γ p name c t} :
      ctors.get? name = some c → c.hasArg = false → c.type.Instance {} t →
      HasType ctors Γ (.tag p name) t
  | build {Γ p name e c t u} :
      ctors.get? name = some c → c.hasArg = true → c.type.Instance {} (.fn t u) →
      HasType ctors Γ e t → HasType ctors Γ (.build p name e) u

inductive HaveTypes (ctors : NameMap Constructor) :
    Context → List (Expr Position) → List Ty → Prop where
  | nil {Γ} : HaveTypes ctors Γ [] []
  | cons {Γ e es t ts} :
      HasType ctors Γ e t → HaveTypes ctors Γ es ts → HaveTypes ctors Γ (e :: es) (t :: ts)

inductive PartsHaveTypes (ctors : NameMap Constructor) :
    Context → List (Part Position) → Prop where
  | nil {Γ} : PartsHaveTypes ctors Γ []
  | text {Γ v parts} : PartsHaveTypes ctors Γ parts → PartsHaveTypes ctors Γ (.text v :: parts)
  | hole {Γ e t parts} :
      HasType ctors Γ e t → PartsHaveTypes ctors Γ parts →
      PartsHaveTypes ctors Γ (.hole e :: parts)

inductive ArmsHaveType (ctors : NameMap Constructor) :
    Context → Ty → Ty → List (Arm Position) → Prop where
  | nil {Γ t u} : ArmsHaveType ctors Γ t u []
  | cons {Γ Γ₁ t u p e arms} :
      PatternHasType ctors Γ p t Γ₁ → HasType ctors Γ₁ e u → ArmsHaveType ctors Γ t u arms →
      ArmsHaveType ctors Γ t u (.mk p e :: arms)
end

/-! ### What is noted in a tree -/

theorem isMono_fns {ps : List Ty} {t : Ty} (mono : (Ty.fns ps t).isMono) :
    (∀ p ∈ ps, p.isMono) ∧ t.isMono := by
  induction ps with
  | nil => exact ⟨by simp, mono⟩
  | cons p ps ih =>
    simp only [Ty.fns, List.foldr_cons, Ty.isMono, Bool.and_eq_true] at mono
    obtain ⟨params, result⟩ := ih mono.2
    exact ⟨List.forall_mem_cons.2 ⟨mono.1, params⟩, result⟩

theorem isMono_lambdaType {ps : List Ty} {t : Ty} (mono : (lambdaType ps t).isMono) :
    (∀ p ∈ ps, p.isMono) ∧ t.isMono := by
  cases ps with
  | nil =>
    simp only [lambdaType, List.isEmpty_nil, if_true, Ty.isMono, Bool.true_and] at mono
    exact ⟨by simp, mono⟩
  | cons p ps => exact isMono_fns mono

theorem lastType_eq (es : List (Expr Typed)) :
    lastType es = ((es.map fun e => e.note.type).getLast?).getD .unit := by
  unfold lastType
  rw [List.getLast?_map]
  cases es.getLast? <;> rfl

theorem PatternFits.hasType {ctors : NameMap Constructor} {Γ : Context} {p : Pattern Typed}
    (fits : PatternFits ctors {} p) (mono : ∀ n ∈ p.notes, n.type.isMono) :
    PatternHasType ctors Γ (p.mapNotes Typed.position) p.note.type (Γ.extendPattern p) := by
  induction p generalizing Γ with
  | wild n => exact .wild
  | var n name => exact .var (mono n (by simp [Pattern.notes]))
  | int n v | bool n v | str n v | nil n =>
    cases fits
    next same =>
      rw [Ty.assign_default] at same
      simp only [Pattern.mapNotes, Pattern.note, same]
      constructor
  | cons n head tail ihHead ihTail =>
    simp only [Pattern.notes, List.forall_mem_cons, List.forall_mem_append] at mono
    cases fits with
    | cons list same fitsHead fitsTail =>
      simp only [Ty.assign_default] at list same
      have typeTail := ihTail (Γ := Γ.extendPattern head) fitsTail mono.2.2
      rw [← same, list] at typeTail
      simp only [Pattern.mapNotes, Pattern.note, list]
      exact .cons (ihHead fitsHead mono.2.1) typeTail
  | tag n name =>
    cases fits with
    | tag found hasArg inst => exact .tag found hasArg inst
    | tagOfArg found hasArg inst => exact .tagOfArg found hasArg inst
  | build n name arg ih =>
    simp only [Pattern.notes, List.forall_mem_cons] at mono
    cases fits with
    | build found hasArg inst fitsArg => exact .build found hasArg inst (ih fitsArg mono.2)

section Notes

variable {host : Host.Resolver} {ctors : NameMap Constructor} {Γ : Context}

/-- The rules hold of a tree with notes only if they hold of the tree without them. -/
def Agrees (host : Host.Resolver) (ctors : NameMap Constructor) (e : Expr Typed) : Prop :=
  ∀ {Γ : Context}, Derives host ctors {} Γ e → e.erase.Core → (∀ n ∈ e.notes, n.type.isMono) →
    HasType ctors Γ e.erase e.note.type

theorem haveTypes_of_derives {es : List (Expr Typed)} (each : ∀ e ∈ es, Agrees host ctors e)
    (derives : ∀ e ∈ es, Derives host ctors {} Γ e) (core : ∀ e ∈ es.map Expr.erase, e.Core)
    (mono : ∀ n ∈ Expr.notesOfAll es, n.type.isMono) :
    HaveTypes ctors Γ (es.map Expr.erase) (es.map fun e => e.note.type) := by
  induction es with
  | nil => exact .nil
  | cons e es ih =>
    simp only [List.map_cons, List.forall_mem_cons] at each derives core
    simp only [Expr.notesOfAll, List.forall_mem_append] at mono
    exact .cons (each.1 derives.1 core.1 mono.1) (ih each.2 derives.2 core.2 mono.2)

theorem partsHaveTypes_of_derives {parts : List (Part Typed)}
    (each : ∀ e, .hole e ∈ parts → Agrees host ctors e)
    (derives : ∀ e, .hole e ∈ parts → Derives host ctors {} Γ e)
    (core : ∀ e, .hole e ∈ parts → e.erase.Core)
    (mono : ∀ n ∈ Expr.notesOfParts parts, n.type.isMono) :
    PartsHaveTypes ctors Γ (parts.map (Expr.mapPart Typed.position)) := by
  induction parts with
  | nil => exact .nil
  | cons part parts ih =>
    cases part with
    | text v =>
      simp only [List.mem_cons, reduceCtorEq, false_or] at each derives core
      exact .text (ih each derives core mono)
    | hole e =>
      simp only [List.mem_cons, Part.hole.injEq, forall_eq_or_imp] at each derives core
      simp only [Expr.notesOfParts, List.forall_mem_append] at mono
      exact .hole (each.1 derives.1 core.1 mono.1) (ih each.2 derives.2 core.2 mono.2)

theorem armsHaveType_of_derives {arms : List (Arm Typed)} {t u : Ty}
    (each : ∀ p b, .mk p b ∈ arms → Agrees host ctors b)
    (fits : ∀ p b, .mk p b ∈ arms →
      PatternFits ctors {} p ∧ p.note.type = t ∧ b.note.type = u)
    (derives : ∀ p b, .mk p b ∈ arms → Derives host ctors {} (Γ.extendPattern p) b)
    (core : ∀ p b, .mk p b ∈ arms → b.erase.Core)
    (mono : ∀ n ∈ Expr.notesOfArms arms, n.type.isMono) :
    ArmsHaveType ctors Γ t u (arms.map (Expr.mapArm Typed.position)) := by
  induction arms with
  | nil => exact .nil
  | cons arm arms ih =>
    obtain ⟨p, b⟩ := arm
    simp only [Expr.notesOfArms, List.forall_mem_append] at mono
    have first : (Arm.mk p b) ∈ Arm.mk p b :: arms := List.mem_cons_self
    have rest : ∀ {q c}, Arm.mk q c ∈ arms → Arm.mk q c ∈ Arm.mk p b :: arms :=
      List.mem_cons_of_mem _
    obtain ⟨fitsP, rfl, rfl⟩ := fits p b first
    exact .cons (fitsP.hasType mono.1) (each p b first (derives p b first) (core p b first) mono.2.1)
      (ih (fun q c m => each q c (rest m)) (fun q c m => fits q c (rest m))
        (fun q c m => derives q c (rest m)) (fun q c m => core q c (rest m)) mono.2.2)

theorem agrees (e : Expr Typed) : Agrees host ctors e := by
  induction e using Expr.induct with
  | int n v | float n v | bool n v | str n v | unit n =>
    intro Γ derives core mono
    cases derives with
    | _ same =>
      simp only [Expr.note, same]
      constructor
  | interp n parts ih =>
    intro Γ derives core mono
    simp only [Expr.erase, Expr.mapNotes, Expr.mapParts_eq, List.reverse_nil, List.nil_append,
      Expr.notes, List.forall_mem_cons] at core mono ⊢
    cases derives with
    | interp same derives =>
      simp only [Expr.note, same]
      cases core with
      | interp core =>
        refine .interp (partsHaveTypes_of_derives ih derives (fun e member => core _ ?_) mono.2)
        exact List.mem_map.2 ⟨_, member, rfl⟩
  | var n name =>
    intro Γ derives core mono
    cases derives with
    | var found inst => exact .var found inst
  | unary n op e ih =>
    intro Γ derives core mono
    simp only [Expr.erase, Expr.mapNotes, Expr.notes, List.forall_mem_cons] at core mono ⊢
    cases core with
    | not core =>
      cases derives with
      | unary derives fits =>
        simp only [UnaryFits, Ty.assign_default] at fits
        have typed := ih derives core mono.2
        rw [fits.1] at typed
        simp only [Expr.note, fits.2]
        exact .not typed
  | binary n op l r ihl ihr =>
    intro Γ derives core mono
    simp only [Expr.erase, Expr.mapNotes, Expr.notes, List.forall_mem_cons,
      List.forall_mem_append] at core mono ⊢
    cases core with
    | binary plain coreL coreR =>
      cases derives with
      | binary derivesL derivesR fits =>
        have typedL := ihl derivesL coreL mono.2.1
        have typedR := ihr derivesR coreR mono.2.2
        simp only [BinaryFits, plain, Bool.false_eq_true, if_false, Ty.assign_default] at fits
        split at fits
        · next comparison =>
          rw [← fits.1] at typedR
          simp only [Expr.note, fits.2]
          exact .comparison comparison typedL typedR
        · next logical =>
          rw [fits.1] at typedL
          rw [fits.2.1] at typedR
          simp only [Expr.note, fits.2.2]
          exact .logical plain (Bool.eq_false_iff.2 logical) typedL typedR
  | cond n c t e ihc iht ihe =>
    intro Γ derives core mono
    simp only [Expr.erase, Expr.mapNotes, Expr.notes, List.forall_mem_cons,
      List.forall_mem_append] at core mono ⊢
    cases core with
    | cond coreC coreT coreE =>
      cases derives with
      | cond derivesC derivesT derivesE test yes no =>
        simp only [Ty.assign_default] at test yes no
        have typedC := ihc derivesC coreC mono.2.1
        have typedT := iht derivesT coreT mono.2.2.1
        have typedE := ihe derivesE coreE mono.2.2.2
        rw [test] at typedC
        rw [yes] at typedT
        rw [no] at typedE
        exact .cond typedC typedT typedE
  | letIn n name v b ihv ihb =>
    intro Γ derives core mono
    simp only [Expr.erase, Expr.mapNotes, Expr.notes, List.forall_mem_cons,
      List.forall_mem_append] at core mono ⊢
    cases core with
    | letIn coreV coreB =>
      cases derives with
      | letIn lacks _ derivesV derivesB same =>
        simp only [Ty.assign_default] at same
        have typedV := ihv (derivesV {} Assignment.kinded_default fun _ _ => ⟨rfl, rfl⟩) coreV
          mono.2.1
        have typedB := ihb derivesB coreB mono.2.2
        rw [same] at typedB
        exact .letIn (mono.2.1 _ (Expr.note_mem_notes v)) typedV lacks typedB
  | letRec n name fn params fb b ihf ihb =>
    intro Γ derives core mono
    simp only [Expr.erase, Expr.mapNotes, Expr.notes, List.forall_mem_cons,
      List.forall_mem_append] at core mono ⊢
    cases core with
    | letRec coreF coreB =>
      cases derives with
      | letRec lengths fnType lacks _ derivesF derivesB same =>
        simp only [Ty.assign_default] at same
        have typedF := ihf (derivesF {} Assignment.kinded_default fun _ _ => ⟨rfl, rfl⟩) coreF
          mono.2.2.1
        have typedB := ihb derivesB coreB mono.2.2.2
        rw [same] at typedB
        rw [fnType] at typedF typedB
        exact .letRec lengths (fnType ▸ mono.2.1) typedF lacks typedB
  | lambda n params b ih =>
    intro Γ derives core mono
    simp only [Expr.erase, Expr.mapNotes, Expr.notes, List.forall_mem_cons] at core mono ⊢
    cases core with
    | lambda core =>
      cases derives with
      | lambda lengths same derives =>
        simp only [Expr.note, same] at mono ⊢
        exact .lambda lengths (isMono_lambdaType mono.1).1 (ih derives core mono.2)
  | apply n c args ihc ih =>
    intro Γ derives core mono
    simp only [Expr.erase, Expr.mapNotes, Expr.mapAll_eq, List.reverse_nil, List.nil_append,
      Expr.notes, List.forall_mem_cons, List.forall_mem_append] at core mono ⊢
    cases core with
    | apply coreC core =>
      cases derives with
      | apply derivesC derives same =>
        simp only [Ty.assign_default] at same
        have typedC := ihc derivesC coreC mono.2.1
        rw [same] at typedC
        exact .apply typedC (haveTypes_of_derives ih derives core mono.2.2)
  | sequence n es ih =>
    intro Γ derives core mono
    simp only [Expr.erase, Expr.mapNotes, Expr.mapAll_eq, List.reverse_nil, List.nil_append,
      Expr.notes, List.forall_mem_cons] at core mono ⊢
    cases core with
    | sequence core =>
      cases derives with
      | sequence derives same =>
        simp only [Expr.note, same, lastType_eq]
        exact .sequence (haveTypes_of_derives ih derives core mono.2)
  | print n e ih =>
    intro Γ derives core mono
    simp only [Expr.erase, Expr.mapNotes, Expr.notes, List.forall_mem_cons] at core mono ⊢
    cases core with
    | print core =>
      cases derives with
      | print derives same =>
        simp only [Expr.note, same]
        exact .print (ih derives core mono.2)
  | list n es ih =>
    intro Γ derives core mono
    simp only [Expr.erase, Expr.mapNotes, Expr.mapAll_eq, List.reverse_nil, List.nil_append,
      Expr.notes, List.forall_mem_cons] at core mono ⊢
    cases core with
    | list core =>
      cases derives with
      | list derives same elems =>
        simp only [Ty.assign_default] at same elems
        simp only [same, Ty.isMono] at mono
        simp only [Expr.note, same]
        refine .list mono.1 fun e member => ?_
        obtain ⟨e, inside, rfl⟩ := List.mem_map.1 member
        have typed := ih e inside (derives e inside) (core _ member) fun n known =>
          mono.2 n (Expr.mem_notesOfAll.2 ⟨e, inside, known⟩)
        rw [elems e inside] at typed
        exact typed
  | cons n h t ihh iht =>
    intro Γ derives core mono
    simp only [Expr.erase, Expr.mapNotes, Expr.notes, List.forall_mem_cons,
      List.forall_mem_append] at core mono ⊢
    cases core with
    | cons coreH coreT =>
      cases derives with
      | cons derivesH derivesT list same =>
        simp only [Ty.assign_default] at list same
        have typedT := iht derivesT coreT mono.2.2
        rw [same, list] at typedT
        simp only [Expr.note, list]
        exact .cons (ihh derivesH coreH mono.2.1) typedT
  | matchOn n e arms ihe ih =>
    intro Γ derives core mono
    simp only [Expr.erase, Expr.mapNotes, Expr.mapArms_eq, List.reverse_nil, List.nil_append,
      Expr.notes, List.forall_mem_cons, List.forall_mem_append] at core mono ⊢
    cases core with
    | matchOn coreE core =>
      cases derives with
      | matchOn derivesE some fits derives =>
        simp only [Ty.assign_default] at fits
        refine .matchOn (ihe derivesE coreE mono.2.1) (by simpa using some) ?_
        refine armsHaveType_of_derives ih fits derives (fun p b member => ?_) mono.2.2
        exact core (p.mapNotes Typed.position) _ (List.mem_map.2 ⟨_, member, rfl⟩)
  | tag n name =>
    intro Γ derives core mono
    cases derives with
    | tag found hasArg inst => exact .tag found hasArg inst
  | build n name e ih =>
    intro Γ derives core mono
    simp only [Expr.erase, Expr.mapNotes, Expr.notes, List.forall_mem_cons] at core mono ⊢
    cases core with
    | build core =>
      cases derives with
      | build found hasArg derives inst => exact .build found hasArg inst (ih derives core mono.2)
  | qualified n m name | hostCall n o m args ih | hostMethod n r m args ihr ih | hostField n o name
  | hostNew n o =>
    intro Γ derives core mono
    cases core

end Notes

end Typing
end StackML
