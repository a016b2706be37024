import StackML.Proofs.Ty.Filling
import StackML.Proofs.Typing.Settling
import StackML.Proofs.Typing.Soundness

/-!
The result of inference is closed. No type that it shows has a variable that the substitution binds;
the numeric variables that are left are quantified by the function in whose declaration they stand,
and no two functions share one; the uses that were recorded have no variables at all and match the
schemes as these came out in the end.
-/

namespace StackML.Typing

open Assignment Subst

variable {host : Host.Resolver} {importer : Option Importer} {m : Module Position}
  {raw : Checked} {w f : Stage} {σ : Subst}

/-! ### Inference up to closing -/

def Checked.blocks (c : Checked) : List Block :=
  c.module.decls.map block ++ (c.module.main.map fun e => (none, e.notes)).toList

theorem Checked.mem_notes {c : Checked} {n : Typed} : n ∈ c.notes ↔ ∃ b ∈ c.blocks, n ∈ b.2 := by
  have decls : n ∈ c.module.decls.flatMap declNotes ↔ ∃ b ∈ c.module.decls.map block, n ∈ b.2 := by
    simp [block_notes]
  unfold notes blocks
  simp only [List.mem_append, decls, or_and_right, exists_or]
  cases c.module.main <;> simp

theorem Settled.of_subset {blocks blocks' : List Block} {functions : NameMap Function}
    {values : NameMap Ty} {uses : NameMap (List Ty)} (settled : Settled blocks functions values uses w)
    (sub : blocks' ⊆ blocks) : Settled blocks' functions values uses w :=
  { settled with
    notes := fun b member => settled.notes b (sub member)
    apart := fun name F found b member => settled.apart name F found b (sub member) }

theorem inferOpen_settled {s : State} (hostClosed : HostClosed host) (imports : ImportsPlain importer)
    (args : CtorArgsPlain m) (annotations : ∀ d, .fn d ∈ m.decls → AnnotationsPlain d)
    (run : inferOpen host importer m {} = .ok raw s) :
    ∃ w, Settled raw.blocks raw.functions raw.values raw.uses w ∧
      Denotes w.supply s.subst w.meaning := by
  obtain ⟨p, s₁, p', s₂, main, runO, runD, runM, gathers⟩ := inferOpen_parts run
  have bare := openScope_bare runO
  have tidy := bare.tidy
  obtain ⟨functions, values, decls, -⟩ := bare
  have uses : s₁.uses = .empty := RecordsNone.openScope runO
  obtain ⟨w, fits, scope, closed, -⟩ := (openScope_opened imports args runO).stage
  have start : Standing s₁.ctors p w s₁ := {
    fits
    scope
    tidy
    bound := by simp [functions]
    settled := by
      rw [functions, values, decls, uses]
      constructor <;> simp [quantifiedVars, NameMap.values, NameMap.empty, NameMap.get?] }
  obtain ⟨w₁, standing⟩ := start.run hostClosed closed annotations runD
  unfold Checked.blocks
  rw [gathers.decls, gathers.main, gathers.functions, gathers.values, gathers.uses_eq]
  rcases runM with ⟨-, rfl, rfl⟩ | ⟨e, e', -, rfl, runE⟩
  · exact ⟨w₁, standing.settled.of_subset (by simp), standing.fits.denotes⟩
  · obtain ⟨-, w₂, course⟩ :=
      Finds.infer hostClosed closed e p'.env ∅ (Course.start standing.scope standing.fits) runE
    rw [Set.empty_union] at course
    exact ⟨w₂, (standing.noting course (none, e'.notes) subset_rfl).of_subset (by simp),
      course.fits.denotes⟩

/-! ### Closing -/

/-- Making numeric variables `int` disturbs nothing that is settled. Those that the notes keep are
quantified by functions. -/
theorem Settled.close (settled : Settled raw.blocks raw.functions raw.values raw.uses w)
    (denotes : Denotes w.supply σ w.meaning) :
    ∃ f : Stage, Settled raw.blocks raw.functions raw.values raw.uses f ∧
      Denotes f.supply (raw.defaulted σ) f.meaning ∧
      ∀ n ∈ raw.notes, ∀ o ∈ (n.type.assign f.meaning).occurrences, o.2 = true →
        o.1 ∈ quantifiedVars raw.functions := by
  have kinded : ∀ n ∈ raw.notes, n.type.WellKinded w.supply := by
    intro n member
    obtain ⟨b, listed, inside⟩ := Checked.mem_notes.1 member
    exact settled.notes b listed n inside
  obtain ⟨R, defaults, left⟩ := defaultNotes_spec (quantifiedVars raw.functions) denotes kinded
  let f := Stage.ofDenotes defaults.denotes
  refine ⟨f, settled.later ⟨.refl _, defaults.refines⟩ fun name F found => ?_, defaults.denotes, left⟩
  exact defaults.keeps _ fun d member _ => quantified_mem found member

theorem General.close {b : Ty} (general : General f b) (denotes : Denotes f.supply σ f.meaning) :
    closeType σ b = (b.body.assign f.meaning).quantify b.quantified := by
  have shape := closeType_quantify b.quantified denotes general.kinded general.unbound general.occur
  rwa [← general.shape] at shape

theorem General.quantified_close {b : Ty} (general : General f b)
    (denotes : Denotes f.supply σ f.meaning) : (closeType σ b).quantified = b.quantified := by
  rw [general.close denotes, Ty.quantified_quantify (f.wellKinded_assign general.kinded).mono]

theorem General.body_close {b : Ty} (general : General f b)
    (denotes : Denotes f.supply σ f.meaning) : (closeType σ b).body = b.body.assign f.meaning := by
  rw [general.close denotes, Ty.body_quantify (f.wellKinded_assign general.kinded).mono]

theorem Ty.leaves_quantify (t : Ty) (vars : List VarId) : (t.quantify vars).leaves = t.leaves := by
  cases vars <;> rfl

theorem leaves_closeType {t : Ty} (denotes : Denotes f.supply σ f.meaning)
    (kinded : t.WellKinded f.supply) :
    (closeType σ t).leaves = (t.assign f.meaning).occurrences := by
  rw [closeType_of_wellKinded denotes kinded, Ty.leaves_of_mono (f.wellKinded_assign kinded).mono]

theorem get?_eq_none_of_assigned {t : Ty} {o : VarId × Bool} (denotes : Denotes f.supply σ f.meaning)
    (kinded : t.WellKinded f.supply) (occurs : o ∈ (t.assign f.meaning).occurrences) :
    σ.get? o.1 = none := by
  obtain ⟨x, -, inside⟩ := (Ty.mem_occurrences_assign kinded.mono _ o).1 occurs
  exact denotes.get?_eq_none (f.unbound x o inside)

inductive Checked.Shows (c : Checked) : Ty → Prop
  | note {n : Typed} (noted : n ∈ c.notes) : Shows c n.type
  | function {name : String} {F : Function} (found : c.functions.get? name = some F) : Shows c F.type
  | value {name : String} {t : Ty} (found : c.values.get? name = some t) : Shows c t
  | main {t : Ty} (found : c.main = some t) : Shows c t

theorem declNotes_mapDecl (g : Typed → Typed) (d : Decl Typed) :
    declNotes (mapDecl g d) = (declNotes d).map g := by
  cases d <;> simp [mapDecl, declNotes, Expr.notes_mapNotes]

theorem Checked.notes_close (c : Checked) (s : Subst) :
    (c.close s).notes = c.notes.map (Typed.shut (c.defaulted s)) := by
  unfold notes
  rw [close_decls, close_main, List.map_append]
  congr 1
  · simp [List.flatMap_map, List.map_flatMap, declNotes_mapDecl]
  · cases c.module.main <;> simp [Expr.notes_mapNotes]

theorem Checked.shows_close {c : Checked} {s : Subst} {t : Ty} (shown : (c.close s).Shows t) :
    ∃ u, c.Shows u ∧ t = closeType (c.defaulted s) u := by
  cases shown with
  | note noted =>
    rw [notes_close] at noted
    obtain ⟨n, member, rfl⟩ := List.mem_map.1 noted
    exact ⟨n.type, .note member, rfl⟩
  | function found =>
    rw [close_eq, NameMap.get?_map, Option.map_eq_some_iff] at found
    obtain ⟨F, found, rfl⟩ := found
    exact ⟨F.type, .function found, rfl⟩
  | value found =>
    rw [close_eq, NameMap.get?_map, Option.map_eq_some_iff] at found
    obtain ⟨u, found, rfl⟩ := found
    exact ⟨u, .value found, rfl⟩
  | main found =>
    rw [close_eq, Option.map_eq_some_iff] at found
    obtain ⟨u, found, rfl⟩ := found
    exact ⟨u, .main found, rfl⟩

theorem Checked.note_of_main {c : Checked} {t : Ty} (typed : c.main = c.module.main.map (·.note.type))
    (found : c.main = some t) : ∃ n ∈ c.notes, n.type = t := by
  rw [typed, Option.map_eq_some_iff] at found
  obtain ⟨e, here, rfl⟩ := found
  exact ⟨e.note, by simp [notes, here, e.note_mem_notes], rfl⟩

namespace Settled

variable (settled : Settled raw.blocks raw.functions raw.values raw.uses f)
  (denotes : Denotes f.supply σ f.meaning)

include settled denotes

theorem get?_eq_none_of_shown (typed : raw.main = raw.module.main.map (·.note.type)) {t : Ty}
    (shown : raw.Shows t) : ∀ o ∈ (closeType σ t).leaves, σ.get? o.1 = none := by
  have mono : ∀ u : Ty, u.WellKinded f.supply → ∀ o ∈ (closeType σ u).leaves, σ.get? o.1 = none := by
    intro u kinded o leaf
    rw [leaves_closeType denotes kinded] at leaf
    exact get?_eq_none_of_assigned denotes kinded leaf
  have note : ∀ n ∈ raw.notes, ∀ o ∈ (closeType σ n.type).leaves, σ.get? o.1 = none := by
    intro n member
    obtain ⟨b, listed, inside⟩ := Checked.mem_notes.1 member
    exact mono n.type (settled.notes b listed n inside)
  cases shown with
  | note noted => exact note _ noted
  | @function name F found =>
    have general := settled.general name F found
    intro o leaf
    rw [general.close denotes, Ty.leaves_quantify,
      Ty.leaves_of_mono (f.wellKinded_assign general.kinded).mono] at leaf
    exact get?_eq_none_of_assigned denotes general.kinded leaf
  | @value name t found => exact mono t (settled.values name t found)
  | main found =>
    obtain ⟨n, member, rfl⟩ := Checked.note_of_main typed found
    exact note n member

theorem owner (left : ∀ n ∈ raw.notes, ∀ o ∈ (n.type.assign f.meaning).occurrences, o.2 = true →
    o.1 ∈ quantifiedVars raw.functions) {b : Block} (listed : b ∈ raw.blocks) {n : Typed}
    (inside : n ∈ b.2) {id : VarId} (leaf : (id, true) ∈ (closeType σ n.type).leaves) :
    ∃ name F, b.1 = some name ∧ raw.functions.get? name = some F ∧ id ∈ F.type.quantified := by
  have kinded := settled.notes b listed n inside
  rw [leaves_closeType denotes kinded] at leaf
  have kept := left n (Checked.mem_notes.2 ⟨b, listed, inside⟩) _ leaf rfl
  obtain ⟨name, F, found, own⟩ := settled.listed id kept
  refine ⟨name, F, ?_, found, own⟩
  by_contra other
  exact (Ty.avoids_iff kinded.mono).1 (settled.apart name F found b listed other n inside) _ leaf own

end Settled

/-! ### Uses -/

theorem mem_closeUses {ts : List Ty} {t : Ty} (member : t ∈ closeUses σ ts) :
    ∃ u ∈ ts, t = (σ.resolve u).1 := by
  induction ts with
  | nil => cases member
  | cons u ts ih =>
    simp only [closeUses, List.foldr_cons] at member ih
    split at member
    · obtain ⟨v, inside, same⟩ := ih member
      exact ⟨v, List.mem_cons_of_mem _ inside, same⟩
    · rcases List.mem_cons.1 member with same | old
      · exact ⟨u, List.mem_cons_self, same⟩
      · obtain ⟨v, inside, same⟩ := ih old
        exact ⟨v, List.mem_cons_of_mem _ inside, same⟩

theorem UsedAt.resolve {b t : Ty} (used : UsedAt b f.meaning t)
    (denotes : Denotes f.supply σ f.meaning) : (σ.resolve t).1 = t := by
  obtain ⟨dom, rank, size, walk⟩ := denotes
  obtain ⟨s', resolved, -⟩ := Subst.resolve_spec walk (.of_closed used.mono used.closed)
  rw [resolved, assign_of_closed used.closed]

theorem Settled.used_close {name : String} {t : Ty}
    (settled : Settled raw.blocks raw.functions raw.values raw.uses f)
    (denotes : Denotes f.supply (raw.defaulted σ) f.meaning) (member : t ∈ (raw.close σ).usesOf name) :
    ∃ F, raw.functions.get? name = some F ∧ UsedAt F.type f.meaning t := by
  rw [Checked.usesOf, List.mem_mergeSort, Checked.close_eq, NameMap.get?_map] at member
  cases recorded : raw.uses.get? name with
  | none => simp [recorded] at member
  | some ts =>
    rw [recorded] at member
    obtain ⟨u, inside, rfl⟩ := mem_closeUses (by simpa using member)
    obtain ⟨F, found, each⟩ := settled.uses name ts recorded
    have used := each u inside
    exact ⟨F, found, (used.resolve denotes).symm ▸ used⟩

theorem Settled.uses_close {name : String} {t : Ty}
    (settled : Settled raw.blocks raw.functions raw.values raw.uses f)
    (denotes : Denotes f.supply (raw.defaulted σ) f.meaning) (member : t ∈ (raw.close σ).usesOf name) :
    t.leaves = [] ∧ ∃ F, raw.functions.get? name = some F ∧
      ((closeType (raw.defaulted σ) F.type).body.matchWith t []).1 = true := by
  obtain ⟨F, found, used⟩ := settled.used_close denotes member
  have general := settled.general name F found
  rw [Ty.leaves_of_mono used.mono]
  refine ⟨used.closed, F, found, ?_⟩
  rw [general.body_close denotes]
  exact used.matchWith general.kinded general.unbound

/-! ### The result -/

structure Finalized (c : Checked) : Prop where
  decls : ∀ d ∈ c.module.decls, ∀ n ∈ declNotes d, ∀ id, (id, true) ∈ n.type.leaves →
    ∃ g F, d = .fn g ∧ c.functions.get? g.name = some F ∧ F.isPolymorphic ∧ id ∈ F.type.quantified
  main : ∀ e, c.module.main = some e → ∀ n ∈ e.notes, ∀ id, (id, true) ∉ n.type.leaves
  disjoint : ∀ name F, c.functions.get? name = some F → ∀ other G, c.functions.get? other = some G →
    name ≠ other → ∀ a ∈ F.type.quantified, a ∉ G.type.quantified
  uses : ∀ name, ∀ t ∈ c.usesOf name, t.leaves = [] ∧ ∃ F, c.functions.get? name = some F ∧
    (F.type.body.matchWith t []).1 = true

theorem Function.isPolymorphic_of_quantified {F : Function} {id : VarId}
    (member : id ∈ F.type.quantified) : F.isPolymorphic := by
  unfold isPolymorphic
  cases shape : F.type with
  | scheme vars t =>
    rw [shape] at member
    have some : vars ≠ [] := List.ne_nil_of_mem member
    simpa [Ty.isPolymorphic] using some
  | _ => simp [shape, Ty.quantified] at member

theorem Settled.finalized (settled : Settled raw.blocks raw.functions raw.values raw.uses f)
    (denotes : Denotes f.supply (raw.defaulted σ) f.meaning)
    (left : ∀ n ∈ raw.notes, ∀ o ∈ (n.type.assign f.meaning).occurrences, o.2 = true →
      o.1 ∈ quantifiedVars raw.functions) : Finalized (raw.close σ) := by
  have closed : ∀ name F, (raw.close σ).functions.get? name = some F → ∃ F₀,
      raw.functions.get? name = some F₀ ∧ F.type.quantified = F₀.type.quantified := by
    intro name F found
    rw [Checked.close_eq, NameMap.get?_map, Option.map_eq_some_iff] at found
    obtain ⟨F₀, found, rfl⟩ := found
    exact ⟨F₀, found, (settled.general name F₀ found).quantified_close denotes⟩
  have keeps : ∀ name F, raw.functions.get? name = some F →
      (raw.close σ).functions.get? name = some (F.shut (raw.defaulted σ)) := by
    intro name F found
    rw [Checked.close_eq, NameMap.get?_map, found]
    rfl
  constructor
  · intro d member n inside id leaf
    rw [Checked.close_decls] at member
    obtain ⟨d, here, rfl⟩ := List.mem_map.1 member
    rw [declNotes_mapDecl] at inside
    obtain ⟨n, noted, rfl⟩ := List.mem_map.1 inside
    have listed : block d ∈ raw.blocks := List.mem_append_left _ (List.mem_map.2 ⟨d, here, rfl⟩)
    obtain ⟨name, F, own, found, quantified⟩ :=
      settled.owner denotes left listed (block_notes d ▸ noted) leaf
    cases d with
    | fn g =>
      cases own
      have again := (settled.general _ F found).quantified_close denotes
      have here : id ∈ (F.shut (raw.defaulted σ)).type.quantified := again.symm ▸ quantified
      exact ⟨_, _, rfl, keeps _ F found, Function.isPolymorphic_of_quantified here, here⟩
    | value d | type d => cases own
  · intro e found n inside id leaf
    rw [Checked.close_main, Option.map_eq_some_iff] at found
    obtain ⟨e, found, rfl⟩ := found
    rw [Expr.notes_mapNotes] at inside
    obtain ⟨n, noted, rfl⟩ := List.mem_map.1 inside
    have listed : (none, e.notes) ∈ raw.blocks := by simp [Checked.blocks, found]
    obtain ⟨name, F, own, -⟩ := settled.owner denotes left listed noted leaf
    cases own
  · intro name F found other G foundG distinct a member inside
    obtain ⟨F₀, found, same⟩ := closed name F found
    obtain ⟨G₀, foundG, sameG⟩ := closed other G foundG
    exact settled.disjoint name F₀ found other G₀ foundG distinct a (same ▸ member) (sameG ▸ inside)
  · intro name t member
    obtain ⟨none, F, found, matched⟩ := settled.uses_close denotes member
    exact ⟨none, F.shut (raw.defaulted σ), keeps name F found, matched⟩

/-- The tree of an accepted module has a type at every node, and the result is closed under the
substitution that inference ended with, numeric variables made `int`. Host members and arguments of
constructors have no variables; imports and annotations have no quantifier below the top. -/
theorem check_finalized {c : Checked} (hostClosed : HostClosed host) (imports : ImportsPlain importer)
    (args : CtorArgsPlain m) (annotations : ∀ d, .fn d ∈ m.decls → AnnotationsPlain d)
    (run : check host importer m = .ok c) :
    c.module.decls.map eraseDecl = m.decls ∧ c.module.main.map Expr.erase = m.main ∧
      (∃ raw s, inferOpen host importer m {} = .ok raw s ∧ c = raw.close s.subst ∧
        ∀ t, c.Shows t → ∀ o ∈ t.leaves, (raw.defaulted s.subst).get? o.1 = none) ∧
      Finalized c := by
  unfold check at run
  split at run
  · next c' s inferred =>
    cases run
    obtain ⟨decls, main⟩ := inferModule_faithful inferred
    obtain ⟨raw, runRaw, rfl⟩ := inferModule_ok inferred
    obtain ⟨w, before, denotes⟩ := inferOpen_settled hostClosed imports args annotations runRaw
    obtain ⟨f, settled, denotes, left⟩ := before.close denotes
    obtain ⟨p, s₁, p', s₂, e, -, -, -, gathers⟩ := inferOpen_parts runRaw
    refine ⟨decls, main, ⟨raw, s, runRaw, rfl, fun t shown => ?_⟩, settled.finalized denotes left⟩
    obtain ⟨u, known, rfl⟩ := Checked.shows_close shown
    exact settled.get?_eq_none_of_shown denotes gathers.type known
  · cases run

theorem check_finalized_twice : ∃ c, check (.chain []) none twiceModule = .ok c ∧
    (c.usesOf "twice").map Ty.text = ["(Int -> Int) -> Int -> Int"] ∧ Finalized c := by
  have uses : (check (.chain []) none twiceModule).map (fun c => (c.usesOf "twice").map Ty.text) =
      .ok ["(Int -> Int) -> Int -> Int"] := by
    decide +kernel
  cases found : check (.chain []) none twiceModule with
  | error d => simp [found, Except.map] at uses
  | ok c =>
    have plain : ∀ d, .fn d ∈ twiceModule.decls → AnnotationsPlain d := by
      intro d member
      simp only [twiceModule, List.mem_singleton, Decl.fn.injEq] at member
      subst member
      simp [AnnotationsPlain, Ty.body, Ty.isMono]
    simp only [found, Except.map, Except.ok.injEq] at uses
    exact ⟨c, rfl, uses, (check_finalized hostClosed_chain (by simp [ImportsPlain])
      (by simp [CtorArgsPlain, twiceModule]) plain found).2.2.2⟩

/-! ### Quantifiers below the top -/

/-- A list of polymorphic functions as an annotated parameter, over a variable that inference binds
later. -/
def higherModule : Module Position where
  note := default
  name := "M"
  imports := []
  decls := [.fn ⟨default, "f",
    [⟨"x", some (.list (.scheme [9] (.fn (.var 9) (.var 9))))⟩, ⟨"y", none⟩], none,
    .var default "y"⟩]
  main := some (.apply default (.var default "f") [.list default [], .int default 1])

/-- The same without annotations: the parameter is handed on to an imported function. -/
def borrowingModule : Module Position where
  note := default
  name := "M"
  imports := ["L"]
  decls := [.fn ⟨default, "f", [⟨"x", none⟩, ⟨"y", none⟩], none,
    .sequence default [.apply default (.var default "L.g") [.var default "x"], .var default "y"]⟩]
  main := some (.apply default (.var default "f") [.list default [], .int default 1])

def higherImporter : Importer := fun _ =>
  .ok ⟨"L", [⟨"g", .fn (.list (.scheme [8] (.fn (.var 8) (.var 8)))) .unit⟩]⟩

/-- A use of `f` that does not match. -/
def Unmatched (c : Checked) : Prop :=
  ∃ t ∈ c.usesOf "f", ∃ F, c.functions.get? "f" = some F ∧ (F.type.body.matchWith t []).1 = false

theorem unmatched_of_matches {importer : Option Importer} {m : Module Position}
    (matches_eq : (check (.chain []) importer m).map (fun c => (c.usesOf "f").map fun t =>
      (c.functions.get? "f").map fun F => (F.type.body.matchWith t []).1) = .ok [some false]) :
    ∃ c, check (.chain []) importer m = .ok c ∧ Unmatched c := by
  cases found : check (.chain []) importer m with
  | error d => simp [found, Except.map] at matches_eq
  | ok c =>
    simp only [found, Except.map, Except.ok.injEq] at matches_eq
    refine ⟨c, rfl, ?_⟩
    obtain ⟨t, listed, same⟩ := List.mem_map.1 (matches_eq ▸ List.mem_singleton_self _)
    obtain ⟨F, known, matched⟩ := Option.map_eq_some_iff.1 same
    exact ⟨t, listed, F, known, matched⟩

/-- Below the top, matching goes through a quantifier of the scheme but through none of the use, be the
type annotated or imported. -/
theorem check_higher : HostClosed (.chain []) ∧ CtorArgsPlain higherModule ∧
    CtorArgsPlain borrowingModule ∧
    (∃ c, check (.chain []) none higherModule = .ok c ∧ Unmatched c) ∧
    ∃ c, check (.chain []) (some higherImporter) borrowingModule = .ok c ∧ Unmatched c := by
  refine ⟨hostClosed_chain, ?_, ?_, unmatched_of_matches ?_, unmatched_of_matches ?_⟩
  · simp [CtorArgsPlain, higherModule]
  · simp [CtorArgsPlain, borrowingModule]
  · decide +kernel
  · decide +kernel

end StackML.Typing
