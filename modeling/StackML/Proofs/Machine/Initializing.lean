import StackML.Proofs.Machine.Unwinding

/-!
Initializers are started once. A module counts as initialized from the moment its initializer starts,
and nothing takes that back: when the initializer fails, whatever refers to the module later goes on
without the values that were not set.
-/

namespace StackML.Machine

variable {α β : Type} {limit i : Nat} {m m' : Machine} {x y : Exec α} {f g : α → Exec β}
  {setup : Setup} {steps : Nat} {init init' : Code → Exec Unit}

def Started (i : Nat) (m : Machine) : Prop := (m.instances.getD i default).initialized = true

theorem Started.kept (h : Started i m) (known : i < m.instances.size) (kept : Kept limit m m') : Started i m' :=
  (kept.grows.kept i known).initialized h

theorem initialized_of_started (h : Started i m) : initialized init i m = .ok () m := by
  unfold Machine.initialized
  have flag : (m.instances.getD i default).initialized = true := h
  rw [bind_of_ok (instanceAt_eq i m), if_pos flag]
  rfl

theorem kept_of_bind (first : Keeps limit x y) (next : ∀ a, Keeps limit (f a) (g a)) (sound : Sound m)
    (shallow : m.depth ≤ limit) : Kept limit (final (x m)) (final ((x >>= f) m)) := by
  have kept := (first m sound shallow).2
  cases run : x m with
  | error e m₁ =>
    rw [bind_of_error run]
    rw [run] at kept
    exact .refl kept.sound kept.shallow
  | ok a m₁ =>
    rw [bind_of_ok run]
    rw [run] at kept
    exact (next a m₁ kept.sound kept.shallow).2

theorem started_marked (known : i < m.instances.size) : Started i (marked i m) := by
  unfold Started marked
  rw [Array.getD_eq_getD_getElem?, Array.getElem?_modify, if_pos rfl, Array.getElem?_eq_getElem known]
  rfl

theorem initialized_of_absent (fresh : ¬ Started i m)
    (none : (m.instances.getD i default).methods.get? Names.initializer = none) :
    initialized init i m = .ok () (marked i m) := by
  have flag : ¬(m.instances.getD i default).initialized = true := fresh
  unfold Machine.initialized
  rw [bind_of_ok (instanceAt_eq i m), if_neg flag, none]
  rfl

theorem started_initialized (keeps : ∀ code, Keeps limit (init code) (init' code)) (sound : Sound m)
    (shallow : m.depth ≤ limit) (known : i < m.instances.size) : Started i (final (initialized init i m)) := by
  by_cases before : Started i m
  · rw [initialized_of_started before]
    exact before
  · have started := started_marked known
    have kept : Kept limit m (marked i m) := sound.outside shallow (outside_marked i)
    have inside : i < (marked i m).instances.size := Nat.lt_of_lt_of_le known kept.grows.size
    cases absent : (m.instances.getD i default).methods.get? Names.initializer with
    | none =>
      rw [initialized_of_absent before absent]
      exact started
    | some method =>
      have runs := ((keeps_codeOf i (m.instances.getD i default) method).bind keeps) (marked i m) kept.sound
        kept.shallow
      have flag : ¬(m.instances.getD i default).initialized = true := before
      unfold Machine.initialized
      rw [bind_of_ok (instanceAt_eq i m), if_neg flag, absent]
      exact started.kept inside runs.2

inductive Later (setup : Setup) (steps : Nat) (m : Machine) : Machine → Prop where
  | refl : Later setup steps m m
  | load (artifacts : List Artifact) {m' : Machine} :
      Later setup steps m m' → Later setup steps m (final (load artifacts m'))
  | ask (r : Request) {m' : Machine} :
      Later setup steps m m' → Later setup steps m (final (r.answer (running setup steps) setup m'))

theorem Later.kept (later : Later setup steps m m') (sound : Sound m) :
    Sound m' ∧ Grows m.instances m'.instances := by
  induction later with
  | refl => exact ⟨sound, .refl _⟩
  | load artifacts _ ih =>
    have kept := kept_load artifacts ih.1
    exact ⟨kept.sound, ih.2.trans kept.grows⟩
  | ask r _ ih =>
    have kept := kept_answer setup steps r ih.1
    exact ⟨kept.sound, ih.2.trans kept.grows⟩

theorem final_guarded (x : Exec α) (m : Machine) : (final (guarded x m)).instances = (final (x m)).instances := by
  cases run : x m with
  | ok a m' => rw [guarded_of_ok run]
  | error e m' => rw [guarded_of_error run]; rfl

def numberOf (name : Text) : Exec Nat := do
  match (← get).modules.get? name with
  | none => raise (.notLoaded name)
  | some i => pure i

/-- The number of the module of a name, which is loaded if need be. -/
def loaded (setup : Setup) (name : Text) : Exec Nat := do
  let known := (← get).modules.get? name
  if known.isNone then
    match setup.loader with
    | none => raise (.notLoaded name)
    | some find =>
      match find name with
      | .error reason => raise (.loading name reason)
      | .ok artifacts => load artifacts
  numberOf name

theorem moduleOf_eq (setup : Setup) (init : Code → Exec Unit) (name : Text) : moduleOf setup init name = (do
    let i ← loaded setup name
    initialized init i
    pure i) := by
  have rest : (do
      match (← get).modules.get? name with
      | none => raise (.notLoaded name)
      | some i =>
        initialized init i
        pure i : Exec Nat) = (do
      let i ← numberOf name
      initialized init i
      pure i) := by
    unfold numberOf
    rw [bind_assoc]
    refine bind_congr fun m => ?_
    cases m.modules.get? name <;> rfl
  unfold moduleOf loaded
  rw [bind_assoc]
  refine bind_congr fun m => ?_
  dsimp only
  split
  · cases setup.loader with
    | none => exact (bind_congr fun _ => rest).trans (bind_assoc _ _ _).symm
    | some find =>
      dsimp only
      cases find name with
      | error reason => exact (bind_congr fun _ => rest).trans (bind_assoc _ _ _).symm
      | ok artifacts => exact (bind_congr fun _ => rest).trans (bind_assoc _ _ _).symm
  · exact rest

theorem keeps_numberOf (name : Text) : Keeps limit (numberOf name) (numberOf name) :=
  congruence_keeps.state fun m => by
    cases m.modules.get? name with
    | none => exact congruence_keeps.raise _
    | some i => exact congruence_keeps.pure i

theorem keeps_loaded (name : Text) : Keeps limit (loaded setup name) (loaded setup name) := by
  refine congruence_keeps.state fun m => Congruence.ite (fun _ => ?_) fun _ => keeps_numberOf name
  split
  · exact congruence_keeps.bind (congruence_keeps.raise _) fun _ => keeps_numberOf name
  · split
    · exact congruence_keeps.bind (congruence_keeps.raise _) fun _ => keeps_numberOf name
    · exact congruence_keeps.bind (keeps_load _) fun _ => keeps_numberOf name

theorem loaded_of_known {name : Text} (known : m.modules.get? name = some i) : loaded setup name m = .ok i m := by
  unfold loaded numberOf
  rw [bind_of_ok (get_eq m)]
  simp only [known, Option.isNone_some, Bool.false_eq_true, if_false, bind_of_ok (get_eq m)]
  rfl

theorem moduleOf_of_known {name : Text} (known : m.modules.get? name = some i) :
    moduleOf setup init name m = (do
      initialized init i
      pure i) m := by
  rw [moduleOf_eq, bind_of_ok (loaded_of_known known)]

theorem started_answer {r : Request} {m₀ : Machine} (sound : Sound m)
    (found : loaded setup r.module m = .ok i m₀) (known : i < m₀.instances.size) :
    Started i (final (r.answer (running setup steps) setup m)) ∧
      i < (final (r.answer (running setup steps) setup m)).instances.size := by
  have allowed := le_depthLimit setup m
  have shallow : m.depth ≤ max m.depth setup.maxFrames.toNat := Nat.le_max_left _ _
  have calls := keeps_invokeBy allowed (keeps_running allowed steps)
  have keeps := congruence_keeps.dropped calls
  let start : Code → Exec Unit := starting (running setup steps) setup
  have loading := (keeps_loaded r.module).ok sound shallow found
  have first := Keeps.of (.initialized i) keeps
  have started := started_initialized keeps loading.sound loading.shallow known
  have inside : i < (final (initialized start i m₀)).instances.size :=
    Nat.lt_of_lt_of_le known (first m₀ loading.sound loading.shallow).2.grows.size
  have early : Kept (max m.depth setup.maxFrames.toNat) (final (initialized start i m₀))
      (final (moduleOf setup start r.module m)) := by
    rw [moduleOf_eq, bind_of_ok found]
    exact kept_of_bind (f := fun _ => pure i) first (fun _ => .pure i) loading.sound loading.shallow
  have late : Kept (max m.depth setup.maxFrames.toNat) (final (moduleOf setup start r.module m))
      (final (r.serve (invokeBy (running setup steps) setup) setup m)) :=
    kept_of_bind (.of (.moduleOf r.module) keeps) (congruence_keeps.respond calls r) sound shallow
  have rest := early.trans late
  unfold Started
  rw [Request.answer_eq_guarded, final_guarded]
  exact ⟨started.kept inside rest, Nat.lt_of_lt_of_le inside rest.grows.size⟩

theorem runModuleWithin_starts {name : Text} {m₀ : Machine} (sound : Sound m)
    (found : loaded setup name m = .ok i m₀) (known : i < m₀.instances.size) :
    Started i (final (runModuleWithin steps setup name m)) := by
  rw [runModuleWithin_eq_answer]
  exact (started_answer sound found known).1

theorem callMethod_starts {module method : Text} {args : List Value} {m₀ : Machine} (sound : Sound m)
    (found : loaded setup module m = .ok i m₀) (known : i < m₀.instances.size) :
    Started i (final (callMethod setup module method args m)) := by
  rw [callMethod_eq_answer]
  exact (started_answer sound found known).1

theorem fieldValue_starts {module name : Text} {m₀ : Machine} (sound : Sound m)
    (found : loaded setup module m = .ok i m₀) (known : i < m₀.instances.size) :
    Started i (final (fieldValue setup module name m)) := by
  rw [fieldValue_eq_answer]
  exact (started_answer sound found known).1

/-- Whatever comes of a request to a module, which may be loaded for it, its initializer is never started
again: a later look at the module does nothing. -/
theorem initialized_once {r : Request} {m₀ : Machine} (sound : Sound m)
    (found : loaded setup r.module m = .ok i m₀) (known : i < m₀.instances.size)
    (later : Later setup steps (final (r.answer (running setup steps) setup m)) m')
    (init : Code → Exec Unit) : initialized init i m' = .ok () m' := by
  have kept := kept_answer setup steps r sound
  obtain ⟨-, grows⟩ := later.kept kept.sound
  obtain ⟨started, inside⟩ : Started i (final (r.answer (running setup steps) setup m)) ∧ _ :=
    started_answer sound found known
  exact initialized_of_started ((grows.kept i inside).initialized started)

/-- A module whose initializer fails before it sets the only value, and a method that does without the
value. -/
def halfSet : Artifact where
  name := "M"
  constants := #[{ kind := .int, int := 5 }]
  methods := [
    { name := Names.initializer, descriptor := "()V", code := #[Opcode.matchfail.code] },
    { name := "five", descriptor := "()I", code := #[Opcode.iconst.code, 0, 0, Opcode.ireturn.code] }]
  fields := [{ name := "x", descriptor := "I" }]

def valueOf {α : Type} : EStateM.Result Halt Machine α → Option α
  | .ok a _ => some a
  | .error _ _ => none

theorem initialized_once_halfSet :
    let setup : Setup := { loader := some fun _ => .ok [halfSet] }
    let failed := final ((Request.evaluate "M").answer (running setup endless) setup {})
    Sound {} ∧ loaded setup "M" {} = .ok 0 (final (load [halfSet] {})) ∧
      0 < (final (load [halfSet] {})).instances.size ∧
      Later setup endless failed (final (load [dependent] failed)) ∧
      ∀ init, initialized init 0 (final (load [dependent] failed)) = .ok () (final (load [dependent] failed)) := by
  intro setup failed
  have found : loaded setup "M" {} = .ok 0 (final (load [halfSet] {})) := rfl
  have known : 0 < (final (load [halfSet] {})).instances.size := by decide +kernel
  exact ⟨sound_new, found, known, .load _ .refl,
    initialized_once (r := .evaluate "M") sound_new found known (.load _ .refl)⟩

/-- After its initializer failed, a method of the module is executed although a value is not set. -/
theorem answered_after_failure :
    let m := final (load [halfSet] {})
    let failed := (Request.evaluate "M").answer (running {} endless) {} m
    let later := (Request.call "M" "five" []).answer (running {} endless) {} (final failed)
    faultOf failed = some (.noCase, ("M.<clinit>" : Text)) ∧
      (valueOf later).any (·.equal (.int 5)) = true ∧
      ((final later).instances.getD 0 default).fields.contains ("x" : Text) = false := by
  decide +kernel

end StackML.Machine
