import StackML.Proofs.Codegen.Neutral

/-!
The queue of methods comes to its end. The names ever queued are bounded, and each turn of the loop
takes a method from the queue or adds one, so there are at most twice as many turns as there are
names. The loop of the library counts its turns; the turns here are those of a loop that does not
count, and the count is never what halts it.
-/

namespace StackML.Codegen

open Typing (Typed Checked)

variable {c : Checked} {α : Type}

/-! ### Methods -/

theorem neutral_defineTyped : (params : List Param) → (types : List Ty) →
    Neutral c (defineTyped params types)
  | _ :: ps, _ :: ts => (neutral_liftDefect _).bind fun _ => (neutral_define _ _).bind fun _ =>
      neutral_defineTyped ps ts
  | [], _ | _ :: _, [] => neutral_pure ()

theorem neutral_compileFunction (m : Specialization) : Neutral c (compileFunction c m) := by
  have body : Neutral c (expr { checked := c, mapping := m.mapping } m.fn.decl.body) :=
    neutral_expr rfl _
  have method (params : List Ty) (result : Ty) : Neutral c (do
      let made ← separately m.fn.decl.note.position.line do
        defineTyped m.fn.decl.params params
        let descriptor ← liftDefect (Descriptor.write params result)
        let ret ← liftDefect (Rep.ofResult result)
        let code ← bodyCode { checked := c, mapping := m.mapping } m.fn.decl.body.note ret
          (expr { checked := c, mapping := m.mapping } m.fn.decl.body)
        pure (methodOf m.name descriptor (← get).locals.max code)
      addMethod { made with function := m.fn.decl.name, signature := Signature.render m.type }) := by
    refine Neutral.bind (.separately ?_) fun _ => neutral_addMethod _
    exact (neutral_defineTyped _ _).bind fun _ => (neutral_liftDefect _).bind fun _ =>
      (neutral_liftDefect _).bind fun _ => body.bodyCode.bind fun _ => neutral_get.bind fun _ =>
        neutral_pure _
  exact .ite (fun _ => (neutral_fail _).bind fun _ => method _ _) fun _ => method _ _

theorem neutral_storeValues (done : List Fragment) (decls : List (Decl Typed)) :
    Neutral c (storeValues c done decls) := by
  induction decls generalizing done with
  | nil => exact neutral_pure _
  | cons d rest ih =>
    cases d with
    | value d =>
      exact Neutral.bind (neutral_modify fun _ => ⟨rfl, rfl, rfl⟩) fun _ =>
        (neutral_liftDefect _).bind fun _ =>
          Neutral.bind (neutral_modify fun _ => ⟨rfl, rfl, rfl⟩) fun _ =>
            (neutral_expr rfl d.value).bind fun _ => (neutral_emitConst _ _).bind fun _ => ih _
    | _ => exact ih done

theorem neutral_compileInitializer : Neutral c (compileInitializer c) := by
  refine .ite (fun _ => Neutral.bind (.separately ?_) fun _ => neutral_addMethod _)
    fun _ => neutral_pure ()
  exact (neutral_storeValues _ _).bind fun _ => (neutral_emit _).bind fun _ =>
    neutral_get.bind fun _ => neutral_pure _

theorem neutral_compileMain (e : Expr Typed) : Neutral c (compileMain c e) := by
  have body : Neutral c (expr { checked := c } e) := neutral_expr rfl e
  have main (result : Rep) : Neutral c (mainBody c e result) :=
    Neutral.separately <| body.bodyCode.bind fun _ => neutral_get.bind fun _ => neutral_pure _
  exact (neutral_liftDefect _).bind fun _ => (neutral_liftDefect _).bind fun _ =>
    (main _).bind fun _ => neutral_addMethod _

/-! ### The names that are queued -/

def nameAt (f : Typing.Function) (t : Ty) : String :=
  (f.type.body.replace (withDefaults f.type.body (f.type.body.matchWith t []).2)).specializedName
    f.decl.name f.arity

def knownNames (c : Checked) : List String :=
  (ordered c).flatMap fun f => f.decl.name :: (c.usesOf f.decl.name).map (nameAt f)

theorem length_knownNames : (knownNames c).length =
    (ordered c).length + (ordered c).foldr (fun f n => (c.usesOf f.decl.name).length + n) 0 := by
  unfold knownNames
  induction ordered c with
  | nil => rfl
  | cons f fs ih =>
    simp only [List.flatMap_cons, List.length_append, List.length_cons, List.length_map, ih,
      List.foldr_cons]
    omega

structure Justified (c : Checked) (s : State) : Prop where
  distinct : s.queued.Nodup
  bounded : s.pool.Bounded
  known : ∀ name ∈ s.queued, name ∈ knownNames c ∨ Called c s.pool name

theorem justified_start : Justified c {} := ⟨List.nodup_nil, Pool.bounded_empty, by simp⟩

theorem Justified.length_le {s : State} (h : Justified c s) : s.queued.length ≤ nameLimit c := by
  classical
  -- the known names and the others
  have split := List.length_eq_length_filter_add (· ∈ knownNames c) (l := s.queued)
  have first : (s.queued.filter (· ∈ knownNames c)).length ≤ (knownNames c).length := by
    refine ((h.distinct.filter _).subperm fun name member => ?_).length_le
    simpa using (List.mem_filter.1 member).2
  have second : (s.queued.filter fun name => !decide (name ∈ knownNames c)).length ≤
      c.functions.size * Pool.limit := by
    refine length_le_of_called h.bounded (h.distinct.filter _) fun name member => ?_
    obtain ⟨inside, other⟩ := List.mem_filter.1 member
    exact (h.known name inside).resolve_left (by simpa using other)
  rw [length_knownNames] at first
  unfold nameLimit
  omega

theorem Justified.step {s s' : State} (h : Justified c s) (run : Requests c (knownNames c) s s') :
    Justified c s' := by
  obtain ⟨new, -, queued, each⟩ := run.queued
  refine ⟨run.distinct h.distinct, run.bounded h.bounded, fun name inside => ?_⟩
  rw [queued, List.mem_append, List.mem_reverse, List.mem_map] at inside
  rcases inside with ⟨m, member, rfl⟩ | inside
  · exact each m member
  · exact (h.known name inside).imp_right (·.mono run.kept)

theorem Neutral.requests {x : Gen α} {s s' : State} {a : α} (h : Neutral c x)
    (run : x s = .ok a s') (names : List String) : Requests c names s s' := by
  obtain ⟨_, rfl, requests, -⟩ := h names s a s' run
  exact requests

theorem Accounts.known {names : List String} {x : Gen α}
    (h : Accounts c names x fun _ rest => rest ⊆ names) :
    Accounts c names x fun _ rest => rest = names := by
  intro s a s' run
  obtain ⟨rest, inside, ⟨⟨new, work, queued, each⟩, distinct, kept, bounded⟩, -⟩ := h s a s' run
  refine ⟨names, rfl, ⟨⟨new, work, queued, fun m member => ?_⟩, distinct, kept, bounded⟩,
    fun name inside => .inl inside⟩
  exact (each m member).imp_left (inside ·)

theorem enqueue_known {m : Specialization} (known : m.name ∈ knownNames c) :
    Accounts c (knownNames c) (enqueue m) fun _ rest => rest = knownNames c := by
  refine Accounts.known fun s u s' run => ?_
  obtain ⟨_, rfl, requests, paid⟩ := enqueue_accounts m s u s' run
  exact ⟨_, List.cons_subset.2 ⟨known, fun _ h => h⟩, requests, paid⟩

theorem specialize_known {f : Typing.Function} {t : Ty} (known : nameAt f t ∈ knownNames c) :
    Accounts c (knownNames c) (specialize f t) fun _ rest => rest = knownNames c := by
  unfold specialize
  dsimp only
  split
  · exact fun s r s' run => by cases run
  · refine Accounts.bind (neutral_modify (fun s => ?_) _) ?_
    · split <;> exact ⟨rfl, rfl, rfl⟩
    · rintro _ _ rfl
      exact (enqueue_known known).neutral fun _ => neutral_pure _

theorem queueFunction_known {f : Typing.Function} (member : f ∈ ordered c) :
    Accounts c (knownNames c) (queueFunction c f) fun _ rest => rest = knownNames c := by
  have known : ∀ name ∈ f.decl.name :: (c.usesOf f.decl.name).map (nameAt f),
      name ∈ knownNames c := fun name inside => List.mem_flatMap.2 ⟨f, member, inside⟩
  rw [List.forall_mem_cons] at known
  unfold queueFunction
  split
  · refine Accounts.neutral (Accounts.forIn (fun t used _ => ?_) _) fun _ => neutral_pure ()
    exact (specialize_known (known.2 _ (List.mem_map_of_mem used))).neutral fun _ => neutral_pure _
  · exact enqueue_known known.1

theorem prepare_known :
    Accounts c (knownNames c) (prepare c) fun _ rest => rest = knownNames c := by
  have functions : Accounts c (knownNames c) (forIn (ordered c) PUnit.unit fun f _ => do
      queueFunction c f
      pure (ForInStep.yield PUnit.unit)) fun _ rest => rest = knownNames c :=
    Accounts.forIn (fun f member _ => (queueFunction_known member).neutral fun _ => neutral_pure _) _
  refine functions.neutral fun _ => neutral_compileInitializer.bind fun _ => ?_
  split
  · exact neutral_compileMain _
  · exact neutral_pure ()

def queueUnused (c : Checked) (s : State) : Gen Unit :=
  forIn (unused c s) PUnit.unit fun f _ => do
    enqueue (defaulted f)
    pure (ForInStep.yield PUnit.unit)

theorem queueUnused_known {s : State} :
    Accounts c (knownNames c) (queueUnused c s) fun _ rest => rest = knownNames c := by
  refine Accounts.forIn (fun f member _ => ?_) _
  have inside : f ∈ ordered c := (List.mem_filter.1 member).1
  have known : (defaulted f).name ∈ knownNames c :=
    List.mem_flatMap.2 ⟨f, inside, List.mem_cons_self⟩
  exact (enqueue_known known).neutral fun _ => neutral_pure _

theorem enqueue_ok (m : Specialization) (s : State) :
    ∃ s', enqueue m s = .ok () s' ∧ m.name ∈ s'.queued ∧ s.queued ⊆ s'.queued := by
  refine ⟨_, rfl, ?_⟩
  dsimp only
  split
  · next known => exact ⟨by simpa using known, fun _ h => h⟩
  · exact ⟨List.mem_cons_self, List.subset_cons_self _ _⟩

theorem queueAll_ok (fs : List Typing.Function) (s : State) :
    ∃ s', (forIn fs PUnit.unit fun f _ => do
      enqueue (defaulted f)
      pure (ForInStep.yield PUnit.unit) : Gen Unit) s = .ok () s' ∧
      (∀ f ∈ fs, f.decl.name ∈ s'.queued) ∧ s.queued ⊆ s'.queued := by
  induction fs generalizing s with
  | nil => exact ⟨s, rfl, by simp, fun _ h => h⟩
  | cons f fs ih =>
    obtain ⟨s₁, first, here, kept⟩ := enqueue_ok (defaulted f) s
    obtain ⟨s', rest, others, later⟩ := ih s₁
    refine ⟨s', ?_, List.forall_mem_cons.2 ⟨later here, others⟩, fun _ h => later (kept h)⟩
    rw [List.forIn_cons, bind_assoc, bind_of_ok first]
    exact rest

theorem queueUnused_ok (s : State) : ∃ s', queueUnused c s s = .ok () s' ∧
    ∀ f ∈ unused c s, f.decl.name ∈ s'.queued := by
  obtain ⟨s', run, each, -⟩ := queueAll_ok (unused c s) s
  exact ⟨s', run, each⟩

/-! ### The loop -/

inductive Turn (c : Checked) : State → State → Prop
  | compiled {s s' : State} {m : Specialization} {rest : List Specialization}
      (next : s.work = m :: rest) (run : compileFunction c m { s with work := rest } = .ok () s') :
      Turn c s s'
  | defaulted {s s' : State} (empty : s.work = []) (more : unused c s ≠ [])
      (run : queueUnused c s s = .ok () s') : Turn c s s'

inductive Halts (c : Checked) : State → EStateM.Result Error State Unit → Prop
  | finished {s : State} (empty : s.work = []) (none : unused c s = []) : Halts c s (.ok () s)
  | failed {s s' : State} {m : Specialization} {rest : List Specialization} {e : Error}
      (next : s.work = m :: rest)
      (run : compileFunction c m { s with work := rest } = .error e s') : Halts c s (.error e s')

inductive Turns (c : Checked) : Nat → State → State → Prop
  | none (s : State) : Turns c 0 s s
  | more {n : Nat} {s s₁ s' : State} (first : Turn c s s₁) (rest : Turns c n s₁ s') :
      Turns c (n + 1) s s'

theorem Turn.spec {s s' : State} (turn : Turn c s s') (justified : Justified c s) :
    Justified c s' ∧ s.queued ⊆ s'.queued ∧
      s'.work.length + 2 * s.queued.length < s.work.length + 2 * s'.queued.length := by
  cases turn with
  | @compiled m rest next run =>
    have requests := (neutral_compileFunction m).requests run (knownNames c)
    have before : Justified c { s with work := rest } :=
      ⟨justified.distinct, justified.bounded, justified.known⟩
    obtain ⟨new, work, queued, -⟩ := requests.queued
    refine ⟨before.step requests, by rw [queued]; exact List.subset_append_right _ _, ?_⟩
    rw [work, queued, next]
    simp only [List.length_append, List.length_reverse, List.length_map, List.length_cons]
    omega
  | defaulted empty more run =>
    obtain ⟨_, rfl, requests, -⟩ := queueUnused_known s () s' run
    obtain ⟨new, work, queued, -⟩ := requests.queued
    refine ⟨justified.step requests, by rw [queued]; exact List.subset_append_right _ _, ?_⟩
    have added : new ≠ [] := by
      rintro rfl
      obtain ⟨f, inside⟩ := List.exists_mem_of_ne_nil _ more
      have free : f.decl.name ∉ s.queued := by
        have missing := (List.mem_filter.1 inside).2
        simp only [Bool.and_eq_true, Bool.not_eq_true', List.contains_eq_mem,
          decide_eq_false_iff_not] at missing
        exact missing.2
      obtain ⟨s₁, run', each⟩ := queueUnused_ok (c := c) s
      cases run.symm.trans run'
      have same : s'.queued = s.queued := queued
      exact free (same ▸ each f inside)
    have one : 0 < new.length := List.length_pos_of_ne_nil added
    rw [work, queued]
    simp only [List.length_append, List.length_reverse, List.length_map]
    omega

theorem Turn.unique {s s₁ s₂ : State} (one : Turn c s s₁) (two : Turn c s s₂) : s₁ = s₂ := by
  cases one with
  | compiled next run =>
    cases two with
    | compiled next' run' =>
      cases next.symm.trans next'
      cases run.symm.trans run'
      rfl
    | defaulted empty => cases next.symm.trans empty
  | defaulted empty more run =>
    cases two with
    | compiled next => cases next.symm.trans empty
    | defaulted empty' more' run' =>
      cases run.symm.trans run'
      rfl

theorem Halts.no_turn {s s' : State} {r : EStateM.Result Error State Unit} (halts : Halts c s r) :
    ¬Turn c s s' := by
  intro turn
  cases halts with
  | finished empty none =>
    cases turn with
    | compiled next => cases next.symm.trans empty
    | defaulted empty more => exact more none
  | failed next run =>
    cases turn with
    | compiled next' run' =>
      cases next.symm.trans next'
      cases run.symm.trans run'
    | defaulted empty => cases next.symm.trans empty

theorem Turns.spec {n : Nat} {s s' : State} (turns : Turns c n s s') (justified : Justified c s) :
    Justified c s' ∧ s.queued ⊆ s'.queued ∧
      n + s'.work.length + 2 * s.queued.length ≤ s.work.length + 2 * s'.queued.length := by
  induction turns with
  | none s => exact ⟨justified, fun _ h => h, by omega⟩
  | more first rest ih =>
    obtain ⟨justified₁, kept, nearer⟩ := first.spec justified
    obtain ⟨justified', kept', nearer'⟩ := ih justified₁
    exact ⟨justified', fun _ h => kept' (kept h), by omega⟩

theorem Turns.before_halt {n k : Nat} {s s' last : State} {r : EStateM.Result Error State Unit}
    (turns : Turns c n s s') (whole : Turns c k s last) (halts : Halts c last r) :
    ∃ j, n + j = k ∧ Turns c j s' last := by
  induction turns generalizing k with
  | none s => exact ⟨k, by omega, whole⟩
  | more first rest ih =>
    cases whole with
    | none => exact (halts.no_turn first).elim
    | more first' rest' =>
      cases first.unique first'
      obtain ⟨j, sum, turns⟩ := ih rest'
      exact ⟨j, by omega, turns⟩

theorem drain_turns {steps : Nat} {s : State} (justified : Justified c s)
    (enough : s.work.length + 2 * nameLimit c < steps + 2 * s.queued.length) :
    ∃ n last, Turns c n s last ∧ Halts c last (drain c steps s) := by
  induction steps generalizing s with
  | zero =>
    have few := justified.length_le
    omega
  | succ steps ih =>
    -- what the rest of the count does after a turn
    have after : ∀ {s₁}, Turn c s s₁ → drain c (steps + 1) s = drain c steps s₁ →
        ∃ n last, Turns c n s last ∧ Halts c last (drain c (steps + 1) s) := by
      intro s₁ turn same
      obtain ⟨justified₁, -, nearer⟩ := turn.spec justified
      obtain ⟨n, last, turns, halts⟩ := ih justified₁ (by omega)
      exact ⟨n + 1, last, .more turn turns, same ▸ halts⟩
    have got : (get : Gen State) s = .ok s s := rfl
    cases next : s.work with
    | cons m rest =>
      have step : drain c (steps + 1) s =
          (compileFunction c m >>= fun _ => drain c steps) { s with work := rest } := by
        rw [drain, bind_of_ok got]
        simp only [next]
        rfl
      cases run : compileFunction c m { s with work := rest } with
      | ok u s₁ =>
        rw [bind_of_ok run] at step
        exact after (.compiled next run) step
      | error e s₁ =>
        rw [bind_of_error run] at step
        exact ⟨0, s, .none s, step ▸ .failed next run⟩
    | nil =>
      cases left : unused c s with
      | nil =>
        have stop : drain c (steps + 1) s = .ok () s := by
          rw [drain, bind_of_ok got]
          simp only [next]
          rw [bind_of_ok got]
          simp only [left]
          rfl
        exact ⟨0, s, .none s, stop ▸ .finished next left⟩
      | cons f fs =>
        obtain ⟨s₁, run, -⟩ := queueUnused_ok (c := c) s
        have step : drain c (steps + 1) s = (queueUnused c s >>= fun _ => drain c steps) s := by
          rw [drain, bind_of_ok got]
          simp only [next]
          rw [bind_of_ok got]
          simp only [left, queueUnused]
        rw [bind_of_ok run] at step
        exact after (.defaulted next (by simp [left]) run) step

/-- Generating code comes to its end, with the artifacts or with an error. Once what is known to be
needed is queued, the loop takes at most twice as many turns as there may be names, until nothing is
queued or a method has no code, and what it halts with is the outcome. Every name that is called for
on the way is one of those queued in the end, and each of them is queued once. -/
theorem compileModule_terminates (c : Checked) :
    (∃ e s, prepare c {} = .error e s ∧ compileModule c {} = .error e s) ∨
    ∃ start n last r, prepare c {} = .ok () start ∧ Turns c n start last ∧ Halts c last r ∧
      n ≤ 2 * nameLimit c ∧ last.queued.Nodup ∧ last.queued.length ≤ nameLimit c ∧
      (∀ k s, Turns c k start s → k ≤ n ∧ s.queued ⊆ last.queued) ∧
      ((∃ artifacts, r = .ok () last ∧ compileModule c {} = .ok artifacts last) ∨
        ∃ e s, r = .error e s ∧ compileModule c {} = .error e s) := by
  cases first : prepare c {} with
  | error e s => exact .inl ⟨e, s, rfl, bind_of_error first⟩
  | ok u start =>
    right
    obtain ⟨_, rfl, requests, -⟩ := prepare_known {} u start first
    have justified : Justified c start := justified_start.step requests
    obtain ⟨new, work, queued, -⟩ := requests.queued
    have waiting : start.work.length = start.queued.length := by simp [work, queued]
    have few := justified.length_le
    have enough : start.work.length + 2 * nameLimit c < drainLimit c + 2 * start.queued.length := by
      unfold drainLimit
      omega
    obtain ⟨n, last, turns, halts⟩ := drain_turns justified enough
    obtain ⟨justified', -, nearer⟩ := turns.spec justified
    have few' := justified'.length_le
    have outcome : compileModule c {} = (drain c (drainLimit c) >>= fun _ => do
        let s ← get
        let module : Artifact :=
          { name := c.module.name, constants := s.pool.entries, methods := s.methods.reverse
            fields := s.fields.reverse }
        pure (module :: holders c)) start := bind_of_ok first
    refine ⟨start, n, last, _, rfl, turns, halts, by omega, justified'.distinct, few', ?_, ?_⟩
    · intro k s reached
      obtain ⟨j, sum, rest⟩ := reached.before_halt turns halts
      exact ⟨by omega, (rest.spec (reached.spec justified).1).2.1⟩
    · rw [outcome]
      cases run : drain c (drainLimit c) start with
      | ok u s =>
        rw [run] at halts
        cases halts
        exact .inl ⟨_, rfl, bind_of_ok run⟩
      | error e s => exact .inr ⟨e, s, rfl, bind_of_error run⟩

end StackML.Codegen
