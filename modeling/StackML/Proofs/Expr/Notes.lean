import Mathlib.Data.List.Basic
import StackML.Expr.Notes

/-!
Induction on expressions through their lists of children, and the notes of a tree as a list:
visiting them is folding over that list, and replacing them depends on nothing else.
-/

namespace StackML

variable {α β σ : Type}

namespace Expr

/-- Induction on expressions; lists of children, parts and arms give one hypothesis for each
expression in them. -/
@[elab_as_elim]
theorem induct {P : Expr α → Prop}
    (int : ∀ n v, P (int n v)) (float : ∀ n v, P (float n v)) (bool : ∀ n v, P (bool n v))
    (str : ∀ n v, P (str n v)) (unit : ∀ n, P (unit n))
    (interp : ∀ n parts, (∀ e, .hole e ∈ parts → P e) → P (interp n parts))
    (var : ∀ n name, P (var n name)) (qualified : ∀ n m name, P (qualified n m name))
    (unary : ∀ n op e, P e → P (unary n op e))
    (binary : ∀ n op l r, P l → P r → P (binary n op l r))
    (cond : ∀ n c t e, P c → P t → P e → P (cond n c t e))
    (letIn : ∀ n name v b, P v → P b → P (letIn n name v b))
    (letRec : ∀ n name fn params fb b, P fb → P b → P (letRec n name fn params fb b))
    (lambda : ∀ n params b, P b → P (lambda n params b))
    (apply : ∀ n c args, P c → (∀ e ∈ args, P e) → P (apply n c args))
    (sequence : ∀ n es, (∀ e ∈ es, P e) → P (sequence n es))
    (print : ∀ n e, P e → P (print n e))
    (list : ∀ n es, (∀ e ∈ es, P e) → P (list n es))
    (cons : ∀ n h t, P h → P t → P (cons n h t))
    (matchOn : ∀ n e arms, P e → (∀ p b, .mk p b ∈ arms → P b) → P (matchOn n e arms))
    (tag : ∀ n name, P (tag n name)) (build : ∀ n name e, P e → P (build n name e))
    (hostCall : ∀ n o m args, (∀ e ∈ args, P e) → P (hostCall n o m args))
    (hostMethod : ∀ n r m args, P r → (∀ e ∈ args, P e) → P (hostMethod n r m args))
    (hostField : ∀ n o name, P (hostField n o name)) (hostNew : ∀ n o, P (hostNew n o)) :
    ∀ e, P e := by
  intro e
  refine @Expr.rec α P (fun p => ∀ e, p = .hole e → P e) (fun a => ∀ p b, a = .mk p b → P b)
    (fun parts => ∀ e, .hole e ∈ parts → P e) (fun es => ∀ e ∈ es, P e)
    (fun arms => ∀ p b, .mk p b ∈ arms → P b)
    int float bool str unit interp var qualified unary binary cond letIn letRec lambda apply
    sequence print list cons matchOn tag build hostCall hostMethod hostField hostNew
    ?_ ?_ ?_ ?_ ?_ ?_ ?_ ?_ ?_ e
  · simp
  · rintro e ih _ ⟨⟩
    exact ih
  · rintro p b ih _ _ ⟨⟩
    exact ih
  · simp
  · intro part parts first rest e member
    rcases List.mem_cons.1 member with same | later
    · exact first e same.symm
    · exact rest e later
  · simp
  · intro a as first rest e member
    rcases List.mem_cons.1 member with rfl | later
    · exact first
    · exact rest e later
  · simp
  · intro arm arms first rest p b member
    rcases List.mem_cons.1 member with same | later
    · exact first p b same.symm
    · exact rest p b later

end Expr

/-! ### Lists of children -/

namespace Expr

theorem mapAll_eq (f : α → β) (done : List (Expr β)) (es : List (Expr α)) :
    mapAll f done es = done.reverse ++ es.map (mapNotes f) := by
  induction es generalizing done with
  | nil => simp [mapAll]
  | cons e es ih => simp [mapAll, ih]

def mapPart (f : α → β) : Part α → Part β
  | .text t => .text t
  | .hole e => .hole (e.mapNotes f)

theorem mapParts_eq (f : α → β) (done : List (Part β)) (ps : List (Part α)) :
    mapParts f done ps = done.reverse ++ ps.map (mapPart f) := by
  induction ps generalizing done with
  | nil => simp [mapParts]
  | cons p ps ih => cases p <;> simp [mapParts, mapPart, ih]

def mapArm (f : α → β) : Arm α → Arm β
  | .mk p e => .mk (p.mapNotes f) (e.mapNotes f)

theorem mapArms_eq (f : α → β) (done : List (Arm β)) (as : List (Arm α)) :
    mapArms f done as = done.reverse ++ as.map (mapArm f) := by
  induction as generalizing done with
  | nil => simp [mapArms]
  | cons a as ih => cases a; simp [mapArms, mapArm, ih]

@[simp] theorem note_mapNotes (f : α → β) (e : Expr α) : (e.mapNotes f).note = f e.note := by
  cases e <;> rfl

end Expr

@[simp] theorem Pattern.note_mapNotes (f : α → β) (p : Pattern α) :
    (p.mapNotes f).note = f p.note := by
  cases p <;> rfl

/-! ### The list of notes -/

def Pattern.notes : Pattern α → List α
  | wild n | var n _ | int n _ | bool n _ | str n _ | nil n | tag n _ => [n]
  | cons n head tail => n :: (head.notes ++ tail.notes)
  | build n _ arg => n :: arg.notes

theorem Pattern.foldNotes_eq (f : σ → α → σ) (s : σ) (p : Pattern α) :
    p.foldNotes f s = p.notes.foldl f s := by
  induction p generalizing s with
  | cons n head tail ihHead ihTail => simp [foldNotes, notes, ihHead, ihTail]
  | build n name arg ih => simp [foldNotes, notes, ih]
  | _ => rfl

theorem Pattern.mapNotes_congr {f g : α → β} {p : Pattern α} (same : ∀ n ∈ p.notes, f n = g n) :
    p.mapNotes f = p.mapNotes g := by
  induction p with
  | cons n head tail ihHead ihTail =>
    simp only [notes, List.forall_mem_cons, List.forall_mem_append] at same
    rw [mapNotes, mapNotes, same.1, ihHead same.2.1, ihTail same.2.2]
  | build n name arg ih =>
    simp only [notes, List.forall_mem_cons] at same
    rw [mapNotes, mapNotes, same.1, ih same.2]
  | _ => simp_all [mapNotes, notes]

namespace Expr

mutual
def notes : Expr α → List α
  | int n _ | float n _ | bool n _ | str n _ | unit n | var n _ | qualified n .. => [n]
  | interp n parts => n :: notesOfParts parts
  | unary n _ e => n :: e.notes
  | binary n _ l r => n :: (l.notes ++ r.notes)
  | cond n c t e => n :: (c.notes ++ (t.notes ++ e.notes))
  | letIn n _ v b => n :: (v.notes ++ b.notes)
  | letRec n _ fn _ fb b => n :: fn :: (fb.notes ++ b.notes)
  | lambda n _ b => n :: b.notes
  | apply n c args => n :: (c.notes ++ notesOfAll args)
  | sequence n es => n :: notesOfAll es
  | print n e => n :: e.notes
  | list n es => n :: notesOfAll es
  | cons n h t => n :: (h.notes ++ t.notes)
  | matchOn n e arms => n :: (e.notes ++ notesOfArms arms)
  | tag n _ => [n]
  | build n _ e => n :: e.notes
  | hostCall n _ _ args => n :: notesOfAll args
  | hostMethod n r _ args => n :: (r.notes ++ notesOfAll args)
  | hostField n .. | hostNew n _ => [n]

def notesOfAll : List (Expr α) → List α
  | [] => []
  | e :: es => e.notes ++ notesOfAll es

def notesOfParts : List (Part α) → List α
  | [] => []
  | .text _ :: ps => notesOfParts ps
  | .hole e :: ps => e.notes ++ notesOfParts ps

def notesOfArms : List (Arm α) → List α
  | [] => []
  | .mk p e :: as => p.notes ++ (e.notes ++ notesOfArms as)
end

theorem mem_notesOfAll {es : List (Expr α)} {n : α} :
    n ∈ notesOfAll es ↔ ∃ e ∈ es, n ∈ e.notes := by
  induction es with
  | nil => simp [notesOfAll]
  | cons e es ih => simp [notesOfAll, ih]

theorem mem_notesOfParts {ps : List (Part α)} {n : α} :
    n ∈ notesOfParts ps ↔ ∃ e, .hole e ∈ ps ∧ n ∈ e.notes := by
  induction ps with
  | nil => simp [notesOfParts]
  | cons p ps ih => cases p <;> simp [notesOfParts, ih, or_and_right, exists_or]

theorem mem_notesOfArms {as : List (Arm α)} {n : α} :
    n ∈ notesOfArms as ↔ ∃ p e, .mk p e ∈ as ∧ (n ∈ p.notes ∨ n ∈ e.notes) := by
  induction as with
  | nil => simp [notesOfArms]
  | cons a as ih =>
    cases a
    simp only [notesOfArms, List.mem_append, ih, List.mem_cons, Arm.mk.injEq, or_and_right,
      exists_or]
    simp [or_assoc]

theorem note_mem_notes (e : Expr α) : e.note ∈ e.notes := by
  cases e <;> exact List.mem_cons_self

theorem foldNotes_eq (f : σ → α → σ) (s : σ) (e : Expr α) :
    e.foldNotes f s = e.notes.foldl f s := by
  have all : ∀ es : List (Expr α), (∀ e ∈ es, ∀ s, e.foldNotes f s = e.notes.foldl f s) →
      ∀ s, foldAll f s es = (notesOfAll es).foldl f s := by
    intro es each
    induction es with
    | nil => simp [foldAll, notesOfAll]
    | cons e es ih =>
      simp only [List.forall_mem_cons] at each
      simp [foldAll, notesOfAll, each.1, ih each.2]
  have parts : ∀ ps : List (Part α), (∀ e, .hole e ∈ ps → ∀ s, e.foldNotes f s = e.notes.foldl f s) →
      ∀ s, foldParts f s ps = (notesOfParts ps).foldl f s := by
    intro ps each
    induction ps with
    | nil => simp [foldParts, notesOfParts]
    | cons p ps ih =>
      have rest := ih fun e member => each e (List.mem_cons_of_mem _ member)
      cases p with
      | text t => simpa [foldParts, notesOfParts] using rest
      | hole e => simp [foldParts, notesOfParts, each e (by simp), rest]
  have arms : ∀ as : List (Arm α),
      (∀ p b, .mk p b ∈ as → ∀ s, b.foldNotes f s = b.notes.foldl f s) →
      ∀ s, foldArms f s as = (notesOfArms as).foldl f s := by
    intro as each
    induction as with
    | nil => simp [foldArms, notesOfArms]
    | cons a as ih =>
      have rest := ih fun p b member => each p b (List.mem_cons_of_mem _ member)
      obtain ⟨p, b⟩ := a
      simp [foldArms, notesOfArms, each p b (by simp), rest, Pattern.foldNotes_eq]
  induction e using induct generalizing s with
  | interp n ps ih => simp [foldNotes, notes, parts ps ih]
  | apply n c args ihc ih => simp [foldNotes, notes, ihc, all args ih]
  | sequence n es ih | list n es ih => simp [foldNotes, notes, all es ih]
  | hostCall n o m es ih => simp [foldNotes, notes, all es ih]
  | hostMethod n r m es ihr ih => simp [foldNotes, notes, ihr, all es ih]
  | matchOn n e as ihe ih => simp [foldNotes, notes, ihe, arms as ih]
  | unary n op e ih | lambda n op e ih | print n e ih | build n op e ih =>
    simp [foldNotes, notes, ih]
  | binary n op l r ihl ihr | letIn n op l r ihl ihr | cons n l r ihl ihr =>
    simp [foldNotes, notes, ihl, ihr]
  | letRec n name fn ps fb b ihf ihb => simp [foldNotes, notes, ihf, ihb]
  | cond n c t e ihc iht ihe => simp [foldNotes, notes, ihc, iht, ihe]
  | _ => rfl

theorem mapNotes_congr {f g : α → β} {e : Expr α} (same : ∀ n ∈ e.notes, f n = g n) :
    e.mapNotes f = e.mapNotes g := by
  induction e using induct with
  | interp n ps ih =>
    simp only [notes, List.forall_mem_cons, mem_notesOfParts] at same
    rw [mapNotes, mapNotes, same.1, mapParts_eq, mapParts_eq]
    refine congrArg _ (congrArg _ (List.map_congr_left fun p member => ?_))
    cases p with
    | text t => rfl
    | hole e => rw [mapPart, mapPart, ih e member fun n inside => same.2 n ⟨e, member, inside⟩]
  | apply n c args ihc ih =>
    simp only [notes, List.forall_mem_cons, List.forall_mem_append, mem_notesOfAll] at same
    rw [mapNotes, mapNotes, same.1, ihc same.2.1, mapAll_eq, mapAll_eq]
    refine congrArg _ (congrArg _ (List.map_congr_left fun e member => ?_))
    exact ih e member fun n inside => same.2.2 n ⟨e, member, inside⟩
  | sequence n es ih | list n es ih | hostCall n o m es ih =>
    simp only [notes, List.forall_mem_cons, mem_notesOfAll] at same
    rw [mapNotes, mapNotes, same.1, mapAll_eq, mapAll_eq]
    refine congrArg _ (congrArg _ (List.map_congr_left fun e member => ?_))
    exact ih e member fun n inside => same.2 n ⟨e, member, inside⟩
  | hostMethod n r m es ihr ih =>
    simp only [notes, List.forall_mem_cons, List.forall_mem_append, mem_notesOfAll] at same
    rw [mapNotes, mapNotes, same.1, ihr same.2.1, mapAll_eq, mapAll_eq]
    refine congrArg _ (congrArg _ (List.map_congr_left fun e member => ?_))
    exact ih e member fun n inside => same.2.2 n ⟨e, member, inside⟩
  | matchOn n e as ihe ih =>
    simp only [notes, List.forall_mem_cons, List.forall_mem_append, mem_notesOfArms] at same
    rw [mapNotes, mapNotes, same.1, ihe same.2.1, mapArms_eq, mapArms_eq]
    refine congrArg _ (congrArg _ (List.map_congr_left fun arm member => ?_))
    obtain ⟨p, b⟩ := arm
    have inPattern := Pattern.mapNotes_congr (f := f) (g := g) (p := p) fun n inside =>
      same.2.2 n ⟨p, b, member, .inl inside⟩
    have inBody := ih p b member fun n inside => same.2.2 n ⟨p, b, member, .inr inside⟩
    rw [mapArm, mapArm, inPattern, inBody]
  | unary n op e ih | lambda n op e ih | print n e ih | build n op e ih =>
    simp only [notes, List.forall_mem_cons] at same
    rw [mapNotes, mapNotes, same.1, ih same.2]
  | binary n op l r ihl ihr | letIn n op l r ihl ihr | cons n l r ihl ihr =>
    simp only [notes, List.forall_mem_cons, List.forall_mem_append] at same
    rw [mapNotes, mapNotes, same.1, ihl same.2.1, ihr same.2.2]
  | letRec n name fn ps fb b ihf ihb =>
    simp only [notes, List.forall_mem_cons, List.forall_mem_append] at same
    rw [mapNotes, mapNotes, same.1, same.2.1, ihf same.2.2.1, ihb same.2.2.2]
  | cond n c t e ihc iht ihe =>
    simp only [notes, List.forall_mem_cons, List.forall_mem_append] at same
    rw [mapNotes, mapNotes, same.1, ihc same.2.1, iht same.2.2.1, ihe same.2.2.2]
  | int n v | float n v | bool n v | str n v | unit n | var n v | qualified n m v | tag n v
  | hostField n o v | hostNew n o =>
    rw [mapNotes, mapNotes, same n List.mem_cons_self]

end Expr

theorem Pattern.notes_mapNotes (f : α → β) (p : Pattern α) :
    (p.mapNotes f).notes = p.notes.map f := by
  induction p with
  | cons n head tail ihHead ihTail => simp [mapNotes, notes, ihHead, ihTail]
  | build n name arg ih => simp [mapNotes, notes, ih]
  | _ => rfl

theorem Expr.notes_mapNotes (f : α → β) (e : Expr α) : (e.mapNotes f).notes = e.notes.map f := by
  have all : ∀ es : List (Expr α), (∀ e ∈ es, (e.mapNotes f).notes = e.notes.map f) →
      notesOfAll (es.map (mapNotes f)) = (notesOfAll es).map f := by
    intro es each
    induction es with
    | nil => rfl
    | cons e es ih =>
      simp only [List.forall_mem_cons] at each
      simp [notesOfAll, each.1, ih each.2]
  have parts : ∀ ps : List (Part α), (∀ e, .hole e ∈ ps → (e.mapNotes f).notes = e.notes.map f) →
      notesOfParts (ps.map (mapPart f)) = (notesOfParts ps).map f := by
    intro ps each
    induction ps with
    | nil => rfl
    | cons p ps ih =>
      have rest := ih fun e member => each e (List.mem_cons_of_mem _ member)
      cases p with
      | text t => simpa [mapPart, notesOfParts] using rest
      | hole e => simp [mapPart, notesOfParts, each e (by simp), rest]
  have arms : ∀ as : List (Arm α), (∀ p b, .mk p b ∈ as → (b.mapNotes f).notes = b.notes.map f) →
      notesOfArms (as.map (mapArm f)) = (notesOfArms as).map f := by
    intro as each
    induction as with
    | nil => rfl
    | cons a as ih =>
      have rest := ih fun p b member => each p b (List.mem_cons_of_mem _ member)
      obtain ⟨p, b⟩ := a
      simp [mapArm, notesOfArms, each p b (by simp), rest, Pattern.notes_mapNotes]
  induction e using induct with
  | interp n ps ih => simp [mapNotes, notes, mapParts_eq, parts ps ih]
  | apply n c args ihc ih | hostMethod n c m args ihc ih =>
    simp [mapNotes, notes, mapAll_eq, ihc, all args ih]
  | sequence n es ih | list n es ih | hostCall n o m es ih =>
    simp [mapNotes, notes, mapAll_eq, all es ih]
  | matchOn n e as ihe ih => simp [mapNotes, notes, mapArms_eq, ihe, arms as ih]
  | unary n op e ih | lambda n op e ih | print n e ih | build n op e ih => simp [mapNotes, notes, ih]
  | binary n op l r ihl ihr | letIn n op l r ihl ihr | cons n l r ihl ihr =>
    simp [mapNotes, notes, ihl, ihr]
  | letRec n name fn ps fb b ihf ihb => simp [mapNotes, notes, ihf, ihb]
  | cond n c t e ihc iht ihe => simp [mapNotes, notes, ihc, iht, ihe]
  | _ => rfl

section Twice

variable {γ : Type} (f : α → β) (g : β → γ)

theorem Pattern.mapNotes_mapNotes (p : Pattern α) :
    (p.mapNotes f).mapNotes g = p.mapNotes (g ∘ f) := by
  induction p with
  | cons n head tail ihHead ihTail => simp [mapNotes, ihHead, ihTail]
  | build n name arg ih => simp [mapNotes, ih]
  | _ => rfl

namespace Expr

theorem mapNotes_mapNotes (e : Expr α) : (e.mapNotes f).mapNotes g = e.mapNotes (g ∘ f) := by
  have all : ∀ es : List (Expr α), (∀ e ∈ es, (e.mapNotes f).mapNotes g = e.mapNotes (g ∘ f)) →
      (es.map (mapNotes f)).map (mapNotes g) = es.map (mapNotes (g ∘ f)) := by
    intro es each
    rw [List.map_map]
    exact List.map_congr_left each
  induction e using induct with
  | interp n ps ih =>
    simp only [mapNotes, mapParts_eq, List.reverse_nil, List.nil_append, List.map_map]
    refine congrArg _ (List.map_congr_left fun p member => ?_)
    cases p with
    | text t => rfl
    | hole e => exact congrArg Part.hole (ih e member)
  | matchOn n e as ihe ih =>
    simp only [mapNotes, mapArms_eq, List.reverse_nil, List.nil_append, List.map_map, ihe]
    refine congrArg _ (List.map_congr_left fun arm member => ?_)
    obtain ⟨p, b⟩ := arm
    simp only [Function.comp_apply, mapArm, Pattern.mapNotes_mapNotes, ih p b member]
  | apply n c args ihc ih | hostMethod n c m args ihc ih =>
    simp only [mapNotes, mapAll_eq, List.reverse_nil, List.nil_append, ihc, all args ih,
      Function.comp_apply]
  | sequence n es ih | list n es ih | hostCall n o m es ih =>
    simp only [mapNotes, mapAll_eq, List.reverse_nil, List.nil_append, all es ih,
      Function.comp_apply]
  | unary n op e ih | lambda n op e ih | print n e ih | build n op e ih =>
    simp only [mapNotes, ih, Function.comp_apply]
  | binary n op l r ihl ihr | letIn n op l r ihl ihr | cons n l r ihl ihr =>
    simp only [mapNotes, ihl, ihr, Function.comp_apply]
  | letRec n name fn ps fb b ihf ihb => simp only [mapNotes, ihf, ihb, Function.comp_apply]
  | cond n c t e ihc iht ihe => simp only [mapNotes, ihc, iht, ihe, Function.comp_apply]
  | _ => rfl

end Expr
end Twice
end StackML
