import StackML.Expr.FreeNames
import StackML.Proofs.Expr.Notes

/-!
Expressions without recursive functions in which no nested function captures more than a byte can count,
and whose names are no qualified ones. The notes of a tree do not matter to that.
-/

namespace StackML

variable {α β : Type}

namespace Expr

def paramNames (params : List String) : List String := if params.isEmpty then ["_"] else params

theorem subset_paramNames (params : List String) : params ⊆ paramNames params := by
  rw [paramNames]
  split
  · next none =>
    rw [List.isEmpty_iff.1 none]
    exact List.nil_subset _
  · exact List.Subset.refl _

/-- The names that a nested function may capture: those in scope that occur in it. -/
def captured (scope params : List String) (body : Expr α) : List String :=
  (body.freeNames ("" :: params)).filter (scope.contains ·)

mutual
/-- Whether the expression has no recursive function, no name with a dot and no function that captures more
than a byte can count; `scope` has the names in scope that come from the function around it. -/
def isModest (scope : List String) : Expr α → Bool
  | var _ name => '.' ∉ name.toList
  | interp _ parts => modestParts scope parts
  | unary _ _ e | print _ e | build _ _ e => e.isModest scope
  | binary _ _ l r => l.isModest scope && r.isModest scope
  | cond _ c t e => c.isModest scope && t.isModest scope && e.isModest scope
  | letIn _ name v b => v.isModest scope && b.isModest (name :: scope)
  | letRec .. => false
  | lambda _ params b => (captured scope params b).length ≤ 255 && b.isModest (paramNames params ++ scope)
  | apply _ c args => c.isModest scope && modestAll scope args
  | sequence _ es | list _ es => modestAll scope es
  | cons _ h t => h.isModest scope && t.isModest scope
  | matchOn _ e arms => e.isModest scope && modestArms scope arms
  | hostCall _ _ _ args => modestAll scope args
  | hostMethod _ r _ args => r.isModest scope && modestAll scope args
  | _ => true

def modestAll (scope : List String) : List (Expr α) → Bool
  | [] => true
  | e :: es => e.isModest scope && modestAll scope es

def modestParts (scope : List String) : List (Part α) → Bool
  | [] => true
  | .text _ :: ps => modestParts scope ps
  | .hole e :: ps => e.isModest scope && modestParts scope ps

def modestArms (scope : List String) : List (Arm α) → Bool
  | [] => true
  | .mk p e :: arms => e.isModest (p.names.reverse ++ scope) && modestArms scope arms
end

variable {scope : List String}

theorem modestAll_iff {es : List (Expr α)} : modestAll scope es ↔ ∀ e ∈ es, e.isModest scope := by
  induction es with
  | nil => simp [modestAll]
  | cons e es ih => simp [modestAll, ih]

theorem modestParts_iff {ps : List (Part α)} : modestParts scope ps ↔ ∀ e, .hole e ∈ ps → e.isModest scope := by
  induction ps with
  | nil => simp [modestParts]
  | cons p ps ih => cases p <;> simp [modestParts, ih, or_imp, forall_and]

theorem modestArms_iff {as : List (Arm α)} :
    modestArms scope as ↔ ∀ p e, .mk p e ∈ as → e.isModest (p.names.reverse ++ scope) := by
  induction as with
  | nil => simp [modestArms]
  | cons a as ih =>
    cases a
    simp only [modestArms, Bool.and_eq_true, ih, List.mem_cons, Arm.mk.injEq]
    grind

end Expr

/-! ### Other notes -/

@[simp] theorem Pattern.names_mapNotes (f : α → β) (p : Pattern α) : (p.mapNotes f).names = p.names := by
  induction p with
  | cons n head tail ihHead ihTail => simp [mapNotes, names, ihHead, ihTail]
  | build n name arg ih => simp [mapNotes, names, ih]
  | _ => rfl

namespace Expr

theorem seeNames_mapNotes (f : α → β) (e : Expr α) (bound seen : List String) :
    (e.mapNotes f).seeNames bound seen = e.seeNames bound seen := by
  have all : ∀ es : List (Expr α),
      (∀ e ∈ es, ∀ bound seen, (e.mapNotes f).seeNames bound seen = e.seeNames bound seen) →
      ∀ bound seen, seeAll bound seen (es.map (mapNotes f)) = seeAll bound seen es := by
    intro es each
    induction es with
    | nil => exact fun _ _ => rfl
    | cons e es ih =>
      rw [List.forall_mem_cons] at each
      simp [seeAll, each.1, ih each.2]
  have parts : ∀ ps : List (Part α),
      (∀ e, .hole e ∈ ps → ∀ bound seen, (e.mapNotes f).seeNames bound seen = e.seeNames bound seen) →
      ∀ bound seen, seeParts bound seen (ps.map (mapPart f)) = seeParts bound seen ps := by
    intro ps each
    induction ps with
    | nil => exact fun _ _ => rfl
    | cons p ps ih =>
      have rest := ih fun e member => each e (List.mem_cons_of_mem _ member)
      cases p with
      | text t => simpa [mapPart, seeParts] using rest
      | hole e => simp [mapPart, seeParts, each e (by simp), rest]
  have arms : ∀ as : List (Arm α),
      (∀ p b, .mk p b ∈ as → ∀ bound seen, (b.mapNotes f).seeNames bound seen = b.seeNames bound seen) →
      ∀ bound seen, seeArms bound seen (as.map (mapArm f)) = seeArms bound seen as := by
    intro as each
    induction as with
    | nil => exact fun _ _ => rfl
    | cons a as ih =>
      have rest := ih fun p b member => each p b (List.mem_cons_of_mem _ member)
      obtain ⟨p, b⟩ := a
      simp [mapArm, seeArms, each p b (by simp), rest]
  induction e using induct generalizing bound seen with
  | interp n ps ih => simp [mapNotes, seeNames, mapParts_eq, parts ps ih]
  | apply n c args ihc ih | hostMethod n c m args ihc ih => simp [mapNotes, seeNames, mapAll_eq, ihc, all args ih]
  | sequence n es ih | list n es ih | hostCall n o m es ih => simp [mapNotes, seeNames, mapAll_eq, all es ih]
  | matchOn n e as ihe ih => simp [mapNotes, seeNames, mapArms_eq, ihe, arms as ih]
  | unary n op e ih | lambda n op e ih | print n e ih | build n op e ih => simp [mapNotes, seeNames, ih]
  | binary n op l r ihl ihr | letIn n op l r ihl ihr | cons n l r ihl ihr => simp [mapNotes, seeNames, ihl, ihr]
  | letRec n name fn ps fb b ihf ihb => simp [mapNotes, seeNames, ihf, ihb]
  | cond n c t e ihc iht ihe => simp [mapNotes, seeNames, ihc, iht, ihe]
  | _ => rfl

theorem captured_mapNotes (f : α → β) (scope params : List String) (body : Expr α) :
    captured scope params (body.mapNotes f) = captured scope params body := by
  rw [captured, captured, freeNames, freeNames, seeNames_mapNotes]

theorem isModest_mapNotes (f : α → β) (e : Expr α) (scope : List String) :
    (e.mapNotes f).isModest scope = e.isModest scope := by
  have all : ∀ es : List (Expr α), (∀ e ∈ es, ∀ scope, (e.mapNotes f).isModest scope = e.isModest scope) →
      ∀ scope, modestAll scope (es.map (mapNotes f)) = modestAll scope es := by
    intro es each scope
    rw [Bool.eq_iff_iff, modestAll_iff, modestAll_iff, List.forall_mem_map]
    exact forall₂_congr fun e inside => by rw [each e inside]
  have parts : ∀ ps : List (Part α), (∀ e, .hole e ∈ ps → ∀ scope, (e.mapNotes f).isModest scope = e.isModest scope) →
      ∀ scope, modestParts scope (ps.map (mapPart f)) = modestParts scope ps := by
    intro ps each scope
    induction ps with
    | nil => rfl
    | cons p ps ih =>
      have rest := ih fun e member => each e (List.mem_cons_of_mem _ member)
      cases p with
      | text t => simpa [mapPart, modestParts] using rest
      | hole e => simp [mapPart, modestParts, each e (by simp), rest]
  have arms : ∀ as : List (Arm α), (∀ p b, .mk p b ∈ as → ∀ scope, (b.mapNotes f).isModest scope = b.isModest scope) →
      ∀ scope, modestArms scope (as.map (mapArm f)) = modestArms scope as := by
    intro as each scope
    induction as with
    | nil => rfl
    | cons a as ih =>
      have rest := ih fun p b member => each p b (List.mem_cons_of_mem _ member)
      obtain ⟨p, b⟩ := a
      simp [mapArm, modestArms, each p b (by simp), rest]
  induction e using induct generalizing scope with
  | interp n ps ih => simp [mapNotes, isModest, mapParts_eq, parts ps ih]
  | apply n c args ihc ih | hostMethod n c m args ihc ih => simp [mapNotes, isModest, mapAll_eq, ihc, all args ih]
  | sequence n es ih | list n es ih | hostCall n o m es ih => simp [mapNotes, isModest, mapAll_eq, all es ih]
  | matchOn n e as ihe ih => simp [mapNotes, isModest, mapArms_eq, ihe, arms as ih]
  | unary n op e ih | print n e ih | build n op e ih => simp [mapNotes, isModest, ih]
  | lambda n ps b ih => simp [mapNotes, isModest, captured_mapNotes, ih]
  | binary n op l r ihl ihr | letIn n op l r ihl ihr | cons n l r ihl ihr => simp [mapNotes, isModest, ihl, ihr]
  | letRec n name fn ps fb b ihf ihb => rfl
  | cond n c t e ihc iht ihe => simp [mapNotes, isModest, ihc, iht, ihe]
  | _ => rfl

end Expr
end StackML
