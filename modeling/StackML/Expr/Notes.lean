import StackML.Expr.Basic

/-!
Walking over the notes of a tree: `foldNotes` visits them all, `mapNotes` replaces them. Lists of
children are walked with an accumulator, so that long literals need no deep recursion.
-/

namespace StackML

variable {α β σ : Type}

def Pattern.foldNotes (f : σ → α → σ) (s : σ) : Pattern α → σ
  | wild n | var n _ | int n _ | bool n _ | str n _ | nil n | tag n _ => f s n
  | cons n head tail => tail.foldNotes f (head.foldNotes f (f s n))
  | build n _ arg => arg.foldNotes f (f s n)

def Pattern.mapNotes (f : α → β) : Pattern α → Pattern β
  | wild n => wild (f n)
  | var n name => var (f n) name
  | int n v => int (f n) v
  | bool n v => bool (f n) v
  | str n v => str (f n) v
  | nil n => nil (f n)
  | cons n head tail => cons (f n) (head.mapNotes f) (tail.mapNotes f)
  | tag n name => tag (f n) name
  | build n name arg => build (f n) name (arg.mapNotes f)

namespace Expr

mutual
def foldNotes (f : σ → α → σ) (s : σ) : Expr α → σ
  | int n _ | float n _ | bool n _ | str n _ | unit n | var n _ | qualified n .. => f s n
  | interp n parts => foldParts f (f s n) parts
  | unary n _ e => e.foldNotes f (f s n)
  | binary n _ l r => r.foldNotes f (l.foldNotes f (f s n))
  | cond n c t e => e.foldNotes f (t.foldNotes f (c.foldNotes f (f s n)))
  | letIn n _ v b => b.foldNotes f (v.foldNotes f (f s n))
  | letRec n _ fn _ fb b => b.foldNotes f (fb.foldNotes f (f (f s n) fn))
  | lambda n _ b => b.foldNotes f (f s n)
  | apply n c args => foldAll f (c.foldNotes f (f s n)) args
  | sequence n es => foldAll f (f s n) es
  | print n e => e.foldNotes f (f s n)
  | list n es => foldAll f (f s n) es
  | cons n h t => t.foldNotes f (h.foldNotes f (f s n))
  | matchOn n e arms => foldArms f (e.foldNotes f (f s n)) arms
  | tag n _ => f s n
  | build n _ e => e.foldNotes f (f s n)
  | hostCall n _ _ args => foldAll f (f s n) args
  | hostMethod n r _ args => foldAll f (r.foldNotes f (f s n)) args
  | hostField n .. | hostNew n _ => f s n

def foldAll (f : σ → α → σ) (s : σ) : List (Expr α) → σ
  | [] => s
  | e :: es => foldAll f (e.foldNotes f s) es

def foldParts (f : σ → α → σ) (s : σ) : List (Part α) → σ
  | [] => s
  | .text _ :: ps => foldParts f s ps
  | .hole e :: ps => foldParts f (e.foldNotes f s) ps

def foldArms (f : σ → α → σ) (s : σ) : List (Arm α) → σ
  | [] => s
  | .mk p e :: as => foldArms f (e.foldNotes f (p.foldNotes f s)) as
end

mutual
def mapNotes (f : α → β) : Expr α → Expr β
  | int n v => int (f n) v
  | float n v => float (f n) v
  | bool n v => bool (f n) v
  | str n v => str (f n) v
  | unit n => unit (f n)
  | interp n parts => interp (f n) (mapParts f [] parts)
  | var n name => var (f n) name
  | qualified n m name => qualified (f n) m name
  | unary n op e => unary (f n) op (e.mapNotes f)
  | binary n op l r => binary (f n) op (l.mapNotes f) (r.mapNotes f)
  | cond n c t e => cond (f n) (c.mapNotes f) (t.mapNotes f) (e.mapNotes f)
  | letIn n name v b => letIn (f n) name (v.mapNotes f) (b.mapNotes f)
  | letRec n name fn ps fb b => letRec (f n) name (f fn) ps (fb.mapNotes f) (b.mapNotes f)
  | lambda n ps b => lambda (f n) ps (b.mapNotes f)
  | apply n c args => apply (f n) (c.mapNotes f) (mapAll f [] args)
  | sequence n es => sequence (f n) (mapAll f [] es)
  | print n e => print (f n) (e.mapNotes f)
  | list n es => list (f n) (mapAll f [] es)
  | cons n h t => cons (f n) (h.mapNotes f) (t.mapNotes f)
  | matchOn n e arms => matchOn (f n) (e.mapNotes f) (mapArms f [] arms)
  | tag n name => tag (f n) name
  | build n name e => build (f n) name (e.mapNotes f)
  | hostCall n o m args => hostCall (f n) o m (mapAll f [] args)
  | hostMethod n r m args => hostMethod (f n) (r.mapNotes f) m (mapAll f [] args)
  | hostField n o name => hostField (f n) o name
  | hostNew n o => hostNew (f n) o

def mapAll (f : α → β) (done : List (Expr β)) : List (Expr α) → List (Expr β)
  | [] => done.reverse
  | e :: es => mapAll f (e.mapNotes f :: done) es

def mapParts (f : α → β) (done : List (Part β)) : List (Part α) → List (Part β)
  | [] => done.reverse
  | .text t :: ps => mapParts f (.text t :: done) ps
  | .hole e :: ps => mapParts f (.hole (e.mapNotes f) :: done) ps

def mapArms (f : α → β) (done : List (Arm β)) : List (Arm α) → List (Arm β)
  | [] => done.reverse
  | .mk p e :: as => mapArms f (.mk (p.mapNotes f) (e.mapNotes f) :: done) as
end

end Expr
end StackML
