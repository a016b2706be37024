/-!
Computations with a state that may fail: what a run of one after the other went through, and what a
loop of them preserves.
-/

namespace StackML

variable {ε σ α β : Type} {x : EStateM ε σ α} {next : α → EStateM ε σ β} {s s' s₁ : σ} {a : α}

theorem bind_of_ok (run : x s = .ok a s₁) : (x >>= next) s = next a s₁ := by
  change EStateM.bind x next s = next a s₁
  unfold EStateM.bind
  rw [run]

theorem bind_of_error {e : ε} (run : x s = .error e s₁) : (x >>= next) s = .error e s₁ := by
  change EStateM.bind x next s = .error e s₁
  unfold EStateM.bind
  rw [run]

theorem bind_ok {b : β} (run : (x >>= next) s = .ok b s') :
    ∃ a s₁, x s = .ok a s₁ ∧ next a s₁ = .ok b s' := by
  cases first : x s with
  | ok a s₁ =>
    rw [bind_of_ok first] at run
    exact ⟨a, s₁, rfl, run⟩
  | error e s₁ =>
    rw [bind_of_error first] at run
    cases run

theorem ite_bind_ok {p : Prop} [Decidable p] {y : EStateM ε σ α} {b : β}
    (run : (if p then x >>= next else y >>= next) s = .ok b s') :
    ∃ a s₁, (if p then x else y) s = .ok a s₁ ∧ next a s₁ = .ok b s' := by
  split at run
  · next holds => simpa [holds] using bind_ok run
  · next fails => simpa [fails] using bind_ok run

theorem pure_ok {b : α} (run : (pure a : EStateM ε σ α) s = .ok b s') : b = a ∧ s' = s := by
  cases run
  exact ⟨rfl, rfl⟩

theorem foldlM_invariant {P : β → σ → Prop} {f : β → α → EStateM ε σ β} {l : List α}
    (step : ∀ b, ∀ a ∈ l, ∀ s b' s', P b s → f b a s = .ok b' s' → P b' s') {b b' : β}
    (start : P b s) (run : l.foldlM f b s = .ok b' s') : P b' s' := by
  induction l generalizing b s with
  | nil =>
    cases run
    exact start
  | cons a l ih =>
    rw [List.foldlM_cons] at run
    obtain ⟨b₁, s₁, first, rest⟩ := bind_ok run
    exact ih (fun b x member => step b x (List.mem_cons_of_mem _ member))
      (step b a List.mem_cons_self s b₁ s₁ start first) rest

end StackML
