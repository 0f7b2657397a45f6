import EbpfTools.Lib.Run

/-!
# Outputs that tell the state

A program whose outputs in each step turn a view of the old state into that view of the new one has
a complete journal: whoever applies all outputs of a run knows the view of the state.
-/

namespace EbpfTools.Lib

variable {σ ι ο ρ : Type} {step : σ → ι → σ × List ο} {s : σ}

theorem foldl_runOut {apply : ρ → ο → ρ} {view : σ → ρ} {xs : List ι}
    (h : ∀ pre x post, xs = pre ++ x :: post →
      (step (runState step s pre) x).2.foldl apply (view (runState step s pre)) =
        view (step (runState step s pre) x).1) :
    (runOut step s xs).foldl apply (view s) = view (runState step s xs) := by
  induction xs using List.reverseRecOn with
  | nil => rfl
  | append_singleton xs x ih =>
      have hprev := ih fun pre y post he => h pre y (post ++ [x]) (by simp [he])
      rw [runOut_concat, runState_concat, List.foldl_append, hprev]
      exact h xs x [] rfl

/-- The outputs of one kind are a complete journal if the others do not change the view. -/
theorem foldl_filter_runOut {apply : ρ → ο → ρ} {view : σ → ρ} {p : ο → Bool} {xs : List ι}
    (h : ∀ pre x post, xs = pre ++ x :: post →
      ((step (runState step s pre) x).2.filter p).foldl apply (view (runState step s pre)) =
        view (step (runState step s pre) x).1) :
    ((runOut step s xs).filter p).foldl apply (view s) = view (runState step s xs) := by
  rw [List.foldl_filter]
  refine foldl_runOut fun pre x post he => ?_
  rw [← List.foldl_filter]
  exact h pre x post he

end EbpfTools.Lib
