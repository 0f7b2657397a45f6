import Mathlib.Data.List.Infix
import EbpfTools.Lib.Run

/-!
# A viewport that follows a cursor

A window of `height` consecutive positions that is moved no further than needed to show a cursor.
If no step moves the cursor by more than the height of the window, a walk of the cursor shows every
position on its way (`shown_between`).
-/

namespace EbpfTools.Lib

/-- `i` is one of the `height` positions from `top` on. -/
def InWindow (top height i : Int) : Prop := top ≤ i ∧ i < top + height

/-- The first position of the window after it was moved to show `cursor`. -/
def follow (height top cursor : Int) : Int :=
  let top := if cursor < top then cursor else top
  if top + height ≤ cursor then cursor - height + 1 else top

section Follow
variable {height top cursor cursor' i : Int}

theorem follow_inWindow (h : 1 ≤ height) : InWindow (follow height top cursor) height cursor := by
  rw [InWindow, follow]
  split_ifs <;> omega

/-- `i` lies on the way from `a` to `b`, which it may be. -/
def Between (a b i : Int) : Prop := min a b ≤ i ∧ i ≤ max a b

/-- A step of at most the height of the window shows all that it passes. -/
theorem inWindow_of_between (hc : InWindow top height cursor) (hstep : (cursor' - cursor).natAbs ≤ height)
    (hi : Between cursor cursor' i) (hne : i ≠ cursor) :
    InWindow (follow height top cursor') height i := by
  obtain ⟨hge, hlt⟩ := hc
  obtain ⟨hmin, hmax⟩ := hi
  rw [InWindow, follow]
  split_ifs <;> omega

end Follow

/-! ## Walks -/

section Walk
variable {σ ι ο : Type} {step : σ → ι → σ × List ο} {s : σ} {xs : List ι}

/-- If every step of a run shows what the cursor passes in it, the run shows what lies between the
cursor at its start and at its end. -/
theorem shown_between {cursor : σ → Int} {Shows : σ → Int → Prop} (h₀ : Shows s (cursor s))
    (hstep : ∀ pre x post, xs = pre ++ x :: post → ∀ i,
      Between (cursor (runState step s pre)) (cursor (runState step s (pre ++ [x]))) i →
        i ≠ cursor (runState step s pre) → Shows (runState step s (pre ++ [x])) i)
    {i : Int} (hi : Between (cursor s) (cursor (runState step s xs)) i) :
    ∃ pre, pre <+: xs ∧ Shows (runState step s pre) i := by
  induction xs using List.reverseRecOn with
  | nil =>
      obtain ⟨hmin, hmax⟩ := hi
      rw [runState_nil] at hmin hmax
      have he : i = cursor s := by omega
      exact ⟨[], List.nil_prefix, he ▸ h₀⟩
  | append_singleton xs x ih =>
      by_cases hold : Between (cursor s) (cursor (runState step s xs)) i
      · have hprev := ih (fun pre y post he => hstep pre y (post ++ [x]) (by simp [he])) hold
        obtain ⟨pre, hpre, hshown⟩ := hprev
        exact ⟨pre, hpre.trans (List.prefix_append xs [x]), hshown⟩
      · refine ⟨xs ++ [x], List.prefix_rfl, hstep xs x [] rfl i ?_ ?_⟩
        · rw [Between] at hi hold ⊢
          omega
        · rintro rfl
          rw [Between] at hi hold
          omega

end Walk

end EbpfTools.Lib
