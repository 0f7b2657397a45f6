import Mathlib.Algebra.GroupWithZero.Nat
import Mathlib.Data.List.Basic
import Mathlib.Data.List.Induction

/-!
# Runs of a step function

A program that handles one input at a time, keeps a state and emits a list of outputs for each
input. `runState` is the state after a list of inputs and `runOut` everything emitted on the way.
-/

namespace EbpfTools.Lib

variable {σ ι ο : Type}

/-- The state after the inputs `xs`. -/
def runState (step : σ → ι → σ × List ο) (s : σ) (xs : List ι) : σ :=
  xs.foldl (fun s x => (step s x).1) s

/-- The outputs of the inputs `xs`, in order. -/
def runOut (step : σ → ι → σ × List ο) : σ → List ι → List ο
  | _, [] => []
  | s, x :: xs => (step s x).2 ++ runOut step (step s x).1 xs

variable {step : σ → ι → σ × List ο} {s : σ}

@[simp] theorem runState_nil : runState step s [] = s := rfl

@[simp] theorem runState_cons (x : ι) (xs : List ι) :
    runState step s (x :: xs) = runState step (step s x).1 xs := rfl

theorem runState_append (xs ys : List ι) :
    runState step s (xs ++ ys) = runState step (runState step s xs) ys :=
  List.foldl_append

theorem runState_concat (xs : List ι) (x : ι) :
    runState step s (xs ++ [x]) = (step (runState step s xs) x).1 := by
  simp [runState_append]

@[simp] theorem runOut_nil : runOut step s [] = [] := rfl

@[simp] theorem runOut_cons (x : ι) (xs : List ι) :
    runOut step s (x :: xs) = (step s x).2 ++ runOut step (step s x).1 xs := rfl

theorem runOut_append (xs ys : List ι) :
    runOut step s (xs ++ ys) = runOut step s xs ++ runOut step (runState step s xs) ys := by
  induction xs generalizing s with
  | nil => rfl
  | cons x xs ih => simp [ih]

theorem runOut_concat (xs : List ι) (x : ι) :
    runOut step s (xs ++ [x]) = runOut step s xs ++ (step (runState step s xs) x).2 := by
  simp [runOut_append]

/-! ## Places of a run -/

/-- A place in `xs` followed by `x` is the end or a place in `xs`. -/
theorem concat_eq_append_cons {xs pre post : List ι} {x y : ι} (h : xs ++ [x] = pre ++ y :: post) :
    xs = pre ∧ x = y ∨ ∃ post', xs = pre ++ y :: post' := by
  rcases List.eq_nil_or_concat post with rfl | ⟨post, z, rfl⟩
  · obtain ⟨hxs, hx⟩ := List.append_inj' h rfl
    exact Or.inl ⟨hxs, (List.cons.inj hx).1⟩
  · have h' : xs ++ [x] = (pre ++ y :: post) ++ [z] := by simpa using h
    exact Or.inr ⟨post, (List.append_inj' h' rfl).1⟩

/-- What holds at all places of a run holds at the first and at all places of the rest. -/
theorem forall_split_cons {P : List ι → ι → Prop} {x : ι} {xs : List ι} :
    (∀ pre y post, x :: xs = pre ++ y :: post → P pre y) ↔
      P [] x ∧ ∀ pre y post, xs = pre ++ y :: post → P (x :: pre) y := by
  constructor
  · intro h
    exact ⟨h [] x xs rfl, fun pre y post he => h (x :: pre) y post (by rw [he]; rfl)⟩
  · rintro ⟨hx, hxs⟩ pre y post he
    cases pre with
    | nil =>
        obtain ⟨rfl, -⟩ := List.cons.inj he
        exact hx
    | cons z pre =>
        obtain ⟨rfl, hrest⟩ := List.cons.inj he
        exact hxs pre y post hrest

theorem forall_split_singleton {P : List ι → ι → Prop} {x : ι} :
    (∀ pre y post, [x] = pre ++ y :: post → P pre y) ↔ P [] x := by
  rw [forall_split_cons]
  exact and_iff_left fun pre y post he => by simp at he

/-! ## From steps to runs -/

/-- An output of a run is an output of one of its steps. -/
theorem mem_runOut {xs : List ι} {o : ο} :
    o ∈ runOut step s xs ↔
      ∃ pre x post, xs = pre ++ x :: post ∧ o ∈ (step (runState step s pre) x).2 := by
  induction xs using List.reverseRecOn with
  | nil => simp
  | append_singleton xs x ih =>
      rw [runOut_concat, List.mem_append, ih]
      constructor
      · rintro (⟨pre, y, post, rfl, ho⟩ | ho)
        · exact ⟨pre, y, post ++ [x], by simp, ho⟩
        · exact ⟨xs, x, [], rfl, ho⟩
      · rintro ⟨pre, y, post, he, ho⟩
        rcases concat_eq_append_cons he with ⟨rfl, rfl⟩ | ⟨post, rfl⟩
        · exact Or.inr ho
        · exact Or.inl ⟨pre, y, post, rfl, ho⟩

/-- A relation to the states of another program that every step keeps holds after every run. -/
theorem run_simulates {τ : Type} {next : τ → ι → τ} {R : σ → τ → Prop}
    (hstep : ∀ s a x, R s a → R (step s x).1 (next a x)) {a : τ} (h : R s a) (xs : List ι) :
    R (runState step s xs) (xs.foldl next a) := by
  induction xs generalizing s a with
  | nil => exact h
  | cons x xs ih => exact ih (hstep s a x h)

/-- A relation between the inputs handled so far and the state holds after the whole run when it
holds at the start and every step of the run keeps it. -/
theorem run_invariant {Inv : List ι → σ → Prop} {xs : List ι} (h₀ : Inv [] s)
    (hstep : ∀ pre x post, xs = pre ++ x :: post → Inv pre (runState step s pre) →
      Inv (pre ++ [x]) (step (runState step s pre) x).1) :
    Inv xs (runState step s xs) := by
  induction xs using List.reverseRecOn with
  | nil => exact h₀
  | append_singleton xs x ih =>
      rw [runState_concat]
      refine hstep xs x [] rfl (ih fun pre y post he => ?_)
      exact hstep pre y (post ++ [x]) (by simp [he])

/-! ## Two ways to emit -/

section Weight
variable {step' : σ → ι → σ × List ο} (w : ο → Nat)

theorem runOut_congr (hnext : ∀ s x, (step' s x).1 = (step s x).1) {xs : List ι}
    (h : ∀ pre x post, xs = pre ++ x :: post →
      (step' (runState step s pre) x).2 = (step (runState step s pre) x).2) :
    runOut step' s xs = runOut step s xs := by
  induction xs generalizing s with
  | nil => rfl
  | cons x xs ih =>
      obtain ⟨hhead, hrest⟩ := forall_split_cons.mp h
      have htail : runOut step' (step s x).1 xs = runOut step (step s x).1 xs := ih hrest
      rw [runState_nil] at hhead
      rw [runOut_cons, runOut_cons, hnext, hhead, htail]

def weight (os : List ο) : Nat := (os.map w).sum

theorem weight_append (os ps : List ο) : weight w (os ++ ps) = weight w os + weight w ps := by
  simp [weight]

/-- If no step weighs more one way than the other, a run weighs the same both ways exactly if each
of its steps does. -/
theorem weight_runOut_eq_iff (hnext : ∀ s x, (step' s x).1 = (step s x).1)
    (hle : ∀ s x, weight w (step' s x).2 ≤ weight w (step s x).2) (xs : List ι) :
    weight w (runOut step' s xs) ≤ weight w (runOut step s xs) ∧
      (weight w (runOut step' s xs) = weight w (runOut step s xs) ↔
        ∀ pre x post, xs = pre ++ x :: post →
          weight w (step' (runState step s pre) x).2 = weight w (step (runState step s pre) x).2) := by
  induction xs generalizing s with
  | nil => simp
  | cons x xs ih =>
      have hhead := hle s x
      obtain ⟨htail, hiff⟩ := @ih (step s x).1
      rw [runOut_cons, runOut_cons, weight_append, weight_append, hnext]
      refine ⟨by omega, ?_⟩
      rw [forall_split_cons, runState_nil]
      simp only [runState_cons]
      rw [← hiff]
      omega

end Weight

end EbpfTools.Lib
