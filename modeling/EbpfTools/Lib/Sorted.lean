import Mathlib.Data.List.Pairwise

/-!
# Splitting a sorted list

A predicate that holds of everything before an element it holds of picks a prefix.
-/

namespace EbpfTools.Lib

variable {α : Type} {r : α → α → Prop} {p : α → Bool}

theorem pairwise_iff_split {l : List α} :
    l.Pairwise r ↔ ∀ pre a mid b post, l = pre ++ a :: (mid ++ b :: post) → r a b := by
  induction l with
  | nil => simp
  | cons c l ih =>
      rw [List.pairwise_cons, ih]
      constructor
      · rintro ⟨hc, hl⟩ pre a mid b post he
        cases pre with
        | nil =>
            obtain ⟨rfl, rfl⟩ := List.cons.inj he
            exact hc b (by simp)
        | cons d pre => exact hl pre a mid b post (List.cons.inj he).2
      · intro h
        refine ⟨fun b hb => ?_, fun pre a mid b post he => h (c :: pre) a mid b post (by simp [he])⟩
        obtain ⟨mid, post, rfl⟩ := List.append_of_mem hb
        exact h [] c mid b post rfl

theorem filter_append_filter_not {l : List α} (h : l.Pairwise r)
    (hp : ∀ a b, r a b → p b → p a) : l.filter p ++ l.filter (fun a => !p a) = l := by
  induction l with
  | nil => rfl
  | cons a l ih =>
      rw [List.pairwise_cons] at h
      by_cases ha : p a
      · simp [ha, ih h.2]
      · have hn : l.filter p = [] := by
          rw [List.filter_eq_nil_iff]
          exact fun b hb hpb => ha (hp a b (h.1 b hb) hpb)
        have hl := ih h.2
        rw [hn, List.nil_append] at hl
        simp [ha, hn, hl]

/-- A list sorted by a number falls into the part below an interval, the part in it and the part
above it. -/
theorem filter_interval {f : α → Nat} {l : List α} (h : l.Pairwise fun a b => f a ≤ f b)
    {lo hi : Nat} (hle : lo ≤ hi) :
    l.filter (fun a => f a < lo) ++
      (l.filter (fun a => lo ≤ f a ∧ f a ≤ hi) ++ l.filter (fun a => hi < f a)) = l := by
  have h₁ := filter_append_filter_not (p := fun a => decide (f a < lo)) h fun a b hab hb => by
    simp only [decide_eq_true_eq] at hb ⊢
    omega
  have h₂ := filter_append_filter_not (p := fun a => decide (f a ≤ hi))
    (h.sublist (List.filter_sublist (p := fun a => !decide (f a < lo)))) fun a b hab hb => by
      simp only [decide_eq_true_eq] at hb ⊢
      omega
  have hmid : (l.filter (fun a => !decide (f a < lo))).filter (fun a => decide (f a ≤ hi)) =
      l.filter (fun a => lo ≤ f a ∧ f a ≤ hi) := by
    rw [List.filter_filter]
    apply List.filter_congr
    intro a _
    simp only [← decide_not, Nat.not_lt, Bool.decide_and, Bool.and_comm]
  have htop : (l.filter (fun a => !decide (f a < lo))).filter (fun a => !decide (f a ≤ hi)) =
      l.filter (fun a => hi < f a) := by
    rw [List.filter_filter]
    apply List.filter_congr
    intro a _
    simp only [← decide_not, Nat.not_lt, Nat.not_le, ← Bool.decide_and, decide_eq_decide]
    omega
  rw [hmid, htop] at h₂
  rw [h₂, h₁]

end EbpfTools.Lib
