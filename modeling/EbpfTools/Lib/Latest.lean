import Mathlib.Data.List.Basic

/-!
# The latest element of a kind

What a list holds last among the elements that satisfy a predicate.
-/

namespace EbpfTools.Lib

variable {α : Type} {p q : α → Bool} {l : List α} {a : α}

def latest (p : α → Bool) (l : List α) : Option α := (l.filter p).getLast?

@[simp] theorem latest_nil (p : α → Bool) : latest p [] = none := rfl

theorem latest_concat_of_pos (l : List α) (h : p a) : latest p (l ++ [a]) = some a := by
  rw [latest, List.filter_append, List.filter_cons_of_pos h, List.filter_nil, List.getLast?_concat]

theorem latest_concat_of_neg (l : List α) (h : ¬ p a) : latest p (l ++ [a]) = latest p l := by
  rw [latest, List.filter_append, List.filter_cons_of_neg h, List.filter_nil, List.append_nil, latest]

theorem of_latest (h : latest p l = some a) : a ∈ l ∧ p a :=
  List.mem_filter.mp (List.mem_of_getLast? h)

theorem latest_eq_none_iff : latest p l = none ↔ ∀ b ∈ l, ¬ p b := by
  rw [latest, List.getLast?_eq_none_iff, List.filter_eq_nil_iff]

theorem latest_eq_some_iff :
    latest p l = some a ↔ ∃ pre post, l = pre ++ a :: post ∧ p a ∧ ∀ b ∈ post, ¬ p b := by
  rw [latest, List.getLast?_eq_head?_reverse, ← List.filter_reverse, List.head?_filter,
    List.find?_eq_some_iff_append]
  constructor
  · rintro ⟨ha, post, pre, hsplit, hnot⟩
    refine ⟨pre.reverse, post.reverse, ?_, ha, fun b hb => ?_⟩
    · rw [← List.reverse_inj, hsplit]
      simp
    · simpa using hnot b (List.mem_reverse.mp hb)
  · rintro ⟨pre, post, rfl, ha, hnot⟩
    exact ⟨ha, post.reverse, pre.reverse, by simp, fun b hb => by
      simpa using hnot b (List.mem_reverse.mp hb)⟩

theorem exists_latest (ha : a ∈ l) (hp : p a) : ∃ b, latest p l = some b := by
  rw [← Option.ne_none_iff_exists', latest, ne_eq, List.getLast?_eq_none_iff]
  exact List.ne_nil_of_mem (List.mem_filter.mpr ⟨ha, hp⟩)

/-- The latest element of a kind is the latest one of any narrower kind that it belongs to. -/
theorem latest_of_latest (h : latest p l = some a) (ha : q a) (hqp : ∀ b, q b → p b) :
    latest q l = some a := by
  obtain ⟨ys, hys⟩ := List.getLast?_eq_some_iff.mp h
  have hfilter : l.filter q = (l.filter p).filter q := by
    rw [List.filter_filter]
    refine List.filter_congr fun b _ => ?_
    by_cases hb : q b
    · simp [hb, hqp b hb]
    · simp [hb]
  rw [latest, hfilter, hys]
  exact latest_concat_of_pos ys ha

theorem latest_eq_none_of_imp (h : latest p l = none) (hqp : ∀ b, q b → p b) :
    latest q l = none :=
  latest_eq_none_iff.mpr fun b hb hq => latest_eq_none_iff.mp h b hb (hqp b hq)

end EbpfTools.Lib
