import Mathlib.Data.List.Basic

/-!
# Texts of fields with a separator

When a text of fields occurs in a text of as many fields, the separators fall on each other: the
first field is the end of the other first field, the last one the start of the other last field,
and the fields between are equal.
-/

namespace EbpfTools.Lib

variable {α : Type} {sep : α}

theorem first_field_inj {a b r s : List α} (ha : sep ∉ a) (hb : sep ∉ b)
    (h : a ++ sep :: r = b ++ sep :: s) : a = b ∧ r = s := by
  induction a generalizing b with
  | nil =>
      cases b with
      | nil => exact ⟨rfl, (List.cons.inj h).2⟩
      | cons y b =>
          obtain ⟨rfl, -⟩ := List.cons.inj h
          exact absurd List.mem_cons_self hb
  | cons x a ih =>
      cases b with
      | nil =>
          obtain ⟨rfl, -⟩ := List.cons.inj h
          exact absurd List.mem_cons_self ha
      | cons y b =>
          obtain ⟨rfl, htail⟩ := List.cons.inj h
          obtain ⟨rfl, hrs⟩ := ih (fun hm => ha (List.mem_cons_of_mem x hm))
            (fun hm => hb (List.mem_cons_of_mem x hm)) htail
          exact ⟨rfl, hrs⟩

theorem intercalate_cons_concat (p : List α) (ps : List (List α)) (l : List α) :
    [sep].intercalate (p :: (ps ++ [l])) = p ++ sep :: [sep].intercalate (ps ++ [l]) := by
  cases ps <;> simp

theorem intercalate_concat_append (ps : List (List α)) (l v : List α) :
    [sep].intercalate (ps ++ [l ++ v]) = [sep].intercalate (ps ++ [l]) ++ v := by
  induction ps with
  | nil => simp
  | cons p ps ih => simp only [List.cons_append, intercalate_cons_concat, ih, List.append_assoc]

/-- The fields before the last one are read off the text, whatever follows it. -/
theorem intercalate_append_inj {ms ns : List (List α)} {l r v : List α}
    (hlen : ms.length = ns.length) (hms : ∀ m ∈ ms, sep ∉ m) (hns : ∀ n ∈ ns, sep ∉ n)
    (h : [sep].intercalate (ms ++ [l]) ++ v = [sep].intercalate (ns ++ [r])) :
    ms = ns ∧ l ++ v = r := by
  induction ms generalizing ns with
  | nil =>
      cases ns with
      | nil => simpa using h
      | cons n ns => cases hlen
  | cons m ms ih =>
      cases ns with
      | nil => cases hlen
      | cons n ns =>
          rw [List.cons_append, List.cons_append, intercalate_cons_concat, intercalate_cons_concat,
            List.append_assoc, List.cons_append] at h
          obtain ⟨rfl, hrest⟩ := first_field_inj (hms m List.mem_cons_self)
            (hns n List.mem_cons_self) h
          obtain ⟨rfl, hlast⟩ := ih (Nat.succ.inj hlen)
            (fun p hp => hms p (List.mem_cons_of_mem m hp))
            (fun p hp => hns p (List.mem_cons_of_mem m hp)) hrest
          exact ⟨rfl, hlast⟩

theorem count_intercalate [BEq α] [LawfulBEq α] {ps : List (List α)} (h : ∀ p ∈ ps, sep ∉ p) :
    ([sep].intercalate ps).count sep = ps.length - 1 := by
  induction ps with
  | nil => rfl
  | cons p ps ih =>
      have hp : p.count sep = 0 := List.count_eq_zero.mpr (h p List.mem_cons_self)
      have ih := ih fun q hq => h q (List.mem_cons_of_mem p hq)
      cases ps with
      | nil => simpa using hp
      | cons q ps =>
          rw [List.intercalate_cons_cons, List.count_append, List.count_append, ih, hp]
          simp
          omega

/-- Occurrence of a text of fields in a text of as many fields. -/
theorem infix_intercalate_iff [BEq α] [LawfulBEq α] {p q l r : List α} {ms ns : List (List α)}
    (hlen : ms.length = ns.length) (hps : ∀ x ∈ p :: (ms ++ [l]), sep ∉ x)
    (hqs : ∀ x ∈ q :: (ns ++ [r]), sep ∉ x) :
    [sep].intercalate (p :: (ms ++ [l])) <:+: [sep].intercalate (q :: (ns ++ [r])) ↔
      p <:+ q ∧ ms = ns ∧ l <+: r := by
  constructor
  · rintro ⟨u, v, huv⟩
    have hcount := congrArg (List.count sep) huv
    rw [List.count_append, List.count_append, count_intercalate hps, count_intercalate hqs]
      at hcount
    simp only [List.length_cons, List.length_append, hlen] at hcount
    have hu : sep ∉ u := List.count_eq_zero.mp (by omega)
    have hup : sep ∉ u ++ p := fun hm =>
      (List.mem_append.mp hm).elim hu (hps p List.mem_cons_self)
    rw [intercalate_cons_concat, intercalate_cons_concat, ← List.append_assoc, List.append_assoc,
      List.cons_append] at huv
    obtain ⟨hq, hrest⟩ := first_field_inj hup (hqs q List.mem_cons_self) huv
    obtain ⟨hms, hr⟩ := intercalate_append_inj hlen (fun x hx => hps x (by simp [hx]))
      (fun x hx => hqs x (by simp [hx])) hrest
    exact ⟨⟨u, hq⟩, hms, ⟨v, hr⟩⟩
  · rintro ⟨⟨u, rfl⟩, rfl, ⟨v, rfl⟩⟩
    refine ⟨u, v, ?_⟩
    rw [intercalate_cons_concat, intercalate_cons_concat, intercalate_concat_append]
    simp

end EbpfTools.Lib
