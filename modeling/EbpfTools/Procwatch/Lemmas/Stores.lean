import EbpfTools.Procwatch.Lemmas.Args

/-!
# The stores into a record

The sanitizer works on the record itself, and its stores are all that `handle_event` writes to it.
-/

namespace EbpfTools.Procwatch
open EbpfTools.Lib

theorem sanitizeLoop_eq_stores {n : Nat} (left i : Nat) (args : Buf n) :
    sanitizeLoop left i args = args.stores (sanitizeStores left i args) := by
  induction left generalizing i args with
  | zero => rfl
  | succ left ih =>
      rw [sanitizeLoop, sanitizeStores]
      split
      · rw [ih, Buf.stores_cons]
      · exact ih (i + 1) args

/-- The record is left with the stores in its `args`. -/
theorem handleEvent_record (e : Event) (behind : List UInt8) :
    (handleEvent e behind).1 = { e with args := e.args.stores (handleEventStores e) } := by
  rw [handleEvent, sanitizeArgs, sanitizeLoop_eq_stores]
  rfl

/-! ## Fields that need no rewriting -/

/-- Nothing but NULs stands behind the string. -/
def Padded (bs : List UInt8) : Prop := ∀ b ∈ bs.drop (cstr bs).length, b = 0

instance (bs : List UInt8) : Decidable (Padded bs) :=
  inferInstanceAs (Decidable (∀ b ∈ _, b = 0))

theorem padded_cons_of_ne_zero {a : UInt8} (ha : a ≠ 0) (bs : List UInt8) :
    Padded (a :: bs) ↔ Padded bs := by
  have hcstr : cstr (a :: bs) = a :: cstr bs := by simp [cstr, ha]
  rw [Padded, hcstr, List.length_cons, List.drop_succ_cons, Padded]

theorem padded_zero_cons (bs : List UInt8) : Padded (0 :: bs) ↔ ∀ b ∈ bs, b = 0 := by
  rw [Padded, cstr_zero_cons, List.length_nil, List.drop_zero, List.forall_mem_cons]
  exact and_iff_right rfl

theorem padded_singleton (a : UInt8) : Padded [a] := by
  by_cases ha : a = 0
  · rw [ha, padded_zero_cons]
    exact List.forall_mem_nil _
  · rw [padded_cons_of_ne_zero ha]
    exact List.forall_mem_nil _

theorem padded_cons_cons (a b : UInt8) (bs : List UInt8) :
    Padded (a :: b :: bs) ↔ ¬ (a = 0 ∧ b ≠ 0) ∧ Padded (b :: bs) := by
  by_cases ha : a = 0
  · rw [ha, padded_zero_cons, List.forall_mem_cons]
    by_cases hb : b = 0
    · simp [hb, padded_zero_cons]
    · simp [hb]
  · simp [ha, padded_cons_of_ne_zero]

/-- The loop stores nothing exactly when the bytes from `i` on are a string and its padding. -/
theorem sanitizeStores_eq_nil_iff {n left i : Nat} (args : Buf n) (h : i + left + 1 = n) :
    sanitizeStores left i args = [] ↔ Padded (args.bytes.drop i) := by
  induction left generalizing i with
  | zero =>
      have hlen : (args.bytes.drop i).length = 1 := by rw [List.length_drop, args.size_eq]; omega
      obtain ⟨a, ha⟩ := List.length_eq_one_iff.mp hlen
      rw [ha]
      exact iff_of_true rfl (padded_singleton a)
  | succ left ih =>
      have hi : i < args.bytes.length := by rw [args.size_eq]; omega
      have hj : i + 1 < args.bytes.length := by rw [args.size_eq]; omega
      rw [List.drop_eq_getElem_cons hi, List.drop_eq_getElem_cons hj, padded_cons_cons,
        ← List.drop_eq_getElem_cons hj, sanitizeStores, List.getD_eq_getElem _ _ hi,
        List.getD_eq_getElem _ _ hj]
      split
      · rename_i hc
        exact iff_of_false (List.cons_ne_nil _ _) fun hp => hp.1 hc
      · rename_i hc
        rw [ih (by omega), and_iff_right hc]

end EbpfTools.Procwatch
