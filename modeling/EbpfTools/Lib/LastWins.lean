import Mathlib.Logic.Function.Basic
import Mathlib.Data.List.Induction

/-!
# Settings of which the last one counts

A list of inputs sets the fields of a record: an input gives some field a value, and a later value
replaces an earlier one. `foldl_eq_getLastD` reads a field off the record at the end. Where each
value is a condition on one aspect of an event, the record of the last values accepts the events
that all values accept exactly if the last value of each field implies the earlier ones, or if no
event is accepted at all (`last_iff_all`).
-/

namespace EbpfTools.Lib

section Fold
variable {F T V : Type} {step : F → T → F} {Inv : F → Prop} {get : F → V} {set : T → Option V}

/-- A field that each input either leaves alone or sets to a value of its own. -/
theorem foldl_eq_getLastD (hinv : ∀ f t, Inv f → Inv (step f t))
    (hget : ∀ f t, Inv f → get (step f t) = (set t).getD (get f)) {f : F} (hf : Inv f)
    (ts : List T) : get (ts.foldl step f) = (ts.filterMap set).getLastD (get f) := by
  induction ts generalizing f with
  | nil => rfl
  | cons t ts ih =>
      rw [List.foldl_cons, ih (hinv f t hf), hget f t hf]
      cases h : set t with
      | none =>
          rw [List.filterMap_cons_none h]
          rfl
      | some v =>
          rw [List.filterMap_cons_some h, List.getLastD_cons]
          rfl

end Fold

section Accept
variable {K Ev : Type} {V E : K → Type} (sat : ∀ k, V k → E k → Prop) (proj : ∀ k, Ev → E k)
  (d : ∀ k, V k) (vals : ∀ k, List (V k))

/-- The value that counts of each field. -/
def lastOf (k : K) : V k := (vals k).getLastD (d k)

variable {sat proj d vals}

theorem sat_lastOf {k : K} {x : E k} (hd : sat k (d k) x) (h : ∀ v ∈ vals k, sat k v x) :
    sat k (lastOf d vals k) x := by
  rw [lastOf]
  cases hlast : (vals k).getLast? with
  | none =>
      rw [List.getLastD_eq_getLast?, hlast]
      exact hd
  | some v =>
      rw [List.getLastD_eq_getLast?, hlast]
      exact h v (List.mem_of_getLast? hlast)

/-- The last values accept what all values accept, unless a last value accepts more than an earlier
one of its field while the other last values accept something. -/
theorem last_iff_all (hd : ∀ k x, sat k (d k) x)
    (hproj : ∀ x : (∀ k, E k), ∃ e, ∀ k, proj k e = x k) :
    (∀ e, (∀ k, sat k (lastOf d vals k) (proj k e)) ↔ ∀ k, ∀ v ∈ vals k, sat k v (proj k e)) ↔
      (∃ k, ∀ x, ¬ sat k (lastOf d vals k) x) ∨
        ∀ k, ∀ v ∈ vals k, ∀ x, sat k (lastOf d vals k) x → sat k v x := by
  classical
  constructor
  · intro h
    by_cases hnone : ∃ k, ∀ x, ¬ sat k (lastOf d vals k) x
    · exact Or.inl hnone
    · right
      intro k v hv x hx
      simp only [not_exists, not_forall, not_not] at hnone
      choose y hy using hnone
      -- an event with `x` for the field `k` and something accepted for the others
      obtain ⟨e, he⟩ := hproj (Function.update y k x)
      have hlast : ∀ j, sat j (lastOf d vals j) (proj j e) := by
        intro j
        rw [he j]
        by_cases hj : j = k
        · subst hj
          simpa using hx
        · rw [Function.update_of_ne hj]
          exact hy j
      have hall := (h e).mp hlast k v hv
      rw [he k, Function.update_self] at hall
      exact hall
  · rintro h e
    refine ⟨fun hlast k v hv => ?_, fun hall k => sat_lastOf (hd k _) (hall k)⟩
    rcases h with ⟨j, hj⟩ | h
    · exact absurd (hlast j) (hj _)
    · exact h k v hv _ (hlast k)

end Accept

end EbpfTools.Lib
