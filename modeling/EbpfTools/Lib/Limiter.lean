import EbpfTools.Lib.Admission

/-!
# A rate limiter in a map of bounded size

An input is dropped when the last accepted input of its key is near, and its time is kept
otherwise. The limiter treats an admitted key as if it were alone and never drops any other.
-/

namespace EbpfTools.Lib

variable {κ τ ι : Type} {cap : Nat} [DecidableEq κ]

def limit (key : ι → κ) (time : ι → τ) (near : τ → τ → Bool) (m : BoundedMap κ τ cap) (x : ι) :
    BoundedMap κ τ cap × List ι :=
  if (m.lookup (key x)).any (near (time x)) then (m, []) else (m.update (key x) (time x), [x])

/-- The limiter of a single key. -/
def limitOne (time : ι → τ) (near : τ → τ → Bool) (o : Option τ) (x : ι) : Option τ × List ι :=
  if o.any (near (time x)) then (o, []) else (some (time x), [x])

variable {key : ι → κ} {time : ι → τ} {near : τ → τ → Bool}

/-! ## One input -/

/-- The time kept for a key after an input of it. -/
def keptTime (time : ι → τ) (near : τ → τ → Bool) (o : Option τ) (x : ι) : τ :=
  match o with
  | none => time x
  | some t => if near (time x) t then t else time x

theorem some_keptTime (o : Option τ) (x : ι) :
    some (keptTime time near o x) = (limitOne time near o x).1 := by
  cases o with
  | none => rfl
  | some t => by_cases h : near (time x) t <;> simp [keptTime, limitOne, h]

theorem limit_out (m : BoundedMap κ τ cap) (x : ι) :
    (limit key time near m x).2 = (limitOne time near (m.lookup (key x)) x).2 := by
  rw [limit, limitOne]
  split <;> rfl

theorem limitOne_none_out (x : ι) : (limitOne time near none x).2 = [x] := rfl

theorem mem_limit_out {m : BoundedMap κ τ cap} {x y : ι} (h : y ∈ (limit key time near m x).2) :
    y = x := by
  rw [limit] at h
  split at h
  · cases h
  · exact List.mem_singleton.mp h

theorem tracks_limit (m : BoundedMap κ τ cap) (x : ι) :
    Tracks key (keptTime time near) m x (limit key time near m x).1 := by
  have htrack := BoundedMap.tracks_track key (keptTime time near) m x
  rw [BoundedMap.track] at htrack
  cases ho : m.lookup (key x) with
  | none =>
      rw [ho] at htrack
      rwa [limit, ho]
  | some t =>
      rw [ho] at htrack
      have hroom : m.Room (key x) := Or.inl (BoundedMap.isSome_lookup.mp (by simp [ho]))
      by_cases hnear : near (time x) t
      · have hlimit : limit key time near m x = (m, []) := by simp [limit, ho, hnear]
        rw [hlimit]
        refine ⟨?_, fun _ _ => rfl⟩
        rw [if_pos hroom, ho, keptTime, if_pos hnear]
      · have hlimit : (limit key time near m x).1 = m.update (key x) (time x) := by
          simp [limit, ho, hnear]
        rw [keptTime, if_neg hnear] at htrack
        rwa [hlimit]

/-! ## All inputs -/

theorem foldl_keptTime (o : Option τ) (xs : List ι) :
    xs.foldl (fun o x => some (keptTime time near o x)) o =
      runState (limitOne time near) o xs := by
  induction xs generalizing o with
  | nil => rfl
  | cons x xs ih => rw [List.foldl_cons, runState_cons, some_keptTime, ih]

theorem lookup_limit (xs : List ι) (k : κ) :
    (runState (limit key time near) (BoundedMap.empty : BoundedMap κ τ cap) xs).lookup k =
      if Admitted cap (xs.map key) k then
        runState (limitOne time near) none (xs.filter fun x => key x = k)
      else none := by
  rw [← foldl_keptTime]
  exact lookup_run id rfl (fun _ x _ _ => tracks_limit _ x) k

/-- An admitted key has the time of its own inputs, also before its first one. -/
theorem lookup_limit_of_admitted {xs : List ι} {ls : List κ} {k : κ}
    (h : Admitted cap (xs.map key ++ ls) k) :
    (runState (limit key time near) (BoundedMap.empty : BoundedMap κ τ cap) xs).lookup k =
      runState (limitOne time near) none (xs.filter fun x => key x = k) := by
  rw [lookup_limit]
  by_cases hmem : k ∈ xs.map key
  · rw [if_pos ((admitted_append_of_mem hmem ls).mp h)]
  · rw [filter_key_of_not_mem hmem]
    exact ite_self none

theorem lookup_limit_of_not_admitted {xs : List ι} {ls : List κ} {k : κ}
    (h : ¬ Admitted cap (xs.map key ++ ls) k) :
    (runState (limit key time near) (BoundedMap.empty : BoundedMap κ τ cap) xs).lookup k = none := by
  rw [lookup_limit]
  by_cases hmem : k ∈ xs.map key
  · rw [if_neg fun ha => h ((admitted_append_of_mem hmem ls).mpr ha)]
  · rw [filter_key_of_not_mem hmem]
    exact ite_self none

theorem filter_limit_out (m : BoundedMap κ τ cap) (x : ι) (k : κ) :
    (limit key time near m x).2.filter (fun y => key y = k) =
      if key x = k then (limitOne time near (m.lookup k) x).2 else [] := by
  split
  · rename_i hk
    rw [← hk, ← limit_out, List.filter_eq_self]
    intro y hy
    rw [mem_limit_out hy]
    exact decide_eq_true rfl
  · rename_i hk
    rw [List.filter_eq_nil_iff]
    intro y hy
    rw [mem_limit_out hy]
    simpa using hk

theorem filter_concat_key (xs : List ι) (x : ι) (k : κ) :
    (xs ++ [x]).filter (fun y => key y = k) =
      xs.filter (fun y => key y = k) ++ if key x = k then [x] else [] := by
  by_cases hk : key x = k <;> simp [hk]

/-- The limiter lets through the inputs of an admitted key as if it were alone. -/
theorem runOut_limit_of_admitted {xs : List ι} {ls : List κ} {k : κ}
    (h : Admitted cap (xs.map key ++ ls) k) :
    (runOut (limit key time near) (BoundedMap.empty : BoundedMap κ τ cap) xs).filter
        (fun x => key x = k) =
      runOut (limitOne time near) none (xs.filter fun x => key x = k) := by
  induction xs using List.reverseRecOn generalizing ls with
  | nil => rfl
  | append_singleton xs x ih =>
      rw [List.map_append, List.append_assoc] at h
      rw [runOut_concat, List.filter_append, ih h, filter_limit_out, filter_concat_key,
        lookup_limit_of_admitted h]
      split
      · rw [runOut_concat]
      · rw [List.append_nil, List.append_nil]

/-- The limiter lets through all inputs of a key that is not admitted. -/
theorem runOut_limit_of_not_admitted {xs : List ι} {ls : List κ} {k : κ}
    (h : ¬ Admitted cap (xs.map key ++ ls) k) :
    (runOut (limit key time near) (BoundedMap.empty : BoundedMap κ τ cap) xs).filter
        (fun x => key x = k) =
      xs.filter fun x => key x = k := by
  induction xs using List.reverseRecOn generalizing ls with
  | nil => rfl
  | append_singleton xs x ih =>
      rw [List.map_append, List.append_assoc] at h
      rw [runOut_concat, List.filter_append, ih h, filter_limit_out, filter_concat_key,
        lookup_limit_of_not_admitted h, limitOne_none_out]

/-! ## Two sizes -/

theorem admitted_mono {a b : Nat} (hab : a ≤ b) {ks : List κ} {k : κ} (h : Admitted a ks k) :
    Admitted b ks k :=
  lt_of_lt_of_le h hab

/-- Two limiters of different size accept the same inputs while both admit every key. -/
theorem runOut_limit_congr {a b : Nat} {xs : List ι}
    (ha : ∀ k ∈ xs.map key, Admitted a (xs.map key) k)
    (hb : ∀ k ∈ xs.map key, Admitted b (xs.map key) k) :
    runOut (limit key time near) (BoundedMap.empty : BoundedMap κ τ a) xs =
      runOut (limit key time near) (BoundedMap.empty : BoundedMap κ τ b) xs := by
  let same (pre : List ι) : Prop :=
    runOut (limit key time near) (BoundedMap.empty : BoundedMap κ τ a) pre =
      runOut (limit key time near) (BoundedMap.empty : BoundedMap κ τ b) pre
  have hpre : ∀ pre post, xs = pre ++ post → same pre := by
    intro pre
    induction pre using List.reverseRecOn with
    | nil => exact fun _ _ => rfl
    | append_singleton pre x ih =>
        intro post he
        have hrest : xs = pre ++ x :: post := by simp [he]
        have hmem : key x ∈ xs.map key := by simp [hrest]
        have hx := ha (key x) hmem
        have hx' := hb (key x) hmem
        rw [hrest, List.map_append] at hx hx'
        show runOut _ _ (pre ++ [x]) = runOut _ _ (pre ++ [x])
        rw [runOut_concat, runOut_concat, limit_out, limit_out, lookup_limit_of_admitted hx,
          lookup_limit_of_admitted hx']
        exact congrArg (· ++ _) (ih (x :: post) hrest)
  exact hpre xs [] (by simp)

end EbpfTools.Lib
