import EbpfTools.CamV2.Lemmas.Edges

/-!
# The foreground app that is shown with an event

`read_foreground_package` asks `dumpsys` and keeps the answer for a second.
-/

namespace EbpfTools.CamV2
open EbpfTools.Lib

/-- The cached answer is used. -/
def Fresh (s : State) (i : Inputs) : Prop :=
  s.cached ≠ [] ∧ i.now - s.cachedTs < FOREGROUND_CACHE_NS

instance (s : State) (i : Inputs) : Decidable (Fresh s i) := inferInstanceAs (Decidable (_ ∧ _))

/-! ## One event -/

variable {s s' : State} {e : CamEvent} {i : Inputs} {lines : List Line}

theorem readForegroundPackage_of_fresh (h : Fresh s i) :
    readForegroundPackage s i = (s, s.cached) :=
  if_pos h

theorem readForegroundPackage_of_not_fresh (h : ¬ Fresh s i) :
    readForegroundPackage s i =
      match i.focusLine with
      | none => (s, ascii "<foreground-unknown>")
      | some line =>
          (if focusedPackage line ≠ [] then
              { s with cached := focusedPackage line, cachedTs := i.now } else s,
            focusedPackage line) :=
  if_neg h

theorem readForegroundPackage_of_none (h : ¬ Fresh s i) (hline : i.focusLine = none) :
    readForegroundPackage s i = (s, ascii "<foreground-unknown>") := by
  rw [readForegroundPackage_of_not_fresh h, hline]

theorem readForegroundPackage_of_some (h : ¬ Fresh s i) {line : List UInt8}
    (hline : i.focusLine = some line) :
    readForegroundPackage s i =
      (if focusedPackage line ≠ [] then
          { s with cached := focusedPackage line, cachedTs := i.now } else s,
        focusedPackage line) := by
  rw [readForegroundPackage_of_not_fresh h, hline]

/-- Handling an event changes the cache as reading the foreground app does. -/
theorem cache_handleEvent (h : handleEvent s e i = some (s', lines)) :
    s'.cached = (readForegroundPackage s i).1.cached ∧
      s'.cachedTs = (readForegroundPackage s i).1.cachedTs := by
  rw [handleEvent] at h
  split at h
  · obtain ⟨edges, -, hs⟩ := Option.map_eq_some_iff.mp h
    obtain ⟨rfl, -⟩ := Prod.mk.inj hs
    exact ⟨rfl, rfl⟩
  split at h
  · obtain ⟨rfl, -⟩ := Prod.mk.inj (Option.some.inj h)
    exact ⟨rfl, rfl⟩
  split at h
  · obtain ⟨rfl, -⟩ := Prod.mk.inj (Option.some.inj h)
    exact ⟨rfl, rfl⟩
  split at h
  · obtain ⟨rfl, -⟩ := Prod.mk.inj (Option.some.inj h)
    exact ⟨rfl, rfl⟩
  · obtain ⟨rfl, -⟩ := Prod.mk.inj (Option.some.inj h)
    exact ⟨rfl, rfl⟩

/-! ## Runs -/

/-- The cache is not used for the event number `j` of `es`, or for the next one after `es`, and
`dumpsys` is started, unless that fails. -/
def StartedAt (env : Nat → Inputs) (es : List CamEvent) (j : Nat) : Prop :=
  ∃ t, handleEvents env (es.take j) = some t ∧ ¬ Fresh t (env j)

/-- It is started and prints a line from which the result is not empty. -/
def AnsweredAt (env : Nat → Inputs) (es : List CamEvent) (j : Nat) : Prop :=
  StartedAt env es j ∧ ∃ line, (env j).focusLine = some line ∧ focusedPackage line ≠ []

/-- The answer in the cache was read at one of the events. -/
def Answered (env : Nat → Inputs) (es : List CamEvent) (s : State) : Prop :=
  s.cached ≠ [] → ∃ j < es.length, StartedAt env es j ∧ ∃ line, (env j).focusLine = some line ∧
    s.cached = focusedPackage line ∧ s.cachedTs = (env j).now

variable {env : Nat → Inputs} {es fs : List CamEvent}

theorem startedAt_length (hs : handleEvents env es = some s) :
    StartedAt env es es.length ↔ ¬ Fresh s (env es.length) := by
  rw [StartedAt, List.take_length, hs]
  simp

theorem StartedAt.append {j : Nat} (h : StartedAt env es j) (hj : j ≤ es.length) :
    StartedAt env (es ++ fs) j := by
  rw [StartedAt, List.take_append_of_le_length hj]
  exact h

theorem answered_readForegroundPackage (hs : handleEvents env es = some s)
    (h : Answered env es s) :
    Answered env (es ++ [e]) (readForegroundPackage s (env es.length)).1 := by
  have hlen : (es ++ [e]).length = es.length + 1 := List.length_append
  have hkeep : Answered env (es ++ [e]) s := by
    intro hne
    obtain ⟨j, hj, hstart, hanswer⟩ := h hne
    exact ⟨j, by omega, hstart.append (by omega), hanswer⟩
  by_cases hfresh : Fresh s (env es.length)
  · rwa [readForegroundPackage_of_fresh hfresh]
  · cases hline : (env es.length).focusLine with
    | none => rwa [readForegroundPackage_of_none hfresh hline]
    | some line =>
        rw [readForegroundPackage_of_some hfresh hline]
        by_cases hpkg : focusedPackage line = []
        · rwa [if_neg (not_not.mpr hpkg)]
        · rw [if_pos hpkg]
          have hstart : StartedAt env (es ++ [e]) es.length :=
            ((startedAt_length hs).mpr hfresh).append (le_refl _)
          exact fun _ => ⟨es.length, by omega, hstart, line, hline, rfl, rfl⟩

theorem exists_handleEvent_of_concat (h : handleEvents env (es ++ [e]) = some s') :
    ∃ s lines, handleEvents env es = some s ∧
      handleEvent s e (env es.length) = some (s', lines) := by
  rw [handleEvents_concat, Option.bind_eq_some_iff] at h
  obtain ⟨s, hs, hstep⟩ := h
  obtain ⟨⟨_, lines⟩, hp, rfl⟩ := Option.map_eq_some_iff.mp hstep
  exact ⟨s, lines, hs, hp⟩

theorem answered_handleEvents (h : handleEvents env es = some s) :
    Answered env es s := by
  induction es using List.reverseRecOn generalizing s with
  | nil =>
      obtain rfl : State.init = s := Option.some.inj h
      exact fun hne => absurd rfl hne
  | append_singleton es e ih =>
      obtain ⟨t, lines, ht, hstep⟩ := exists_handleEvent_of_concat h
      obtain ⟨hcached, hts⟩ := cache_handleEvent hstep
      rw [Answered, hcached, hts]
      exact answered_readForegroundPackage ht (ih ht)

/-- A filled cache stays filled, and is only refilled by later events. -/
theorem cachedTs_ge {t : UInt64} (hmono : ∀ j k, j ≤ k → (env j).now ≤ (env k).now)
    (hs : handleEvents env es = some s) (hne : s.cached ≠ []) (ht : t ≤ s.cachedTs)
    (hnow : t ≤ (env es.length).now) (hs' : handleEvents env (es ++ fs) = some s') :
    s'.cached ≠ [] ∧ t ≤ s'.cachedTs := by
  induction fs using List.reverseRecOn generalizing s' with
  | nil =>
      rw [List.append_nil, hs] at hs'
      obtain rfl := Option.some.inj hs'
      exact ⟨hne, ht⟩
  | append_singleton fs f ih =>
      rw [← List.append_assoc] at hs'
      obtain ⟨u, lines, hu, hstep⟩ := exists_handleEvent_of_concat hs'
      obtain ⟨hcached, hts⟩ := cache_handleEvent hstep
      obtain ⟨hune, hule⟩ := ih hu
      rw [hcached, hts]
      by_cases hfresh : Fresh u (env (es ++ fs).length)
      · rw [readForegroundPackage_of_fresh hfresh]
        exact ⟨hune, hule⟩
      · cases hline : (env (es ++ fs).length).focusLine with
        | none =>
            rw [readForegroundPackage_of_none hfresh hline]
            exact ⟨hune, hule⟩
        | some line =>
            rw [readForegroundPackage_of_some hfresh hline]
            by_cases hpkg : focusedPackage line = []
            · rw [if_neg (not_not.mpr hpkg)]
              exact ⟨hune, hule⟩
            · rw [if_pos hpkg]
              refine ⟨hpkg, UInt64.le_trans hnow (hmono _ _ ?_)⟩
              simp

theorem exists_handleEvents_of_append (h : handleEvents env (es ++ fs) = some s') :
    ∃ s, handleEvents env es = some s := by
  induction fs using List.reverseRecOn generalizing s' with
  | nil => exact ⟨s', by rwa [List.append_nil] at h⟩
  | append_singleton fs f ih =>
      rw [← List.append_assoc] at h
      obtain ⟨u, -, hu, -⟩ := exists_handleEvent_of_concat h
      exact ih hu

/-- The foreground app shown after `es`: unknown because `dumpsys` is started and fails, or what a
line that was read at a clock reading less than a second before says. -/
def ShownRecently (env : Nat → Inputs) (es : List CamEvent) (s : State) : Prop :=
  StartedAt env es es.length ∧ (env es.length).focusLine = none ∧
      (readForegroundPackage s (env es.length)).2 = ascii "<foreground-unknown>" ∨
    ∃ j ≤ es.length, StartedAt env es j ∧ ∃ line, (env j).focusLine = some line ∧
      (readForegroundPackage s (env es.length)).2 = focusedPackage line ∧
      (env es.length).now.toNat < (env j).now.toNat + FOREGROUND_CACHE_NS.toNat

theorem shownRecently (hmono : ∀ j k, j ≤ k → (env j).now ≤ (env k).now)
    (hs : handleEvents env es = some s) : ShownRecently env es s := by
  by_cases hfresh : Fresh s (env es.length)
  · right
    obtain ⟨j, hj, hstart, line, hline, hcached, hts⟩ := answered_handleEvents hs hfresh.1
    refine ⟨j, by omega, hstart, line, hline, ?_, ?_⟩
    · rw [readForegroundPackage_of_fresh hfresh, hcached]
    · have hle := UInt64.le_iff_toNat_le.mp (hmono j es.length (by omega))
      rw [← elapsed_lt_iff hle, ← hts]
      exact hfresh.2
  · have hstart := (startedAt_length hs).mpr hfresh
    cases hline : (env es.length).focusLine with
    | none =>
        left
        exact ⟨hstart, hline, by rw [readForegroundPackage_of_none hfresh hline]⟩
    | some line =>
        right
        have hpos : 0 < FOREGROUND_CACHE_NS.toNat := by decide
        refine ⟨es.length, le_refl _, hstart, line, hline, ?_, by omega⟩
        rw [readForegroundPackage_of_some hfresh hline]

/-- After `dumpsys` gave an answer the cache is used for a second. -/
theorem asked_again (hmono : ∀ j k, j ≤ k → (env j).now ≤ (env k).now)
    (hs : handleEvents env es = some s) (hmiss : ¬ Fresh s (env es.length)) {line : List UInt8}
    (hline : (env es.length).focusLine = some line) (hpkg : focusedPackage line ≠ [])
    (hs' : handleEvents env (es ++ e :: fs) = some s')
    (hstale : ¬ Fresh s' (env (es ++ e :: fs).length)) :
    (env es.length).now.toNat + FOREGROUND_CACHE_NS.toNat ≤
      (env (es ++ e :: fs).length).now.toNat := by
  have hsplit : es ++ e :: fs = (es ++ [e]) ++ fs := by simp
  rw [hsplit] at hs' hstale ⊢
  obtain ⟨u, hu⟩ := exists_handleEvents_of_append hs'
  obtain ⟨t, lines, ht, hstep⟩ := exists_handleEvent_of_concat hu
  obtain rfl : s = t := Option.some.inj (hs.symm.trans ht)
  obtain ⟨hcached, hts⟩ := cache_handleEvent hstep
  rw [readForegroundPackage_of_some hmiss hline, if_pos hpkg] at hcached hts
  dsimp only at hcached hts
  have hnext := hmono es.length (es ++ [e]).length (by simp)
  obtain ⟨hne, hge⟩ := cachedTs_ge hmono hu (hcached ▸ hpkg) (UInt64.le_of_eq hts.symm) hnext hs'
  obtain ⟨j, hj, -, -, -, -, hjts⟩ := answered_handleEvents hs' hne
  have hle := UInt64.le_iff_toNat_le.mp (hmono j (es ++ [e] ++ fs).length (by omega))
  have hbound : ¬ (env (es ++ [e] ++ fs).length).now - s'.cachedTs < FOREGROUND_CACHE_NS :=
    fun hlt => hstale ⟨hne, hlt⟩
  rw [← hjts] at hle
  rw [elapsed_lt_iff hle] at hbound
  have hge' := UInt64.le_iff_toNat_le.mp hge
  omega

/-- After an answer `dumpsys` is started again at a clock reading a second later at the earliest. -/
def AskedRarely (env : Nat → Inputs) (es : List CamEvent) : Prop :=
  ∀ j k, j < k → k ≤ es.length → AnsweredAt env es j → StartedAt env es k →
    (env j).now.toNat + FOREGROUND_CACHE_NS.toNat ≤ (env k).now.toNat

theorem askedRarely (hmono : ∀ j k, j ≤ k → (env j).now ≤ (env k).now) (es : List CamEvent) :
    AskedRarely env es := by
  rintro j k hjk hk ⟨⟨s, hs, hmiss⟩, line, hline, hpkg⟩ ⟨s', hs', hstale⟩
  have hj : (es.take j).length = j := List.length_take_of_le (by omega)
  have hlen : (es.take k).length = k := List.length_take_of_le hk
  have hsplit : es.take k = es.take j ++ es[j] :: (es.take k).drop (j + 1) := by
    have hget : (es.take k)[j] = es[j] := by simp
    rw [← hget, ← List.drop_eq_getElem_cons (by omega)]
    have htake : es.take j = (es.take k).take j := by rw [List.take_take, Nat.min_eq_left (by omega)]
    rw [htake, List.take_append_drop]
  have hrare := @asked_again s s' es[j] env (es.take j) ((es.take k).drop (j + 1)) hmono hs
  rw [← hsplit, hj, hlen] at hrare
  exact hrare hmiss hline hpkg hs' hstale

end EbpfTools.CamV2
