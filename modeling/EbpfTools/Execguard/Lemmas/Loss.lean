import EbpfTools.Execguard.Lemmas.Keys

/-!
# Lost events

An exec that finds no slot in the ring buffer is not counted, so a run counts like the run of the
execs that do. Its counts are compared with those of the same run without loss.
-/

namespace EbpfTools.Execguard
open EbpfTools.Lib

/-! ## The two runs -/

/-- The execs whose event is emitted. -/
def emitted (xs : List Exec) : List Exec := xs.filter fun x => x.slot.isSome

/-- The same execs with every reservation successful. -/
def granted (e : Event) (xs : List Exec) : List Exec :=
  xs.map fun x => { x with slot := some (x.slot.getD e) }

/-- The counts emitted for `x` after the execs `pre`. -/
def reported (pre : List Exec) (x : Exec) : List UInt32 :=
  (handleExec (runState handleExec .empty pre) x).2.map Event.execCount

/-- Every emitted event carries the count it has when nothing is lost. -/
def LossFree (e : Event) (xs : List Exec) : Prop :=
  ∀ pre x post, xs = pre ++ x :: post → x.slot.isSome → reported pre x = reported (granted e pre) x

theorem emitted_concat (xs : List Exec) (x : Exec) :
    emitted (xs ++ [x]) = emitted xs ++ if x.slot.isSome then [x] else [] := by
  rw [emitted, List.filter_append, emitted]
  by_cases h : x.slot.isSome <;> simp [h]

theorem runState_emitted (xs : List Exec) :
    runState handleExec .empty (emitted xs) = runState handleExec .empty xs := by
  induction xs using List.reverseRecOn with
  | nil => rfl
  | append_singleton xs x ih =>
      rw [emitted_concat, runState_concat]
      cases hs : x.slot with
      | none => simpa [handleExec_none hs] using ih
      | some slot => simp [runState_concat, ih]

theorem slot_emitted {xs : List Exec} : ∀ x ∈ emitted xs, x.slot.isSome :=
  fun _ hx => (List.mem_filter.mp hx).2

theorem slot_granted {e : Event} {xs : List Exec} : ∀ x ∈ granted e xs, x.slot.isSome := by
  intro x hx
  obtain ⟨y, -, rfl⟩ := List.mem_map.mp hx
  rfl

theorem keys_granted (e : Event) (xs : List Exec) :
    (granted e xs).map Exec.key = xs.map Exec.key := by
  rw [granted, List.map_map]
  rfl

theorem keyTimes_granted (e : Event) (k : ExecKey) (xs : List Exec) :
    keyTimes k (granted e xs) = keyTimes k xs := by
  rw [keyTimes, granted, List.filter_map, List.map_map]
  rfl

/-! ## The entry of one key -/

/-- The entry of a key after execs that are all counted. -/
def entryAfter (k : ExecKey) (xs : List Exec) : Option ExecStat := statAfter none (keyTimes k xs)

/-- The entry that `x` finds after execs that are all counted. -/
def entryFor (xs : List Exec) (x : Exec) : Option ExecStat :=
  if Admitted 8192 ((xs ++ [x]).map Exec.key) x.key then entryAfter x.key xs else none

theorem entryAfter_concat (k : ExecKey) (xs : List Exec) (x : Exec) :
    entryAfter k (xs ++ [x]) =
      if x.key = k then some (nextStat (entryAfter k xs) x.now) else entryAfter k xs := by
  rw [entryAfter, keyTimes_concat]
  split
  · rw [statAfter, List.foldl_append]
    rfl
  · rw [List.append_nil, entryAfter]

theorem lookup_eq_entryFor {xs : List Exec} (hslot : ∀ x ∈ xs, x.slot.isSome) (x : Exec) :
    (runState handleExec .empty xs).lookup x.key = entryFor xs x := by
  rw [lookup_stats hslot, entryFor, List.map_append, entryAfter]
  by_cases hmem : x.key ∈ xs.map Exec.key
  · simp only [admitted_append_of_mem hmem]
  · rw [keyTimes, filter_key_of_not_mem hmem]
    simp [statAfter]

theorem reported_eq {x : Exec} (h : x.slot.isSome) (pre : List Exec) :
    reported pre x = [(nextStat (entryFor (emitted pre) x) x.now).count] := by
  obtain ⟨slot, hs⟩ := Option.isSome_iff_exists.mp h
  rw [reported, handleExec_some hs, ← runState_emitted, lookup_eq_entryFor slot_emitted]
  rfl

theorem reported_granted {x : Exec} (h : x.slot.isSome) (e : Event) (pre : List Exec) :
    reported (granted e pre) x = [(nextStat (entryFor pre x) x.now).count] := by
  have hall : emitted (granted e pre) = granted e pre := List.filter_eq_self.mpr slot_granted
  have hentry : entryFor (granted e pre) x = entryFor pre x := by
    rw [entryFor, List.map_append, keys_granted, ← List.map_append, entryAfter, keyTimes_granted]
    rfl
  rw [reported_eq h, hall, hentry]

theorem lossFree_iff_count {e : Event} {xs : List Exec} :
    LossFree e xs ↔ ∀ pre x post, xs = pre ++ x :: post → x.slot.isSome →
      (nextStat (entryFor (emitted pre) x) x.now).count =
        (nextStat (entryFor pre x) x.now).count := by
  refine forall₃_congr fun pre x post => imp_congr_right fun _ => ?_
  refine forall_congr' fun h => ?_
  rw [reported_eq h, reported_granted h, List.singleton_inj]

/-! ## Windows -/

/-- The start of the window that execs at the times `ts` leave open. -/
def windowStart (ts : List UInt64) : Option UInt64 :=
  ts.foldl
    (fun o t =>
      match o with
      | none => some t
      | some s => if t - s > WINDOW_NS then some t else some s)
    none

/-- An exec at `t` after execs at `ts` is the first one of its window. -/
def Opens (ts : List UInt64) (t : UInt64) : Prop := ∀ s ∈ windowStart ts, t - s > WINDOW_NS

def Fresh (o : Option ExecStat) (t : UInt64) : Prop := ∀ st ∈ o, t - st.windowStartNs > WINDOW_NS

theorem windowStart_eq (ts : List UInt64) :
    windowStart ts = (statAfter none ts).map ExecStat.windowStartNs := by
  induction ts using List.reverseRecOn with
  | nil => rfl
  | append_singleton ts t ih =>
      have hlast : statAfter none (ts ++ [t]) = some (nextStat (statAfter none ts) t) :=
        List.foldl_append
      rw [windowStart, List.foldl_append, ← windowStart, ih, hlast]
      cases statAfter none ts with
      | none => rfl
      | some st =>
          simp only [Option.map_some, List.foldl_cons, List.foldl_nil, nextStat, bumpStat]
          split <;> rfl

theorem opens_iff_fresh (k : ExecKey) (xs : List Exec) (t : UInt64) :
    Opens (keyTimes k xs) t ↔ Fresh (entryAfter k xs) t := by
  rw [Opens, windowStart_eq, Fresh, entryAfter]
  cases statAfter none (keyTimes k xs) <;> simp

theorem nextStat_of_fresh {o : Option ExecStat} {t : UInt64} (h : Fresh o t) :
    nextStat o t = ⟨t, 1⟩ := by
  cases o with
  | none => rfl
  | some st => exact if_pos (h st rfl)

theorem toNat_succ {c : UInt32} (h : c.toNat + 1 < 4294967296) : (c + 1).toNat = c.toNat + 1 := by
  rw [UInt32.toNat_add]
  exact Nat.mod_eq_of_lt h

/-- A count of 1 is that of an exec that opens a window, as long as no count wraps around. -/
theorem fresh_of_count_eq_one {o : Option ExecStat} {t : UInt64}
    (hpos : ∀ st ∈ o, 0 < st.count.toNat ∧ st.count.toNat + 1 < 4294967296)
    (h : (nextStat o t).count = 1) : Fresh o t := by
  rintro st rfl
  obtain ⟨hlo, hhi⟩ := hpos st rfl
  by_contra hold
  rw [nextStat, bumpStat, if_neg hold] at h
  have hnat : (st.count + 1).toNat = 1 := congrArg UInt32.toNat h
  rw [toNat_succ hhi] at hnat
  omega

theorem count_bounds {k : ExecKey} {xs : List Exec} (hlen : xs.length < 4294967296) :
    ∀ st ∈ entryAfter k xs, 0 < st.count.toNat ∧ st.count.toNat ≤ xs.length := by
  induction xs using List.reverseRecOn with
  | nil => rintro st ⟨⟩
  | append_singleton xs x ih =>
      rw [List.length_append, List.length_singleton] at hlen ⊢
      replace ih := ih (by omega)
      intro st hst
      rw [entryAfter_concat] at hst
      split at hst
      · cases ho : entryAfter k xs with
        | none =>
            rw [ho] at hst
            cases hst
            exact ⟨Nat.one_pos, Nat.le_add_left 1 _⟩
        | some st₀ =>
            obtain ⟨hlo, hhi⟩ := ih st₀ ho
            rw [ho] at hst
            cases hst
            rw [nextStat, bumpStat]
            split
            · exact ⟨Nat.one_pos, Nat.le_add_left 1 _⟩
            · change 0 < (st₀.count + 1).toNat ∧ (st₀.count + 1).toNat ≤ _
              rw [toNat_succ (by omega)]
              omega
      · obtain ⟨hlo, hhi⟩ := ih st hst
        exact ⟨hlo, by omega⟩

theorem count_room {k : ExecKey} {xs : List Exec} (hlen : xs.length + 1 < 4294967296) :
    ∀ st ∈ entryAfter k xs, 0 < st.count.toNat ∧ st.count.toNat + 1 < 4294967296 := by
  intro st hst
  obtain ⟨hlo, hhi⟩ := count_bounds (by omega) st hst
  exact ⟨hlo, by omega⟩

/-! ## Losses that do no harm -/

/-- After `pre` the exec `x` is counted as a first one: it finds the map full, or opens a window. -/
def FromOne (pre : List Exec) (x : Exec) : Prop :=
  Admitted 8192 ((pre ++ [x]).map Exec.key) x.key → Opens (keyTimes x.key pre) x.now

/-- The last exec of the key was emitted. -/
def LastEmitted (k : ExecKey) (xs : List Exec) : Prop :=
  ∃ y ∈ (xs.filter fun x => x.key = k).getLast?, y.slot.isSome

/-- The losses in `pre` do not change the count of `x`: it is a first exec with and without the lost
ones, or its key has an entry in both runs and the exec of the key just before it was not lost. -/
def Harmless (pre : List Exec) (x : Exec) : Prop :=
  FromOne pre x ∧ FromOne (emitted pre) x ∨
    Admitted 8192 ((pre ++ [x]).map Exec.key) x.key ∧
      Admitted 8192 ((emitted pre ++ [x]).map Exec.key) x.key ∧ LastEmitted x.key pre

def HarmlessRun (xs : List Exec) : Prop :=
  ∀ pre x post, xs = pre ++ x :: post → x.slot.isSome → Harmless pre x

theorem nextStat_of_fromOne {pre : List Exec} {x : Exec} (h : FromOne pre x) :
    nextStat (entryFor pre x) x.now = ⟨x.now, 1⟩ := by
  rw [entryFor]
  split
  · rename_i ha
    exact nextStat_of_fresh ((opens_iff_fresh _ _ _).mp (h ha))
  · rfl

theorem fromOne_of_count {pre : List Exec} {x : Exec} (hlen : pre.length + 1 < 4294967296)
    (h : (nextStat (entryFor pre x) x.now).count = 1) : FromOne pre x := by
  intro ha
  rw [entryFor, if_pos ha] at h
  exact (opens_iff_fresh _ _ _).mpr (fresh_of_count_eq_one (count_room hlen) h)

theorem lastEmitted_concat_self {k : ExecKey} {xs : List Exec} {x : Exec} (hk : x.key = k) :
    LastEmitted k (xs ++ [x]) ↔ x.slot.isSome := by
  simp [LastEmitted, hk]

theorem lastEmitted_concat_ne {k : ExecKey} {xs : List Exec} {x : Exec} (hk : x.key ≠ k) :
    LastEmitted k (xs ++ [x]) ↔ LastEmitted k xs := by
  rw [LastEmitted, List.filter_append, List.filter_cons_of_neg (by simpa using hk), List.filter_nil,
    List.append_nil, LastEmitted]

theorem admitted_before {pre post : List Exec} {x y : Exec} (hk : y.key = x.key)
    (h : Admitted 8192 ((pre ++ y :: post ++ [x]).map Exec.key) x.key) :
    Admitted 8192 ((pre ++ [y]).map Exec.key) y.key := by
  have hsplit : pre ++ y :: post ++ [x] = (pre ++ [y]) ++ (post ++ [x]) := by simp
  rw [← hk, hsplit, @List.map_append _ _ _ (pre ++ [y])] at h
  exact (admitted_append_of_mem (List.mem_map_of_mem (by simp)) _).mp h

theorem emitted_split {pre post : List Exec} {x : Exec} (h : x.slot.isSome) :
    emitted (pre ++ x :: post) = emitted pre ++ x :: emitted post := by
  simp [emitted, h]

/-! ## Harmless losses do not change a count -/

/-- After an exec that was not lost, the lost ones before it are forgotten. -/
theorem entryAfter_emitted {k : ExecKey} {xs : List Exec}
    (h : ∀ pre x post, xs = pre ++ x :: post → x.key = k → x.slot.isSome →
      Fresh (entryAfter k pre) x.now ∧ Fresh (entryAfter k (emitted pre)) x.now ∨
        LastEmitted k pre)
    (hl : LastEmitted k xs) : entryAfter k (emitted xs) = entryAfter k xs := by
  induction xs using List.reverseRecOn with
  | nil => rfl
  | append_singleton xs x ih =>
      replace ih := ih fun pre y post he => h pre y (post ++ [x]) (by simp [he])
      rw [emitted_concat]
      by_cases hk : x.key = k
      · have hx : x.slot.isSome := (lastEmitted_concat_self hk).mp hl
        rw [if_pos hx, entryAfter_concat, entryAfter_concat, if_pos hk, if_pos hk]
        rcases h xs x [] rfl hk hx with ⟨hall, hem⟩ | hlast
        · rw [nextStat_of_fresh hall, nextStat_of_fresh hem]
        · rw [ih hlast]
      · rw [entryAfter_concat, if_neg hk, ← ih ((lastEmitted_concat_ne hk).mp hl)]
        split
        · rw [entryAfter_concat, if_neg hk]
        · rw [List.append_nil]

theorem lossFree_of_harmless {e : Event} {xs : List Exec} (h : HarmlessRun xs) :
    LossFree e xs := by
  rw [lossFree_iff_count]
  intro pre x post he hx
  rcases h pre x post he hx with ⟨hall, hem⟩ | ⟨hall, hem, hlast⟩
  · rw [nextStat_of_fromOne hall, nextStat_of_fromOne hem]
  · have hentry : entryAfter x.key (emitted pre) = entryAfter x.key pre := by
      refine entryAfter_emitted (fun p y q hp hk hy => ?_) hlast
      subst hp
      rw [emitted_split hy] at hem
      rcases h p y (q ++ x :: post) (by simp [he]) hy with ⟨h₁, h₂⟩ | ⟨-, -, h₃⟩
      · rw [← hk]
        exact Or.inl ⟨(opens_iff_fresh _ _ _).mp (h₁ (admitted_before hk hall)),
          (opens_iff_fresh _ _ _).mp (h₂ (admitted_before hk hem))⟩
      · exact Or.inr (hk ▸ h₃)
    rw [entryFor, if_pos hem, entryFor, if_pos hall, hentry]

/-! ## Other losses do -/

/-- The entry without the lost execs is behind the one with them: a lower count in the same window,
or a window that ended before the other one began. -/
def Behind (lossy all : Option ExecStat) : Prop :=
  ∃ a ∈ all, ∀ l ∈ lossy,
    l.windowStartNs = a.windowStartNs ∧ l.count.toNat < a.count.toNat ∨
      l.windowStartNs.toNat + WINDOW_NS.toNat < a.windowStartNs.toNat

section Behind
variable {lossy all : Option ExecStat} {now : UInt64}

/-- A lost exec leaves the entry behind. -/
theorem behind_next (h : lossy = all ∨ Behind lossy all)
    (hnow : ∀ a ∈ all, a.windowStartNs.toNat ≤ now.toNat)
    (hcount : ∀ a ∈ all, a.count.toNat + 1 < 4294967296) :
    Behind lossy (some (nextStat all now)) := by
  refine ⟨_, rfl, fun l hl => ?_⟩
  have hprev : ∃ a ∈ all, l.windowStartNs = a.windowStartNs ∧ l.count.toNat ≤ a.count.toNat ∨
      l.windowStartNs.toNat + WINDOW_NS.toNat < a.windowStartNs.toNat := by
    rcases h with rfl | ⟨a, ha, hb⟩
    · exact ⟨l, hl, Or.inl ⟨rfl, le_refl _⟩⟩
    · exact ⟨a, ha, (hb l hl).imp_left fun hs => ⟨hs.1, le_of_lt hs.2⟩⟩
  obtain ⟨a, ha, hprev⟩ := hprev
  have hle := hnow a ha
  rw [Option.mem_def] at ha
  subst ha
  rw [nextStat, bumpStat]
  split
  · rename_i hold
    rw [elapsed_gt_iff hle] at hold
    right
    change _ < now.toNat
    rcases hprev with ⟨hs, -⟩ | hs
    · rwa [hs]
    · omega
  · rcases hprev with ⟨hs, hc⟩ | hs
    · left
      refine ⟨hs, ?_⟩
      change _ < (a.count + 1).toNat
      rw [toNat_succ (hcount a rfl)]
      omega
    · exact Or.inr hs

theorem ended_of_late {l a : UInt64} (hl : l.toNat + WINDOW_NS.toNat < a.toNat)
    (hle : a.toNat ≤ now.toNat) : now - l > WINDOW_NS := by
  rw [elapsed_gt_iff (by omega)]
  omega

/-- In the middle of a window an entry that is behind gives too low a count. -/
theorem count_lt_of_behind {a : ExecStat} (h : Behind lossy (some a))
    (hle : a.windowStartNs.toNat ≤ now.toNat)
    (hcount : 0 < a.count.toNat ∧ a.count.toNat + 1 < 4294967296)
    (hopen : ¬ now - a.windowStartNs > WINDOW_NS) :
    (nextStat lossy now).count.toNat < (nextStat (some a) now).count.toNat := by
  obtain ⟨_, ⟨⟩, hb⟩ := h
  have hnext : (nextStat (some a) now).count.toNat = a.count.toNat + 1 := by
    rw [nextStat, bumpStat, if_neg hopen]
    exact toNat_succ hcount.2
  rw [hnext]
  cases lossy with
  | none => exact Nat.succ_lt_succ hcount.1
  | some l =>
      rcases hb l rfl with ⟨hs, hc⟩ | hs
      · rw [nextStat, bumpStat, hs, if_neg hopen]
        change (l.count + 1).toNat < _
        rw [toNat_succ (by omega)]
        omega
      · rw [nextStat, bumpStat, if_pos (ended_of_late hs hle)]
        exact Nat.succ_lt_succ hcount.1

/-- An entry that is behind gives the right count to the first exec of a window only. -/
theorem fresh_of_behind (h : Behind lossy all)
    (hnow : ∀ a ∈ all, a.windowStartNs.toNat ≤ now.toNat)
    (hcount : ∀ a ∈ all, 0 < a.count.toNat ∧ a.count.toNat + 1 < 4294967296)
    (heq : (nextStat lossy now).count = (nextStat all now).count) :
    Fresh all now ∧ Fresh lossy now := by
  obtain ⟨a, ha, hb⟩ := id h
  have hle := hnow a ha
  have hbounds := hcount a ha
  rw [Option.mem_def] at ha
  subst ha
  by_cases hold : now - a.windowStartNs > WINDOW_NS
  · refine ⟨fun st hst => by cases hst; exact hold, fun l hl => ?_⟩
    rcases hb l hl with ⟨hs, -⟩ | hs
    · rwa [hs]
    · exact ended_of_late hs hle
  · have hlt := count_lt_of_behind h hle hbounds hold
    rw [heq] at hlt
    exact absurd hlt (lt_irrefl _)

end Behind

theorem start_le {k : ExecKey} {xs : List Exec} {t : UInt64} (h : ∀ x ∈ xs, x.now ≤ t) :
    ∀ st ∈ entryAfter k xs, st.windowStartNs.toNat ≤ t.toNat := by
  intro st hst
  obtain ⟨x, hx, hs⟩ := List.mem_map.mp (statAfter_start_mem hst)
  rw [← hs]
  exact UInt64.le_iff_toNat_le.mp (h x (List.mem_of_mem_filter hx))

/-- While the counts of a key agree, its two entries agree after an emitted exec, and after a lost
one the entry without the lost execs is behind. -/
theorem synced_or_behind {k : ExecKey} {xs : List Exec}
    (hmono : xs.Pairwise fun x y => x.now ≤ y.now) (hlen : xs.length < 4294967296)
    (h : ∀ pre x post, xs = pre ++ x :: post → x.key = k → x.slot.isSome →
      (nextStat (entryAfter k (emitted pre)) x.now).count =
        (nextStat (entryAfter k pre) x.now).count) :
    (entryAfter k (emitted xs) = entryAfter k xs ∧ (LastEmitted k xs ∨ entryAfter k xs = none)) ∨
      Behind (entryAfter k (emitted xs)) (entryAfter k xs) := by
  induction xs using List.reverseRecOn with
  | nil => exact Or.inl ⟨rfl, Or.inr rfl⟩
  | append_singleton xs x ih =>
      rw [List.length_append, List.length_singleton] at hlen
      rw [List.pairwise_append] at hmono
      have hprev := ih hmono.1 (by omega) fun pre y post he => h pre y (post ++ [x]) (by simp [he])
      have hnow := @start_le k xs x.now fun y hy => hmono.2.2 y hy x (by simp)
      have hbounds := @count_room k xs hlen
      rw [emitted_concat, entryAfter_concat]
      by_cases hk : x.key = k
      · rw [if_pos hk]
        by_cases hx : x.slot.isSome
        · rw [if_pos hx, entryAfter_concat, if_pos hk]
          refine Or.inl ⟨?_, Or.inl ((lastEmitted_concat_self hk).mpr hx)⟩
          rcases hprev with ⟨heq, -⟩ | hb
          · rw [heq]
          · obtain ⟨hall, hem⟩ := fresh_of_behind hb hnow hbounds (h xs x [] rfl hk hx)
            rw [nextStat_of_fresh hall, nextStat_of_fresh hem]
        · rw [if_neg hx, List.append_nil]
          exact Or.inr (behind_next (hprev.imp_left And.left) hnow fun st hst => (hbounds st hst).2)
      · have hem : entryAfter k (emitted xs ++ if x.slot.isSome then [x] else []) =
            entryAfter k (emitted xs) := by
          split
          · rw [entryAfter_concat, if_neg hk]
          · rw [List.append_nil]
        rwa [if_neg hk, hem, lastEmitted_concat_ne hk]

theorem harmless_of_lossFree {e : Event} {xs : List Exec}
    (hmono : xs.Pairwise fun x y => x.now ≤ y.now) (hlen : xs.length < 4294967296)
    (h : LossFree e xs) : HarmlessRun xs := by
  rw [lossFree_iff_count] at h
  intro pre x post he hx
  have hcount := h pre x post he hx
  subst he
  rw [List.length_append, List.length_cons] at hlen
  have hem : (emitted pre).length ≤ pre.length := List.length_filter_le _ _
  by_cases hall : Admitted 8192 ((pre ++ [x]).map Exec.key) x.key
  · by_cases hlossy : Admitted 8192 ((emitted pre ++ [x]).map Exec.key) x.key
    · have hsame : ∀ p y q, pre = p ++ y :: q → y.key = x.key → y.slot.isSome →
          (nextStat (entryAfter x.key (emitted p)) y.now).count =
            (nextStat (entryAfter x.key p) y.now).count := by
        intro p y q hp hk hy
        subst hp
        rw [emitted_split hy] at hlossy
        have hcounts := h p y (q ++ x :: post) (by simp) hy
        rwa [entryFor, if_pos (admitted_before hk hlossy), entryFor,
          if_pos (admitted_before hk hall), hk] at hcounts
      rw [entryFor, if_pos hlossy, entryFor, if_pos hall] at hcount
      rw [List.pairwise_append] at hmono
      rcases synced_or_behind hmono.1 (by omega) hsame with ⟨heq, hlast | hnone⟩ | hb
      · exact Or.inr ⟨hall, hlossy, hlast⟩
      · have hfresh : ∀ o : Option ExecStat, o = none → Fresh o x.now := by
          rintro o rfl st ⟨⟩
        exact Or.inl ⟨fun _ => (opens_iff_fresh _ _ _).mpr (hfresh _ hnone),
          fun _ => (opens_iff_fresh _ _ _).mpr (hfresh _ (heq.trans hnone))⟩
      · have hnow := @start_le x.key pre x.now fun y hy => hmono.2.2 y hy x (by simp)
        obtain ⟨hf, hfe⟩ := fresh_of_behind hb hnow (count_room (by omega)) hcount
        exact Or.inl ⟨fun _ => (opens_iff_fresh _ _ _).mpr hf,
          fun _ => (opens_iff_fresh _ _ _).mpr hfe⟩
    · have hone : (nextStat (entryFor (emitted pre) x) x.now).count = 1 := by
        rw [entryFor, if_neg hlossy]
        rfl
      exact Or.inl ⟨fromOne_of_count (by omega) (hcount.symm.trans hone),
        fun ha => absurd ha hlossy⟩
  · have hone : (nextStat (entryFor pre x) x.now).count = 1 := by
      rw [entryFor, if_neg hall]
      rfl
    exact Or.inl ⟨fun ha => absurd ha hall, fromOne_of_count (by omega) (hcount.trans hone)⟩

end EbpfTools.Execguard
