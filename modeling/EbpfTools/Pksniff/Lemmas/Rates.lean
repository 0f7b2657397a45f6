import EbpfTools.Pksniff.Lemmas.Talkers

/-!
# The rates

What the counters hold from one refresh of the statistics to the next.
-/

namespace EbpfTools.Pksniff
open EbpfTools.Lib

/-! ## Refreshes -/

/-- The event `x` behind `pre` refreshes the statistics. -/
def Refreshes (pre : List (Event × Int)) (x : Event × Int) : Prop :=
  x.2 - (runStats pre).lastStatsTs ≥ STATS_INTERVAL

instance (pre : List (Event × Int)) (x : Event × Int) : Decidable (Refreshes pre x) :=
  inferInstanceAs (Decidable (_ ≥ _))

/-- The events `r` and `x` refresh the statistics, and none of those between them does. -/
structure NextRefresh (pre : List (Event × Int)) (r : Event × Int) (mid : List (Event × Int))
    (x : Event × Int) : Prop where
  first : Refreshes pre r
  between : ∀ p y q, mid = p ++ y :: q → ¬ Refreshes (pre ++ r :: p) y
  next : Refreshes (pre ++ r :: mid) x

/-- The bytes of the packets. -/
def packetBytes (xs : List (Event × Int)) : Nat := (xs.map fun y => y.1.packetLen.toNat).sum

theorem packetBytes_concat (xs : List (Event × Int)) (x : Event × Int) :
    packetBytes (xs ++ [x]) = packetBytes xs + x.1.packetLen.toNat := by
  simp [packetBytes]

/-- The statistics after a refresh at the time `t` and the events `mid`. -/
structure SinceRefresh (t : Int) (mid : List (Event × Int)) (s : Stats) : Prop where
  ts : s.lastStatsTs = t
  pkts : s.totalPkts - s.lastPkts = UInt64.ofNat mid.length
  bytes : s.totalBytes - s.lastBytes = UInt64.ofNat (packetBytes mid)

theorem sinceRefresh_refresh {s : Stats} {e : Event} {now : Int}
    (h : now - s.lastStatsTs ≥ STATS_INTERVAL) : SinceRefresh now [] (updateStats s e now) := by
  simp only [updateStats]
  rw [if_pos h]
  exact ⟨rfl, UInt64.sub_self _, UInt64.sub_self _⟩

theorem counter_add (total last count : UInt64) : total + count - last = total - last + count := by
  grind

theorem SinceRefresh.totals {t : Int} {mid : List (Event × Int)} {s : Stats}
    (hs : SinceRefresh t mid s) (x : Event × Int) :
    s.totalPkts + 1 - s.lastPkts = UInt64.ofNat (mid ++ [x]).length ∧
      s.totalBytes + x.1.packetLen.toUInt64 - s.lastBytes =
        UInt64.ofNat (packetBytes (mid ++ [x])) := by
  constructor
  · rw [counter_add, hs.pkts, List.length_append, UInt64.ofNat_add]
    rfl
  · rw [counter_add, hs.bytes, packetBytes_concat, UInt64.ofNat_add, UInt64.ofNat_uInt32ToNat]

theorem SinceRefresh.step {t : Int} {mid : List (Event × Int)} {s : Stats}
    (hs : SinceRefresh t mid s) {y : Event × Int} (h : ¬ y.2 - s.lastStatsTs ≥ STATS_INTERVAL) :
    SinceRefresh t (mid ++ [y]) (updateStats s y.1 y.2) := by
  obtain ⟨hpkts, hbytes⟩ := hs.totals y
  simp only [updateStats]
  rw [if_neg h]
  exact ⟨hs.ts, hpkts, hbytes⟩

theorem sinceRefresh_run {pre mid : List (Event × Int)} {r : Event × Int} (hr : Refreshes pre r)
    (hmid : ∀ p y q, mid = p ++ y :: q → ¬ Refreshes (pre ++ r :: p) y) :
    SinceRefresh r.2 mid (runStats (pre ++ r :: mid)) := by
  induction mid using List.reverseRecOn with
  | nil =>
      rw [runStats_concat]
      exact sinceRefresh_refresh hr
  | append_singleton mid y ih =>
      have hs := ih fun p z q he => hmid p z (q ++ [y]) (by simp [he])
      have happ : pre ++ r :: (mid ++ [y]) = (pre ++ r :: mid) ++ [y] := by simp
      rw [happ, runStats_concat]
      exact hs.step (hmid mid y [] rfl)

/-! ## What is shown -/

/-- The rates at the second refresh are the raw counts since the first, modulo 2^64. -/
theorem drawStatsRate_next {pre mid : List (Event × Int)} {r x : Event × Int}
    (h : NextRefresh pre r mid x) :
    drawStatsRate (runStats (pre ++ r :: mid ++ [x])) =
      (toDouble ((mid ++ [x]).length % 2 ^ 64), toDouble (packetBytes (mid ++ [x]) % 2 ^ 64)) := by
  have hs := sinceRefresh_run h.first h.between
  have hnext : x.2 - (runStats (pre ++ r :: mid)).lastStatsTs ≥ STATS_INTERVAL := h.next
  obtain ⟨hpkts, hbytes⟩ := hs.totals x
  rw [runStats_concat, updateStats]
  simp only
  rw [if_pos hnext]
  simp only [drawStatsRate, hpkts, hbytes, UInt64.toNat_ofNat']

/-- At least a second lies between two refreshes. -/
theorem NextRefresh.elapsed {pre mid : List (Event × Int)} {r x : Event × Int}
    (h : NextRefresh pre r mid x) : 1 ≤ x.2 - r.2 := by
  have hnext : x.2 - (runStats (pre ++ r :: mid)).lastStatsTs ≥ STATS_INTERVAL := h.next
  rw [(sinceRefresh_run h.first h.between).ts] at hnext
  exact hnext

/-- The rates shown, times the seconds since the refresh `r`, are the packets and the bytes since
then. -/
def RatesShown (pre : List (Event × Int)) (r : Event × Int) (mid : List (Event × Int))
    (x : Event × Int) : Prop :=
  (drawStatsRate (runStats (pre ++ r :: mid ++ [x]))).1 * (x.2 - r.2) = (mid ++ [x]).length ∧
    (drawStatsRate (runStats (pre ++ r :: mid ++ [x]))).2 * (x.2 - r.2) =
      packetBytes (mid ++ [x])

/-- A count is shown as it is if the counter does not overflow and the `double` has room for it. -/
def ShownExactly (n : Nat) : Prop := n < 2 ^ 64 ∧ IsDouble n

theorem ratesShown_of_elapsed_one {pre mid : List (Event × Int)} {r x : Event × Int}
    (h : NextRefresh pre r mid x) (hone : x.2 - r.2 = 1) (hpkts : ShownExactly (mid ++ [x]).length)
    (hbytes : ShownExactly (packetBytes (mid ++ [x]))) : RatesShown pre r mid x := by
  rw [RatesShown, drawStatsRate_next h, hone, Int.mul_one, Int.mul_one,
    toDouble_mod_eq_self_iff.mpr hpkts, toDouble_mod_eq_self_iff.mpr hbytes]
  exact ⟨rfl, rfl⟩

theorem elapsed_one_of_ratesShown {pre mid : List (Event × Int)} {r x : Event × Int}
    (h : NextRefresh pre r mid x) (hrate : RatesShown pre r mid x)
    (hlt : (mid ++ [x]).length < 2 ^ 64) :
    x.2 - r.2 = 1 ∧ ShownExactly (mid ++ [x]).length ∧
      ShownExactly (packetBytes (mid ++ [x])) := by
  obtain ⟨d, hd⟩ := Int.eq_ofNat_of_zero_le (Int.le_trans (by decide) h.elapsed)
  rw [RatesShown, drawStatsRate_next h, hd] at hrate
  obtain ⟨hp, hb⟩ := hrate
  have hpos : 0 < (mid ++ [x]).length := by simp
  simp only [Nat.mod_eq_of_lt hlt] at hp
  obtain ⟨rfl, hdouble⟩ := (toDouble_mul_eq_self_iff hpos).mp (by exact_mod_cast hp)
  rw [Int.natCast_one, Int.mul_one] at hb
  exact ⟨hd, ⟨hlt, hdouble⟩, toDouble_mod_eq_self_iff.mp (by exact_mod_cast hb)⟩

end EbpfTools.Pksniff
