import Mathlib.Data.List.TakeWhile
import EbpfTools.Pksniff.Lemmas.Rates
import EbpfTools.Pksniff.Lemmas.TopSlots

/-!
# What a shared slot holds

A slot belongs to the first non-zero source in it. It counts the packets without a source address
that came before and all packets of its owner, and no others.
-/

namespace EbpfTools.Pksniff
open EbpfTools.Lib

/-! ## The packets of one slot -/

-- the packets before the first with a source address, and those from it on
def anonymous (es : List Event) : List Event := es.takeWhile fun e => e.srcIp = 0

def named (es : List Event) : List Event := es.dropWhile fun e => e.srcIp = 0

/-- The first source of the packets, 0 if there is none. -/
def owner (es : List Event) : UInt32 := ((named es).head?.map Event.srcIp).getD 0

/-- The packets that a slot counts. -/
def countedOf (es : List Event) : List Event :=
  anonymous es ++ (named es).filter fun e => e.srcIp = owner es

def inSlot (i : Nat) (es : List Event) : List Event := es.filter fun e => talkerSlot e.srcIp = i

def eventBytes (es : List Event) : Nat := (es.map fun e => e.packetLen.toNat).sum

/-- What slot `i` holds after the packets `es`. -/
def slotTalker (es : List Event) (i : Nat) : Talker :=
  ⟨owner (inSlot i es), .ofNat (eventBytes (countedOf (inSlot i es))),
    .ofNat (countedOf (inSlot i es)).length⟩

section Concat
variable {es : List Event} (e : Event)

theorem forall_of_named_nil (h : named es = []) : ∀ x ∈ es, decide (x.srcIp = 0) = true := by
  intro x hx
  rw [named, List.dropWhile_eq_nil_iff] at h
  exact h x hx

theorem owner_ne_zero {e₀ : Event} {rest : List Event} (h : named es = e₀ :: rest) :
    owner es = e₀.srcIp ∧ e₀.srcIp ≠ 0 := by
  refine ⟨by rw [owner, h]; rfl, ?_⟩
  have hhead := List.head?_dropWhile_not (fun e : Event => decide (e.srcIp = 0)) es
  rw [named] at h
  rw [h] at hhead
  simpa using hhead

/-- A packet of a slot without an owner becomes its owner and is counted. -/
theorem concat_of_no_owner (h : owner es = 0) :
    owner (es ++ [e]) = e.srcIp ∧ countedOf (es ++ [e]) = countedOf es ++ [e] := by
  have hnil : named es = [] := by
    cases hn : named es with
    | nil => rfl
    | cons e₀ rest => exact absurd (owner_ne_zero hn).1 (h ▸ (owner_ne_zero hn).2.symm)
  have hall := forall_of_named_nil hnil
  have hold : countedOf es = es := by
    rw [countedOf, hnil, anonymous, List.takeWhile_eq_self_iff.mpr hall]
    simp
  have hanon : anonymous (es ++ [e]) = es ++ anonymous [e] := List.takeWhile_append_of_pos hall
  have hnamed : named (es ++ [e]) = named [e] := List.dropWhile_append_of_pos hall
  rw [hold, countedOf, owner, hanon, hnamed]
  by_cases hz : e.srcIp = 0
  · have hn : named [e] = [] := by simp [named, hz]
    have ha : anonymous [e] = [e] := by simp [anonymous, hz]
    rw [hn, ha]
    simp [hz]
  · have hn : named [e] = [e] := by simp [named, hz]
    have ha : anonymous [e] = [] := by simp [anonymous, hz]
    rw [hn, ha]
    simp

/-- A slot with an owner keeps it and counts its packets only. -/
theorem concat_of_owner (h : owner es ≠ 0) :
    owner (es ++ [e]) = owner es ∧
      countedOf (es ++ [e]) = if e.srcIp = owner es then countedOf es ++ [e] else countedOf es := by
  obtain ⟨e₀, rest, hn⟩ : ∃ e₀ rest, named es = e₀ :: rest := by
    cases hn : named es with
    | nil => exact absurd (by rw [owner, hn]; rfl) h
    | cons e₀ rest => exact ⟨e₀, rest, rfl⟩
  have hlen : (anonymous es).length ≠ es.length := by
    have happ := congrArg List.length
      (@List.takeWhile_append_dropWhile _ (fun e : Event => decide (e.srcIp = 0)) es)
    rw [List.length_append] at happ
    have hpos : 0 < (named es).length := by
      rw [hn]
      exact Nat.succ_pos _
    rw [named] at hpos
    rw [anonymous]
    omega
  have hanon : anonymous (es ++ [e]) = anonymous es := by
    rw [anonymous] at hlen
    rw [anonymous, List.takeWhile_append, if_neg hlen, anonymous]
  have hnamed : named (es ++ [e]) = named es ++ [e] := by
    rw [named, List.dropWhile_append, if_neg, named]
    rw [← named, hn]
    simp
  have howner : owner (es ++ [e]) = owner es := by
    rw [owner, hnamed, hn, owner, hn]
    rfl
  refine ⟨howner, ?_⟩
  rw [countedOf, hanon, hnamed, howner, List.filter_append, ← List.append_assoc, ← countedOf]
  by_cases he : e.srcIp = owner es
  · simp [he]
  · simp [he]

theorem inSlot_concat (i : Nat) :
    inSlot i (es ++ [e]) = if talkerSlot e.srcIp = i then inSlot i es ++ [e] else inSlot i es := by
  rw [inSlot, List.filter_append]
  by_cases h : talkerSlot e.srcIp = i
  · simp [h, inSlot]
  · simp [h, inSlot]

theorem slotTalker_counted (xs : List Event) :
    (⟨e.srcIp, .ofNat (eventBytes xs) + e.packetLen.toUInt64, .ofNat xs.length + 1⟩ : Talker) =
      ⟨e.srcIp, .ofNat (eventBytes (xs ++ [e])), .ofNat (xs ++ [e]).length⟩ := by
  have hbytes : eventBytes (xs ++ [e]) = eventBytes xs + e.packetLen.toNat := by
    simp [eventBytes]
  rw [hbytes, UInt64.ofNat_add, UInt64.ofNat_uInt32ToNat, List.length_append, UInt64.ofNat_add]
  rfl

/-- One packet changes the slots as `update_stats` does. -/
theorem countTalker_slotTalker : countTalker (slotTalker es) e = slotTalker (es ++ [e]) := by
  have hother : ∀ i, talkerSlot e.srcIp ≠ i → slotTalker (es ++ [e]) i = slotTalker es i := by
    intro i hi
    rw [slotTalker, slotTalker, inSlot_concat, if_neg hi]
  have hown : inSlot (talkerSlot e.srcIp) (es ++ [e]) = inSlot (talkerSlot e.srcIp) es ++ [e] := by
    rw [inSlot_concat, if_pos rfl]
  have hip : (slotTalker es (talkerSlot e.srcIp)).ip = owner (inSlot (talkerSlot e.srcIp) es) := rfl
  have hupdate : slotTalker (es ++ [e]) (talkerSlot e.srcIp) =
        ⟨e.srcIp, (slotTalker es (talkerSlot e.srcIp)).bytes + e.packetLen.toUInt64,
          (slotTalker es (talkerSlot e.srcIp)).pkts + 1⟩ →
      Function.update (slotTalker es) (talkerSlot e.srcIp)
        ⟨e.srcIp, (slotTalker es (talkerSlot e.srcIp)).bytes + e.packetLen.toUInt64,
          (slotTalker es (talkerSlot e.srcIp)).pkts + 1⟩ = slotTalker (es ++ [e]) := by
    intro h
    funext i
    by_cases hi : talkerSlot e.srcIp = i
    · rw [← hi, Function.update_self, h]
    · rw [Function.update_of_ne (Ne.symm hi), hother i hi]
  rw [countTalker, hip]
  by_cases hz : owner (inSlot (talkerSlot e.srcIp) es) = 0
  · obtain ⟨ho, hc⟩ := concat_of_no_owner e hz
    rw [if_pos (Or.inl hz)]
    refine hupdate ?_
    rw [slotTalker, hown, ho, hc, ← slotTalker_counted]
    rfl
  · obtain ⟨ho, hc⟩ := concat_of_owner e hz
    by_cases he : e.srcIp = owner (inSlot (talkerSlot e.srcIp) es)
    · rw [if_pos (Or.inr he.symm)]
      refine hupdate ?_
      rw [slotTalker, hown, ho, hc, if_pos he, ← he, ← slotTalker_counted]
      rfl
    · rw [if_neg (not_or.mpr ⟨hz, fun h => he h.symm⟩)]
      funext i
      by_cases hi : talkerSlot e.srcIp = i
      · rw [← hi, slotTalker, slotTalker, hown, ho, hc, if_neg he]
      · rw [hother i hi]

end Concat

/-! ## Runs -/

theorem runStats_talkers (xs : List (Event × Int)) :
    (runStats xs).talkers = slotTalker (xs.map Prod.fst) := by
  induction xs using List.reverseRecOn with
  | nil => rfl
  | append_singleton xs x ih =>
      rw [runStats_concat, updateStats_talkers, ih, List.map_append, countTalker_slotTalker]
      rfl

theorem updateStats_top_of_not {s : Stats} {e : Event} {now : Int}
    (h : ¬ now - s.lastStatsTs ≥ STATS_INTERVAL) : (updateStats s e now).top = s.top := by
  simp only [updateStats]
  rw [if_neg h]

/-- The list stays as it is from a refresh on until the next one. -/
theorem top_since_refresh {pre post : List (Event × Int)} {x : Event × Int} (h : Refreshes pre x)
    (hpost : ∀ p y q, post = p ++ y :: q → ¬ Refreshes (pre ++ x :: p) y) :
    (runStats (pre ++ x :: post)).top = findTop (slotTalker ((pre ++ [x]).map Prod.fst)) := by
  induction post using List.reverseRecOn with
  | nil =>
      rw [runStats_concat, updateStats_top h, runStats_talkers, countTalker_slotTalker,
        List.map_append]
      rfl
  | append_singleton post y ih =>
      have hprev := ih fun p z q he => hpost p z (q ++ [y]) (by simp [he])
      have hnot := hpost post y [] rfl
      have happ : pre ++ x :: (post ++ [y]) = (pre ++ x :: post) ++ [y] := by simp
      rw [happ, runStats_concat, updateStats_top_of_not hnot, hprev]

theorem drawStatsTop_findTop (talkers : Nat → Talker) :
    drawStatsTop (findTop talkers) = ((ranking talkers).take MAX_TALKERS).map talkers := by
  have hip : ∀ t ∈ ((ranking talkers).take MAX_TALKERS).map talkers, t.ip ≠ 0 := by
    intro t ht
    obtain ⟨i, hi, rfl⟩ := List.mem_map.mp ht
    have hocc := (topSlots_ranking talkers).occupied i hi
    rw [occupiedSlots, List.mem_filter, decide_eq_true_eq] at hocc
    exact hocc.2.1
  rw [findTop_eq_ranking, drawStatsTop_append hip]

end EbpfTools.Pksniff
