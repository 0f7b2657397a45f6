import Mathlib.Data.Finset.Card
import EbpfTools.Lib.Run
import EbpfTools.Lib.TopK
import EbpfTools.Pksniff.Lemmas.Capture
import EbpfTools.Pksniff.Stats

/-!
# The talkers

What the 256 slots hold while no two sources share one, and what the selection finds in them.
-/

namespace EbpfTools.Pksniff
open EbpfTools.Lib EbpfTools.Bpf

/-! ## Totals per source -/

def totalBytes (ip : UInt32) (es : List Event) : Nat :=
  ((es.filter fun e => e.srcIp = ip).map fun e => e.packetLen.toNat).sum

def totalPkts (ip : UInt32) (es : List Event) : Nat := (es.filter fun e => e.srcIp = ip).length

/-- The non-zero source addresses. -/
def sources (es : List Event) : Finset UInt32 :=
  ((es.map fun e => e.srcIp).filter fun ip => ip ≠ 0).toFinset

theorem mem_sources {ip : UInt32} {es : List Event} :
    ip ∈ sources es ↔ ip ≠ 0 ∧ ∃ e ∈ es, e.srcIp = ip := by
  simp only [sources, List.mem_toFinset, List.mem_filter, List.mem_map, decide_eq_true_eq]
  exact and_comm

theorem totalBytes_concat (ip : UInt32) (es : List Event) (e : Event) :
    totalBytes ip (es ++ [e]) = totalBytes ip es + if e.srcIp = ip then e.packetLen.toNat else 0 := by
  by_cases h : e.srcIp = ip <;> simp [totalBytes, List.filter_append, h]

theorem totalPkts_concat (ip : UInt32) (es : List Event) (e : Event) :
    totalPkts ip (es ++ [e]) = totalPkts ip es + if e.srcIp = ip then 1 else 0 := by
  by_cases h : e.srcIp = ip <;> simp [totalPkts, List.filter_append, h]

theorem totals_of_missing {ip : UInt32} {es : List Event} (h : ∀ e ∈ es, e.srcIp ≠ ip) :
    totalBytes ip es = 0 ∧ totalPkts ip es = 0 := by
  have hnil : es.filter (fun e => e.srcIp = ip) = [] := by
    rw [List.filter_eq_nil_iff]
    intro e he
    simpa using h e he
  rw [totalBytes, totalPkts, hnil]
  exact ⟨rfl, rfl⟩

/-- An event that the kernel side submits. -/
def Captured (e : Event) : Prop := ∃ s c, e ∈ (processPacket s c).2

theorem packetLen_pos {e : Event} (h : Captured e) : 0 < e.packetLen.toNat := by
  obtain ⟨s, c, he⟩ := h
  rw [(of_mem_processPacket he).1]
  rcases processPacket_cases s c with hnone | ⟨-, -, -, hlin, -⟩
  · rw [hnone] at he
    cases he
  · exact lt_of_lt_of_le (by omega) (hlin.trans c.skb.linear_le)

theorem totalPkts_le {es : List Event} (h : ∀ e ∈ es, Captured e) (ip : UInt32) :
    totalPkts ip es ≤ totalBytes ip es := by
  induction es using List.reverseRecOn with
  | nil => exact le_refl 0
  | append_singleton es e ih =>
      have hes := ih fun e he => h e (List.mem_append_left _ he)
      have hpos := packetLen_pos (h e (by simp))
      rw [totalPkts_concat, totalBytes_concat]
      split <;> omega

/-! ## The slots -/

/-- The slot of the source of `e` is its own or untouched, and the byte count does not overflow;
packets without a source address are not counted for any. -/
def SlotFree (talkers : Nat → Talker) (e : Event) : Prop :=
  e.srcIp = 0 ∨
    ((talkers (talkerSlot e.srcIp)).ip = e.srcIp ∨ talkers (talkerSlot e.srcIp) = .zero) ∧
      (talkers (talkerSlot e.srcIp)).bytes.toNat + e.packetLen.toNat < 2 ^ 64

instance (talkers : Nat → Talker) (e : Event) : Decidable (SlotFree talkers e) :=
  inferInstanceAs (Decidable (_ ∨ _))

/-- The slots against the events counted so far. -/
structure TalkersInv (es : List Event) (talkers : Nat → Talker) : Prop where
  slot : ∀ i, (talkers i).ip ≠ 0 → talkerSlot (talkers i).ip = i
  counted : ∀ ip ≠ 0, (talkers (talkerSlot ip)).ip = ip →
    (talkers (talkerSlot ip)).bytes.toNat = totalBytes ip es ∧
      (talkers (talkerSlot ip)).pkts.toNat = totalPkts ip es ∧ ∃ e ∈ es, e.srcIp = ip
  missing : ∀ ip ≠ 0, (talkers (talkerSlot ip)).ip ≠ ip → ∀ e ∈ es, e.srcIp ≠ ip

theorem talkersInv_init : TalkersInv [] fun _ => .zero where
  slot i h := absurd rfl h
  counted ip h he := absurd he.symm h
  missing ip h hne e he := by cases he

/-- A packet without a source address leaves the address of every slot and the counts of every
slot in use alone. -/
theorem countTalker_zero {talkers : Nat → Talker} {e : Event} (h : e.srcIp = 0) (i : Nat) :
    (countTalker talkers e i).ip = (talkers i).ip ∧
      ((talkers i).ip ≠ 0 → countTalker talkers e i = talkers i) := by
  rw [countTalker, h]
  simp only [or_self]
  split
  · rename_i hz
    by_cases hi : i = talkerSlot 0
    · subst hi
      rw [Function.update_self]
      exact ⟨hz.symm, fun hne => absurd hz hne⟩
    · rw [Function.update_of_ne hi]
      exact ⟨rfl, fun _ => rfl⟩
  · exact ⟨rfl, fun _ => rfl⟩

theorem countTalker_of_free {talkers : Nat → Talker} {e : Event}
    (h : (talkers (talkerSlot e.srcIp)).ip = e.srcIp ∨ talkers (talkerSlot e.srcIp) = .zero) :
    countTalker talkers e = Function.update talkers (talkerSlot e.srcIp)
      ⟨e.srcIp, (talkers (talkerSlot e.srcIp)).bytes + e.packetLen.toUInt64,
        (talkers (talkerSlot e.srcIp)).pkts + 1⟩ := by
  rw [countTalker]
  refine if_pos ?_
  rcases h with h | h
  · exact Or.inr h
  · exact Or.inl (by rw [h]; rfl)

/-- A slot that is free for `ip` holds the totals of `ip`, which are 0 if it is untouched. -/
theorem TalkersInv.totals {es : List Event} {talkers : Nat → Talker} (hi : TalkersInv es talkers)
    {ip : UInt32} (hip : ip ≠ 0)
    (h : (talkers (talkerSlot ip)).ip = ip ∨ talkers (talkerSlot ip) = .zero) :
    (talkers (talkerSlot ip)).bytes.toNat = totalBytes ip es ∧
      (talkers (talkerSlot ip)).pkts.toNat = totalPkts ip es := by
  rcases h with h | h
  · obtain ⟨hb, hp, -⟩ := hi.counted ip hip h
    exact ⟨hb, hp⟩
  · have hne : (talkers (talkerSlot ip)).ip ≠ ip := by
      rw [h]
      exact fun he => hip he.symm
    obtain ⟨hb, hp⟩ := totals_of_missing (hi.missing ip hip hne)
    rw [hb, hp, h]
    exact ⟨rfl, rfl⟩

theorem talkersInv_step_zero {es : List Event} {talkers : Nat → Talker} {e : Event}
    (hi : TalkersInv es talkers) (hz : e.srcIp = 0) :
    TalkersInv (es ++ [e]) (countTalker talkers e) := by
  have hz' := fun i => @countTalker_zero talkers e hz i
  have hother : ∀ ip, ip ≠ 0 → e.srcIp ≠ ip := fun ip hip he => hip (he ▸ hz)
  refine ⟨fun i hne => ?_, fun ip hip he => ?_, fun ip hip hne e' he' => ?_⟩
  · rw [(hz' i).1] at hne ⊢
    exact hi.slot i hne
  · rw [(hz' _).1] at he
    obtain ⟨hb, hp, e', he', hs⟩ := hi.counted ip hip he
    rw [(hz' _).2 (by rw [he]; exact hip), totalBytes_concat, totalPkts_concat,
      if_neg (hother ip hip), if_neg (hother ip hip)]
    exact ⟨hb, hp, e', List.mem_append_left _ he', hs⟩
  · rw [(hz' _).1] at hne
    rcases List.mem_append.mp he' with he' | he'
    · exact hi.missing ip hip hne e' he'
    · rw [List.mem_singleton.mp he']
      exact hother ip hip

/-- An address without a slot after the slot of `src` was taken had none before and is not
`src`. -/
theorem ip_ne_of_update {talkers : Nat → Talker} {src ip : UInt32} {bytes pkts : UInt64}
    (hfree : (talkers (talkerSlot src)).ip = src ∨ talkers (talkerSlot src) = .zero) (hip : ip ≠ 0)
    (hne : (Function.update talkers (talkerSlot src) ⟨src, bytes, pkts⟩ (talkerSlot ip)).ip ≠ ip) :
    (talkers (talkerSlot ip)).ip ≠ ip ∧ src ≠ ip := by
  by_cases hs : talkerSlot ip = talkerSlot src
  · rw [hs, Function.update_self] at hne
    refine ⟨?_, hne⟩
    rw [hs]
    rcases hfree with h | h
    · rw [h]
      exact hne
    · rw [h]
      exact fun he => hip he.symm
  · rw [Function.update_of_ne hs] at hne
    exact ⟨hne, fun h => hs (by rw [h])⟩

theorem talkersInv_step {es : List Event} {talkers : Nat → Talker} {e : Event}
    (hi : TalkersInv es talkers) (hcap : ∀ e' ∈ es ++ [e], Captured e')
    (hfree : SlotFree talkers e) : TalkersInv (es ++ [e]) (countTalker talkers e) := by
  by_cases hz : e.srcIp = 0
  · exact talkersInv_step_zero hi hz
  obtain ⟨hslot, hlt⟩ := hfree.resolve_left hz
  obtain ⟨hbytes, hpkts⟩ := hi.totals hz hslot
  have hle := totalPkts_le (fun e' he' => hcap e' (List.mem_append_left _ he')) e.srcIp
  have hpos := packetLen_pos (hcap e (by simp))
  rw [countTalker_of_free hslot]
  refine ⟨fun i hne => ?_, fun ip hip he => ?_, fun ip hip hne e' he' => ?_⟩
  · by_cases hi' : i = talkerSlot e.srcIp
    · rw [hi', Function.update_self]
    · rw [Function.update_of_ne hi'] at hne ⊢
      exact hi.slot i hne
  · by_cases hs : talkerSlot ip = talkerSlot e.srcIp
    · rw [hs, Function.update_self] at he ⊢
      have he : e.srcIp = ip := he
      subst he
      rw [totalBytes_concat, totalPkts_concat, if_pos rfl, if_pos rfl, ← hbytes, ← hpkts]
      refine ⟨?_, ?_, e, by simp, rfl⟩
      · rw [UInt64.toNat_add, UInt32.toNat_toUInt64]
        exact Nat.mod_eq_of_lt hlt
      · rw [UInt64.toNat_add]
        exact Nat.mod_eq_of_lt (show _ + 1 < 2 ^ 64 by omega)
    · rw [Function.update_of_ne hs] at he ⊢
      have hne : e.srcIp ≠ ip := fun h => hs (by rw [h])
      obtain ⟨hb, hp, e', he', hsrc⟩ := hi.counted ip hip he
      rw [totalBytes_concat, totalPkts_concat, if_neg hne, if_neg hne]
      exact ⟨hb, hp, e', List.mem_append_left _ he', hsrc⟩
  · obtain ⟨hold, hsrc⟩ := ip_ne_of_update hslot hip hne
    rcases List.mem_append.mp he' with he' | he'
    · exact hi.missing ip hip hold e' he'
    · rw [List.mem_singleton.mp he']
      exact hsrc

/-! ## The selection -/

def Talker.weight (t : Talker) : Nat := t.bytes.toNat

theorem bytes_gt_iff (t b : Talker) : t.bytes > b.bytes ↔ b.weight < t.weight :=
  UInt64.lt_iff_toNat_lt

/-- The two loops insert a talker into the five entries. -/
theorem insertTop_eq (t : Talker) {top : List Talker} (h : top.length = MAX_TALKERS) :
    insertTop t MAX_TALKERS 0 top = (insertDesc Talker.weight t top).take MAX_TALKERS := by
  match top, h with
  | [a, b, c, d, e], _ =>
      simp only [insertTop, List.getD_cons_zero, List.getD_cons_succ, bytes_gt_iff,
        insertDesc_cons]
      split
      · rfl
      split
      · rfl
      split
      · rfl
      split
      · rfl
      split <;> rfl

/-- The talkers in the slots that are in use. -/
def candidates (talkers : Nat → Talker) : List Talker :=
  ((List.range 256).map talkers).filter fun t => t.ip ≠ 0

theorem findTop_eq (talkers : Nat → Talker) :
    findTop talkers = (candidates talkers).foldl
      (fun top t => (insertDesc Talker.weight t top).take MAX_TALKERS)
      (List.replicate MAX_TALKERS .zero) := by
  rw [findTop, candidates, List.foldl_filter, List.foldl_map]
  generalize List.range 256 = is
  generalize htop : List.replicate MAX_TALKERS Talker.zero = top
  have hlen : top.length = MAX_TALKERS := by rw [← htop, List.length_replicate]
  clear htop
  induction is generalizing top with
  | nil => rfl
  | cons i is ih =>
      have hstep : (if (talkers i).ip = 0 then top else insertTop (talkers i) MAX_TALKERS 0 top) =
          if decide ((talkers i).ip ≠ 0) = true then
            (insertDesc Talker.weight (talkers i) top).take MAX_TALKERS else top := by
        by_cases hi : (talkers i).ip = 0
        · simp [hi]
        · simp [hi, insertTop_eq _ hlen]
      rw [List.foldl_cons, List.foldl_cons, hstep]
      apply ih
      split
      · rw [List.length_take, insertDesc, List.orderedInsert_length, hlen]
        rfl
      · exact hlen

theorem mem_candidates {talkers : Nat → Talker} {t : Talker} :
    t ∈ candidates talkers ↔ t.ip ≠ 0 ∧ ∃ i < 256, talkers i = t := by
  simp only [candidates, List.mem_filter, List.mem_map, List.mem_range, decide_eq_true_eq]
  exact and_comm

theorem talkerSlot_lt (ip : UInt32) : talkerSlot ip < 256 := by
  rw [talkerSlot, UInt32.toNat_and]
  exact lt_of_le_of_lt Nat.and_le_right (by decide)

/-- Each slot in use is for another source, and every source has one. -/
theorem candidates_ips {es : List Event} {talkers : Nat → Talker} (hi : TalkersInv es talkers) :
    ((candidates talkers).map Talker.ip).Nodup ∧
      ∀ ip, ip ∈ (candidates talkers).map Talker.ip ↔ ip ∈ sources es := by
  constructor
  · have hslots : ((candidates talkers).map Talker.ip).map talkerSlot =
        (List.range 256).filter fun i => (talkers i).ip ≠ 0 := by
      rw [candidates, List.filter_map, List.map_map, List.map_map]
      refine (List.map_congr_left fun i hm => ?_).trans (List.map_id _)
      exact hi.slot i (by simpa using (List.mem_filter.mp hm).2)
    exact List.Nodup.of_map talkerSlot (hslots ▸ List.nodup_range.filter _)
  · intro ip
    rw [List.mem_map, mem_sources]
    constructor
    · rintro ⟨t, ht, rfl⟩
      obtain ⟨hne, i, -, rfl⟩ := mem_candidates.mp ht
      have hs := hi.slot i hne
      obtain ⟨-, -, he⟩ := hi.counted (talkers i).ip hne (by rw [hs])
      exact ⟨hne, he⟩
    · rintro ⟨hne, e, he, hsrc⟩
      have hip : (talkers (talkerSlot ip)).ip = ip := by
        by_contra hno
        exact hi.missing ip hne hno e he hsrc
      refine ⟨talkers (talkerSlot ip), mem_candidates.mpr ⟨?_, _, talkerSlot_lt ip, rfl⟩, hip⟩
      rw [hip]
      exact hne

/-! ## The top talkers -/

/-- The sources with the most bytes, with their totals, in non-increasing order. -/
structure TopTalkers (es : List Event) (shown : List Talker) : Prop where
  sorted : shown.Pairwise fun a b => b.bytes ≤ a.bytes
  nodup : (shown.map Talker.ip).Nodup
  length : shown.length = min MAX_TALKERS (sources es).card
  totals : ∀ t ∈ shown, t.ip ∈ sources es ∧ t.bytes.toNat = totalBytes t.ip es ∧
    t.pkts.toNat = totalPkts t.ip es
  largest : ∀ ip ∈ sources es, ip ∉ shown.map Talker.ip → ∀ t ∈ shown,
    totalBytes ip es ≤ t.bytes.toNat

theorem totals_of_mem_candidates {es : List Event} {talkers : Nat → Talker}
    (hi : TalkersInv es talkers) {t : Talker} (ht : t ∈ candidates talkers) :
    t.ip ∈ sources es ∧ t.bytes.toNat = totalBytes t.ip es ∧ t.pkts.toNat = totalPkts t.ip es := by
  obtain ⟨hne, i, -, rfl⟩ := mem_candidates.mp ht
  have hs := hi.slot i hne
  obtain ⟨hb, hp, he⟩ := hi.counted (talkers i).ip hne (by rw [hs])
  rw [hs] at hb hp
  exact ⟨mem_sources.mpr ⟨hne, he⟩, hb, hp⟩

theorem weight_pos {es : List Event} {talkers : Nat → Talker} (hi : TalkersInv es talkers)
    (hcap : ∀ e ∈ es, Captured e) {t : Talker} (ht : t ∈ candidates talkers) : 0 < t.weight := by
  obtain ⟨hsrc, hb, -⟩ := totals_of_mem_candidates hi ht
  obtain ⟨-, e, he, hip⟩ := mem_sources.mp hsrc
  have hpos : 0 < totalPkts t.ip es :=
    List.length_pos_of_mem (List.mem_filter.mpr ⟨he, decide_eq_true hip⟩)
  have hle := totalPkts_le hcap t.ip
  rw [Talker.weight, hb]
  omega

theorem drawStatsTop_append {l : List Talker} (h : ∀ t ∈ l, t.ip ≠ 0) (n : Nat) :
    drawStatsTop (l ++ List.replicate n .zero) = l := by
  have hl : ∀ t ∈ l, decide (t.ip ≠ 0) = true := fun t ht => decide_eq_true (h t ht)
  rw [drawStatsTop, List.takeWhile_append_of_pos hl]
  cases n <;> simp [List.replicate_succ, Talker.zero]

/-- While the slots are kept apart, the selection finds the top talkers. -/
theorem topTalkers_findTop {es : List Event} {talkers : Nat → Talker} (hi : TalkersInv es talkers)
    (hcap : ∀ e ∈ es, Captured e) : TopTalkers es (drawStatsTop (findTop talkers)) := by
  obtain ⟨l, ⟨rest, hperm, hlen, hsorted, hrest⟩, htop⟩ :=
    @selection_eq _ _ _ Talker.weight MAX_TALKERS (candidates talkers) .zero
      fun t ht => weight_pos hi hcap ht
  obtain ⟨hnodup, hips⟩ := candidates_ips hi
  have hmem : ∀ t ∈ l, t ∈ candidates talkers := fun t ht =>
    hperm.mem_iff.mp (List.mem_append_left rest ht)
  rw [findTop_eq, htop, drawStatsTop_append fun t ht => (mem_candidates.mp (hmem t ht)).1]
  refine ⟨hsorted.imp UInt64.le_iff_toNat_le.mpr, ?_, ?_, ?_, ?_⟩
  · have hall := (hperm.map Talker.ip).nodup_iff.mpr hnodup
    rw [List.map_append] at hall
    exact (List.nodup_append.mp hall).1
  · have hcard : (sources es).card = (candidates talkers).length := by
      rw [← List.length_map Talker.ip, ← List.toFinset_card_of_nodup hnodup]
      congr 1
      ext ip
      rw [List.mem_toFinset, hips ip]
    rw [hlen, hcard]
  · exact fun t ht => totals_of_mem_candidates hi (hmem t ht)
  · intro ip hip hnot t ht
    obtain ⟨u, hu, rfl⟩ := List.mem_map.mp ((hips ip).mpr hip)
    rcases List.mem_append.mp (hperm.mem_iff.mpr hu) with hl | hr
    · exact absurd (List.mem_map_of_mem hl) hnot
    · rw [← (totals_of_mem_candidates hi hu).2.1]
      exact hrest t ht u hr

/-! ## Runs -/

theorem runStats_concat (xs : List (Event × Int)) (x : Event × Int) :
    runStats (xs ++ [x]) = updateStats (runStats xs) x.1 x.2 := by
  rw [runStats, List.foldl_append]
  rfl

theorem updateStats_talkers (s : Stats) (e : Event) (now : Int) :
    (updateStats s e now).talkers = countTalker s.talkers e := by
  simp only [updateStats]
  split <;> rfl

theorem updateStats_top {s : Stats} {e : Event} {now : Int}
    (h : now - s.lastStatsTs ≥ STATS_INTERVAL) :
    (updateStats s e now).top = findTop (countTalker s.talkers e) := by
  simp only [updateStats]
  rw [if_pos h]

theorem talkersInv_run {xs : List (Event × Int)} (hcap : ∀ x ∈ xs, Captured x.1)
    (hfree : ∀ pre x post, xs = pre ++ x :: post → SlotFree (runStats pre).talkers x.1) :
    TalkersInv (xs.map Prod.fst) (runStats xs).talkers := by
  induction xs using List.reverseRecOn with
  | nil => exact talkersInv_init
  | append_singleton xs x ih =>
      have hi := ih (fun y hy => hcap y (List.mem_append_left _ hy))
        fun pre y post he => hfree pre y (post ++ [x]) (by simp [he])
      rw [runStats_concat, updateStats_talkers, List.map_append]
      refine talkersInv_step hi (fun e he => ?_) (hfree xs x [] rfl)
      have he' : e ∈ (xs ++ [x]).map Prod.fst := by rw [List.map_append]; exact he
      obtain ⟨y, hy, rfl⟩ := List.mem_map.mp he'
      exact hcap y hy

end EbpfTools.Pksniff
