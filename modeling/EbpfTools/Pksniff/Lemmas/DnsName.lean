import EbpfTools.Lib.DnsName
import EbpfTools.Pksniff.Lemmas.Strings

/-!
# The name that the DNS parser copies

Of each label the first four bytes are copied, so the eight labels that are read never fill the
array.
-/

namespace EbpfTools.Pksniff
open EbpfTools.Lib EbpfTools.Bpf

/-! ## One label -/

/-- The character `i` of a label, if it has one. -/
def charAt (text : List UInt8) (i : Nat) : List UInt8 := (text.drop i).take 1

theorem length_charAt_le (text : List UInt8) (i : Nat) : (charAt text i).length ≤ 1 :=
  List.length_take_le 1 _

theorem take_four (text : List UInt8) :
    text.take 4 = charAt text 0 ++ charAt text 1 ++ charAt text 2 ++ charAt text 3 := by
  rw [show 4 = 1 + 1 + 1 + 1 from rfl, List.take_add, List.take_add, List.take_add]
  rfl

theorem dnsChar_eq {skb : Skb} {pos : Nat} {text rest : List UInt8} (h : skb.At pos (text ++ rest))
    (i outPos : Nat) {copied : Bool} (hc : copied = decide (i < text.length)) :
    dnsChar skb (pos + i) outPos copied =
      (storesAt outPos (charAt text i), outPos + (charAt text i).length) := by
  by_cases hi : i < text.length
  · rw [← List.take_append_drop i text, List.append_assoc, List.drop_eq_getElem_cons hi] at h
    have hat := h.advance (List.length_take_of_le (Nat.le_of_lt hi))
    have hload : skb.loadByte (pos + i) = some text[i] := hat.loadByte
    rw [dnsChar, hc, if_pos (decide_eq_true hi), hload, charAt, List.drop_eq_getElem_cons hi]
    rfl
  · rw [dnsChar, hc, if_neg (by simpa using hi), charAt,
      List.drop_eq_nil_of_le (Nat.le_of_not_lt hi)]
    rfl

theorem dnsChar_of_room {skb : Skb} {pos outPos : Nat} {text rest : List UInt8}
    (h : skb.At pos (text ++ rest)) (i : Nat) (hroom : outPos < MAX_DNS_NAME - 1) :
    dnsChar skb (pos + i) outPos (i < text.length ∧ outPos < MAX_DNS_NAME - 1) =
      (storesAt outPos (charAt text i), outPos + (charAt text i).length) :=
  dnsChar_eq h i outPos (decide_eq_decide.mpr (and_iff_left hroom))

/-- The first four bytes of a label are appended. -/
theorem dnsLabel_eq {skb : Skb} {pos outPos : Nat} {text rest : List UInt8}
    (h : skb.At pos (text ++ rest)) (hroom : outPos + 4 < MAX_DNS_NAME) :
    dnsLabel skb pos text.length outPos =
      (storesAt outPos (text.take 4), outPos + (text.take 4).length) := by
  have h0 := length_charAt_le text 0
  have h1 := length_charAt_le text 1
  have h2 := length_charAt_le text 2
  have out₁ : outPos + (charAt text 0).length < MAX_DNS_NAME - 1 := by omega
  have out₂ : outPos + (charAt text 0).length + (charAt text 1).length < MAX_DNS_NAME - 1 := by
    omega
  have out₃ : outPos + (charAt text 0).length + (charAt text 1).length + (charAt text 2).length <
      MAX_DNS_NAME - 1 := by omega
  have c₀ := dnsChar_eq h 0 outPos rfl
  have c₁ := dnsChar_of_room h 1 out₁
  have c₂ := dnsChar_of_room h 2 out₂
  have c₃ := dnsChar_of_room h 3 out₃
  rw [Nat.add_zero] at c₀
  simp only [dnsLabel, c₀, c₁, c₂, c₃]
  simp only [take_four, storesAt_append, List.length_append, Nat.add_assoc]

/-! ## The label loop -/

/-- What the loop appends from label number `label` on. -/
def dnsText : (label : Nat) → List DnsLabel → List UInt8
  | _, [] => []
  | label, l :: ls =>
      (if label > 0 then [0x2E] else []) ++ l.text.take 4 ++ dnsText (label + 1) ls

theorem length_dot_le (label : Nat) :
    (if label > 0 then [(0x2E : UInt8)] else []).length ≤ 1 := by
  split <;> simp

theorem length_dnsText_le (label : Nat) (ls : List DnsLabel) :
    (dnsText label ls).length ≤ 5 * ls.length := by
  induction ls generalizing label with
  | nil => exact Nat.le_refl _
  | cons l ls ih =>
      have hrest := ih (label + 1)
      have hdot := length_dot_le label
      simp only [dnsText, List.length_append, List.length_take, List.length_cons]
      omega

theorem dnsText_eq (label : Nat) (l : DnsLabel) (ls : List DnsLabel) :
    dnsText label (l :: ls) =
      (if label > 0 then [0x2E] else []) ++ dotted ((l :: ls).map fun l => l.text.take 4) := by
  induction ls generalizing label l with
  | nil => simp [dnsText, dotted]
  | cons m ls ih =>
      rw [dnsText, ih, if_pos (Nat.succ_pos label)]
      simp only [dotted, List.map_cons, List.intercalate_cons_cons, List.append_assoc]

theorem dnsText_zero (ls : List DnsLabel) :
    dnsText 0 ls = dotted (ls.map fun l => l.text.take 4) := by
  cases ls with
  | nil => rfl
  | cons l ls => exact dnsText_eq 0 l ls

/-- The loop over the encoded labels appends their text, while there is room for five bytes a
label. -/
theorem dnsLabels_eq {skb : Skb} {pktEnd left label pos outPos : Nat} {ls : List DnsLabel}
    {rest : List UInt8} (h : skb.At pos (encodeLabels ls ++ 0 :: rest))
    (hend : pos + (encodeLabels ls).length < pktEnd) (hleft : ls.length ≤ left)
    (hroom : outPos + 5 * ls.length < MAX_DNS_NAME - 1) :
    dnsLabels skb pktEnd left label pos outPos =
      (storesAt outPos (dnsText label ls), outPos + (dnsText label ls).length) := by
  induction ls generalizing left label pos outPos with
  | nil =>
      cases left with
      | zero => rfl
      | succ left =>
          have hload : skb.loadByte pos = some 0 := h.loadByte
          rw [dnsLabels, hload]
          simp [dnsText, storesAt]
  | cons l ls ih =>
      obtain ⟨left, rfl⟩ : ∃ k, left = k + 1 := ⟨left - 1, by simp at hleft; omega⟩
      have hpos := l.length_pos
      rw [encodeLabels_cons, List.length_cons, List.length_append] at hend
      rw [List.length_cons] at hleft hroom
      rw [encodeLabels_cons, List.cons_append, List.append_assoc] at h
      have hload := Skb.At.loadByte h
      have htext : skb.At (pos + 1) (l.text ++ (encodeLabels ls ++ 0 :: rest)) :=
        @Skb.At.advance skb pos 1 [_] _ h rfl
      have hrest := htext.advance rfl
      have hdot : (if label > 0 ∧ outPos < MAX_DNS_NAME - 1 then
          [(outPos, (0x2E : UInt8))] else []) =
            storesAt outPos (if label > 0 then [0x2E] else []) := by
        simp only [and_iff_left (show outPos < MAX_DNS_NAME - 1 by omega)]
        split <;> rfl
      have hshort := length_dot_le label
      rw [dnsLabels, if_neg (show ¬ (pos + 1 > pktEnd ∨ outPos ≥ MAX_DNS_NAME - 1) by omega), hload,
        dnsText]
      simp only [if_neg l.length_ne, if_neg l.not_pointer, l.toNat_length, hdot, length_storesAt]
      generalize (if label > 0 then [(0x2E : UInt8)] else []) = dots at hshort ⊢
      have hfour : (l.text.take 4).length ≤ 4 := List.length_take_le 4 _
      rw [if_neg (by omega), dnsLabel_eq htext (by omega)]
      rw [ih hrest (by omega) (by omega) (by omega)]
      simp only [storesAt_append, List.length_append, Nat.add_assoc]

end EbpfTools.Pksniff
