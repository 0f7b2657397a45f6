import EbpfTools.Lib.Bits
import EbpfTools.Privwatch.Print

/-!
# Capabilities in masks and in labels

A capability is a bit of one of the two words that the kernel holds, and a label is printed for the
bits that the new mask has and the old one has not.
-/

namespace EbpfTools.Privwatch
open EbpfTools.Lib

/-! ## Masks -/

/-- The capability number `c` is in the set. -/
def CapWords.Has (w : CapWords) (c : Nat) : Prop :=
  if c < 32 then w.val0.toNat.testBit c else w.val1.toNat.testBit (c - 32)

/-- The task gains the capability number `c`. -/
def Gains (oldCred newCred : Cred) (c : Nat) : Prop :=
  newCred.capEffective.Has c ∧ ¬ oldCred.capEffective.Has c

instance (w : CapWords) (c : Nat) : Decidable (w.Has c) :=
  inferInstanceAs
    (Decidable (if c < 32 then w.val0.toNat.testBit c else w.val1.toNat.testBit (c - 32)))

instance (oldCred newCred : Cred) (c : Nat) : Decidable (Gains oldCred newCred c) :=
  inferInstanceAs (Decidable (_ ∧ _))

/-- The mask that is assembled from the two words has their bits. -/
theorem testBit_readCaps (cred : Cred) (c : Nat) :
    (readCaps cred).toNat.testBit c ↔ cred.capEffective.Has c := by
  have hjoin : readCaps cred = joinWords cred.capEffective.val1 cred.capEffective.val0 := rfl
  rw [hjoin, testBit_joinWords, CapWords.Has]

/-! ## Labels -/

/-- The labels that `print_caps` prints. -/
def printedLabels (oldC newC : UInt64) : List String :=
  match printCaps oldC newC with
  | none => []
  | some (_, _, labels) => labels

theorem printedLabels_eq (oldC newC : UInt64) :
    printedLabels oldC newC =
      (capLabels.filter fun l => (newC &&& ~~~oldC) &&& ((1 : UInt64) <<< l.1) ≠ 0).map
        Prod.snd := by
  unfold printedLabels printCaps
  by_cases he : oldC = newC
  · subst he
    simp
  · rw [if_neg he]

theorem label_inj : ∀ l ∈ capLabels, ∀ m ∈ capLabels, m.2 = l.2 → m = l := by decide

theorem label_lt : ∀ l ∈ capLabels, l.1.toNat < 64 := by decide

/-- The label of bit `l.1` is printed when the capability of that number is gained. -/
theorem mem_printedLabels_iff (oldCred newCred : Cred) {l : UInt64 × String}
    (hl : l ∈ capLabels) :
    l.2 ∈ printedLabels (readCaps oldCred) (readCaps newCred) ↔
      Gains oldCred newCred l.1.toNat := by
  have hlt := label_lt l hl
  have hgained := testBit_and_not (readCaps newCred) (readCaps oldCred) hlt
  rw [printedLabels_eq, Gains, ← testBit_readCaps, ← testBit_readCaps, ← hgained,
    ← and_bit_ne_zero_iff _ hlt, List.mem_map]
  constructor
  · rintro ⟨m, hm, hname⟩
    obtain ⟨hmem, hbit⟩ := List.mem_filter.mp hm
    rw [← label_inj l hl m hmem hname]
    exact of_decide_eq_true hbit
  · intro hbit
    exact ⟨l, List.mem_filter.mpr ⟨hl, decide_eq_true hbit⟩, rfl⟩

end EbpfTools.Privwatch
