import Mathlib.Data.List.Sort
import Mathlib.Order.Lattice

/-!
# The greatest elements of a list

A selection keeps a list of `k` elements in non-increasing order of a weight, inserts each element
before the first one of smaller weight and drops what falls off the end.
-/

namespace EbpfTools.Lib

variable {α β : Type} [LinearOrder β] (w : α → β)

/-- `a` goes before the first element of smaller weight. -/
def insertDesc (a : α) (l : List α) : List α := l.orderedInsert (fun a b => w b < w a) a

/-- `l` lists `k` elements of `cs` (all of them, if there are fewer) of greatest weight, in
non-increasing order. -/
def IsTop (k : Nat) (cs l : List α) : Prop :=
  ∃ rest, (l ++ rest).Perm cs ∧ l.length = min k cs.length ∧
    l.Pairwise (fun a b => w b ≤ w a) ∧ ∀ a ∈ l, ∀ b ∈ rest, w b ≤ w a

variable {w}

theorem insertDesc_cons (a b : α) (l : List α) :
    insertDesc w a (b :: l) = if w b < w a then a :: b :: l else b :: insertDesc w a l := rfl

theorem perm_insertDesc (a : α) (l : List α) : (insertDesc w a l).Perm (a :: l) :=
  List.perm_orderedInsert _ a l

/-- `a` is heavier than `b`, or as heavy and came earlier in the sense of `R`. -/
def Before (w : α → β) (R : α → α → Prop) (a b : α) : Prop := w b < w a ∨ w b = w a ∧ R a b

variable {R : α → α → Prop}

theorem Before.le {a b : α} (h : Before w R a b) : w b ≤ w a := by
  rcases h with hlt | ⟨he, -⟩
  · exact hlt.le
  · exact he.le

/-- An element that came later than all others goes behind those of equal weight. -/
theorem pairwise_insertDesc (a : α) {l : List α} (h : l.Pairwise (Before w R))
    (hR : ∀ b ∈ l, R b a) : (insertDesc w a l).Pairwise (Before w R) := by
  induction l with
  | nil => exact List.pairwise_singleton _ a
  | cons b l ih =>
      obtain ⟨hb, hl⟩ := List.pairwise_cons.mp h
      obtain ⟨hba, hla⟩ := List.forall_mem_cons.mp hR
      rw [insertDesc_cons]
      split
      · rename_i hlt
        refine List.pairwise_cons.mpr ⟨fun c hc => Or.inl ?_, h⟩
        rcases List.mem_cons.mp hc with rfl | hc
        · exact hlt
        · exact (hb c hc).le.trans_lt hlt
      · rename_i hnot
        refine List.pairwise_cons.mpr ⟨fun c hc => ?_, ih hl hla⟩
        rcases List.mem_cons.mp ((perm_insertDesc a l).mem_iff.mp hc) with rfl | hc
        · exact (lt_or_eq_of_le (not_lt.mp hnot)).imp_right fun he => ⟨he, hba⟩
        · exact hb c hc

/-- What falls off the end does not matter later. -/
theorem take_insertDesc_take (k : Nat) (a : α) (l : List α) :
    (insertDesc w a (l.take k)).take k = (insertDesc w a l).take k := by
  induction l generalizing k with
  | nil => rw [List.take_nil]
  | cons b l ih =>
      cases k with
      | zero => rfl
      | succ k =>
          have hcut : (b :: l.take k).take k = (b :: l).take k := by
            cases k with
            | zero => rfl
            | succ k =>
                rw [List.take_succ_cons, List.take_take, Nat.min_eq_left (Nat.le_succ k)]
                rfl
          rw [List.take_succ_cons, insertDesc_cons, insertDesc_cons]
          split
          · rw [List.take_succ_cons, List.take_succ_cons, hcut]
          · rw [List.take_succ_cons, List.take_succ_cons, ih]

/-- An element heavier than the padding is inserted before it. -/
theorem insertDesc_append {a : α} {pad : List α} (h : ∀ b ∈ pad, w b < w a) (l : List α) :
    insertDesc w a (l ++ pad) = insertDesc w a l ++ pad := by
  induction l with
  | nil =>
      cases pad with
      | nil => rfl
      | cons b pad =>
          rw [List.nil_append, insertDesc_cons, if_pos (h b List.mem_cons_self)]
          rfl
  | cons b l ih =>
      rw [List.cons_append, insertDesc_cons, insertDesc_cons]
      split
      · rfl
      · rw [ih, List.cons_append]

theorem foldl_take_insertDesc (k : Nat) (cs l : List α) :
    cs.foldl (fun top a => (insertDesc w a top).take k) (l.take k) =
      (cs.foldl (fun l a => insertDesc w a l) l).take k := by
  induction cs generalizing l with
  | nil => rfl
  | cons a cs ih =>
      rw [List.foldl_cons, List.foldl_cons, take_insertDesc_take, ih]

theorem foldl_insertDesc_append {cs pad : List α} (h : ∀ a ∈ cs, ∀ b ∈ pad, w b < w a)
    (l : List α) :
    cs.foldl (fun l a => insertDesc w a l) (l ++ pad) =
      cs.foldl (fun l a => insertDesc w a l) l ++ pad := by
  induction cs generalizing l with
  | nil => rfl
  | cons a cs ih =>
      rw [List.foldl_cons, List.foldl_cons, insertDesc_append (h a List.mem_cons_self),
        ih fun c hc => h c (List.mem_cons_of_mem a hc)]

theorem foldl_insertDesc (R : α → α → Prop) {cs l : List α} (hl : l.Pairwise (Before w R))
    (hcs : cs.Pairwise R) (hcross : ∀ b ∈ l, ∀ a ∈ cs, R b a) :
    (cs.foldl (fun l a => insertDesc w a l) l).Perm (l ++ cs) ∧
      (cs.foldl (fun l a => insertDesc w a l) l).Pairwise (Before w R) := by
  induction cs generalizing l with
  | nil => simpa using hl
  | cons a cs ih =>
      obtain ⟨ha, hcs⟩ := List.pairwise_cons.mp hcs
      have hcross' : ∀ b ∈ insertDesc w a l, ∀ c ∈ cs, R b c := by
        intro b hb c hc
        rcases List.mem_cons.mp ((perm_insertDesc a l).mem_iff.mp hb) with rfl | hb
        · exact ha c hc
        · exact hcross b hb c (List.mem_cons_of_mem a hc)
      obtain ⟨hperm, hsorted⟩ :=
        ih (pairwise_insertDesc a hl fun b hb => hcross b hb a List.mem_cons_self) hcs hcross'
      refine ⟨?_, hsorted⟩
      calc (cs.foldl (fun l a => insertDesc w a l) (insertDesc w a l)).Perm
            (insertDesc w a l ++ cs) := hperm
        _ |>.Perm (a :: l ++ cs) := (perm_insertDesc a l).append_right cs
        _ |>.Perm (l ++ a :: cs) := List.perm_middle.symm

/-! ## Sorting by insertion -/

variable (w) in
/-- The elements in non-increasing order, those of equal weight as they came. -/
def sortDesc (cs : List α) : List α := cs.foldl (fun l a => insertDesc w a l) []

theorem perm_sortDesc (cs : List α) : (sortDesc w cs).Perm cs := by
  have htrivial : cs.Pairwise fun _ _ => True := List.pairwise_of_forall fun _ _ => trivial
  exact (foldl_insertDesc _ List.Pairwise.nil htrivial (List.forall_mem_nil _)).1

theorem pairwise_sortDesc {cs : List α} (h : cs.Pairwise R) :
    (sortDesc w cs).Pairwise (Before w R) :=
  (foldl_insertDesc R List.Pairwise.nil h (List.forall_mem_nil _)).2

theorem map_insertDesc {ι : Type} (f : ι → α) (i : ι) (l : List ι) :
    (insertDesc (fun i => w (f i)) i l).map f = insertDesc w (f i) (l.map f) := by
  induction l with
  | nil => rfl
  | cons j l ih =>
      rw [List.map_cons, insertDesc_cons, insertDesc_cons]
      split
      · rfl
      · rw [List.map_cons, ih]

theorem sortDesc_map {ι : Type} (f : ι → α) (is : List ι) :
    sortDesc w (is.map f) = (sortDesc (fun i => w (f i)) is).map f := by
  rw [sortDesc, sortDesc, List.foldl_map]
  generalize hl : ([] : List ι) = l
  rw [show ([] : List α) = l.map f by rw [← hl, List.map_nil]]
  clear hl
  induction is generalizing l with
  | nil => rfl
  | cons i is ih => rw [List.foldl_cons, List.foldl_cons, ← map_insertDesc, ih]

/-! ## Selections -/

/-- A selection from `k` padding elements that are lighter than every candidate ends with the first
`k` of the sorted candidates, padded. -/
theorem selection_eq_sortDesc {k : Nat} {cs : List α} {z : α} (h : ∀ a ∈ cs, w z < w a) :
    cs.foldl (fun top a => (insertDesc w a top).take k) (List.replicate k z) =
      (sortDesc w cs).take k ++ List.replicate (k - cs.length) z := by
  have hpad : ∀ a ∈ cs, ∀ b ∈ List.replicate k z, w b < w a := by
    intro a ha b hb
    rw [List.eq_of_mem_replicate hb]
    exact h a ha
  have hfold := foldl_take_insertDesc (w := w) k cs (List.replicate k z)
  have happ := foldl_insertDesc_append hpad []
  have hlen := (perm_sortDesc (w := w) cs).length_eq
  rw [List.take_of_length_le (List.length_replicate.le)] at hfold
  rw [List.nil_append, ← sortDesc] at happ
  rw [hfold, happ, List.take_append, List.take_replicate, hlen,
    Nat.min_eq_left (Nat.sub_le k cs.length)]

theorem isTop_sortDesc (k : Nat) (cs : List α) : IsTop w k cs ((sortDesc w cs).take k) := by
  have htrivial : cs.Pairwise fun _ _ => True := List.pairwise_of_forall fun _ _ => trivial
  have hsorted : (sortDesc w cs).Pairwise fun a b => w b ≤ w a :=
    (pairwise_sortDesc htrivial).imp Before.le
  refine ⟨(sortDesc w cs).drop k, ?_, ?_, hsorted.sublist (List.take_sublist k _), ?_⟩
  · rw [List.take_append_drop]
    exact perm_sortDesc cs
  · rw [List.length_take, (perm_sortDesc cs).length_eq]
  · rw [← List.take_append_drop k (sortDesc w cs), List.pairwise_append] at hsorted
    exact fun a ha b hb => hsorted.2.2 a ha b hb

/-- Such a selection ends with the top `k`, padded. -/
theorem selection_eq {k : Nat} {cs : List α} {z : α} (h : ∀ a ∈ cs, w z < w a) :
    ∃ l, IsTop w k cs l ∧
      cs.foldl (fun top a => (insertDesc w a top).take k) (List.replicate k z) =
        l ++ List.replicate (k - l.length) z := by
  refine ⟨(sortDesc w cs).take k, isTop_sortDesc k cs, ?_⟩
  rw [selection_eq_sortDesc h, List.length_take, (perm_sortDesc cs).length_eq]
  congr 2
  omega

theorem take_insertDesc_of_le {a : α} {l : List α} (h : ∀ b ∈ l, w a ≤ w b) :
    (insertDesc w a l).take l.length = l := by
  induction l with
  | nil => rfl
  | cons b l ih =>
      obtain ⟨hb, hl⟩ := List.forall_mem_cons.mp h
      rw [insertDesc_cons, if_neg (not_lt.mpr hb), List.length_cons, List.take_succ_cons, ih hl]

/-- Candidates as light as the padding are not selected. -/
theorem foldl_take_filter {k : Nat} {z : α} (hz : ∀ a, w z ≤ w a) (cs : List α) {top : List α}
    (htop : top.length = k) :
    cs.foldl (fun top a => (insertDesc w a top).take k) top =
      (cs.filter fun a => w z < w a).foldl (fun top a => (insertDesc w a top).take k) top := by
  induction cs generalizing top with
  | nil => rfl
  | cons a cs ih =>
      rw [List.foldl_cons]
      by_cases ha : w z < w a
      · have hlen : ((insertDesc w a top).take k).length = k := by
          rw [List.length_take, (perm_insertDesc a top).length_eq, List.length_cons]
          omega
        have hkeep : (a :: cs).filter (fun a => w z < w a) =
            a :: cs.filter fun a => w z < w a := List.filter_cons_of_pos (decide_eq_true ha)
        rw [hkeep, List.foldl_cons, ih hlen]
      · have hlight : (insertDesc w a top).take k = top := by
          rw [← htop]
          exact take_insertDesc_of_le fun b _ => (not_lt.mp ha).trans (hz b)
        have hdrop : (a :: cs).filter (fun a => w z < w a) = cs.filter fun a => w z < w a :=
          List.filter_cons_of_neg (by simpa using ha)
        rw [hdrop, hlight, ih htop]

end EbpfTools.Lib
