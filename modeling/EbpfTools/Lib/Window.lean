import Mathlib.Data.List.Basic

/-!
# Windows of character cells

A window as ncurses keeps it. A text of printable characters is written from a cell on, goes on in
the next row at the right margin, and ends with the last cell of the window; nothing is written from
a cell outside.
-/

namespace EbpfTools.Lib

structure Window where
  rows : Nat
  cols : Nat
  cell : Nat → Nat → UInt8

namespace Window

def put (w : Window) (y x : Nat) (c : UInt8) : Window :=
  { w with cell := fun i j => if i = y ∧ j = x then c else w.cell i j }

/-- `waddstr` with the cursor at row `y` and column `x`. -/
def addStr (w : Window) : (y x : Nat) → List UInt8 → Window
  | _, _, [] => w
  | y, x, c :: text =>
      if x + 1 < w.cols then addStr (w.put y x c) y (x + 1) text
      else if y + 1 < w.rows then addStr (w.put y x c) (y + 1) 0 text
      else w.put y x c

def mvAddStr (w : Window) (y x : Int) (text : List UInt8) : Window :=
  if 0 ≤ y ∧ y < w.rows ∧ 0 ≤ x ∧ x < w.cols then w.addStr y.toNat x.toNat text else w

/-- Texts that are written one after the other, each from column `x` of its row on. -/
def addLines (w : Window) (x : Nat) (lines : List (Int × List UInt8)) : Window :=
  lines.foldl (fun w l => w.mvAddStr l.1 x l.2) w

/-- What `n` cells from row `y` and column `x` on show. -/
def textAt (w : Window) (y x n : Nat) : List UInt8 := (List.range n).map fun i => w.cell y (x + i)

variable {w : Window} {x y n : Nat} {text : List UInt8} {lines : List (Int × List UInt8)}

theorem textAt_add (w : Window) (y x n m : Nat) :
    w.textAt y x (n + m) = w.textAt y x n ++ w.textAt y (x + n) m := by
  rw [textAt, List.range_add, List.map_append, List.map_map, textAt, textAt]
  simp only [Function.comp_def, Nat.add_assoc]

theorem textAt_succ (w : Window) (y x n : Nat) :
    w.textAt y x (n + 1) = w.cell y x :: w.textAt y (x + 1) n := by
  rw [Nat.add_comm, textAt_add]
  rfl

theorem textAt_congr {w' : Window} (h : ∀ j, x ≤ j → j < x + n → w'.cell y j = w.cell y j) :
    w'.textAt y x n = w.textAt y x n :=
  List.map_congr_left fun i hi => h (x + i) (by omega) (by
    have := List.mem_range.mp hi
    omega)

/-! ## Texts that fit -/

@[simp] theorem rows_put (w : Window) (y x : Nat) (c : UInt8) : (w.put y x c).rows = w.rows := rfl

@[simp] theorem cols_put (w : Window) (y x : Nat) (c : UInt8) : (w.put y x c).cols = w.cols := rfl

theorem size_addStr (w : Window) (y x : Nat) (text : List UInt8) :
    (w.addStr y x text).rows = w.rows ∧ (w.addStr y x text).cols = w.cols := by
  induction text generalizing w y x with
  | nil => exact ⟨rfl, rfl⟩
  | cons c text ih =>
      rw [addStr]
      split
      · exact ih (w.put y x c) y (x + 1)
      split
      · exact ih (w.put y x c) (y + 1) 0
      · exact ⟨rfl, rfl⟩

/-- A text that ends before the right margin leaves the other cells alone. -/
theorem cell_addStr (h : x + text.length ≤ w.cols) {i j : Nat}
    (hout : i ≠ y ∨ j < x ∨ x + text.length ≤ j) : (w.addStr y x text).cell i j = w.cell i j := by
  induction text generalizing w x with
  | nil => rfl
  | cons c text ih =>
      rw [List.length_cons] at h hout
      have hput : (w.put y x c).cell i j = w.cell i j := if_neg (by omega)
      rw [addStr]
      split
      · rw [ih (by rw [cols_put]; omega) (by omega), hput]
      · obtain rfl : text = [] := List.eq_nil_of_length_eq_zero (by omega)
        split <;> exact hput

theorem textAt_addStr (h : x + text.length ≤ w.cols) :
    (w.addStr y x text).textAt y x text.length = text := by
  induction text generalizing w x with
  | nil => rfl
  | cons c text ih =>
      rw [List.length_cons] at h ⊢
      have hput : (w.put y x c).cell y x = c := if_pos ⟨rfl, rfl⟩
      rw [textAt_succ, addStr]
      split
      · have hfit : x + 1 + text.length ≤ (w.put y x c).cols := by
          rw [cols_put]
          omega
        rw [cell_addStr hfit (Or.inr (Or.inl (by omega))), hput, ih hfit]
      · obtain rfl : text = [] := List.eq_nil_of_length_eq_zero (by omega)
        split
        · rw [addStr, hput]
          rfl
        · rw [hput]
          rfl

/-! ## Lines -/

/-- No line begins above the window, and each ends before the right margin. -/
def Fits (w : Window) (x : Nat) (lines : List (Int × List UInt8)) : Prop :=
  ∀ l ∈ lines, 0 ≤ l.1 ∧ x + l.2.length ≤ w.cols

theorem addLines_cons (w : Window) (x : Nat) (l : Int × List UInt8)
    (lines : List (Int × List UInt8)) :
    w.addLines x (l :: lines) = (w.mvAddStr l.1 x l.2).addLines x lines := rfl

theorem size_mvAddStr (w : Window) (y x : Int) (text : List UInt8) :
    (w.mvAddStr y x text).rows = w.rows ∧ (w.mvAddStr y x text).cols = w.cols := by
  rw [mvAddStr]
  split
  · exact size_addStr w y.toNat x.toNat text
  · exact ⟨rfl, rfl⟩

theorem Fits.tail {l : Int × List UInt8} (h : w.Fits x (l :: lines)) :
    (w.mvAddStr l.1 x l.2).Fits x lines := by
  intro k hk
  rw [(size_mvAddStr w l.1 x l.2).2]
  exact h k (List.mem_cons_of_mem l hk)

/-- The cells of no line keep what they showed. -/
theorem cell_addLines (h : w.Fits x lines) {i j : Nat}
    (hout : ∀ l ∈ lines, (i : Int) ≠ l.1 ∨ w.rows ≤ i ∨ j < x ∨ x + l.2.length ≤ j) :
    (w.addLines x lines).cell i j = w.cell i j := by
  induction lines generalizing w with
  | nil => rfl
  | cons l lines ih =>
      obtain ⟨hrow, hcol⟩ := h l List.mem_cons_self
      have hl := hout l List.mem_cons_self
      have hrest : ∀ k ∈ lines, (i : Int) ≠ k.1 ∨ (w.mvAddStr l.1 x l.2).rows ≤ i ∨ j < x ∨
          x + k.2.length ≤ j := by
        rw [(size_mvAddStr w l.1 x l.2).1]
        exact fun k hk => hout k (List.mem_cons_of_mem l hk)
      rw [addLines_cons, ih h.tail hrest, mvAddStr]
      split
      · exact cell_addStr hcol (by omega)
      · rfl

/-- Of lines in different rows those in the window are shown. -/
theorem textAt_addLines (h : w.Fits x lines) (hrows : lines.Pairwise fun k l => k.1 ≠ l.1)
    {l : Int × List UInt8} (hl : l ∈ lines) (hin : l.1 < w.rows) :
    (w.addLines x lines).textAt l.1.toNat x l.2.length = l.2 := by
  induction lines generalizing w with
  | nil => cases hl
  | cons k lines ih =>
      obtain ⟨hk, hrest⟩ := List.pairwise_cons.mp hrows
      rw [addLines_cons]
      rcases List.mem_cons.mp hl with rfl | hl
      · obtain ⟨hrow, hcol⟩ := h l List.mem_cons_self
        -- the lines after it are in other rows
        have hkeep : ∀ j, x ≤ j → j < x + l.2.length →
            ((w.mvAddStr l.1 x l.2).addLines x lines).cell l.1.toNat j =
              (w.mvAddStr l.1 x l.2).cell l.1.toNat j := by
          intro j _ _
          refine cell_addLines h.tail fun m hm => Or.inl ?_
          rw [Int.toNat_of_nonneg hrow]
          exact hk m hm
        rw [textAt_congr hkeep, mvAddStr]
        split
        · exact textAt_addStr hcol
        · have hnil : l.2 = [] := List.eq_nil_of_length_eq_zero (by omega)
          rw [hnil]
          rfl
      · exact ih h.tail hrest hl (by rwa [(size_mvAddStr w k.1 x k.2).1])

end Window

end EbpfTools.Lib
