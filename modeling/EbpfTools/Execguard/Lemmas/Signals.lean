import Mathlib.Order.Lattice
import EbpfTools.Execguard.Print

/-!
# The two signals of a severity

The name of the binary and the number of its executions each call for a level of their own.
-/

namespace EbpfTools.Execguard
open EbpfTools.Lib

/-! ## The order of the levels -/

def Severity.rank : Severity → Nat
  | .info => 0
  | .warn => 1
  | .alert => 2

theorem Severity.rank_injective : Function.Injective Severity.rank := by
  intro a b h
  cases a <;> cases b <;> first | rfl | cases h

instance : LinearOrder Severity := LinearOrder.lift' Severity.rank Severity.rank_injective

theorem Severity.info_le (a : Severity) : .info ≤ a := Nat.zero_le a.rank

theorem Severity.le_alert (a : Severity) : a ≤ .alert := by
  cases a <;> decide

/-! ## The levels due to each signal -/

/-- The names that are an alert when another user than root executes them. -/
def alertNames : List (List UInt8) := ["su", "sh", "bash", "toybox", "busybox"].map ascii

def nameSeverity (name : List UInt8) (uid : UInt32) : Severity :=
  if isShellish name then if name ∈ alertNames ∧ uid ≠ 0 then .alert else .warn else .info

def countSeverity (count : UInt32) : Severity :=
  if count ≥ 20 then .alert else if count ≥ 12 then .warn else .info

/-- The name is judged first, and the count only if the name is none of the table. -/
theorem severityFor_eq (e : Event) :
    severityFor e =
      if isShellish (judgedName e) then nameSeverity (judgedName e) e.uid
      else countSeverity e.execCount := by
  unfold severityFor
  by_cases hs : isShellish (judgedName e)
  · simp only [if_pos hs, nameSeverity, alertNames]
    by_cases huid : e.uid = 0
    · simp [huid]
    · by_cases hsu : judgedName e = ascii "su"
      · simp [hsu, huid]
      · simp [hsu, huid]
  · simp only [if_neg hs]
    rfl

theorem countSeverity_mono {m n : UInt32} (h : m ≤ n) : countSeverity m ≤ countSeverity n := by
  unfold countSeverity
  by_cases h₁ : m ≥ 20
  · rw [if_pos h₁, if_pos (UInt32.le_trans h₁ h)]
  · rw [if_neg h₁]
    by_cases h₂ : m ≥ 12
    · rw [if_pos h₂, if_pos (UInt32.le_trans h₂ h)]
      split <;> decide
    · rw [if_neg h₂]
      exact Severity.info_le _

theorem countSeverity_le_warn {n : UInt32} (h : ¬ 20 ≤ n) : countSeverity n ≤ .warn := by
  rw [countSeverity, if_neg h]
  split <;> decide

theorem nameSeverity_of_not_shellish {name : List UInt8} (h : isShellish name = false)
    (uid : UInt32) : nameSeverity name uid = .info := by
  rw [nameSeverity, if_neg (by simp [h])]

theorem nameSeverity_of_shellish {name : List UInt8} (h : isShellish name = true)
    (uid : UInt32) :
    nameSeverity name uid = if name ∈ alertNames ∧ uid ≠ 0 then .alert else .warn := by
  rw [nameSeverity, if_pos h]

/-! ## Both together -/

/-- An event of another binary, which is not in the table. -/
def unnamed (e : Event) : Event := { e with binaryPath := .zero _, comm := .zero _ }

/-- The level of an event is at least that of its count, at least that of its name, goes up with
the count, and is not lower than with a name that is not in the table. -/
structure Combines (e : Event) : Prop where
  count : countSeverity e.execCount ≤ severityFor e
  name : nameSeverity (judgedName e) e.uid ≤ severityFor e
  mono : ∀ n, e.execCount ≤ n → severityFor e ≤ severityFor { e with execCount := n }
  recognised : ∀ e' : Event, isShellish (judgedName e') = false → e'.execCount = e.execCount →
    severityFor e' ≤ severityFor e

theorem severityFor_mono (e : Event) {n : UInt32} (h : e.execCount ≤ n) :
    severityFor e ≤ severityFor { e with execCount := n } := by
  have hname : judgedName { e with execCount := n } = judgedName e := rfl
  rw [severityFor_eq, severityFor_eq, hname]
  split
  · exact le_refl _
  · exact countSeverity_mono h

theorem severityFor_of_not_shellish {e : Event} (h : isShellish (judgedName e) = false) :
    severityFor e = countSeverity e.execCount := by
  rw [severityFor_eq, if_neg (by simp [h])]

/-- The level of the count is all that can be missed. -/
theorem combines_of_count_le {e : Event} (h : countSeverity e.execCount ≤ severityFor e) :
    Combines e where
  count := h
  name := by
    rw [severityFor_eq]
    cases hs : isShellish (judgedName e) with
    | true => exact le_refl _
    | false =>
        rw [nameSeverity_of_not_shellish hs]
        exact Severity.info_le _
  mono _ hn := severityFor_mono e hn
  recognised e' hname hcount := by
    rw [severityFor_of_not_shellish hname, hcount]
    exact h

end EbpfTools.Execguard
