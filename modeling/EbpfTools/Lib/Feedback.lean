import Mathlib.Data.List.Basic

/-!
# Monitors that watch what they do

Inputs are queued and a reader prints them one at a time. What a printed line makes the system do is
input as well, so a monitor may have to suppress it.
-/

namespace EbpfTools.Lib

variable {ι ε l : Type}

structure Monitor (ε l : Type) where
  queue : List ε
  printed : List l

/-- An input from outside, or the reader is called. Printing a line causes the inputs `echo`. -/
inductive Act (ι : Type)
  | input (x : ι)
  | read (echo : List ι)

namespace Monitor

def init : Monitor ε l := ⟨[], []⟩

def step (submit : ι → Option ε) (print : ε → l) (m : Monitor ε l) : Act ι → Monitor ε l
  | .input x => { m with queue := m.queue ++ (submit x).toList }
  | .read echo =>
      match m.queue with
      | [] => m
      | e :: queue => ⟨queue ++ echo.filterMap submit, m.printed ++ [print e]⟩

def run (submit : ι → Option ε) (print : ε → l) (m : Monitor ε l) (acts : List (Act ι)) :
    Monitor ε l :=
  acts.foldl (step submit print) m

variable {submit : ι → Option ε} {print : ε → l} {m : Monitor ε l}

/-- What was printed and what will be, if nothing else happens. -/
def lines (print : ε → l) (m : Monitor ε l) : List l := m.printed ++ m.queue.map print

/-- The inputs of an action: a printed line causes its echo, and without one nothing happens. -/
def heard (m : Monitor ε l) : Act ι → List ι
  | .input x => [x]
  | .read echo => if m.queue.isEmpty then [] else echo

/-- All inputs of a run in the order in which they happen. -/
def history (submit : ι → Option ε) (print : ε → l) (m : Monitor ε l) : List (Act ι) → List ι
  | [] => []
  | act :: acts => heard m act ++ history submit print (m.step submit print act) acts

def reads : List (Act ι) → Nat
  | [] => 0
  | .input _ :: acts => reads acts
  | .read _ :: acts => reads acts + 1

theorem lines_step (act : Act ι) :
    lines print (m.step submit print act) =
      lines print m ++ ((heard m act).filterMap submit).map print := by
  cases act with
  | input x => cases hx : submit x <;> simp [step, heard, lines, hx]
  | read echo => cases hq : m.queue <;> simp [step, heard, lines, hq]

/-- Each input is printed once and in order, however the reader is scheduled. -/
theorem lines_run (acts : List (Act ι)) :
    lines print (m.run submit print acts) =
      lines print m ++ ((history submit print m acts).filterMap submit).map print := by
  induction acts generalizing m with
  | nil => simp [run, history]
  | cons act acts ih =>
      rw [run, List.foldl_cons, ← run, ih, lines_step, history, List.filterMap_append,
        List.map_append, List.append_assoc]

/-- Some input that printing causes is submitted. -/
def Echoes (submit : ι → Option ε) (acts : List (Act ι)) : Prop :=
  ∀ echo, .read echo ∈ acts → ∃ x ∈ echo, submit x ≠ none

theorem step_of_echoes {act : Act ι} (h : Echoes submit [act]) (hq : m.queue ≠ []) :
    (m.step submit print act).queue ≠ [] ∧
      (m.step submit print act).printed.length = m.printed.length + reads [act] := by
  cases act with
  | input x => exact ⟨fun hnil => hq (List.append_eq_nil_iff.mp hnil).1, rfl⟩
  | read echo =>
      obtain ⟨x, hx, hsubmit⟩ := h echo List.mem_cons_self
      obtain ⟨e, queue, hm⟩ := List.exists_cons_of_ne_nil hq
      rw [step, hm]
      refine ⟨fun hnil => ?_, List.length_append⟩
      exact hsubmit (List.filterMap_eq_nil_iff.mp (List.append_eq_nil_iff.mp hnil).2 x hx)

theorem reads_cons (act : Act ι) (acts : List (Act ι)) :
    reads (act :: acts) = reads [act] + reads acts := by
  cases act with
  | input x => simp [reads]
  | read echo => simp [reads, Nat.add_comm]

/-- A monitor that hears itself never comes to rest after its first event. -/
theorem run_of_echoes {acts : List (Act ι)} (h : Echoes submit acts) (hq : m.queue ≠ []) :
    (m.run submit print acts).queue ≠ [] ∧
      (m.run submit print acts).printed.length = m.printed.length + reads acts := by
  induction acts generalizing m with
  | nil => exact ⟨hq, rfl⟩
  | cons act acts ih =>
      have hfirst : Echoes submit [act] := fun echo he =>
        h echo (List.mem_cons.mpr (Or.inl (List.mem_singleton.mp he)))
      obtain ⟨hstep, hprinted⟩ := @step_of_echoes _ _ _ submit print m act hfirst hq
      obtain ⟨hrun, hlen⟩ := ih (fun echo he => h echo (List.mem_cons_of_mem _ he)) hstep
      refine ⟨hrun, ?_⟩
      rw [run, List.foldl_cons, ← run, hlen, hprinted, reads_cons act acts, Nat.add_assoc]

end Monitor

end EbpfTools.Lib
