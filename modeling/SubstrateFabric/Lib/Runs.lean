import Mathlib.Tactic

/-!
# Runs of deterministic systems

A system takes inputs `ι` one at a time, answering each with an output `ρ` and moving its state.
`runAll` feeds it a list of inputs.

* `runAll_append`: a run is the run of its first part followed by the run of the rest;
* `runAll_invariant`: what every step keeps, every run keeps;
* `runAll_simulation`: if every step of two systems gives the same output and keeps a relation of
  their states, so does every run.
-/

namespace Runs

variable {ι ρ σ τ : Type}

/-- Feed the inputs to the system `f` from the state `s`: the outputs, and the final state. -/
def runAll (f : ι → σ → ρ × σ) (s : σ) : List ι → List ρ × σ
  | [] => ([], s)
  | i :: l => ((f i s).1 :: (runAll f (f i s).2 l).1, (runAll f (f i s).2 l).2)

section

variable (f : ι → σ → ρ × σ)

@[simp] theorem runAll_nil (s : σ) : runAll f s [] = ([], s) := rfl

theorem runAll_cons (s : σ) (i : ι) (l : List ι) :
    runAll f s (i :: l) = ((f i s).1 :: (runAll f (f i s).2 l).1, (runAll f (f i s).2 l).2) := rfl

theorem runAll_append (s : σ) (l l' : List ι) :
    runAll f s (l ++ l') =
      ((runAll f s l).1 ++ (runAll f (runAll f s l).2 l').1, (runAll f (runAll f s l).2 l').2) := by
  induction l generalizing s with
  | nil => rfl
  | cons i l ih => rw [List.cons_append, runAll_cons, ih, runAll_cons]; rfl

/-- A run gives one output for each input. -/
theorem runAll_length (s : σ) (l : List ι) : (runAll f s l).1.length = l.length := by
  induction l generalizing s with
  | nil => rfl
  | cons i l ih => rw [runAll_cons, List.length_cons, List.length_cons, ih]

/-- A run with one more input. -/
theorem runAll_concat (s : σ) (l : List ι) (i : ι) :
    runAll f s (l ++ [i]) = ((runAll f s l).1 ++ [(f i (runAll f s l).2).1],
      (f i (runAll f s l).2).2) :=
  runAll_append f s l [i]

/-- Every output of a run is that of some step. -/
theorem exists_of_mem_runAll {s : σ} {l : List ι} {r : ρ} (h : r ∈ (runAll f s l).1) :
    ∃ i s', (f i s').1 = r := by
  induction l generalizing s with
  | nil => cases h
  | cons i l ih =>
    rcases List.mem_cons.mp h with rfl | h
    · exact ⟨i, s, rfl⟩
    · exact ih h

/-- An invariant kept by every step on an allowed input is kept by every run on allowed inputs. -/
theorem runAll_invariant {P : σ → Prop} {Q : ι → Prop} (step : ∀ i s, Q i → P s → P (f i s).2)
    {l : List ι} (hl : ∀ i ∈ l, Q i) {s : σ} (hs : P s) : P (runAll f s l).2 := by
  induction l generalizing s with
  | nil => exact hs
  | cons i l ih =>
    exact ih (fun j hj => hl j (List.mem_cons_of_mem _ hj)) (step i s (hl i List.mem_cons_self) hs)

/-- **Simulation**: if on every allowed input two systems in related states give the same output and
stay related, then so do their runs on allowed inputs. -/
theorem runAll_simulation (g : ι → τ → ρ × τ) {R : σ → τ → Prop} {Q : ι → Prop}
    (step : ∀ i s t, Q i → R s t → (f i s).1 = (g i t).1 ∧ R (f i s).2 (g i t).2)
    {l : List ι} (hl : ∀ i ∈ l, Q i) {s : σ} {t : τ} (hst : R s t) :
    (runAll f s l).1 = (runAll g t l).1 ∧ R (runAll f s l).2 (runAll g t l).2 := by
  induction l generalizing s t with
  | nil => exact ⟨rfl, hst⟩
  | cons i l ih =>
    obtain ⟨hout, hst'⟩ := step i s t (hl i List.mem_cons_self) hst
    obtain ⟨hrest, hfinal⟩ := ih (fun j hj => hl j (List.mem_cons_of_mem _ hj)) hst'
    rw [runAll_cons, runAll_cons, hout, hrest]
    exact ⟨rfl, hfinal⟩

end

end Runs
