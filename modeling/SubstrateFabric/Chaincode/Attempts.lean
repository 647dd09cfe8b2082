import SubstrateFabric.Chaincode.Faults
import SubstrateFabric.Lib.Runs

/-!
# Attempts

Clients make requests one after the other, and the stub may fail at any of its calls in any of them.
`Request.run_faulty` is about one such attempt.  Here they are taken together: the attempts that
returned an error might as well not have been made, and the others might as well have met no failure
(`attempts_eq_successes`).  So a client may repeat a request until it succeeds.
-/

namespace Chaincode

open Interaction EncodingJson Runs

variable (json : Codec Asset)

/-- The execution of a request on a world state. -/
def Request.exec (q : Request) (w : WorldState) : Result × WorldState :=
  ((run stub (q.prog json) w).value, (run stub (q.prog json) w).state)

/-- A request, and which of the stub calls it makes are to fail, with which errors. -/
structure Attempt where
  request : Request
  faults : ℕ → Option GoString

/-- The execution of a request on a world state behind a failing stub. -/
def Attempt.exec (a : Attempt) (w : WorldState) : Result × WorldState :=
  ((run (stub.faulty a.faults) (a.request.prog json) (w, 0)).value,
    (run (stub.faulty a.faults) (a.request.prog json) (w, 0)).state.1)

/-- An attempt that returns an error leaves the world state as it was. -/
theorem Attempt.exec_of_error {a : Attempt} {w : WorldState} (h : (a.exec json w).1.2 ≠ none) :
    (a.exec json w).2 = w :=
  run_state_of_error json a.faults a.request (w, 0) h

/-- An attempt that returns no error has met no failure. -/
theorem Attempt.exec_of_ok {a : Attempt} {w : WorldState} (h : (a.exec json w).1.2 = none) :
    a.exec json w = a.request.exec json w := by
  have hok : ∀ x ∈ (run (stub.faulty a.faults) (a.request.prog json) (w, 0)).log,
      ∀ err, x.2 ≠ .error err := by
    intro x hx err herr
    exact Request.error_of_failed json (path_run _ _ _) hx ⟨err, herr⟩ h
  obtain ⟨hvalue, hstate⟩ := run_faulty_of_ok stub _ hok
  exact Prod.ext hvalue hstate

/-- The attempts of a run that succeeded, with their results. -/
def successes (attempts : List Attempt) (w : WorldState) : List (Request × Result) :=
  ((attempts.map Attempt.request).zip (runAll (Attempt.exec json) w attempts).1).filter
    fun x => x.2.2 = none

theorem successes_cons (a : Attempt) (attempts : List Attempt) (w : WorldState) :
    successes json (a :: attempts) w =
      [(a.request, (a.exec json w).1)].filter (fun x => x.2.2 = none) ++
        successes json attempts (a.exec json w).2 := by
  simp only [successes, List.map_cons, runAll_cons, List.zip_cons_cons]
  rw [← List.filter_append]
  rfl

/-- **Failed attempts leave no trace, and the others meet no failure.**  Over any world state, also
one holding values the contract never wrote, and under any failures of the stub, any requests made
one after the other come to this: those that succeeded were executed, one after the other and
without failures, with the results they returned and up to the world state reached, and the others
were not made at all. -/
theorem attempts_eq_successes (attempts : List Attempt) (w : WorldState) :
    let done := successes json attempts w
    runAll (Request.exec json) w (done.map Prod.fst) =
      (done.map Prod.snd, (runAll (Attempt.exec json) w attempts).2) := by
  induction attempts generalizing w with
  | nil => rfl
  | cons a attempts ih =>
    have ih' := ih (a.exec json w).2
    rw [successes_cons, runAll_cons]
    by_cases hok : (a.exec json w).1.2 = none
    · have hexec := Attempt.exec_of_ok json hok
      simp only [hok, List.filter_cons, decide_true, if_true, List.filter_nil, List.cons_append,
        List.nil_append, List.map_cons, runAll_cons, ← hexec, ih']
    · have hstate := Attempt.exec_of_error json hok
      rw [hstate] at ih' ⊢
      simp only [hok, List.filter_cons, decide_false, List.filter_nil, List.nil_append, ih',
        Bool.false_eq_true, if_false]

end Chaincode
