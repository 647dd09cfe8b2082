import Mathlib.Tactic

/-!
# Programs that talk to an environment

A program is a tree of calls.  A call `c : C` is answered by a reply of type `R c`, and the rest of
the program may depend on the reply.  The program fixes nothing about the environment, so one
program can be run against a store, against a frozen snapshot of it, or against a store some of
whose calls fail.

* `Prog C R α`, a monad; `Path p log a` says that `p` makes the exchanges `log` and returns `a`
  under *some* replies.  `Asks Q` and `MustAsk Q` bound the calls of all paths from above and from
  below;
* `Env C R σ` and `run`: the run of a program against an environment with state `σ`, with the log
  of its exchanges.  Every run is a path (`path_run`), so what holds of all paths holds of all runs;
* `run_invariant`: an invariant kept by every exchange of the log is kept by the run;
* `Env.frozen` answers from one state throughout; a frozen run depends only on the replies it got
  (`run_frozen_congr`), and agrees with the real run of a program whose writes come last
  (`run_eq_frozen`);
* `Env.faulty` lets an adversary choose which calls fail.
-/

namespace Interaction

/-- A program returning `α` that makes calls `c : C`, each answered by a reply of type `R c`. -/
inductive Prog (C : Type) (R : C → Type) (α : Type)
  | ret (a : α)
  | ask (c : C) (k : R c → Prog C R α)

/-- A call together with the reply it got. -/
abbrev Exchange (C : Type) (R : C → Type) := (c : C) × R c

variable {C : Type} {R : C → Type} {α β σ : Type}

namespace Prog

/-- Run `p`, then continue with its value. -/
def bind : Prog C R α → (α → Prog C R β) → Prog C R β
  | ret a, f => f a
  | ask c k, f => ask c fun r => (k r).bind f

instance : Monad (Prog C R) where
  pure := ret
  bind := bind

@[simp] theorem pure_eq (a : α) : (pure a : Prog C R α) = ret a := rfl

@[simp] theorem ret_bind (a : α) (f : α → Prog C R β) : (ret a >>= f) = f a := rfl

@[simp] theorem ask_bind (c : C) (k : R c → Prog C R α) (f : α → Prog C R β) :
    (ask c k >>= f) = ask c fun r => k r >>= f := rfl

theorem ask_congr {c : C} {k k' : R c → Prog C R α} (h : ∀ r, k r = k' r) : ask c k = ask c k' :=
  congrArg (ask c) (funext h)

/-- Make one call and return its reply. -/
def call (c : C) : Prog C R (R c) := ask c ret

@[simp] theorem call_bind (c : C) (f : R c → Prog C R β) : (call c >>= f) = ask c f := rfl

/-- `p` makes exactly the exchanges `log` and returns `a`, under some replies. -/
def Path : Prog C R α → List (Exchange C R) → α → Prop
  | ret a, log, b => log = [] ∧ b = a
  | ask c k, log, b => ∃ r log', log = ⟨c, r⟩ :: log' ∧ Path (k r) log' b

@[simp] theorem path_ret (a b : α) (log : List (Exchange C R)) :
    Path (ret a) log b ↔ log = [] ∧ b = a := Iff.rfl

@[simp] theorem path_ask (c : C) (k : R c → Prog C R α) (log : List (Exchange C R)) (b : α) :
    Path (ask c k) log b ↔ ∃ r log', log = ⟨c, r⟩ :: log' ∧ Path (k r) log' b := Iff.rfl

theorem path_map {p : Prog C R α} {g : α → β} {log : List (Exchange C R)} {b : β} :
    Path (p >>= fun a => ret (g a)) log b ↔ ∃ a, Path p log a ∧ b = g a := by
  induction p generalizing log with
  | ret a =>
    constructor
    · rintro ⟨rfl, rfl⟩
      exact ⟨a, ⟨rfl, rfl⟩, rfl⟩
    · rintro ⟨a', ⟨rfl, rfl⟩, rfl⟩
      exact ⟨rfl, rfl⟩
  | ask c k ih =>
    simp only [ask_bind, path_ask, ih]
    constructor
    · rintro ⟨r, log', hlog, a, ha, hb⟩
      exact ⟨a, ⟨r, log', hlog, ha⟩, hb⟩
    · rintro ⟨a, ⟨r, log', hlog, ha⟩, hb⟩
      exact ⟨r, log', hlog, a, ha, hb⟩

/-- A path of `p` followed by `f` is a path of `p` and one of the rest. -/
theorem path_bind {p : Prog C R α} {f : α → Prog C R β} {log : List (Exchange C R)} {b : β} :
    Path (p >>= f) log b ↔
      ∃ log₁ log₂ a, log = log₁ ++ log₂ ∧ Path p log₁ a ∧ Path (f a) log₂ b := by
  induction p generalizing log with
  | ret a =>
    constructor
    · intro h
      exact ⟨[], log, a, rfl, ⟨rfl, rfl⟩, h⟩
    · rintro ⟨_, _, _, rfl, ⟨rfl, rfl⟩, h⟩
      exact h
  | ask c k ih =>
    simp only [ask_bind, path_ask, ih]
    constructor
    · rintro ⟨r, _, rfl, log₁, log₂, a, rfl, ha, hb⟩
      exact ⟨⟨c, r⟩ :: log₁, log₂, a, rfl, ⟨r, log₁, rfl, ha⟩, hb⟩
    · rintro ⟨_, log₂, a, rfl, ⟨r, log₁, rfl, ha⟩, hb⟩
      exact ⟨r, log₁ ++ log₂, rfl, log₁, log₂, a, rfl, ha, hb⟩

/-- Every call of the program is in `Q`. -/
def Asks (Q : C → Prop) : Prog C R α → Prop
  | ret _ => True
  | ask c k => Q c ∧ ∀ r, Asks Q (k r)

theorem Asks.call_bind {Q : C → Prop} {c : C} {f : R c → Prog C R α} (hc : Q c)
    (hf : ∀ r, (f r).Asks Q) : (call c >>= f).Asks Q := ⟨hc, hf⟩

theorem Asks.bind {Q : C → Prop} {p : Prog C R α} {f : α → Prog C R β} (hp : p.Asks Q)
    (hf : ∀ a, (f a).Asks Q) : (p >>= f).Asks Q := by
  induction p with
  | ret a => exact hf a
  | ask c k ih => exact ⟨hp.1, fun r => ih r (hp.2 r)⟩

theorem Asks.of_path {Q : C → Prop} {p : Prog C R α} (hp : p.Asks Q) {log : List (Exchange C R)}
    {a : α} (h : p.Path log a) : ∀ x ∈ log, Q x.1 := by
  induction p generalizing log with
  | ret b =>
    obtain ⟨rfl, -⟩ := h
    exact fun x hx => (nomatch hx)
  | ask c k ih =>
    obtain ⟨r, log', rfl, h⟩ := h
    exact List.forall_mem_cons.2 ⟨hp.1, ih r (hp.2 r) h⟩

/-- Every path of the program makes a call in `Q`. -/
def MustAsk (Q : C → Prop) : Prog C R α → Prop
  | ret _ => False
  | ask c k => Q c ∨ ∀ r, MustAsk Q (k r)

theorem MustAsk.of_call {Q : C → Prop} {c : C} {f : R c → Prog C R α} (hc : Q c) :
    (call c >>= f).MustAsk Q := .inl hc

theorem MustAsk.call_bind {Q : C → Prop} {c : C} {f : R c → Prog C R α}
    (hf : ∀ r, (f r).MustAsk Q) : (call c >>= f).MustAsk Q := .inr hf

theorem MustAsk.of_path {Q : C → Prop} {p : Prog C R α} (hp : p.MustAsk Q)
    {log : List (Exchange C R)} {a : α} (h : p.Path log a) : ∃ x ∈ log, Q x.1 := by
  induction p generalizing log with
  | ret b => exact hp.elim
  | ask c k ih =>
    obtain ⟨r, log', rfl, h⟩ := h
    rcases hp with hc | hk
    · exact ⟨_, List.mem_cons_self, hc⟩
    · obtain ⟨x, hx, hq⟩ := ih r (hk r) h
      exact ⟨x, List.mem_cons_of_mem _ hx, hq⟩

/-- A call in `W` is always the last call made. -/
def WritesLast (W : C → Prop) : Prog C R α → Prop
  | ret _ => True
  | ask c k => (W c → ∀ r, ∃ a, k r = ret a) ∧ ∀ r, WritesLast W (k r)

theorem WritesLast.map {W : C → Prop} {p : Prog C R α} (h : p.WritesLast W) (g : α → β) :
    (p >>= fun a => ret (g a)).WritesLast W := by
  induction p with
  | ret a => exact trivial
  | ask c k ih =>
    refine ⟨fun hc r => ?_, fun r => ih r (h.2 r)⟩
    obtain ⟨a, ha⟩ := h.1 hc r
    exact ⟨g a, congrArg (· >>= fun a => ret (g a)) ha⟩

end Prog

/-! ### Runs -/

/-- An environment with state `σ`: what it replies to a call, and the state the call leaves. -/
structure Env (C : Type) (R : C → Type) (σ : Type) where
  reply : σ → (c : C) → R c
  next : σ → C → σ

/-- What a run leaves: the value returned, the exchanges made in order, the final state. -/
structure Outcome (C : Type) (R : C → Type) (α σ : Type) where
  value : α
  log : List (Exchange C R)
  state : σ

/-- The run of a program from the state `s`. -/
def run (E : Env C R σ) : Prog C R α → σ → Outcome C R α σ
  | .ret a, s => ⟨a, [], s⟩
  | .ask c k, s =>
      let o := run E (k (E.reply s c)) (E.next s c)
      ⟨o.value, ⟨c, E.reply s c⟩ :: o.log, o.state⟩

section Run

variable (E : Env C R σ)

@[simp] theorem run_ret (a : α) (s : σ) : run E (.ret a : Prog C R α) s = ⟨a, [], s⟩ := rfl

theorem run_ask (c : C) (k : R c → Prog C R α) (s : σ) :
    run E (.ask c k) s =
      ⟨(run E (k (E.reply s c)) (E.next s c)).value,
        ⟨c, E.reply s c⟩ :: (run E (k (E.reply s c)) (E.next s c)).log,
        (run E (k (E.reply s c)) (E.next s c)).state⟩ := rfl

theorem run_map (p : Prog C R α) (g : α → β) (s : σ) :
    run E (p >>= fun a => .ret (g a)) s =
      ⟨g (run E p s).value, (run E p s).log, (run E p s).state⟩ := by
  induction p generalizing s with
  | ret a => rfl
  | ask c k ih => rw [Prog.ask_bind, run_ask, ih, run_ask]

/-- Every run is a path of the program. -/
theorem path_run (p : Prog C R α) (s : σ) : p.Path (run E p s).log (run E p s).value := by
  induction p generalizing s with
  | ret a => exact ⟨rfl, rfl⟩
  | ask c k ih => exact ⟨E.reply s c, _, rfl, ih _ _⟩

/-- An invariant that every exchange of the log keeps is kept by the run. -/
theorem run_invariant {P : σ → Prop} {Q : Exchange C R → Prop}
    (step : ∀ s c, P s → Q ⟨c, E.reply s c⟩ → P (E.next s c)) (p : Prog C R α) {s : σ} (hs : P s)
    (hlog : ∀ x ∈ (run E p s).log, Q x) : P (run E p s).state := by
  induction p generalizing s with
  | ret a => exact hs
  | ask c k ih =>
    rw [run_ask] at hlog ⊢
    have hc : Q ⟨c, E.reply s c⟩ := hlog _ List.mem_cons_self
    exact ih _ (step s c hs hc) fun x hx => hlog x (List.mem_cons_of_mem _ hx)

/-- The final state is the initial one moved along the calls of the log. -/
theorem run_state (p : Prog C R α) (s : σ) :
    (run E p s).state = (run E p s).log.foldl (fun s x => E.next s x.1) s := by
  induction p generalizing s with
  | ret a => rfl
  | ask c k ih => rw [run_ask, List.foldl_cons]; exact ih _ _

/-! ### Frozen environments -/

/-- The same replies, all taken from one state. -/
def Env.frozen : Env C R σ := { E with next := fun s _ => s }

/-- Every reply of a frozen run is the one its state gives. -/
theorem reply_of_mem_frozen (p : Prog C R α) {s : σ} {x : Exchange C R}
    (hx : x ∈ (run E.frozen p s).log) : x.2 = E.reply s x.1 := by
  induction p with
  | ret a => cases hx
  | ask c k ih =>
    rw [run_ask] at hx
    rcases List.mem_cons.1 hx with rfl | hx
    · rfl
    · exact ih _ hx

/-- A frozen run depends only on the replies it got. -/
theorem run_frozen_congr (p : Prog C R α) {s s' : σ}
    (h : ∀ x ∈ (run E.frozen p s).log, E.reply s' x.1 = x.2) :
    (run E.frozen p s').value = (run E.frozen p s).value ∧
      (run E.frozen p s').log = (run E.frozen p s).log := by
  induction p with
  | ret a => exact ⟨rfl, rfl⟩
  | ask c k ih =>
    rw [run_ask] at h
    have hc : E.frozen.reply s' c = E.frozen.reply s c := h _ List.mem_cons_self
    have ih' := ih (E.frozen.reply s c) fun x hx => h x (List.mem_cons_of_mem _ hx)
    simp only [run_ask, hc]
    exact ⟨ih'.1, by rw [show E.frozen.next s' c = s' from rfl, ih'.2]; rfl⟩

/-- A program whose writes come last gets from the real run the replies of the frozen one. -/
theorem run_eq_frozen {W : C → Prop} (hW : ∀ s c, ¬ W c → E.next s c = s) (p : Prog C R α)
    (hp : p.WritesLast W) (s : σ) :
    (run E p s).value = (run E.frozen p s).value ∧ (run E p s).log = (run E.frozen p s).log := by
  induction p with
  | ret a => exact ⟨rfl, rfl⟩
  | ask c k ih =>
    by_cases hc : W c
    · obtain ⟨a, ha⟩ := hp.1 hc (E.reply s c)
      have ha' : k (E.frozen.reply s c) = .ret a := ha
      rw [run_ask, run_ask, ha, ha']
      exact ⟨rfl, rfl⟩
    · obtain ⟨h1, h2⟩ := ih (E.reply s c) (hp.2 _)
      simp only [run_ask, hW s c hc]
      exact ⟨h1, congrArg _ h2⟩

end Run

/-! ### Faults -/

section Faults

variable {ε : Type} {V : C → Type} (E : Env C (fun c => Except ε (V c)) σ)

/-- The environment in which the `n`-th call fails, and changes nothing, whenever `faults n` gives
an error for it.  The state carries the number of calls made so far. -/
def Env.faulty (faults : ℕ → Option ε) : Env C (fun c => Except ε (V c)) (σ × ℕ) where
  reply s c := match faults s.2 with
    | some e => .error e
    | none => E.reply s.1 c
  next s c := match faults s.2 with
    | some _ => (s.1, s.2 + 1)
    | none => (E.next s.1 c, s.2 + 1)

variable {faults : ℕ → Option ε} {s : σ × ℕ}

theorem faulty_reply_of_some {e : ε} (h : faults s.2 = some e) (c : C) :
    (E.faulty faults).reply s c = .error e := by
  simp [Env.faulty, h]

theorem faulty_reply_of_none (h : faults s.2 = none) (c : C) :
    (E.faulty faults).reply s c = E.reply s.1 c := by
  simp [Env.faulty, h]

theorem faulty_next_of_some {e : ε} (h : faults s.2 = some e) (c : C) :
    (E.faulty faults).next s c = (s.1, s.2 + 1) := by
  simp [Env.faulty, h]

theorem faulty_next_of_none (h : faults s.2 = none) (c : C) :
    (E.faulty faults).next s c = (E.next s.1 c, s.2 + 1) := by
  simp [Env.faulty, h]

/-- A run in which no call failed is the run without faults. -/
theorem run_faulty_of_ok (p : Prog C (fun c => Except ε (V c)) α)
    (h : ∀ x ∈ (run (E.faulty faults) p s).log, ∀ e, x.2 ≠ .error e) :
    (run (E.faulty faults) p s).value = (run E p s.1).value ∧
      (run (E.faulty faults) p s).state.1 = (run E p s.1).state := by
  induction p generalizing s with
  | ret a => exact ⟨rfl, rfl⟩
  | ask c k ih =>
    rw [run_ask] at h
    obtain ⟨hc, hrest⟩ := List.forall_mem_cons.1 h
    have hf : faults s.2 = none := by
      cases hf : faults s.2 with
      | none => rfl
      | some e => exact absurd (faulty_reply_of_some E hf c) (hc e)
    rw [run_ask, run_ask]
    rw [faulty_reply_of_none E hf, faulty_next_of_none E hf] at hrest ⊢
    exact ih _ hrest

end Faults

end Interaction
