import Mathlib.Init

/-!
# Runs of a transition system

A system moves from state to state by actions. Runs are taken under a condition on the actions: a
statement about the runs of a system says in its condition what it assumes of every step.

## Main definitions

* `Runs.Reach step ok start c`: a run from `start`, all of whose actions meet `ok` in the state in
  which they are taken, leads to `c`.

## Main results

* `Runs.Reach.invariant`: what holds at the start and is kept by every step holds in every state.
* `Runs.Reach.simulate`: where every step is a step of another system, a run is a run of it.
-/

set_option autoImplicit false

namespace Runs

variable {σ ι τ κ : Type}

/-- A run from `start` leads to a state; `ok` is the condition on the actions of the run. -/
inductive Reach (step : σ → ι → σ → Prop) (ok : σ → ι → Prop) (start : σ) : σ → Prop
  /-- The empty run. -/
  | start : Reach step ok start start
  /-- One more action. -/
  | step {c c' : σ} {op : ι} (h : Reach step ok start c) (hok : ok c op) (hs : step c op c') :
      Reach step ok start c'

namespace Reach

variable {step : σ → ι → σ → Prop} {ok ok' : σ → ι → Prop} {start c : σ}

/-- What holds at the start and is kept by every step holds in every state. -/
theorem invariant {I : σ → Prop} (hstart : I start)
    (hstep : ∀ c op c', I c → ok c op → step c op c' → I c') (h : Reach step ok start c) : I c := by
  induction h with
  | start => exact hstart
  | step _ hok hs ih => exact hstep _ _ _ ih hok hs

/-- A weaker condition allows more runs. -/
theorem mono (hle : ∀ c op, ok c op → ok' c op) (h : Reach step ok start c) :
    Reach step ok' start c := by
  induction h with
  | start => exact .start
  | step _ hok hs ih => exact .step ih (hle _ _ hok) hs

/-- Where an invariant holds and every step is a step of another system, seen through `f`, a run is
a run of that system. -/
theorem simulate {S : τ → κ → τ → Prop} {P : τ → κ → Prop} {f : σ → τ} {I : σ → Prop}
    (hstart : I start)
    (hstep : ∀ c op c', I c → ok c op → step c op c' →
      I c' ∧ ∃ e, P (f c) e ∧ S (f c) e (f c'))
    (h : Reach step ok start c) : I c ∧ Reach S P (f start) (f c) := by
  induction h with
  | start => exact ⟨hstart, .start⟩
  | step _ hok hs ih =>
    obtain ⟨hc', e, hp, hs'⟩ := hstep _ _ _ ih.1 hok hs
    exact ⟨hc', .step ih.2 hp hs'⟩

end Reach

end Runs
