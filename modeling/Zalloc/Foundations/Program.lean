import Mathlib.Data.Nat.Init
import Mathlib.Order.Lattice
import Mathlib.Logic.Relation

/-!
# Imperative programs with loops that may not end

A `Prog σ α` is an imperative program over a store `σ` that returns an `α`. It runs under a
bound on loop iterations, so that it is a total, executable function: within the bound an
execution either returns, aborts (a failed assertion, an invalid access), or is still running.
The structure carries the proof that a larger bound never changes an execution that has ended.

## Main definitions

* `Prog.Returns p s s' a`: started in `s`, the program `p` ends in `s'` and returns `a`.
* `Prog.Aborts p s s'`: started in `s`, the program `p` stops with an abort in `s'`.
* `Prog.loop body i`: run `body`, starting with the loop variables `i`, until it exits.
* `Prog.Iterates body x y`: finitely many full iterations of a loop lead from `x` to `y`.
* `Prog.Grows R p`: the store only moves along the preorder `R` while `p` runs.
* `Prog.Always P p s`: the store satisfies `P` at every moment while `p` runs from `s`.

## Main results

* `Prog.returns_unique`: a program returns in at most one way.
* `Prog.returns_bind_iff`, `Prog.returns_loop_iff`: the rules of sequencing and of one iteration.
* `Prog.Returns.bind`, `Prog.Returns.loop_next`, `Prog.Returns.loop_exit`: the same, to put a run
  together from its steps.
* `Prog.Iterates.returns_iff`: iterations that have been made can be dropped.
* `Prog.not_returns_loop`: a loop with an invariant that forces one more iteration never returns.
* `Prog.Grows.of_returns`: what has been recorded at any moment is still recorded at the end.
-/

set_option autoImplicit false

/-- What an execution of bounded length has come to. -/
inductive Exec (σ α : Type) where
  /-- The bound is used up; the store is what it was at that moment. -/
  | running (s : σ)
  /-- The program has been stopped, by a failed assertion or an invalid access. -/
  | abort (s : σ)
  /-- The program has returned. -/
  | ret (s : σ) (a : α)

namespace Exec

variable {σ α β : Type}

/-- The store at the end of the execution, however it came to its end. -/
def state : Exec σ α → σ
  | running s => s
  | abort s => s
  | ret s _ => s

/-- The execution has ended before its bound. -/
def Settled : Exec σ α → Prop
  | running _ => False
  | _ => True

/-- The result of an execution that has returned. -/
def value? : Exec σ α → Option α
  | ret _ a => some a
  | _ => none

/-- The execution has been stopped. -/
def isAbort : Exec σ α → Bool
  | abort _ => true
  | _ => false

/-- Continue an execution that has returned. -/
def bind (x : Exec σ α) (f : σ → α → Exec σ β) : Exec σ β :=
  match x with
  | running s => running s
  | abort s => abort s
  | ret s a => f s a

@[simp] theorem state_running (s : σ) : (running s : Exec σ α).state = s := rfl
@[simp] theorem state_abort (s : σ) : (abort s : Exec σ α).state = s := rfl
@[simp] theorem state_ret (s : σ) (a : α) : (ret s a).state = s := rfl
@[simp] theorem settled_running (s : σ) : ¬ (running s : Exec σ α).Settled := id
@[simp] theorem settled_abort (s : σ) : (abort s : Exec σ α).Settled := trivial
@[simp] theorem settled_ret (s : σ) (a : α) : (ret s a).Settled := trivial

end Exec

/-- An imperative program over the store `σ`, run under a bound on loop iterations. -/
structure Prog (σ α : Type) where
  /-- The execution from a store, with at most so many iterations of each loop. -/
  exec : ℕ → σ → Exec σ α
  /-- A larger bound does not change an execution that has ended. -/
  exec_succ : ∀ n s, (exec n s).Settled → exec (n + 1) s = exec n s

namespace Prog

variable {σ τ ι α β : Type}

/-! ## Executions and results -/

/-- Started in `s`, the program ends in `s'` and returns `a`. -/
def Returns (p : Prog σ α) (s s' : σ) (a : α) : Prop :=
  ∃ n, p.exec n s = .ret s' a

/-- Started in `s`, the program is stopped by an abort in `s'`. -/
def Aborts (p : Prog σ α) (s s' : σ) : Prop :=
  ∃ n, p.exec n s = .abort s'

/-- A program that has returned within some bound returns; this is how a run on a fixed input is
computed. -/
theorem returns_of_value? {p : Prog σ α} {n : ℕ} {s : σ} {a : α}
    (h : (p.exec n s).value? = some a) : p.Returns s (p.exec n s).state a := by
  cases hx : p.exec n s with
  | running s' => simp [hx, Exec.value?] at h
  | abort s' => simp [hx, Exec.value?] at h
  | ret s' b =>
    obtain rfl : b = a := by simpa [hx, Exec.value?] using h
    exact ⟨n, hx⟩

/-- A program that has been stopped within some bound aborts. -/
theorem aborts_of_isAbort {p : Prog σ α} {n : ℕ} {s : σ} (h : (p.exec n s).isAbort = true) :
    p.Aborts s (p.exec n s).state := by
  cases hx : p.exec n s with
  | running s' => simp [hx, Exec.isAbort] at h
  | abort s' => exact ⟨n, hx⟩
  | ret s' b => simp [hx, Exec.isAbort] at h

theorem exec_add (p : Prog σ α) {n : ℕ} {s : σ} (h : (p.exec n s).Settled) (k : ℕ) :
    p.exec (n + k) s = p.exec n s := by
  induction k with
  | zero => rfl
  | succ k ih => rw [← Nat.add_assoc, p.exec_succ _ _ (by rwa [ih]), ih]

theorem exec_of_le {p : Prog σ α} {n m : ℕ} {s : σ} {x : Exec σ α} (h : p.exec n s = x)
    (hx : x.Settled) (hle : n ≤ m) : p.exec m s = x := by
  obtain ⟨k, rfl⟩ := Nat.exists_eq_add_of_le hle
  rw [p.exec_add (h ▸ hx) k, h]

/-- Two executions that have ended have ended in the same way. -/
theorem exec_unique {p : Prog σ α} {n m : ℕ} {s : σ} {x y : Exec σ α} (hn : p.exec n s = x)
    (hm : p.exec m s = y) (hx : x.Settled) (hy : y.Settled) : x = y := by
  rw [← exec_of_le hn hx (Nat.le_max_left n m), exec_of_le hm hy (Nat.le_max_right n m)]

theorem returns_unique {p : Prog σ α} {s s₁ s₂ : σ} {a₁ a₂ : α} (h₁ : p.Returns s s₁ a₁)
    (h₂ : p.Returns s s₂ a₂) : s₁ = s₂ ∧ a₁ = a₂ := by
  obtain ⟨n, hn⟩ := h₁
  obtain ⟨m, hm⟩ := h₂
  simpa using exec_unique hn hm trivial trivial

theorem not_aborts_of_returns {p : Prog σ α} {s s₁ s₂ : σ} {a : α} (h : p.Returns s s₁ a) :
    ¬ p.Aborts s s₂ := by
  rintro ⟨m, hm⟩
  obtain ⟨n, hn⟩ := h
  cases exec_unique hn hm trivial trivial

/-! ## Sequencing -/

instance : Monad (Prog σ) where
  pure a := ⟨fun _ s => .ret s a, fun _ _ _ => rfl⟩
  bind p f := ⟨fun n s => (p.exec n s).bind fun s' a => (f a).exec n s', by
    intro n s h
    cases hp : p.exec n s with
    | running s' => simp [hp, Exec.bind] at h
    | abort s' => simp [p.exec_succ n s (by simp [hp]), hp, Exec.bind]
    | ret s' a =>
      simp only [hp, Exec.bind] at h
      simp [p.exec_succ n s (by simp [hp]), hp, Exec.bind, (f a).exec_succ n s' h]⟩

theorem exec_pure (n : ℕ) (s : σ) (a : α) : (pure a : Prog σ α).exec n s = .ret s a := rfl

theorem exec_bind (p : Prog σ α) (f : α → Prog σ β) (n : ℕ) (s : σ) :
    (p >>= f).exec n s = (p.exec n s).bind fun s' a => (f a).exec n s' := rfl

theorem bind_assoc {γ : Type} (p : Prog σ α) (f : α → Prog σ β) (g : β → Prog σ γ) :
    (p >>= f) >>= g = p >>= fun a => f a >>= g := by
  have hexec : ((p >>= f) >>= g).exec = (p >>= fun a => f a >>= g).exec := by
    ext n s
    rw [exec_bind, exec_bind, exec_bind]
    cases p.exec n s <;> rfl
  show Prog.mk _ _ = Prog.mk _ _
  congr

/-- Read the store. -/
def read (f : σ → α) : Prog σ α := ⟨fun _ s => .ret s (f s), fun _ _ _ => rfl⟩

/-- Change the store. -/
def modify (f : σ → σ) : Prog σ Unit := ⟨fun _ s => .ret (f s) (), fun _ _ _ => rfl⟩

/-- Stop the program unless `c` holds of the store. -/
def require (c : σ → Prop) [DecidablePred c] : Prog σ Unit :=
  ⟨fun _ s => if c s then .ret s () else .abort s, fun _ _ _ => rfl⟩

/-- Stop the program. -/
def abort : Prog σ α := ⟨fun _ s => .abort s, fun _ _ _ => rfl⟩

@[simp] theorem returns_pure_iff {s s' : σ} {a b : α} :
    (pure a : Prog σ α).Returns s s' b ↔ s' = s ∧ b = a := by
  simp [Returns, exec_pure, eq_comm]

@[simp] theorem returns_read_iff {f : σ → α} {s s' : σ} {a : α} :
    (read f).Returns s s' a ↔ s' = s ∧ a = f s := by
  simp [Returns, read, eq_comm]

@[simp] theorem returns_modify_iff {f : σ → σ} {s s' : σ} {u : Unit} :
    (modify f).Returns s s' u ↔ s' = f s := by
  simp [Returns, modify, eq_comm]

@[simp] theorem returns_require_iff {c : σ → Prop} [DecidablePred c] {s s' : σ} {u : Unit} :
    (require c).Returns s s' u ↔ c s ∧ s' = s := by
  by_cases h : c s <;> simp [Returns, require, h, eq_comm]

@[simp] theorem not_returns_abort {s s' : σ} {a : α} : ¬ (abort : Prog σ α).Returns s s' a := by
  simp [Returns, abort]

@[simp] theorem returns_bind_iff {p : Prog σ α} {f : α → Prog σ β} {s s' : σ} {b : β} :
    (p >>= f).Returns s s' b ↔ ∃ s₁ a, p.Returns s s₁ a ∧ (f a).Returns s₁ s' b := by
  constructor
  · rintro ⟨n, hn⟩
    rw [exec_bind] at hn
    cases hp : p.exec n s with
    | running s' => simp [hp, Exec.bind] at hn
    | abort s' => simp [hp, Exec.bind] at hn
    | ret s₁ a => exact ⟨s₁, a, ⟨n, hp⟩, n, by simpa [hp, Exec.bind] using hn⟩
  · rintro ⟨s₁, a, ⟨n, hn⟩, m, hm⟩
    -- the larger of the two bounds is enough for both parts
    refine ⟨max n m, ?_⟩
    rw [exec_bind, exec_of_le hn trivial (Nat.le_max_left n m)]
    exact exec_of_le hm trivial (Nat.le_max_right n m)

@[simp] theorem not_aborts_pure {s s' : σ} {a : α} : ¬ (pure a : Prog σ α).Aborts s s' := by
  simp [Aborts, exec_pure]

@[simp] theorem not_aborts_read {f : σ → α} {s s' : σ} : ¬ (read f).Aborts s s' := by
  simp [Aborts, read]

@[simp] theorem not_aborts_modify {f : σ → σ} {s s' : σ} : ¬ (modify f).Aborts s s' := by
  simp [Aborts, modify]

@[simp] theorem aborts_require_iff {c : σ → Prop} [DecidablePred c] {s s' : σ} :
    (require c).Aborts s s' ↔ ¬ c s ∧ s' = s := by
  by_cases h : c s <;> simp [Aborts, require, h, eq_comm]

@[simp] theorem aborts_abort_iff {s s' : σ} : (abort : Prog σ α).Aborts s s' ↔ s' = s := by
  simp [Aborts, abort, eq_comm]

@[simp] theorem aborts_bind_iff {p : Prog σ α} {f : α → Prog σ β} {s s' : σ} :
    (p >>= f).Aborts s s' ↔
      p.Aborts s s' ∨ ∃ s₁ a, p.Returns s s₁ a ∧ (f a).Aborts s₁ s' := by
  constructor
  · rintro ⟨n, hn⟩
    rw [exec_bind] at hn
    cases hp : p.exec n s with
    | running s' => simp [hp, Exec.bind] at hn
    | abort s₁ => exact .inl ⟨n, by simpa [hp, Exec.bind] using hn⟩
    | ret s₁ a => exact .inr ⟨s₁, a, ⟨n, hp⟩, n, by simpa [hp, Exec.bind] using hn⟩
  · rintro (⟨n, hn⟩ | ⟨s₁, a, ⟨n, hn⟩, m, hm⟩)
    · exact ⟨n, by rw [exec_bind, hn]; rfl⟩
    · refine ⟨max n m, ?_⟩
      rw [exec_bind, exec_of_le hn trivial (Nat.le_max_left n m)]
      exact exec_of_le hm trivial (Nat.le_max_right n m)

theorem returns_pure (a : α) (s : σ) : (pure a : Prog σ α).Returns s s a :=
  returns_pure_iff.2 ⟨rfl, rfl⟩

theorem returns_read (f : σ → α) (s : σ) : (read f).Returns s s (f s) :=
  returns_read_iff.2 ⟨rfl, rfl⟩

theorem returns_modify (f : σ → σ) (s : σ) : (modify f).Returns s (f s) () :=
  returns_modify_iff.2 rfl

theorem returns_require {c : σ → Prop} [DecidablePred c] {s : σ} (h : c s) :
    (require c).Returns s s () :=
  returns_require_iff.2 ⟨h, rfl⟩

/-- A program that returns is followed by the next one. -/
theorem Returns.bind {p : Prog σ α} {f : α → Prog σ β} {s s₁ s' : σ} {a : α} {b : β}
    (h : p.Returns s s₁ a) (hf : (f a).Returns s₁ s' b) : (p >>= f).Returns s s' b :=
  returns_bind_iff.2 ⟨s₁, a, h, hf⟩

/-- What follows a program that does not return is not run. -/
theorem state_bind_of_not_returns {p : Prog σ α} {f : α → Prog σ β} {s : σ}
    (h : ∀ s' a, ¬ p.Returns s s' a) (n : ℕ) :
    ((p >>= f).exec n s).state = (p.exec n s).state := by
  rw [exec_bind]
  cases hp : p.exec n s with
  | running s' => rfl
  | abort s' => rfl
  | ret s' a => exact absurd ⟨n, hp⟩ (h s' a)

/-! ## Loops -/

/-- At most `n` iterations of `body`, each of them under the bound `fuel`. -/
def loopExec (body : ι → Prog σ (ι ⊕ α)) (fuel : ℕ) : ℕ → ι → σ → Exec σ α
  | 0, _, s => .running s
  | n + 1, i, s => ((body i).exec fuel s).bind fun s' r =>
      match r with
      | .inl i' => loopExec body fuel n i' s'
      | .inr a => .ret s' a

theorem loopExec_succ_fuel (body : ι → Prog σ (ι ⊕ α)) (fuel n : ℕ) (i : ι) (s : σ)
    (h : (loopExec body fuel n i s).Settled) :
    loopExec body (fuel + 1) n i s = loopExec body fuel n i s := by
  induction n generalizing i s with
  | zero => simp [loopExec] at h
  | succ n ih =>
    simp only [loopExec] at h ⊢
    cases hb : (body i).exec fuel s with
    | running s' => simp [hb, Exec.bind] at h
    | abort s' => simp [(body i).exec_succ fuel s (by simp [hb]), hb, Exec.bind]
    | ret s' r =>
      rw [(body i).exec_succ fuel s (by simp [hb]), hb]
      simp only [hb, Exec.bind] at h ⊢
      cases r with
      | inl i' => exact ih i' s' h
      | inr a => rfl

theorem loopExec_succ_iter (body : ι → Prog σ (ι ⊕ α)) (fuel n : ℕ) (i : ι) (s : σ)
    (h : (loopExec body fuel n i s).Settled) :
    loopExec body fuel (n + 1) i s = loopExec body fuel n i s := by
  induction n generalizing i s with
  | zero => simp [loopExec] at h
  | succ n ih =>
    rw [loopExec] at h ⊢
    conv_rhs => rw [loopExec]
    cases hb : (body i).exec fuel s with
    | running s' => rfl
    | abort s' => rfl
    | ret s' r =>
      simp only [hb, Exec.bind] at h ⊢
      cases r with
      | inl i' => exact ih i' s' h
      | inr a => rfl

/-- Run `body` on the loop variables until it exits with a result. -/
def loop (body : ι → Prog σ (ι ⊕ α)) (i : ι) : Prog σ α :=
  ⟨fun n s => loopExec body n n i s, fun n s h => by
    have h' := loopExec_succ_iter body n n i s h
    rw [loopExec_succ_fuel body n (n + 1) i s (by rwa [h']), h']⟩

theorem loopExec_of_le {body : ι → Prog σ (ι ⊕ α)} {fuel fuel' n n' : ℕ} {i : ι} {s : σ}
    {x : Exec σ α} (h : loopExec body fuel n i s = x) (hx : x.Settled) (hf : fuel ≤ fuel')
    (hn : n ≤ n') : loopExec body fuel' n' i s = x := by
  -- first more iterations, then a larger bound for each of them
  have hiter : loopExec body fuel n' i s = x := by
    induction n', hn using Nat.le_induction with
    | base => exact h
    | succ m _ ih => rw [loopExec_succ_iter _ _ _ _ _ (ih ▸ hx), ih]
  induction fuel', hf using Nat.le_induction with
  | base => exact hiter
  | succ m _ ih => rw [loopExec_succ_fuel _ _ _ _ _ (ih ▸ hx), ih]

/-- The rule of one iteration. -/
theorem returns_loop_iff {body : ι → Prog σ (ι ⊕ α)} {i : ι} {s s' : σ} {a : α} :
    (loop body i).Returns s s' a ↔
      (∃ s₁ i', (body i).Returns s s₁ (.inl i') ∧ (loop body i').Returns s₁ s' a) ∨
        (body i).Returns s s' (.inr a) := by
  constructor
  · rintro ⟨n, hn⟩
    change loopExec body n n i s = _ at hn
    cases n with
    | zero => simp [loopExec] at hn
    | succ n =>
      rw [loopExec] at hn
      cases hb : (body i).exec (n + 1) s with
      | running s' => simp [hb, Exec.bind] at hn
      | abort s' => simp [hb, Exec.bind] at hn
      | ret s₁ r =>
        simp only [hb, Exec.bind] at hn
        cases r with
        | inl i' =>
          refine .inl ⟨s₁, i', ⟨n + 1, hb⟩, n + 1, ?_⟩
          -- the remaining iterations end within the whole bound
          exact loopExec_of_le hn trivial le_rfl (Nat.le_succ n)
        | inr b =>
          cases hn
          exact .inr ⟨n + 1, hb⟩
  · rintro (⟨s₁, i', ⟨n, hn⟩, m, hm⟩ | ⟨n, hn⟩)
    · change loopExec body m m i' s₁ = _ at hm
      refine ⟨max n m + 1, ?_⟩
      change loopExec body (max n m + 1) (max n m + 1) i s = _
      rw [loopExec, exec_of_le hn trivial (by omega)]
      exact loopExec_of_le hm trivial (by omega) (by omega)
    · refine ⟨n + 1, ?_⟩
      change loopExec body (n + 1) (n + 1) i s = _
      rw [loopExec, exec_of_le hn trivial (Nat.le_succ n)]
      rfl

/-- A loop exits. -/
theorem Returns.loop_exit {body : ι → Prog σ (ι ⊕ α)} {i : ι} {s s' : σ} {a : α}
    (h : (body i).Returns s s' (.inr a)) : (loop body i).Returns s s' a :=
  returns_loop_iff.2 (.inr h)

/-- A loop makes one iteration more. -/
theorem Returns.loop_next {body : ι → Prog σ (ι ⊕ α)} {i i' : ι} {s s₁ s' : σ} {a : α}
    (h : (body i).Returns s s₁ (.inl i')) (hl : (loop body i').Returns s₁ s' a) :
    (loop body i).Returns s s' a :=
  returns_loop_iff.2 (.inl ⟨s₁, i', h, hl⟩)

/-- What a loop returns is what its last iteration exits with. -/
theorem Returns.exists_exit {body : ι → Prog σ (ι ⊕ α)} {i : ι} {s s' : σ} {a : α}
    (h : (loop body i).Returns s s' a) : ∃ s₁ i₁, (body i₁).Returns s₁ s' (.inr a) := by
  obtain ⟨n, hn⟩ := h
  have key : ∀ m i s, loopExec body n m i s = .ret s' a →
      ∃ s₁ i₁, (body i₁).Returns s₁ s' (.inr a) := by
    intro m
    induction m with
    | zero => intro i s hno; simp [loopExec] at hno
    | succ m ih =>
      intro i s hret
      rw [loopExec] at hret
      cases hb : (body i).exec n s with
      | running s₁ => simp [hb, Exec.bind] at hret
      | abort s₁ => simp [hb, Exec.bind] at hret
      | ret s₁ r =>
        simp only [hb, Exec.bind] at hret
        cases r with
        | inl i' => exact ih i' s₁ hret
        | inr b =>
          cases hret
          exact ⟨s, i, n, hb⟩
  exact key n i s hn

/-- The abort rule of one iteration. -/
theorem aborts_loop_iff {body : ι → Prog σ (ι ⊕ α)} {i : ι} {s s' : σ} :
    (loop body i).Aborts s s' ↔
      (∃ s₁ i', (body i).Returns s s₁ (.inl i') ∧ (loop body i').Aborts s₁ s') ∨
        (body i).Aborts s s' := by
  constructor
  · rintro ⟨n, hn⟩
    change loopExec body n n i s = _ at hn
    cases n with
    | zero => simp [loopExec] at hn
    | succ n =>
      rw [loopExec] at hn
      cases hb : (body i).exec (n + 1) s with
      | running s' => simp [hb, Exec.bind] at hn
      | abort s₁ =>
        simp only [hb, Exec.bind] at hn
        cases hn
        exact .inr ⟨n + 1, hb⟩
      | ret s₁ r =>
        simp only [hb, Exec.bind] at hn
        cases r with
        | inl i' =>
          refine .inl ⟨s₁, i', ⟨n + 1, hb⟩, n + 1, ?_⟩
          exact loopExec_of_le hn trivial le_rfl (Nat.le_succ n)
        | inr b => cases hn
  · rintro (⟨s₁, i', ⟨n, hn⟩, m, hm⟩ | ⟨n, hn⟩)
    · change loopExec body m m i' s₁ = _ at hm
      refine ⟨max n m + 1, ?_⟩
      change loopExec body (max n m + 1) (max n m + 1) i s = _
      rw [loopExec, exec_of_le hn trivial (by omega)]
      exact loopExec_of_le hm trivial (by omega) (by omega)
    · refine ⟨n + 1, ?_⟩
      change loopExec body (n + 1) (n + 1) i s = _
      rw [loopExec, exec_of_le hn trivial (Nat.le_succ n)]
      rfl

/-- Finitely many full iterations lead from one store and loop variable to another. -/
def Iterates (body : ι → Prog σ (ι ⊕ α)) : σ × ι → σ × ι → Prop :=
  Relation.ReflTransGen fun x y => (body x.2).Returns x.1 y.1 (.inl y.2)

namespace Iterates

variable {body : ι → Prog σ (ι ⊕ α)} {x y z : σ × ι}

theorem refl (x : σ × ι) : Iterates body x x := Relation.ReflTransGen.refl

theorem trans (h₁ : Iterates body x y) (h₂ : Iterates body y z) : Iterates body x z :=
  Relation.ReflTransGen.trans h₁ h₂

theorem single {s s' : σ} {i i' : ι} (h : (body i).Returns s s' (.inl i')) :
    Iterates body (s, i) (s', i') :=
  Relation.ReflTransGen.single h

theorem head {s s' : σ} {i i' : ι} (h : (body i).Returns s s' (.inl i'))
    (hs : Iterates body (s', i') z) : Iterates body (s, i) z :=
  Relation.ReflTransGen.head h hs

theorem tail {s s' : σ} {i i' : ι} (hs : Iterates body x (s, i))
    (h : (body i).Returns s s' (.inl i')) : Iterates body x (s', i') :=
  Relation.ReflTransGen.tail hs h

/-- Iterations that have been made can be dropped. -/
theorem returns_iff (h : Iterates body x y) {s' : σ} {a : α} :
    (loop body x.2).Returns x.1 s' a ↔ (loop body y.2).Returns y.1 s' a := by
  induction h with
  | refl => rfl
  | @tail y z _ hstep ih =>
    rw [ih, returns_loop_iff]
    constructor
    · rintro (⟨s₁, i', hb, hl⟩ | hb)
      · -- the iteration that the loop makes is the one that has been made
        obtain ⟨rfl, hi⟩ := returns_unique hb hstep
        cases hi
        exact hl
      · cases (returns_unique hb hstep).2
    · exact fun hl => .inl ⟨z.1, z.2, hstep, hl⟩

/-- A loop that exits after some iterations returns what it exits with. -/
theorem returns (h : Iterates body x y) {s' : σ} {a : α}
    (hb : (body y.2).Returns y.1 s' (.inr a)) : (loop body x.2).Returns x.1 s' a :=
  h.returns_iff.2 (returns_loop_iff.2 (.inr hb))

end Iterates

/-- A loop never returns when an invariant forces one more iteration. -/
theorem not_returns_loop {body : ι → Prog σ (ι ⊕ α)} (I : σ → ι → Prop)
    (hstep : ∀ s i, I s i → ∃ s' i', (body i).Returns s s' (.inl i') ∧ I s' i')
    {i : ι} {s : σ} (h : I s i) {s' : σ} {a : α} : ¬ (loop body i).Returns s s' a := by
  rintro ⟨n, hn⟩
  -- an execution that returns under a bound of `m` iterations has an iteration to spare
  have key : ∀ m i s, I s i → ∀ fuel, loopExec body fuel m i s ≠ .ret s' a := by
    intro m
    induction m with
    | zero => intro i s _ fuel; simp [loopExec]
    | succ m ih =>
      intro i s hI fuel
      obtain ⟨s₁, i₁, ⟨k, hk⟩, hI₁⟩ := hstep s i hI
      rw [loopExec]
      cases hb : (body i).exec fuel s with
      | running s₂ => simp [Exec.bind]
      | abort s₂ => simp [Exec.bind]
      | ret s₂ r =>
        cases exec_unique hb hk trivial trivial
        simpa [Exec.bind] using ih i₁ s₁ hI₁ fuel
  exact key n i s h n hn

/-- A loop does not abort when its body does not. -/
theorem not_aborts_loop {body : ι → Prog σ (ι ⊕ α)} (h : ∀ i s s', ¬ (body i).Aborts s s') {i : ι}
    {s s' : σ} : ¬ (loop body i).Aborts s s' := by
  rintro ⟨n, hn⟩
  have key : ∀ m i s, loopExec body n m i s ≠ .abort s' := by
    intro m
    induction m with
    | zero => intro i s; simp [loopExec]
    | succ m ih =>
      intro i s
      rw [loopExec]
      cases hb : (body i).exec n s with
      | running s₁ => simp [Exec.bind]
      | abort s₁ => exact absurd ⟨n, hb⟩ (h i s s₁)
      | ret s₁ r =>
        cases r with
        | inl i' => simpa [Exec.bind] using ih i' s₁
        | inr a => simp [Exec.bind]
  exact key n i s hn

/-! ## At every moment -/

/-- While `p` runs from `s`, the store satisfies `P` at every moment. -/
def Always (P : σ → Prop) (p : Prog σ α) (s : σ) : Prop := ∀ n, P (p.exec n s).state

theorem Always.bind {P : σ → Prop} {p : Prog σ α} {f : α → Prog σ β} {s : σ} (hp : p.Always P s)
    (hf : ∀ s₁ a, p.Returns s s₁ a → (f a).Always P s₁) : (p >>= f).Always P s := by
  intro n
  have hn := hp n
  rw [exec_bind]
  cases hx : p.exec n s with
  | running s₁ => rwa [hx] at hn
  | abort s₁ => rwa [hx] at hn
  | ret s₁ a => exact hf s₁ a ⟨n, hx⟩ n

/-! ## Programs over a part of the store -/

/-- Run a program on the part of the store that `get` reads and `set` writes. -/
def zoom (get : τ → σ) (set : σ → τ → τ) (p : Prog σ α) : Prog τ α :=
  ⟨fun n t => match p.exec n (get t) with
    | .running s => .running (set s t)
    | .abort s => .abort (set s t)
    | .ret s a => .ret (set s t) a, by
    intro n t h
    cases hp : p.exec n (get t) with
    | running s => simp [hp] at h
    | abort s => simp [p.exec_succ n (get t) (by simp [hp]), hp]
    | ret s a => simp [p.exec_succ n (get t) (by simp [hp]), hp]⟩

@[simp] theorem returns_zoom_iff {get : τ → σ} {set : σ → τ → τ} {p : Prog σ α} {t t' : τ}
    {a : α} :
    (p.zoom get set).Returns t t' a ↔ ∃ s', p.Returns (get t) s' a ∧ t' = set s' t := by
  constructor
  · rintro ⟨n, hn⟩
    cases hp : p.exec n (get t) with
    | running s => simp [zoom, hp] at hn
    | abort s => simp [zoom, hp] at hn
    | ret s b =>
      simp only [zoom, hp, Exec.ret.injEq] at hn
      obtain ⟨rfl, rfl⟩ := hn
      exact ⟨s, ⟨n, hp⟩, rfl⟩
  · rintro ⟨s', ⟨n, hn⟩, rfl⟩
    exact ⟨n, by simp [zoom, hn]⟩

/-! ## What an execution records -/

/-- While `p` runs, the store only moves along `R`, and a larger bound takes it further. -/
structure Grows (R : σ → σ → Prop) (p : Prog σ α) : Prop where
  /-- From the start to any moment. -/
  from_start : ∀ n s, R s (p.exec n s).state
  /-- From any moment to any later one. -/
  to_later : ∀ n s, R (p.exec n s).state (p.exec (n + 1) s).state

namespace Grows

variable {R : σ → σ → Prop}

theorem of_le [IsPreorder σ R] {p : Prog σ α} (h : p.Grows R) {n m : ℕ} (hle : n ≤ m) (s : σ) :
    R (p.exec n s).state (p.exec m s).state := by
  induction m, hle using Nat.le_induction with
  | base => exact refl_of R _
  | succ m _ ih => exact trans_of R ih (h.to_later m s)

/-- From the start to the end. -/
theorem returns {p : Prog σ α} (h : p.Grows R) {s s' : σ} {a : α} (hr : p.Returns s s' a) :
    R s s' := by
  obtain ⟨n, hn⟩ := hr
  have hend := h.from_start n s
  rwa [hn] at hend

/-- What has been recorded at any moment is still recorded at the end. -/
theorem of_returns [IsPreorder σ R] {p : Prog σ α} (h : p.Grows R) {s s' : σ} {a : α}
    (hr : p.Returns s s' a) (n : ℕ) : R (p.exec n s).state s' := by
  obtain ⟨m, hm⟩ := hr
  have hmax := h.of_le (Nat.le_max_left n m) s
  rwa [exec_of_le hm trivial (Nat.le_max_right n m)] at hmax

theorem of_aborts [IsPreorder σ R] {p : Prog σ α} (h : p.Grows R) {s s' : σ}
    (hr : p.Aborts s s') (n : ℕ) : R (p.exec n s).state s' := by
  obtain ⟨m, hm⟩ := hr
  have hmax := h.of_le (Nat.le_max_left n m) s
  rwa [exec_of_le hm trivial (Nat.le_max_right n m)] at hmax

theorem mono {R' : σ → σ → Prop} {p : Prog σ α} (h : p.Grows R) (hle : ∀ s s', R s s' → R' s s') :
    p.Grows R' :=
  ⟨fun n s => hle _ _ (h.from_start n s), fun n s => hle _ _ (h.to_later n s)⟩

theorem pure [IsPreorder σ R] (a : α) : (Pure.pure a : Prog σ α).Grows R :=
  ⟨fun _ s => refl_of R s, fun _ s => refl_of R s⟩

theorem read [IsPreorder σ R] (f : σ → α) : (Prog.read f).Grows R :=
  ⟨fun _ s => refl_of R s, fun _ s => refl_of R s⟩

theorem modify [IsPreorder σ R] {f : σ → σ} (h : ∀ s, R s (f s)) : (Prog.modify f).Grows R :=
  ⟨fun _ s => h s, fun _ s => refl_of R (f s)⟩

theorem require [IsPreorder σ R] (c : σ → Prop) [DecidablePred c] : (Prog.require c).Grows R := by
  constructor <;> intro n s <;> by_cases h : c s <;> simp [Prog.require, h, refl_of R s]

theorem abort [IsPreorder σ R] : (Prog.abort : Prog σ α).Grows R :=
  ⟨fun _ s => refl_of R s, fun _ s => refl_of R s⟩

/-- The second program matters for the values only that the first one returns. -/
theorem bind_of_returns [IsPreorder σ R] {p : Prog σ α} {f : α → Prog σ β} (hp : p.Grows R)
    (hf : ∀ s s' a, p.Returns s s' a → (f a).Grows R) : (p >>= f).Grows R := by
  constructor <;> intro n s <;> rw [exec_bind]
  · have h := hp.from_start n s
    cases hx : p.exec n s with
    | running s' => simpa [hx, Exec.bind] using h
    | abort s' => simpa [hx, Exec.bind] using h
    | ret s' a =>
      rw [hx] at h
      exact trans_of R h ((hf s s' a ⟨n, hx⟩).from_start n s')
  · rw [exec_bind]
    cases hx : p.exec n s with
    | running s' =>
      have h := hp.to_later n s
      rw [hx] at h
      cases hy : p.exec (n + 1) s with
      | running s'' => simpa [hy, Exec.bind] using h
      | abort s'' => simpa [hy, Exec.bind] using h
      | ret s'' a =>
        rw [hy] at h
        exact trans_of R h ((hf s s'' a ⟨n + 1, hy⟩).from_start (n + 1) s'')
    | abort s' =>
      simpa [p.exec_succ n s (by simp [hx]), hx, Exec.bind] using refl_of R s'
    | ret s' a =>
      simpa [p.exec_succ n s (by simp [hx]), hx, Exec.bind] using (hf s s' a ⟨n, hx⟩).to_later n s'

theorem bind [IsPreorder σ R] {p : Prog σ α} {f : α → Prog σ β} (hp : p.Grows R)
    (hf : ∀ a, (f a).Grows R) : (p >>= f).Grows R :=
  hp.bind_of_returns fun _ _ a _ => hf a

theorem loop [IsPreorder σ R] {body : ι → Prog σ (ι ⊕ α)} (h : ∀ i, (body i).Grows R) (i : ι) :
    (Prog.loop body i).Grows R := by
  have hstart : ∀ fuel n i s, R s (loopExec body fuel n i s).state := by
    intro fuel n
    induction n with
    | zero => intro i s; exact refl_of R s
    | succ n ih =>
      intro i s
      have hb := (h i).from_start fuel s
      rw [loopExec]
      cases hx : (body i).exec fuel s with
      | running s' => simpa [hx, Exec.bind] using hb
      | abort s' => simpa [hx, Exec.bind] using hb
      | ret s' r =>
        rw [hx] at hb
        cases r with
        | inl i' => exact trans_of R hb (ih i' s')
        | inr a => exact hb
  -- one more iteration, and each of them under a larger bound
  have hlater : ∀ fuel n i s,
      R (loopExec body fuel n i s).state (loopExec body (fuel + 1) (n + 1) i s).state := by
    intro fuel n
    induction n with
    | zero => intro i s; exact hstart (fuel + 1) 1 i s
    | succ n ih =>
      intro i s
      rw [loopExec, loopExec]
      cases hx : (body i).exec fuel s with
      | running s' =>
        have hb := (h i).to_later fuel s
        rw [hx] at hb
        cases hy : (body i).exec (fuel + 1) s with
        | running s'' => simpa [hy, Exec.bind] using hb
        | abort s'' => simpa [hy, Exec.bind] using hb
        | ret s'' r =>
          rw [hy] at hb
          cases r with
          | inl i' => exact trans_of R hb (hstart _ _ i' s'')
          | inr a => exact hb
      | abort s' =>
        simpa [(body i).exec_succ fuel s (by simp [hx]), hx, Exec.bind] using refl_of R s'
      | ret s' r =>
        rw [(body i).exec_succ fuel s (by simp [hx]), hx]
        cases r with
        | inl i' => exact ih i' s'
        | inr a => exact refl_of R s'
  exact ⟨fun n s => hstart n n i s, fun n s => hlater n n i s⟩

/-- At any moment of a loop that an invariant keeps going, there is a later one at which an
iteration starts. -/
theorem of_invariant [IsPreorder σ R] {body : ι → Prog σ (ι ⊕ α)} (h : ∀ i, (body i).Grows R)
    (I : σ → ι → Prop)
    (hstep : ∀ s i, I s i → ∃ s' i', (body i).Returns s s' (.inl i') ∧ I s' i')
    {i : ι} {s : σ} (hI : I s i) (n : ℕ) :
    ∃ s' i', I s' i' ∧ R ((Prog.loop body i).exec n s).state s' := by
  have key : ∀ m i s, I s i → ∃ s' i', I s' i' ∧ R (loopExec body n m i s).state s' := by
    intro m
    induction m with
    | zero => exact fun i s hI => ⟨s, i, hI, refl_of R s⟩
    | succ m ih =>
      intro i s hI
      obtain ⟨s₁, i₁, hret, hI₁⟩ := hstep s i hI
      have hlater := (h i).of_returns hret n
      rw [loopExec]
      cases hb : (body i).exec n s with
      | running s₂ => exact ⟨s₁, i₁, hI₁, by simpa [hb, Exec.bind] using hlater⟩
      | abort s₂ => exact ⟨s₁, i₁, hI₁, by simpa [hb, Exec.bind] using hlater⟩
      | ret s₂ r =>
        obtain ⟨rfl, rfl⟩ := returns_unique ⟨n, hb⟩ hret
        exact ih i₁ _ hI₁
  exact key n i s hI

end Grows

end Prog
