import Mathlib.Data.List.Basic
import Mathlib.Data.List.Nodup
import Mathlib.Logic.Function.Basic

/-!
# Linked lists

A doubly linked list is kept in two functions that give the next and the previous node of each node.
Its last node is followed by `null`, and its first node is preceded by `null`. A singly linked list
is kept in the first of the two functions.

## Main definitions

* `Links.Path next h l e`: from `h`, the links lead through the nodes `l` to `e`.
* `Links.Segment null next prev p h l q e`: a part of a list: its nodes are `l`, the first of them
  is `h` and is preceded by `p`, the last of them is `q` and is followed by `e`.
* `Links.Linked null next prev h l`: a whole list with head `h`.
* `Links.setIf null f n v`: the function after `n` has been given the value `v`, if `n` is a node.

## Main results

* `Links.Linked.popFront`, `Links.Linked.pushFront`, `Links.Linked.erase`: the list after its head
  has been taken out, after a node has been put in front, after a node other than the head has been
  taken out.
* `Links.Segment.snoc`: a part to which a node has been appended.
* `Links.Path.append_singleton_iff`: a path before its last node.
-/

set_option autoImplicit false

namespace Links

variable {α : Type}

/-- From `h`, the links lead through the nodes `l` to `e`. -/
def Path (next : α → α) : α → List α → α → Prop
  | h, [], e => h = e
  | h, a :: l, e => h = a ∧ Path next (next a) l e

/-- A part of a list. If it has no node, then what precedes it is followed by `e`. -/
def Segment (null : α) (next prev : α → α) : α → α → List α → α → α → Prop
  | p, h, [], q, e => q = p ∧ e = h
  | p, h, a :: l, q, e => h = a ∧ a ≠ null ∧ prev a = p ∧ Segment null next prev a (next a) l q e

/-- A whole list with head `h`. -/
def Linked (null : α) (next prev : α → α) (h : α) (l : List α) : Prop :=
  ∃ q, Segment null next prev null h l q null

variable {null : α} {next prev next' prev' : α → α} {p h q e a x : α} {l l₁ l₂ : List α}

/-! ## Paths -/

namespace Path

/-- A path depends on its own nodes only. -/
theorem congr (hp : Path next h l e) (hsame : ∀ x ∈ l, next' x = next x) : Path next' h l e := by
  induction l generalizing h with
  | nil => exact hp
  | cons a l ih =>
    obtain ⟨rfl, hrest⟩ := hp
    refine ⟨rfl, ?_⟩
    rw [hsame h (List.mem_cons_self ..)]
    exact ih hrest fun x hx => hsame x (List.mem_cons_of_mem _ hx)

/-- The path before its last node. -/
theorem append_singleton_iff : Path next h (l ++ [a]) e ↔ Path next h l a ∧ next a = e := by
  induction l generalizing h with
  | nil => exact Iff.rfl
  | cons b l ih =>
    show h = b ∧ Path next (next b) (l ++ [a]) e ↔ (h = b ∧ Path next (next b) l a) ∧ next a = e
    rw [ih, and_assoc]

/-- The path up to one of its nodes. -/
theorem front (hp : Path next h (l₁ ++ a :: l₂) e) : Path next h l₁ a := by
  induction l₁ generalizing h with
  | nil => exact hp.1
  | cons b l₁ ih =>
    obtain ⟨rfl, hrest⟩ := hp
    exact ⟨rfl, ih hrest⟩

/-- The first node of a path. -/
theorem head_mem (hp : Path next h l e) (hl : l ≠ []) : h ∈ l := by
  cases l with
  | nil => exact absurd rfl hl
  | cons a l =>
    rw [hp.1]
    exact List.mem_cons_self ..

/-- A node is linked behind the last one. -/
theorem snoc [DecidableEq α] (hp : Path next h l a) (ha : a ∉ l) (e : α) :
    Path (Function.update next a e) h (l ++ [a]) e := by
  refine append_singleton_iff.2 ⟨hp.congr fun x hx => ?_, Function.update_self ..⟩
  apply Function.update_of_ne
  rintro rfl
  exact ha hx

end Path

/-! ## Parts -/

namespace Segment

/-- The links forwards of a part. -/
theorem path (hs : Segment null next prev p h l q e) : Path next h l e := by
  induction l generalizing p h with
  | nil => exact hs.2.symm
  | cons a l ih =>
    obtain ⟨rfl, -, -, hrest⟩ := hs
    exact ⟨rfl, ih hrest⟩

/-- A part depends on its own nodes only. -/
theorem congr (hs : Segment null next prev p h l q e)
    (hsame : ∀ x ∈ l, next' x = next x ∧ prev' x = prev x) :
    Segment null next' prev' p h l q e := by
  induction l generalizing p h with
  | nil => exact hs
  | cons a l ih =>
    obtain ⟨rfl, hne, hprev, hrest⟩ := hs
    obtain ⟨hnext', hprev'⟩ := hsame h (List.mem_cons_self ..)
    refine ⟨rfl, hne, hprev'.trans hprev, ?_⟩
    rw [hnext']
    exact ih hrest fun x hx => hsame x (List.mem_cons_of_mem _ hx)

/-- Two parts, one after the other. -/
theorem append_iff :
    Segment null next prev p h (l₁ ++ l₂) q e ↔
      ∃ m n, Segment null next prev p h l₁ m n ∧ Segment null next prev m n l₂ q e := by
  induction l₁ generalizing p h with
  | nil =>
    constructor
    · exact fun hs => ⟨p, h, ⟨rfl, rfl⟩, hs⟩
    · rintro ⟨m, n, ⟨rfl, rfl⟩, hs⟩
      exact hs
  | cons a l ih =>
    constructor
    · rintro ⟨rfl, hne, hprev, hrest⟩
      obtain ⟨m, n, h₁, h₂⟩ := ih.1 hrest
      exact ⟨m, n, ⟨rfl, hne, hprev, h₁⟩, h₂⟩
    · rintro ⟨m, n, ⟨rfl, hne, hprev, h₁⟩, h₂⟩
      exact ⟨rfl, hne, hprev, ih.2 ⟨m, n, h₁, h₂⟩⟩

/-- The part before its last node. -/
theorem append_singleton_iff :
    Segment null next prev p h (l ++ [a]) q e ↔
      q = a ∧ e = next a ∧ a ≠ null ∧ Segment null next prev p h l (prev a) a := by
  rw [append_iff]
  constructor
  · rintro ⟨m, n, hs, rfl, hne, rfl, rfl, rfl⟩
    exact ⟨rfl, rfl, hne, hs⟩
  · rintro ⟨rfl, rfl, hne, hs⟩
    exact ⟨prev q, q, hs, rfl, hne, rfl, rfl, rfl⟩

theorem ne_null (hs : Segment null next prev p h l q e) : ∀ x ∈ l, x ≠ null := by
  induction l generalizing p h with
  | nil => exact fun x hx => absurd hx (List.not_mem_nil)
  | cons a l ih =>
    obtain ⟨rfl, hne, -, hrest⟩ := hs
    intro x hx
    rcases List.mem_cons.1 hx with rfl | hx
    · exact hne
    · exact ih hrest x hx

theorem eq_head (hs : Segment null next prev p h (a :: l) q e) : h = a := hs.1

/-- The first node is a node, unless nothing follows. -/
theorem head_mem (hs : Segment null next prev p h l q null) (hne : h ≠ null) : h ∈ l := by
  -- a part without nodes starts with what follows it
  cases l with
  | nil => exact absurd hs.2.symm hne
  | cons a l =>
    rw [hs.eq_head]
    exact List.mem_cons_self ..

theorem last_mem (hs : Segment null next prev p h l q e) (hl : l ≠ []) : q ∈ l := by
  obtain ⟨xs, x, rfl⟩ := (List.eq_nil_or_concat' l).resolve_left hl
  rw [(append_singleton_iff.1 hs).1]
  exact List.mem_append_right _ (List.mem_singleton_self x)

end Segment

/-! ## Writing to a node that may be missing -/

section

variable [DecidableEq α]

/-- `if (n != NULL) f(n) = v`. -/
def setIf (null : α) (f : α → α) (n v : α) : α → α := if n = null then f else Function.update f n v

theorem setIf_null (f : α → α) (v : α) : setIf null f null v = f := if_pos rfl

theorem setIf_of_ne {n : α} (f : α → α) (v : α) (hn : n ≠ null) :
    setIf null f n v = Function.update f n v := if_neg hn

theorem setIf_apply_of_ne {n : α} (f : α → α) (v : α) (hx : x ≠ n) :
    setIf null f n v x = f x := by
  unfold setIf
  split_ifs
  · rfl
  · exact Function.update_of_ne hx v f

/-- What precedes the first node of a part can be replaced. -/
theorem Segment.set_prev (hs : Segment null next prev p h l q null) (hnodup : l.Nodup) (m : α) :
    ∃ q', Segment null next (setIf null prev h m) m h l q' null := by
  cases l with
  | nil =>
    obtain ⟨-, rfl⟩ := hs
    exact ⟨m, rfl, rfl⟩
  | cons a l =>
    obtain ⟨rfl, hne, -, hrest⟩ := hs
    rw [setIf_of_ne prev m hne]
    refine ⟨q, rfl, hne, Function.update_self .., hrest.congr fun x hx => ⟨rfl, ?_⟩⟩
    -- the nodes behind the first one are none of them the first
    apply Function.update_of_ne
    rintro rfl
    exact (List.nodup_cons.1 hnodup).1 hx

/-- What follows the last node of a part can be replaced. -/
theorem Segment.set_next (hs : Segment null next prev p h l q e) (hl : l ≠ []) (hnodup : l.Nodup)
    (n : α) : Segment null (Function.update next q n) prev p h l q n := by
  obtain ⟨xs, x, rfl⟩ := (List.eq_nil_or_concat' l).resolve_left hl
  -- the last node is the only one that is written
  obtain ⟨rfl, -, hx, hxs⟩ := append_singleton_iff.1 hs
  refine append_singleton_iff.2 ⟨rfl, (Function.update_self q n next).symm, hx, ?_⟩
  refine hxs.congr fun y hy => ⟨Function.update_of_ne ?_ n next, rfl⟩
  rintro rfl
  exact (List.nodup_append.1 hnodup).2.2 y hy y (List.mem_singleton_self y) rfl

/-- A node is appended behind the last one. -/
theorem Segment.snoc (hs : Segment null next prev p h l q e) (hl : l ≠ []) (hnodup : l.Nodup)
    (ha : a ∉ l) (hne : a ≠ null) :
    Segment null (Function.update next q a) (Function.update prev a q) p h (l ++ [a]) a
      (Function.update next q a a) := by
  refine append_singleton_iff.2 ⟨rfl, rfl, hne, ?_⟩
  rw [Function.update_self]
  refine (hs.set_next hl hnodup a).congr fun x hx => ⟨rfl, Function.update_of_ne ?_ q prev⟩
  rintro rfl
  exact ha hx

end

/-! ## Whole lists -/

namespace Linked

theorem congr (hl : Linked null next prev h l)
    (hsame : ∀ x ∈ l, next' x = next x ∧ prev' x = prev x) : Linked null next' prev' h l := by
  obtain ⟨q, hs⟩ := hl
  exact ⟨q, hs.congr hsame⟩

theorem nil (null : α) (next prev : α → α) : Linked null next prev null [] := ⟨null, rfl, rfl⟩

/-- The links forwards of a list. -/
theorem path (hl : Linked null next prev h l) : Path next h l null := by
  obtain ⟨q, hs⟩ := hl
  exact hs.path

theorem ne_null (hl : Linked null next prev h l) : ∀ x ∈ l, x ≠ null := by
  obtain ⟨q, hs⟩ := hl
  exact hs.ne_null

/-- The head is the first node, or `null`. -/
theorem eq_headD (hl : Linked null next prev h l) : h = l.headD null := by
  obtain ⟨q, hs⟩ := hl
  cases l with
  | nil => exact hs.2.symm
  | cons a l => exact hs.1

theorem eq_null_iff (hl : Linked null next prev h l) : h = null ↔ l = [] := by
  obtain ⟨q, hs⟩ := hl
  cases l with
  | nil => exact ⟨fun _ => rfl, fun _ => hs.2.symm⟩
  | cons a l =>
    obtain ⟨rfl, hne, -⟩ := hs
    exact ⟨fun heq => absurd heq hne, fun heq => absurd heq (List.cons_ne_nil _ _)⟩

/-- The head is a node, unless it is `null`. -/
theorem head_mem (hl : Linked null next prev h l) (hne : h ≠ null) : h ∈ l := by
  obtain ⟨q, hs⟩ := hl
  exact hs.head_mem hne

/-- A head that is a node is the first one. -/
theorem eq_cons (hl : Linked null next prev h l) (hh : h ∈ l) : ∃ l', l = h :: l' := by
  obtain ⟨q, hs⟩ := hl
  cases l with
  | nil => exact absurd hh List.not_mem_nil
  | cons a l => exact ⟨l, by rw [hs.eq_head]⟩

theorem prev_head (hl : Linked null next prev h (a :: l)) : prev a = null := by
  obtain ⟨q, -, -, hprev, -⟩ := hl
  exact hprev

/-- The successor of a node is a node or `null`. -/
theorem next_mem (hl : Linked null next prev h l) (ha : a ∈ l) : next a = null ∨ next a ∈ l := by
  obtain ⟨q, hs⟩ := hl
  obtain ⟨l₁, l₂, rfl⟩ := List.append_of_mem ha
  obtain ⟨m, n, -, rfl, -, -, hrest⟩ := Segment.append_iff.1 hs
  cases l₂ with
  | nil => exact .inl hrest.2.symm
  | cons b l₂ =>
    right
    rw [hrest.eq_head]
    simp

/-- The predecessor of a node other than the head is another node, which precedes it. -/
theorem prev_mem (hl : Linked null next prev h l) (hnodup : l.Nodup) (ha : a ∈ l) (hne : a ≠ h) :
    prev a ∈ l ∧ prev a ≠ a ∧ next (prev a) = a := by
  obtain ⟨q, hs⟩ := hl
  obtain ⟨l₁, l₂, rfl⟩ := List.append_of_mem ha
  obtain ⟨m, n, h₁, rfl, -, rfl, -⟩ := Segment.append_iff.1 hs
  -- the node is not the head, so something precedes it
  have hl₁ : l₁ ≠ [] := by
    rintro rfl
    exact hne h₁.2
  obtain ⟨xs, x, rfl⟩ := (List.eq_nil_or_concat' l₁).resolve_left hl₁
  obtain ⟨heq, hnext, -, -⟩ := Segment.append_singleton_iff.1 h₁
  rw [heq]
  refine ⟨by simp, ?_, hnext.symm⟩
  rintro rfl
  exact (List.nodup_append.1 hnodup).2.2 x (by simp) x (List.mem_cons_self ..) rfl

variable [DecidableEq α]

/-- The head is taken out. -/
theorem popFront (hl : Linked null next prev h (a :: l)) (hnodup : (a :: l).Nodup) :
    Linked null next (setIf null prev (next a) null) (next a) l := by
  obtain ⟨q, rfl, -, -, hrest⟩ := hl
  exact hrest.set_prev (List.nodup_cons.1 hnodup).2 null

/-- A node is put in front. -/
theorem pushFront (hl : Linked null next prev h l) (hnodup : l.Nodup) (ha : a ∉ l) (hne : a ≠ null)
    (hprev : prev a = null) :
    Linked null (Function.update next a h) (setIf null prev h a) a (a :: l) := by
  -- the head is a node of the list, and `a` is not
  have hah : a ≠ h := by
    rintro rfl
    exact ha (hl.head_mem hne)
  obtain ⟨q, hs⟩ := hl
  obtain ⟨q', hs'⟩ := hs.set_prev hnodup a
  refine ⟨q', rfl, hne, (setIf_apply_of_ne prev a hah).trans hprev, ?_⟩
  rw [Function.update_self]
  refine hs'.congr fun x hx => ⟨Function.update_of_ne ?_ h next, rfl⟩
  rintro rfl
  exact ha hx

/-- A node other than the head is taken out: its neighbours are linked to each other. -/
theorem erase (hl : Linked null next prev h l) (hnodup : l.Nodup) (ha : a ∈ l) (hne : a ≠ h) :
    Linked null (Function.update next (prev a) (next a)) (setIf null prev (next a) (prev a)) h
      (l.erase a) := by
  obtain ⟨q, hs⟩ := hl
  obtain ⟨l₁, l₂, rfl⟩ := List.append_of_mem ha
  obtain ⟨m, n, h₁, rfl, -, rfl, h₂⟩ := Segment.append_iff.1 hs
  have hl₁ : l₁ ≠ [] := by
    rintro rfl
    exact hne h₁.2
  obtain ⟨hnodup₁, hnodup₂, hdisj⟩ := List.nodup_append.1 hnodup
  obtain ⟨hn₂, hnodup₂⟩ := List.nodup_cons.1 hnodup₂
  have hn₁ : n ∉ l₁ := fun hmem => hdisj n hmem n (List.mem_cons_self ..) rfl
  rw [List.erase_append_right _ hn₁, List.erase_cons_head]
  have hm₁ : prev n ∈ l₁ := h₁.last_mem hl₁
  have hs₁ := h₁.set_next hl₁ hnodup₁ (next n)
  obtain ⟨q', hs₂⟩ := h₂.set_prev hnodup₂ (prev n)
  refine ⟨q', Segment.append_iff.2 ⟨prev n, next n, hs₁.congr ?_, hs₂.congr ?_⟩⟩
  · -- the successor is not in the front part
    intro x hx
    refine ⟨rfl, ?_⟩
    by_cases hnull : next n = null
    · rw [hnull, setIf_null]
    · have hmem := List.mem_cons_of_mem n (h₂.head_mem hnull)
      exact setIf_apply_of_ne prev (prev n) fun heq => hdisj x hx (next n) hmem heq
  · -- the predecessor is not in the back part
    intro x hx
    refine ⟨Function.update_of_ne ?_ (next n) next, rfl⟩
    rintro rfl
    exact hdisj (prev n) hm₁ (prev n) (List.mem_cons_of_mem _ hx) rfl

end Linked

end Links
