import Zalloc.Foundations.LinkedList

/-!
# Circular lists

A circular doubly linked list has a head that is a node of its own and carries no element. The links
forwards lead from the head through the nodes and back to the head, and so do the links backwards.

## Main definitions

* `Links.Arc next prev a l b`: from `a`, the links lead through the nodes `l` to `b`, and back.
* `Links.Ring next prev h l`: a circular list with head `h` and the nodes `l`.

## Main results

* `Links.Ring.addLast`, `Links.Ring.erase`: the list after a node has been put at its end, after a
  node has been taken out.
* `Links.Ring.path_addLast_again`: when a node of the list is put at its end once more, the nodes
  behind it can no longer be reached.
* `Links.Ring.path_front`: the way to a node does not depend on the links of the nodes behind it.
-/

set_option autoImplicit false

namespace Links

variable {α : Type}

/-- From `a`, the links lead through the nodes `l` to `b`, and back. -/
def Arc (next prev : α → α) : α → List α → α → Prop
  | a, [], b => next a = b ∧ prev b = a
  | a, x :: l, b => (next a = x ∧ prev x = a) ∧ Arc next prev x l b

/-- A circular list with head `h` and the nodes `l`. -/
structure Ring (next prev : α → α) (h : α) (l : List α) : Prop where
  /-- The links lead around. -/
  arc : Arc next prev h l h
  /-- The nodes are different. -/
  nodup : (h :: l).Nodup

variable {next prev next' prev' : α → α} {a b h x : α} {l l₁ l₂ : List α}

/-! ## Arcs -/

namespace Arc

theorem append_iff :
    Arc next prev a (l₁ ++ x :: l₂) b ↔ Arc next prev a l₁ x ∧ Arc next prev x l₂ b := by
  induction l₁ generalizing a with
  | nil => exact Iff.rfl
  | cons y l₁ ih =>
    show _ ∧ Arc next prev y (l₁ ++ x :: l₂) b ↔ (_ ∧ Arc next prev y l₁ x) ∧ _
    simp only [ih, and_assoc]

/-- An arc depends on the links forwards of all its nodes but the last, and on the links backwards
of all but the first. -/
theorem congr (harc : Arc next prev a l b) (hnext : ∀ x ∈ a :: l, next' x = next x)
    (hprev : ∀ x ∈ l ++ [b], prev' x = prev x) : Arc next' prev' a l b := by
  induction l generalizing a with
  | nil =>
    refine ⟨?_, ?_⟩
    · rw [hnext a (List.mem_cons_self ..)]
      exact harc.1
    · rw [hprev b (List.mem_singleton_self b)]
      exact harc.2
  | cons y l ih =>
    obtain ⟨⟨hn, hp⟩, hrest⟩ := harc
    refine ⟨⟨?_, ?_⟩, ih hrest (fun x hx => hnext x (List.mem_cons_of_mem _ hx))
      fun x hx => hprev x (List.mem_cons_of_mem _ hx)⟩
    · rw [hnext a (List.mem_cons_self ..), hn]
    · rw [hprev y (List.mem_cons_self ..), hp]

/-- The links forwards of an arc. -/
theorem path (harc : Arc next prev a l b) : Path next (next a) l b := by
  induction l generalizing a with
  | nil => exact harc.1
  | cons y l ih =>
    obtain ⟨⟨hn, -⟩, hrest⟩ := harc
    exact ⟨hn, ih hrest⟩

/-- What precedes the end of an arc is one of its nodes. -/
theorem prev_mem (harc : Arc next prev a l b) : prev b ∈ a :: l := by
  induction l generalizing a with
  | nil => exact List.mem_singleton.2 harc.2
  | cons y l ih => exact List.mem_cons_of_mem _ (ih harc.2)

/-- What follows the start of an arc is one of its nodes, or its end. -/
theorem next_mem (harc : Arc next prev a l b) : next a ∈ l ++ [b] := by
  cases l with
  | nil => exact List.mem_singleton.2 harc.1
  | cons y l =>
    rw [harc.1.1]
    exact List.mem_cons_self ..

variable [DecidableEq α]

/-- A node is put in front of the end. -/
theorem addLast (harc : Arc next prev a l b) (hnodup : (a :: l).Nodup) (hb : b ∉ l)
    (hx : x ∉ a :: l) (hxb : x ≠ b) :
    Arc (Function.update (Function.update next (prev b) x) x b)
      (Function.update (Function.update prev x (prev b)) b x) a (l ++ [x]) b := by
  induction l generalizing a with
  | nil =>
    obtain ⟨-, hp⟩ := harc
    have hax : a ≠ x := fun heq => hx (heq ▸ List.mem_cons_self ..)
    refine ⟨⟨?_, ?_⟩, Function.update_self .., Function.update_self ..⟩
    · rw [Function.update_of_ne hax, hp, Function.update_self]
    · rw [Function.update_of_ne hxb, Function.update_self, hp]
  | cons y l ih =>
    obtain ⟨⟨hn, hp⟩, hrest⟩ := harc
    rw [List.nodup_cons] at hnodup
    have hax : a ≠ x := fun heq => hx (heq ▸ List.mem_cons_self ..)
    have hyx : y ≠ x := fun heq => hx (heq ▸ List.mem_cons_of_mem _ (List.mem_cons_self ..))
    have hyb : y ≠ b := fun heq => hb (heq ▸ List.mem_cons_self ..)
    -- the last node is behind the first
    have hat : a ≠ prev b := fun heq => hnodup.1 (heq ▸ hrest.prev_mem)
    refine ⟨⟨?_, ?_⟩, ih hrest hnodup.2 (fun hmem => hb (List.mem_cons_of_mem _ hmem))
      fun hmem => hx (List.mem_cons_of_mem _ hmem)⟩
    · rw [Function.update_of_ne hax, Function.update_of_ne hat, hn]
    · rw [Function.update_of_ne hyb, Function.update_of_ne hyx, hp]

/-- A node is taken out. -/
theorem erase (harc : Arc next prev a (l₁ ++ x :: l₂) b) (hnodup : (a :: (l₁ ++ x :: l₂)).Nodup)
    (hb : b ∉ l₁ ++ x :: l₂) :
    Arc (Function.update next (prev x) (next x)) (Function.update prev (next x) (prev x)) a
      (l₁ ++ l₂) b := by
  induction l₁ generalizing a with
  | nil =>
    obtain ⟨⟨hn, hp⟩, hrest⟩ := harc
    rw [List.nil_append, List.nodup_cons, List.nodup_cons] at hnodup
    obtain ⟨ha, -, hl₂⟩ := hnodup
    rw [hp]
    cases l₂ with
    | nil =>
      obtain ⟨hn', -⟩ := hrest
      exact ⟨by rw [Function.update_self, hn'], by rw [hn', Function.update_self]⟩
    | cons y l₂ =>
      obtain ⟨⟨hn', -⟩, hrest⟩ := hrest
      rw [List.nodup_cons] at hl₂
      rw [hn']
      refine ⟨⟨Function.update_self .., Function.update_self ..⟩, hrest.congr ?_ ?_⟩
      · rintro z hz
        refine Function.update_of_ne ?_ _ _
        rintro rfl
        exact ha (List.mem_cons_of_mem _ hz)
      · rintro z hz
        refine Function.update_of_ne ?_ _ _
        rintro rfl
        rcases List.mem_append.1 hz with hz | hz
        · exact hl₂.1 hz
        · rw [List.mem_singleton] at hz
          exact hb (hz ▸ by simp)
  | cons y l₁ ih =>
    obtain ⟨⟨hn, hp⟩, hrest⟩ := harc
    rw [List.cons_append, List.nodup_cons] at hnodup
    obtain ⟨harc₁, harc₂⟩ := append_iff.1 hrest
    -- the neighbours of the node are behind the first two
    have hpmem := harc₁.prev_mem
    have hnmem := harc₂.next_mem
    have hax : a ≠ prev x := by
      rintro rfl
      refine hnodup.1 ?_
      rcases List.mem_cons.1 hpmem with heq | hmem
      · rw [heq]
        exact List.mem_cons_self ..
      · exact List.mem_cons_of_mem _ (List.mem_append_left _ hmem)
    have hyx : y ≠ next x := by
      rintro rfl
      rcases List.mem_append.1 hnmem with hmem | hmem
      · have hy := (List.nodup_cons.1 hnodup.2).1
        exact hy (List.mem_append_right _ (List.mem_cons_of_mem _ hmem))
      · rw [List.mem_singleton] at hmem
        exact hb (hmem ▸ List.mem_cons_self ..)
    refine ⟨⟨?_, ?_⟩, ih hrest hnodup.2 fun hmem => hb (List.mem_cons_of_mem _ hmem)⟩
    · rw [Function.update_of_ne hax, hn]
    · rw [Function.update_of_ne hyx, hp]

end Arc

/-! ## Rings -/

namespace Ring

theorem ne_head (hring : Ring next prev h l) (hx : x ∈ l) : x ≠ h := by
  rintro rfl
  exact (List.nodup_cons.1 hring.nodup).1 hx

theorem head_notMem (hring : Ring next prev h l) : h ∉ l := (List.nodup_cons.1 hring.nodup).1

/-- The links forwards lead from the head through the nodes and back. -/
theorem path (hring : Ring next prev h l) : Path next (next h) l h := hring.arc.path

/-- A list depends on the links of its own nodes. -/
theorem congr (hring : Ring next prev h l) (hnext : ∀ x ∈ h :: l, next' x = next x)
    (hprev : ∀ x ∈ h :: l, prev' x = prev x) : Ring next' prev' h l := by
  refine ⟨hring.arc.congr hnext fun x hx => hprev x ?_, hring.nodup⟩
  rcases List.mem_append.1 hx with hx | hx
  · exact List.mem_cons_of_mem _ hx
  · rw [List.mem_singleton.1 hx]
    exact List.mem_cons_self ..

/-- The empty list. -/
theorem nil (hnext : next h = h) (hprev : prev h = h) : Ring next prev h [] :=
  ⟨⟨hnext, hprev⟩, List.nodup_singleton h⟩

theorem next_mem (hring : Ring next prev h l) (hx : x ∈ h :: l) : next x ∈ h :: l := by
  rcases List.mem_cons.1 hx with rfl | hx
  · have hmem := hring.arc.next_mem
    rw [List.mem_append, List.mem_singleton, or_comm] at hmem
    exact List.mem_cons.2 hmem
  · obtain ⟨l₁, l₂, rfl⟩ := List.append_of_mem hx
    have hmem := (Arc.append_iff.1 hring.arc).2.next_mem
    rcases List.mem_append.1 hmem with hmem | hmem
    · exact List.mem_cons_of_mem _ (List.mem_append_right _ (List.mem_cons_of_mem _ hmem))
    · rw [List.mem_singleton.1 hmem]
      exact List.mem_cons_self ..

theorem prev_mem (hring : Ring next prev h l) (hx : x ∈ h :: l) : prev x ∈ h :: l := by
  rcases List.mem_cons.1 hx with rfl | hx
  · exact hring.arc.prev_mem
  · obtain ⟨l₁, l₂, rfl⟩ := List.append_of_mem hx
    have hmem := (Arc.append_iff.1 hring.arc).1.prev_mem
    rcases List.mem_cons.1 hmem with heq | hmem
    · rw [heq]
      exact List.mem_cons_self ..
    · exact List.mem_cons_of_mem _ (List.mem_append_left _ hmem)

/-- The last node is not one of those in front of another one. -/
theorem prev_head_notMem (hring : Ring next prev h (l₁ ++ x :: l₂)) : prev h ∉ h :: l₁ := by
  have hmem := (Arc.append_iff.1 hring.arc).2.prev_mem
  have hnodup := hring.nodup
  rw [← List.cons_append, List.nodup_append] at hnodup
  exact fun hmem' => hnodup.2.2 _ hmem' _ hmem rfl

theorem notMem_front (hring : Ring next prev h (l₁ ++ x :: l₂)) : x ∉ h :: l₁ := by
  have hnodup := hring.nodup
  rw [← List.cons_append, List.nodup_append] at hnodup
  exact fun hmem => hnodup.2.2 _ hmem _ (List.mem_cons_self ..) rfl

/-- The way to a node does not depend on the links of the nodes behind it. -/
theorem path_front (hring : Ring next prev h (l₁ ++ x :: l₂))
    (hsame : ∀ y ∈ h :: l₁, next' y = next y) : Path next' (next' h) l₁ x := by
  have hpath := (Arc.append_iff.1 hring.arc).1.path
  rw [hsame h (List.mem_cons_self ..)]
  exact hpath.congr fun y hy => hsame y (List.mem_cons_of_mem _ hy)

variable [DecidableEq α]

/-- A node is put at the end. -/
theorem addLast (hring : Ring next prev h l) (hx : x ∉ h :: l) :
    Ring (Function.update (Function.update next (prev h) x) x h)
      (Function.update (Function.update prev x (prev h)) h x) h (l ++ [x]) := by
  have hxh : x ≠ h := fun heq => hx (heq ▸ List.mem_cons_self ..)
  refine ⟨hring.arc.addLast hring.nodup hring.head_notMem hx hxh, ?_⟩
  rw [← List.cons_append]
  exact List.nodup_append.2 ⟨hring.nodup, List.nodup_singleton x, by
    rintro y hy z hz rfl
    exact hx (List.mem_singleton.1 hz ▸ hy)⟩

/-- A node is taken out. -/
theorem erase (hring : Ring next prev h l) (hx : x ∈ l) :
    Ring (Function.update next (prev x) (next x)) (Function.update prev (next x) (prev x)) h
      (l.erase x) := by
  obtain ⟨l₁, l₂, rfl⟩ := List.append_of_mem hx
  have hnodup := hring.nodup
  have hx₁ : x ∉ l₁ := by
    have hl := (List.nodup_cons.1 hnodup).2
    rw [List.nodup_append] at hl
    exact fun hmem => hl.2.2 x hmem x (List.mem_cons_self ..) rfl
  rw [List.erase_append_right _ hx₁, List.erase_cons_head]
  refine ⟨hring.arc.erase hnodup hring.head_notMem, ?_⟩
  exact hnodup.sublist ((List.Sublist.refl _ |>.append (List.sublist_cons_self x l₂)).cons_cons h)

/-! ## A node that is put in twice -/

/-- When a node of the list is put at its end once more, the nodes behind it can no longer be
reached. -/
theorem path_addLast_again (hring : Ring next prev h (l₁ ++ x :: l₂)) :
    Path (Function.update (Function.update next (prev h) x) x h)
      (Function.update (Function.update next (prev h) x) x h h) (l₁ ++ [x]) h := by
  refine Path.append_singleton_iff.2 ⟨hring.path_front fun y hy => ?_, Function.update_self ..⟩
  have hyx : y ≠ x := fun heq => hring.notMem_front (heq ▸ hy)
  have hyt : y ≠ prev h := fun heq => hring.prev_head_notMem (heq ▸ hy)
  rw [Function.update_of_ne hyx, Function.update_of_ne hyt]

end Ring

end Links
