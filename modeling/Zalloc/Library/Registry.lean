import Zalloc.Foundations.Program
import Zalloc.Foundations.Ring
import Zalloc.Foundations.Runs

/-!
# The list of handlers

`handler.c` keeps the allocators that have registered in a circular list. The head of the list is
the static variable `handlers`, and every allocator has a `struct list` in its `struct zalloc`. A
handler is named by the address of its list node; an access through `NULL` is `Prog.abort`.

## Main definitions

* `handlerRegister`, `handlerUnregister`, `handlerGet`: the functions of `handler.c`.
* `RStep c a c'`: a registration, or its revocation, that returns.
* `Proper c a`: a handler is registered only while it is not in the list, and only a handler that
  has been registered before is taken out.

## Main results

* `registry_refines`: in a proper run the list is the sequence of registered handlers. A lookup
  returns the first one with the name, or `NULL`, and nothing that is proper is ever refused.
* `register_again`: a handler that is registered twice cuts off those behind it, and once it has
  been taken out, a lookup that would have to get past it never returns.
-/

set_option autoImplicit false

namespace Zalloc

/-! ## The functions of `handler.c` -/

/-- What the memory holds in the list nodes and in the names of the handlers. -/
structure Registry where
  /-- The address of the variable `handlers`. -/
  handlers : ℕ
  /-- The field `n` of a node: the next one. -/
  n : ℕ → ℕ
  /-- The field `p` of a node: the previous one. -/
  p : ℕ → ℕ
  /-- The field `name` of a handler. -/
  name : ℕ → String
  /-- A variable has an address. -/
  handlers_ne : handlers ≠ 0

/-- Before the first call: `handlers` is `LIST_HEAD_INIT`, and the nodes of the handlers, which are
static variables without an initializer for them, hold `NULL`. -/
def Registry.start (handlers : ℕ) (h : handlers ≠ 0) (name : ℕ → String) : Registry where
  handlers := handlers
  n := Function.update (fun _ => 0) handlers handlers
  p := Function.update (fun _ => 0) handlers handlers
  name := name
  handlers_ne := h

/-- `LIST_ADDQ`, with `&handlers` for the list. -/
def listAddq (el : ℕ) : Prog Registry Unit := do
  Prog.require fun _ => el ≠ 0
  Prog.modify fun r => { r with p := Function.update r.p el (r.p r.handlers) }
  Prog.modify fun r => { r with p := Function.update r.p r.handlers el }
  Prog.require fun r => r.p el ≠ 0
  Prog.modify fun r => { r with n := Function.update r.n (r.p el) el }
  Prog.modify fun r => { r with n := Function.update r.n el r.handlers }

/-- `LIST_DEL`. -/
def listDel (el : ℕ) : Prog Registry Unit := do
  Prog.require fun r => el ≠ 0 ∧ r.n el ≠ 0
  Prog.modify fun r => { r with p := Function.update r.p (r.n el) (r.p el) }
  Prog.require fun r => r.p el ≠ 0
  Prog.modify fun r => { r with n := Function.update r.n (r.p el) (r.n el) }

/-- `LIST_INIT`. -/
def listInit (l : ℕ) : Prog Registry Unit := do
  Prog.require fun _ => l ≠ 0
  Prog.modify fun r => { r with p := Function.update r.p l l }
  Prog.modify fun r => { r with n := Function.update r.n l l }

/-- `handler_register`. -/
def handlerRegister (h : ℕ) : Prog Registry Unit := listAddq h

/-- `handler_unregister`. -/
def handlerUnregister (hd : ℕ) : Prog Registry Unit := do
  listDel hd
  listInit hd

/-- One iteration of `list_for_each_entry` in `handler_get`. -/
def handlerGetBody (name : String) (h : ℕ) : Prog Registry (ℕ ⊕ ℕ) := do
  let handlers ← Prog.read Registry.handlers
  if h ≠ handlers then
    Prog.require fun _ => h ≠ 0
    let hname ← Prog.read fun r => r.name h
    if hname = name then pure (.inr h)
    else
      let next ← Prog.read fun r => r.n h
      pure (.inl next)
  else pure (.inr 0)

/-- `handler_get`. -/
def handlerGet (name : String) : Prog Registry ℕ := do
  let first ← Prog.read fun r => r.n r.handlers
  Prog.loop (handlerGetBody name) first

/-! ## Runs -/

/-- The list of handlers, with those that are registered, and those that have been and are not. -/
structure RConfig where
  /-- The state. -/
  reg : Registry
  /-- The registered handlers, the first one in front. -/
  regs : List ℕ
  /-- Those whose registration has been revoked. -/
  idle : List ℕ

/-- Before the first call. -/
def RConfig.start (handlers : ℕ) (h : handlers ≠ 0) (name : ℕ → String) : RConfig :=
  ⟨.start handlers h name, [], []⟩

/-- The calls that change the list. -/
inductive RCall where
  /-- `handler_register`. -/
  | register (h : ℕ)
  /-- `handler_unregister`. -/
  | unregister (h : ℕ)

/-- A call that returns. -/
inductive RStep : RConfig → RCall → RConfig → Prop
  /-- A registration. -/
  | register {c : RConfig} {r : Registry} {h : ℕ} (hret : (handlerRegister h).Returns c.reg r ()) :
      RStep c (.register h) ⟨r, c.regs ++ [h], c.idle.filter fun x => x ≠ h⟩
  /-- Its revocation. -/
  | unregister {c : RConfig} {r : Registry} {h : ℕ}
      (hret : (handlerUnregister h).Returns c.reg r ()) :
      RStep c (.unregister h) ⟨r, c.regs.erase h, h :: c.idle⟩

/-- A handler is registered only while it is not in the list, and only a handler that has been
registered before is taken out, be it in the list or not. -/
def Proper (c : RConfig) : RCall → Prop
  | .register h => h ≠ 0 ∧ h ≠ c.reg.handlers ∧ h ∉ c.regs
  | .unregister h => h ∈ c.regs ∨ h ∈ c.idle

instance (c : RConfig) (a : RCall) : Decidable (Proper c a) :=
  match a with
  | .register h => inferInstanceAs (Decidable (h ≠ 0 ∧ h ≠ c.reg.handlers ∧ h ∉ c.regs))
  | .unregister h => inferInstanceAs (Decidable (h ∈ c.regs ∨ h ∈ c.idle))

/-- The first of the handlers with a name, or `NULL`. -/
def firstNamed (name : ℕ → String) (l : List ℕ) (s : String) : ℕ :=
  (l.find? fun h => name h = s).getD 0

/-! ## One call -/

section Calls

variable {r r' : Registry} {h a : ℕ} {s : String} {l : List ℕ}

/-- The registry after `h` has been put at the end of the list. -/
def Registry.added (r : Registry) (h : ℕ) : Registry :=
  { r with
    n := Function.update (Function.update r.n (r.p r.handlers) h) h r.handlers
    p := Function.update (Function.update r.p h (r.p r.handlers)) r.handlers h }

/-- The registry after `h` has been taken out of the list and linked to itself. -/
def Registry.removed (r : Registry) (h : ℕ) : Registry :=
  { r with
    n := Function.update (Function.update r.n (r.p h) (r.n h)) h h
    p := Function.update (Function.update r.p (r.n h) (r.p h)) h h }

@[simp] theorem Registry.added_handlers : (r.added h).handlers = r.handlers := rfl
@[simp] theorem Registry.added_name : (r.added h).name = r.name := rfl
@[simp] theorem Registry.removed_handlers : (r.removed h).handlers = r.handlers := rfl
@[simp] theorem Registry.removed_name : (r.removed h).name = r.name := rfl

theorem returns_handlerRegister (h0 : h ≠ 0) (hh : h ≠ r.handlers) (hlast : r.p r.handlers ≠ 0) :
    (handlerRegister h).Returns r (r.added h) () := by
  refine (Prog.returns_require (c := fun _ => h ≠ 0) h0).bind ?_
  refine (Prog.returns_modify _ _).bind ((Prog.returns_modify _ _).bind ?_)
  have hp : Function.update (Function.update r.p h (r.p r.handlers)) r.handlers h h =
      r.p r.handlers := by
    rw [Function.update_of_ne hh, Function.update_self]
  refine (Prog.returns_require (by dsimp only; rwa [hp])).bind ((Prog.returns_modify _ _).bind ?_)
  refine Prog.returns_modify_iff.2 ?_
  simp only [Registry.added, hp]

/-- A node whose neighbours exist is taken out. -/
theorem returns_handlerUnregister (h0 : h ≠ 0) (hn : r.n h ≠ 0) (hp : r.p h ≠ 0) :
    (handlerUnregister h).Returns r (r.removed h) () := by
  have hp' : Function.update r.p (r.n h) (r.p h) h = r.p h := by
    by_cases heq : h = r.n h
    · rw [← heq, Function.update_self]
    · rw [Function.update_of_ne heq]
  have hdel : (listDel h).Returns r
      { r with
        n := Function.update r.n (r.p h) (r.n h)
        p := Function.update r.p (r.n h) (r.p h) } () := by
    refine (Prog.returns_require ⟨h0, hn⟩).bind ((Prog.returns_modify _ _).bind ?_)
    refine (Prog.returns_require (by dsimp only; rwa [hp'])).bind ?_
    refine Prog.returns_modify_iff.2 ?_
    simp only [hp']
  refine hdel.bind ?_
  refine (Prog.returns_require (c := fun _ => h ≠ 0) h0).bind ((Prog.returns_modify _ _).bind ?_)
  exact Prog.returns_modify_iff.2 rfl

/-- A node that has never been in the list is not linked to others. -/
theorem aborts_handlerUnregister (hn : r.n h = 0) : (handlerUnregister h).Aborts r r := by
  refine Prog.aborts_bind_iff.2 (.inl (Prog.aborts_bind_iff.2 (.inl ?_)))
  exact Prog.aborts_require_iff.2 ⟨fun hc => hc.2 hn, rfl⟩

/-! ### The walk of `handler_get` -/

theorem returns_handlerGetBody_end : (handlerGetBody s r.handlers).Returns r r (.inr 0) := by
  refine (Prog.returns_read _ _).bind ?_
  rw [if_neg (by simp)]
  exact Prog.returns_pure ..

theorem returns_handlerGetBody_found (h0 : h ≠ 0) (hh : h ≠ r.handlers) (hs : r.name h = s) :
    (handlerGetBody s h).Returns r r (.inr h) := by
  refine (Prog.returns_read _ _).bind ?_
  rw [if_pos hh]
  refine (Prog.returns_require (c := fun _ => h ≠ 0) h0).bind ((Prog.returns_read _ _).bind ?_)
  rw [if_pos hs]
  exact Prog.returns_pure ..

theorem returns_handlerGetBody_next (h0 : h ≠ 0) (hh : h ≠ r.handlers) (hs : r.name h ≠ s) :
    (handlerGetBody s h).Returns r r (.inl (r.n h)) := by
  refine (Prog.returns_read _ _).bind ?_
  rw [if_pos hh]
  refine (Prog.returns_require (c := fun _ => h ≠ 0) h0).bind ((Prog.returns_read _ _).bind ?_)
  rw [if_neg hs]
  exact (Prog.returns_read _ _).bind (Prog.returns_pure ..)

/-- Handlers without the name are passed. -/
theorem iterates_handlerGet (hpath : Links.Path r.n h l a)
    (hl : ∀ x ∈ l, x ≠ 0 ∧ x ≠ r.handlers ∧ r.name x ≠ s) :
    Prog.Iterates (handlerGetBody s) (r, h) (r, a) := by
  induction l generalizing h with
  | nil =>
    obtain rfl : h = a := hpath
    exact .refl _
  | cons x l ih =>
    obtain ⟨rfl, hpath⟩ := hpath
    obtain ⟨h0, hh, hs⟩ := hl h (List.mem_cons_self ..)
    exact .head (returns_handlerGetBody_next h0 hh hs)
      (ih hpath fun x hx => hl x (List.mem_cons_of_mem _ hx))

/-- A walk on which there is a handler with the name, wherever it leads. -/
theorem returns_handlerGet_found (hpath : Links.Path r.n (r.n r.handlers) l a)
    (hl : ∀ x ∈ l, x ≠ 0 ∧ x ≠ r.handlers) (hex : ∃ x ∈ l, r.name x = s) :
    (handlerGet s).Returns r r (firstNamed r.name l s) := by
  -- the walk stops at the first handler with the name
  have hsome : (l.find? fun h => r.name h = s).isSome := by
    simpa [List.find?_isSome] using hex
  obtain ⟨x, hfind⟩ := Option.isSome_iff_exists.1 hsome
  have hfirst : firstNamed r.name l s = x := by rw [firstNamed, hfind, Option.getD_some]
  obtain ⟨hx, l₁, l₂, rfl, hl₁⟩ := List.find?_eq_some_iff_append.1 hfind
  obtain ⟨h0, hh⟩ := hl x (List.mem_append_right _ (List.mem_cons_self ..))
  have hpass : ∀ y ∈ l₁, y ≠ 0 ∧ y ≠ r.handlers ∧ r.name y ≠ s := by
    intro y hy
    obtain ⟨h0, hh⟩ := hl y (List.mem_append_left _ hy)
    exact ⟨h0, hh, by simpa using hl₁ y hy⟩
  rw [hfirst]
  exact (Prog.returns_read _ _).bind ((iterates_handlerGet hpath.front hpass).returns
    (returns_handlerGetBody_found h0 hh (by simpa using hx)))

/-- A walk that leads back to the head. -/
theorem returns_handlerGet (hpath : Links.Path r.n (r.n r.handlers) l r.handlers)
    (hl : ∀ x ∈ l, x ≠ 0 ∧ x ≠ r.handlers) :
    (handlerGet s).Returns r r (firstNamed r.name l s) := by
  by_cases hex : ∃ x ∈ l, r.name x = s
  · exact returns_handlerGet_found hpath hl hex
  · have hnone : ∀ x ∈ l, r.name x ≠ s := fun x hx heq => hex ⟨x, hx, heq⟩
    have hfind : l.find? (fun h => r.name h = s) = none :=
      List.find?_eq_none.2 fun x hx => by simpa using hnone x hx
    have hiter := iterates_handlerGet hpath fun x hx => ⟨(hl x hx).1, (hl x hx).2, hnone x hx⟩
    rw [firstNamed, hfind, Option.getD_none]
    exact (Prog.returns_read _ _).bind (hiter.returns returns_handlerGetBody_end)

/-- A walk that leads to a handler that is linked to itself and does not have the name. -/
theorem not_returns_handlerGet (hpath : Links.Path r.n (r.n r.handlers) l a)
    (hl : ∀ x ∈ l, x ≠ 0 ∧ x ≠ r.handlers ∧ r.name x ≠ s) (h0 : a ≠ 0) (hh : a ≠ r.handlers)
    (hs : r.name a ≠ s) (hself : r.n a = a) {x : ℕ} : ¬ (handlerGet s).Returns r r' x := by
  intro hret
  obtain ⟨_, _, hread, hloop⟩ := Prog.returns_bind_iff.1 hret
  obtain ⟨hr, rfl⟩ := Prog.returns_read_iff.1 hread
  rw [hr, (iterates_handlerGet hpath hl).returns_iff] at hloop
  refine Prog.not_returns_loop (fun st i => st = r ∧ i = a) ?_ ⟨rfl, rfl⟩ hloop
  rintro _ _ ⟨rfl, rfl⟩
  exact ⟨_, _, returns_handlerGetBody_next h0 hh hs, rfl, hself⟩

end Calls

/-! ## The invariant -/

/-- The list holds the registered handlers. A handler whose registration has been revoked is linked
to itself, and one that has never been registered to nothing. -/
structure Registry.Lists (r : Registry) (regs idle : List ℕ) : Prop where
  /-- The list. -/
  ring : Links.Ring r.n r.p r.handlers regs
  /-- The registered handlers exist. -/
  ne_zero : ∀ h ∈ regs, h ≠ 0
  /-- The revoked handlers. -/
  self_linked : ∀ h ∈ idle, h ≠ 0 ∧ h ≠ r.handlers ∧ h ∉ regs ∧ r.n h = h ∧ r.p h = h
  /-- The other handlers. -/
  fresh : ∀ h, h ≠ r.handlers → h ∉ regs → h ∉ idle → r.n h = 0

namespace Registry.Lists

variable {r : Registry} {regs idle : List ℕ} {h x : ℕ}

theorem start (handlers : ℕ) (hne : handlers ≠ 0) (name : ℕ → String) :
    (Registry.start handlers hne name).Lists [] [] where
  ring := .nil (by simp [Registry.start]) (by simp [Registry.start])
  ne_zero := by simp
  self_linked := by simp
  fresh := by
    intro h hh _ _
    show Function.update (fun _ => 0) handlers handlers h = 0
    exact Function.update_of_ne hh ..

/-- The neighbours of a node of the list exist. -/
theorem links_ne_zero (hlist : r.Lists regs idle) (hx : x ∈ r.handlers :: regs) :
    r.n x ≠ 0 ∧ r.p x ≠ 0 := by
  have hne : ∀ y ∈ r.handlers :: regs, y ≠ 0 := by
    intro y hy
    rcases List.mem_cons.1 hy with rfl | hy
    · exact r.handlers_ne
    · exact hlist.ne_zero y hy
  exact ⟨hne _ (hlist.ring.next_mem hx), hne _ (hlist.ring.prev_mem hx)⟩

theorem ne_of_notMem {l : List ℕ} {a b : ℕ} (ha : a ∈ l) (hb : b ∉ l) : b ≠ a :=
  fun heq => hb (heq ▸ ha)

/-- A handler that is not in the list registers. -/
theorem register (hlist : r.Lists regs idle) (h0 : h ≠ 0) (hh : h ≠ r.handlers) (hx : h ∉ regs) :
    (r.added h).Lists (regs ++ [h]) (idle.filter fun x => x ≠ h) := by
  have hout : ∀ y, y ≠ r.handlers → y ∉ regs → y ≠ h →
      (r.added h).n y = r.n y ∧ (r.added h).p y = r.p y := by
    intro y hy hy' hyh
    have hmem := hlist.ring.prev_mem (List.mem_cons_self ..)
    have hlast : y ≠ r.p r.handlers := ne_of_notMem hmem (by simp [hy, hy'])
    refine ⟨?_, ?_⟩
    · exact (Function.update_of_ne hyh ..).trans (Function.update_of_ne hlast ..)
    · exact (Function.update_of_ne hy ..).trans (Function.update_of_ne hyh ..)
  refine ⟨hlist.ring.addLast (by simp [hh, hx]), ?_, ?_, ?_⟩
  · intro y hy
    rcases List.mem_append.1 hy with hy | hy
    · exact hlist.ne_zero y hy
    · rwa [List.mem_singleton.1 hy]
  · intro y hy
    obtain ⟨hmem, hyh⟩ := List.mem_filter.1 hy
    have hyh : y ≠ h := by simpa using hyh
    obtain ⟨hy0, hy, hy', hn, hp⟩ := hlist.self_linked y hmem
    obtain ⟨hn', hp'⟩ := hout y hy hy' hyh
    exact ⟨hy0, hy, by simp [hy', hyh], hn'.trans hn, hp'.trans hp⟩
  · intro y hy hy' hidle
    have hyh : y ≠ h := by simpa using fun heq : y = h => hy' (by simp [heq])
    have hreg : y ∉ regs := fun hmem => hy' (List.mem_append_left _ hmem)
    rw [(hout y hy hreg hyh).1]
    exact hlist.fresh y hy hreg fun hmem => hidle (List.mem_filter.2 ⟨hmem, by simpa using hyh⟩)

/-- A handler of the list is taken out. -/
theorem unregister (hlist : r.Lists regs idle) (hx : h ∈ regs) :
    (r.removed h).Lists (regs.erase h) (h :: idle) := by
  have hmem : h ∈ r.handlers :: regs := List.mem_cons_of_mem _ hx
  have hnodup := (List.nodup_cons.1 hlist.ring.nodup).2
  have hgone : h ∉ regs.erase h := hnodup.not_mem_erase
  have hout : ∀ y, y ≠ r.handlers → y ∉ regs →
      (r.removed h).n y = r.n y ∧ (r.removed h).p y = r.p y := by
    intro y hy hy'
    have hy : y ∉ r.handlers :: regs := by simp [hy, hy']
    have hyh : y ≠ h := ne_of_notMem hmem hy
    refine ⟨?_, ?_⟩
    · exact (Function.update_of_ne hyh ..).trans
        (Function.update_of_ne (ne_of_notMem (hlist.ring.prev_mem hmem) hy) ..)
    · exact (Function.update_of_ne hyh ..).trans
        (Function.update_of_ne (ne_of_notMem (hlist.ring.next_mem hmem) hy) ..)
  have hself : (r.removed h).n h = h ∧ (r.removed h).p h = h :=
    ⟨Function.update_self .., Function.update_self ..⟩
  refine ⟨?_, fun y hy => hlist.ne_zero y (List.mem_of_mem_erase hy), ?_, ?_⟩
  · -- the links of the node itself do not matter any more
    refine (hlist.ring.erase hx).congr (fun y hy => ?_) fun y hy => ?_ <;>
    · refine Function.update_of_ne ?_ ..
      rintro rfl
      rcases List.mem_cons.1 hy with heq | hy
      · exact hlist.ring.ne_head hx heq
      · exact hgone hy
  · intro y hy
    rcases List.mem_cons.1 hy with rfl | hy
    · exact ⟨hlist.ne_zero y hx, hlist.ring.ne_head hx, hgone, hself⟩
    · obtain ⟨hy0, hy, hy', hn, hp⟩ := hlist.self_linked y hy
      obtain ⟨hn', hp'⟩ := hout y hy hy'
      exact ⟨hy0, hy, fun hmem => hy' (List.mem_of_mem_erase hmem), hn'.trans hn, hp'.trans hp⟩
  · intro y hy hy' hidle
    have hyh : y ≠ h := fun heq => hidle (heq ▸ List.mem_cons_self ..)
    have hreg : y ∉ regs := fun hmem => hy' ((List.mem_erase_of_ne hyh).2 hmem)
    rw [(hout y hy hreg).1]
    exact hlist.fresh y hy hreg fun hmem => hidle (List.mem_cons_of_mem _ hmem)

/-- A handler that is not in the list any more is taken out again. -/
theorem removed_idle (hlist : r.Lists regs idle) (hx : h ∈ idle) : r.removed h = r := by
  obtain ⟨-, -, -, hn, hp⟩ := hlist.self_linked h hx
  have hn' : Function.update r.n h h = r.n := Function.update_eq_self_iff.2 hn.symm
  have hp' : Function.update r.p h h = r.p := Function.update_eq_self_iff.2 hp.symm
  simp only [Registry.removed, hn, hp, hn', hp']

theorem returns_unregister_idle (hlist : r.Lists regs idle) (hx : h ∈ idle) :
    (handlerUnregister h).Returns r r () := by
  obtain ⟨h0, -, -, hn, hp⟩ := hlist.self_linked h hx
  have hret := returns_handlerUnregister h0 (hn.symm ▸ h0) (hp.symm ▸ h0)
  rwa [hlist.removed_idle hx] at hret

theorem returns_unregister (hlist : r.Lists regs idle) (hx : h ∈ regs) :
    (handlerUnregister h).Returns r (r.removed h) () := by
  obtain ⟨hn, hp⟩ := hlist.links_ne_zero (List.mem_cons_of_mem _ hx)
  exact returns_handlerUnregister (hlist.ne_zero h hx) hn hp

/-- A handler that has left the list stays as it is when it is taken out once more. -/
theorem unregister_idle (hlist : r.Lists regs idle) (hx : h ∈ idle) :
    r.Lists (regs.erase h) (h :: idle) := by
  have hgone := (hlist.self_linked h hx).2.2.1
  rw [List.erase_of_not_mem hgone]
  refine ⟨hlist.ring, hlist.ne_zero, fun y hy => ?_, fun y hy hy' hidle => ?_⟩
  · rcases List.mem_cons.1 hy with rfl | hy
    · exact hlist.self_linked y hx
    · exact hlist.self_linked y hy
  · exact hlist.fresh y hy hy' fun hmem => hidle (List.mem_cons_of_mem _ hmem)

/-- Looking up a name. -/
theorem returns_get (hlist : r.Lists regs idle) (s : String) :
    (handlerGet s).Returns r r (firstNamed r.name regs s) :=
  returns_handlerGet hlist.ring.path fun x hx => ⟨hlist.ne_zero x hx, hlist.ring.ne_head hx⟩

end Registry.Lists

/-! ## What one call preserves -/

section Steps

variable {c c' : RConfig} {a : RCall} {handlers : ℕ} {hne : handlers ≠ 0} {name : ℕ → String}

/-- The configuration after a proper call. -/
theorem RStep.lists (hlist : c.reg.Lists c.regs c.idle) (hproper : Proper c a)
    (hstep : RStep c a c') :
    c'.reg.Lists c'.regs c'.idle ∧ c'.reg.name = c.reg.name ∧
      c'.reg.handlers = c.reg.handlers := by
  cases hstep with
  | @register r h hret =>
    obtain ⟨h0, hh, hx⟩ := hproper
    have hlast := (hlist.links_ne_zero (List.mem_cons_self ..)).2
    obtain ⟨rfl, -⟩ := Prog.returns_unique hret (returns_handlerRegister h0 hh hlast)
    exact ⟨hlist.register h0 hh hx, rfl, rfl⟩
  | @unregister r h hret =>
    rcases hproper with hx | hx
    · obtain ⟨rfl, -⟩ := Prog.returns_unique hret (hlist.returns_unregister hx)
      exact ⟨hlist.unregister hx, rfl, rfl⟩
    · obtain ⟨rfl, -⟩ := Prog.returns_unique hret (hlist.returns_unregister_idle hx)
      exact ⟨hlist.unregister_idle hx, rfl, rfl⟩

/-- Nothing that is proper is refused. -/
theorem exists_rstep (hlist : c.reg.Lists c.regs c.idle) (hproper : Proper c a) :
    ∃ c', RStep c a c' := by
  cases a with
  | register h =>
    obtain ⟨h0, hh, -⟩ := hproper
    have hlast := (hlist.links_ne_zero (List.mem_cons_self ..)).2
    exact ⟨_, .register (returns_handlerRegister h0 hh hlast)⟩
  | unregister h =>
    rcases hproper with hx | hx
    · exact ⟨_, .unregister (hlist.returns_unregister hx)⟩
    · exact ⟨_, .unregister (hlist.returns_unregister_idle hx)⟩

/-- In a proper run the list is the sequence of registered handlers. -/
theorem reach_lists (hreach : Runs.Reach RStep Proper (RConfig.start handlers hne name) c) :
    c.reg.Lists c.regs c.idle ∧ c.reg.name = name := by
  refine hreach.invariant (I := fun c => c.reg.Lists c.regs c.idle ∧ c.reg.name = name)
    ⟨.start handlers hne name, rfl⟩ fun c a c' hI hproper hstep => ?_
  obtain ⟨hlist, hname, -⟩ := hstep.lists hI.1 hproper
  exact ⟨hlist, hname.trans hI.2⟩

end Steps

/-! ## The list over whole runs -/

section Main

variable {c : RConfig} {handlers : ℕ} {hne : handlers ≠ 0} {name : ℕ → String}

/-- In a proper run the list is the sequence of registered handlers: a lookup returns the first of
them with the name, or `NULL`. Every proper call returns; to take out a handler that has left the
list changes nothing, and to take out one that has never been in it is an access through `NULL`. -/
theorem registry_refines
    (hreach : Runs.Reach RStep Proper (RConfig.start handlers hne name) c) :
    c.regs.Nodup ∧
      (∀ s, (handlerGet s).Returns c.reg c.reg (firstNamed name c.regs s)) ∧
      (∀ a, Proper c a → ∃ c', RStep c a c') ∧
      (∀ h ∈ c.idle, (handlerUnregister h).Returns c.reg c.reg ()) ∧
      ∀ h, h ≠ c.reg.handlers → h ∉ c.regs → h ∉ c.idle →
        (handlerUnregister h).Aborts c.reg c.reg := by
  obtain ⟨hlist, rfl⟩ := reach_lists hreach
  refine ⟨(List.nodup_cons.1 hlist.ring.nodup).2, hlist.returns_get,
    fun _ hproper => exists_rstep hlist hproper, fun _ hx => hlist.returns_unregister_idle hx, ?_⟩
  exact fun h hh hx hidle => aborts_handlerUnregister (hlist.fresh h hh hx hidle)

/-- The handler at `2` has registered as `"buddy"`, and then the one at `3` as `"mmap"`. -/
def twoHandlers : RConfig :=
  ⟨((Registry.start 1 Nat.one_ne_zero fun h => if h = 2 then "buddy" else "mmap").added 2).added 3,
    [2, 3], []⟩

theorem reach_twoHandlers :
    Runs.Reach RStep Proper
      (RConfig.start 1 Nat.one_ne_zero fun h => if h = 2 then "buddy" else "mmap") twoHandlers := by
  have hfirst : Proper (RConfig.start 1 Nat.one_ne_zero fun h => if h = 2 then "buddy" else "mmap")
      (.register 2) := by decide
  refine .step (.step .start hfirst (.register (returns_handlerRegister ?_ ?_ ?_)))
    (show Proper _ (.register 3) by decide) (.register (returns_handlerRegister ?_ ?_ ?_)) <;>
    decide

theorem registry_refines_two :
    (handlerGet "mmap").Returns twoHandlers.reg twoHandlers.reg 3 ∧
      (handlerGet "ram").Returns twoHandlers.reg twoHandlers.reg 0 :=
  ⟨(registry_refines reach_twoHandlers).2.1 "mmap", (registry_refines reach_twoHandlers).2.1 "ram"⟩

/-- In a proper run, a handler `h` that is registered once more cuts off the handlers `ys` behind
it: a lookup returns the first one with the name among the others. Once `h` has then been taken out,
a lookup still finds the first one with the name among those, but if there is none, it never
returns. -/
theorem register_again {h : ℕ} {xs ys : List ℕ}
    (hreach : Runs.Reach RStep Proper (RConfig.start handlers hne name) c)
    (hregs : c.regs = xs ++ h :: ys) :
    ∃ r₁ r₂, (handlerRegister h).Returns c.reg r₁ () ∧ (handlerUnregister h).Returns r₁ r₂ () ∧
      ∀ s, (handlerGet s).Returns r₁ r₁ (firstNamed name (xs ++ [h]) s) ∧
        ((∃ x ∈ xs ++ [h], name x = s) →
          (handlerGet s).Returns r₂ r₂ (firstNamed name (xs ++ [h]) s)) ∧
        ((∀ x ∈ xs ++ [h], name x ≠ s) → ∀ r' x, ¬ (handlerGet s).Returns r₂ r' x) := by
  obtain ⟨hlist, rfl⟩ := reach_lists hreach
  have hring := hlist.ring
  rw [hregs] at hring
  have hmem : h ∈ c.regs := by simp [hregs]
  have h0 := hlist.ne_zero h hmem
  have hh := hlist.ring.ne_head hmem
  have hlast := (hlist.links_ne_zero (List.mem_cons_self ..)).2
  have hl : ∀ x ∈ xs ++ [h], x ≠ 0 ∧ x ≠ c.reg.handlers := by
    intro x hx
    have hx : x ∈ c.regs := by
      rw [hregs, List.append_cons]
      exact List.mem_append_left _ hx
    exact ⟨hlist.ne_zero x hx, hlist.ring.ne_head hx⟩
  -- the node is linked to the head, and back to the node that was the last one
  have hn : (c.reg.added h).n h = c.reg.handlers := Function.update_self ..
  have hp : (c.reg.added h).p h = c.reg.p c.reg.handlers :=
    (Function.update_of_ne hh ..).trans (Function.update_self ..)
  have hadd := returns_handlerRegister h0 hh hlast
  have hdel : (handlerUnregister h).Returns (c.reg.added h) ((c.reg.added h).removed h) () :=
    returns_handlerUnregister h0 (hn.symm ▸ c.reg.handlers_ne) (hp.symm ▸ hlast)
  -- then it is linked to itself, and the way to it is what it was
  have hself : ((c.reg.added h).removed h).n h = h := Function.update_self ..
  have hfront : Links.Path ((c.reg.added h).removed h).n
      (((c.reg.added h).removed h).n c.reg.handlers) xs h := by
    refine hring.path_front fun y hy => ?_
    have hyh : y ≠ h := fun heq => hring.notMem_front (heq ▸ hy)
    have hyt : y ≠ c.reg.p c.reg.handlers := fun heq => hring.prev_head_notMem (heq ▸ hy)
    have hstep : ((c.reg.added h).removed h).n y = (c.reg.added h).n y := by
      refine (Function.update_of_ne hyh ..).trans (Function.update_of_ne ?_ ..)
      rwa [hp]
    rw [hstep]
    exact (Function.update_of_ne hyh ..).trans (Function.update_of_ne hyt ..)
  refine ⟨_, _, hadd, hdel, fun s => ⟨?_, fun hex => ?_, fun hnone r' x => ?_⟩⟩
  · exact returns_handlerGet (r := c.reg.added h) hring.path_addLast_again hl
  · exact returns_handlerGet_found (r := (c.reg.added h).removed h)
      (Links.Path.append_singleton_iff.2 ⟨hfront, hself⟩) hl hex
  · refine not_returns_handlerGet (r := (c.reg.added h).removed h) hfront (fun y hy => ?_) h0 hh
      (hnone h (by simp)) hself
    have hy := List.mem_append_left [h] hy
    exact ⟨(hl y hy).1, (hl y hy).2, hnone y hy⟩

/-- The first handler is registered again and taken out, and a lookup of the other one hangs. -/
theorem register_again_two :
    ∃ r₁ r₂, (handlerRegister 2).Returns twoHandlers.reg r₁ () ∧
      (handlerUnregister 2).Returns r₁ r₂ () ∧
      ∀ r' x, ¬ (handlerGet "mmap").Returns r₂ r' x := by
  have hregs : twoHandlers.regs = [] ++ 2 :: [3] := rfl
  obtain ⟨r₁, r₂, hadd, hdel, hget⟩ := register_again reach_twoHandlers hregs
  exact ⟨r₁, r₂, hadd, hdel, (hget "mmap").2.2 (by decide)⟩

end Main

end Zalloc
