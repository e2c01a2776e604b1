import Zalloc.Library.Registry
import Zalloc.Library.Realloc

/-!
# The library in a process

`init_` registers the handler of the buddy allocator when it succeeds, and the destructor of
`buddy_alloc.c` gives the mapping back. `isInit` stays set in the destructor, so nothing that is
called afterwards builds another tree.

## Main definitions

* `buddyHandlerDeinit`: the destructor.
* `Process`: the state of the library, the list of handlers and `isDeinit`.
* `PStep h p a p'`: a call of the library, a call of another handler, or the destructor; `h` is the
  handler of the buddy allocator.

## Main results

* `handler_get_buddy`: in every run the handler is in the list once initialisation has succeeded,
  and only once, and a lookup finds it.
* `deinit_final`: after the destructor of an initialised library the handler is still found, but in
  every run from there each request is refused, and no byte of a live block can be accessed.
-/

set_option autoImplicit false

namespace Zalloc

/-! ## The destructor -/

/-- `munmap`, which refuses an address that is not that of a page. -/
def munmap (addr len : ℕ) (st : Lib) : Lib :=
  if pageSize ∣ addr then { st with mem := st.mem.unmap addr len } else st

/-- `__buddy_handler_deinit`, with the value of `isDeinit`; `buddy_delete` does nothing in the
library build, and the descriptor that is closed is not used again. -/
def buddyHandlerDeinit (st : Lib) (isDeinit : Bool) : Lib × Bool :=
  if isDeinit then (st, isDeinit)
  else ({ munmap st.memblock mapSize st with buddy := none }, true)

/-! ## Runs -/

/-- The state of a process. -/
structure Process where
  /-- The library, with the live pointers. -/
  lib : LConfig
  /-- The list of handlers. -/
  reg : RConfig
  /-- `isDeinit`. -/
  isDeinit : Bool

/-- Before the constructors run. -/
def Process.start (mem : Memory) (handlers : ℕ) (hne : handlers ≠ 0) (name : ℕ → String) :
    Process :=
  ⟨⟨.start mem, []⟩, .start handlers hne name, false⟩

/-- After the destructor. -/
def Process.deinit (p : Process) : Process :=
  let (lib, isDeinit) := buddyHandlerDeinit p.lib.lib p.isDeinit
  ⟨⟨lib, p.lib.live⟩, p.reg, isDeinit⟩

/-- What happens in a process. -/
inductive PCall where
  /-- A call of the library, or a write of the program. -/
  | call (a : Call)
  /-- Another handler registers or its registration is revoked. -/
  | handler (a : RCall)
  /-- The destructor. -/
  | deinit

/-- `init_` registers the handler `h` when it sets `isInit`. -/
def Registers (h : ℕ) (st st' : Lib) (reg reg' : RConfig) : Prop :=
  if st.isInit = false ∧ st'.isInit = true then RStep reg (.register h) reg' else reg' = reg

/-- What happens, when it returns. -/
inductive PStep (h : ℕ) : Process → PCall → Process → Prop
  /-- A call of the library. -/
  | call {p : Process} {a : Call} {c : LConfig} {r : RConfig} (hs : LStep p.lib a c)
      (hr : Registers h p.lib.lib c.lib p.reg r) : PStep h p (.call a) ⟨c, r, p.isDeinit⟩
  /-- A call of `handler.c`. -/
  | handler {p : Process} {a : RCall} {r : RConfig} (hs : RStep p.reg a r) :
      PStep h p (.handler a) ⟨p.lib, r, p.isDeinit⟩
  /-- The destructor. -/
  | deinit {p : Process} : PStep h p .deinit p.deinit

/-- The other handlers use the list as they should, and their names are others. -/
def Others (h : ℕ) (p : Process) : PCall → Prop
  | .call _ => True
  | .handler a =>
    Proper p.reg a ∧ a ≠ .unregister h ∧ ∀ x, a = .register x → x ≠ h ∧ p.reg.reg.name x ≠ "buddy"
  | .deinit => True

/-! ## Calls without a tree -/

section Entry

variable {o : Outcome} {st l : Lib} {s r n ptr : ℕ}

theorem returns_buddyXmalloc_none (hb : (init_ o st).buddy = none) :
    (buddyXmalloc o s).Returns st l r ↔ l = init_ o st ∧ r = 0 := by
  simp [buddyXmalloc, Prog.returns_bind_iff, hb]

theorem returns_buddyXfree_none (hb : (init_ o st).buddy = none) :
    (buddyXfree o ptr).Returns st l () ↔ l = init_ o st := by
  simp [buddyXfree, Prog.returns_bind_iff, hb]

theorem returns_buddyGetSize_none (hb : (init_ o st).buddy = none) :
    (buddyGetSize o ptr).Returns st l n ↔ l = init_ o st ∧ n = 0 := by
  simp [buddyGetSize, Prog.returns_bind_iff, hb]

/-- An entry point is `init_` and a change of the tree. -/
theorem exists_of_buddyXmalloc (hret : (buddyXmalloc o s).Returns st l r) :
    ∃ b, l = { init_ o st with buddy := b } := by
  cases hb : (init_ o st).buddy with
  | none => exact ⟨none, by rw [((returns_buddyXmalloc_none hb).1 hret).1, ← hb]⟩
  | some b =>
    obtain ⟨m, pos, -, rfl, -⟩ := (returns_buddyXmalloc_iff hb).1 hret
    exact ⟨_, rfl⟩

theorem exists_of_buddyXfree (hret : (buddyXfree o ptr).Returns st l ()) :
    ∃ b, l = { init_ o st with buddy := b } := by
  cases hb : (init_ o st).buddy with
  | none => exact ⟨none, by rw [(returns_buddyXfree_none hb).1 hret, ← hb]⟩
  | some b =>
    obtain ⟨-, m, -, rfl⟩ := (returns_buddyXfree_iff hb).1 hret
    exact ⟨_, rfl⟩

theorem exists_of_buddyGetSize (hret : (buddyGetSize o ptr).Returns st l n) :
    ∃ b, l = { init_ o st with buddy := b } := by
  cases hb : (init_ o st).buddy with
  | none => exact ⟨none, by rw [((returns_buddyGetSize_none hb).1 hret).1, ← hb]⟩
  | some b =>
    obtain ⟨m, -, rfl⟩ := (returns_buddyGetSize_iff hb).1 hret
    exact ⟨_, rfl⟩

/-- What `init_` keeps, whatever the tree and the bytes are, is kept by every call. -/
theorem LStep.keeps {I : Lib → Prop} {c c' : LConfig} {a : Call} (hs : LStep c a c')
    (hinit : ∀ o st, I st → I (init_ o st))
    (hset : ∀ (st : Lib) b mem, I st → I { st with buddy := b, mem }) (h : I c.lib) :
    I c'.lib := by
  have hentry : ∀ {o st b}, I st → I { init_ o st with buddy := b } := fun hst =>
    hset _ _ _ (hinit _ _ hst)
  cases hs with
  | init => exact hinit _ _ h
  | malloc hret =>
    obtain ⟨b, rfl⟩ := exists_of_buddyXmalloc hret
    exact hentry h
  | calloc hret =>
    obtain ⟨l, hxm, -, rfl⟩ := returns_calloc_iff.1 hret
    obtain ⟨b, rfl⟩ := exists_of_buddyXmalloc hxm
    exact hset _ _ _ (hentry (b := b) h)
  | free hp hret =>
    obtain ⟨b, rfl⟩ := exists_of_buddyXfree hret
    exact hentry h
  | getSize hret =>
    obtain ⟨b, rfl⟩ := exists_of_buddyGetSize hret
    exact hentry h
  | realloc hp hret =>
    obtain ⟨l₁, hxm, hrest⟩ := returns_realloc_iff.1 hret
    obtain ⟨b₁, rfl⟩ := exists_of_buddyXmalloc hxm
    split_ifs at hrest with hcopy
    · -- the size is asked for, the bytes are copied, and the old block is given back
      obtain ⟨l₂, n, hsize, -, hfree⟩ := hrest
      obtain ⟨b₂, rfl⟩ := exists_of_buddyGetSize hsize
      obtain ⟨b₃, rfl⟩ := exists_of_buddyXfree hfree
      exact hentry (hset _ _ _ (hentry (b := b₂) (hentry (b := b₁) h)))
    · rw [hrest]
      exact hentry h
  | write => exact hset _ _ _ h

/-- `isInit` stays set. -/
theorem LStep.isInit {c c' : LConfig} {a : Call} (hs : LStep c a c') (h : c.lib.isInit = true) :
    c'.lib.isInit = true :=
  hs.keeps (I := fun st => st.isInit = true) (fun o st h => by rwa [init_of_isInit h])
    (fun _ _ _ h => h) h

/-- A mapping that has been established is that of a page. -/
theorem LStep.aligned {c c' : LConfig} {a : Call} (hs : LStep c a c')
    (h : c.lib.isInit = true → pageSize ∣ c.lib.memblock) :
    c'.lib.isInit = true → pageSize ∣ c'.lib.memblock := by
  refine hs.keeps (I := fun st => st.isInit = true → pageSize ∣ st.memblock) (fun o st h => ?_)
    (fun _ _ _ h => h) h
  intro hset
  by_cases hinit : st.isInit = true
  · rw [init_of_isInit hinit]
    exact h hinit
  · have hbody : init_ o st = initBody o st := by rw [init_, if_neg hinit]
    rw [hbody] at hset ⊢
    -- `isInit` is only set once there is a mapping
    by_cases hreach : ReachesMmap o st
    · cases hm : o.mapping with
      | none => exact absurd ((initBody_of_none hreach hm).symm.trans hset) hinit
      | some m =>
        rw [(initBody_of_mapping hreach hm).1]
        exact m.aligned
    · exact absurd ((initBody_of_not_reaches hreach).2.symm.trans hset) hinit

end Entry

/-! ## The handler of the buddy allocator -/

section Handler

variable {h : ℕ} {p p' : Process} {a : PCall} {mem : Memory} {handlers : ℕ} {hne : handlers ≠ 0}
  {name : ℕ → String}

/-- What is known of the handler: it exists, it is not the head of the list, and it has its name. -/
structure IsHandler (h handlers : ℕ) (name : ℕ → String) : Prop where
  /-- The handler has an address. -/
  ne_zero : h ≠ 0
  /-- It is not the variable `handlers`. -/
  ne_handlers : h ≠ handlers
  /-- Its name. -/
  name_eq : name h = "buddy"

/-- The list of handlers is as it should be, and holds the handler of the buddy allocator when the
library has been initialised. -/
structure Process.Registered (h : ℕ) (p : Process) : Prop where
  /-- The handler. -/
  handler : IsHandler h p.reg.reg.handlers p.reg.reg.name
  /-- The list. -/
  lists : p.reg.reg.Lists p.reg.regs p.reg.idle
  /-- The handler is in it once initialisation has succeeded. -/
  mem_iff : h ∈ p.reg.regs ↔ p.lib.lib.isInit = true
  /-- It is the only one with its name. -/
  unique : ∀ x ∈ p.reg.regs, p.reg.reg.name x = "buddy" → x = h

namespace Process.Registered

/-- `init_` registers the handler while it is not in the list. -/
theorem proper (hreg : p.Registered h) (hinit : p.lib.lib.isInit = false) :
    Proper p.reg (.register h) := by
  refine ⟨hreg.handler.ne_zero, hreg.handler.ne_handlers, ?_⟩
  rw [hreg.mem_iff, hinit]
  exact Bool.false_ne_true

/-- The registration is never refused. -/
theorem exists_registers (hreg : p.Registered h) (st : Lib) :
    ∃ r, Registers h p.lib.lib st p.reg r := by
  by_cases hset : p.lib.lib.isInit = false ∧ st.isInit = true
  · obtain ⟨r, hr⟩ := exists_rstep hreg.lists (hreg.proper hset.1)
    exact ⟨r, by rwa [Registers, if_pos hset]⟩
  · exact ⟨p.reg, by rw [Registers, if_neg hset]⟩

/-- The call in which `isInit` is set registers the handler. -/
theorem registers {st : Lib} {r : RConfig} (hreg : p.Registered h)
    (hmono : p.lib.lib.isInit = true → st.isInit = true)
    (hr : Registers h p.lib.lib st p.reg r) :
    Process.Registered h ⟨⟨st, p.lib.live⟩, r, p.isDeinit⟩ := by
  rw [Registers] at hr
  split_ifs at hr with hset
  · have hproper := hreg.proper hset.1
    obtain ⟨hlist, hname, hhead⟩ := hr.lists hreg.lists hproper
    have hregs : r.regs = p.reg.regs ++ [h] := by
      cases hr
      rfl
    refine ⟨?_, hlist, ?_, ?_⟩
    · rw [hname, hhead]
      exact hreg.handler
    · simp [hregs, hset.2]
    · intro x hx hx'
      rw [hregs] at hx
      rw [hname] at hx'
      rcases List.mem_append.1 hx with hx | hx
      · exact hreg.unique x hx hx'
      · exact List.mem_singleton.1 hx
  · rw [hr]
    refine ⟨hreg.handler, hreg.lists, ?_, hreg.unique⟩
    have hsame : p.lib.lib.isInit = true ↔ st.isInit = true := by
      refine ⟨hmono, fun hst => ?_⟩
      by_contra hno
      exact hset ⟨Bool.eq_false_iff.2 hno, hst⟩
    rw [hreg.mem_iff, hsame]

/-- Another handler registers or is taken out. -/
theorem other {act : RCall} {r : RConfig} (hreg : p.Registered h)
    (hothers : Others h p (.handler act)) (hs : RStep p.reg act r) :
    Process.Registered h ⟨p.lib, r, p.isDeinit⟩ := by
  obtain ⟨hproper, hkeep, hname'⟩ := hothers
  obtain ⟨hlist, hname, hhead⟩ := hs.lists hreg.lists hproper
  refine ⟨by rw [hname, hhead]; exact hreg.handler, hlist, ?_, ?_⟩
  · rw [← hreg.mem_iff]
    cases hs with
    | @register _ x _ =>
      have hx := (hname' x rfl).1
      simp [hx.symm]
    | @unregister _ x _ =>
      have hx : h ≠ x := fun heq => hkeep (by rw [heq])
      exact List.mem_erase_of_ne hx
  · intro y hy hy'
    rw [hname] at hy'
    cases hs with
    | @register _ x _ =>
      rcases List.mem_append.1 hy with hy | hy
      · exact hreg.unique y hy hy'
      · rw [List.mem_singleton.1 hy] at hy'
        exact absurd hy' (hname' x rfl).2
    | unregister => exact hreg.unique y (List.mem_of_mem_erase hy) hy'

/-- Whatever happens keeps the invariant. -/
theorem step (hreg : p.Registered h) (hothers : Others h p a) (hs : PStep h p a p') :
    p'.Registered h := by
  cases hs with
  | call hs hr =>
    have hset := hreg.registers hs.isInit hr
    exact ⟨hset.handler, hset.lists, hset.mem_iff, hset.unique⟩
  | handler hs => exact hreg.other hothers hs
  | deinit =>
    have hsame : p.deinit.lib.lib.isInit = p.lib.lib.isInit := by
      simp only [Process.deinit, buddyHandlerDeinit, munmap]
      split_ifs <;> rfl
    exact ⟨hreg.handler, hreg.lists, hreg.mem_iff.trans (by rw [hsame]), hreg.unique⟩

/-- A lookup of the handler. -/
theorem returns_get (hreg : p.Registered h) :
    (handlerGet "buddy").Returns p.reg.reg p.reg.reg (if p.lib.lib.isInit then h else 0) := by
  have hget := hreg.lists.returns_get "buddy"
  convert hget using 1
  by_cases hinit : p.lib.lib.isInit = true
  · rw [if_pos hinit]
    have hmem := hreg.mem_iff.2 hinit
    have hsome : (p.reg.regs.find? fun x => p.reg.reg.name x = "buddy").isSome := by
      rw [List.find?_isSome]
      exact ⟨h, hmem, by simpa using hreg.handler.name_eq⟩
    obtain ⟨x, hx⟩ := Option.isSome_iff_exists.1 hsome
    have hname := List.find?_some hx
    rw [firstNamed, hx, Option.getD_some]
    exact (hreg.unique x (List.mem_of_find?_eq_some hx) (by simpa using hname)).symm
  · rw [if_neg hinit, firstNamed]
    have hnone : p.reg.regs.find? (fun x => p.reg.reg.name x = "buddy") = none := by
      refine List.find?_eq_none.2 fun x hx hx' => hinit ?_
      rw [hreg.unique x hx (by simpa using hx')] at hx
      exact hreg.mem_iff.1 hx
    rw [hnone, Option.getD_none]

end Process.Registered

/-- Every run keeps the invariant. -/
theorem reach_registered (hh : IsHandler h handlers name)
    (hreach : Runs.Reach (PStep h) (Others h) (Process.start mem handlers hne name) p) :
    p.Registered h :=
  hreach.invariant (I := Process.Registered h)
    ⟨hh, .start handlers hne name, by simp [Process.start, RConfig.start, Lib.start],
      by simp [Process.start, RConfig.start]⟩
    fun _ _ _ hreg hothers hs => hreg.step hothers hs

/-- In every run in which the other handlers use the list as they should, the handler of the buddy
allocator is in the list once initialisation has succeeded, and only once, and a lookup of its name
finds it; before that it is not found. Its registration never keeps a call from returning. -/
theorem handler_get_buddy (hh : IsHandler h handlers name)
    (hreach : Runs.Reach (PStep h) (Others h) (Process.start mem handlers hne name) p) :
    (handlerGet "buddy").Returns p.reg.reg p.reg.reg (if p.lib.lib.isInit then h else 0) ∧
      p.reg.regs.count h = (if p.lib.lib.isInit then 1 else 0) ∧
      ∀ a c, LStep p.lib a c → ∃ p', PStep h p (.call a) p' ∧ p'.lib = c := by
  have hreg := reach_registered hh hreach
  refine ⟨hreg.returns_get, ?_, fun a c hs => ?_⟩
  · have hnodup := (List.nodup_cons.1 hreg.lists.ring.nodup).2
    rw [hnodup.count]
    simp only [hreg.mem_iff]
  · obtain ⟨r, hr⟩ := hreg.exists_registers c.lib
    exact ⟨_, .call hs hr, rfl⟩

end Handler

/-! ## After the destructor -/

/-- There is no tree any more, none will be built, and the live blocks are not mapped. -/
structure Closed (c : LConfig) : Prop where
  /-- `isInit` is still set. -/
  isInit : c.lib.isInit = true
  /-- There is no tree. -/
  buddy : c.lib.buddy = none
  /-- The live blocks are gone. -/
  unmapped : ∀ x ∈ c.live, ∀ i < pageSize * x.pages, c.lib.mem (x.addr + i) = none

section Closed

variable {c c' : LConfig} {base : ℕ} {o o₂ o₃ : Outcome} {s num ptr : ℕ}

namespace Closed

theorem init_eq (h : Closed c) (o : Outcome) : init_ o c.lib = c.lib := init_of_isInit h.isInit o

theorem init_buddy (h : Closed c) (o : Outcome) : (init_ o c.lib).buddy = none := by
  rw [h.init_eq, h.buddy]

/-- A request is refused. -/
theorem malloc (h : Closed c) (o : Outcome) (s : ℕ) :
    (buddyXmalloc o s).Returns c.lib c.lib 0 :=
  (returns_buddyXmalloc_none (h.init_buddy o)).2 ⟨(h.init_eq o).symm, rfl⟩

theorem free (h : Closed c) (o : Outcome) (ptr : ℕ) :
    (Zalloc.free o ptr).Returns c.lib c.lib () := by
  rw [Zalloc.free]
  split_ifs
  · exact Prog.returns_pure ..
  · exact (returns_buddyXfree_none (h.init_buddy o)).2 (h.init_eq o).symm

theorem getSize (h : Closed c) (o : Outcome) (ptr : ℕ) :
    (buddyGetSize o ptr).Returns c.lib c.lib 0 :=
  (returns_buddyGetSize_none (h.init_buddy o)).2 ⟨(h.init_eq o).symm, rfl⟩

/-- A reallocation is refused, and the old block stays what it is. -/
theorem realloc (h : Closed c) (o o₂ o₃ : Outcome) (ptr s : ℕ) :
    (Zalloc.realloc o o₂ o₃ ptr s).Returns c.lib c.lib 0 :=
  returns_realloc_iff.2 ⟨c.lib, h.malloc o s, by rw [if_neg (by simp)]⟩

/-- `calloc` sets the bytes at `NULL`. -/
theorem returns_calloc (h : Closed c) (o : Outcome) (num s : ℕ) :
    (∃ l r, (calloc o num s).Returns c.lib l r) ↔ c.lib.mem.Mapped 0 (u64 (num * s)) := by
  constructor
  · rintro ⟨l, r, hret⟩
    obtain ⟨l₁, hxm, hmapped, -⟩ := returns_calloc_iff.1 hret
    obtain ⟨rfl, rfl⟩ := Prog.returns_unique hxm (h.malloc o _)
    exact hmapped
  · exact fun hmapped => ⟨_, _, returns_calloc_iff.2 ⟨c.lib, h.malloc o _, hmapped, rfl⟩⟩

/-- Every call leaves it so. -/
theorem step {a : Call} (h : Closed c) (hs : LStep c a c') : Closed c' := by
  cases hs with
  | init =>
    rw [h.init_eq]
    exact h
  | malloc hret =>
    obtain ⟨rfl, rfl⟩ := Prog.returns_unique hret (h.malloc ..)
    exact h
  | calloc hret =>
    obtain ⟨l, hxm, hmapped, rfl⟩ := returns_calloc_iff.1 hret
    obtain ⟨rfl, rfl⟩ := Prog.returns_unique hxm (h.malloc ..)
    -- what can be set is mapped
    exact ⟨h.isInit, h.buddy, fun x hx i hi => Memory.fill_eq_none (h.unmapped x hx i hi) hmapped⟩
  | free hp hret =>
    obtain rfl := (returns_buddyXfree_none (h.init_buddy _)).1 hret
    rw [h.init_eq]
    exact ⟨h.isInit, h.buddy, fun x hx => h.unmapped x (List.mem_of_mem_filter hx)⟩
  | getSize hret =>
    obtain ⟨rfl, rfl⟩ := Prog.returns_unique hret (h.getSize ..)
    exact h
  | realloc hp hret =>
    obtain ⟨rfl, rfl⟩ := Prog.returns_unique hret (h.realloc ..)
    exact h
  | @write p addr value hp hlo hhi hmapped =>
    refine ⟨h.isInit, h.buddy, fun x hx i hi => ?_⟩
    have hnone := h.unmapped x hx i hi
    refine (Function.update_of_ne ?_ ..).trans hnone
    rintro rfl
    rw [hnone] at hmapped
    cases hmapped

end Closed

/-- The destructor gives the mapping back, and with it all live blocks. -/
theorem closed_deinit {p : Process} (hready : IsReady base p.lib)
    (haligned : pageSize ∣ p.lib.lib.memblock) (hfirst : p.isDeinit = false) :
    Closed p.deinit.lib ∧ p.deinit.isDeinit = true := by
  obtain ⟨b, blocks, t, h⟩ := hready
  have hdeinit : p.deinit = ⟨⟨{ p.lib.lib with
      mem := p.lib.lib.mem.unmap p.lib.lib.memblock mapSize
      buddy := none }, p.lib.live⟩, p.reg, true⟩ := by
    simp only [Process.deinit, buddyHandlerDeinit, munmap, hfirst, if_pos haligned]
    rfl
  rw [hdeinit]
  refine ⟨⟨h.isInit, rfl, fun x hx i hi => ?_⟩, rfl⟩
  rw [h.live] at hx
  obtain ⟨y, hy, rfl⟩ := List.mem_map.1 hx
  have hstop := h.stop_le hy
  rw [Block.stop] at hstop
  refine Memory.unmap_of_mem ?_ ?_
  · rw [h.memblock]
    simp only [handed]
    omega
  · rw [h.memblock]
    simp only [handed, mapSize, buddyLevel] at hi ⊢
    omega

/-- A destructor that has run once does nothing. -/
theorem deinit_of_isDeinit {p : Process} (h : p.isDeinit = true) : p.deinit = p := by
  simp only [Process.deinit, buddyHandlerDeinit, if_pos h]

variable {h : ℕ} {p q : Process} {mem : Memory} {handlers : ℕ} {hne : handlers ≠ 0}
  {name : ℕ → String}

/-- The destructor is final for a library that is ready, in a process in which the other handlers
use the list as they should. In every run from there the handler of the buddy allocator is still
found, but each request is refused, sizes are `0`, releases do nothing, and `calloc` does not come
back unless the bytes at `NULL` can be set. No byte of a live block is mapped. -/
theorem deinit_final (hh : IsHandler h handlers name)
    (hreach : Runs.Reach (PStep h) (Others h) (Process.start mem handlers hne name) p)
    (hready : IsReady base p.lib) (hfirst : p.isDeinit = false)
    (hreach' : Runs.Reach (PStep h) (Others h) p.deinit q) :
    (handlerGet "buddy").Returns q.reg.reg q.reg.reg h ∧
      (∀ x ∈ q.lib.live, ∀ i < pageSize * x.pages, q.lib.lib.mem (x.addr + i) = none) ∧
      (∀ o s, (malloc o s).Returns q.lib.lib q.lib.lib 0) ∧
      (∀ o₁ o₂ o₃ ptr s, (realloc o₁ o₂ o₃ ptr s).Returns q.lib.lib q.lib.lib 0) ∧
      (∀ o ptr, (free o ptr).Returns q.lib.lib q.lib.lib ()) ∧
      (∀ o ptr, (buddyGetSize o ptr).Returns q.lib.lib q.lib.lib 0) ∧
      ∀ o num s, (∃ l r, (calloc o num s).Returns q.lib.lib l r) ↔
        q.lib.lib.mem.Mapped 0 (u64 (num * s)) := by
  have haligned : p.lib.lib.isInit = true → pageSize ∣ p.lib.lib.memblock := by
    refine hreach.invariant (I := fun p => p.lib.lib.isInit = true → pageSize ∣ p.lib.lib.memblock)
      (fun hinit => by cases hinit) fun p a p' hI _ hs => ?_
    cases hs with
    | call hs _ => exact hs.aligned hI
    | handler => exact hI
    | deinit =>
      simp only [Process.deinit, buddyHandlerDeinit, munmap]
      split_ifs <;> exact hI
  obtain ⟨b, blocks, t, hready'⟩ := id hready
  have hclosed := closed_deinit hready (haligned hready'.isInit) hfirst
  have hend : Closed q.lib ∧ q.isDeinit = true := by
    refine hreach'.invariant (I := fun q => Closed q.lib ∧ q.isDeinit = true) hclosed
      fun q a q' hI _ hs => ?_
    cases hs with
    | call hs _ => exact ⟨hI.1.step hs, hI.2⟩
    | handler => exact hI
    | deinit => rwa [deinit_of_isDeinit hI.2]
  have hreg : q.Registered h := by
    refine hreach'.invariant (I := Process.Registered h) ?_ fun _ _ _ hreg hothers hs =>
      hreg.step hothers hs
    exact (reach_registered hh hreach).step (a := .deinit) trivial .deinit
  obtain ⟨hclosed, -⟩ := hend
  have hget := hreg.returns_get
  rw [if_pos hclosed.isInit] at hget
  exact ⟨hget, hclosed.unmapped, hclosed.malloc, hclosed.realloc, hclosed.free, hclosed.getSize,
    hclosed.returns_calloc⟩

end Closed

/-! ## A process -/

/-- The handler at `2` is that of the buddy allocator. -/
theorem isHandler_two : IsHandler 2 1 fun _ => "buddy" := by
  constructor <;> decide

/-- After a request for one page: the mapping has been established and the handler registered. -/
def onePageProcess : Process :=
  ⟨onePage, ⟨(Registry.start 1 Nat.one_ne_zero fun _ => "buddy").added 2, [2], []⟩, false⟩

theorem reach_onePageProcess :
    Runs.Reach (PStep 2) (Others 2)
      (Process.start (fun _ => none) 1 Nat.one_ne_zero fun _ => "buddy") onePageProcess := by
  have hstep : LStep ⟨bare, []⟩ (.malloc mappedFile 4096) _ := .malloc returns_onePage
  rw [handOut, if_neg (by decide), allocSize_page] at hstep
  obtain ⟨b, blocks, t, hready⟩ := isReady_onePage
  refine .step .start (show Others 2 _ (.call (.malloc mappedFile 4096)) from trivial)
    (.call hstep ?_)
  rw [Registers, if_pos ⟨rfl, hready.isInit⟩]
  exact .register (returns_handlerRegister (by decide) (by decide) (by decide))

theorem handler_get_buddy_onePage :
    (handlerGet "buddy").Returns onePageProcess.reg.reg onePageProcess.reg.reg 2 := by
  obtain ⟨b, blocks, t, hready⟩ := isReady_onePage
  have hget := (handler_get_buddy isHandler_two reach_onePageProcess).1
  rwa [if_pos (show onePageProcess.lib.lib.isInit = true from hready.isInit)] at hget

/-- Nothing happens after the destructor, and the page can no longer be accessed. -/
theorem deinit_final_onePage :
    onePageProcess.deinit.lib.lib.mem 4096 = none ∧
      (malloc mappedFile 4096).Returns onePageProcess.deinit.lib.lib
        onePageProcess.deinit.lib.lib 0 := by
  obtain ⟨-, hmem, hmalloc, -⟩ :=
    deinit_final isHandler_two reach_onePageProcess isReady_onePage rfl .start
  have hlive : (⟨4096, 1, 4096⟩ : Handed) ∈ onePageProcess.deinit.lib.live :=
    List.mem_singleton.2 rfl
  have hpos : 0 < pageSize * 1 := by decide
  have hbyte := hmem _ hlive 0 hpos
  dsimp only at hbyte
  rw [Nat.add_zero] at hbyte
  exact ⟨hbyte, hmalloc mappedFile 4096⟩

end Zalloc
