import Zalloc.Library.Served

/-!
# Initialisation

`init_` runs at the start of every entry point until it has succeeded once. It builds a new tree
each time, before it knows whether there will be a mapping, and the entry points look at the tree
only. So a request is answered out of the new tree whatever has become of the mapping: relative to
a `memblock` that is `NULL` or `MAP_FAILED`. A request that the tree refuses is answered with the
byte in front of `memblock`.

## Main definitions

* `ReachesMmap o st`: `init_` gets as far as the call of `mmap`.
* `InitAllowed c`: the calls that meet neither of the two defects.

## Main results

* `buddyXmalloc_safe`: in a run of such calls a pointer is handed out only out of an established
  mapping, and the tree is not built again afterwards.
-/

set_option autoImplicit false

namespace Zalloc

/-! ## What `init_` does -/

/-- `init_` gets as far as the call of `mmap`. -/
def ReachesMmap (o : Outcome) (st : Lib) : Prop :=
  o.fd ≠ 0 ∧ ¬ toInt (1 <<< buddyLevel) > o.stSize.getD st.stSize ∧
    ¬ (o.stSize.getD st.stSize % 2 ^ 64).toNat < mapSize

instance (o : Outcome) (st : Lib) : Decidable (ReachesMmap o st) :=
  inferInstanceAs (Decidable (_ ∧ _ ∧ _))

section Init

variable {o : Outcome} {st : Lib}

/-- Every run of the body builds a new tree. -/
theorem initBody_buddy (o : Outcome) (st : Lib) :
    (initBody o st).buddy = buddyNew true o.memory buddyLevel := by
  unfold initBody
  dsimp only
  -- the tree is built in front of every return
  split_ifs
  · rfl
  · rfl
  · rfl
  · cases o.mapping <;> rfl

/-- Short of the call of `mmap` nothing happens to `memblock`. -/
theorem initBody_of_not_reaches (h : ¬ ReachesMmap o st) :
    (initBody o st).memblock = st.memblock ∧ (initBody o st).isInit = st.isInit := by
  unfold initBody
  dsimp only
  split_ifs with hfd hsize hmap
  · exact ⟨rfl, rfl⟩
  · exact ⟨rfl, rfl⟩
  · exact ⟨rfl, rfl⟩
  · exact absurd ⟨hfd, hsize, hmap⟩ h

/-- A mapping is established. -/
theorem initBody_of_mapping {m : Mapping} (h : ReachesMmap o st) (hm : o.mapping = some m) :
    (initBody o st).memblock = m.base ∧ (initBody o st).isInit = true ∧
      (initBody o st).mem = st.mem.map m.base mapSize m.contents := by
  obtain ⟨hfd, hsize, hmap⟩ := h
  unfold initBody
  dsimp only
  rw [if_neg hfd, if_neg hsize, if_neg hmap, hm]
  exact ⟨rfl, rfl, rfl⟩

/-- `mmap` fails. -/
theorem initBody_of_none (h : ReachesMmap o st) (hm : o.mapping = none) :
    (initBody o st).isInit = st.isInit := by
  obtain ⟨hfd, hsize, hmap⟩ := h
  unfold initBody
  dsimp only
  rw [if_neg hfd, if_neg hsize, if_neg hmap, hm]

/-- `buddy_new` succeeds at the level of the library. -/
theorem exists_buddyNew (memory : ℕ → Node) :
    ∃ b, buddyNew true memory buddyLevel = some b ∧ Inv pageLevel ⟨b, []⟩ .free := by
  have hsome : ∃ b, buddyNew true memory buddyLevel = some b := by
    simp [buddyNew, buddyLevel, pageSize, maxNode]
  obtain ⟨b, hb⟩ := hsome
  have hb' : buddyNew true memory (pageLevel + 12) = some b := hb
  exact ⟨b, hb, buddyNew_inv hb'⟩

/-- A successful initialisation. -/
theorem ready_init {m : Mapping} (hinit : st.isInit = false) (h : ReachesMmap o st)
    (hm : o.mapping = some m) : ∃ b, Ready m.base b ⟨init_ o st, []⟩ [] .free := by
  obtain ⟨b, hb, hinv⟩ := exists_buddyNew o.memory
  obtain ⟨hmemblock, hinit', hmem⟩ := initBody_of_mapping h hm
  have hbody : init_ o st = initBody o st := by rw [init_, hinit]; rfl
  refine ⟨b, ?_, ?_, m.base_pos, m.le, ?_, ?_, hinv, rfl⟩
  · rw [hbody, hinit']
  · rw [hbody, hmemblock]
  · rw [hbody, hmem]
    exact Memory.mapped_map m.contents
  · rw [hbody, initBody_buddy, hb]

end Init

/-! ## Runs -/

/-- The calls of the buddy backend that meet neither defect: a request after initialisation must
find room, or nothing at all free, in which case the search never ends. Before that it must not
exceed the arena, and if this call does not establish the mapping, then `mmap` has not failed in it
and `memblock` is still `NULL`. -/
def InitAllowed (c : LConfig) : Call → Prop
  | .init _ => True
  | .malloc o s =>
    if c.lib.isInit then Served c s
    else
      allocSize s ≤ 2 ^ pageLevel ∧ (ReachesMmap o c.lib → o.mapping.isSome) ∧
        (¬ ReachesMmap o c.lib → c.lib.memblock = 0)
  | .free _ _ => True
  | .getSize _ _ => True
  | _ => False

/-- Nothing has been handed out before initialisation has succeeded. -/
def InitInv (c : LConfig) : Prop :=
  (c.lib.isInit = false ∧ c.live = []) ∨ ∃ base, IsReady base c

section Run

variable {c c' : LConfig} {o : Outcome} {l : Lib} {s r n ptr base : ℕ} {b : Buddy}
  {blocks : List Block} {t : PTree ℕ}

/-- A request is answered as it would be after `init_`. -/
theorem returns_buddyXmalloc_init (hb : (init_ o c.lib).buddy = some b)
    (hinit : (init_ o c.lib).isInit = true) :
    (buddyXmalloc o s).Returns c.lib l r ↔ (buddyXmalloc o s).Returns (init_ o c.lib) l r := by
  have hsame := init_of_isInit hinit o
  rw [returns_buddyXmalloc_iff hb, returns_buddyXmalloc_iff (by rw [hsame, hb]), hsame]

/-- What is said about a request: a pointer lies in an established mapping, and before
initialisation has succeeded there is none. -/
def Answered (l : Lib) (r : ℕ) : Prop :=
  (r ≠ 0 → l.isInit = true ∧ l.mem.Mapped l.memblock (2 ^ 31) ∧ l.memblock ≤ r ∧
    r < l.memblock + 2 ^ 31) ∧ (l.isInit = false → r = 0)

/-- A request after initialisation. -/
theorem Ready.malloc_answered (h : Ready base b c blocks t) (hok : Served c s)
    (hret : (buddyXmalloc o s).Returns c.lib l r) :
    IsReady base ⟨l, handOut r s c.live⟩ ∧ Answered l r := by
  obtain ⟨l', b', off, t', hret', hready, -⟩ := h.malloc o (h.hasRoom_of_served hok hret)
  obtain ⟨rfl, rfl⟩ := Prog.returns_unique hret hret'
  refine ⟨⟨b', _, t', hready⟩, fun _ => ⟨hready.isInit, ?_, ?_, ?_⟩, fun hno => ?_⟩
  · have hmapped := hready.mapped
    rwa [← hready.memblock] at hmapped
  · rw [hready.memblock]
    exact Nat.le_add_right base off
  · have hstop := hready.stop_le (List.mem_cons_self ..)
    have hpos := allocSize_pos s
    rw [hready.memblock]
    simp only [Block.stop, pageSize] at hstop
    omega
  · rw [hready.isInit] at hno
    cases hno

/-- An allowed request is answered as it should be. -/
theorem InitInv.malloc (h : InitInv c) (hok : InitAllowed c (.malloc o s))
    (hret : (buddyXmalloc o s).Returns c.lib l r) :
    InitInv ⟨l, handOut r s c.live⟩ ∧ Answered l r := by
  rcases h with ⟨hinit, hlive⟩ | ⟨base, b, blocks, t, hready⟩
  · rw [InitAllowed, if_neg (by simp [hinit])] at hok
    obtain ⟨hle, hmap, hnull⟩ := hok
    by_cases hreach : ReachesMmap o c.lib
    · -- this call establishes the mapping
      obtain ⟨m, hm⟩ := Option.isSome_iff_exists.1 (hmap hreach)
      obtain ⟨b, hready⟩ := ready_init hinit hreach hm
      have hroom : HasRoom pageLevel [] (allocSize s) :=
        ⟨0, by simpa using hle, by simp⟩
      rw [hlive]
      have hserved : Served ⟨init_ o c.lib, []⟩ s := .inl hroom
      obtain ⟨hready', hans⟩ := hready.malloc_answered hserved
        ((returns_buddyXmalloc_init hready.buddy hready.isInit).1 hret)
      exact ⟨.inr ⟨_, hready'⟩, hans⟩
    · -- the answer is taken out of the new tree, relative to `NULL`
      obtain ⟨b, hb, hinv⟩ := exists_buddyNew o.memory
      obtain ⟨hmemblock, hinit'⟩ := initBody_of_not_reaches hreach
      have hbody : init_ o c.lib = initBody o c.lib := by rw [init_, hinit]; rfl
      have hbuddy : (init_ o c.lib).buddy = some b := by rw [hbody, initBody_buddy, hb]
      obtain ⟨m, t', hm, -⟩ := hinv.alloc_fresh (s := s) (by decide) hle
      obtain ⟨m', pos, hm', rfl, rfl⟩ := (returns_buddyXmalloc_iff hbuddy).1 hret
      obtain ⟨rfl, rfl⟩ := Prog.returns_unique hm hm'
      -- the new tree answers with its first page, so the pointer is `NULL`
      have hzero : u64 ((init_ o c.lib).memblock + 0) = 0 := by
        rw [hbody, hmemblock, hnull hreach]
        rfl
      have hno : (init_ o c.lib).isInit = false := by rw [hbody, hinit', hinit]
      rw [hzero, hlive]
      exact ⟨.inl ⟨hno, rfl⟩, fun hne => absurd rfl hne, fun _ => rfl⟩
  · rw [InitAllowed, if_pos hready.isInit] at hok
    obtain ⟨hready', hans⟩ := hready.malloc_answered hok hret
    exact ⟨.inr ⟨_, hready'⟩, hans⟩

/-- After initialisation an allowed call is one that is served. -/
theorem InitAllowed.allServed {call : Call} (hinit : c.lib.isInit = true)
    (hok : InitAllowed c call) : AllServed c call := by
  cases call with
  | init => trivial
  | malloc o s => rwa [InitAllowed, if_pos hinit] at hok
  | free => trivial
  | getSize => trivial
  | calloc => exact hok.elim
  | realloc => exact hok.elim
  | write => exact hok.elim

/-- An allowed call leaves the library initialised. -/
theorem IsReady.step_of_allowed {call : Call} (h : IsReady base c) (hok : InitAllowed c call)
    (hs : LStep c call c') : IsReady base c' := by
  obtain ⟨b, blocks, t, hready⟩ := id h
  exact h.step (hok.allServed hready.isInit) hs

/-- `init_` keeps the invariant as long as nothing has been handed out. -/
theorem initInv_init (hinit : c.lib.isInit = false) (o : Outcome) :
    InitInv ⟨init_ o c.lib, []⟩ := by
  have hbody : init_ o c.lib = initBody o c.lib := by rw [init_, hinit]; rfl
  by_cases hreach : ReachesMmap o c.lib
  · cases hm : o.mapping with
    | some m =>
      obtain ⟨b, hready⟩ := ready_init hinit hreach hm
      exact .inr ⟨m.base, b, [], .free, hready⟩
    | none => exact .inl ⟨by rw [hbody, initBody_of_none hreach hm, hinit], rfl⟩
  · exact .inl ⟨by rw [hbody, (initBody_of_not_reaches hreach).2, hinit], rfl⟩

/-- An allowed call keeps the invariant. -/
theorem InitInv.step {call : Call} (h : InitInv c) (hok : InitAllowed c call)
    (hs : LStep c call c') : InitInv c' := by
  -- before initialisation nothing is live, so nothing can be given back
  rcases h with ⟨hinit, hlive⟩ | hready
  · cases hs with
    | init =>
      rw [hlive]
      exact initInv_init hinit _
    | malloc hret => exact (InitInv.malloc (.inl ⟨hinit, hlive⟩) hok hret).1
    | free hp =>
      rw [hlive] at hp
      cases hp
    | @getSize l o ptr n hret =>
      -- the tree is the new one again
      obtain ⟨b, hb, -⟩ := exists_buddyNew o.memory
      have hbody : init_ o c.lib = initBody o c.lib := by rw [init_, hinit]; rfl
      have hbuddy : (init_ o c.lib).buddy = some b := by rw [hbody, initBody_buddy, hb]
      obtain ⟨m, hm, rfl⟩ := (returns_buddyGetSize_iff hbuddy).1 hret
      rw [buddyUsedSize_self hm, ← hbuddy, hlive]
      exact initInv_init hinit o
    | calloc => exact hok.elim
    | realloc => exact hok.elim
    | write => exact hok.elim
  · obtain ⟨base, hready⟩ := hready
    exact .inr ⟨base, hready.step_of_allowed hok hs⟩

/-- Every run of allowed calls keeps the invariant. -/
theorem reach_initInv {mem : Memory}
    (hreach : Runs.Reach LStep InitAllowed ⟨Lib.start mem, []⟩ c) : InitInv c :=
  hreach.invariant (I := InitInv) (.inl ⟨rfl, rfl⟩) fun _ _ _ h hok hs => h.step hok hs

/-- In a run of allowed calls a pointer is handed out only when a mapping of `2 ^ 31` bytes has been
established and it lies in it, and before that every request is answered with `NULL`. Once a pointer
has been handed out, `init_` does nothing in any later state, and live pointers are different. -/
theorem buddyXmalloc_safe {mem : Memory}
    (hreach : Runs.Reach LStep InitAllowed ⟨Lib.start mem, []⟩ c) :
    (∀ o s l r, InitAllowed c (.malloc o s) → (buddyXmalloc o s).Returns c.lib l r →
      (r ≠ 0 → l.isInit = true ∧ l.mem.Mapped l.memblock (2 ^ 31) ∧ l.memblock ≤ r ∧
        r < l.memblock + 2 ^ 31) ∧
      (l.isInit = false → r = 0) ∧
      (r ≠ 0 → ∀ c', Runs.Reach LStep InitAllowed ⟨l, handOut r s c.live⟩ c' →
        ∀ o', init_ o' c'.lib = c'.lib)) ∧
    (c.live.map Handed.addr).Nodup := by
  have hinv := reach_initInv hreach
  refine ⟨fun o s l r hok hret => ?_, ?_⟩
  · obtain ⟨hinv', hmapped, hnull⟩ := hinv.malloc hok hret
    refine ⟨hmapped, hnull, fun hne c' hreach' o' => ?_⟩
    -- a pointer that is not `NULL` has been handed out after initialisation
    have hready : ∃ base, IsReady base ⟨l, handOut r s c.live⟩ := by
      rcases hinv' with ⟨hno, -⟩ | hready
      · exact absurd (hnull hno) hne
      · exact hready
    obtain ⟨base, hready⟩ := hready
    obtain ⟨b, blocks, t, h⟩ := hreach'.invariant (I := IsReady base) hready
      fun _ _ _ h hok hs => h.step_of_allowed hok hs
    exact init_of_isInit h.isInit o'
  · rcases hinv with ⟨-, hlive⟩ | ⟨base, b, blocks, t, hready⟩
    · rw [hlive]
      exact List.nodup_nil
    · exact hready.nodup

end Run

/-! ## Two initialisations -/

/-- A mapping of a file of zeros. -/
def zeroed : Mapping where
  base := 4096
  contents := fun _ => 0
  base_pos := by decide
  aligned := by decide
  le := by decide

/-- The file is large enough, and it is mapped at the second page of the address space. -/
def mappedFile : Outcome where
  fd := 3
  stSize := some (2 ^ 31)
  mapping := some zeroed
  memory := fun _ => ⟨0, 0, .unused⟩

/-- The file is large enough, and `mmap` fails. -/
def unmappedFile : Outcome := { mappedFile with mapping := none }

/-- Before the first call, with no memory mapped. -/
def bare : Lib := Lib.start fun _ => none

/-- After a request for one page. -/
def afterOnePage : Lib := ((buddyXmalloc mappedFile 4096).exec 32 bare).state

/-- The request has been answered with the first page of the mapping. -/
def onePage : LConfig := ⟨afterOnePage, [⟨4096, 1, 4096⟩]⟩

theorem returns_onePage : (buddyXmalloc mappedFile 4096).Returns bare afterOnePage 4096 :=
  Prog.returns_of_value? (n := 32) (by decide +kernel)

theorem reach_onePage : Runs.Reach LStep InitAllowed ⟨bare, []⟩ onePage := by
  have hstep : LStep ⟨bare, []⟩ (.malloc mappedFile 4096) _ := .malloc returns_onePage
  rw [handOut, if_neg (by decide), allocSize_page] at hstep
  have hok : InitAllowed ⟨bare, []⟩ (.malloc mappedFile 4096) := by
    simp only [InitAllowed, bare, Lib.start, Bool.false_eq_true, ↓reduceIte, allocSize_page]
    exact ⟨by decide, fun _ => rfl, fun _ => trivial⟩
  exact .step .start hok hstep

theorem reachesMmap_mappedFile : ReachesMmap mappedFile bare := by decide

theorem ready_mappedFile : ∃ b, Ready 4096 b ⟨init_ mappedFile bare, []⟩ [] .free :=
  ready_init rfl reachesMmap_mappedFile rfl

/-- After the mapping has been established a request for one page is answered with the first. -/
theorem reach_onePage_of_served :
    Runs.Reach LStep AllServed ⟨init_ mappedFile bare, []⟩ onePage := by
  obtain ⟨b, h⟩ := ready_mappedFile
  have hret : (buddyXmalloc mappedFile 4096).Returns (init_ mappedFile bare) afterOnePage 4096 :=
    (returns_buddyXmalloc_init (c := ⟨bare, []⟩) h.buddy h.isInit).1 returns_onePage
  have hstep : LStep ⟨init_ mappedFile bare, []⟩ (.malloc mappedFile 4096) _ := .malloc hret
  rw [handOut, if_neg (by decide), allocSize_page] at hstep
  have hroom : HasRoom pageLevel [] (allocSize 4096) :=
    ⟨0, by rw [allocSize_page]; decide, by simp⟩
  have hok : AllServed ⟨init_ mappedFile bare, []⟩ (.malloc mappedFile 4096) := .inl hroom
  exact .step .start hok hstep

theorem isReady_onePage : IsReady 4096 onePage := by
  obtain ⟨b, h⟩ := ready_mappedFile
  exact IsReady.reach ⟨b, [], .free, h⟩ reach_onePage_of_served

/-- The configuration after one request. -/
theorem buddyXmalloc_safe_onePage :
    (∀ o s l r, InitAllowed onePage (.malloc o s) → (buddyXmalloc o s).Returns onePage.lib l r →
      (r ≠ 0 → l.isInit = true ∧ l.mem.Mapped l.memblock (2 ^ 31) ∧ l.memblock ≤ r ∧
        r < l.memblock + 2 ^ 31) ∧
      (l.isInit = false → r = 0) ∧
      (r ≠ 0 → ∀ c', Runs.Reach LStep InitAllowed ⟨l, handOut r s onePage.live⟩ c' →
        ∀ o', init_ o' c'.lib = c'.lib)) ∧
    (onePage.live.map Handed.addr).Nodup :=
  buddyXmalloc_safe reach_onePage

/-- After a failed `mmap` a request is answered with `MAP_FAILED`, although no mapping has been
established. -/
theorem buddyXmalloc_unmapped :
    ∃ l, (buddyXmalloc unmappedFile 4096).Returns bare l u64Max ∧ u64Max ≠ 0 ∧
      l.isInit = false ∧ l.mem u64Max = none :=
  ⟨_, Prog.returns_of_value? (n := 32) (by decide +kernel), by decide, by decide +kernel,
    by decide +kernel⟩

end Zalloc
