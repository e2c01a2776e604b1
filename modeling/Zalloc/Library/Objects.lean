import Zalloc.Foundations.ObjectStore
import Zalloc.Library.Calloc

/-!
# The library as a store of objects

What the program sees of the library are its blocks: to each pointer that it holds belong as many
bytes as it has asked for. As long as the requests find room, and none of them is rounded down by
the conversion to `float`, the blocks are objects of their own, whatever happens in the tree and in
the mapping.

## Main definitions

* `objects c`: the bytes that belong to the live pointers.
* `event c' call`: what a call means to the program.
* `AllFit c call`: the request of the call, if there is one, is served by a block that is not short.
* `Intact base c`: initialisation has succeeded, and no live block is short.

## Main results

* `Intact.step_objects`: a call is its event on the store of objects.
* `library_refines`: the library refines a store of objects.
* `bytes_follow`: in every run the bytes of a block follow it through the calls of `realloc`.
-/

set_option autoImplicit false

namespace Zalloc

/-! ## The objects -/

/-- The bytes of a block that have been asked for. -/
def bytesAt (mem : Memory) (p : Handed) : List UInt8 :=
  ObjectStore.cells (fun i => (mem (p.addr + i)).getD 0) p.used

/-- The bytes that belong to each of the live pointers. -/
def objects (c : LConfig) : ObjectStore UInt8 :=
  ObjectStore.ofBlocks Handed.addr (bytesAt c.lib.mem) c.live

section Objects

variable {mem mem' : Memory} {p : Handed} {x : ℕ}

@[simp] theorem length_bytesAt (mem : Memory) (p : Handed) : (bytesAt mem p).length = p.used :=
  ObjectStore.length_cells _ _

theorem getElem_bytesAt {i : ℕ} (hi : i < (bytesAt mem p).length) :
    (bytesAt mem p)[i] = (mem (p.addr + i)).getD 0 := ObjectStore.getElem_cells hi

theorem bytesAt_congr (h : ∀ i < p.used, mem' (p.addr + i) = mem (p.addr + i)) :
    bytesAt mem' p = bytesAt mem p :=
  ObjectStore.cells_congr fun i hi => by rw [h i hi]

/-- Bytes that agree in a prefix. -/
theorem take_bytesAt_eq {q : Handed} {n : ℕ} (hp : n ≤ p.used) (hq : n ≤ q.used)
    (h : ∀ i < n, mem' (q.addr + i) = mem (p.addr + i)) :
    (bytesAt mem' q).take n = (bytesAt mem p).take n := by
  apply List.ext_getElem
  · simp [hp, hq]
  · intro i hi hi'
    rw [List.getElem_take, List.getElem_take, getElem_bytesAt, getElem_bytesAt]
    rw [List.length_take] at hi
    rw [h i (by omega)]

/-- A write inside of a block sets one of its bytes. -/
theorem bytesAt_update {v : UInt8} (hlo : p.addr ≤ x) :
    bytesAt (Function.update mem x (some v)) p = (bytesAt mem p).set (x - p.addr) v :=
  ObjectStore.cells_update (f := (Option.getD · 0)) hlo

end Objects

/-! ## The events -/

/-- The pointer that has been handed out last. -/
def newest (c : LConfig) : ℕ := (c.live.head?.map Handed.addr).getD 0

/-- What a call means to the program; `c'` is the state afterwards. -/
def event (c' : LConfig) : Call → ObjectStore.Event UInt8
  | .init _ => .idle
  | .malloc _ s => .new (newest c') s
  | .calloc _ num s => .newFilled (newest c') (num * s) 0
  | .free _ ptr => .drop ptr
  | .getSize _ _ => .idle
  | .realloc _ _ _ ptr s => if ptr = 0 then .new (newest c') s else .move ptr (newest c') s
  | .write addr value => .write addr value

/-- The request of the call, if there is one, is served, and its size is not rounded down. -/
def AllFit (c : LConfig) : Call → Prop
  | .malloc _ s => Served c s ∧ ¬ RoundsDown s
  | .calloc _ num s => num * s < 2 ^ 64 ∧ Served c (num * s) ∧ ¬ RoundsDown (num * s)
  | .realloc _ _ _ _ s => Served c s ∧ ¬ RoundsDown s
  | .init _ => True
  | .free _ _ => True
  | .getSize _ _ => True
  | .write _ _ => True

theorem AllFit.allServed {c : LConfig} {call : Call} (h : AllFit c call) : AllServed c call := by
  cases call with
  | malloc o s => exact h.1
  | calloc o num s =>
    have hu64 : u64 (num * s) = num * s := Nat.mod_eq_of_lt h.1
    show Served c (u64 (num * s))
    rw [hu64]
    exact h.2.1
  | realloc o₁ o₂ o₃ ptr s => exact h.1
  | _ => trivial

/-- Initialisation has succeeded with a mapping at `base`, and no live block is short. -/
structure Intact (base : ℕ) (c : LConfig) : Prop where
  /-- Initialisation has succeeded. -/
  ready : IsReady base c
  /-- A block holds what it has been asked for. -/
  holds : ∀ p ∈ c.live, p.used ≤ pageSize * p.pages

section

variable {base s r : ℕ} {c c' : LConfig} {call : Call} {p q : Handed}

/-- The bytes of two live blocks are apart. -/
theorem Intact.apart (h : Intact base c) (hp : p ∈ c.live) (hq : q ∈ c.live)
    (hne : p.addr ≠ q.addr) : p.addr + p.used ≤ q.addr ∨ q.addr + q.used ≤ p.addr := by
  obtain ⟨b, blocks, t, hready⟩ := h.ready
  have hpused := h.holds p hp
  have hqused := h.holds q hq
  rw [hready.live] at hp hq
  obtain ⟨x, hx, rfl⟩ := List.mem_map.1 hp
  obtain ⟨y, hy, rfl⟩ := List.mem_map.1 hq
  simp only [handed] at hpused hqused hne ⊢
  have hdisj := hready.inv.disjoint hx hy fun heq => hne (by rw [heq])
  simp only [Block.stop] at hdisj
  omega

/-- The bytes of a live block are mapped. -/
theorem Intact.mapped (h : Intact base c) (hp : p ∈ c.live) : c.lib.mem.Mapped p.addr p.used := by
  obtain ⟨b, blocks, t, hready⟩ := h.ready
  have hused := h.holds p hp
  rw [hready.live] at hp
  obtain ⟨x, hx, rfl⟩ := List.mem_map.1 hp
  have hstop := hready.stop_le hx
  simp only [Block.stop] at hstop
  simp only [handed] at hused ⊢
  exact hready.mapped.sub (Nat.le_add_right base _) (by omega)

theorem Intact.nodup (h : Intact base c) : (c.live.map Handed.addr).Nodup := by
  obtain ⟨b, blocks, t, hready⟩ := h.ready
  exact hready.nodup

/-- A served request that is not rounded down gets a block that holds it. -/
theorem Intact.holds_new (h : Intact base c) {o : Outcome} {l : Lib} (hserved : Served c s)
    (hround : ¬ RoundsDown s) (hret : (buddyXmalloc o s).Returns c.lib l r) :
    s ≤ pageSize * allocSize s := by
  obtain ⟨b, blocks, t, hready⟩ := h.ready
  exact (le_mul_allocSize_iff (allocSize_lt (hready.hasRoom_of_served hserved hret))).2 hround

/-- A request that is served adds a block. -/
theorem Intact.malloc (h : Intact base c) {o : Outcome} {l : Lib} (hserved : Served c s)
    (hround : ¬ RoundsDown s) (hret : (buddyXmalloc o s).Returns c.lib l r) :
    r ≠ 0 ∧ l.mem = c.lib.mem ∧ Intact base ⟨l, ⟨r, allocSize s, s⟩ :: c.live⟩ := by
  have hholds := h.holds_new hserved hround hret
  obtain ⟨b, blocks, t, hready⟩ := h.ready
  obtain ⟨hne, hmem, hready'⟩ := hready.isReady_malloc hserved hret
  exact ⟨hne, hmem, hready', List.forall_mem_cons.2 ⟨hholds, h.holds⟩⟩

/-- Memory that is still mapped may have other contents. -/
theorem Intact.setMem (h : Intact base c) (mem : Memory)
    (hmem : ∀ a n, c.lib.mem.Mapped a n → mem.Mapped a n) :
    Intact base ⟨{ c.lib with mem }, c.live⟩ := by
  obtain ⟨b, blocks, t, hready⟩ := h.ready
  exact ⟨⟨b, blocks, t, hready.setMem (hmem _ _ hready.mapped)⟩, h.holds⟩

/-- The block that is added is none of the others. -/
theorem Intact.head_ne {l : Lib} {live : List Handed} (h : Intact base ⟨l, p :: live⟩)
    (hq : q ∈ live) : p.addr ≠ q.addr := by
  have hnodup := h.nodup
  rw [List.map_cons, List.nodup_cons] at hnodup
  exact fun heq => hnodup.1 (List.mem_map.2 ⟨q, hq, heq.symm⟩)

theorem Intact.ofBlocks_head {l : Lib} {live : List Handed} (h : Intact base ⟨l, p :: live⟩) :
    ObjectStore.ofBlocks Handed.addr (bytesAt l.mem) live p.addr = none :=
  ObjectStore.ofBlocks_eq_none fun _ hq => (h.head_ne hq).symm

/-- A live block is given back. -/
theorem Intact.free (h : Intact base c) {o : Outcome} {l : Lib} (hp : p ∈ c.live)
    (hret : (buddyXfree o p.addr).Returns c.lib l ()) :
    l.mem = c.lib.mem ∧ Intact base ⟨l, giveBack p.addr c.live⟩ := by
  obtain ⟨b, blocks, t, hready⟩ := h.ready
  obtain ⟨l', b', t', hret', hready', hmem⟩ := hready.free o hp
  obtain ⟨rfl, -⟩ := Prog.returns_unique hret hret'
  exact ⟨hmem, ⟨b', _, t', hready'⟩, fun q hq => h.holds q (List.mem_of_mem_filter hq)⟩

/-! ## The calls -/

/-- A request is a new object. -/
theorem Intact.step_malloc (h : Intact base c) {o : Outcome} {l : Lib} (hserved : Served c s)
    (hround : ¬ RoundsDown s) (hret : (buddyXmalloc o s).Returns c.lib l r) :
    Intact base ⟨l, ⟨r, allocSize s, s⟩ :: c.live⟩ ∧
      ObjectStore.Step (objects c) (.new r s) (objects ⟨l, ⟨r, allocSize s, s⟩ :: c.live⟩) := by
  obtain ⟨-, hmem, hintact⟩ := h.malloc hserved hround hret
  refine ⟨hintact, ?_⟩
  rw [objects, objects, ObjectStore.ofBlocks_cons, ← hmem]
  exact .new hintact.ofBlocks_head (length_bytesAt _ _)

/-- The memory changes inside of the latest block only. -/
theorem Intact.ofBlocks_tail {l : Lib} {live : List Handed} (h : Intact base ⟨l, p :: live⟩)
    (mem : Memory) (hmem : ∀ x, x < p.addr ∨ p.addr + p.used ≤ x → mem x = l.mem x) :
    ObjectStore.ofBlocks Handed.addr (bytesAt mem) live =
      ObjectStore.ofBlocks Handed.addr (bytesAt l.mem) live := by
  refine ObjectStore.ofBlocks_congr fun q hq => bytesAt_congr fun i hi => hmem _ ?_
  rcases h.apart (List.mem_cons_self ..) (List.mem_cons_of_mem _ hq) (h.head_ne hq) with hle | hle
  · exact .inr (by omega)
  · exact .inl (by omega)

/-- A request for an array is a new object of zeros. -/
theorem Intact.step_calloc (h : Intact base c) {o : Outcome} {l : Lib} {num : ℕ}
    (hok : AllFit c (.calloc o num s)) (hret : (calloc o num s).Returns c.lib l r) :
    r ≠ 0 ∧ Intact base ⟨l, ⟨r, allocSize (num * s), num * s⟩ :: c.live⟩ ∧
      ObjectStore.Step (objects c) (.newFilled r (num * s) 0)
        (objects ⟨l, ⟨r, allocSize (num * s), num * s⟩ :: c.live⟩) := by
  obtain ⟨hlt, hserved, hround⟩ := hok
  have hu64 : u64 (num * s) = num * s := Nat.mod_eq_of_lt hlt
  obtain ⟨l₁, hxm, -, rfl⟩ := returns_calloc_iff.1 hret
  rw [hu64] at hxm ⊢
  obtain ⟨hne, hmem, hintact⟩ := h.malloc hserved hround hxm
  have htail := hintact.ofBlocks_tail (l₁.mem.fill r (num * s) 0) fun x hx =>
    Memory.fill_of_disjoint hx
  have hbytes : bytesAt (l₁.mem.fill r (num * s) 0) ⟨r, allocSize (num * s), num * s⟩ =
      List.replicate (num * s) 0 := by
    refine List.eq_replicate_iff.2 ⟨length_bytesAt _ _, fun x hx => ?_⟩
    obtain ⟨i, hi, rfl⟩ := List.getElem_of_mem hx
    rw [getElem_bytesAt, Memory.fill_add (by rwa [length_bytesAt] at hi), Option.getD_some]
  refine ⟨hne, hintact.setMem _ fun _ _ hmapped => hmapped.fill _ _ _, ?_⟩
  rw [objects, objects, ObjectStore.ofBlocks_cons, htail, hbytes, ← hmem]
  exact .newFilled hintact.ofBlocks_head

/-- A reallocation moves an object. -/
theorem Intact.step_realloc (h : Intact base c) {o₁ o₂ o₃ : Outcome} {l : Lib}
    (hserved : Served c s) (hround : ¬ RoundsDown s) (hp : p ∈ c.live)
    (hret : (realloc o₁ o₂ o₃ p.addr s).Returns c.lib l r) :
    r ≠ 0 ∧ Intact base ⟨l, ⟨r, allocSize s, s⟩ :: giveBack p.addr c.live⟩ ∧
      ObjectStore.Step (objects c) (.move p.addr r s)
        (objects ⟨l, ⟨r, allocSize s, s⟩ :: giveBack p.addr c.live⟩) := by
  obtain ⟨l₁, hxm, hrest⟩ := returns_realloc_iff.1 hret
  obtain ⟨hne, hmem, hintact⟩ := h.malloc hserved hround hxm
  have hnull : p.addr ≠ 0 := by
    obtain ⟨b, blocks, t, hready⟩ := h.ready
    exact hready.addr_ne_zero hp
  rw [if_pos ⟨hne, hnull⟩] at hrest
  obtain ⟨l₂, n, hsize, ⟨hsrc, -⟩, hfree⟩ := hrest
  -- the size of the old block is the one that was asked for
  obtain ⟨b₁, blocks₁, t₁, hready₁⟩ := hintact.ready
  obtain ⟨rfl, rfl⟩ := Prog.returns_unique hsize
    (hready₁.getSize o₂ (List.mem_cons_of_mem _ hp))
  have hcopied := hintact.setMem (l₂.mem.copy r p.addr (min s p.used))
    fun _ _ hmapped => hmapped.copy hsrc
  obtain ⟨hmem', hintact'⟩ := hcopied.free (List.mem_cons_of_mem _ hp) hfree
  -- the new block is not the one that is given back
  rw [Ready.giveBack_cons (hintact.head_ne hp)] at hintact'
  have htail := hintact.ofBlocks_tail (l₂.mem.copy r p.addr (min s p.used)) fun x hx =>
    Memory.copy_of_disjoint (by simp only at hx; omega)
  have hold : ObjectStore.ofBlocks Handed.addr (bytesAt l₂.mem) c.live p.addr =
      some (bytesAt l₂.mem p) := ObjectStore.ofBlocks_of_mem h.nodup hp
  refine ⟨hne, hintact', ?_⟩
  rw [objects, objects, ObjectStore.ofBlocks_cons, giveBack, ObjectStore.ofBlocks_filter, hmem',
    htail, ← hmem]
  refine .move hold hintact.ofBlocks_head (length_bytesAt _ _) ?_
  rw [length_bytesAt]
  exact take_bytesAt_eq (min_le_right _ _) (min_le_left _ _) fun i hi => Memory.copy_add hi

/-- A write changes a byte of one object. -/
theorem Intact.step_write (h : Intact base c) {addr : ℕ} {value : UInt8} (hp : p ∈ c.live)
    (hlo : p.addr ≤ addr) (hhi : addr < p.addr + p.used) :
    ObjectStore.Step (objects c) (.write addr value)
      (objects ⟨{ c.lib with mem := Function.update c.lib.mem addr (some value) }, c.live⟩) := by
  refine ObjectStore.step_write_ofBlocks h.nodup hp hlo (by rwa [length_bytesAt])
    (bytesAt_update hlo) fun q hq hne => bytesAt_congr fun i hi => Function.update_of_ne ?_ _ _
  -- the bytes of the other blocks are elsewhere
  have hapart := h.apart hq hp hne
  omega

/-- A call is its event on the store of objects. -/
theorem Intact.step_objects (h : Intact base c) (hok : AllFit c call) (hs : LStep c call c') :
    Intact base c' ∧ ObjectStore.Step (objects c) (event c' call) (objects c') := by
  obtain ⟨b, blocks, t, hready⟩ := h.ready
  cases hs with
  | @init o =>
    rw [init_of_isInit hready.isInit o]
    exact ⟨h, .idle⟩
  | malloc hret =>
    obtain ⟨hne, -⟩ := h.malloc hok.1 hok.2 hret
    rw [handOut, if_neg hne]
    exact h.step_malloc hok.1 hok.2 hret
  | @calloc l o num s r hret =>
    obtain ⟨hne, hstep⟩ := h.step_calloc hok hret
    have hu64 : u64 (num * s) = num * s := Nat.mod_eq_of_lt hok.1
    rw [hu64, handOut, if_neg hne]
    exact hstep
  | free hp hret =>
    obtain ⟨hmem, hintact⟩ := h.free hp hret
    refine ⟨hintact, ?_⟩
    rw [objects, objects, giveBack, ObjectStore.ofBlocks_filter, hmem]
    exact .drop (ObjectStore.ofBlocks_of_mem h.nodup hp)
  | getSize hret =>
    rw [hready.getSize_eq hret]
    exact ⟨h, .idle⟩
  | @realloc l o₁ o₂ o₃ ptr s r hp hret =>
    rcases hp with rfl | ⟨p, hp, rfl⟩
    · -- without an old block it is a request
      obtain ⟨l₁, hxm, hrest⟩ := returns_realloc_iff.1 hret
      rw [if_neg (by simp)] at hrest
      obtain ⟨hne, -⟩ := h.malloc hok.1 hok.2 hxm
      rw [hrest, if_neg hne, hready.giveBack_zero, event, if_pos rfl]
      exact h.step_malloc hok.1 hok.2 hxm
    · obtain ⟨hne, hstep⟩ := h.step_realloc hok.1 hok.2 hp hret
      rw [if_neg hne, event, if_neg (hready.addr_ne_zero hp)]
      exact hstep
  | @write p addr value hp hlo hhi hmapped =>
    exact ⟨h.setMem _ fun _ _ hm => hm.update addr value, h.step_write hp hlo hhi⟩

/-- A byte of an object is in memory at its place. -/
theorem Intact.mem_add (h : Intact base c) (hp : p ∈ c.live) {i : ℕ}
    (hi : i < (bytesAt c.lib.mem p).length) :
    c.lib.mem (p.addr + i) = some (bytesAt c.lib.mem p)[i] := by
  have hsome := h.mapped hp i (by rwa [length_bytesAt] at hi)
  rw [getElem_bytesAt]
  obtain ⟨v, hv⟩ := Option.isSome_iff_exists.1 hsome
  rw [hv, Option.getD_some]

end

/-! ## Runs -/

/-- The library is a store of objects: each is in the mapping, at its address, with its size, apart
from the others, and the calls are the events of the store. -/
structure RefinesObjects (base : ℕ) (c : LConfig) : Prop where
  /-- The objects are in the mapping. -/
  inside : ∀ a xs, objects c a = some xs → base ≤ a ∧ a + xs.length ≤ base + 2 ^ 31
  /-- The contents of an object are in memory. -/
  contents : ∀ a xs, objects c a = some xs →
    ∀ i (hi : i < xs.length), c.lib.mem (a + i) = some xs[i]
  /-- The size of an object is known. -/
  size : ∀ a xs, objects c a = some xs →
    ∀ o, (buddyGetSize o a).Returns c.lib c.lib xs.length
  /-- The objects are apart. -/
  apart : ∀ a xs b ys, objects c a = some xs → objects c b = some ys → a ≠ b →
    a + xs.length ≤ b ∨ b + ys.length ≤ a
  /-- A call is an event. -/
  step : ∀ call c', AllFit c call → LStep c call c' →
    ObjectStore.Step (objects c) (event c' call) (objects c')

section Run

variable {base : ℕ} {c : LConfig}

theorem Intact.refines (h : Intact base c) : RefinesObjects base c where
  inside a xs ha := by
    obtain ⟨p, hp, rfl, rfl⟩ := ObjectStore.exists_of_ofBlocks ha
    have hused := h.holds p hp
    obtain ⟨b, blocks, t, hready⟩ := h.ready
    rw [hready.live] at hp
    obtain ⟨x, hx, rfl⟩ := List.mem_map.1 hp
    have hstop := hready.stop_le hx
    simp only [Block.stop] at hstop
    rw [length_bytesAt]
    simp only [handed] at hused ⊢
    omega
  contents a xs ha i hi := by
    obtain ⟨p, hp, rfl, rfl⟩ := ObjectStore.exists_of_ofBlocks ha
    exact h.mem_add hp hi
  size a xs ha o := by
    obtain ⟨p, hp, rfl, rfl⟩ := ObjectStore.exists_of_ofBlocks ha
    obtain ⟨b, blocks, t, hready⟩ := h.ready
    rw [length_bytesAt]
    exact hready.getSize o hp
  apart a xs b ys ha hb hne := by
    obtain ⟨p, hp, rfl, rfl⟩ := ObjectStore.exists_of_ofBlocks ha
    obtain ⟨q, hq, rfl, rfl⟩ := ObjectStore.exists_of_ofBlocks hb
    rw [length_bytesAt, length_bytesAt]
    exact h.apart hp hq hne
  step call c' hok hs := (h.step_objects hok hs).2

theorem Intact.reach {c' : LConfig} (h : Intact base c) (hreach : Runs.Reach LStep AllFit c c') :
    Intact base c' :=
  hreach.invariant (I := Intact base) h fun _ _ _ h hok hs => (h.step_objects hok hs).1

/-- After a successful initialisation there are no objects yet. -/
theorem intact_init {o : Outcome} {st : Lib} {m : Mapping} (hinit : st.isInit = false)
    (hmmap : ReachesMmap o st) (hm : o.mapping = some m) : Intact m.base ⟨init_ o st, []⟩ := by
  obtain ⟨b, hready⟩ := ready_init hinit hmmap hm
  exact ⟨⟨b, _, _, hready⟩, List.forall_mem_nil _⟩

/-- After a successful initialisation, in every run all of whose requests fit, the library is a
store of objects, which is empty at first. -/
theorem library_refines {o : Outcome} {st : Lib} {m : Mapping} (hinit : st.isInit = false)
    (hmmap : ReachesMmap o st) (hm : o.mapping = some m) :
    (∀ a, objects ⟨init_ o st, []⟩ a = none) ∧
      ∀ c, Runs.Reach LStep AllFit ⟨init_ o st, []⟩ c → RefinesObjects m.base c :=
  ⟨fun _ => rfl, fun _ hreach => ((intact_init hinit hmmap hm).reach hreach).refines⟩

/-! ## A block that is followed -/

/-- A call, and where the block at an address is afterwards. -/
def FollowStep (x : LConfig × ℕ) (call : Call) (x' : LConfig × ℕ) : Prop :=
  LStep x.1 call x'.1 ∧ x'.2 = ObjectStore.follow (event x'.1 call) x.2

/-- The call does not give the block at `ptr` back, does not write to its first `n` bytes, and does
not reallocate it for less. -/
def Spares (n ptr : ℕ) : Call → Prop
  | .free _ ptr' => ptr' ≠ ptr
  | .realloc _ _ _ ptr' s => ptr' = ptr → n ≤ s
  | .write addr _ => addr < ptr ∨ ptr + n ≤ addr
  | _ => True

theorem Spares.keeps {n ptr : ℕ} {call : Call} (h : Spares n ptr call) (c' : LConfig) :
    (event c' call).Keeps n ptr := by
  cases call with
  | realloc o₁ o₂ o₃ ptr' s =>
    rw [event]
    split_ifs
    · trivial
    · exact h
  | free o ptr' => exact h
  | write addr value => exact h
  | _ => trivial

/-- The bytes of a block follow it: in every run all of whose requests fit, let a live block be
reallocated and moved any number of times, between any other calls. As long as nobody gives it back
or writes to its first `n` bytes, and no reallocation asks for less, they are the same in the
end. -/
theorem bytes_follow {o : Outcome} {st : Lib} {m : Mapping} (hinit : st.isInit = false)
    (hmmap : ReachesMmap o st) (hm : o.mapping = some m)
    (hreach : Runs.Reach LStep AllFit ⟨init_ o st, []⟩ c) {p : Handed} (hp : p ∈ c.live) {n : ℕ}
    (hn : n ≤ p.used) {c' : LConfig} {ptr : ℕ}
    (hrun : Runs.Reach FollowStep (fun x call => AllFit x.1 call ∧ Spares n x.2 call)
      (c, p.addr) (c', ptr)) :
    ∃ q ∈ c'.live, q.addr = ptr ∧ n ≤ q.used ∧
      ∀ i < n, c'.lib.mem (ptr + i) = c.lib.mem (p.addr + i) := by
  have hintact := (intact_init hinit hmmap hm).reach hreach
  -- the run is one of the store of objects
  obtain ⟨hintact', htracked⟩ := hrun.simulate (f := fun x => (objects x.1, x.2))
    (I := fun x => Intact m.base x.1) (S := ObjectStore.Tracked)
    (P := fun s e => e.Keeps n s.2) hintact
    fun x call x' hx hok hs => by
      obtain ⟨hnext, hstep⟩ := hx.step_objects hok.1 hs.1
      exact ⟨hnext, event x'.1 call, hok.2.keeps x'.1, hstep, hs.2⟩
  have hold : objects c p.addr = some (bytesAt c.lib.mem p) :=
    ObjectStore.ofBlocks_of_mem hintact.nodup hp
  obtain ⟨ys, hys, hlen, htake⟩ :=
    ObjectStore.take_of_reach htracked hold (by rwa [length_bytesAt])
  obtain ⟨q, hq, rfl, rfl⟩ := ObjectStore.exists_of_ofBlocks hys
  rw [length_bytesAt] at hlen
  refine ⟨q, hq, rfl, hlen, fun i hi => ?_⟩
  have hip : i < (bytesAt c.lib.mem p).length := by rw [length_bytesAt]; omega
  have hiq : i < (bytesAt c'.lib.mem q).length := by rw [length_bytesAt]; omega
  rw [hintact.mem_add hp hip, Intact.mem_add hintact' hq hiq]
  have hget := congrArg (fun l => l[i]?) htake
  simpa [hi, List.getElem?_eq_getElem hip, List.getElem?_eq_getElem hiq] using hget

end Run

/-! ## One page -/

theorem not_roundsDown {s : ℕ} (h : s < 2 ^ 24) : ¬ RoundsDown s := by
  rintro ⟨k, hk, hlt, -⟩
  have hpow : 2 ^ 24 ≤ 2 ^ k := Nat.pow_le_pow_right (by decide) hk
  omega

/-- A request for one page fits. -/
theorem reach_onePage_of_fit :
    Runs.Reach LStep AllFit ⟨init_ mappedFile bare, []⟩ onePage := by
  obtain ⟨b, h⟩ := ready_mappedFile
  have hret : (buddyXmalloc mappedFile 4096).Returns (init_ mappedFile bare) afterOnePage 4096 :=
    (returns_buddyXmalloc_init (c := ⟨bare, []⟩) h.buddy h.isInit).1 returns_onePage
  have hstep : LStep ⟨init_ mappedFile bare, []⟩ (.malloc mappedFile 4096) _ := .malloc hret
  rw [handOut, if_neg (by decide), allocSize_page] at hstep
  have hroom : HasRoom pageLevel [] (allocSize 4096) :=
    ⟨0, by rw [allocSize_page]; decide, by simp⟩
  have hok : AllFit ⟨init_ mappedFile bare, []⟩ (.malloc mappedFile 4096) :=
    ⟨.inl hroom, not_roundsDown (by decide)⟩
  exact .step .start hok hstep

/-- The library with one page is a store of one object. -/
theorem library_refines_onePage : RefinesObjects 4096 onePage :=
  (library_refines rfl reachesMmap_mappedFile rfl).2 _ reach_onePage_of_fit

/-- After the page has been reallocated for ten bytes. -/
def afterShrunk : Lib :=
  ((realloc mappedFile mappedFile mappedFile 4096 10).exec 64 onePage.lib).state

/-- The configuration then. -/
def shrunk : LConfig := ⟨afterShrunk, [⟨8192, 1, 10⟩]⟩

/-- The ten bytes have moved. -/
theorem bytes_follow_shrunk : ∃ q ∈ shrunk.live, q.addr = 8192 ∧ 10 ≤ q.used ∧
    ∀ i < 10, shrunk.lib.mem (8192 + i) = onePage.lib.mem (4096 + i) := by
  have hret : (realloc mappedFile mappedFile mappedFile 4096 10).Returns onePage.lib afterShrunk
      8192 := Prog.returns_of_value? (n := 64) (by decide +kernel)
  have hpages : allocSize 10 = 1 := by decide
  have hmem : (⟨4096, 1, 4096⟩ : Handed) ∈ onePage.live := List.mem_singleton_self _
  have hstep : LStep onePage (.realloc mappedFile mappedFile mappedFile 4096 10) shrunk := by
    have hstep := LStep.realloc (.inr ⟨_, hmem, rfl⟩) hret
    rwa [if_neg (by decide), hpages] at hstep
  -- the second page is free
  have hserved : Served onePage 10 := by
    refine .inl ?_
    obtain ⟨_, _, _, h⟩ := isReady_onePage
    rw [hpages, blocksOf, h.memblock]
    exact ⟨1, by decide, by decide⟩
  have hok : AllFit onePage (.realloc mappedFile mappedFile mappedFile 4096 10) :=
    ⟨hserved, not_roundsDown (by decide)⟩
  have hspares : Spares 10 4096 (.realloc mappedFile mappedFile mappedFile 4096 10) :=
    fun _ => by decide
  have hfollow : ObjectStore.follow (event shrunk
      (.realloc mappedFile mappedFile mappedFile 4096 10)) 4096 = 8192 := by
    rw [event, if_neg (by decide), ObjectStore.follow, if_pos rfl]
    rfl
  have hrun : Runs.Reach FollowStep (fun x call => AllFit x.1 call ∧ Spares 10 x.2 call)
      (onePage, 4096) (shrunk, 8192) :=
    .step .start ⟨hok, hspares⟩ ⟨hstep, hfollow.symm⟩
  have hn : 10 ≤ (⟨4096, 1, 4096⟩ : Handed).used := by decide
  obtain ⟨q, hq, haddr, hused, hbytes⟩ :=
    bytes_follow rfl reachesMmap_mappedFile rfl reach_onePage_of_fit hmem hn hrun
  dsimp only at hbytes
  exact ⟨q, hq, haddr, hused, hbytes⟩

end Zalloc
