import Zalloc.Foundations.ObjectStore
import Zalloc.Nvmalloc.Frame
import Zalloc.Nvmalloc.Run

/-!
# `nvmalloc` as a store of objects

What a client sees of the allocator are the words behind the headers of its blocks. They are objects
of their own: whatever the calls do to the headers, the bitmap, the hints and the don't-allocate
list, to the client each call is an event of a store.

## Main definitions

* `NvBlock.word`, `NvBlock.words`: the words behind the header of a block.
* `nvObjects c`: what these words hold, for each live block.
* `nvEvent c c' op`: what an action means to the client.
* `NvObjects c`: the allocator is a store of objects.

## Main results

* `NvReady.step_objects`: an action is its event on the store.
* `nvmalloc_refines`: the allocator refines a store of objects in every run.
-/

set_option autoImplicit false

namespace Zalloc

/-! ## The objects -/

/-- The number of the first word behind the header. -/
def NvBlock.word (b : NvBlock) : ℕ := b.location / 8 + 1

/-- The number of words behind the header. -/
def NvBlock.words (b : NvBlock) : ℕ := b.size / 8 - 1

/-- The words behind the header of a block. -/
def payload (mem : ℕ → BitVec 64) (b : NvBlock) : List (BitVec 64) :=
  ObjectStore.cells (fun i => mem (8 * (b.word + i))) b.words

/-- The words that belong to each of the live blocks. -/
def nvObjects (c : NvConfig) : ObjectStore (BitVec 64) :=
  ObjectStore.ofBlocks NvBlock.word (payload c.st.mem) c.live

/-- The first word of the block that has been handed out last. -/
def newestWord (c : NvConfig) : ℕ := (c.live.head?.map NvBlock.word).getD 0

/-- What an action means to the client; `c'` is the configuration afterwards. -/
def nvEvent (c c' : NvConfig) : NvOp → ObjectStore.Event (BitVec 64)
  | .malloc size _ _ =>
    if c'.live = c.live then .idle else .new (newestWord c') (8 * blockUnits size - 1)
  | .free addr _ _ => .drop (addr / 8)
  | .store x v => .write (x / 8) v

/-- Words are written as a whole. -/
def NvOp.Aligned : NvOp → Prop
  | .malloc _ _ _ => True
  | .free _ _ _ => True
  | .store x _ => 8 ∣ x

/-- The action neither frees the block at `addr` nor writes to its `n` words. -/
def NvOp.Leaves (addr n : ℕ) : NvOp → Prop
  | .malloc _ _ _ => True
  | .free addr' _ _ => addr' ≠ addr
  | .store x _ => x < addr ∨ addr + 8 * n ≤ x

/-! ## Blocks and words -/

section Words

variable {mem mem' : ℕ → BitVec 64} {b b' : NvBlock} {x : ℕ}

@[simp] theorem length_payload (mem : ℕ → BitVec 64) (b : NvBlock) :
    (payload mem b).length = b.words := ObjectStore.length_cells _ _

/-- The address of a block is that of its first word. -/
theorem NvBlock.word_eq (h : baseSize ∣ b.location) : b.location + 8 = 8 * b.word := by
  obtain ⟨u, hu⟩ := h
  simp only [NvBlock.word, hu, baseSize]
  omega

/-- The end of a block is that of its words. -/
theorem NvBlock.end_eq (h : baseSize ∣ b.location ∧ baseSize ∣ b.size) (hpos : 0 < b.size) :
    b.location + b.size = 8 * (b.word + b.words) := by
  obtain ⟨⟨u, hu⟩, k, hk⟩ := h
  simp only [NvBlock.word, NvBlock.words, hu, hk, baseSize] at hpos ⊢
  omega

/-- The words are behind the header. -/
theorem NvBlock.payload_word (h : baseSize ∣ b.location ∧ baseSize ∣ b.size) (hpos : 0 < b.size)
    {i : ℕ} (hi : i < b.words) : b.Payload (8 * (b.word + i)) := by
  have hstart := NvBlock.word_eq h.1
  have hend := NvBlock.end_eq h hpos
  constructor
  · omega
  · omega

/-- The words of blocks that do not overlap are apart. -/
theorem NvBlock.Apart.words (h : b.Apart b') (hb : baseSize ∣ b.location ∧ baseSize ∣ b.size)
    (hpos : 0 < b.size) (hb' : baseSize ∣ b'.location ∧ baseSize ∣ b'.size) (hpos' : 0 < b'.size) :
    b.word + b.words ≤ b'.word ∨ b'.word + b'.words ≤ b.word := by
  have hstart := NvBlock.word_eq hb.1
  have hend := NvBlock.end_eq hb hpos
  have hstart' := NvBlock.word_eq hb'.1
  have hend' := NvBlock.end_eq hb' hpos'
  rcases h with hle | hle
  · left
    omega
  · right
    omega

theorem payload_congr
    (h : ∀ i < b.words, mem' (8 * (b.word + i)) = mem (8 * (b.word + i))) :
    payload mem' b = payload mem b := ObjectStore.cells_congr h

/-- A write to a word of a block sets it. -/
theorem payload_update {v : BitVec 64} (hx : 8 ∣ x) (hlo : b.word ≤ x / 8) :
    payload (Function.update mem x v) b = (payload mem b).set (x / 8 - b.word) v := by
  have hword : 8 * (b.word + (x / 8 - b.word)) = x := by omega
  have hset := ObjectStore.cells_set (n := b.words) (i := x / 8 - b.word)
    (f := fun i => mem (8 * (b.word + i)))
    (g := fun i => Function.update mem x v (8 * (b.word + i)))
    fun j hj => Function.update_of_ne (by omega) _ _
  rwa [hword, Function.update_self] at hset

/-- The words of the block for a request. -/
theorem words_blockUnits {size location : ℕ} :
    NvBlock.words ⟨location, baseSize * blockUnits size⟩ = 8 * blockUnits size - 1 := by
  simp only [NvBlock.words, baseSize]
  omega

/-- They hold the request. -/
theorem le_words (size : ℕ) : size ≤ 8 * (8 * blockUnits size - 1) := by
  simp only [blockUnits, unitsOf, baseSizeMask, baseSize]
  omega

end Words

section

variable {freeWait nrPages a : ℕ} {c c' : NvConfig} {op : NvOp} {b b' : NvBlock}
  {xs ys : List (BitVec 64)}

namespace NvReady

theorem aligned (h : NvReady freeWait c) (hb : b ∈ c.live) :
    (baseSize ∣ b.location ∧ baseSize ∣ b.size) ∧ 0 < b.size :=
  ⟨h.inv.occupied.aligned b (NvInv.mem_live hb), h.inv.occupied.pos b (NvInv.mem_live hb)⟩

/-- The live blocks do not overlap. -/
theorem pairwise_live (h : NvReady freeWait c) : c.live.Pairwise NvBlock.Apart :=
  (List.pairwise_append.1 (List.pairwise_append.1 h.inv.occupied.apart).2.1).1

/-- The words of a block are in the arena, behind its header. -/
theorem payload_word (h : NvReady freeWait c) (hb : b ∈ c.live) {i : ℕ} (hi : i < b.words) :
    b.Payload (8 * (b.word + i)) :=
  NvBlock.payload_word (h.aligned hb).1 (h.aligned hb).2 hi

/-- The live blocks have different words. -/
theorem nodup_word (h : NvReady freeWait c) : (c.live.map NvBlock.word).Nodup := by
  refine List.pairwise_map.2 (h.pairwise_live.imp_of_mem ?_)
  intro b b' hb hb' hapart heq
  have hstart := NvBlock.word_eq (h.aligned hb).1.1
  have hstart' := NvBlock.word_eq (h.aligned hb').1.1
  have hpos := (h.aligned hb).2
  have hpos' := (h.aligned hb').2
  rcases hapart with hle | hle
  · omega
  · omega

/-- The words of different live blocks are apart. -/
theorem apart_words (h : NvReady freeWait c) (hb : b ∈ c.live) (hb' : b' ∈ c.live)
    (hne : b.word ≠ b'.word) : b.word + b.words ≤ b'.word ∨ b'.word + b'.words ≤ b.word :=
  (h.pairwise_live.forall hb hb' fun heq => hne (by rw [heq])).words (h.aligned hb).1
    (h.aligned hb).2 (h.aligned hb').1 (h.aligned hb').2

/-- A live block is an object. -/
theorem nvObjects_word (h : NvReady freeWait c) (hb : b ∈ c.live) :
    nvObjects c b.word = some (payload c.st.mem b) :=
  ObjectStore.ofBlocks_of_mem h.nodup_word hb

/-- The live blocks of a configuration, after a call that leaves their words alone. -/
theorem ofBlocks_congr (h : NvReady freeWait c) {mem : ℕ → BitVec 64} {blocks : List NvBlock}
    (hblocks : ∀ b ∈ blocks, b ∈ c.live)
    (hmem : ∀ b ∈ blocks, ∀ x, b.Payload x → mem x = c.st.mem x) :
    ObjectStore.ofBlocks NvBlock.word (payload mem) blocks =
      ObjectStore.ofBlocks NvBlock.word (payload c.st.mem) blocks :=
  ObjectStore.ofBlocks_congr fun b hb => payload_congr fun _ hi =>
    hmem b hb _ (h.payload_word (hblocks b hb) hi)

/-! ## The actions -/

/-- A block that is handed out is a new object, which holds the request. -/
theorem step_served (h : NvReady freeWait c) {st' : NvState} {size now location : ℕ}
    {grows : Growth} (hok : (NvOp.malloc size grows now).Allowed c)
    (hret : (nvmalloc size grows now).Returns c.st st' (some (location + 8)))
    (hready : NvReady freeWait ⟨st', ⟨location, baseSize * blockUnits size⟩ :: c.live, c.freed⟩) :
    ObjectStore.Step (nvObjects c)
      (.new (NvBlock.word ⟨location, baseSize * blockUnits size⟩) (8 * blockUnits size - 1))
      (nvObjects ⟨st', ⟨location, baseSize * blockUnits size⟩ :: c.live, c.freed⟩) := by
  have hkeep : ObjectStore.ofBlocks NvBlock.word (payload st'.mem) c.live = nvObjects c :=
    h.ofBlocks_congr (fun b hb => hb) fun b hb x hx =>
      h.inv.keepsWord_nvmalloc hok.1 hok.2 hret hb hx
  have hnew := hready.nodup_word
  rw [List.map_cons, List.nodup_cons] at hnew
  rw [nvObjects, nvObjects, ObjectStore.ofBlocks_cons, hkeep]
  refine .new (ObjectStore.ofBlocks_eq_none fun b hb heq => hnew.1 ?_) ?_
  · rw [← heq]
    exact List.mem_map_of_mem hb
  · rw [length_payload, words_blockUnits]

/-- A block that is freed is not an object any more. -/
theorem step_free (h : NvReady freeWait c) {st' : NvState} {added now : ℕ} {r : ℤ}
    (hb : b ∈ c.live) (hret : (nvfree (b.location + 8) added now).Returns c.st st' r) :
    ObjectStore.Step (nvObjects c) (.drop b.word)
      (nvObjects ⟨st', c.live.erase b, c.freed ++ [⟨b, added⟩]⟩) := by
  have hkeep : ObjectStore.ofBlocks NvBlock.word (payload st'.mem) (c.live.erase b) =
      ObjectStore.ofBlocks NvBlock.word (payload c.st.mem) (c.live.erase b) :=
    h.ofBlocks_congr (fun b' hb' => List.mem_of_mem_erase hb') fun b' hb' x hx =>
      h.inv.keepsWord_nvfree (List.perm_cons_erase hb) hret hb' hx
  rw [nvObjects, nvObjects, hkeep, ObjectStore.ofBlocks_erase h.nodup_word hb]
  exact .drop (h.nvObjects_word hb)

/-- A word that is written is one of an object. -/
theorem step_store (h : NvReady freeWait c) {x : ℕ} {v : BitVec 64} (hb : b ∈ c.live)
    (hlo : b.location + 8 ≤ x) (hhi : x + 8 ≤ b.location + b.size) (hx : 8 ∣ x) :
    ObjectStore.Step (nvObjects c) (.write (x / 8) v)
      (nvObjects ⟨{ c.st with mem := Function.update c.st.mem x v }, c.live, c.freed⟩) := by
  have hstart := NvBlock.word_eq (h.aligned hb).1.1
  have hend := NvBlock.end_eq (h.aligned hb).1 (h.aligned hb).2
  have hword : b.word ≤ x / 8 ∧ x / 8 < b.word + b.words := by omega
  refine ObjectStore.step_write_ofBlocks h.nodup_word hb hword.1
    (by rw [length_payload]; exact hword.2) (payload_update hx hword.1) fun b' hb' hne => ?_
  refine payload_congr fun i hi => Function.update_of_ne ?_ _ _
  -- the words of the other blocks are elsewhere
  have hapart := h.apart_words hb hb' (Ne.symm hne)
  omega

/-- An action is its event on the store of objects. -/
theorem step_objects (h : NvReady freeWait c) (hok : op.Allowed c) (haligned : op.Aligned)
    (hs : NvStep c op c') : ObjectStore.Step (nvObjects c) (nvEvent c c' op) (nvObjects c') := by
  have hready := h.step hok hs
  cases hs with
  | served hret =>
    rw [nvEvent, if_neg (List.cons_ne_self _ _)]
    exact h.step_served hok hret hready
  | @refused st' size now grows hret =>
    obtain ⟨lists, rfl, -⟩ := h.inv.refused hok.1 hok.2 hret
    rw [nvEvent, if_pos rfl]
    exact .idle
  | @free st' b added now r hb hret =>
    have haddr : (b.location + 8) / 8 = b.word := by
      rw [NvBlock.word_eq (h.aligned hb).1.1, Nat.mul_div_cancel_left _ (by decide)]
    rw [nvEvent, haddr]
    exact h.step_free hb hret
  | store hb hlo hhi => exact h.step_store hb hlo hhi haligned

end NvReady

/-- An action that leaves the words of a block alone. -/
theorem NvOp.Leaves.keeps {n : ℕ} (h : op.Leaves (8 * a) n) (haligned : op.Aligned)
    (hs : NvStep c op c') (hready : NvReady freeWait c) : (nvEvent c c' op).Keeps n a := by
  cases hs with
  | served hret =>
    rw [nvEvent, if_neg (List.cons_ne_self _ _)]
    trivial
  | refused hret =>
    rw [nvEvent, if_pos rfl]
    trivial
  | @free st' b added now r hb hret =>
    have hne : b.location + 8 ≠ 8 * a := h
    rw [NvBlock.word_eq (hready.aligned hb).1.1] at hne
    show (b.location + 8) / 8 ≠ a
    rw [NvBlock.word_eq (hready.aligned hb).1.1]
    omega
  | @store b x v hb hlo hhi =>
    have hout : x < 8 * a ∨ 8 * a + 8 * n ≤ x := h
    have hx : 8 ∣ x := haligned
    show x / 8 < a ∨ a + n ≤ x / 8
    omega

/-- No action moves an object. -/
theorem nvEvent_ne_move {a' n : ℕ} : nvEvent c c' op ≠ .move a a' n := by
  intro heq
  cases op with
  | malloc size grows now =>
    rw [nvEvent] at heq
    split_ifs at heq
  | free addr added now => cases heq
  | store x v => cases heq

/-! ## Runs -/

/-- The allocator is a store of objects: each is in the arena, at its address, apart from the
others, and the actions are the events of the store. -/
structure NvObjects (c : NvConfig) : Prop where
  /-- The objects are in the arena. -/
  inside : ∀ a xs, nvObjects c a = some xs → 0 < a ∧ 8 * (a + xs.length) ≤ c.st.freeZone
  /-- The contents of an object are in memory. -/
  contents : ∀ a xs, nvObjects c a = some xs →
    ∀ i (hi : i < xs.length), c.st.mem (8 * (a + i)) = xs[i]
  /-- The objects are apart. -/
  apart : ∀ a xs b ys, nvObjects c a = some xs → nvObjects c b = some ys → a ≠ b →
    a + xs.length ≤ b ∨ b + ys.length ≤ a
  /-- Every object can be freed. -/
  free : ∀ a xs, nvObjects c a = some xs → ∀ added now, ∃ st',
    (nvfree (8 * a) added now).Returns c.st st' 0
  /-- An action is an event. -/
  step : ∀ op c', op.Allowed c → op.Aligned → NvStep c op c' →
    ObjectStore.Step (nvObjects c) (nvEvent c c' op) (nvObjects c')
  /-- A new object holds what has been asked for. -/
  holds : ∀ size grows now c', (NvOp.malloc size grows now).Allowed c →
    NvStep c (.malloc size grows now) c' → c'.live ≠ c.live →
      ∃ xs, nvObjects c' (newestWord c') = some xs ∧ size ≤ 8 * xs.length
  /-- An object is kept by every run in which it is neither freed nor written to. -/
  kept : ∀ a xs, nvObjects c a = some xs → ∀ c',
    Runs.Reach NvStep (fun c op => op.Allowed c ∧ op.Aligned ∧ op.Leaves (8 * a) xs.length) c c' →
      nvObjects c' a = some xs

theorem NvReady.objects (h : NvReady freeWait c) : NvObjects c where
  inside a xs ha := by
    obtain ⟨b, hb, rfl, rfl⟩ := ObjectStore.exists_of_ofBlocks ha
    rw [length_payload, ← NvBlock.end_eq (h.aligned hb).1 (h.aligned hb).2]
    exact ⟨Nat.succ_pos _, h.inv.occupied.inside b (NvInv.mem_live hb)⟩
  contents a xs ha i hi := by
    obtain ⟨b, hb, rfl, rfl⟩ := ObjectStore.exists_of_ofBlocks ha
    exact (ObjectStore.getElem_cells hi).symm
  apart a xs b ys ha hb hne := by
    obtain ⟨p, hp, rfl, rfl⟩ := ObjectStore.exists_of_ofBlocks ha
    obtain ⟨q, hq, rfl, rfl⟩ := ObjectStore.exists_of_ofBlocks hb
    rw [length_payload, length_payload]
    exact h.apart_words hp hq hne
  free a xs ha added now := by
    obtain ⟨b, hb, rfl, -⟩ := ObjectStore.exists_of_ofBlocks ha
    obtain ⟨_, _, _, st', _, -, -, hret⟩ :=
      h.inv.returns_nvfree (List.perm_cons_erase hb) added now
    rw [NvBlock.word_eq (h.aligned hb).1.1] at hret
    exact ⟨st', hret⟩
  step op c' hok haligned hs := h.step_objects hok haligned hs
  holds size grows now c' hok hs hne := by
    have hready := h.step hok hs
    cases hs with
    | served hret =>
      refine ⟨_, hready.nvObjects_word (List.mem_cons_self ..), ?_⟩
      rw [length_payload, words_blockUnits]
      exact le_words size
    | refused hret => exact absurd rfl hne
  kept a xs ha c' hrun := by
    refine (hrun.invariant (I := fun c => NvReady freeWait c ∧ nvObjects c a = some xs) ⟨h, ha⟩
      fun c op c' hc hok hs => ⟨hc.1.step hok.1 hs, ?_⟩).2
    exact (hc.1.step_objects hok.1 hok.2.1 hs).eq_of_keeps (hok.2.2.keeps hok.2.1 hs hc.1)
      (fun _ _ => nvEvent_ne_move) hc.2

/-- In every run of allowed steps `nvmalloc` is a store of objects, which is empty at first. -/
theorem nvmalloc_refines (hpages : nrPages * nvPageSize < 2 ^ 32) (mem : ℕ → BitVec 64) :
    (∀ a, nvObjects (nvStart nrPages freeWait mem) a = none) ∧
      ∀ c, Runs.Reach NvStep (fun c op => op.Allowed c ∧ op.Aligned)
        (nvStart nrPages freeWait mem) c → NvObjects c :=
  ⟨fun _ => rfl, fun _ hreach =>
    (reach_nvReady hpages (hreach.mono fun _ _ hok => hok.1)).objects⟩

end

/-- The first word of the block that is live has been written. -/
def firstWritten : NvConfig :=
  ⟨{ firstReleased.st with mem := Function.update firstReleased.st.mem 200 7 },
    firstReleased.live, firstReleased.freed⟩

theorem reach_firstReleased_aligned : Runs.Reach NvStep (fun c op => op.Allowed c ∧ op.Aligned)
    (nvStart 4 100 fun _ => 0) firstReleased := by
  refine reach_afterFree (reach_afterMalloc (reach_afterFree (reach_afterMalloc
    (reach_afterMalloc .start ⟨allowed_of_le ?_, trivial⟩ ?_) ⟨allowed_of_le ?_, trivial⟩ ?_)
    ⟨trivial, trivial⟩ ?_ ?_) ⟨allowed_of_le ?_, trivial⟩ ?_) ⟨trivial, trivial⟩ ?_ ?_
  all_goals decide

theorem reach_firstWritten : Runs.Reach NvStep (fun c op => op.Allowed c ∧ op.Aligned)
    (nvStart 4 100 fun _ => 0) firstWritten := by
  have hlive : ⟨192, 64⟩ ∈ firstReleased.live := by decide
  have hstore : NvStep firstReleased (.store 200 7) firstWritten :=
    .store hlive (by decide) (by decide)
  refine reach_firstReleased_aligned.step ?_ hstore
  exact ⟨trivial, 25, rfl⟩

/-- There is one object, of seven words. -/
theorem nvmalloc_refines_firstWritten :
    nvObjects firstWritten 25 = some [7, 0, 0, 0, 0, 0, 0] ∧ NvObjects firstWritten :=
  ⟨by decide +kernel, (nvmalloc_refines (by decide) _).2 _ reach_firstWritten⟩

end Zalloc
