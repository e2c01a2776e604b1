import Zalloc.Library.Run

/-!
# Runs after initialisation

Once initialisation has succeeded, every call is about the blocks of the tree. As long as the
requests find room the library stays as it should be, whatever the program writes into its blocks.

## Main definitions

* `IsReady base c`: initialisation has succeeded with a mapping at `base`.
* `AllServed c`: the calls whose request, if there is one, is served.

## Main results

* `Ready.returns_realloc`: what `realloc` does.
* `IsReady.reach`: a run of such calls stays initialised.
-/

set_option autoImplicit false

namespace Zalloc

/-- The calls whose request, if there is one, is served. -/
def AllServed (c : LConfig) : Call → Prop
  | .init _ => True
  | .malloc _ s => Served c s
  | .calloc _ num s => Served c (u64 (num * s))
  | .realloc _ _ _ _ s => Served c s
  | .free _ _ => True
  | .getSize _ _ => True
  | .write _ _ => True

/-- Initialisation has succeeded. -/
def IsReady (base : ℕ) (c : LConfig) : Prop := ∃ b blocks t, Ready base b c blocks t

namespace Ready

variable {base s r ptr : ℕ} {b : Buddy} {c : LConfig} {blocks : List Block} {t : PTree ℕ}

/-- The bytes may change. -/
theorem setMem (h : Ready base b c blocks t) {mem : Memory} (hmem : mem.Mapped base (2 ^ 31)) :
    Ready base b ⟨{ c.lib with mem }, c.live⟩ blocks t :=
  ⟨h.isInit, h.memblock, h.base_pos, h.base_le, hmem, h.buddy, h.inv, h.live⟩

/-- The new pointer is not the one that is given back. -/
theorem giveBack_cons {p : Handed} {live : List Handed} (h : p.addr ≠ ptr) :
    giveBack ptr (p :: live) = p :: giveBack ptr live :=
  List.filter_cons_of_pos (by simpa using h)

/-- No live pointer is `NULL`. -/
theorem addr_ne_zero (h : Ready base b c blocks t) {p : Handed} (hp : p ∈ c.live) :
    p.addr ≠ 0 := by
  rw [h.live] at hp
  obtain ⟨x, -, rfl⟩ := List.mem_map.1 hp
  have hbase := h.base_pos
  simp only [handed]
  omega

theorem giveBack_zero (h : Ready base b c blocks t) : giveBack 0 c.live = c.live :=
  List.filter_eq_self.2 fun _ hp => decide_eq_true (h.addr_ne_zero hp)

/-- The latest block is none of the others. -/
theorem head_ne {x y : Block} (h : Ready base b c (y :: blocks) t) (hx : x ∈ blocks) :
    x.offset ≠ y.offset := by
  have hnodup := h.inv.nodup
  rw [List.map_cons, List.nodup_cons] at hnodup
  exact fun heq => hnodup.1 (List.mem_map.2 ⟨x, hx, heq⟩)

theorem disjoint_head {x y : Block} (h : Ready base b c (y :: blocks) t) (hx : x ∈ blocks) :
    y.stop ≤ x.offset ∨ x.stop ≤ y.offset :=
  h.inv.disjoint (List.mem_cons_self ..) (List.mem_cons_of_mem _ hx) (h.head_ne hx).symm

/-- `realloc` of a live pointer takes a new block, copies, and gives the old block back. It does not
return when one of the two ranges of the copy is not mapped. -/
theorem returns_realloc (h : Ready base b c blocks t) (o₁ o₂ o₃ : Outcome)
    (hroom : HasRoom pageLevel blocks (allocSize s)) {p : Handed} (hp : p ∈ c.live) :
    ∃ off, off + pageSize * allocSize s ≤ 2 ^ 31 ∧
      (∀ x ∈ blocks, off + pageSize * allocSize s ≤ x.offset ∨ x.stop ≤ off) ∧
      (∀ l r, (realloc o₁ o₂ o₃ p.addr s).Returns c.lib l r →
        c.lib.mem.Mapped p.addr (min s p.used) ∧ c.lib.mem.Mapped (base + off) (min s p.used)) ∧
      (c.lib.mem.Mapped p.addr (min s p.used) → c.lib.mem.Mapped (base + off) (min s p.used) →
        ∃ l b' t', (realloc o₁ o₂ o₃ p.addr s).Returns c.lib l (base + off) ∧
          Ready base b' ⟨l, ⟨base + off, allocSize s, s⟩ :: giveBack p.addr c.live⟩
            (⟨off, allocSize s, s⟩ :: blocks.filter fun x => base + x.offset ≠ p.addr) t' ∧
          l.mem = c.lib.mem.copy (base + off) p.addr (min s p.used)) := by
  obtain ⟨l₁, b₁, off, t₁, hret₁, hready₁, hmem₁⟩ := h.malloc o₁ hroom
  have hbase := h.base_pos
  have hne : base + off ≠ 0 := by omega
  rw [handOut, if_neg hne] at hready₁
  have hp₁ : p ∈ (⟨base + off, allocSize s, s⟩ :: c.live : List Handed) :=
    List.mem_cons_of_mem _ hp
  have hsize := hready₁.getSize o₂ hp₁
  have hp' := hp
  rw [h.live] at hp'
  obtain ⟨x, hx, rfl⟩ := List.mem_map.1 hp'
  -- the new block is apart from the old one, which is still live
  have haddr : base + off ≠ (handed base x).addr := fun heq =>
    hready₁.head_ne hx (Nat.add_left_cancel heq).symm
  have hnull := h.addr_ne_zero hp
  refine ⟨off, hready₁.stop_le (List.mem_cons_self ..), fun y hy => hready₁.disjoint_head hy, ?_,
    ?_⟩
  · -- a call that returns has passed the copy
    intro l r hret
    obtain ⟨l', hxm, hrest⟩ := returns_realloc_iff.1 hret
    obtain ⟨rfl, rfl⟩ := Prog.returns_unique hxm hret₁
    rw [if_pos ⟨hne, hnull⟩] at hrest
    obtain ⟨l'', n, hgs, hmapped, -⟩ := hrest
    obtain ⟨rfl, rfl⟩ := Prog.returns_unique hgs hsize
    rwa [hmem₁] at hmapped
  · intro hsrc hdst
    rw [← hmem₁] at hsrc hdst
    -- the copy changes bytes only, and the release comes after it
    have hcopied : (l₁.mem.copy (base + off) (handed base x).addr (min s x.used)).Mapped base
        (2 ^ 31) := hready₁.mapped.copy hsrc
    have hready₂ := hready₁.setMem hcopied
    obtain ⟨l₃, b₃, t₃, hret₃, hready₃, hmem₃⟩ := hready₂.free o₃ hp₁
    rw [giveBack_cons haddr, List.filter_cons_of_pos (by simpa using haddr)] at hready₃
    refine ⟨l₃, b₃, t₃, ?_, hready₃, ?_⟩
    · refine returns_realloc_iff.2 ⟨l₁, hret₁, ?_⟩
      rw [if_pos ⟨hne, hnull⟩]
      exact ⟨l₁, _, hsize, ⟨hsrc, hdst⟩, hret₃⟩
    · rw [← hmem₁]
      exact hmem₃

/-- Two live pointers with the same address are the same. -/
theorem eq_of_addr_eq (h : Ready base b c blocks t) {p q : Handed} (hp : p ∈ c.live)
    (hq : q ∈ c.live) (heq : p.addr = q.addr) : p = q :=
  List.inj_on_of_nodup_map h.nodup hp hq heq

/-- `malloc` of the library, for a request that has been served. -/
theorem isReady_malloc (h : Ready base b c blocks t) {o : Outcome} {l : Lib}
    (hok : Served c s) (hret : (buddyXmalloc o s).Returns c.lib l r) :
    r ≠ 0 ∧ l.mem = c.lib.mem ∧ IsReady base ⟨l, ⟨r, allocSize s, s⟩ :: c.live⟩ := by
  obtain ⟨l', b', off, t', hret', hready, hmem⟩ := h.malloc o (h.hasRoom_of_served hok hret)
  obtain ⟨rfl, rfl⟩ := Prog.returns_unique hret hret'
  have hbase := h.base_pos
  have hne : base + off ≠ 0 := by omega
  rw [handOut, if_neg hne] at hready
  exact ⟨hne, hmem, b', _, t', hready⟩

end Ready

namespace IsReady

variable {base : ℕ} {c c' : LConfig}

/-- A step all of whose requests are served leaves the library initialised. -/
theorem step {call : Call} (h : IsReady base c) (hok : AllServed c call)
    (hs : LStep c call c') : IsReady base c' := by
  obtain ⟨b, blocks, t, hready⟩ := h
  cases hs with
  | @init o =>
    -- `init_` has nothing left to do
    rw [init_of_isInit hready.isInit o]
    exact ⟨b, blocks, t, hready⟩
  | malloc hret =>
    obtain ⟨hne, -, hready'⟩ := hready.isReady_malloc hok hret
    rwa [handOut, if_neg hne]
  | @calloc l o num s r hret =>
    obtain ⟨l₁, hxm, -, rfl⟩ := returns_calloc_iff.1 hret
    obtain ⟨hne, -, b', blocks', t', hready'⟩ := hready.isReady_malloc hok hxm
    rw [handOut, if_neg hne]
    -- the bytes that are set are those of the mapping
    exact ⟨b', blocks', t', hready'.setMem (hready'.mapped.fill r _ 0)⟩
  | free hp hret =>
    obtain ⟨l, b', t', hret', hready', -⟩ := hready.free _ hp
    obtain ⟨rfl, -⟩ := Prog.returns_unique hret hret'
    exact ⟨b', _, t', hready'⟩
  | getSize hret =>
    rw [hready.getSize_eq hret]
    exact ⟨b, blocks, t, hready⟩
  | @realloc l o₁ o₂ o₃ ptr s r hp hret =>
    obtain ⟨l₁, hxm, hrest⟩ := returns_realloc_iff.1 hret
    obtain ⟨hne, -, hready'⟩ := hready.isReady_malloc hok hxm
    rw [if_neg hne]
    rcases hp with rfl | ⟨p, hp, rfl⟩
    · rw [if_neg (by simp)] at hrest
      rwa [hready.giveBack_zero, hrest]
    · obtain ⟨off, -, -, hmapped, hexists⟩ :=
        hready.returns_realloc o₁ o₂ o₃ (hready.hasRoom_of_served hok hxm) hp
      obtain ⟨hsrc, hdst⟩ := hmapped l r hret
      obtain ⟨l', b', t', hret', hready₂, -⟩ := hexists hsrc hdst
      obtain ⟨rfl, rfl⟩ := Prog.returns_unique hret hret'
      exact ⟨b', _, t', hready₂⟩
  | @write p addr value hp hlo hhi hmapped =>
    exact ⟨b, blocks, t, hready.setMem (hready.mapped.update addr value)⟩

/-- A run all of whose requests are served leaves the library initialised. -/
theorem reach (h : IsReady base c) (hreach : Runs.Reach LStep AllServed c c') : IsReady base c' :=
  hreach.invariant (I := IsReady base) h fun _ _ _ h hok hs => h.step hok hs

end IsReady

end Zalloc
