import Mathlib.Data.List.Nodup
import Mathlib.Logic.Function.Basic
import Zalloc.Foundations.Runs

/-!
# Object stores

What a program sees of an allocator: objects at addresses, each with contents of its own. What is
done with one object leaves all the others alone. An object can move, and then it is the same object
at another address.

## Main definitions

* `ObjectStore α`: the contents of the object at each address.
* `ObjectStore.Step h e h'`: an event takes the store `h` to `h'`.
* `ObjectStore.follow e a`: where the object at `a` is after the event.
* `ObjectStore.Event.Keeps n a e`: the event leaves the first `n` elements of the object alone.
* `ObjectStore.ofBlocks key contents blocks`: the store whose objects are those of a list of blocks.
* `ObjectStore.cells f n`: the contents of a block, as they are read from its places.

## Main results

* `ObjectStore.Step.take_follow`: an event that keeps the elements does so wherever the object goes.
* `ObjectStore.Step.eq_of_keeps`: what an event leaves as it is.
* `ObjectStore.take_of_reach`: the elements that are kept in runs.
* `ObjectStore.ofBlocks_cons`, `ObjectStore.ofBlocks_erase`, `ObjectStore.step_write_ofBlocks`: a
  block is added, a block goes away, and the contents of one block change.
-/

set_option autoImplicit false

/-- The contents of the object at each address, if there is one. -/
abbrev ObjectStore (α : Type) := ℕ → Option (List α)

namespace ObjectStore

variable {α : Type}

/-- What can happen to a store. The address of a new object is a part of the event. -/
inductive Event (α : Type) where
  /-- Nothing. -/
  | idle
  /-- A new object of `n` elements at `a`, of which nothing is known. -/
  | new (a n : ℕ)
  /-- A new object of `n` elements at `a`, all of them `x`. -/
  | newFilled (a n : ℕ) (x : α)
  /-- The object at `a` goes away. -/
  | drop (a : ℕ)
  /-- The object at `a` moves to `a'` and has `n` elements there. -/
  | move (a a' n : ℕ)
  /-- The element at the address `x`, inside of an object, becomes `v`. -/
  | write (x : ℕ) (v : α)

/-- An event takes a store to another one. -/
inductive Step : ObjectStore α → Event α → ObjectStore α → Prop
  /-- Nothing happens. -/
  | idle {h : ObjectStore α} : Step h .idle h
  /-- A new object is apart from the others. -/
  | new {h : ObjectStore α} {a n : ℕ} {xs : List α} (hfree : h a = none) (hlen : xs.length = n) :
      Step h (.new a n) (Function.update h a (some xs))
  /-- A new object with known contents. -/
  | newFilled {h : ObjectStore α} {a n : ℕ} {x : α} (hfree : h a = none) :
      Step h (.newFilled a n x) (Function.update h a (some (List.replicate n x)))
  /-- An object goes away. -/
  | drop {h : ObjectStore α} {a : ℕ} {xs : List α} (ha : h a = some xs) :
      Step h (.drop a) (Function.update h a none)
  /-- An object takes along as many elements as it has room for. -/
  | move {h : ObjectStore α} {a a' n : ℕ} {xs ys : List α} (ha : h a = some xs)
      (hfree : h a' = none) (hlen : ys.length = n)
      (htake : ys.take (min n xs.length) = xs.take (min n xs.length)) :
      Step h (.move a a' n) (Function.update (Function.update h a none) a' (some ys))
  /-- One element changes. -/
  | write {h : ObjectStore α} {a x : ℕ} {v : α} {xs : List α} (ha : h a = some xs) (hlo : a ≤ x)
      (hhi : x < a + xs.length) :
      Step h (.write x v) (Function.update h a (some (xs.set (x - a) v)))

/-- Where the object at an address is after an event. -/
def follow : Event α → ℕ → ℕ
  | .move a a' _, p => if p = a then a' else p
  | _, p => p

/-- The event leaves the first `n` elements of the object at `a` as they are. -/
def Event.Keeps (n a : ℕ) : Event α → Prop
  | .drop b => b ≠ a
  | .move b _ m => b = a → n ≤ m
  | .write x _ => x < a ∨ a + n ≤ x
  | _ => True

/-- A step of a store and of the address of an object that is followed. -/
def Tracked (s : ObjectStore α × ℕ) (e : Event α) (s' : ObjectStore α × ℕ) : Prop :=
  Step s.1 e s'.1 ∧ s'.2 = follow e s.2

section

variable {h h' : ObjectStore α} {e : Event α} {a n : ℕ} {xs : List α}

/-- There is nothing at the address of a new object. -/
theorem ne_of_free {b : ℕ} (ha : h a = some xs) (hfree : h b = none) : a ≠ b := by
  rintro rfl
  rw [ha] at hfree
  cases hfree

/-- An event that keeps the first elements of an object does so wherever the object goes. -/
theorem Step.take_follow (hs : Step h e h') (hkeeps : e.Keeps n a) (ha : h a = some xs)
    (hn : n ≤ xs.length) :
    ∃ ys, h' (follow e a) = some ys ∧ n ≤ ys.length ∧ ys.take n = xs.take n := by
  cases hs with
  | idle => exact ⟨xs, ha, hn, rfl⟩
  | new hfree hlen =>
    exact ⟨xs, (Function.update_of_ne (ne_of_free ha hfree) _ _).trans ha, hn, rfl⟩
  | newFilled hfree =>
    exact ⟨xs, (Function.update_of_ne (ne_of_free ha hfree) _ _).trans ha, hn, rfl⟩
  | drop hb =>
    exact ⟨xs, (Function.update_of_ne (Ne.symm hkeeps) _ _).trans ha, hn, rfl⟩
  | @move b b' m zs ys hb hfree hlen htake =>
    by_cases hab : a = b
    · -- the object moves, and there is room for the elements
      subst hab
      obtain rfl : xs = zs := Option.some.inj (ha.symm.trans hb)
      have hm : n ≤ m := hkeeps rfl
      have hmin : min n (min m xs.length) = n := by omega
      refine ⟨ys, ?_, by omega, ?_⟩
      · rw [follow, if_pos rfl, Function.update_self]
      · have htake' := congrArg (List.take n) htake
        rwa [List.take_take, List.take_take, hmin] at htake'
    · refine ⟨xs, ?_, hn, rfl⟩
      rw [follow, if_neg hab, Function.update_of_ne (ne_of_free ha hfree),
        Function.update_of_ne hab, ha]
  | @write b x v zs hb hlo hhi =>
    by_cases hab : a = b
    · -- the element that changes is not one of the first
      subst hab
      obtain rfl : xs = zs := Option.some.inj (ha.symm.trans hb)
      have hx : n ≤ x - a := by
        rcases hkeeps with hx | hx
        · omega
        · omega
      refine ⟨xs.set (x - a) v, ?_, by rwa [List.length_set], List.take_set_of_le hx⟩
      exact Function.update_self ..
    · exact ⟨xs, (Function.update_of_ne hab _ _).trans ha, hn, rfl⟩

/-- An event that keeps all elements of an object and does not move it leaves it as it is. -/
theorem Step.eq_of_keeps (hs : Step h e h') (hkeeps : e.Keeps xs.length a)
    (hstay : ∀ a' n, e ≠ .move a a' n) (ha : h a = some xs) : h' a = some xs := by
  cases hs with
  | idle => exact ha
  | new hfree hlen => exact (Function.update_of_ne (ne_of_free ha hfree) _ _).trans ha
  | newFilled hfree => exact (Function.update_of_ne (ne_of_free ha hfree) _ _).trans ha
  | drop hb => exact (Function.update_of_ne (Ne.symm hkeeps) _ _).trans ha
  | @move b b' m zs ys hb hfree hlen htake =>
    have hab : a ≠ b := fun heq => hstay b' m (by rw [heq])
    rw [Function.update_of_ne (ne_of_free ha hfree), Function.update_of_ne hab, ha]
  | @write b x v zs hb hlo hhi =>
    by_cases hab : a = b
    · -- the element that changes would be one of the object
      subst hab
      obtain rfl : xs = zs := Option.some.inj (ha.symm.trans hb)
      rcases hkeeps with hx | hx
      · omega
      · omega
    · exact (Function.update_of_ne hab _ _).trans ha

/-- In a run in which every event keeps the first elements of an object, wherever the object is at
that time, they are still there in the end. -/
theorem take_of_reach {b : ℕ}
    (hreach : Runs.Reach Tracked (fun s e => e.Keeps n s.2) (h, a) (h', b))
    (ha : h a = some xs) (hn : n ≤ xs.length) :
    ∃ ys, h' b = some ys ∧ n ≤ ys.length ∧ ys.take n = xs.take n := by
  refine hreach.invariant
    (I := fun s => ∃ ys, s.1 s.2 = some ys ∧ n ≤ ys.length ∧ ys.take n = xs.take n)
    ⟨xs, ha, hn, rfl⟩ ?_
  rintro s e s' ⟨ys, hys, hlen, htake⟩ hkeeps ⟨hs, hfollow⟩
  obtain ⟨zs, hzs, hlen', htake'⟩ := hs.take_follow hkeeps hys hlen
  exact ⟨zs, hfollow ▸ hzs, hlen', htake'.trans htake⟩

end

/-! ## The objects of a list of blocks -/

/-- The values of `n` places. -/
def cells (f : ℕ → α) (n : ℕ) : List α := (List.range n).map f

section Cells

variable {f g : ℕ → α} {i n : ℕ}

@[simp] theorem length_cells (f : ℕ → α) (n : ℕ) : (cells f n).length = n := by simp [cells]

@[simp] theorem getElem_cells (hi : i < (cells f n).length) : (cells f n)[i] = f i := by
  simp [cells]

theorem cells_congr (h : ∀ i < n, g i = f i) : cells g n = cells f n :=
  List.map_congr_left fun i hi => h i (List.mem_range.1 hi)

/-- The value of one place changes. -/
theorem cells_set (h : ∀ j, j ≠ i → g j = f j) : cells g n = (cells f n).set i (g i) := by
  apply List.ext_getElem
  · simp
  · intro j hj hj'
    rw [List.getElem_set]
    by_cases hji : i = j
    · simp [hji]
    · simp [hji, h j (Ne.symm hji)]

/-- A write to one of the places, which lie in a row from `a` on. -/
theorem cells_update {β : Type} {m : ℕ → β} {f : β → α} {a x : ℕ} {w : β} (hlo : a ≤ x) :
    cells (fun i => f (Function.update m x w (a + i))) n =
      (cells (fun i => f (m (a + i))) n).set (x - a) (f w) := by
  have hx : a + (x - a) = x := Nat.add_sub_cancel' hlo
  have hset := cells_set (n := n) (i := x - a) (f := fun i => f (m (a + i)))
    (g := fun i => f (Function.update m x w (a + i)))
    fun j hj => congrArg f (Function.update_of_ne (by omega) _ _)
  rwa [hx, Function.update_self] at hset

end Cells

/-- The object at `a` is the first block with the key `a`. -/
def ofBlocks {β : Type} (key : β → ℕ) (contents : β → List α) (blocks : List β) : ObjectStore α :=
  fun a => (blocks.find? fun b => key b = a).map contents

section Blocks

variable {β : Type} {key : β → ℕ} {contents contents' : β → List α} {blocks : List β} {b : β}
  {a x : ℕ} {v : α} {xs : List α}

theorem ofBlocks_cons : ofBlocks key contents (b :: blocks) =
    Function.update (ofBlocks key contents blocks) (key b) (some (contents b)) := by
  funext a
  by_cases ha : a = key b
  · subst ha
    simp [ofBlocks]
  · have hne : ¬ key b = a := fun heq => ha heq.symm
    simp [ofBlocks, Function.update_of_ne ha, hne]

/-- The object at an address depends on the blocks with this key. -/
theorem ofBlocks_congr_at (h : ∀ b ∈ blocks, key b = a → contents' b = contents b) :
    ofBlocks key contents' blocks a = ofBlocks key contents blocks a := by
  unfold ofBlocks
  cases hfind : blocks.find? fun b => key b = a with
  | none => rfl
  | some b =>
    have hkey : key b = a := by simpa using List.find?_some hfind
    exact congrArg some (h b (List.mem_of_find?_eq_some hfind) hkey)

theorem ofBlocks_congr (h : ∀ b ∈ blocks, contents' b = contents b) :
    ofBlocks key contents' blocks = ofBlocks key contents blocks :=
  funext fun _ => ofBlocks_congr_at fun b hb _ => h b hb

theorem ofBlocks_eq_none (h : ∀ b ∈ blocks, key b ≠ a) : ofBlocks key contents blocks a = none := by
  rw [ofBlocks, Option.map_eq_none_iff, List.find?_eq_none]
  exact fun b hb => by simpa using h b hb

theorem ofBlocks_of_mem (hnodup : (blocks.map key).Nodup) (hb : b ∈ blocks) :
    ofBlocks key contents blocks (key b) = some (contents b) := by
  induction blocks with
  | nil => cases hb
  | cons c blocks ih =>
    rw [List.map_cons, List.nodup_cons] at hnodup
    rw [ofBlocks_cons]
    rcases List.mem_cons.1 hb with rfl | hb
    · exact Function.update_self ..
    · -- the other blocks have other keys
      have hne : key b ≠ key c := fun heq => hnodup.1 (heq ▸ List.mem_map_of_mem hb)
      rw [Function.update_of_ne hne]
      exact ih hnodup.2 hb

theorem exists_of_ofBlocks (h : ofBlocks key contents blocks a = some xs) :
    ∃ b ∈ blocks, key b = a ∧ xs = contents b := by
  obtain ⟨b, hfind, rfl⟩ := Option.map_eq_some_iff.1 h
  exact ⟨b, List.mem_of_find?_eq_some hfind, by simpa using List.find?_some hfind, rfl⟩

/-- The blocks with a key go away. -/
theorem ofBlocks_filter : ofBlocks key contents (blocks.filter fun b => key b ≠ a) =
    Function.update (ofBlocks key contents blocks) a none := by
  funext c
  by_cases hc : c = a
  · subst hc
    rw [Function.update_self]
    refine ofBlocks_eq_none fun b hb => ?_
    simpa using (List.mem_filter.1 hb).2
  · rw [Function.update_of_ne hc, ofBlocks, ofBlocks, List.find?_filter]
    -- a block with the other key is still there
    refine congrArg (Option.map contents) (congrArg (fun p => List.find? p blocks) ?_)
    funext b
    by_cases hb : key b = c
    · simp [hb, hc]
    · simp [hb]

/-- A block whose key is its own goes away. -/
theorem ofBlocks_erase [DecidableEq β] (hnodup : (blocks.map key).Nodup) (hb : b ∈ blocks) :
    ofBlocks key contents (blocks.erase b) =
      Function.update (ofBlocks key contents blocks) (key b) none := by
  have hne : ∀ c ∈ blocks, (c != b) = decide (key c ≠ key b) := by
    intro c hc
    have hinj : key c = key b ↔ c = b :=
      ⟨fun heq => List.inj_on_of_nodup_map hnodup hc hb heq, fun heq => heq ▸ rfl⟩
    by_cases hcb : c = b
    · simp [hcb]
    · simp [hcb, hinj]
  rw [List.Nodup.erase_eq_filter (List.Nodup.of_map key hnodup), List.filter_congr hne]
  exact ofBlocks_filter

/-- An element of one block changes. -/
theorem step_write_ofBlocks (hnodup : (blocks.map key).Nodup) (hb : b ∈ blocks)
    (hlo : key b ≤ x) (hhi : x < key b + (contents b).length)
    (hset : contents' b = (contents b).set (x - key b) v)
    (hothers : ∀ c ∈ blocks, key c ≠ key b → contents' c = contents c) :
    Step (ofBlocks key contents blocks) (.write x v) (ofBlocks key contents' blocks) := by
  have hnew : ofBlocks key contents' blocks = Function.update (ofBlocks key contents blocks) (key b)
      (some ((contents b).set (x - key b) v)) := by
    funext a
    by_cases ha : a = key b
    · rw [ha, Function.update_self, ← hset]
      exact ofBlocks_of_mem hnodup hb
    · rw [Function.update_of_ne ha]
      exact ofBlocks_congr_at fun c hc heq => hothers c hc fun hcb => ha (heq.symm.trans hcb)
  rw [hnew]
  exact .write (ofBlocks_of_mem hnodup hb) hlo hhi

end Blocks

end ObjectStore
