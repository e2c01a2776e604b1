import Mathlib.Logic.Function.Basic
import Zalloc.Buddy.Request
import Zalloc.Foundations.Program
import Zalloc.Foundations.Word

/-!
# The buddy tree

The functions of `buddy.c` over the array `self->tree`. Node `i` of the array has the children
`2 * i + 1` and `2 * i + 2`; the root covers the whole arena of `2 ^ level` pages.

Loops are `Prog.loop`s whose loop variables are those of the source, and a failed `assert` is
`Prog.abort`. The store of the programs is the tree together with a record of the elements of
`self->tree` that have been read or written, which the source does not have.

`uint64_t` arithmetic is arithmetic on `ℕ` reduced with `u64` wherever it can wrap.

## The element before the tree

Line 187 reads `tree[index]` with `index = (uint64_t) -1` once the climb has passed the root. The
state byte of that element is the byte in front of `tree[0]`. What this read gives is a parameter
`before` of the programs that make it. In the packed layout of `struct buddy` it is the field
`level` (`levelByte`).
-/

set_option autoImplicit false

namespace Zalloc

/-! ## Data -/

/-- The values of `node.state`. -/
inductive NodeState where
  /-- `NODE_UNUSED`, 0. -/
  | unused
  /-- `NODE_USED`, 1. -/
  | used
  /-- `NODE_SPLIT`, 2. -/
  | split
  /-- `NODE_FULL`, 3. -/
  | full
deriving DecidableEq, Repr

/-- The byte that stands for a state. -/
def NodeState.toByte : NodeState → ℕ
  | unused => 0
  | used => 1
  | split => 2
  | full => 3

/-- `struct node`. -/
structure Node where
  /-- The number of pages of the block. -/
  pages : ℕ
  /-- The requested number of bytes. -/
  used : ℕ
  /-- The state of the node. -/
  state : NodeState
deriving DecidableEq, Repr

/-- `struct buddy`. The array is a function of the index; beyond the last element it stands for
whatever the memory behind the array holds. -/
structure Buddy where
  /-- The number of levels below the root. -/
  level : ℕ
  /-- The nodes. -/
  tree : ℕ → Node

/-- The value of the byte in front of `tree[0]` in the packed layout: `level` is the field before
`tree`. -/
def levelByte (self : Buddy) : ℕ := self.level

/-- `MAX_NODE`. -/
def maxNode : ℕ := 1048575

/-- `buddy_new`. With the macro `LIB` the tree is a static array of `maxNode` elements, otherwise
it is allocated; `memory` is what the memory of the array holds before the call. -/
def buddyNew (lib : Bool) (memory : ℕ → Node) (level : ℕ) : Option Buddy :=
  let sizeTotal := 2 ^ level
  if sizeTotal < pageSize then none
  else
    let pageLevel := level - 12
    let sizeNode := 1 <<< (pageLevel + 1) - 1
    if lib ∧ sizeNode > maxNode then none
    else some {
      level := pageLevel
      tree := fun i => if i < sizeNode then ⟨0, 0, .unused⟩ else memory i }

/-- The tree an operation works on, with the indices of the elements of `self->tree` it has read
or written, the latest first. -/
structure Traced where
  /-- The tree. -/
  self : Buddy
  /-- The record of accesses. -/
  touched : List ℕ

namespace Traced

/-- Record an access to `tree[index]`. -/
def touch (m : Traced) (index : ℕ) : Traced := { m with touched := index :: m.touched }

/-- Replace `tree[index]`. -/
def setNode (m : Traced) (index : ℕ) (node : Node) : Traced :=
  { self := { m.self with tree := Function.update m.self.tree index node }
    touched := index :: m.touched }

/-- Replace `tree[index].state`. -/
def setState (m : Traced) (index : ℕ) (state : NodeState) : Traced :=
  m.setNode index { m.self.tree index with state }

end Traced

/-- Programs that work on a buddy tree. -/
abbrev TreeProg := Prog Traced

/-- Read `tree[index].state`. -/
def readState (index : ℕ) : TreeProg NodeState :=
  ⟨fun _ m => .ret (m.touch index) (m.self.tree index).state, fun _ _ _ => rfl⟩

/-- Write `tree[index].state`. -/
def writeState (index : ℕ) (state : NodeState) : TreeProg Unit :=
  Prog.modify fun m => m.setState index state

/-- Lines 137 to 139: write the three fields of `tree[index]`. -/
def writeUsed (index size s : ℕ) : TreeProg Unit :=
  Prog.modify fun m => m.setNode index ⟨size, s, .used⟩

/-- `1 << self->level`. -/
def pageTotal : TreeProg ℕ := Prog.read fun m => 1 <<< m.self.level

section

variable {m m' : Traced} {index size s length : ℕ} {state : NodeState} {u : Unit}

@[simp] theorem returns_readState_iff :
    (readState index).Returns m m' state ↔
      m' = m.touch index ∧ state = (m.self.tree index).state := by
  simp [Prog.Returns, readState, eq_comm]

@[simp] theorem returns_writeState_iff :
    (writeState index state).Returns m m' u ↔ m' = m.setState index state := by
  simp [writeState]

@[simp] theorem returns_writeUsed_iff :
    (writeUsed index size s).Returns m m' u ↔ m' = m.setNode index ⟨size, s, .used⟩ := by
  simp [writeUsed]

@[simp] theorem returns_pageTotal_iff :
    pageTotal.Returns m m' length ↔ m' = m ∧ length = 2 ^ m.self.level := by
  simp [pageTotal, Nat.one_shiftLeft]

@[simp] theorem not_aborts_readState : ¬ (readState index).Aborts m m' := by
  simp [Prog.Aborts, readState]

@[simp] theorem not_aborts_writeState : ¬ (writeState index state).Aborts m m' := by
  simp [writeState]

@[simp] theorem not_aborts_pageTotal : ¬ pageTotal.Aborts m m' := by
  simp [pageTotal]

end

/-! ## Tree indices -/

/-- `int buddy = index - 1 + (index & 1) * 2`: the other child of the same parent, and `-1` at the
root. -/
def buddyIndex (index : ℕ) : ℤ := toInt (u64 (u64Sub index 1 + (index &&& 1) * 2))

/-- `(index + 1) / 2 - 1`, which is `(uint64_t) -1` at the root. -/
def parentIndex (index : ℕ) : ℕ := u64Sub (u64 (index + 1) / 2) 1

/-- `_index_offset`. -/
def indexOffset (index : ℕ) (level maxLevel : ℤ) : ℕ :=
  u64 (pageSize *
    u64 (u64Sub (u64 (index + 1)) (1 <<< level.toNat) <<< (maxLevel - level).toNat))

/-! ## Allocation -/

/-- One iteration of the loop of `_mark_parent`. -/
def markParentBody (index : ℕ) : TreeProg (ℕ ⊕ Unit) := do
  let buddy := buddyIndex index
  if buddy > 0 then
    let state ← readState buddy.toNat
    if state = .used ∨ state = .full then
      let index := parentIndex index
      writeState index .full
      pure (.inl index)
    else pure (.inr ())
  else pure (.inr ())

/-- `_mark_parent`. -/
def markParent (index : ℕ) : TreeProg Unit := Prog.loop markParentBody index

/-- Where the search of `buddy_alloc` stands: at the head of the `while` loop of line 134, or at
the head of the `for` loop of line 165 inside it. -/
inductive SearchPoint where
  /-- Line 134. -/
  | visit
  /-- Line 165. -/
  | climb
deriving DecidableEq, Repr

/-- The variables of the search. -/
structure Cursor where
  /-- The loop that runs next. -/
  point : SearchPoint
  /-- `uint64_t index`. -/
  index : ℕ
  /-- `int level`. -/
  level : ℤ
  /-- `uint64_t length`. -/
  length : ℕ
deriving DecidableEq, Repr

/-- Lines 161 to 164 and 171 to 174: from a left child go to its sibling, from a right child (and
from the root) climb. -/
def advance (index : ℕ) (level : ℤ) (length : ℕ) : Cursor :=
  if index &&& 1 = 1 then ⟨.visit, u64 (index + 1), level, length⟩
  else ⟨.climb, index, level, length⟩

/-- Lines 155 to 158: go to the left child. -/
def descend (index : ℕ) (level : ℤ) (length : ℕ) : Cursor :=
  ⟨.visit, u64 (index * 2 + 1), level + 1, length / 2⟩

/-- One iteration of the search for `size` pages, of the outer or of the inner loop. It exits at
the node to be taken. The tests `index >= 0` and `index < 0` are about a `uint64_t`, so the first
is always true and the second never: the search has no other exit. -/
def searchBody (size : ℕ) (c : Cursor) : TreeProg (Cursor ⊕ Cursor) :=
  match c.point with
  | .visit => do
    let state ← readState c.index
    if size = c.length then
      if state = .unused then pure (.inr c)
      else pure (.inl (advance c.index c.level c.length))
    else
      match state with
      | .used => pure (.inl (advance c.index c.level c.length))
      | .full => pure (.inl (advance c.index c.level c.length))
      | .unused => do
        writeState c.index .split
        writeState (u64 (c.index * 2 + 1)) .unused
        writeState (u64 (c.index * 2 + 2)) .unused
        pure (.inl (descend c.index c.level c.length))
      | .split => pure (.inl (descend c.index c.level c.length))
  | .climb =>
    pure (.inl (advance (parentIndex c.index) (c.level - 1) (u64 (c.length * 2))))

/-- `buddy_alloc`. -/
def buddyAlloc (s : ℕ) : TreeProg ℕ := do
  let size := allocSize s
  let length ← pageTotal
  if size > length then pure u64Max
  else
    let c ← Prog.loop (searchBody size) ⟨.visit, 0, 0, length⟩
    writeUsed c.index size s
    markParent c.index
    let maxLevel ← Prog.read fun m => m.self.level
    pure (indexOffset c.index c.level maxLevel)

/-! ## Release -/

/-- One iteration of the `for` loop of `_combine`: go up while the buddy is unused. -/
def combineBody (index : ℕ) : TreeProg (ℕ ⊕ ℕ) := do
  let buddy := buddyIndex index
  if buddy < 0 then pure (.inr index)
  else
    let state ← readState buddy.toNat
    if state ≠ .unused then pure (.inr index)
    else pure (.inl (parentIndex index))

/-- The test `self->tree[index].state == NODE_FULL` of line 187. -/
def readFull (before : Buddy → ℕ) (index : ℕ) : TreeProg Bool :=
  ⟨fun _ m => .ret (m.touch index)
    (if index = u64Max then before m.self == NodeState.full.toByte
      else (m.self.tree index).state == .full), fun _ _ _ => rfl⟩

/-- The assignment `self->tree[index].state = NODE_SPLIT` of line 188. Before `tree[0]` it
overwrites `level`. -/
def writeSplit (index : ℕ) : TreeProg Unit :=
  Prog.modify fun m =>
    if index = u64Max then
      { self := { m.self with level := NodeState.split.toByte }, touched := index :: m.touched }
    else m.setState index .split

@[simp] theorem returns_readFull_iff {before : Buddy → ℕ} {index : ℕ} {m m' : Traced} {b : Bool} :
    (readFull before index).Returns m m' b ↔
      m' = m.touch index ∧ b = (if index = u64Max then before m.self == NodeState.full.toByte
        else (m.self.tree index).state == .full) := by
  simp [Prog.Returns, readFull, eq_comm]

/-- One iteration of the `while` loop of line 187: downgrade a full ancestor. The test
`index >= 0` is always true. -/
def downgradeBody (before : Buddy → ℕ) (index : ℕ) : TreeProg (ℕ ⊕ Unit) := do
  let index := parentIndex index
  let full ← readFull before index
  if full then
    writeSplit index
    pure (.inl index)
  else pure (.inr ())

/-- `_combine`. -/
def combine (before : Buddy → ℕ) (index : ℕ) : TreeProg Unit := do
  let index ← Prog.loop combineBody index
  writeState index .unused
  Prog.loop (downgradeBody before) index

/-! ## Lookup -/

/-- The variables of the walk from the root to a page, which `buddy_free`, `buddy_page_size` and
`buddy_used_size` each make. -/
structure Walk where
  /-- `uint64_t index`. -/
  index : ℕ
  /-- `uint64_t left`. -/
  left : ℕ
  /-- `uint64_t length`. -/
  length : ℕ
deriving DecidableEq, Repr

/-- One iteration of the walk to page `offset`. It exits at a used node that starts there. -/
def walkBody (offset : ℕ) (w : Walk) : TreeProg (Walk ⊕ Walk) := do
  let state ← readState w.index
  match state with
  | .used =>
    Prog.require fun _ => offset = w.left
    pure (.inr w)
  | .unused => Prog.abort
  | _ =>
    let length := w.length / 2
    if offset < u64 (w.left + length) then
      pure (.inl ⟨u64 (w.index * 2 + 1), w.left, length⟩)
    else
      pure (.inl ⟨u64 (w.index * 2 + 2), u64 (w.left + length), length⟩)

/-- The walk to page `offset`, with the assertion in front of it. -/
def walk (offset : ℕ) : TreeProg Walk := do
  let length ← pageTotal
  Prog.require fun _ => offset < length
  Prog.loop (walkBody offset) ⟨0, 0, length⟩

/-- `buddy_free`. -/
def buddyFree (before : Buddy → ℕ) (offset : ℕ) : TreeProg Unit := do
  let w ← walk (offset / pageSize)
  combine before w.index

/-- `buddy_page_size`. Unlike its siblings it takes its argument as a page number. -/
def buddyPageSize (offset : ℕ) : TreeProg ℕ := do
  let w ← walk offset
  pure w.length

/-- `buddy_used_size`. -/
def buddyUsedSize (offset : ℕ) : TreeProg ℕ := do
  let w ← walk (offset / pageSize)
  Prog.read fun m => (m.self.tree w.index).used

end Zalloc
