import Zalloc.Buddy.Availability
import Zalloc.Buddy.History
import Zalloc.Foundations.Numeral

/-!
# `buddy_dump`

The function prints the visible part of the tree: `[offset:pages]` for a used leaf, `(offset:pages)`
for an unused one, and the two halves of a node in braces if the node is full, in parentheses
otherwise. The recursion of the source has no bound of its own; `depth` bounds it here, and a
recursion that goes deeper gives nothing.

The text can be read back. `readRanges` collects the ranges behind an opening bracket.

## Main definitions

* `dumpNode`, `buddyDump`: the text that is printed.
* `readRanges`: the ranges in a text.

## Main results

* `buddyDump_ranges`: in every run, the brackets show the live blocks, in the order of their
  addresses, and the parentheses show what is free.
* `buddyDump_eq_iff`: two arenas have the same dump exactly if they have the same blocks.
-/

set_option autoImplicit false

open Numeral

namespace Zalloc

/-! ## Printing -/

/-- A range in brackets. -/
def rangeText (opening closing : Char) (offset pages : ℕ) : List Char :=
  opening :: decimal offset ++ ':' :: decimal pages ++ [closing]

/-- `_dump`. The level of a node is never above that of the tree, where the shift would be by a
negative number. -/
def dumpNode (self : Buddy) : ℕ → ℕ → ℤ → Option (List Char)
  | 0, _, _ => none
  | depth + 1, index, level =>
    let offset := indexOffset index level self.level
    let pages := 1 <<< ((self.level : ℤ) - level).toNat
    match (self.tree index).state with
    | .unused => some (rangeText '(' ')' offset pages)
    | .used => some (rangeText '[' ']' offset pages)
    | .full => do
      let left ← dumpNode self depth (u64 (index * 2 + 1)) (level + 1)
      let right ← dumpNode self depth (u64 (index * 2 + 2)) (level + 1)
      some ('{' :: left ++ right ++ ['}'])
    | .split => do
      let left ← dumpNode self depth (u64 (index * 2 + 1)) (level + 1)
      let right ← dumpNode self depth (u64 (index * 2 + 2)) (level + 1)
      some ('(' :: left ++ right ++ [')'])

/-- `buddy_dump`. -/
def buddyDump (depth : ℕ) (self : Buddy) : Option (List Char) :=
  (dumpNode self depth 0 0).map (· ++ ['\n'])

/-! ## Reading -/

/-- The two numbers that a text starts with, with one character in between. -/
def readRange (text : List Char) : ℕ × ℕ :=
  (readNumber text, readNumber ((text.dropWhile Char.isDigit).drop 1))

/-- The ranges behind an opening bracket. -/
def readRanges (opening : Char) : List Char → List (ℕ × ℕ)
  | [] => []
  | c :: text =>
    if c = opening ∧ startsWithDigit text = true then readRange text :: readRanges opening text
    else readRanges opening text

section Reading

variable {n offset pages : ℕ} {opening c d : Char} {text rest : List Char}

/-- A range is read back. -/
theorem readRange_text (hd : d.isDigit = false) :
    readRange (decimal offset ++ ':' :: (decimal pages ++ d :: rest)) = (offset, pages) := by
  rw [readRange, readNumber_decimal (by decide), dropWhile_decimal (by decide), List.drop_one,
    List.tail_cons, readNumber_decimal hd]

/-- A character that is no opening bracket does not count. -/
theorem readRanges_cons_of_ne (h : c ≠ opening) :
    readRanges opening (c :: text) = readRanges opening text := by
  rw [readRanges, if_neg fun hc => h hc.1]

theorem readRanges_append_of_ne {cs : List Char} (h : ∀ c ∈ cs, c ≠ opening) :
    readRanges opening (cs ++ text) = readRanges opening text := by
  induction cs with
  | nil => rfl
  | cons c cs ih =>
    rw [List.cons_append, readRanges_cons_of_ne (h c (List.mem_cons_self ..))]
    exact ih fun c hc => h c (List.mem_cons_of_mem _ hc)

theorem decimal_ne (h : opening.isDigit = false) : ∀ c ∈ decimal n, c ≠ opening := by
  rintro c hc rfl
  rw [isDigit_decimal c hc] at h
  cases h

/-- A bracket in front of another bracket opens no range. -/
theorem readRanges_cons_of_nested (h : startsWithDigit text = false) :
    readRanges opening (c :: text) = readRanges opening text := by
  rw [readRanges, if_neg fun hc => by rw [h] at hc; exact absurd hc.2 (by decide)]

/-- A range in the brackets that are looked for, and one in other brackets. -/
theorem readRanges_rangeText (hopening : opening.isDigit = false) (hcolon : ':' ≠ opening)
    (hclosing : d ≠ opening) (hd : d.isDigit = false) :
    readRanges opening (rangeText c d offset pages ++ rest) =
      (if c = opening then [(offset, pages)] else []) ++ readRanges opening rest := by
  -- behind the bracket there is nothing that opens a range
  have hrest : readRanges opening (decimal offset ++ ':' :: (decimal pages ++ d :: rest)) =
      readRanges opening rest := by
    rw [readRanges_append_of_ne (decimal_ne hopening), readRanges_cons_of_ne hcolon,
      readRanges_append_of_ne (decimal_ne hopening), readRanges_cons_of_ne hclosing]
  have hshape : rangeText c d offset pages ++ rest =
      c :: (decimal offset ++ ':' :: (decimal pages ++ d :: rest)) := by
    simp [rangeText]
  rw [hshape, readRanges, hrest]
  by_cases hc : c = opening
  · rw [if_pos ⟨hc, startsWithDigit_decimal⟩, if_pos hc, readRange_text hd, List.singleton_append]
  · rw [if_neg fun h => hc h.1, if_neg hc, List.nil_append]

end Reading

/-! ## The text of a partition -/

/-- What is printed for a partition of the `2 ^ k` pages from page `a` on. -/
def textOf : ℕ → ℕ → PTree ℕ → List Char
  | k, a, .free => rangeText '(' ')' (pageSize * a) (2 ^ k)
  | k, a, .block _ => rangeText '[' ']' (pageSize * a) (2 ^ k)
  | k + 1, a, .node l r =>
    (if l.full && r.full then '{' else '(') :: textOf k a l ++ textOf k (a + 2 ^ k) r ++
      [if l.full && r.full then '}' else ')']
  | 0, _, .node _ _ => []

section Text

variable {L k m pos a : ℕ} {self : Buddy} {t : PTree ℕ} {rest : List Char}

@[simp] theorem textOf_free (k a : ℕ) :
    textOf k a .free = rangeText '(' ')' (pageSize * a) (2 ^ k) := by cases k <;> rfl
@[simp] theorem textOf_block (k a s : ℕ) :
    textOf k a (.block s) = rangeText '[' ']' (pageSize * a) (2 ^ k) := by cases k <;> rfl
@[simp] theorem textOf_node (k a : ℕ) (l r : PTree ℕ) :
    textOf (k + 1) a (.node l r) =
      (if l.full && r.full then '{' else '(') :: textOf k a l ++ textOf k (a + 2 ^ k) r ++
        [if l.full && r.full then '}' else ')'] := rfl

/-- `_dump` prints the text of the partition below a node. -/
theorem dumpNode_of_represents (hL : self.level = k + m) (hle : k + m ≤ 29) (hpos : pos < 2 ^ m)
    (hrep : Represents self.tree k (2 ^ m + pos - 1) t) :
    dumpNode self (k + 1) (2 ^ m + pos - 1) m = some (textOf k (pos * 2 ^ k) t) := by
  induction t generalizing k m pos with
  | free =>
    rw [represents_free] at hrep
    have hpages : ((k + m : ℕ) - (m : ℕ) : ℤ).toNat = k := by omega
    rw [dumpNode, hrep, hL, indexOffset_eq hle hpos, hpages, Nat.one_shiftLeft, textOf_free]
  | block s =>
    rw [represents_block] at hrep
    have hpages : ((k + m : ℕ) - (m : ℕ) : ℤ).toNat = k := by omega
    rw [dumpNode, hrep, hL, indexOffset_eq hle hpos, hpages, Nat.one_shiftLeft, textOf_block]
  | node l r ihl ihr =>
    cases k with
    | zero => exact absurd hrep id
    | succ k =>
      obtain ⟨hstate, hleft, hright⟩ := represents_node.1 hrep
      have hm := Nat.two_pow_pos m
      have hpow : 2 ^ (m + 1) = 2 * 2 ^ m := by ring
      have hsmall : 2 ^ m ≤ 2 ^ 29 := Nat.pow_le_pow_right Nat.two_pos (by omega)
      -- the indices of the two halves
      have hil : 2 * (2 ^ m + pos - 1) + 1 = 2 ^ (m + 1) + 2 * pos - 1 := by omega
      have hir : 2 * (2 ^ m + pos - 1) + 2 = 2 ^ (m + 1) + (2 * pos + 1) - 1 := by omega
      have hul : u64 ((2 ^ m + pos - 1) * 2 + 1) = 2 ^ (m + 1) + 2 * pos - 1 := by
        rw [u64, Nat.mod_eq_of_lt (by omega)]
        omega
      have hur : u64 ((2 ^ m + pos - 1) * 2 + 2) = 2 ^ (m + 1) + (2 * pos + 1) - 1 := by
        rw [u64, Nat.mod_eq_of_lt (by omega)]
        omega
      rw [hil] at hleft
      rw [hir] at hright
      have hl := ihl (m := m + 1) (by omega) (by omega) (by omega) hleft
      have hr := ihr (m := m + 1) (by omega) (by omega) (by omega) hright
      have hal : 2 * pos * 2 ^ k = pos * 2 ^ (k + 1) := by ring
      have har : (2 * pos + 1) * 2 ^ k = pos * 2 ^ (k + 1) + 2 ^ k := by ring
      rw [hal] at hl
      rw [har] at hr
      push_cast at hl hr
      rw [dumpNode, hstate, hul, hur, textOf_node]
      cases hfull : l.full && r.full with
      | true =>
        simp only [hl, hr, if_true]
        rfl
      | false =>
        simp only [hl, hr, Bool.false_eq_true, if_false]
        rfl

/-- The text of a node starts with a bracket. -/
theorem startsWithDigit_textOf (hk : t.HeightLE k) :
    startsWithDigit (textOf k a t ++ rest) = false := by
  cases t with
  | free => simp [rangeText, startsWithDigit]
  | block s => simp [rangeText, startsWithDigit]
  | node l r =>
    cases k with
    | zero => exact absurd hk (by simp)
    | succ k =>
      rw [textOf_node]
      cases l.full && r.full <;> simp [startsWithDigit]

/-- The brackets show the blocks. -/
theorem readRanges_blocks (hk : t.HeightLE k) :
    readRanges '[' (textOf k a t ++ rest) =
      (t.blocks k a).map (fun e => (pageSize * e.start, 2 ^ e.order)) ++ readRanges '[' rest := by
  induction t generalizing k a rest with
  | free =>
    rw [textOf_free, readRanges_rangeText (by decide) (by decide) (by decide) (by decide)]
    simp
  | block s =>
    rw [textOf_block, readRanges_rangeText (by decide) (by decide) (by decide) (by decide)]
    simp
  | node l r ihl ihr =>
    cases k with
    | zero => exact absurd hk (by simp)
    | succ k =>
      obtain ⟨hkl, hkr⟩ := (PTree.heightLE_node_succ k l r).1 hk
      have hopen : (if l.full && r.full then '{' else '(') ≠ '[' := by split_ifs <;> decide
      have hclose : (if l.full && r.full then '}' else ')') ≠ '[' := by split_ifs <;> decide
      rw [textOf_node, List.append_assoc, List.append_assoc, List.cons_append,
        readRanges_cons_of_ne hopen, ihl hkl, ihr hkr, List.singleton_append,
        readRanges_cons_of_ne hclose, PTree.blocks_node, List.map_append, List.append_assoc]

/-- The parentheses around numbers show the free leaves. -/
theorem readRanges_frees (hk : t.HeightLE k) :
    readRanges '(' (textOf k a t ++ rest) =
      (t.frees k a).map (fun e => (pageSize * e.start, 2 ^ e.order)) ++ readRanges '(' rest := by
  induction t generalizing k a rest with
  | free =>
    rw [textOf_free, readRanges_rangeText (by decide) (by decide) (by decide) (by decide)]
    simp
  | block s =>
    rw [textOf_block, readRanges_rangeText (by decide) (by decide) (by decide) (by decide)]
    simp
  | node l r ihl ihr =>
    cases k with
    | zero => exact absurd hk (by simp)
    | succ k =>
      obtain ⟨hkl, hkr⟩ := (PTree.heightLE_node_succ k l r).1 hk
      have hclose : (if l.full && r.full then '}' else ')') ≠ '(' := by split_ifs <;> decide
      -- the parenthesis of a node is in front of another bracket
      rw [textOf_node, List.append_assoc, List.append_assoc, List.cons_append,
        readRanges_cons_of_nested (startsWithDigit_textOf hkl), ihl hkl, ihr hkr,
        List.singleton_append, readRanges_cons_of_ne hclose, PTree.frees_node, List.map_append,
        List.append_assoc]

/-- The text depends on the shape of the partition only. -/
theorem textOf_congr {t' : PTree ℕ} (h : PTree.SameShape t t') : textOf k a t = textOf k a t' := by
  induction t generalizing k a t' with
  | free =>
    rw [h.eq_free_iff.1 rfl]
  | block s =>
    cases t' with
    | block s' => simp
    | free => cases h
    | node l' r' => cases h
  | node l r ihl ihr =>
    obtain ⟨l', r', rfl⟩ := h.exists_node
    cases k with
    | zero => rfl
    | succ k =>
      rw [textOf_node, textOf_node, ihl h.node_left, ihr h.node_right, h.node_left.full_eq,
        h.node_right.full_eq]

end Text

/-! ## Runs -/

section Run

variable {L : ℕ} {lib : Bool} {memory : ℕ → Node} {self : Buddy} {c c₁ c₂ : Config}
  {t t₁ t₂ : PTree ℕ}

/-- What is printed is the text of the partition. -/
theorem Inv.buddyDump (h : Inv L c t) (hL : L ≤ 29) :
    buddyDump (L + 1) c.self = some (textOf L 0 t ++ ['\n']) := by
  have hroot : dumpNode c.self (L + 1) (2 ^ 0 + 0 - 1) 0 = some (textOf L (0 * 2 ^ L) t) :=
    dumpNode_of_represents h.level hL (Nat.two_pow_pos 0) h.rep
  rw [Nat.zero_mul] at hroot
  rw [Zalloc.buddyDump]
  exact congrArg (Option.map (· ++ ['\n'])) hroot

/-- The ranges of a dump in brackets are the live blocks, in the order of their addresses. -/
theorem Inv.readRanges_dump (h : Inv L c t) :
    (readRanges '[' (textOf L 0 t ++ ['\n'])).Perm (c.live.map fun b => (b.offset, b.pages)) ∧
      (readRanges '[' (textOf L 0 t ++ ['\n'])).Pairwise fun x y => x.1 + pageSize * x.2 ≤ y.1 := by
  rw [readRanges_blocks h.heightLE, show readRanges '[' ['\n'] = [] by decide, List.append_nil]
  constructor
  · -- the blocks of the partition are the live ones
    refine ((h.perm.map fun b => (b.offset, b.pages)).trans ?_).symm
    rw [List.map_map]
    rfl
  · rw [List.pairwise_map]
    refine PTree.pairwise_blocks.imp fun {e f} hle => ?_
    rw [Extent.stop] at hle
    simp only [pageSize]
    omega

/-- A page is in a range of a dump in parentheses exactly if it is in no live block. -/
theorem Inv.readRanges_free (h : Inv L c t) {x : ℕ} (hx : x < 2 ^ L) :
    (∃ r ∈ readRanges '(' (textOf L 0 t ++ ['\n']),
      r.1 ≤ pageSize * x ∧ pageSize * x < r.1 + pageSize * r.2) ↔
        ∀ b ∈ c.live, ¬ b.Meets x (x + 1) := by
  have hblocks : (∀ b ∈ c.live, ¬ b.Meets x (x + 1)) ↔
      ∀ e ∈ t.blocks L 0, ¬ e.Meets x (x + 1) := by
    constructor
    · exact fun hfree e he hm => hfree _ ((h.live _).2 ⟨e, he, rfl⟩) (blockOf_meets.2 hm)
    · intro hfree b hb hm
      obtain ⟨e, he, rfl⟩ := (h.live b).1 hb
      exact hfree e he (blockOf_meets.1 hm)
  rw [hblocks, ← PTree.exists_free_iff h.heightLE (Nat.zero_le x) (by omega),
    readRanges_frees h.heightLE, show readRanges '(' ['\n'] = [] by decide, List.append_nil]
  simp only [List.mem_map, exists_exists_and_eq_and, Extent.Meets, Extent.stop, pageSize]
  refine exists_congr fun f => and_congr_right fun _ => ?_
  omega

/-- In every run of allowed steps the dump shows the state of the arena: in brackets the live
blocks, in the order of their addresses, and in parentheses the pages that are in no block. -/
theorem buddyDump_ranges (hL : L ≤ 29) (hnew : buddyNew lib memory (L + 12) = some self)
    (hreach : Runs.Reach (Step levelByte) (Allowed L) ⟨self, []⟩ c) :
    ∃ text, buddyDump (L + 1) c.self = some text ∧
      (readRanges '[' text).Perm (c.live.map fun b => (b.offset, b.pages)) ∧
      (readRanges '[' text).Pairwise (fun x y => x.1 + pageSize * x.2 ≤ y.1) ∧
      ∀ x < 2 ^ L, (∃ r ∈ readRanges '(' text,
        r.1 ≤ pageSize * x ∧ pageSize * x < r.1 + pageSize * r.2) ↔
          ∀ b ∈ c.live, ¬ b.Meets x (x + 1) := by
  obtain ⟨t, h⟩ := reach_inv hL hnew hreach
  obtain ⟨hperm, hsorted⟩ := h.readRanges_dump
  exact ⟨_, h.buddyDump hL, hperm, hsorted, fun x hx => h.readRanges_free hx⟩

/-- Two arenas that are reached by allowed steps have the same dump exactly if their live blocks
have the same offsets and page counts. -/
theorem buddyDump_eq_iff {lib' : Bool} {memory' : ℕ → Node} {self' : Buddy} (hL : L ≤ 29)
    (hnew : buddyNew lib memory (L + 12) = some self)
    (hnew' : buddyNew lib' memory' (L + 12) = some self')
    (hreach : Runs.Reach (Step levelByte) (Allowed L) ⟨self, []⟩ c₁)
    (hreach' : Runs.Reach (Step levelByte) (Allowed L) ⟨self', []⟩ c₂) :
    buddyDump (L + 1) c₁.self = buddyDump (L + 1) c₂.self ↔ SameBlocks c₁ c₂ := by
  obtain ⟨t₁, h₁⟩ := reach_inv hL hnew hreach
  obtain ⟨t₂, h₂⟩ := reach_inv hL hnew' hreach'
  rw [h₁.buddyDump hL, h₂.buddyDump hL]
  constructor
  · intro heq
    -- the blocks can be read back
    have hperm := h₁.readRanges_dump.1
    rw [Option.some.inj heq] at hperm
    have hsame := hperm.symm.trans h₂.readRanges_dump.1
    intro o p
    have hmem := hsame.mem_iff (a := (o, p))
    simpa [SameBlocks] using hmem
  · intro hsame
    rw [textOf_congr (h₁.alike h₂ hsame).shape]

end Run

/-! ## Two pages -/

theorem buddyDump_ranges_page : ∃ text, buddyDump 2 oneBlock.self = some text ∧
    (readRanges '[' text).Perm [(0, 1)] := by
  obtain ⟨text, htext, hperm, -⟩ := buddyDump_ranges (L := 1) (by decide) buddyNew_twoPages
    (reach_oneBlock (.inr (.inl hasRoom_first_page)))
  exact ⟨text, htext, hperm⟩

example : (buddyDump 2 oneBlock.self).map String.ofList = some "([0:1](4096:1))\n" := by
  decide +kernel

theorem buddyDump_eq_iff_page :
    buddyDump 2 oneBlock.self = buddyDump 2 twoPages ↔ SameBlocks oneBlock ⟨twoPages, []⟩ := by
  have hstart : Runs.Reach (Step levelByte) (Allowed 1) ⟨twoPages, []⟩ ⟨twoPages, []⟩ := .start
  exact buddyDump_eq_iff (by decide) buddyNew_twoPages buddyNew_twoPages
    (reach_oneBlock (.inr (.inl hasRoom_first_page))) hstart

end Zalloc
