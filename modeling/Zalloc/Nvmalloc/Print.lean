import Mathlib.Data.List.Range
import Zalloc.Foundations.Numeral
import Zalloc.Nvmalloc.Blocks

/-!
# `nvmalloc_print`

The function prints a mark for each unit of the arena, in lines of one page: `f` in the free zone,
`o` if the bit of the unit is set, and `_` otherwise. Then it prints the lists of hints, a line for
each.

The text can be read back. `readMarks` collects the marks, and `readHints` the numbers in the line
of a list.

## Main definitions

* `nvmallocPrint`: the text that is printed.
* `readMarks`, `readHints`: what the text tells.
* `Shows c text`: the text shows the blocks, the free zone and the hints.

## Main results

* `nvmallocPrint_shows`: in every run `nvmalloc_print` returns such a text, and changes nothing.
-/

set_option autoImplicit false

open BitArray Numeral

namespace Zalloc

/-! ## Printing -/

/-- One iteration of the loop of lines 683 to 704, over `i` and the text so far. -/
def unitBody (units : ℕ) : ℕ × List Char → NvProg ((ℕ × List Char) ⊕ List Char)
  | (i, text) =>
    if i < units then do
      let line := if i % (nvPageSize / baseSize) = 0 then ['\n'] else []
      let freeZone ← Prog.read fun st => st.freeZone
      if i ≥ freeZone / baseSize then pure (.inl (u32 (i + 1), text ++ (line ++ [' ', 'f', ' '])))
      else do
        let byte ← getByte (i >>> 3)
        let mark := if byte &&& 1 <<< (i &&& 0x00000007) ≠ 0 then 'o' else '_'
        pure (.inl (u32 (i + 1), text ++ (line ++ [' ', mark, ' '])))
    else pure (.inr text)

/-- The line of a list: lines 709 to 717. -/
def listText (i : ℕ) (positions : List ℕ) : List Char :=
  ['L', 'i', 's', 't', ' '] ++ (decimal i ++ ':' :: ' ' ::
    (positions.flatMap fun position => decimal (position / baseSize) ++ [' ', '-', '>', ' ']) ++
      ['N', 'U', 'L', 'L', '\n'])

/-- One iteration of the loop of lines 707 to 718, over `i` and the text so far. -/
def listBody : ℕ × List Char → NvProg ((ℕ × List Char) ⊕ List Char)
  | (i, text) =>
    if i ≤ nrSizes then do
      let positions ← getFreeList i
      pure (.inl (u32 (i + 1), text ++ listText i positions))
    else pure (.inr text)

/-- `nvmalloc_print`, which returns the text here. -/
def nvmallocPrint : NvProg (List Char) := do
  let units ← Prog.read fun st => st.endAddress / baseSize
  let text ← Prog.loop (unitBody units) (0, [])
  Prog.loop listBody (0, text ++ ['\n'])

/-! ## Reading -/

/-- The marks in a text. -/
def readMarks (text : List Char) : List Char := text.filter fun c => c = 'f' ∨ c = 'o' ∨ c = '_'

/-- The numbers in the line of the list `i`. -/
def readHints (i : ℕ) (text : List Char) : List ℕ :=
  ((((readNumbers text).dropWhile fun x => x ≠ (i, some ':')).drop 1).takeWhile
    fun x => x.2 = some ' ').map Prod.fst

/-- The text shows the blocks, the free zone and the hints. -/
structure Shows (c : NvConfig) (text : List Char) : Prop where
  /-- There is a mark for each unit of the arena. -/
  length : 64 * (readMarks text).length = c.st.endAddress
  /-- The units of the free zone. -/
  zone : ∀ u < (readMarks text).length, (readMarks text)[u]? = some 'f' ↔ c.st.freeZone ≤ 64 * u
  /-- The units of the live and of the waiting blocks. -/
  blocks : ∀ u < (readMarks text).length, (readMarks text)[u]? = some 'o' ↔
    ∃ b ∈ c.blocks, b.location ≤ 64 * u ∧ 64 * u + 64 ≤ b.location + b.size
  /-- The other ones. -/
  gaps : ∀ u < (readMarks text).length, (readMarks text)[u]? = some '_' ↔
    64 * u < c.st.freeZone ∧
      ∀ b ∈ c.blocks, ¬ (b.location ≤ 64 * u ∧ 64 * u + 64 ≤ b.location + b.size)
  /-- The hints, in their order. -/
  hints : ∀ i ≤ nrSizes, (readHints i text).map (64 * ·) = c.st.freeLists i

/-! ## The units -/

/-- The mark of a unit. -/
def markOf (st : NvState) (u : ℕ) : Char :=
  if st.zone ≤ u then 'f' else if st.bit u = true then 'o' else '_'

/-- What is printed for a unit. -/
def unitText (st : NvState) (u : ℕ) : List Char :=
  (if u % (nvPageSize / baseSize) = 0 then ['\n'] else []) ++ [' ', markOf st u, ' ']

section Units

variable {st : NvState} {i n u units : ℕ} {text rest : List Char}

/-- What the mark of a unit tells. -/
theorem markOf_iff : (markOf st u = 'f' ↔ st.zone ≤ u) ∧
    (markOf st u = 'o' ↔ u < st.zone ∧ st.bit u = true) ∧
    (markOf st u = '_' ↔ u < st.zone ∧ st.bit u = false) := by
  unfold markOf
  by_cases hle : st.zone ≤ u
  · simp [hle]
  · have hlt : u < st.zone := by omega
    cases hbit : st.bit u
    · simp [hle, hlt]
    · simp [hle, hlt]

/-- One unit is printed. -/
theorem returns_unitBody (hzone : st.zone ≤ 8 * st.bitmapSize) (hi : i < units)
    (hlt : units < 2 ^ 32) :
    (unitBody units (i, text)).Returns st st (.inl (i + 1, text ++ unitText st i)) := by
  unfold unitBody unitText markOf
  dsimp only
  rw [if_pos hi, u32_eq (by omega)]
  refine (Prog.returns_read _ _).bind ?_
  by_cases hle : st.zone ≤ i
  · rw [if_pos hle, if_pos (show i ≥ st.freeZone / baseSize from hle)]
    exact Prog.returns_pure _ _
  · have hread : (getByte (i >>> 3)).Returns st st (st.bitmap (i / 8)) := by
      rw [Nat.shiftRight_eq_div_pow]
      exact returns_getByte (by omega)
    have hmask : i &&& 0x00000007 = i % 8 := Nat.and_two_pow_sub_one_eq_mod i 3
    have hbit : (st.bitmap (i / 8) &&& 1 <<< (i &&& 0x00000007) ≠ 0) ↔ st.bit i = true := by
      rw [hmask, ne_eq, and_cursor_eq_zero_iff, Bool.not_eq_false]
    rw [if_neg hle, if_neg (show ¬ i ≥ st.freeZone / baseSize from hle)]
    refine hread.bind ?_
    simp only [hbit]
    exact Prog.returns_pure _ _

/-- The units from `i` on are printed. -/
theorem returns_unitLoop (hzone : st.zone ≤ 8 * st.bitmapSize) (hlt : i + n < 2 ^ 32) :
    (Prog.loop (unitBody (i + n)) (i, text)).Returns st st
      (text ++ (List.range' i n).flatMap (unitText st)) := by
  induction n generalizing i text with
  | zero =>
    refine Prog.Returns.loop_exit ?_
    unfold unitBody
    dsimp only
    rw [if_neg (by omega), List.range'_zero, List.flatMap_nil, List.append_nil]
    exact Prog.returns_pure _ _
  | succ n ih =>
    have hnext := @ih (i + 1) (text ++ unitText st i) (by omega)
    rw [show i + 1 + n = i + (n + 1) by omega, List.append_assoc] at hnext
    exact (returns_unitBody hzone (by omega) hlt).loop_next hnext

/-- The marks are read back. -/
theorem readMarks_units : readMarks ((List.range' i n).flatMap (unitText st)) =
    (List.range' i n).map (markOf st) := by
  have hunit : ∀ u, readMarks (unitText st u) = [markOf st u] := by
    intro u
    unfold readMarks unitText markOf
    split_ifs <;> rfl
  induction n generalizing i with
  | zero => rfl
  | succ n ih =>
    rw [List.range'_succ, List.flatMap_cons, List.map_cons, readMarks, List.filter_append]
    exact congrArg₂ (· ++ ·) (hunit i) ih

/-- There are no digits among the units. -/
theorem isDigit_units : ((List.range' i n).flatMap (unitText st)).any Char.isDigit = false := by
  have hunit : ∀ u, (unitText st u).any Char.isDigit = false := by
    intro u
    unfold unitText markOf
    split_ifs <;> decide
  rw [List.any_flatMap, List.any_eq_false]
  exact fun u _ => Bool.eq_false_iff.1 (hunit u)

end Units

/-! ## The lists -/

section Lists

variable {st : NvState} {i j n : ℕ} {positions : List ℕ} {lists : ℕ → List ℕ}
  {text rest : List Char}

/-- The lists from `i` on are printed. -/
theorem returns_listLoop (h : i + n = nrSizes + 1) :
    (Prog.loop listBody (i, text)).Returns st st
      (text ++ (List.range' i n).flatMap fun j => listText j (st.freeLists j)) := by
  rw [nrSizes_eq] at h
  induction n generalizing i text with
  | zero =>
    refine Prog.Returns.loop_exit ?_
    unfold listBody
    dsimp only
    rw [if_neg (by rw [nrSizes_eq]; omega), List.range'_zero, List.flatMap_nil, List.append_nil]
    exact Prog.returns_pure _ _
  | succ n ih =>
    have hnext := @ih (i + 1) (text ++ listText i (st.freeLists i)) (by omega)
    rw [List.append_assoc] at hnext
    refine Prog.Returns.loop_next ?_ hnext
    unfold listBody
    dsimp only
    rw [if_pos (by rw [nrSizes_eq]; omega), u32_eq (by omega)]
    exact (returns_getFreeList (by rw [nrSizes_eq]; omega)).bind (Prog.returns_pure _ _)

theorem readMarks_append (text rest : List Char) :
    readMarks (text ++ rest) = readMarks text ++ readMarks rest := List.filter_append ..

theorem readMarks_decimal {m : ℕ} : readMarks (decimal m) = [] := by
  refine List.filter_eq_nil_iff.2 fun c hc hno => ?_
  have hdigit := isDigit_decimal c hc
  rw [decide_eq_true_iff] at hno
  rcases hno with rfl | rfl | rfl
  · exact absurd hdigit (by decide)
  · exact absurd hdigit (by decide)
  · exact absurd hdigit (by decide)

/-- The line of a list has no marks. -/
theorem readMarks_listText : readMarks (listText i positions) = [] := by
  have hpositions : readMarks (positions.flatMap fun position =>
      decimal (position / baseSize) ++ [' ', '-', '>', ' ']) = [] := by
    induction positions with
    | nil => rfl
    | cons p positions ih =>
      rw [List.flatMap_cons, readMarks_append, readMarks_append, readMarks_decimal, ih]
      rfl
  unfold listText
  rw [readMarks_append, readMarks_append, readMarks_append, readMarks_decimal,
    show ∀ cs, ':' :: ' ' :: cs = [':', ' '] ++ cs from fun _ => rfl, readMarks_append, hpositions]
  rfl

/-- The hints of a list, and what is behind them. -/
theorem readNumbers_positions (h : startsWithDigit rest = false) :
    readNumbers (' ' :: ((positions.flatMap fun position =>
      decimal (position / baseSize) ++ [' ', '-', '>', ' ']) ++
        (['N', 'U', 'L', 'L'] ++ '\n' :: rest))) =
      positions.map (fun p => (p / baseSize, some ' ')) ++ readNumbers rest := by
  induction positions with
  | nil =>
    have hline : readNumbers ([' ', 'N', 'U', 'L', 'L'] ++ '\n' :: rest) = _ :=
      readNumbers_append_of_not (by decide) (by decide)
    rw [readNumbers_cons_of_not h] at hline
    exact hline
  | cons p positions ih =>
    -- a number ends in front of the arrow
    have hnumber : ∀ tail,
        readNumbers (' ' :: (decimal (p / baseSize) ++ ([' ', '-', '>', ' '] ++ tail))) =
          (p / baseSize, some ' ') :: readNumbers (' ' :: tail) := by
      intro tail
      have harrow : readNumbers ([' ', '-', '>'] ++ ' ' :: tail) = readNumbers (' ' :: tail) :=
        readNumbers_append_of_not (by decide) (by decide)
      rw [← harrow]
      exact readNumbers_decimal (by decide) (by decide)
    rw [List.flatMap_cons, List.append_assoc, List.append_assoc, hnumber, ih, List.map_cons,
      List.cons_append]

/-- The numbers in the line of a list. -/
theorem readNumbers_listText (h : startsWithDigit rest = false) :
    readNumbers (listText i positions ++ rest) =
      (i, some ':') :: (positions.map (fun p => (p / baseSize, some ' ')) ++ readNumbers rest) := by
  have hshape : listText i positions ++ rest = ['L', 'i', 's', 't'] ++ ' ' :: (decimal i ++ ':' ::
      (' ' :: ((positions.flatMap fun position =>
        decimal (position / baseSize) ++ [' ', '-', '>', ' ']) ++
          (['N', 'U', 'L', 'L'] ++ '\n' :: rest)))) := by
    simp [listText]
  rw [hshape, readNumbers_append_of_not (by decide) (by decide),
    readNumbers_decimal (by decide) (by decide), readNumbers_cons_of_not rfl,
    readNumbers_positions h]

/-- The numbers in the line of a list. -/
def hintTokens (lists : ℕ → List ℕ) (i : ℕ) : List (ℕ × Option Char) :=
  (i, some ':') :: (lists i).map fun p => (p / baseSize, some ' ')

/-- The numbers in the lines of the lists. -/
theorem readNumbers_lists :
    readNumbers ((List.range' i n).flatMap fun j => listText j (lists j)) =
      (List.range' i n).flatMap (hintTokens lists) := by
  induction n generalizing i with
  | zero => rfl
  | succ n ih =>
    have hstart : startsWithDigit ((List.range' (i + 1) n).flatMap fun j => listText j (lists j)) =
        false := by
      cases n with
      | zero => rfl
      | succ n => rfl
    rw [List.range'_succ, List.flatMap_cons, List.flatMap_cons, readNumbers_listText hstart, ih]
    rfl

/-- Behind the hints of a list there is the line of another list, or nothing. -/
theorem takeWhile_hints : ((lists i).map (fun p => (p / baseSize, some ' ')) ++
    (List.range' j n).flatMap (hintTokens lists)).takeWhile (fun x => x.2 = some ' ') =
      (lists i).map fun p => (p / baseSize, some ' ') := by
  rw [List.takeWhile_append_of_pos fun x hx => ?_]
  · cases n with
    | zero => exact List.append_nil _
    | succ n => exact List.append_nil _
  · obtain ⟨p, -, rfl⟩ := List.mem_map.1 hx
    exact decide_eq_true rfl

/-- The numbers in the line of one list are found among those of all. -/
theorem readHints_of_readNumbers {text : List Char}
    (h : readNumbers text = (List.range' 0 n).flatMap (hintTokens lists)) (hi : i < n) :
    readHints i text = (lists i).map (· / baseSize) := by
  have hsplit : List.range' 0 n = List.range' 0 i ++ i :: List.range' (i + 1) (n - (i + 1)) := by
    rw [← List.range'_succ, show n - (i + 1) + 1 = n - i by omega]
    have happend := List.range'_append_1 (s := 0) (m := i) (n := n - i)
    rw [Nat.zero_add, Nat.add_sub_cancel' hi.le] at happend
    exact happend.symm
  -- in the lines in front of the one of the list its number is not followed by a colon
  have hbefore : ∀ x ∈ (List.range' 0 i).flatMap (hintTokens lists),
      decide (x ≠ (i, some ':')) = true := by
    intro x hx
    obtain ⟨j, hj, hx⟩ := List.mem_flatMap.1 hx
    have hlt : j < i := by
      have hmem := List.mem_range'_1.1 hj
      omega
    rcases List.mem_cons.1 hx with rfl | hx
    · simp [hlt.ne]
    · obtain ⟨p, -, rfl⟩ := List.mem_map.1 hx
      simp
  rw [readHints, h, hsplit, List.flatMap_append, List.flatMap_cons,
    List.dropWhile_append_of_pos hbefore, hintTokens, List.cons_append,
    List.dropWhile_cons_of_neg (by simp), List.drop_one, List.tail_cons, takeWhile_hints,
    List.map_map]
  rfl

end Lists

/-! ## Runs -/

section Run

variable {freeWait nrPages : ℕ} {c : NvConfig}

/-- What is printed. -/
def printed (st : NvState) : List Char :=
  (List.range' 0 (8 * st.bitmapSize)).flatMap (unitText st) ++ '\n' ::
    (List.range' 0 (nrSizes + 1)).flatMap fun j => listText j (st.freeLists j)

theorem NvReady.returns_nvmallocPrint (h : NvReady freeWait c) :
    nvmallocPrint.Returns c.st c.st (printed c.st) := by
  have hlt := h.inv.shape.bitmapSize_lt
  have hunits : c.st.endAddress / baseSize = 0 + 8 * c.st.bitmapSize := by
    rw [h.inv.shape.endAddress]
    simp only [baseSize]
    omega
  refine (Prog.returns_read _ _).bind ?_
  rw [hunits]
  refine (returns_unitLoop h.inv.shape.zone_le (by omega)).bind ?_
  have hprinted : printed c.st =
      ([] ++ (List.range' 0 (8 * c.st.bitmapSize)).flatMap (unitText c.st)) ++ ['\n'] ++
        (List.range' 0 (nrSizes + 1)).flatMap fun j => listText j (c.st.freeLists j) := by
    rw [List.nil_append, List.append_assoc, List.singleton_append, printed]
  rw [hprinted]
  exact returns_listLoop (Nat.zero_add _)

/-- The marks in what is printed. -/
theorem readMarks_printed (st : NvState) :
    readMarks (printed st) = (List.range' 0 (8 * st.bitmapSize)).map (markOf st) := by
  have hlists : readMarks ('\n' :: (List.range' 0 (nrSizes + 1)).flatMap
      fun j => listText j (st.freeLists j)) = [] := by
    refine List.filter_eq_nil_iff.2 fun c hc => ?_
    rcases List.mem_cons.1 hc with rfl | hc
    · decide
    · obtain ⟨j, -, hc⟩ := List.mem_flatMap.1 hc
      exact List.filter_eq_nil_iff.1 (readMarks_listText (i := j)) c hc
  rw [printed, readMarks_append, readMarks_units, hlists, List.append_nil]

/-- The numbers in what is printed. -/
theorem readNumbers_printed (st : NvState) :
    readNumbers (printed st) = (List.range' 0 (nrSizes + 1)).flatMap (hintTokens st.freeLists) := by
  rw [printed, readNumbers_append_of_not isDigit_units (by decide), readNumbers_cons_of_not,
    readNumbers_lists]
  rfl

/-- The mark of a unit is read back. -/
theorem getElem?_readMarks {st : NvState} {u : ℕ} (hu : u < 8 * st.bitmapSize) :
    (readMarks (printed st))[u]? = some (markOf st u) := by
  rw [readMarks_printed, List.getElem?_map, List.getElem?_range' (by omega)]
  simp

/-- The text shows the blocks, the free zone and the hints. -/
theorem NvReady.shows (h : NvReady freeWait c) : Shows c (printed c.st) := by
  have hblocks := h.blocks
  have hzone : c.st.freeZone = 64 * c.st.zone := h.inv.shape.freeZone
  have hlength : (readMarks (printed c.st)).length = 8 * c.st.bitmapSize := by
    rw [readMarks_printed, List.length_map, List.length_range']
  -- what a block tells about its units
  have hcovered : ∀ u, (u < c.st.zone ∧ c.st.bit u = true) ↔
      ∃ b ∈ c.blocks, b.location ≤ 64 * u ∧ 64 * u + 64 ≤ b.location + b.size := by
    intro u
    by_cases hu : u < c.st.zone
    · rw [← hblocks.bits u (by omega)]
      exact ⟨fun hset => hset.2, fun hset => ⟨hu, hset⟩⟩
    · refine ⟨fun hset => absurd hset.1 hu, ?_⟩
      rintro ⟨b, hb, hlo, hhi⟩
      have hle := hblocks.inside b hb
      omega
  refine ⟨?_, fun u hu => ?_, fun u hu => ?_, fun u hu => ?_, fun i hi => ?_⟩
  · rw [hlength, hblocks.arena]
  · rw [hlength] at hu
    rw [getElem?_readMarks hu, Option.some_inj, markOf_iff.1, hzone]
    omega
  · rw [hlength] at hu
    rw [getElem?_readMarks hu, Option.some_inj, markOf_iff.2.1, hcovered]
  · rw [hlength] at hu
    rw [getElem?_readMarks hu, Option.some_inj, markOf_iff.2.2, hzone]
    have hnone : (∀ b ∈ c.blocks, ¬ (b.location ≤ 64 * u ∧ 64 * u + 64 ≤ b.location + b.size)) ↔
        ¬ (u < c.st.zone ∧ c.st.bit u = true) := by
      rw [hcovered]
      simp only [not_exists, not_and]
    rw [hnone]
    constructor
    · rintro ⟨hu, hclear⟩
      exact ⟨by omega, fun hset => by rw [hclear] at hset; cases hset.2⟩
    · rintro ⟨hu, hclear⟩
      have hlt : u < c.st.zone := by omega
      exact ⟨hlt, Bool.eq_false_iff.2 fun hset => hclear ⟨hlt, hset⟩⟩
  · rw [readHints_of_readNumbers (readNumbers_printed c.st) (by omega), List.map_map]
    -- the positions are those of units
    refine (List.map_congr_left fun p hp => ?_).trans (List.map_id _)
    exact Nat.mul_div_cancel' (h.inv.shape.hints i p hp)

/-- In every run of allowed steps `nvmalloc_print` returns and changes nothing, and the text that it
prints shows the blocks, the free zone and the hints. -/
theorem nvmallocPrint_shows (hpages : nrPages * nvPageSize < 2 ^ 32) {mem : ℕ → BitVec 64}
    (h : Runs.Reach NvStep (fun c op => op.Allowed c) (nvStart nrPages freeWait mem) c) :
    ∃ text, nvmallocPrint.Returns c.st c.st text ∧ Shows c text := by
  have hready := reach_nvReady hpages h
  exact ⟨_, hready.returns_nvmallocPrint, hready.shows⟩

end Run

/-- What is printed for two blocks, of which the first one has been released. -/
theorem nvmallocPrint_shows_firstReleased : ∃ text,
    nvmallocPrint.Returns firstReleased.st firstReleased.st text ∧ Shows firstReleased text :=
  nvmallocPrint_shows (by decide) (reach_firstReleased.mono fun _ _ hok => hok.1)

example : readMarks (printed { firstReleased.st with bitmapSize := 1 }) =
    ['_', '_', 'o', 'o', 'f', 'f', 'f', 'f'] := by
  decide +kernel

end Zalloc
