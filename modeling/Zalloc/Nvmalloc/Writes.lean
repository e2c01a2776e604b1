import Zalloc.Nvmalloc.Header

/-!
# What is written

Every change of the state is one of a few writes. What each of them respects, a call respects at
every moment, whether it returns or not.

## Main definitions

* `SearchWrite`, `ZoneWrite`, `TickWrite`: the writes of the search for a gap, of the reservation in
  the free zone, and of `incrementTime`.

## Main results

* `grows_find`, `grows_orFreeZone`, `grows_changeBits`, `grows_incrementTime`: the programs only
  make these writes.
-/

set_option autoImplicit false

namespace Zalloc

/-! ## Writes -/

/-- What the search for a gap writes. -/
inductive SearchWrite (st : NvState) : NvState → Prop
  /-- The lists. -/
  | lists (lists : ℕ → List ℕ) : SearchWrite st { st with freeLists := lists }
  /-- A message. -/
  | report (r : Report) : SearchWrite st { st with reports := st.reports ++ [r] }
  /-- The header of a free piece. -/
  | header (a : ℕ) {v : BitVec 64} (h : v.toInt ≤ 0) :
      SearchWrite st { st with mem := Function.update st.mem a v }

/-- What the reservation in the free zone writes. -/
inductive ZoneWrite (st : NvState) : NvState → Prop
  /-- The arena becomes larger. -/
  | grow (newPages : ℕ) : ZoneWrite st (st.grow newPages)
  /-- The free zone. -/
  | zone (freeZone : ℕ) : ZoneWrite st { st with freeZone }

/-- What `incrementTime` writes. -/
inductive TickWrite (st : NvState) : NvState → Prop
  /-- The lists, a message, or the header of a free piece. -/
  | search {st' : NvState} (h : SearchWrite st st') : TickWrite st st'
  /-- The don't-allocate list. -/
  | queue (head tail : ℕ) :
      TickWrite st { st with dontAllocateListHead := head, dontAllocateListTail := tail }
  /-- The record of the blocks that have been released. -/
  | released (released : List Release) : TickWrite st { st with released }
  /-- A bit is cleared. -/
  | clear (index mask : ℕ) : TickWrite st { st with
      bitmap := Function.update st.bitmap index (st.bitmap index &&& (u32Max ^^^ mask)) }
  /-- The free zone. -/
  | zone (freeZone : ℕ) : TickWrite st { st with freeZone }

section

variable {R : NvState → NvState → Prop} [IsPreorder NvState R] {a i location n now size : ℕ}
  {index : ℤ} {v : BitVec 64} {grows : Growth}

/-! ## Reads -/

theorem grows_getWord : (getWord a).Grows R := .bind (.require _) fun _ => .read _

theorem grows_getHeaderSize : (getHeaderSize a).Grows R := .bind grows_getWord fun _ => .pure _

theorem grows_getByte : (getByte i).Grows R := .bind (.require _) fun _ => .read _

theorem grows_getFreeList : (getFreeList index).Grows R := .bind (.require _) fun _ => .read _

theorem grows_isFreeForward : (isFreeForward location).Grows R := by
  refine .bind (.read _) fun stop => .loop (fun x => ?_) _
  obtain ⟨n, location, index, mask⟩ := x
  unfold forwardBody
  dsimp only
  split_ifs
  · refine .bind grows_getByte fun byte => ?_
    split_ifs
    · exact .pure _
    · exact .pure _
  · exact .pure _

theorem grows_isFreeBackward : (isFreeBackward location).Grows R := by
  refine .bind (.read _) fun freeZone => ?_
  split_ifs
  · exact .pure _
  · cases prevBit
      (toInt ((location / baseSize) >>> 3), 1 <<< (location / baseSize &&& 0x00000007)) with
    | none => exact .pure _
    | some bit =>
      refine .loop (fun x => ?_) _
      obtain ⟨n, index, mask⟩ := x
      unfold backwardBody
      dsimp only
      split_ifs
      · refine .bind grows_getByte fun byte => ?_
        split_ifs
        · cases prevBit (index, mask) with
          | none => exact .pure _
          | some bit => exact .pure _
        · exact .pure _
      · exact .pure _

/-! ## Updates -/

theorem grows_setWord (h : ∀ st : NvState, R st { st with mem := Function.update st.mem a v }) :
    (setWord a v).Grows R :=
  .bind (.require _) fun _ => .modify h

/-- One bit is changed. -/
theorem grows_updateByte {f : ℕ → ℕ}
    (h : ∀ st : NvState, R st { st with bitmap := Function.update st.bitmap i (f (st.bitmap i)) }) :
    (getByte i >>= fun byte => setByte i (f byte)).Grows R := by
  constructor <;> intro n st <;> by_cases hi : i < st.bitmapSize <;>
    simp [getByte, setByte, Prog.exec_bind, Prog.require, Prog.read, Prog.modify, Exec.bind, hi,
      h st, refl_of R]

/-- The bits of a range are changed by `f`. -/
theorem grows_changeBits {f : ℕ → ℕ → ℕ} {bit : ℕ × ℕ}
    (h : ∀ (st : NvState) index mask, R st { st with
      bitmap := Function.update st.bitmap index (f (st.bitmap index) mask) }) :
    (changeBits f n bit).Grows R := by
  induction n generalizing bit with
  | zero => exact .pure _
  | succ n ih =>
    obtain ⟨index, mask⟩ := bit
    have hbyte : (getByte index >>= fun byte => setByte index (f byte mask)).Grows R :=
      grows_updateByte fun st => h st index mask
    have hnext := hbyte.bind fun _ => @ih (nextBit (index, mask))
    rw [Prog.bind_assoc] at hnext
    exact hnext

/-! ## The search -/

/-- A number of bytes that the search finds fits in 32 bits. -/
theorem lt_of_hintLoop {st st' : NvState} {location freeSpace : ℕ}
    (h : (Prog.loop (hintBody index size) ()).Returns st st' (location, freeSpace)) :
    freeSpace < 2 ^ 32 := by
  obtain ⟨st₁, u, hbody⟩ := h.exists_exit
  obtain ⟨_, p, -, hbody⟩ := Prog.returns_bind_iff.1 hbody
  obtain ⟨_, forward, -, hbody⟩ := Prog.returns_bind_iff.1 hbody
  obtain ⟨_, backSpace, -, hbody⟩ := Prog.returns_bind_iff.1 hbody
  obtain ⟨_, l, -, hbody⟩ := Prog.returns_bind_iff.1 hbody
  split_ifs at hbody
  · cases (Prog.returns_pure_iff.1 hbody).2
  · cases (Prog.returns_pure_iff.1 hbody).2
    exact Nat.mod_lt _ (by decide)

section Search

variable (hR : ∀ st st', SearchWrite st st' → R st st')
include hR

theorem grows_report {r : Report} : (report r).Grows R :=
  .modify fun st => hR st _ (.report r)

theorem grows_reportIf {wrong : Prop} [Decidable wrong] {r : Report} :
    (reportIf wrong r).Grows R := by
  unfold reportIf
  split_ifs
  · exact grows_report hR
  · exact .pure _

theorem grows_appendFreeList : (appendFreeList index a).Grows R :=
  .bind grows_getFreeList fun _ => .modify fun st => hR st _ (.lists _)

theorem grows_popFreeList : (popFreeList index).Grows R := by
  refine .bind grows_getFreeList fun l => ?_
  cases l with
  | nil => exact .abort
  | cons position l => exact .bind (.modify fun st => hR st _ (.lists _)) fun _ => .pure _

/-- The header of a free piece is written. -/
theorem grows_setFreeHeader (h : size < 2 ^ 32) :
    (setHeaderSize a (-crcCompute a size)).Grows R :=
  grows_setWord fun st => hR st _ (.header a (toInt_neg_crcCompute_nonpos h))

theorem grows_hintBody {u : Unit} : (hintBody index size u).Grows R := by
  refine .bind (grows_popFreeList hR) fun location => .bind grows_isFreeForward fun forward => ?_
  refine .bind grows_isFreeBackward fun backSpace => .bind grows_getFreeList fun l => ?_
  split_ifs
  · exact .pure _
  · exact .pure _

theorem grows_headerBody {freeSpace : ℕ} {x : ℕ × ℕ × Bool} :
    (headerBody freeSpace size x).Grows R := by
  obtain ⟨n, ptr, exactFit⟩ := x
  unfold headerBody
  dsimp only
  split_ifs
  · refine .bind grows_getHeaderSize fun size => .bind (grows_reportIf hR) fun _ => ?_
    split_ifs
    · exact .bind (grows_report hR) fun _ => .abort
    · exact .pure _
  · exact .pure _

theorem grows_splitRest {freeSpace : ℕ} {exactFit : Bool} (h : freeSpace < 2 ^ 32) :
    (splitRest location freeSpace size exactFit).Grows R := by
  unfold splitRest
  split_ifs
  · refine .bind ?_ fun _ => grows_appendFreeList hR
    unfold writeRest
    split_ifs
    · exact .pure _
    · exact grows_setFreeHeader hR (by omega)
  · exact .pure _

/-- The search for a gap. -/
theorem grows_find : (Prog.loop (findBody size) index).Grows R := by
  refine .loop (fun index => ?_) _
  unfold findBody
  dsimp only
  split_ifs
  · refine .bind grows_getFreeList fun l => ?_
    split_ifs
    · exact .pure _
    · refine .bind_of_returns (.loop (fun u => grows_hintBody hR) _) fun st st' found hfound => ?_
      obtain ⟨location, freeSpace⟩ := found
      dsimp only
      split_ifs
      · refine .bind (.loop (fun x => grows_headerBody hR) _) fun exactFit => ?_
        exact .bind (grows_splitRest hR (lt_of_hintLoop hfound)) fun _ => .pure _
      · exact .pure _
  · exact .pure _

end Search

/-! ## The free zone -/

/-- The reservation in the free zone. -/
theorem grows_orFreeZone (hR : ∀ st st', ZoneWrite st st' → R st st') {found : Option ℕ} :
    (orFreeZone size grows found).Grows R := by
  cases found with
  | some location => exact .pure _
  | none =>
    refine .bind (.read _) fun full => .bind ?_ fun more => ?_
    · unfold moreMemoryIf
      split_ifs
      · refine .bind (.loop (fun newPages => ?_) _) fun newPages => ?_
        · unfold newPagesBody
          dsimp only
          split_ifs
          · exact .pure _
          · exact .pure _
        · cases grows with
          | refused => exact .pure _
          | noBitmap => exact .abort
          | granted => exact .bind (.modify fun st => hR st _ (.grow newPages)) fun _ => .pure _
      · exact .pure _
    · split_ifs
      · exact .pure _
      · exact .bind (.read _) fun _ => .bind (.modify fun st => hR st _ (.zone _)) fun _ => .pure _

/-! ## `incrementTime` -/

/-- A number of bytes that `extendFreeLocation` returns fits in 32 bits. -/
theorem lt_of_extendFreeLocation {st st' : NvState} {totalSize size' : ℕ}
    (h : (extendFreeLocation location size).Returns st st' (totalSize, size')) :
    size' < 2 ^ 32 := by
  obtain ⟨_, _, -, h⟩ := Prog.returns_bind_iff.1 h
  obtain ⟨_, forward, -, h⟩ := Prog.returns_bind_iff.1 h
  obtain ⟨_, backSpace, -, h⟩ := Prog.returns_bind_iff.1 h
  cases (Prog.returns_pure_iff.1 h).2
  exact Nat.mod_lt _ (by decide)

section Tick

variable (hR : ∀ st st', TickWrite st st' → R st st')
include hR

theorem grows_popDNAList : (popDNAList location).Grows R := by
  refine .bind (.read _) fun tail => ?_
  split_ifs
  · exact .modify fun st => hR st _ (.queue _ _)
  · exact .bind (.bind grows_getWord fun _ => .pure _) fun next =>
      .modify fun st => hR st _ (.queue next st.dontAllocateListTail)

theorem grows_extendFreeLocation : (extendFreeLocation location size).Grows R := by
  refine .bind (grows_changeBits fun st index mask => hR st _ (.clear index mask)) fun _ => ?_
  exact .bind grows_isFreeForward fun _ => .bind grows_isFreeBackward fun _ => .pure _

theorem grows_insertFreeLocation {totalSize : ℕ} (h : size < 2 ^ 32) :
    (insertFreeLocation location size totalSize).Grows R := by
  have hsearch : ∀ st st', SearchWrite st st' → R st st' := fun st st' hw => hR st st' (.search hw)
  refine .bind (.read _) fun freeZone => ?_
  split_ifs
  · refine .bind (.modify fun st => hR st _ (.zone _)) fun _ => grows_setWord fun st => ?_
    exact hR st _ (.search (.header location (by decide)))
  · refine .bind (grows_setFreeHeader hsearch h) fun _ => ?_
    exact .bind (grows_appendFreeList hsearch) fun _ => grows_appendFreeList hsearch
  · exact .bind (grows_setFreeHeader hsearch h) fun _ =>
      .bind (grows_appendFreeList hsearch) fun _ => .pure _

/-- The release of a block whose time has come. -/
theorem grows_incrementTime : (incrementTime now).Grows R := by
  refine .bind (.read _) fun location => ?_
  split_ifs
  · exact .pure _
  · refine .bind (.bind grows_getWord fun _ => .pure _) fun timeAdded => ?_
    refine .bind (.read _) fun wait => ?_
    split_ifs
    · refine .bind (grows_popDNAList hR) fun _ => .bind grows_getHeaderSize fun hsize => ?_
      refine .bind (grows_reportIf fun st st' hw => hR st st' (.search hw)) fun _ => ?_
      refine .bind (.modify fun st => hR st _ (.released _)) fun _ => ?_
      refine .bind_of_returns (grows_extendFreeLocation hR) fun st st' found hfound => ?_
      exact grows_insertFreeLocation hR (lt_of_extendFreeLocation hfound)
    · exact .pure _

end Tick

end

end Zalloc
