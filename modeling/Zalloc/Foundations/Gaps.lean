import Zalloc.Foundations.BitArray

/-!
# Gaps of a bit array

A gap is a range of bits that are not set, below some limit, and as long as possible. An allocator
that marks its units in a bit array finds its free space in the gaps. Here are the gaps after a
range of bits has been set or cleared, and after the limit has been moved.

## Main definitions

* `IsGap bits limit a n`: the `n` bits from `a` on are a gap.
* `ClearFrom bits limit a n`: from `a` on, `n` bits below the limit are clear, and not more.
* `ClearTo bits a n`: up to `a`, `n` bits are clear, and not more.

## Main results

* `IsGap.eq_of_touch`: a gap is determined by any position in it or at its end.
* `isGap_of_scan`: the clear bits before and behind a position are a gap.
* `IsGap.of_fill`: the gaps after the front of a gap has been set.
* `IsGap.of_extend`: the gaps after a range has been set at the limit, and the limit has been moved
  behind it.
* `isGap_of_clear`, `isGap_before_clear`: the gaps after a range has been cleared.
* `IsGap.of_retreat`: the gaps after the limit has been moved back to the start of the last one.
-/

set_option autoImplicit false

open BitArray

/-- The `n` bits from `a` on are a gap. -/
structure IsGap (bits : ℕ → Bool) (limit a n : ℕ) : Prop where
  /-- A gap is not empty. -/
  pos : 0 < n
  /-- It is below the limit. -/
  le : a + n ≤ limit
  /-- Its bits are clear. -/
  clear : ∀ u, a ≤ u → u < a + n → bits u = false
  /-- It cannot be extended to the left. -/
  left : a = 0 ∨ bits (a - 1) = true
  /-- It cannot be extended to the right. -/
  right : a + n = limit ∨ bits (a + n) = true

/-- From `a` on, `n` bits below the limit are clear, and not more. -/
structure ClearFrom (bits : ℕ → Bool) (limit a n : ℕ) : Prop where
  /-- The bits are clear, and below the limit. -/
  clear : ∀ u, a ≤ u → u < a + n → u < limit ∧ bits u = false
  /-- The next one is not. -/
  right : limit ≤ a + n ∨ bits (a + n) = true

/-- Up to `a`, `n` bits are clear, and not more. -/
structure ClearTo (bits : ℕ → Bool) (a n : ℕ) : Prop where
  /-- There are so many bits. -/
  le : n ≤ a
  /-- The bits are clear. -/
  clear : ∀ u, a - n ≤ u → u < a → bits u = false
  /-- The one before is not. -/
  left : n = a ∨ bits (a - n - 1) = true

section

variable {bits : ℕ → Bool} {limit a b k m n p s u : ℕ}

/-- The end of a range of clear bits. -/
theorem ClearFrom.add_le (h : ClearFrom bits limit a n) (hn : 0 < n) : a + n ≤ limit := by
  have hlast := (h.clear (a + n - 1) (by omega) (by omega)).1
  omega

/-- A range of clear bits is contained in every longest one. -/
theorem ClearFrom.le_of_clear (h : ClearFrom bits limit a n) (hle : a + m ≤ limit)
    (hclear : ∀ u, a ≤ u → u < a + m → bits u = false) : m ≤ n := by
  by_contra hlt
  rcases h.right with hlim | hset
  · omega
  · rw [hclear (a + n) (by omega) (by omega)] at hset
    cases hset

theorem ClearTo.le_of_clear (h : ClearTo bits a n) (hle : m ≤ a)
    (hclear : ∀ u, a - m ≤ u → u < a → bits u = false) : m ≤ n := by
  by_contra hlt
  rcases h.left with hall | hset
  · omega
  · rw [hclear (a - n - 1) (by omega) (by omega)] at hset
    cases hset

/-- There is one longest range. -/
theorem ClearFrom.unique (h : ClearFrom bits limit a n) (h' : ClearFrom bits limit a m) :
    n = m := by
  -- neither range is longer than the other one
  have key : ∀ {n m : ℕ}, ClearFrom bits limit a n → ClearFrom bits limit a m → ¬ n < m := by
    intro n m h h' hlt
    have hend := h'.add_le (by omega)
    have hle := h.le_of_clear hend fun u h₁ h₂ => (h'.clear u h₁ h₂).2
    omega
  have h₁ := key h h'
  have h₂ := key h' h
  omega

theorem ClearTo.unique (h : ClearTo bits a n) (h' : ClearTo bits a m) : n = m :=
  le_antisymm (h'.le_of_clear h.le h.clear) (h.le_of_clear h'.le h'.clear)

/-- A gap is determined by any position in it or at its end. -/
theorem IsGap.eq_of_touch (ha : IsGap bits limit a n) (hb : IsGap bits limit b m) (hau : a ≤ u)
    (hua : u ≤ a + n) (hbu : b ≤ u) (hub : u ≤ b + m) : a = b ∧ n = m := by
  have hpos := ha.pos
  have hpos' := hb.pos
  have hle := ha.le
  have hle' := hb.le
  -- neither gap starts or ends inside the other one
  have hend : ∀ {a b m n : ℕ}, IsGap bits limit a n → IsGap bits limit b m → b ≤ a + n →
      a + n < b + m → False := by
    intro a b m n ha hb h₁ h₂
    have hle := hb.le
    rcases ha.right with hlim | hset
    · omega
    · rw [hb.clear (a + n) h₁ h₂] at hset
      cases hset
  have hends : a + n = b + m := by
    by_contra hne
    rcases Nat.lt_or_gt_of_ne hne with hlt | hlt
    · exact hend ha hb (by omega) hlt
    · exact hend hb ha (by omega) hlt
  have hstart : ∀ {a b m n : ℕ}, IsGap bits limit a n → IsGap bits limit b m → a + n = b + m →
      ¬ a < b := by
    intro a b m n ha hb heq hlt
    have hpos := hb.pos
    rcases hb.left with hzero | hset
    · omega
    · rw [ha.clear (b - 1) (by omega) (by omega)] at hset
      cases hset
  have h₁ := hstart ha hb hends
  have h₂ := hstart hb ha hends.symm
  omega

/-- The clear bits before and behind a position are a gap. -/
theorem isGap_of_scan (hto : ClearTo bits a p) (hfrom : ClearFrom bits limit a s) (ha : a ≤ limit)
    (hpos : 0 < p + s) : IsGap bits limit (a - p) (p + s) where
  pos := hpos
  le := by
    have hle := hto.le
    by_cases hs : s = 0
    · omega
    · have hend := hfrom.add_le (by omega)
      omega
  clear u h₁ h₂ := by
    have hle := hto.le
    by_cases hu : u < a
    · exact hto.clear u h₁ hu
    · exact (hfrom.clear u (by omega) (by omega)).2
  left := hto.left.imp (fun heq => by omega) id
  right := by
    have hle := hto.le
    rw [show a - p + (p + s) = a + s by omega]
    refine hfrom.right.imp (fun hlim => ?_) id
    by_cases hs : s = 0
    · omega
    · have hend := hfrom.add_le (by omega)
      omega

/-- The gaps below a limit depend on the bits below it. -/
theorem IsGap.congr {bits' : ℕ → Bool} (h : IsGap bits limit a n)
    (hsame : ∀ u < limit, bits' u = bits u) : IsGap bits' limit a n := by
  have hpos := h.pos
  have hle := h.le
  refine ⟨hpos, hle, fun u h₁ h₂ => ?_, ?_, ?_⟩
  · rw [hsame u (by omega)]
    exact h.clear u h₁ h₂
  · rw [hsame (a - 1) (by omega)]
    exact h.left
  · by_cases hend : a + n = limit
    · exact .inl hend
    · rw [hsame (a + n) (by omega)]
      exact h.right

/-! ## Setting bits -/

/-- The gaps after the front of a gap has been set. -/
theorem IsGap.of_fill (hgap : IsGap bits limit a n) (hk : 0 < k) (hkn : k ≤ n)
    (h : IsGap (fill bits a k true) limit b m) :
    IsGap bits limit b m ∧ (b + m < a ∨ a + n < b) ∨ b = a + k ∧ k + m = n := by
  have hpos := h.pos
  have hle := h.le
  have hle' := hgap.le
  -- the new gap has none of the bits that have been set
  have hapart : b + m ≤ a ∨ a + k ≤ b := by
    by_contra hno
    have hclear := h.clear (max a b) (by omega) (by omega)
    rw [fill_of_mem (by omega) (by omega)] at hclear
    cases hclear
  have hclear : ∀ u, b ≤ u → u < b + m → bits u = false := fun u h₁ h₂ => by
    rw [← h.clear u h₁ h₂, fill_of_not_mem (by omega)]
  have hleft : b = 0 ∨ b = a + k ∨ bits (b - 1) = true := by
    rcases h.left with hzero | hset
    · exact .inl hzero
    · by_cases hb : b = a + k
      · exact .inr (.inl hb)
      · rw [fill_of_not_mem (by omega)] at hset
        exact .inr (.inr hset)
  have hright : b + m = limit ∨ b + m = a ∨ bits (b + m) = true := by
    rcases h.right with hlim | hset
    · exact .inl hlim
    · by_cases hb : b + m = a
      · exact .inr (.inl hb)
      · rw [fill_of_not_mem (by omega)] at hset
        exact .inr (.inr hset)
  by_cases hb : b = a + k
  · -- the rest of the gap
    refine .inr ⟨hb, ?_⟩
    by_contra hne
    rcases Nat.lt_or_gt_of_ne hne with hlt | hlt
    · rcases hright with hlim | heq | hset
      · omega
      · omega
      · rw [hgap.clear (b + m) (by omega) (by omega)] at hset
        cases hset
    · rcases hgap.right with hlim | hset
      · omega
      · rw [hclear (a + n) (by omega) (by omega)] at hset
        cases hset
  · have hend : b + m ≠ a := by
      rintro heq
      rcases hgap.left with hzero | hset
      · omega
      · rw [hclear (a - 1) (by omega) (by omega)] at hset
        cases hset
    have hold : IsGap bits limit b m :=
      ⟨hpos, hle, hclear, hleft.imp id fun h => h.resolve_left hb,
        hright.imp id fun h => h.resolve_left hend⟩
    refine .inl ⟨hold, ?_⟩
    by_contra hno
    obtain ⟨rfl, rfl⟩ := hgap.eq_of_touch hold (u := max a b) (by omega) (by omega) (by omega)
      (by omega)
    omega

/-- The gaps after a range has been set at the limit, and the limit has been moved behind it. -/
theorem IsGap.of_extend (hk : 0 < k) (h : IsGap (fill bits limit k true) (limit + k) b m) :
    IsGap bits limit b m := by
  have hpos := h.pos
  have hle := h.le
  have hend : b + m ≤ limit := by
    by_contra hno
    have hclear := h.clear (max limit b) (by omega) (by omega)
    rw [fill_of_mem (by omega) (by omega)] at hclear
    cases hclear
  refine ⟨hpos, hend, fun u h₁ h₂ => ?_, h.left.imp id fun hset => ?_, ?_⟩
  · rw [← h.clear u h₁ h₂, fill_of_not_mem (by omega)]
  · by_cases hb : b = 0
    · subst hb
      rw [fill_of_not_mem (by omega)] at hset
      exact hset
    · rwa [fill_of_not_mem (by omega)] at hset
  · by_cases heq : b + m = limit
    · exact .inl heq
    · rcases h.right with hlim | hset
      · omega
      · rw [fill_of_not_mem (by omega)] at hset
        exact .inr hset

/-! ## Clearing bits -/

/-- The gaps after a range has been cleared: one has been formed, and the other ones are as
before. -/
theorem isGap_of_clear (hk : 0 < k) (hle : a + k ≤ limit) (hto : ClearTo (fill bits a k false) a p)
    (hfrom : ClearFrom (fill bits a k false) limit a s)
    (h : IsGap (fill bits a k false) limit b m) :
    b = a - p ∧ m = p + s ∨ IsGap bits limit b m ∧ (b + m < a - p ∨ a + s < b) := by
  have hpos := h.pos
  have hple := hto.le
  have hks : k ≤ s := hfrom.le_of_clear hle fun u h₁ h₂ => fill_of_mem h₁ h₂
  have hgap := isGap_of_scan hto hfrom (by omega) (by omega)
  by_cases htouch : a - p ≤ b + m ∧ b ≤ a + s
  · obtain ⟨rfl, rfl⟩ := hgap.eq_of_touch h (u := max (a - p) b) (by omega) (by omega) (by omega)
      (by omega)
    exact .inl ⟨rfl, rfl⟩
  · -- a gap that is elsewhere has not been changed
    have hfar : b + m < a - p ∨ a + s < b := by omega
    refine .inr ⟨⟨hpos, h.le, fun u h₁ h₂ => ?_, h.left.imp id fun hset => ?_,
      h.right.imp id fun hset => ?_⟩, hfar⟩
    · rw [← h.clear u h₁ h₂, fill_of_not_mem (by omega)]
    · by_cases hb : b = 0
      · subst hb
        rwa [fill_of_not_mem (by omega)] at hset
      · rwa [fill_of_not_mem (by omega)] at hset
    · rwa [fill_of_not_mem (by omega)] at hset

/-- The front part of the gap that is formed was a gap before. -/
theorem isGap_before_clear (hset : bits a = true) (hle : a ≤ limit)
    (hto : ClearTo (fill bits a k false) a p) (hp : 0 < p) : IsGap bits limit (a - p) p where
  pos := hp
  le := by
    have hple := hto.le
    omega
  clear u h₁ h₂ := by
    have hple := hto.le
    rw [← hto.clear u h₁ (by omega), fill_of_not_mem (by omega)]
  left := by
    have hple := hto.le
    refine hto.left.imp (fun heq => by omega) fun hbit => ?_
    by_cases hpa : p = a
    · rw [hpa] at hbit ⊢
      rwa [fill_of_not_mem (by omega)] at hbit
    · rwa [fill_of_not_mem (by omega)] at hbit
  right := by
    have hple := hto.le
    rw [show a - p + p = a by omega]
    exact .inr hset

/-! ## Moving the limit back -/

/-- The gaps after the limit has been moved back to the start of the last one. -/
theorem IsGap.of_retreat (hgap : IsGap bits limit a n) (hend : a + n = limit)
    (h : IsGap bits a b m) : IsGap bits limit b m ∧ b + m < a := by
  have hpos := h.pos
  have hle := h.le
  have hlt : b + m ≠ a := by
    intro heq
    rcases hgap.left with hzero | hset
    · omega
    · rw [h.clear (a - 1) (by omega) (by omega)] at hset
      cases hset
  refine ⟨⟨hpos, by omega, h.clear, h.left, ?_⟩, by omega⟩
  exact .inr (h.right.resolve_left hlt)

end
