import Mathlib.Algebra.Order.BigOperators.Group.Finset
import Mathlib.Order.Interval.Finset.Nat
import Zalloc.Foundations.Gaps

/-!
# How far segments can reach

Where the bits that are set belong to segments, and the gaps between them are short, the limit is
not far away: each segment accounts for its own bits and for the gap in front of it.

## Main results

* `exists_isGap_of_clear`: a bit that is not set is in a gap.
* `exists_set_of_gaps`: where the gaps are short, a set bit is near.
* `limit_le_of_gaps`: a bound on the limit by the number of the segments.
-/

set_option autoImplicit false

section

variable {bits : ℕ → Bool} {limit a d m u : ℕ}

/-! ## The gap of a position -/

/-- There is a longest range of clear bits from a position on. -/
theorem exists_clearFrom (bits : ℕ → Bool) (limit a : ℕ) : ∃ n, ClearFrom bits limit a n := by
  have hex : ∃ n, limit ≤ a + n ∨ bits (a + n) = true := ⟨limit, .inl (Nat.le_add_left ..)⟩
  classical
  refine ⟨Nat.find hex, fun u hlo hhi => ?_, Nat.find_spec hex⟩
  have hmin := Nat.find_min hex (m := u - a) (by omega)
  rw [show a + (u - a) = u by omega, not_or, Bool.not_eq_true] at hmin
  exact ⟨by omega, hmin.2⟩

/-- There is a longest range of clear bits up to a position. -/
theorem exists_clearTo (bits : ℕ → Bool) (a : ℕ) : ∃ n, ClearTo bits a n := by
  have hex : ∃ n, n = a ∨ bits (a - n - 1) = true := ⟨a, .inl rfl⟩
  classical
  refine ⟨Nat.find hex, Nat.find_min' hex (.inl rfl), fun u hlo hhi => ?_, Nat.find_spec hex⟩
  have hmin := Nat.find_min hex (m := a - 1 - u) (by omega)
  rw [show a - (a - 1 - u) - 1 = u by omega, not_or, Bool.not_eq_true] at hmin
  exact hmin.2

/-- A bit that is not set is in a gap. -/
theorem exists_isGap_of_clear (hu : u < limit) (hclear : bits u = false) :
    ∃ a n, IsGap bits limit a n ∧ a ≤ u ∧ u < a + n := by
  obtain ⟨s, hfrom⟩ := exists_clearFrom bits limit u
  obtain ⟨p, hto⟩ := exists_clearTo bits u
  have hple := hto.le
  have hs : 0 < s := by
    by_contra hzero
    rcases hfrom.right with hlim | hset
    · omega
    · rw [show u + s = u by omega, hclear] at hset
      cases hset
  exact ⟨u - p, p + s, isGap_of_scan hto hfrom hu.le (by omega), Nat.sub_le .., by omega⟩

/-- Where the bit below the limit is set and no gap has more than `d` bits, a set bit is not more
than `d` bits away. -/
theorem exists_set_of_gaps (htop : limit = 0 ∨ bits (limit - 1) = true)
    (hgaps : ∀ a n, IsGap bits limit a n → n ≤ d) (hu : u < limit) :
    ∃ v, u ≤ v ∧ v ≤ u + d ∧ v < limit ∧ bits v = true := by
  cases hbit : bits u with
  | true => exact ⟨u, le_rfl, Nat.le_add_right .., hu, hbit⟩
  | false =>
    obtain ⟨a, n, hgap, hlo, hhi⟩ := exists_isGap_of_clear hu hbit
    have hn := hgaps a n hgap
    have hle := hgap.le
    -- the bit below the limit is not in the gap
    have hend : a + n ≠ limit := by
      intro hend
      have hlast := hgap.clear (limit - 1) (by omega) (by omega)
      rw [htop.resolve_left (by omega)] at hlast
      cases hlast
    exact ⟨a + n, by omega, by omega, by omega, hgap.right.resolve_left hend⟩

/-! ## The segments -/

variable {ι : Type} [DecidableEq ι] {l : List ι}

/-- Where the set bits belong to segments of at most `m` bits and no gap has more than `d` bits,
the limit is at most `m + d` for each segment. -/
theorem limit_le_of_gaps (start stop : ι → ℕ) (htop : limit = 0 ∨ bits (limit - 1) = true)
    (hgaps : ∀ a n, IsGap bits limit a n → n ≤ d)
    (hcover : ∀ u < limit, bits u = true → ∃ i ∈ l, start i ≤ u ∧ u < stop i)
    (hsize : ∀ i ∈ l, stop i ≤ start i + m) : limit ≤ l.length * (m + d) := by
  -- each segment is taken together with the `d` bits in front of it
  have hsub : Finset.range limit ⊆
      l.toFinset.biUnion fun i => Finset.Ico (start i - d) (stop i) := by
    intro u hu
    obtain ⟨v, huv, hvu, hv, hset⟩ := exists_set_of_gaps htop hgaps (Finset.mem_range.1 hu)
    obtain ⟨i, hi, hlo, hhi⟩ := hcover v hv hset
    refine Finset.mem_biUnion.2 ⟨i, List.mem_toFinset.2 hi, Finset.mem_Ico.2 ⟨?_, ?_⟩⟩
    · omega
    · omega
  calc limit = (Finset.range limit).card := (Finset.card_range limit).symm
    _ ≤ _ := Finset.card_le_card hsub
    _ ≤ l.toFinset.card * (m + d) := Finset.card_biUnion_le_card_mul _ _ _ fun i hi => by
        have hle := hsize i (List.mem_toFinset.1 hi)
        rw [Nat.card_Ico]
        omega
    _ ≤ l.length * (m + d) := Nat.mul_le_mul_right _ (List.toFinset_card_le l)

end
