import Zalloc.Nvmalloc.Hints
import Zalloc.Nvmalloc.Writes

/-!
# What is printed

In every run, no test of a header or of the bitmap fails, at any moment of any call.

## Main definitions

* `Silent`, `Printed`: nothing more has been printed; what has been printed is not taken back.
* `NvSound c`: what holds of the headers, and of the calls that are made next.

## Main results

* `printed_nvmalloc`, `printed_nvfree`: what a call has printed is not taken back.
* `nvmalloc_sound`: nothing is printed in any run.
-/

set_option autoImplicit false

namespace Zalloc

/-! ## What has been printed is not taken back -/

/-- Nothing more has been printed. -/
def Silent (st st' : NvState) : Prop := st'.reports = st.reports

/-- What has been printed is not taken back. -/
def Printed (st st' : NvState) : Prop := st.reports <+: st'.reports

instance : IsPreorder NvState Silent where
  refl _ := rfl
  trans _ _ _ h₁ h₂ := h₂.trans h₁

instance : IsPreorder NvState Printed where
  refl _ := List.prefix_refl _
  trans _ _ _ h₁ h₂ := h₁.trans h₂

theorem Silent.printed {st st' : NvState} (h : Silent st st') : Printed st st' :=
  ⟨[], (List.append_nil _).trans (Eq.symm h)⟩

/-- A reservation in the free zone does not print anything. -/
theorem silent_of_zoneWrite {st st' : NvState} (h : ZoneWrite st st') : Silent st st' := by
  cases h <;> rfl

/-- A message is printed at the end. -/
theorem printed_of_searchWrite {st st' : NvState} (h : SearchWrite st st') : Printed st st' := by
  cases h with
  | lists lists => exact List.prefix_refl _
  | report r => exact List.prefix_append _ _
  | header a hv => exact List.prefix_refl _

theorem printed_of_tickWrite {st st' : NvState} (h : TickWrite st st') : Printed st st' := by
  cases h with
  | search h => exact printed_of_searchWrite h
  | queue | released | clear | zone => exact List.prefix_refl _

section

variable {index : ℤ} {location now size : ℕ} {grows : Growth}

theorem silent_orFreeZone {found : Option ℕ} : (orFreeZone size grows found).Grows Silent :=
  grows_orFreeZone fun _ _ => silent_of_zoneWrite

theorem printed_find : (Prog.loop (findBody size) index).Grows Printed :=
  grows_find fun _ _ => printed_of_searchWrite

theorem printed_report {r : Report} : (report r).Grows Printed :=
  grows_report fun _ _ => printed_of_searchWrite

theorem printed_setWord {a : ℕ} {v : BitVec 64} : (setWord a v).Grows Printed :=
  grows_setWord fun _ => List.prefix_refl _

theorem printed_incrementTime : (incrementTime now).Grows Printed :=
  grows_incrementTime fun _ _ => printed_of_tickWrite

/-- What `nvmalloc` has printed is not taken back. -/
theorem printed_nvmalloc : (nvmalloc size grows now).Grows Printed := by
  refine .bind (.bind printed_find fun found => .bind ?_ fun location => ?_) fun located => ?_
  · exact silent_orFreeZone.mono fun _ _ => Silent.printed
  · cases location with
    | none => exact .pure _
    | some location =>
      exact .bind (grows_changeBits fun _ _ _ => List.prefix_refl _) fun _ => .pure _
  · obtain ⟨location, actualSize⟩ := located
    cases location with
    | none => exact .pure _
    | some location =>
      exact .bind printed_setWord fun _ => .bind printed_incrementTime fun _ => .pure _

/-- What `nvfree` has printed is not taken back. -/
theorem printed_nvfree {addr added : ℕ} : (nvfree addr added now).Grows Printed := by
  refine .bind grows_getHeaderSize fun hsize => ?_
  dsimp only
  split_ifs
  · exact .bind printed_report fun _ => .abort
  · exact .bind printed_report fun _ => .abort
  · refine .bind ?_ fun _ => .bind printed_incrementTime fun _ => .pure _
    refine .bind grows_getHeaderSize fun hsize =>
      .bind (grows_reportIf fun _ _ => printed_of_searchWrite) fun _ => ?_
    refine .bind printed_setWord fun _ => .bind printed_setWord fun _ => ?_
    refine .bind (.read _) fun tail => ?_
    split_ifs
    · exact .modify fun _ => List.prefix_refl _
    · exact .bind printed_setWord fun _ => .modify fun _ => List.prefix_refl _

end

/-! ## Nothing is printed -/

/-- What holds of the headers, and of the calls that are made next. -/
structure NvSound (c : NvConfig) : Prop where
  /-- Nothing has been printed. -/
  reports : c.st.reports = []
  /-- `nvmalloc` neither prints anything, at any moment, nor does it stop the process, unless the
  arena has to grow and there is no memory for the bitmap. -/
  malloc : ∀ size grows now, (NvOp.malloc size grows now).Allowed c →
    (nvmalloc size grows now).Always (fun st => st.reports = []) c.st ∧
      ((grows = .noBitmap → Available c.st (blockUnits size)) →
        ∀ st', ¬ (nvmalloc size grows now).Aborts c.st st')
  /-- Nor does `nvfree` of a live block. -/
  free : ∀ b ∈ c.live, ∀ added now,
    (nvfree (b.location + 8) added now).Always (fun st => st.reports = []) c.st ∧
      ∀ st', ¬ (nvfree (b.location + 8) added now).Aborts c.st st'
  /-- The headers in a gap lead from its start to its end. -/
  gaps : ∀ a n, IsGap c.st.bit c.st.zone a n → Tiled (FreeTile c.st.mem) a (a + n)
  /-- A live block has a header with its size. -/
  live : ∀ b ∈ c.live, (c.st.mem b.location).toInt = crcCompute b.location b.size
  /-- A waiting block has a header with its size plus one, and the other sign. -/
  waiting : ∀ w ∈ c.waiting, (c.st.mem w.location).toInt = -crcCompute w.location (w.size + 1)

section

variable {st : NvState} {freeWait nrPages size : ℕ} {grows : Growth} {c : NvConfig}

/-- If nothing has been printed at the end of a program, then at no moment. -/
theorem always_of_returns {α : Type} {p : NvProg α} (hp : p.Grows Printed) {st' : NvState} {a : α}
    (hret : p.Returns st st' a) (hsame : st'.reports = st.reports) :
    p.Always (fun s => s.reports = st.reports) st := by
  intro n
  have hstart : st.reports <+: (p.exec n st).state.reports := hp.from_start n st
  have hend : (p.exec n st).state.reports <+: st'.reports := hp.of_returns hret n
  rw [hsame] at hend
  exact hend.eq_of_length_le hstart.length_le

/-- When the number of pages is never found, nothing is printed either, and the process goes on.
Without memory for the bitmap it is stopped, and nothing is printed. -/
theorem silent_of_diverges {lists : ℕ → List ℕ} (now : ℕ)
    (hsearch : (nvSearch size).Returns st { st with freeLists := lists } none)
    (hnever : ∀ st' r, ¬ (orFreeZone (actualSizeOf (u32 (size + 8))) grows none).Returns
      { st with freeLists := lists } st' r) :
    (nvmalloc size grows now).Always (fun s => s.reports = st.reports) st ∧
      (grows ≠ .noBitmap → ∀ st', ¬ (nvmalloc size grows now).Aborts st st') := by
  constructor
  · refine .bind (.bind (always_of_returns printed_find hsearch rfl) fun s found hloop => ?_)
      fun s r hlocate => absurd hlocate (not_returns_getFreeLocation hsearch hnever)
    obtain ⟨rfl, rfl⟩ := Prog.returns_unique hsearch hloop
    exact .bind (fun n => silent_orFreeZone.from_start n _) fun s r hzone =>
      absurd hzone (hnever s r)
  · intro hans st' hab
    rcases Prog.aborts_bind_iff.1 hab with hlocate | ⟨s, located, hlocate, -⟩
    · rcases Prog.aborts_bind_iff.1 hlocate with hloop | ⟨s, found, hloop, hrest⟩
      · exact Prog.not_aborts_of_returns hsearch hloop
      · obtain ⟨rfl, rfl⟩ := Prog.returns_unique hsearch hloop
        rcases Prog.aborts_bind_iff.1 hrest with hzone | ⟨s₂, location, hzone, -⟩
        · exact not_aborts_orFreeZone hans hzone
        · exact hnever s₂ location hzone
    · exact not_returns_getFreeLocation hsearch hnever hlocate

/-- The invariant implies that nothing is printed by the next call. -/
theorem NvReady.sound (h : NvReady freeWait c) : NvSound c where
  reports := h.reports
  malloc size grows now hok := by
    have hprinted : ∀ {st' : NvState} {r : Option ℕ},
        (nvmalloc size grows now).Returns c.st st' r → st'.reports = c.st.reports →
        (nvmalloc size grows now).Always (fun st => st.reports = []) c.st ∧
          ((grows = .noBitmap → Available c.st (blockUnits size)) →
            ∀ st', ¬ (nvmalloc size grows now).Aborts c.st st') := by
      intro st' r hret hsame
      have halways := always_of_returns printed_nvmalloc hret hsame
      rw [h.reports] at halways
      exact ⟨halways, fun _ _ => Prog.not_aborts_of_returns hret⟩
    cases h.inv.mallocs hok.1 hok.2 now with
    | serves hserved hret =>
      exact hprinted hret (hserved.tick.reports.trans hserved.same.reports)
    | full hmiss hinv hret => exact hprinted hret rfl
    | diverges hmiss hsearch hnever =>
      obtain ⟨halways, haborts⟩ := silent_of_diverges now hsearch hnever
      rw [h.reports] at halways
      refine ⟨halways, fun havailable => haborts fun hans => ?_⟩
      rcases havailable hans with ⟨j, p, a, n, hfirst, hj, hp, hleads, hkn⟩ | hroom
      · -- the search would have used the hint
        have hlt := hmiss.lt_of_leads hfirst hj hp hleads
        omega
      · -- there is room, and the arena does not have to grow
        refine hnever _ _ (returns_orFreeZone_room ?_)
        rwa [actualSizeOf_request hok.1]
  free b hb added now := by
    obtain ⟨mem, head, tail, st', waiting', htick, hinv, hret⟩ :=
      h.inv.returns_nvfree (List.perm_cons_erase hb) added now
    have halways := always_of_returns printed_nvfree hret htick.reports
    rw [h.reports] at halways
    exact ⟨halways, fun _ => Prog.not_aborts_of_returns hret⟩
  gaps := h.inv.tiled
  live := h.inv.liveHeader
  waiting w hw := (h.inv.waitingHeader w hw).1

/-- In no run of allowed steps is anything printed, and the process is never stopped, unless the
arena has to grow and there is no memory for the bitmap. -/
theorem nvmalloc_sound (hpages : nrPages * nvPageSize < 2 ^ 32) {mem : ℕ → BitVec 64}
    (h : Runs.Reach NvStep (fun c op => op.Allowed c) (nvStart nrPages freeWait mem) c) :
    NvSound c :=
  (reach_nvReady hpages h).sound

end

/-- In a run that has left a gap of two units, the header of the gap tells so. -/
theorem nvmalloc_sound_firstReleased :
    IsGap firstReleased.st.bit firstReleased.st.zone 0 2 ∧
      Tiled (FreeTile firstReleased.st.mem) 0 2 := by
  have hsound := nvmalloc_sound (by decide) (reach_firstReleased.mono fun _ _ hok => hok.1)
  have hgap : IsGap firstReleased.st.bit firstReleased.st.zone 0 2 := by
    refine ⟨by decide, by decide +kernel, fun u _ hu => ?_, .inl rfl, .inr (by decide +kernel)⟩
    have hall : ∀ u < 2, firstReleased.st.bit u = false := by decide +kernel
    exact hall u (by omega)
  exact ⟨hgap, hsound.gaps 0 2 hgap⟩

end Zalloc
