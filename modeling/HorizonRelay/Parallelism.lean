import HorizonRelay.Evaluation
import HorizonRelay.Budget
import HorizonRelay.Lib.PyText

/-!
# Work that did not run in parallel

A record has the start and the duration of its call rounded to milliseconds, each for
itself.  The evaluation adds them up again, so the end it takes for a call can be later than
the real one, and calls that followed each other can seem to overlap.

## Main definitions

* `TimedCall`, `TimedCall.entry` — a work call with the clock readings of its record.
* `InFlight`, `Alone` — when a call is under way, and that no two of them are at once.
* `PastMiddle`, `Spaced` — the place of a time in its millisecond, and whether the pause after
  a start and a duration makes up for rounding them up.
* `Clear` — two calls of which the later one does not seem to begin before the other's end.

## Main results

* `clear_of_pause` — half a millisecond between two calls is always enough.
* `parallelMs_eq_zero_iff_clear` — when calls that followed each other do not seem to overlap.
* `parallelMs_le` — how much is found in error at most.
-/

namespace HorizonRelay

open Py Intervals

/-- A work call of a run, with the times at which its clock was read, in seconds. -/
structure TimedCall : Type where
  taskId : Option Str
  tier : Tier
  /-- When `started_ms` was computed. -/
  opened : ℚ
  /-- When the measured time began. -/
  start : ℚ
  /-- When `elapsed_ms` was computed. -/
  ended : ℚ
  opened_le : opened ≤ start
  start_le : start ≤ ended

namespace TimedCall

/-- Milliseconds in the record of a time. -/
def ms (t : ℚ) : ℤ := roundHalfEven (t * 1000)

/-- The record of a call that has ended, as far as the evaluation reads it. -/
def entry (c : TimedCall) : CallEntry where
  operation := Operation.work.name
  tier := c.tier.name
  taskId := c.taskId
  startedMs := some (ms c.opened)
  elapsedMs := some (ms (c.ended - c.start))

/-- A call is under way at a moment. -/
def InFlight (c : TimedCall) (t : ℚ) : Prop := c.opened ≤ t ∧ t < c.ended

instance (c : TimedCall) (t : ℚ) : Decidable (c.InFlight t) := inferInstanceAs (Decidable (_ ∧ _))

end TimedCall

/-- At every moment at most one of the calls is under way. -/
def Alone (cs : List TimedCall) : Prop := ∀ t : ℚ, cs.countP (fun c => c.InFlight t) ≤ 1

/-- A time in milliseconds is past the middle of its millisecond. The middle itself belongs to
the side of the even neighbour. -/
def PastMiddle (q : ℚ) : Prop := 1 / 2 < Int.fract q ∨ Int.fract q = 1 / 2 ∧ Odd ⌊q⌋

instance (q : ℚ) : Decidable (PastMiddle q) := inferInstanceAs (Decidable (_ ∨ _))

/-- How many of a start and a duration are past the middle. -/
def pastMiddles (s e : ℚ) : ℤ :=
  (if PastMiddle s then 1 else 0) + (if PastMiddle e then 1 else 0)

/-- What a start and a duration have of their last milliseconds, and the pause after them, is at
most half a millisecond short of one for each of the two that is past the middle. -/
def Spaced (s e pause : ℚ) : Prop :=
  pastMiddles s e - 1 / 2 < Int.fract s + Int.fract e + pause ∨
    Int.fract s + Int.fract e + pause = pastMiddles s e - 1 / 2 ∧ Odd ⌊s + e + pause⌋

instance (s e pause : ℚ) : Decidable (Spaced s e pause) := inferInstanceAs (Decidable (_ ∨ _))

/-- The later call takes half a millisecond at most, or the pause before it is long enough.
What passed between the two readings of the clock at the earlier one's start counts, too. -/
def Clear (c d : TimedCall) : Prop :=
  (d.ended - d.start) * 1000 ≤ 1 / 2 ∨
    Spaced (c.opened * 1000) ((c.ended - c.start) * 1000)
      ((d.opened - c.ended + (c.start - c.opened)) * 1000)

instance (c d : TimedCall) : Decidable (Clear c d) := inferInstanceAs (Decidable (_ ∨ _))

/-! ## Rounding -/

theorem roundHalfEven_nonneg {q : ℚ} (h : 0 ≤ q) : 0 ≤ roundHalfEven q := by
  have hmono := roundHalfEven_mono h
  rwa [show roundHalfEven 0 = 0 from roundHalfEven_intCast 0] at hmono

/-- At most half a millisecond rounds to none. -/
theorem roundHalfEven_eq_zero_iff {q : ℚ} (h : 0 ≤ q) : roundHalfEven q = 0 ↔ q ≤ 1 / 2 := by
  constructor
  · intro hzero
    rcases roundHalfEven_cases q with ⟨hr, hle⟩ | ⟨hr, hle⟩
    · have hfloor : (⌊q⌋ : ℚ) = 0 := by exact_mod_cast hr.symm.trans hzero
      linarith
    · have hfloor : 0 ≤ ⌊q⌋ := Int.floor_nonneg.mpr h
      omega
  · intro hle
    have hmono := roundHalfEven_mono hle
    have hhalf : roundHalfEven (1 / 2) = 0 := by decide +kernel
    have := roundHalfEven_nonneg h
    omega

theorem roundHalfEven_eq_floor_add (q : ℚ) :
    roundHalfEven q = ⌊q⌋ + if PastMiddle q then 1 else 0 := by
  have hpast : PastMiddle q ↔ 1 / 2 < q - ⌊q⌋ ∨ q - ⌊q⌋ = 1 / 2 ∧ Odd ⌊q⌋ := by
    rw [PastMiddle, ← Int.self_sub_floor]
  unfold roundHalfEven
  simp only
  rcases lt_trichotomy (q - ⌊q⌋) (1 / 2) with h | h | h
  · have hnot : ¬ PastMiddle q := fun hq =>
      (hpast.mp hq).elim h.not_gt fun hmid => h.ne hmid.1
    rw [if_pos h, if_neg hnot, add_zero]
  · rw [if_neg h.not_lt, if_neg h.not_gt]
    rcases Int.even_or_odd ⌊q⌋ with he | ho
    · have hnot : ¬ PastMiddle q := fun hq =>
        (hpast.mp hq).elim h.not_gt fun hmid => Int.not_odd_iff_even.mpr he hmid.2
      rw [if_pos (Int.even_iff.mp he), if_neg hnot, add_zero]
    · rw [if_neg (by rw [Int.odd_iff.mp ho]; decide), if_pos (hpast.mpr (.inr ⟨h, ho⟩))]
  · rw [if_neg h.not_gt, if_pos h, if_pos (hpast.mpr (.inl h))]

/-- A number rounds to an integer or more from half below it on, and there when it goes up. -/
theorem le_roundHalfEven_iff {m : ℤ} {q : ℚ} :
    m ≤ roundHalfEven q ↔ (m - 1 / 2 : ℚ) < q ∨ q = m - 1 / 2 ∧ Odd ⌊q⌋ := by
  have hfract := Int.self_sub_floor q
  have hlt := Int.fract_lt_one q
  have hnonneg := Int.fract_nonneg q
  rw [roundHalfEven_eq_floor_add]
  constructor
  · intro h
    split at h
    · rename_i hpast
      have hm : (m : ℚ) ≤ ⌊q⌋ + 1 := by exact_mod_cast h
      rcases hpast with hpast | ⟨hpast, hodd⟩
      · exact .inl (by linarith)
      · rcases hm.lt_or_eq with hm | hm
        · exact .inl (by linarith)
        · exact .inr ⟨by linarith, hodd⟩
    · have hm : (m : ℚ) ≤ ⌊q⌋ := by exact_mod_cast (add_zero ⌊q⌋ ▸ h)
      exact .inl (by linarith)
  · rintro (h | ⟨h, hodd⟩)
    · split
      · have hm : (m : ℚ) < ⌊q⌋ + 2 := by linarith
        have : m < ⌊q⌋ + 2 := by exact_mod_cast hm
        omega
      · rename_i hpast
        have hle : Int.fract q ≤ 1 / 2 := not_lt.mp fun hlt => hpast (.inl hlt)
        have hm : (m : ℚ) < ⌊q⌋ + 1 := by linarith
        have : m < ⌊q⌋ + 1 := by exact_mod_cast hm
        omega
    · -- just half below the integer
      have hm : (m : ℚ) < ⌊q⌋ + 2 := by linarith
      have hm' : (⌊q⌋ : ℚ) < m := by linarith
      have hlow : m < ⌊q⌋ + 2 := by exact_mod_cast hm
      have hhigh : ⌊q⌋ < m := by exact_mod_cast hm'
      have hfloor : (m : ℚ) = ⌊q⌋ + 1 := by exact_mod_cast (by omega : m = ⌊q⌋ + 1)
      rw [if_pos (.inr ⟨by linarith, hodd⟩)]
      omega

/-- Rounded each for itself, a start and a duration come to no more than what follows them
after the pause. -/
theorem spaced_iff {s e pause : ℚ} :
    Spaced s e pause ↔ roundHalfEven s + roundHalfEven e ≤ roundHalfEven (s + e + pause) := by
  have hs := Int.self_sub_floor s
  have he := Int.self_sub_floor e
  have hsum : roundHalfEven s + roundHalfEven e = ⌊s⌋ + ⌊e⌋ + pastMiddles s e := by
    rw [roundHalfEven_eq_floor_add, roundHalfEven_eq_floor_add, pastMiddles]
    ring
  rw [hsum, le_roundHalfEven_iff, Spaced]
  push_cast
  refine or_congr ?_ (and_congr_left' ?_)
  · constructor <;> intro h <;> linarith
  · constructor <;> intro h <;> linarith

/-- Half a millisecond is always enough. -/
theorem spaced_of_half {s e pause : ℚ} (h : 1 / 2 ≤ pause) : Spaced s e pause := by
  have hs := Int.fract_nonneg s
  have he := Int.fract_nonneg e
  unfold Spaced pastMiddles
  by_cases hsp : PastMiddle s
  · by_cases hep : PastMiddle e
    · rw [if_pos hsp, if_pos hep]
      push_cast
      rcases hsp with hsp | ⟨hsp, hsodd⟩
      · rcases hep with hep | ⟨hep, -⟩ <;> exact .inl (by linarith)
      · rcases hep with hep | ⟨hep, heodd⟩
        · exact .inl (by linarith)
        · rcases h.lt_or_eq with h | rfl
          · exact .inl (by linarith)
          · -- two middles of odd milliseconds, and half of one, are in the middle of an odd one
            refine .inr ⟨by linarith, ?_⟩
            have hfloor : ⌊s + e + 1 / 2⌋ = ⌊s⌋ + ⌊e⌋ + 1 := by
              rw [Int.floor_eq_iff]
              push_cast
              have hs := Int.self_sub_floor s
              have he := Int.self_sub_floor e
              constructor <;> linarith
            rw [hfloor]
            exact (hsodd.add_odd heodd).add_one
    · rw [if_pos hsp, if_neg hep]
      push_cast
      have : 1 / 2 ≤ Int.fract s := hsp.elim le_of_lt fun h => h.1.ge
      exact .inl (by linarith)
  · rw [if_neg hsp]
    by_cases hep : PastMiddle e
    · rw [if_pos hep]
      push_cast
      have : 1 / 2 ≤ Int.fract e := hep.elim le_of_lt fun h => h.1.ge
      exact .inl (by linarith)
    · rw [if_neg hep]
      push_cast
      exact .inl (by linarith)

/-- **A pause of half a millisecond** keeps a call clear of the ones before. -/
theorem clear_of_pause {c d : TimedCall} (h : c.ended + 1 / 2000 ≤ d.opened) : Clear c d := by
  have hlag := c.opened_le
  exact .inr (spaced_of_half (by linarith))

theorem TimedCall.elapses (c : TimedCall) : c.entry.Elapses := by
  have h := c.start_le
  exact roundHalfEven_nonneg (by linarith)

/-- The pause is long enough exactly when the rounded records do not overlap. -/
theorem clear_iff (c d : TimedCall) :
    Clear c d ↔ c.entry.started + c.entry.elapsed ≤ d.entry.started ∨ d.entry.elapsed = 0 := by
  have hd := d.start_le
  have hzero : d.entry.elapsed = 0 ↔ (d.ended - d.start) * 1000 ≤ 1 / 2 :=
    roundHalfEven_eq_zero_iff (by linarith)
  have hsum : c.opened * 1000 + (c.ended - c.start) * 1000 +
      (d.opened - c.ended + (c.start - c.opened)) * 1000 = d.opened * 1000 := by ring
  rw [hzero, Clear, spaced_iff, hsum, or_comm]
  rfl

/-! ## Overlaps -/

/-- The milliseconds of a call's record. -/
def TimedCall.interval (c : TimedCall) : Interval := c.entry.interval c.elapses

theorem work_entries (cs : List TimedCall) :
    work (cs.map TimedCall.entry) = cs.map TimedCall.entry := by
  rw [work, List.filter_eq_self]
  intro e he
  obtain ⟨c, -, rfl⟩ := List.mem_map.mp he
  rfl

theorem elapses_entries (cs : List TimedCall) : ∀ e ∈ cs.map TimedCall.entry, e.Elapses := by
  intro e he
  obtain ⟨c, -, rfl⟩ := List.mem_map.mp he
  exact c.elapses

theorem parallelMoments_entries (cs : List TimedCall) :
    parallelMoments (cs.map TimedCall.entry) = crowded (cs.map TimedCall.interval) := by
  simp only [parallelMoments, crowded, cover, List.countP_map]
  rfl

theorem clear_iff_apart {c d : TimedCall} (h : c.opened ≤ d.opened) :
    Clear c d ↔ c.interval.Apart d.interval := by
  have hstart : c.interval.start ≤ d.interval.start :=
    roundHalfEven_mono (mul_le_mul_of_nonneg_right h (by norm_num))
  rw [clear_iff, apart_iff_of_le hstart]
  refine or_congr Iff.rfl ?_
  simp only [TimedCall.interval, CallEntry.interval]
  omega

/-- What the evaluation finds of the records of some calls. -/
theorem parallelMs_entries (cs : List TimedCall) :
    (delegation (cs.map TimedCall.entry)).parallelMs =
      (parallelMoments (cs.map TimedCall.entry)).ncard := by
  rw [← (sweep_eq (elapses_entries cs)).2, delegation, work_entries]

/-- **Whether calls seem to overlap**, by their records: they do not if and only if any two of
them are clear of each other. -/
theorem parallelMs_eq_zero_iff_clear {cs : List TimedCall}
    (hsorted : cs.Pairwise fun c d => c.opened ≤ d.opened) :
    (delegation (cs.map TimedCall.entry)).parallelMs = 0 ↔ cs.Pairwise Clear := by
  rw [parallelMs_entries, Nat.cast_eq_zero, Set.ncard_eq_zero (sweep_eq (elapses_entries cs)).1,
    parallelMoments_entries, crowded_eq_empty_iff, List.pairwise_map]
  constructor
  · intro h
    refine (hsorted.and h).imp fun {c d} hcd => ?_
    exact (clear_iff_apart hcd.1).mpr hcd.2
  · intro h
    refine (hsorted.and h).imp fun {c d} hcd => ?_
    exact (clear_iff_apart hcd.1).mp hcd.2

/-! ## Calls that followed each other -/

theorem alone_iff {cs : List TimedCall} :
    Alone cs ↔ cs.Pairwise fun c d => ∀ t : ℚ, ¬ (c.InFlight t ∧ d.InFlight t) := by
  have h := countP_le_one_iff (fun t (c : TimedCall) => decide (c.InFlight t)) cs
  simp only [decide_eq_true_eq] at h
  exact h

/-- Calls of which each began when all before it had ended are alone. -/
theorem alone_of_ended {cs : List TimedCall} (h : cs.Pairwise fun c d => c.ended ≤ d.opened) :
    Alone cs := by
  refine alone_iff.mpr (h.imp fun {c d} hle t ht => ?_)
  exact absurd ht.2.1 (not_le.mpr (lt_of_lt_of_le ht.1.2 hle))

/-- Rounding can move the end of a call past a later start by one millisecond at most. -/
theorem ms_add_le {a b c : ℚ} (h : a + b ≤ c) :
    TimedCall.ms a + TimedCall.ms b ≤ TimedCall.ms c + 1 := by
  have ha := roundHalfEven_le (a * 1000)
  have hb := roundHalfEven_le (b * 1000)
  have hc := le_roundHalfEven (c * 1000)
  have hlt : (TimedCall.ms a + TimedCall.ms b : ℚ) < (TimedCall.ms c + 1 + 1 : ℚ) := by
    simp only [TimedCall.ms]
    linarith
  exact Int.lt_add_one_iff.mp (by exact_mod_cast hlt)

/-- Two calls of which the second began no earlier and that were never under way at once share
at most the millisecond of its start. -/
theorem eq_started_of_covers {c d : TimedCall} (hle : c.opened ≤ d.opened)
    (hapart : ∀ t : ℚ, ¬ (c.InFlight t ∧ d.InFlight t)) {m : ℤ} (hc : c.entry.Covers m)
    (hd : d.entry.Covers m) : m = d.entry.started := by
  have hcover : TimedCall.ms d.opened ≤ m ∧
      m < TimedCall.ms d.opened + TimedCall.ms (d.ended - d.start) := hd
  have hcover' : m < TimedCall.ms c.opened + TimedCall.ms (c.ended - c.start) := hc.2
  by_cases hend : c.ended ≤ d.opened
  · have hsum : c.opened + (c.ended - c.start) ≤ d.opened := by linarith [c.opened_le]
    have := ms_add_le hsum
    change m = TimedCall.ms d.opened
    omega
  · -- the later call took no time at all
    have hnone : ¬ d.InFlight d.opened := fun h => hapart _ ⟨⟨hle, not_le.mp hend⟩, h⟩
    have hzero : d.ended - d.start = 0 := by
      have h := d.opened_le
      have h' := d.start_le
      simp only [TimedCall.InFlight, le_refl, true_and, not_lt] at hnone
      linarith
    have hms : TimedCall.ms 0 = 0 := by decide +kernel
    rw [hzero, hms] at hcover
    omega

theorem parallelMoments_subset {cs : List TimedCall}
    (h : cs.Pairwise fun c d => ∀ m : ℤ, c.entry.Covers m → d.entry.Covers m →
      m = d.entry.started) :
    parallelMoments (cs.map TimedCall.entry) ⊆
      ((cs.tail.map fun c => c.entry.started).toFinset : Set ℤ) := by
  intro m hm
  simp only [parallelMoments, Set.mem_ofPred_eq, List.countP_map] at hm
  simp only [Finset.mem_coe, List.mem_toFinset, List.mem_map]
  induction cs with
  | nil => simp at hm
  | cons c cs ih =>
      rw [List.pairwise_cons] at h
      rw [List.countP_cons] at hm
      by_cases htwo : 2 ≤ cs.countP ((fun e => decide (e.Covers m)) ∘ TimedCall.entry)
      · obtain ⟨d, hd, hdm⟩ := ih h.2 htwo
        exact ⟨d, List.mem_of_mem_tail hd, hdm⟩
      · by_cases hcm : c.entry.Covers m
        · have hpos : 0 < cs.countP ((fun e => decide (e.Covers m)) ∘ TimedCall.entry) := by
            simp only [Function.comp_apply, hcm, decide_true, if_true] at hm
            omega
          obtain ⟨d, hd, hdm⟩ := List.countP_pos_iff.mp hpos
          exact ⟨d, hd, (h.1 d hd m hcm (by simpa using hdm)).symm⟩
        · simp only [Function.comp_apply, hcm, decide_false, Bool.false_eq_true, if_false] at hm
          omega

/-- **How much is found in error**: at most one millisecond for each call after the first. -/
theorem parallelMs_le {cs : List TimedCall} (hsorted : cs.Pairwise fun c d => c.opened ≤ d.opened)
    (halone : Alone cs) : (delegation (cs.map TimedCall.entry)).parallelMs ≤ cs.tail.length := by
  rw [parallelMs_entries]
  have hshare : cs.Pairwise fun c d => ∀ m : ℤ, c.entry.Covers m → d.entry.Covers m →
      m = d.entry.started :=
    (hsorted.and (alone_iff.mp halone)).imp fun {c d} h m hc hd =>
      eq_started_of_covers h.1 h.2 hc hd
  refine Int.ofNat_le.mpr ((Set.ncard_le_ncard (parallelMoments_subset hshare)
    (Finset.finite_toSet _)).trans ?_)
  rw [Set.ncard_coe_finset]
  simpa using List.toFinset_card_le (cs.tail.map fun c => c.entry.started)

end HorizonRelay
