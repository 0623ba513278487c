import Mathlib
import OperatorSplitting.Admm.Timing
import OperatorSplitting.Proofs.Exact.Scalar

/-!
# Summaries of timed phases

The records of a timer are summed up in two passes over a hash map.  The first adds each record to the
sum of its phase, the second turns all sums into averages.  Whatever other phases are recorded in
between, the sum of a phase is that of its own durations (`getElem?_sums`), so that neither the order of
the records nor that of the map matters.  Over exact numbers the summaries are the averages and the
maxima of the recorded durations (`summaries_timed`).
-/

namespace OperatorSplitting

/-! ### Uses of a timer -/

/-- A use of a timer. -/
inductive TimerCall where
  | startIteration
  | record (phase : String) (duration : Duration) (timestamp : Nat)

namespace Timing

section Calls

variable {W : Type} [RealArithmetic W]

/-- The timer after a use of it. -/
def perform (t : Timing W) : TimerCall → Timing W
  | .startIteration => t.startIteration
  | .record phase duration timestamp => t.record phase duration.milliseconds timestamp

/-- The timer after some uses of it. -/
def timed (calls : List TimerCall) : Timing W := calls.foldl perform empty

/-- The phases and the durations that are recorded. -/
def recordedSteps : List TimerCall → List (String × W)
  | [] => []
  | .startIteration :: calls => recordedSteps calls
  | .record phase duration _ :: calls => (phase, duration.milliseconds) :: recordedSteps calls

omit [RealArithmetic W] in
/-- The phases and the durations of the records. -/
def steps (t : Timing W) : List (String × W) := t.records.map fun r => (r.phase, r.milliseconds)

theorem steps_foldl_perform (calls : List TimerCall) (t : Timing W) :
    (calls.foldl perform t).steps = t.steps ++ recordedSteps calls := by
  induction calls generalizing t with
  | nil => simp [recordedSteps]
  | cons call calls ih =>
    rw [List.foldl_cons, ih]
    cases call with
    | startIteration => rfl
    | record phase duration timestamp => simp [steps, perform, recordedSteps]

theorem steps_timed (calls : List TimerCall) : (timed calls : Timing W).steps = recordedSteps calls :=
  steps_foldl_perform calls empty

end Calls

/-! ### The durations of a phase -/

section Durations

variable {W : Type} {steps steps' : List (String × W)} {phase : String}

/-- The durations of one phase. -/
def durations (steps : List (String × W)) (phase : String) : List W :=
  (steps.filter fun p => p.1 = phase).map Prod.snd

theorem durations_cons (p : String × W) (steps : List (String × W)) (phase : String) :
    durations (p :: steps) phase =
      if p.1 = phase then p.2 :: durations steps phase else durations steps phase := by
  by_cases h : p.1 = phase <;> simp [durations, h]

theorem mem_of_mem_durations {d : W} (h : d ∈ durations steps phase) : (phase, d) ∈ steps := by
  obtain ⟨p, hp, rfl⟩ := List.mem_map.mp h
  obtain ⟨hp, hphase⟩ := List.mem_filter.mp hp
  rw [decide_eq_true_eq] at hphase
  rwa [← hphase]

theorem durations_eq_nil_iff : durations steps phase = [] ↔ phase ∉ steps.map Prod.fst := by
  rw [durations, List.map_eq_nil_iff, List.filter_eq_nil_iff, List.mem_map]
  constructor
  · rintro h ⟨p, hp, rfl⟩
    exact h p hp (decide_eq_true rfl)
  · intro h p hp hphase
    exact h ⟨p, hp, of_decide_eq_true hphase⟩

theorem length_durations : (durations steps phase).length = (steps.map Prod.fst).count phase := by
  induction steps with
  | nil => rfl
  | cons p steps ih =>
    rw [durations_cons, List.map_cons, List.count_cons, ← ih]
    by_cases h : p.1 = phase <;> simp [h]

theorem durations_perm (h : steps.Perm steps') :
    (durations steps phase).Perm (durations steps' phase) :=
  (h.filter _).map _

end Durations

/-! ### The sums of a phase -/

section Sums

variable {W : Type} [RealArithmetic W]

/-- Adding records adds to each phase its own durations. -/
theorem getElem?_foldl_addRecord (rs : List (TimingRecord W))
    (sums : Std.HashMap String (PhaseSummary W)) (phase : String) :
    (rs.foldl addRecord sums)[phase]? =
      (durations (rs.map fun r => (r.phase, r.milliseconds)) phase).foldl
        (fun s ms => some ((s.getD .empty).add ms)) sums[phase]? := by
  induction rs generalizing sums with
  | nil => rfl
  | cons r rs ih =>
    rw [List.foldl_cons, ih, getElem?_addRecord, List.map_cons, durations_cons]
    by_cases h : r.phase = phase <;> simp [h]

theorem foldl_add_some (s : PhaseSummary W) (ds : List W) :
    ds.foldl (fun s ms => some ((s.getD .empty).add ms)) (some s) =
      some (ds.foldl PhaseSummary.add s) := by
  induction ds generalizing s with
  | nil => rfl
  | cons d ds ih => exact ih (s.add d)

/-- The sum of a recorded phase is that of its durations. -/
theorem getElem?_sums (t : Timing W) (phase : String) :
    t.sums[phase]? = if phase ∈ t.steps.map Prod.fst then
      some ((durations t.steps phase).foldl PhaseSummary.add .empty) else none := by
  rw [sums, getElem?_foldl_addRecord, Std.HashMap.getElem?_empty]
  show List.foldl _ none (durations t.steps phase) = _
  cases hds : durations t.steps phase with
  | nil => rw [if_neg (durations_eq_nil_iff.mp hds)]; rfl
  | cons d ds =>
    rw [if_pos]
    · exact foldl_add_some (PhaseSummary.empty.add d) ds
    · by_contra h
      rw [durations_eq_nil_iff.mpr h] at hds
      cases hds

theorem getElem?_summaries (t : Timing W) (phase : String) :
    t.summaries[phase]? = if phase ∈ t.steps.map Prod.fst then
      some ((durations t.steps phase).foldl PhaseSummary.add .empty).averaged else none := by
  rw [summaries, Std.HashMap.getElem?_map, getElem?_sums]
  split <;> rfl

theorem mem_summaries_iff {t : Timing W} {phase : String} :
    phase ∈ t.summaries ↔ phase ∈ t.steps.map Prod.fst := by
  rw [Std.HashMap.mem_iff_isSome_getElem?, getElem?_summaries]
  split <;> simp [*]

theorem count_foldl_add (s : PhaseSummary W) (ds : List W) :
    (ds.foldl PhaseSummary.add s).count = s.count + ds.length := by
  induction ds generalizing s with
  | nil => rfl
  | cons d ds ih =>
    have hadd : (s.add d).count = s.count + 1 := rfl
    rw [List.foldl_cons, ih, hadd, List.length_cons]
    omega

/-- No sum is divided by zero. -/
theorem count_sums_ne_zero {t : Timing W} {phase : String} {s : PhaseSummary W}
    (h : t.sums[phase]? = some s) : s.count ≠ 0 := by
  rw [getElem?_sums] at h
  split at h
  · next hmem =>
    cases h
    rw [count_foldl_add, length_durations, PhaseSummary.empty, Nat.zero_add]
    exact (List.count_pos_iff.mpr hmem).ne'
  · cases h

/-- A summary counts the records of its phase. -/
theorem count_of_getElem?_summaries {t : Timing W} {phase : String} {s : PhaseSummary W}
    (h : t.summaries[phase]? = some s) : s.count = (t.steps.map Prod.fst).count phase := by
  rw [getElem?_summaries] at h
  split at h
  · cases h
    show ((durations t.steps phase).foldl PhaseSummary.add .empty).count = _
    rw [count_foldl_add, length_durations, PhaseSummary.empty, Nat.zero_add]
  · cases h

theorem keys_summaries_perm (t : Timing W) :
    t.summaries.keys.Perm (t.steps.map Prod.fst).dedup := by
  rw [List.perm_ext_iff_of_nodup Std.HashMap.nodup_keys (List.nodup_dedup _)]
  intro phase
  rw [Std.HashMap.mem_keys, mem_summaries_iff, List.mem_dedup]

/-- Every record is counted for one phase. -/
theorem sum_counts_summaries (t : Timing W) :
    (t.summaries.toList.map fun p => p.2.count).sum = t.records.length := by
  have hcounts : (t.summaries.toList.map fun p => p.2.count) =
      t.summaries.keys.map fun phase => (t.steps.map Prod.fst).count phase := by
    rw [← Std.HashMap.map_fst_toList_eq_keys, List.map_map]
    apply List.map_congr_left
    intro p hp
    exact count_of_getElem?_summaries (Std.HashMap.mem_toList_iff_getElem?_eq_some.mp hp)
  calc (t.summaries.toList.map fun p => p.2.count).sum
      = ((t.steps.map Prod.fst).dedup.map fun phase => (t.steps.map Prod.fst).count phase).sum := by
        rw [hcounts]
        exact ((keys_summaries_perm t).map _).sum_eq
    _ = (t.steps.map Prod.fst).length := List.sum_map_count_dedup_eq_length _
    _ = t.records.length := by rw [List.length_map, steps, List.length_map]

end Sums

end Timing

/-! ### Exact summaries -/

/-- A summary of durations, at least one: their average, the largest one and their number. -/
structure PhaseSummary.Describes (s : PhaseSummary ℝ) (ds : List ℝ) : Prop where
  count : s.count = ds.length
  average : s.averageMs * s.count = ds.sum
  maximum : IsGreatest {d | d ∈ ds} s.maxMs
  average_le : s.averageMs ≤ s.maxMs

namespace PhaseSummary

/-- Sums over exact numbers. -/
theorem foldl_add (s : PhaseSummary ℝ) (ds : List ℝ) :
    ds.foldl add s = ⟨s.averageMs + ds.sum, ds.foldl max s.maxMs, s.count + ds.length⟩ := by
  induction ds generalizing s with
  | nil => simp
  | cons d ds ih =>
    rw [List.foldl_cons, ih, List.sum_cons, List.length_cons, List.foldl_cons, ← add_assoc,
      add_comm ds.length 1, ← Nat.add_assoc]
    rfl

/-- The largest of some durations, as they are not negative. -/
theorem isGreatest_foldl_max {ds : List ℝ} (hne : ds ≠ []) (hds : ∀ d ∈ ds, 0 ≤ d) :
    IsGreatest {d | d ∈ ds} (ds.foldl max 0) := by
  obtain ⟨m, hm⟩ := Option.ne_none_iff_exists'.mp (mt List.max?_eq_none_iff.mp hne)
  obtain ⟨hmem, hle⟩ := List.max?_eq_some_iff.mp hm
  rw [List.foldl_max, hm, Option.getD_some, max_eq_right (hds m hmem)]
  exact ⟨hmem, hle⟩

/-- The average of the sum. -/
theorem describes_averaged {ds : List ℝ} (hne : ds ≠ []) (hds : ∀ d ∈ ds, 0 ≤ d) :
    ((ds.foldl add empty).averaged).Describes ds := by
  have hsum : ds.foldl add empty = ⟨ds.sum, ds.foldl max 0, ds.length⟩ := by
    rw [foldl_add]
    simp [empty]
  have hlength : 0 < (ds.length : ℝ) := Nat.cast_pos.mpr (List.length_pos_iff.mpr hne)
  have hmax := isGreatest_foldl_max hne hds
  have hle : ds.sum ≤ ds.length • ds.foldl max 0 := List.sum_le_card_nsmul ds _ hmax.2
  rw [hsum]
  exact {
    count := rfl
    average := div_mul_cancel₀ _ hlength.ne'
    maximum := hmax
    average_le := by
      rw [nsmul_eq_mul, mul_comm] at hle
      exact (div_le_iff₀ hlength).mpr hle }

/-- The order of the durations does not matter. -/
theorem foldl_add_perm {ds ds' : List ℝ} (h : ds.Perm ds') :
    ds.foldl add empty = ds'.foldl add empty := by
  rw [foldl_add, foldl_add, h.sum_eq, h.length_eq, h.foldl_eq]

end PhaseSummary

theorem Duration.milliseconds_nonneg (d : Duration) : 0 ≤ (d.milliseconds : ℝ) := by
  unfold milliseconds
  have hs : (0 : ℝ) ≤ RealArithmetic.ofNat d.seconds := Nat.cast_nonneg _
  have hn : (0 : ℝ) ≤ RealArithmetic.ofNat d.nanoseconds := Nat.cast_nonneg _
  have hg : (0 : ℝ) ≤ RealArithmetic.ofNat 1000000000 := Nat.cast_nonneg _
  have hm : (0 : ℝ) ≤ RealArithmetic.ofNat 1000 := Nat.cast_nonneg _
  positivity

namespace Timing

theorem nonneg_of_mem_recordedSteps {calls : List TimerCall} {p : String × ℝ}
    (h : p ∈ recordedSteps calls) : 0 ≤ p.2 := by
  induction calls with
  | nil => cases h
  | cons call calls ih =>
    cases call with
    | startIteration => exact ih h
    | record phase duration timestamp =>
      rcases List.mem_cons.mp h with rfl | htail
      · exact duration.milliseconds_nonneg
      · exact ih htail

/-- Records that are the same up to their order have the same summaries. -/
theorem summaries_equiv {t t' : Timing ℝ} (h : t.steps.Perm t'.steps) :
    t.summaries.Equiv t'.summaries := by
  apply Std.HashMap.Equiv.of_forall_getElem?_eq
  intro phase
  rw [getElem?_summaries, getElem?_summaries, PhaseSummary.foldl_add_perm (durations_perm h)]
  exact if_congr (h.map Prod.fst).mem_iff rfl rfl

section Statistics

variable {W : Type} [RealArithmetic W] {t t' : Timing W}

theorem statistics_perm (t : Timing W) : t.statistics.Perm t.summaries.toList :=
  List.mergeSort_perm _ _

/-- The phases stand in the order of their names. -/
theorem pairwise_statistics (t : Timing W) : t.statistics.Pairwise fun a b => a.1 ≤ b.1 := by
  have htrans : ∀ a b c : String × PhaseSummary W,
      decide (a.1 ≤ b.1) = true → decide (b.1 ≤ c.1) = true → decide (a.1 ≤ c.1) = true := by
    intro a b c hab hbc
    exact decide_eq_true ((of_decide_eq_true hab).trans (of_decide_eq_true hbc))
  have htotal : ∀ a b : String × PhaseSummary W,
      (decide (a.1 ≤ b.1) || decide (b.1 ≤ a.1)) = true := by
    intro a b
    simpa using le_total a.1 b.1
  exact (List.pairwise_mergeSort htrans htotal t.summaries.toList).imp of_decide_eq_true

/-- The map holds one summary of each phase, so that sorting by the names leaves no choice. -/
theorem statistics_eq_of_equiv (h : t.summaries.Equiv t'.summaries) :
    t.statistics = t'.statistics := by
  have hperm : t.statistics.Perm t'.statistics :=
    (statistics_perm t).trans (h.toList_perm.trans (statistics_perm t').symm)
  have hlookup : ∀ p ∈ t.statistics, t.summaries[p.1]? = some p.2 := by
    intro p hp
    exact Std.HashMap.mem_toList_iff_getElem?_eq_some.mp ((statistics_perm t).mem_iff.mp hp)
  apply hperm.eq_of_pairwise _ (pairwise_statistics t) (pairwise_statistics t')
  intro a b ha hb hab hba
  have hname : a.1 = b.1 := le_antisymm hab hba
  have hsummary := hlookup b (hperm.mem_iff.mpr hb)
  rw [← hname, hlookup a ha] at hsummary
  exact Prod.ext hname (Option.some.inj hsummary)

end Statistics

/-- What becomes of the records of any calls: the recorded phases are summed up and no others, each to
the average, the largest and the number of its durations.  No average is that of no durations, every
record is counted once, and the same records in another order have the same summaries. -/
theorem summaries_timed (calls : List TimerCall) :
    let t : Timing ℝ := timed calls
    (∀ phase, phase ∈ t.summaries ↔ phase ∈ (recordedSteps calls : List (String × ℝ)).map Prod.fst) ∧
    (∀ (phase : String) (s : PhaseSummary ℝ), t.summaries[phase]? = some s →
      s.Describes (durations (recordedSteps calls) phase)) ∧
    (∀ (phase : String) (s : PhaseSummary ℝ), t.sums[phase]? = some s → s.count ≠ 0) ∧
    (t.summaries.toList.map fun p => p.2.count).sum = t.records.length ∧
    ∀ calls', (recordedSteps calls' : List (String × ℝ)).Perm (recordedSteps calls) →
      (timed calls' : Timing ℝ).summaries.Equiv t.summaries ∧
        (timed calls' : Timing ℝ).statistics = t.statistics := by
  intro t
  have hsteps : t.steps = recordedSteps calls := steps_timed calls
  refine ⟨?_, ?_, fun phase s hs => count_sums_ne_zero hs, sum_counts_summaries t, ?_⟩
  · intro phase
    rw [← hsteps, mem_summaries_iff]
  · intro phase s hs
    rw [getElem?_summaries, hsteps] at hs
    split at hs
    · next hmem =>
      cases hs
      apply PhaseSummary.describes_averaged
      · exact fun hnil => durations_eq_nil_iff.mp hnil hmem
      · intro d hd
        exact nonneg_of_mem_recordedSteps (mem_of_mem_durations hd)
    · cases hs
  · intro calls' hperm
    have hequiv : (timed calls' : Timing ℝ).summaries.Equiv t.summaries := by
      apply summaries_equiv
      rw [hsteps, steps_timed]
      exact hperm
    exact ⟨hequiv, statistics_eq_of_equiv hequiv⟩

/-- A whole number of milliseconds, below a second. -/
def shortDuration (ms : Fin 1000) : Duration where
  seconds := 0
  nanoseconds := ms * 1000000
  seconds_lt := by decide
  nanoseconds_lt := by omega

/-- Two iterations, the first of which has one phase only. -/
def twoIterations : List TimerCall :=
  [.startIteration, .record "update_x" (shortDuration 2) 0, .startIteration,
    .record "update_x" (shortDuration 4) 0, .record "update_z" (shortDuration 1) 0]

theorem summaries_timed_twoIterations :
    ∃ s, (timed twoIterations : Timing ℝ).summaries["update_x"]? = some s ∧
      s.count = 2 ∧ s.averageMs = 3 ∧ s.maxMs = 4 ∧
      (timed twoIterations.reverse : Timing ℝ).statistics = (timed twoIterations).statistics := by
  obtain ⟨hkeys, hdescribes, -, -, hperm⟩ := summaries_timed twoIterations
  have hmem : "update_x" ∈ (timed twoIterations : Timing ℝ).summaries :=
    (hkeys "update_x").mpr (by simp [twoIterations, recordedSteps])
  obtain ⟨s, hs⟩ := Option.isSome_iff_exists.mp (Std.HashMap.mem_iff_isSome_getElem?.mp hmem)
  have hdurations : (durations (recordedSteps twoIterations) "update_x" : List ℝ) = [2, 4] := by
    simp [twoIterations, recordedSteps, durations, Duration.milliseconds, shortDuration,
      RealArithmetic.ofNat]
    norm_num
  obtain ⟨hcount, haverage, hmaximum, -⟩ := hdurations ▸ hdescribes "update_x" s hs
  refine ⟨s, hs, hcount, ?_, ?_, (hperm _ ?_).2⟩
  · rw [hcount] at haverage
    norm_num at haverage
    linarith
  · exact hmaximum.unique ⟨by simp, by simp [upperBounds]; norm_num⟩
  · exact List.reverse_perm (recordedSteps twoIterations)

end Timing

end OperatorSplitting
