import Mathlib
import OperatorSplitting.Proofs.Admm.Capabilities
import OperatorSplitting.Proofs.Admm.Counts
import OperatorSplitting.Proofs.Admm.Finiteness
import OperatorSplitting.Proofs.Json.Reading
import OperatorSplitting.Proofs.Json.Records

/-!
# History files

A history is written as a list of records and read back row by row.  The counts of a row come back
since they fit into 64 bits, and so do the finite numbers, as far as the reader of numbers gives
back what the writer had.  A number that is not finite is written as `null`.  Where a row needs a
number, `null` is refused, and with it the whole file; where a number may be missing, `null` is read
as a missing one.  So the file keeps of a row what `IterationStats.stored?` says, and a history
comes back exactly if all numbers in it are finite (`Solver.reachable_history_file`).

An infinite objective is nothing unusual: the objective is evaluated at the images of the iterate,
which need not satisfy the constraints.  Its row comes back as that of a problem whose objective
cannot be evaluated (`Solver.exists_file_not_read_back`).
-/

namespace OperatorSplitting

open Json Recorded

/-! ### Numbers -/

/-- The number is read back from its text if it is finite. -/
def ReadsBack (x : Float) : Prop := x.isFinite = true → asFloat? (ofFloat x) = some x

namespace ReadsBack

variable {x : Float} {o : Option Float}

theorem asFloat? (h : ReadsBack x) :
    Json.asFloat? (ofFloat x) = if x.isFinite then some x else none := by
  cases hfinite : x.isFinite with
  | true => exact h hfinite
  | false =>
    rw [(ofFloat_eq_null_iff x).mpr hfinite]
    rfl

/-- Of a number that may be missing only a finite one is kept. -/
theorem asOptional? (h : ∀ x ∈ o, ReadsBack x) :
    Json.asOptional? Json.asFloat? (.ofOption ofFloat o) = some (o.filter Float.isFinite) := by
  cases o with
  | none => rfl
  | some x =>
    have hx := (h x rfl).asFloat?
    rw [ofOption, Option.filter_some]
    cases hfinite : x.isFinite with
    | true =>
      rw [hfinite, if_pos rfl] at hx
      have hnull : ofFloat x ≠ .null := fun hnull => by
        rw [(ofFloat_eq_null_iff x).mp hnull] at hfinite
        cases hfinite
      rw [Json.asOptional?]
      · rw [hx]
        rfl
      · exact hnull
    | false =>
      rw [(ofFloat_eq_null_iff x).mpr hfinite]
      rfl

theorem writable (h : ReadsBack x) : (ofFloat x).Writable := by
  cases hfinite : x.isFinite with
  | true =>
    have hread := h hfinite
    unfold ofFloat at hread ⊢
    split
    · next text htext =>
      rw [htext] at hread
      obtain ⟨l, hl, -⟩ := Option.bind_eq_some_iff.mp hread
      exact .number (Option.isSome_iff_exists.mpr ⟨l, hl⟩)
    · exact .null
  | false =>
    rw [(ofFloat_eq_null_iff x).mpr hfinite]
    exact .null

end ReadsBack

theorem Json.writable_ofNat (n : ℕ) : (Json.ofNat n).Writable := by
  obtain ⟨ds, hds⟩ := Decimal.exists_isDigitsOf n
  refine .number ?_
  rw [String.toList_ofList, ofChars?_digits hds]
  rfl

theorem Json.Writable.ofOption {α : Type} {f : α → Json} {o : Option α}
    (h : ∀ a ∈ o, (f a).Writable) : (Json.ofOption f o).Writable := by
  cases o with
  | none => exact .null
  | some a => exact h a rfl

theorem Json.Writable.ofFields {fields : List (String × Json)} (h : ∀ p ∈ fields, p.2.Writable) :
    (Json.ofFields fields).Writable := by
  refine .object (fun p hp => ?_) fun p hp => ?_ <;> obtain ⟨q, hq, rfl⟩ := List.mem_map.mp hp
  · rfl
  · exact h q hq

/-! ### Rows -/

namespace IterationStats

variable {s : IterationStats Float}

/-- The numbers that no row lacks. -/
def needed (s : IterationStats Float) : List Float := [s.time, s.primalResidual, s.dualResidual]

/-- All numbers of a row. -/
def numbers (s : IterationStats Float) : List Float :=
  s.needed ++ s.objective.toList ++ s.innerResidual.toList

/-- What a file keeps of a row. -/
def stored? (s : IterationStats Float) : Option (IterationStats Float) :=
  if ∀ x ∈ s.needed, x.isFinite = true then
    some { s with
      objective := s.objective.filter Float.isFinite
      innerResidual := s.innerResidual.filter Float.isFinite }
  else none

theorem mem_numbers_of_needed {x : Float} (h : x ∈ s.needed) : x ∈ s.numbers :=
  List.mem_append_left _ (List.mem_append_left _ h)

theorem mem_numbers_of_objective {x : Float} (h : x ∈ s.objective) : x ∈ s.numbers :=
  List.mem_append_left _ (List.mem_append_right _ (Option.mem_toList.mpr h))

theorem mem_numbers_of_innerResidual {x : Float} (h : x ∈ s.innerResidual) : x ∈ s.numbers :=
  List.mem_append_right _ (Option.mem_toList.mpr h)

/-- The record of a row, field by field. -/
def fields (s : IterationStats Float) : List (String × Json) :=
  [("iteration", .ofNat s.iteration), ("time", ofFloat s.time),
    ("objective", .ofOption ofFloat s.objective), ("primal_residual", ofFloat s.primalResidual),
    ("dual_residual", ofFloat s.dualResidual),
    ("inner_iterations", .ofOption .ofNat s.innerIterations),
    ("inner_residual", .ofOption ofFloat s.innerResidual),
    ("inner_converged", .ofOption .bool s.innerConverged)]

theorem toJson_eq (s : IterationStats Float) : Recorded.toJson s = .ofFields s.fields := rfl

/-- A row is read from its record as far as the record keeps it. -/
theorem ofJson?_toJson (hs : s.CountsFit) (hback : ∀ x ∈ s.numbers, ReadsBack x) :
    Recorded.ofJson? (Recorded.toJson s) = s.stored? := by
  have hfields : fields? true ["iteration", "time", "objective", "primal_residual", "dual_residual",
      "inner_iterations", "inner_residual", "inner_converged"] (.ofFields s.fields) =
        some (s.fields.map fun p => some p.2) := fields?_ofFields true (by simp [fields])
  have hneeded (x : Float) (hx : x ∈ s.needed) := (hback x (mem_numbers_of_needed hx)).asFloat?
  have htime := hneeded s.time (by simp [needed])
  have hprimal := hneeded s.primalResidual (by simp [needed])
  have hdual := hneeded s.dualResidual (by simp [needed])
  have hobjective := ReadsBack.asOptional? fun x hx => hback x (mem_numbers_of_objective hx)
  have hresidual := ReadsBack.asOptional? fun x hx => hback x (mem_numbers_of_innerResidual hx)
  have hiteration := (asNat?_ofNat s.iteration).trans (if_pos hs.iteration)
  have hinner : Json.asOptional? asNat? (.ofOption .ofNat s.innerIterations) =
      some s.innerIterations := by
    have hbound := hs.inner
    cases hn : s.innerIterations with
    | none => rfl
    | some n => exact congrArg (Option.map some) ((asNat?_ofNat n).trans (if_pos (hbound n hn)))
  have hconverged : Json.asOptional? asBool? (.ofOption .bool s.innerConverged) =
      some s.innerConverged := by
    cases s.innerConverged <;> rfl
  rw [toJson_eq]
  simp only [Recorded.ofJson?, hfields, Option.bind_eq_bind, Option.bind_some]
  simp only [fields, List.map_cons, List.map_nil, Json.needed, Json.optional, Option.bind_some,
    hiteration, htime, hobjective, hprimal, hdual, hinner, hresidual, hconverged, stored?, needed,
    List.forall_mem_cons]
  cases s.time.isFinite <;> cases s.primalResidual.isFinite <;> cases s.dualResidual.isFinite <;>
    simp

theorem writable_toJson (hback : ∀ x ∈ s.numbers, ReadsBack x) : (Recorded.toJson s).Writable := by
  have hneeded (x : Float) (hx : x ∈ s.needed) : (ofFloat x).Writable :=
    (hback x (mem_numbers_of_needed hx)).writable
  rw [toJson_eq]
  refine .ofFields ?_
  simp only [fields, List.forall_mem_cons]
  exact ⟨writable_ofNat _, hneeded _ (by simp [needed]),
    .ofOption fun x hx => (hback x (mem_numbers_of_objective hx)).writable,
    hneeded _ (by simp [needed]), hneeded _ (by simp [needed]),
    .ofOption fun n _ => writable_ofNat n,
    .ofOption fun x hx => (hback x (mem_numbers_of_innerResidual hx)).writable,
    .ofOption fun b _ => .bool b, List.forall_mem_nil _⟩

/-- A file keeps a row exactly if the numbers that no row lacks are finite. -/
theorem exists_stored?_iff : (∃ row, s.stored? = some row) ↔ ∀ x ∈ s.needed, x.isFinite = true := by
  unfold stored?
  split
  · next hfinite => exact iff_of_true ⟨_, rfl⟩ hfinite
  · next hfinite => exact iff_of_false (fun ⟨_, h⟩ => nomatch h) hfinite

/-- It keeps the row as it is exactly if all numbers of the row are finite. -/
theorem stored?_eq_self_iff : s.stored? = some s ↔ ∀ x ∈ s.numbers, x.isFinite = true := by
  have hkept (o : Option Float) :
      o.filter Float.isFinite = o ↔ ∀ x ∈ o.toList, x.isFinite = true := by
    cases o <;> simp [Option.filter_some]
  unfold numbers
  rw [List.forall_mem_append, List.forall_mem_append, ← hkept, ← hkept]
  unfold stored?
  split
  · next hneeded =>
    rw [Option.some_inj, and_iff_right hneeded]
    constructor
    · intro hsame
      exact ⟨congrArg objective hsame, congrArg innerResidual hsame⟩
    · rintro ⟨hobjective, hresidual⟩
      rw [hobjective, hresidual]
  · next hneeded => exact iff_of_false (fun h => nomatch h) fun h => hneeded h.1.1

end IterationStats

/-! ### Histories -/

namespace History

variable {h : History Float}

theorem fileText_writable (hback : ∀ row ∈ h.records, ∀ x ∈ row.numbers, ReadsBack x) :
    h.toJson.Writable := by
  refine .array fun v hv => ?_
  obtain ⟨row, hrow, rfl⟩ := List.mem_map.mp hv
  exact IterationStats.writable_toJson (hback row hrow)

/-- The rows of a file, one by one. -/
theorem ofFileText?_fileText (hcounts : ∀ row ∈ h.records, row.CountsFit)
    (hback : ∀ row ∈ h.records, ∀ x ∈ row.numbers, ReadsBack x) :
    ofFileText? h.fileText = h.records.mapM IterationStats.stored? := by
  rw [ofFileText?, fileText, parse?_pretty (fileText_writable hback), Option.bind_some, toJson,
    asList?_ofList]
  exact mapM_congr fun row hrow => IterationStats.ofJson?_toJson (hcounts row hrow) (hback row hrow)

/-- A file is read exactly if every row has the numbers that no row lacks. -/
theorem exists_ofFileText?_iff (hcounts : ∀ row ∈ h.records, row.CountsFit)
    (hback : ∀ row ∈ h.records, ∀ x ∈ row.numbers, ReadsBack x) :
    (∃ rows, ofFileText? h.fileText = some rows) ↔
      ∀ row ∈ h.records, ∀ x ∈ row.needed, x.isFinite = true := by
  rw [ofFileText?_fileText hcounts hback, exists_mapM_eq_some_iff]
  exact forall₂_congr fun row _ => IterationStats.exists_stored?_iff

/-- It gives the rows of the history exactly if all numbers in them are finite. -/
theorem ofFileText?_eq_records_iff (hcounts : ∀ row ∈ h.records, row.CountsFit)
    (hback : ∀ row ∈ h.records, ∀ x ∈ row.numbers, ReadsBack x) :
    ofFileText? h.fileText = some h.records ↔
      ∀ row ∈ h.records, ∀ x ∈ row.numbers, x.isFinite = true := by
  rw [ofFileText?_fileText hcounts hback, mapM_eq_some_iff, List.forall₂_same]
  exact forall₂_congr fun row _ => IterationStats.stored?_eq_self_iff

end History

/-! ### Runs -/

section Runs

variable {K R : Type} [RealArithmetic R] [Widening R Float] [Scalar K R Float]

/-- What comes back of a history of a run, whatever calls were made, if its finite numbers are read
back from their texts.

* The file is read row by row: a row that has a number that is not finite where no number may be
  missing is refused, and of any other row such numbers are missing.
* The file is read exactly if all times and residuals are finite.
* It gives the rows of the history exactly if all recorded numbers are finite. -/
theorem Solver.reachable_history_file {p : Problem K R Float} {config : Config Float}
    {strategy : Strategy K R Float} {s : Solver K R Float}
    (hconfig : config.maxIter < Nat.pow 2 64) (hstrategy : strategy.CountsFit)
    (h : s.Reachable p config strategy)
    (hback : ∀ row ∈ s.history.records, ∀ x ∈ row.numbers, ReadsBack x) :
    History.ofFileText? s.history.fileText = s.history.records.mapM IterationStats.stored? ∧
    ((∃ rows, History.ofFileText? s.history.fileText = some rows) ↔
      ∀ row ∈ s.history.records, ∀ x ∈ row.needed, x.isFinite = true) ∧
    (History.ofFileText? s.history.fileText = some s.history.records ↔
      ∀ row ∈ s.history.records, ∀ x ∈ row.numbers, x.isFinite = true) :=
  have hcounts := h.countsFit hconfig hstrategy
  ⟨History.ofFileText?_fileText hcounts hback, History.exists_ofFileText?_iff hcounts hback,
    History.ofFileText?_eq_records_iff hcounts hback⟩

end Runs

/-! ### An iterate that does not satisfy the constraints -/

deriving instance DecidableEq for IterationStats

instance : DecidablePred ReadsBack := fun x =>
  inferInstanceAs (Decidable (x.isFinite = true → asFloat? (ofFloat x) = some x))

namespace Solver

/-- Any point with elements that are not negative, from a given start. -/
def quadrantProblem (start : Float) : Problem Float Float Float where
  f := .zero
  penalties := [.nonNegative]
  operators := [.leaf (.identity (.vector 1))]
  weights := [1.0]
  start := .ofArray #[start]

/-- The solver that the problem makes. -/
def quadrantSolver (start : Float) : Solver Float Float Float where
  f := .zero
  terms := [⟨.nonNegative, .leaf (.identity (.vector 1)), 1.0, .ofArray #[start],
    .zeros (.vector 1)⟩]
  config := .default
  strategy := .ofSteps 20
  x := .ofArray #[start]
  iteration := 0
  state := .initialized
  history := .empty
  timing := Timing.empty.mark "setup"

/-- What has happened when the solver is made. -/
def quadrantTrace (start : Float) : Trace Float Float :=
  ((create (quadrantProblem start) .default (.ofSteps 20)).run .empty).2

theorem run_create_quadrant (start : Float) :
    (create (quadrantProblem start) .default (.ofSteps 20)).run .empty =
      (.ok (quadrantSolver start), quadrantTrace start) := by
  have hfault : (quadrantProblem start).fault? = none := by
    have hstart : (quadrantProblem start).fault? = (quadrantProblem 0).fault? := rfl
    rw [hstart]
    decide +kernel
  have hconfig : (Config.default : Config Float).fault? = none := by decide +kernel
  unfold quadrantTrace create
  rw [hfault, hconfig]
  rfl

/-- The rows after a step that succeeds. -/
def rowsAfter : Except Error Unit × Solver Float Float Float → Option (List (IterationStats Float))
  | (.ok (), s) => some s.history.records
  | (.error _, _) => none

theorem exists_of_rowsAfter {s : Solver Float Float Float} {t : Trace Float Float}
    {rows : List (IterationStats Float)} (h : rowsAfter (s.step t).1 = some rows) :
    ∃ s' t', s.step t = ((.ok (), s'), t') ∧ s'.history.records = rows := by
  rcases hrun : s.step t with ⟨⟨result, s'⟩, t'⟩
  rw [hrun] at h
  cases result with
  | error e => cases h
  | ok u => exact ⟨s', t', rfl, Option.some.inj h⟩

/-- From a point without a negative element the run stays there. -/
def restingRow : IterationStats Float := ⟨1, 0, some 0, 0, 0, none, none, none⟩

theorem rowsAfter_resting :
    rowsAfter ((quadrantSolver 1).step (quadrantTrace 1)).1 = some [restingRow] := by
  decide +kernel

theorem history_file_resting : ∃ s' t',
    (quadrantSolver 1).step (quadrantTrace 1) = ((.ok (), s'), t') ∧
    s'.history.records = [restingRow] ∧
    History.ofFileText? s'.history.fileText = some [restingRow] := by
  obtain ⟨s', t', hstep, hrows⟩ := exists_of_rowsAfter rowsAfter_resting
  have hreachable : s'.Reachable (quadrantProblem 1) .default (.ofSteps 20) :=
    .step (.create (run_create_quadrant 1)) hstep
  have hback : ∀ row ∈ s'.history.records, ∀ x ∈ row.numbers, ReadsBack x := by
    rw [hrows]
    decide +kernel
  have hstrategy : (Strategy.ofSteps 20 : Strategy Float Float Float).CountsFit := trivial
  obtain ⟨-, -, hsame⟩ := reachable_history_file (by decide) hstrategy hreachable hback
  have hfile := hsame.mpr (by rw [hrows]; decide +kernel)
  rw [hrows] at hfile
  exact ⟨s', t', hstep, hrows, hfile⟩

/-- From a point with a negative element the first iterate does not satisfy the constraint. -/
def infeasibleRow : IterationStats Float :=
  ⟨1, 0, some RealArithmetic.infinity, 1, 1, none, none, none⟩

theorem rowsAfter_infeasible :
    rowsAfter ((quadrantSolver (-1)).step (quadrantTrace (-1))).1 = some [infeasibleRow] := by
  decide +kernel

/-- Where the norm of a group overflows, the split variable is not a number, and so are the
residuals. -/
def overflowingRow : IterationStats Float :=
  ⟨1, 0, some RealArithmetic.infinity, 0 / 0, 0 / 0, none, none, none⟩

theorem rowsAfter_overflowing :
    rowsAfter (overflowingSolver.step overflowingTrace).1 = some [overflowingRow] := by
  decide +kernel

theorem isLibrary_quadrantProblem (start : Float) : (quadrantProblem start).IsLibrary where
  f := trivial
  penalties := List.forall_mem_singleton.mpr trivial
  operators := List.forall_mem_singleton.mpr trivial

theorem isLibrary_overflowingProblem : overflowingProblem.IsLibrary where
  f := trivial
  penalties := List.forall_mem_singleton.mpr trivial
  operators := List.forall_mem_singleton.mpr trivial

/-- The file of a run that has been made and stepped once, if its rows are the given ones. -/
theorem ofFileText?_after_step {p : Problem Float Float Float} {s s' : Solver Float Float Float}
    {t t' : Trace Float Float} {rows : List (IterationStats Float)}
    (hcreate : (create p .default (.ofSteps 20)).run .empty = (.ok s, t))
    (hstep : s.step t = ((.ok (), s'), t')) (hrows : s'.history.records = rows)
    (hback : ∀ row ∈ rows, ∀ x ∈ row.numbers, ReadsBack x) :
    History.ofFileText? s'.history.fileText = rows.mapM IterationStats.stored? := by
  have hreachable : s'.Reachable p .default (.ofSteps 20) := .step (.create hcreate) hstep
  have hstrategy : (Strategy.ofSteps 20 : Strategy Float Float Float).CountsFit := trivial
  subst hrows
  exact History.ofFileText?_fileText (hreachable.countsFit (by decide) hstrategy) hback

/-- Histories of library problems that do not come back: one loses its objective, which is infinite,
and one is not read at all, since its residuals are not numbers. -/
theorem exists_file_not_read_back :
    (∃ (p : Problem Float Float Float) (s : Solver Float Float Float) (t : Trace Float Float),
      p.IsLibrary ∧ (create p .default (.ofSteps 20)).run .empty = (.ok s, t) ∧
        ∃ s' t', s.step t = ((.ok (), s'), t') ∧
          s'.history.records.map (·.objective) = [some RealArithmetic.infinity] ∧
          ∃ rows, History.ofFileText? s'.history.fileText = some rows ∧
            rows.map (·.objective) = [none]) ∧
    ∃ (p : Problem Float Float Float) (s : Solver Float Float Float) (t : Trace Float Float),
      p.IsLibrary ∧ (create p .default (.ofSteps 20)).run .empty = (.ok s, t) ∧
        ∃ s' t', s.step t = ((.ok (), s'), t') ∧
          History.ofFileText? s'.history.fileText = none := by
  constructor
  · obtain ⟨s', t', hstep, hrows⟩ := exists_of_rowsAfter rowsAfter_infeasible
    have hfile := ofFileText?_after_step (run_create_quadrant (-1)) hstep hrows (by decide +kernel)
    exact ⟨quadrantProblem (-1), _, _, isLibrary_quadrantProblem _, run_create_quadrant _, s', t',
      hstep, by rw [hrows]; rfl, [{ infeasibleRow with objective := none }],
      hfile.trans (by decide +kernel), rfl⟩
  · obtain ⟨s', t', hstep, hrows⟩ := exists_of_rowsAfter rowsAfter_overflowing
    have hfile := ofFileText?_after_step run_create_overflowing hstep hrows (by decide +kernel)
    exact ⟨overflowingProblem, _, _, isLibrary_overflowingProblem, run_create_overflowing, s', t',
      hstep, hfile.trans (by decide +kernel)⟩

end Solver

end OperatorSplitting
