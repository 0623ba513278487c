import Mathlib
import OperatorSplitting.Functional.Denoiser
import OperatorSplitting.Proofs.Evaluation
import OperatorSplitting.Proofs.Linear.AdjointMaps

/-!
# What reaches a denoising backend

The backend of a denoiser may be a routine that does not survive a wrong image.  It is called for the
signals that the denoiser accepts (`Denoiser.Accepts`), once for each, and for no others; and what it is
given is the noise level and the elements of the signal in a box of two or three axes.  Its result is
taken over if it has the extents of that box, and gets the extents of the signal back.

To speak of calls, the call of the backend is left open (`denoiseIn`): it is made directly when a signal
is denoised, and written down when calls are counted (`calls`).
-/

namespace OperatorSplitting

open RealArithmetic Widening

/-! ### Extents that are one -/

theorem volume_filter_ne_one (dims : List ℕ) : volume (dims.filter (· ≠ 1)) = volume dims := by
  induction dims with
  | nil => rfl
  | cons n dims ih =>
    by_cases hn : n = 1
    · simp [volume, hn, ← ih]
    · simp [volume, hn, ← ih]

theorem spread_filter_ne_one (dims : List ℕ) : spread (dims.filter (· ≠ 1)) = spread dims := by
  induction dims with
  | nil => rfl
  | cons n dims ih =>
    by_cases hn : n = 1
    · simp [spread, hn, ← ih]
    · simp [spread, hn, ← ih]

namespace Signal

variable {α : Type}

theorem ofDims_eq_ok {dims : List ℕ} {values : Array α} (hsize : values.size = volume dims)
    (hroom : Addressable dims) : ofDims dims values = .ok (.flat ⟨dims, values, hsize⟩) := by
  unfold ofDims Tensor.ofEntries?
  rw [dif_pos hsize, if_pos hroom]

/-- An array is determined by its extents and its elements. -/
theorem eq_of_flat {x y : Signal α} {dims : List ℕ} (hx : x.shape = .flat dims)
    (hy : y.shape = .flat dims) (hentries : y.entries = x.entries) : y = x := by
  match x, y, hx, hy with
  | .flat ⟨_, _, _⟩, .flat ⟨_, _, _⟩, rfl, rfl =>
    cases hentries
    rfl

end Signal

namespace Denoiser

theorem volume_imageDims (dims : List ℕ) : volume (imageDims dims) = volume dims := by
  unfold imageDims
  split
  · exact volume_filter_ne_one dims
  · rfl

theorem addressable_imageDims {dims : List ℕ} (h : Addressable dims) :
    Addressable (imageDims dims) := by
  unfold imageDims
  split
  · unfold Addressable
    rw [spread_filter_ne_one]
    exact h
  · exact h

/-! ### Images -/

variable {K R W : Type}

/-- What a denoiser asks of the extents of an image. -/
structure TakesDims (d : Denoiser W) (dims : List ℕ) : Prop where
  rank : d.blockAxes ≤ dims.length
  leading : ∀ n ∈ dims.take d.blockAxes, blockSize ≤ n
  beyond : ∀ n ∈ dims.drop 3, n = 1
  colours : d.isColour = true → dims[2]? = some 3

variable {d : Denoiser W} {dims : List ℕ}

theorem two_le_blockAxes (d : Denoiser W) : 2 ≤ d.blockAxes := by
  cases d <;> simp [blockAxes]

/-- An image has at least two axes, and the first two are not dropped. -/
theorem exists_leading (hrank : d.blockAxes ≤ dims.length)
    (hleading : ∀ n ∈ dims.take d.blockAxes, blockSize ≤ n) :
    ∃ a b rest, dims = a :: b :: rest ∧ a ≠ 1 ∧ b ≠ 1 := by
  have htwo := d.two_le_blockAxes
  match dims, hrank, hleading with
  | a :: b :: rest, _, hleading =>
    have hmem (n : ℕ) (hn : n ∈ [a, b]) : n ∈ (a :: b :: rest).take d.blockAxes :=
      (List.take_prefix_take_left htwo).subset hn
    have ha : 8 ≤ a := hleading a (hmem a List.mem_cons_self)
    have hb : 8 ≤ b := hleading b (hmem b (List.mem_cons_of_mem _ List.mem_cons_self))
    exact ⟨a, b, rest, rfl, by omega, by omega⟩
  | [_], hrank, _ =>
    rw [List.length_singleton] at hrank
    omega
  | [], hrank, _ =>
    rw [List.length_nil] at hrank
    omega

/-- Beyond three axes, only the third one may be missing from the image. -/
theorem imageDims_long {a b c n : ℕ} {rest : List ℕ} (ha : a ≠ 1) (hb : b ≠ 1)
    (hrest : ∀ m ∈ n :: rest, m = 1) :
    imageDims (a :: b :: c :: n :: rest) = a :: b :: [c].filter (· ≠ 1) := by
  have hlength : 3 < (a :: b :: c :: n :: rest).length := by
    simp only [List.length_cons]
    omega
  have hfilter : (n :: rest).filter (· ≠ 1) = [] := by
    rw [List.filter_eq_nil_iff]
    intro m hm
    simp [hrest m hm]
  have hsplit : c :: n :: rest = [c] ++ n :: rest := rfl
  rw [imageDims, if_pos hlength, List.filter_cons_of_pos (by simpa using ha),
    List.filter_cons_of_pos (by simpa using hb), hsplit, List.filter_append, hfilter,
    List.append_nil]

/-- The image has two or three axes.  The third one has three channels if the signal has them. -/
theorem imageDims_spec (hrank : d.blockAxes ≤ dims.length)
    (hleading : ∀ n ∈ dims.take d.blockAxes, blockSize ≤ n) (hbeyond : ∀ n ∈ dims.drop 3, n = 1) :
    ((imageDims dims).length = 2 ∨ (imageDims dims).length = 3) ∧
      ((imageDims dims).length = 3 ∧ (imageDims dims).getD 2 0 = 3 ↔ dims[2]? = some 3) := by
  obtain ⟨a, b, rest, rfl, ha, hb⟩ := exists_leading hrank hleading
  match rest, hbeyond with
  | [], _ => simp [imageDims]
  | [c], _ => simp [imageDims]
  | c :: n :: rest, hbeyond =>
    rw [imageDims_long ha hb hbeyond]
    by_cases hc : c = 1
    · simp [hc]
    · simp [hc]

/-- There is no fault in the extents that a denoiser takes, and in no others. -/
theorem dimsFault?_eq_none_iff : d.dimsFault? dims = none ↔ d.TakesDims dims := by
  have hleading : (dims.take d.blockAxes).any (· < blockSize) = true ↔
      ¬∀ n ∈ dims.take d.blockAxes, blockSize ≤ n := by
    simp
  -- Without a fourth axis there is nothing beyond the third.
  have hbeyond : (3 < dims.length && (dims.drop 3).any (· ≠ 1)) = true ↔
      ¬∀ n ∈ dims.drop 3, n = 1 := by
    by_cases hlong : 3 < dims.length
    · simp [hlong]
    · simp [hlong, List.drop_eq_nil_of_le (not_lt.mp hlong)]
  have hcolours : (d.isColour && ((imageDims dims).length ≠ 3 || (imageDims dims).getD 2 0 ≠ 3)) =
      true ↔ ¬(d.isColour = true → (imageDims dims).length = 3 ∧ (imageDims dims).getD 2 0 = 3) := by
    rw [Classical.not_imp, not_and_or]
    simp
  have hguard (c : Prop) [Decidable c] (e : Error) (next : Option Error) :
      (if c then some e else next) = none ↔ ¬c ∧ next = none := by
    split <;> simp [*]
  unfold dimsFault?
  dsimp only
  rw [hguard, hguard, hguard, hguard, hleading, hbeyond, hcolours, not_lt, not_not, not_not, not_not]
  constructor
  · rintro ⟨hrank, hlead, hone, hcol, -⟩
    exact ⟨hrank, hlead, hone, fun h => (imageDims_spec hrank hlead hone).2.mp (hcol h)⟩
  · rintro ⟨hrank, hlead, hone, hcol⟩
    exact ⟨hrank, hlead, hone, fun h => (imageDims_spec hrank hlead hone).2.mpr (hcol h), rfl⟩

/-! ### Signals -/

variable [RealArithmetic R] [RealArithmetic W] [Widening R W] [Scalar K R W]
  {x : Signal K} {sigma : W}

/-- What a denoiser asks of a signal, of a noise level and of itself. -/
structure Accepts (d : Denoiser W) (x : Signal K) (sigma : W) : Prop where
  isReal : (Scalar.dtype K).isComplex = false
  flat : ∃ dims, x.shape = .flat dims ∧ d.TakesDims dims
  nonneg : le 0 sigma = true
  finite : RealArithmetic.isFinite sigma = true
  attached : ∃ backend, d.backend? = some backend

theorem refuse_eq_ok_iff {fault? : Option Error} {u : Unit} :
    refuse fault? = .ok u ↔ fault? = none := by
  cases fault? <;> simp [refuse]

omit [RealArithmetic R] in
/-- The checks let nothing pass that is not accepted. -/
theorem accepts_of_prepare {r : DenoiserBackend W × Tensor W × List ℕ}
    (h : d.prepare x sigma = .ok r) : d.Accepts x sigma := by
  unfold prepare at h
  by_cases hcomplex : (Scalar.dtype K).isComplex = true
  · rw [if_pos hcomplex] at h
    cases h
  · rw [if_neg hcomplex] at h
    obtain ⟨t, hflat, h⟩ := Except.bind_eq_ok_iff.mp h
    obtain ⟨u, hdims, h⟩ := Except.bind_eq_ok_iff.mp h
    rw [refuse_eq_ok_iff] at hdims
    by_cases hsigma : (!isNonNegative sigma) = true
    · rw [if_pos hsigma] at h
      cases h
    · rw [if_neg hsigma] at h
      rw [Bool.not_eq_true, Bool.not_eq_false', isNonNegative, Bool.and_eq_true] at hsigma
      cases hbackend : d.backend? with
      | none =>
        rw [hbackend] at h
        cases h
      | some backend =>
        cases x with
        | blocked ts => cases hflat
        | flat t' =>
          cases hflat
          exact {
            isReal := Bool.not_eq_true _ ▸ hcomplex
            flat := ⟨t.dims, rfl, dimsFault?_eq_none_iff.mp hdims⟩
            nonneg := hsigma.1
            finite := hsigma.2
            attached := ⟨backend, hbackend⟩ }

/-- The image that is handed over for a signal: its elements in a box of two or three axes. -/
structure IsImage (x : Signal K) (image : Tensor W) : Prop where
  rank : image.dims.length = 2 ∨ image.dims.length = 3
  entries : image.entries = x.entries.map fun v => widen (Scalar.re v)

omit [RealArithmetic R] in
/-- The checks let everything pass that is accepted. -/
theorem prepare_of_accepts (h : d.Accepts x sigma)
    (hroom : ∀ dims, x.shape = .flat dims → Addressable dims) :
    ∃ backend image dims, d.backend? = some backend ∧ IsImage x image ∧
      x.shape = .flat dims ∧ volume image.dims = volume dims ∧
      d.prepare x sigma = .ok (backend, image, dims) := by
  obtain ⟨hreal, ⟨dims, hshape, hdims⟩, hnonneg, hfinite, backend, hbackend⟩ := h
  cases x with
  | blocked ts => cases hshape
  | flat t =>
    cases hshape
    let values : Array W := t.entries.map fun v => widen (Scalar.re v)
    have hsize : values.size = volume (imageDims t.dims) := by
      rw [Array.size_map, t.size_entries, volume_imageDims]
    have himage : Tensor.ofEntries? (imageDims t.dims) (t.entries.map fun v => widen (Scalar.re v)) =
        some ⟨imageDims t.dims, values, hsize⟩ := by
      unfold Tensor.ofEntries?
      rw [dif_pos hsize, if_pos (addressable_imageDims (hroom _ rfl))]
    have hsigma : (!isNonNegative sigma) = false := by
      rw [isNonNegative, hnonneg, hfinite]
      rfl
    have hrank := (imageDims_spec hdims.rank hdims.leading hdims.beyond).1
    refine ⟨backend, ⟨imageDims t.dims, values, hsize⟩, t.dims, hbackend, ⟨hrank, rfl⟩, rfl,
      volume_imageDims _, ?_⟩
    unfold prepare
    rw [hreal, hbackend, hsigma]
    show (refuse (d.dimsFault? t.dims) >>= _) = _
    rw [dimsFault?_eq_none_iff.mpr hdims]
    dsimp only
    rw [himage]
    rfl

/-! ### Calls -/

section Interpretation

variable {m : Type → Type} [Monad m] [MonadExceptOf Error m] [MonadLiftT (Except Error) m]

/-- Denoising, with the note in the trace and the call of the backend left open. -/
def denoiseIn (note : Event W → m Unit) (call : DenoiserBackend W → Tensor W → W → m (Tensor W))
    (d : Denoiser W) (x : Signal K) (sigma : W) : m (Signal K) := do
  let (backend, image, dims) ← (d.prepare x sigma : Except Error _)
  note (.delegated d.name image.dims sigma)
  let result ← call backend image sigma
  if result.dims ≠ image.dims then
    throw (.externalCall (.resultShape d.name result.dims image.dims))
  else
    (Signal.ofDims dims (result.entries.map Scalar.ofWide) : Except Error _)

end Interpretation

omit [RealArithmetic R] in
/-- Denoising makes the call directly. -/
theorem denoise_eq_denoiseIn (d : Denoiser W) (x : Signal K) (sigma : W) :
    d.denoise x sigma =
      denoiseIn report (fun backend image sigma => backend image sigma) d x sigma := rfl

/-- Write a call down and make it. -/
def recordedCall (backend : DenoiserBackend W) (image : Tensor W) (sigma : W) :
    ExceptT Error (StateM (List (Tensor W × W))) (Tensor W) := do
  modify (· ++ [(image, sigma)])
  backend image sigma

/-- All calls of a backend that denoising a signal makes, in order. -/
def calls (d : Denoiser W) (x : Signal K) (sigma : W) : List (Tensor W × W) :=
  ((denoiseIn (fun _ => pure ()) recordedCall d x sigma).run []).2

/-- What becomes of the result of a backend. -/
def takeOver (d : Denoiser W) (image : Tensor W) (dims : List ℕ) (result : Tensor W) :
    Except Error (Signal K) :=
  if result.dims ≠ image.dims then
    throw (.externalCall (.resultShape d.name result.dims image.dims))
  else Signal.ofDims dims (result.entries.map Scalar.ofWide)

section Runs

variable {S : Type} {note : Event W → ExceptT Error (StateM S) Unit}
  {call : DenoiserBackend W → Tensor W → W → ExceptT Error (StateM S) (Tensor W)}

omit [RealArithmetic R] in
/-- Nothing happens if a check fails, however calls are made. -/
theorem run_denoiseIn_of_error {e : Error} (h : d.prepare x sigma = .error e) (s : S) :
    (denoiseIn note call d x sigma).run s = (.error e, s) := by
  unfold denoiseIn
  rw [h]
  rfl

omit [RealArithmetic R] in
/-- If no check fails there is a note, then the call, and its result is taken over. -/
theorem run_denoiseIn_of_ok {backend : DenoiserBackend W} {image : Tensor W} {dims : List ℕ}
    {s s₁ s₂ : S} {r : Except Error (Tensor W)}
    (h : d.prepare x sigma = .ok (backend, image, dims))
    (hnote : (note (.delegated d.name image.dims sigma)).run s = (.ok (), s₁))
    (hcall : (call backend image sigma).run s₁ = (r, s₂)) :
    (denoiseIn note call d x sigma).run s = (r >>= takeOver d image dims, s₂) := by
  unfold denoiseIn
  rw [h]
  show ((note _ >>= fun _ => call backend image sigma >>= _).run s) = _
  rw [Eval.run_bind, hnote]
  dsimp only
  rw [Eval.run_bind, hcall]
  cases r with
  | error e => rfl
  | ok result =>
    show ((if result.dims ≠ image.dims then _ else _ : ExceptT Error (StateM S) _).run s₂) =
      (if result.dims ≠ image.dims then _ else _, s₂)
    split <;> rfl

end Runs

omit [RealArithmetic W] in
theorem run_recordedCall (backend : DenoiserBackend W) (image : Tensor W) (sigma : W)
    (log : List (Tensor W × W)) :
    (recordedCall backend image sigma).run log = (backend image sigma, log ++ [(image, sigma)]) := by
  unfold recordedCall
  rw [Eval.run_bind]
  rfl

omit [RealArithmetic R] in
/-- If no check fails the backend is called, once. -/
theorem calls_of_ok {backend : DenoiserBackend W} {image : Tensor W} {dims : List ℕ}
    (h : d.prepare x sigma = .ok (backend, image, dims)) : d.calls x sigma = [(image, sigma)] :=
  congrArg Prod.snd (run_denoiseIn_of_ok h rfl (run_recordedCall backend image sigma []))

omit [RealArithmetic R] in
theorem run_denoise_of_ok {backend : DenoiserBackend W} {image : Tensor W} {dims : List ℕ}
    (h : d.prepare x sigma = .ok (backend, image, dims)) (t : Trace K W) :
    ((d.denoise x sigma).run t).1 = backend image sigma >>= takeOver d image dims := by
  rw [denoise_eq_denoiseIn, run_denoiseIn_of_ok (r := backend image sigma) h rfl rfl]

omit [RealArithmetic R] in
/-- Writing calls down does not change the result. -/
theorem run_denoiseIn_recordedCall (d : Denoiser W) (x : Signal K) (sigma : W) (t : Trace K W) :
    (denoiseIn (fun _ => pure ()) recordedCall d x sigma).run [] =
      (((d.denoise x sigma).run t).1, d.calls x sigma) := by
  refine Prod.ext ?_ rfl
  cases hprepare : d.prepare x sigma with
  | error e =>
    rw [denoise_eq_denoiseIn, run_denoiseIn_of_error hprepare, run_denoiseIn_of_error hprepare]
  | ok r =>
    obtain ⟨backend, image, dims⟩ := r
    rw [run_denoise_of_ok hprepare,
      run_denoiseIn_of_ok hprepare rfl (run_recordedCall backend image sigma [])]

omit [RealArithmetic R] in
/-- Denoising a signal that memory can hold.

* Denoising makes the call directly; when calls are written down the result is the same.
* The backend is called once if the denoiser accepts the signal, and never otherwise, where an error is
  the only effect.
* The call is made with the noise level and an image of two or three axes that has the elements of the
  signal, in order.
* An error of the backend is the error.  A result of other extents than those of the image is an error of
  the backend, too.  Any other result is taken over: it gets the shape of the signal, and its elements are
  rounded to those of the signal.
* A backend that returns the image leaves the signal as it is, if rounding undoes the widening of the
  elements. -/
theorem denoise_boundary (d : Denoiser W) (x : Signal K) (sigma : W)
    (hroom : ∀ dims, x.shape = .flat dims → Addressable dims) :
    (d.denoise x sigma = denoiseIn report (fun backend image sigma => backend image sigma) d x sigma ∧
      ∀ t, (denoiseIn (fun _ => pure ()) recordedCall d x sigma).run [] =
        (((d.denoise x sigma).run t).1, d.calls x sigma)) ∧
    (¬d.Accepts x sigma →
      d.calls x sigma = [] ∧ ∃ e, ∀ t, (d.denoise x sigma).run t = (.error e, t)) ∧
    (d.Accepts x sigma → ∃ image : Tensor W, IsImage x image ∧ d.calls x sigma = [(image, sigma)] ∧
      ∀ backend t, d.backend? = some backend →
        (∀ e, backend image sigma = .error e → ((d.denoise x sigma).run t).1 = .error e) ∧
        (∀ result, backend image sigma = .ok result → result.dims ≠ image.dims →
          ∃ fault, ((d.denoise x sigma).run t).1 = .error (.externalCall fault)) ∧
        (∀ result, backend image sigma = .ok result → result.dims = image.dims →
          ∃ y, ((d.denoise x sigma).run t).1 = .ok y ∧ y.shape = x.shape ∧
            y.entries = result.entries.map Scalar.ofWide) ∧
        (backend image sigma = .ok image → (∀ v ∈ x.entries, Scalar.ofWide (widen (Scalar.re v)) = v) →
          ((d.denoise x sigma).run t).1 = .ok x)) := by
  refine ⟨⟨denoise_eq_denoiseIn d x sigma, run_denoiseIn_recordedCall d x sigma⟩, fun hrefused => ?_,
    fun haccepts => ?_⟩
  · cases hprepare : d.prepare x sigma with
    | error e =>
      refine ⟨congrArg Prod.snd (run_denoiseIn_of_error hprepare []), e, fun t => ?_⟩
      rw [denoise_eq_denoiseIn, run_denoiseIn_of_error hprepare]
    | ok r => exact absurd (accepts_of_prepare hprepare) hrefused
  · obtain ⟨backend, image, dims, hbackend, himage, hshape, hvolume, hprepare⟩ :=
      prepare_of_accepts haccepts hroom
    refine ⟨image, himage, calls_of_ok hprepare, fun backend' t hbackend' => ?_⟩
    cases hbackend.symm.trans hbackend'
    have hrun := run_denoise_of_ok hprepare t
    have htaken {result : Tensor W} (hresult : backend image sigma = .ok result)
        (hdims : result.dims = image.dims) : ∃ y, ((d.denoise x sigma).run t).1 = .ok y ∧
          y.shape = x.shape ∧ y.entries = result.entries.map Scalar.ofWide := by
      have hsize : (result.entries.map (Scalar.ofWide : W → K)).size = volume dims := by
        rw [Array.size_map, result.size_entries, hdims, hvolume]
      rw [hresult] at hrun
      replace hrun : ((d.denoise x sigma).run t).1 = takeOver d image dims result := hrun
      rw [takeOver, if_neg (not_not.mpr hdims), Signal.ofDims_eq_ok hsize (hroom dims hshape)] at hrun
      exact ⟨_, hrun, hshape.symm, rfl⟩
    refine ⟨fun e he => ?_, fun result hresult hdims => ?_, fun _ => htaken, fun hresult hround => ?_⟩
    · rw [hrun, he]
      rfl
    · refine ⟨.resultShape d.name result.dims image.dims, ?_⟩
      rw [hrun, hresult]
      exact if_pos hdims
    · obtain ⟨y, hy, hyshape, hyentries⟩ := htaken hresult rfl
      have hsame : y.entries = x.entries := by
        rw [hyentries, himage.entries, Array.map_map]
        exact Array.map_congr_left hround |>.trans x.entries.map_id
      rw [hy, Signal.eq_of_flat hshape (hyshape.trans hshape) hsame]

/-! ### A backend that changes nothing -/

/-- A denoiser whose backend returns the image. -/
def idleDenoiser : Denoiser Float := .bm3d (some fun image _ => .ok image) false

/-- A grey image with two axes too many. -/
def greyImage : Signal Float := .replicate (.flat [8, 9, 1, 1]) 0.5

theorem accepts_greyImage : idleDenoiser.Accepts greyImage 0.25 where
  isReal := rfl
  flat := ⟨[8, 9, 1, 1], rfl, by decide, by decide, by decide, nofun⟩
  nonneg := by decide +kernel
  finite := by decide +kernel
  attached := ⟨_, rfl⟩

theorem denoise_greyImage : (∃ image, idleDenoiser.calls greyImage 0.25 = [(image, 0.25)]) ∧
    ((idleDenoiser.denoise greyImage 0.25).run .empty).1 = .ok greyImage := by
  have hroom (dims : List ℕ) (h : greyImage.shape = .flat dims) : Addressable dims := by
    cases h
    decide
  obtain ⟨image, -, hcalls, hrun⟩ :=
    (denoise_boundary idleDenoiser greyImage 0.25 hroom).2.2 accepts_greyImage
  obtain ⟨-, -, -, hidle⟩ := hrun _ .empty rfl
  exact ⟨⟨image, hcalls⟩, hidle rfl fun _ _ => rfl⟩

end Denoiser

end OperatorSplitting
