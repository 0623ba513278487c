import Mathlib
import OperatorSplitting.Proofs.Linear.Difference
import OperatorSplitting.Proofs.Tensor.Stacking

/-!
# Layouts of finite differences

The axes of an operator are distinct axes of the array with at least two places each, and every such
list of axes makes an operator (`axesFault?_eq_none_iff`).  Distinct axes decide the layout: cut
short, the differences along two of them never have equal extents, so that several axes give blocks
under truncation and a stack otherwise (`isStacked_eq_true_iff`).

Whatever the layout, the differences along the `k`-th axis are found in one place of the result
(`partEntry`), and `isDifference_partEntry` reads them there.  The stack has one axis more than the
input; that it can be addressed is the only thing that can fail.
-/

namespace OperatorSplitting

/-! ### Axes -/

/-- Axes along which an array can be differenced: at least one, none of them twice, each an axis of
the array with at least two places. -/
structure Differenceable (dims axes : List ℕ) : Prop where
  ne_nil : axes ≠ []
  nodup : axes.Nodup
  fits : ∀ axis ∈ axes, axis < dims.length ∧ 2 ≤ dims.getD axis 0

instance decidableDifferenceable (dims axes : List ℕ) : Decidable (Differenceable dims axes) :=
  decidable_of_iff
    (axes ≠ [] ∧ axes.Nodup ∧ ∀ axis ∈ axes, axis < dims.length ∧ 2 ≤ dims.getD axis 0)
    ⟨fun h => ⟨h.1, h.2.1, h.2.2⟩, fun h => ⟨h.ne_nil, h.nodup, h.fits⟩⟩

/-- Axes without a fault, of which some have been seen before. -/
theorem axesFault?_eq_none_iff {dims seen axes : List ℕ} :
    axesFault? dims seen axes = none ↔
      (∀ axis ∈ axes, axis < dims.length ∧ 2 ≤ dims.getD axis 0) ∧
        (∀ axis ∈ axes, axis ∉ seen) ∧ axes.Nodup := by
  induction axes generalizing seen with
  | nil => simp [axesFault?]
  | cons axis axes ih =>
    have hlater : (∀ a ∈ axes, a ∉ axis :: seen) ↔ axis ∉ axes ∧ ∀ a ∈ axes, a ∉ seen := by
      simp only [List.mem_cons, not_or]
      constructor
      · exact fun h => ⟨fun hmem => (h axis hmem).1 rfl, fun a ha => (h a ha).2⟩
      · rintro ⟨hnew, hseen⟩ a ha
        exact ⟨fun heq => hnew (heq ▸ ha), hseen a ha⟩
    -- The faults are looked for in the order of the cases.
    unfold axesFault?
    rw [List.forall_mem_cons, List.forall_mem_cons, List.nodup_cons]
    by_cases hrange : dims.length ≤ axis
    · rw [if_pos hrange]
      exact iff_of_false (by simp) fun h => absurd h.1.1.1 hrange.not_gt
    · rw [if_neg hrange]
      by_cases hseen : axis ∈ seen
      · rw [if_pos hseen]
        exact iff_of_false (by simp) fun h => h.2.1.1 hseen
      · rw [if_neg hseen]
        by_cases hshort : dims.getD axis 0 < 2
        · rw [if_pos hshort]
          exact iff_of_false (by simp) fun h => absurd h.1.1.2 hshort.not_ge
        · rw [if_neg hshort, ih, hlater]
          have hfit : axis < dims.length ∧ 2 ≤ dims.getD axis 0 := by omega
          tauto

/-! ### Layouts -/

namespace Boundary

/-- The extents of the differences along an axis. -/
def differenceDims (b : Boundary) (dims : List ℕ) (axis : ℕ) : List ℕ :=
  match b with
  | .truncate => dims.set axis (dims.getD axis 0 - 1)
  | .appendZero | .circular => dims

/-- The shape of the differences along some axes: one array for one axis, and for several axes
blocks under truncation and a stack otherwise. -/
def differenceShape (b : Boundary) (dims : List ℕ) : List ℕ → Shape
  | [axis] => .flat (b.differenceDims dims axis)
  | axes =>
    if b = .truncate then .blocked (axes.map (b.differenceDims dims))
    else .flat (axes.length :: dims)

/-- Memory can be addressed for a stack of differences, if there is one. -/
def CanStack (b : Boundary) (dims axes : List ℕ) : Prop :=
  2 ≤ axes.length → b ≠ .truncate → Addressable (axes.length :: dims)

instance decidableCanStack (b : Boundary) (dims axes : List ℕ) : Decidable (b.CanStack dims axes) :=
  inferInstanceAs
    (Decidable (2 ≤ axes.length → b ≠ .truncate → Addressable (axes.length :: dims)))

/-- Some entries are the differences of an array along an axis: inside, each place is taken from the
next one, and the last place follows the boundary rule. -/
structure IsDifference {K : Type} [Zero K] [Sub K] [Neg K] (b : Boundary) (x : Tensor K) (axis : ℕ)
    (entry : List ℕ → K) : Prop where
  inner : ∀ idx, InBox x.dims idx → idx.getD axis 0 + 1 < x.dims.getD axis 0 →
    entry idx = x.entry (idx.set axis (idx.getD axis 0 + 1)) - x.entry idx
  last : ∀ idx, InBox x.dims idx → idx.getD axis 0 + 1 = x.dims.getD axis 0 →
    match b with
    | .truncate => ¬InBox (b.differenceDims x.dims axis) idx
    | .appendZero => entry idx = -x.entry idx
    | .circular => entry idx = x.entry (idx.set axis 0) - x.entry idx

theorem IsDifference.congr {K : Type} [Zero K] [Sub K] [Neg K] {b : Boundary} {x : Tensor K}
    {axis : ℕ} {f g : List ℕ → K} (h : b.IsDifference x axis f)
    (hfg : ∀ idx, InBox x.dims idx → g idx = f idx) : b.IsDifference x axis g where
  inner idx hidx hlt := (hfg idx hidx).trans (h.inner idx hidx hlt)
  last idx hidx hlast := by
    have hend := h.last idx hidx hlast
    cases b with
    | truncate => exact hend
    | appendZero => exact (hfg idx hidx).trans hend
    | circular => exact (hfg idx hidx).trans hend

end Boundary

namespace FiniteDifference

variable {K R W : Type} {op : FiniteDifference} {axis : ℕ}

theorem differenceable (op : FiniteDifference) : Differenceable op.dims op.axes :=
  ⟨op.axes_ne_nil, (axesFault?_eq_none_iff.mp op.axes_fit).2.2, op.fits⟩

/-- Axes along which an array can be differenced make an operator. -/
theorem exists_ofAxes {dims : List ℕ} {axes : Option (List ℕ)} {b : Boundary}
    (h : Differenceable dims (axes.getD (List.range dims.length))) :
    ∃ op, ofAxes dims axes b = .ok op ∧ op.dims = dims ∧
      op.axes = axes.getD (List.range dims.length) ∧ op.boundary = b := by
  have hfit : axesFault? dims [] (axes.getD (List.range dims.length)) = none :=
    axesFault?_eq_none_iff.mpr ⟨h.fits, fun _ _ => List.not_mem_nil, h.nodup⟩
  refine ⟨⟨dims, _, b, h.ne_nil, hfit⟩, ?_, rfl, rfl, rfl⟩
  unfold ofAxes
  dsimp only
  rw [dif_neg h.ne_nil]
  split
  · next fault hfault => cases hfit.symm.trans hfault
  · rfl

/-- Other axes are an error of configuration. -/
theorem ofAxes_eq_error {dims : List ℕ} {axes : Option (List ℕ)} {b : Boundary}
    (h : ¬Differenceable dims (axes.getD (List.range dims.length))) :
    ∃ fault, ofAxes dims axes b = .error (.configuration fault) := by
  unfold ofAxes
  dsimp only
  split_ifs with hne
  · exact ⟨_, rfl⟩
  · split
    · exact ⟨_, rfl⟩
    · next hfit =>
      obtain ⟨hfits, -, hnodup⟩ := axesFault?_eq_none_iff.mp hfit
      exact absurd ⟨hne, hnodup, hfits⟩ h

theorem axisDims_eq_differenceDims (h : op.Fits axis) :
    op.axisDims axis = op.boundary.differenceDims op.dims axis := by
  unfold axisDims Boundary.differenceDims
  cases op.boundary with
  | truncate => exact modify_eq_set_getD h.1 _
  | appendZero => rfl
  | circular => rfl

/-- Cut short along different axes, the differences have different extents. -/
theorem axisDims_ne_of_truncate {a a' : ℕ} (hb : op.boundary = .truncate) (h : op.Fits a)
    (h' : op.Fits a') (hne : a ≠ a') : op.axisDims a ≠ op.axisDims a' := by
  intro heq
  have hextent := congrArg (·.getD a 0) heq
  rw [axisDims_eq_differenceDims h, axisDims_eq_differenceDims h', hb] at hextent
  have hlong := h.2
  have hcut : (op.dims.set a (op.dims.getD a 0 - 1)).getD a 0 = op.dims.getD a 0 - 1 :=
    getD_set_self h.1 _
  have hwhole : (op.dims.set a' (op.dims.getD a' 0 - 1)).getD a 0 = op.dims.getD a 0 := by
    rw [List.getD_eq_getElem?_getD, List.getElem?_set_ne hne.symm, ← List.getD_eq_getElem?_getD]
  have : op.dims.getD a 0 - 1 = op.dims.getD a 0 := hcut.symm.trans (hextent.trans hwhole)
  omega

/-- Several axes are stacked unless the differences are cut short. -/
theorem isStacked_eq_true_iff (haxes : 2 ≤ op.axes.length) :
    op.isStacked = true ↔ op.boundary ≠ .truncate := by
  constructor
  · -- The first two axes are different, and so are the extents along them.
    intro hstacked hb
    match hlist : op.axes with
    | [] => simp [hlist] at haxes
    | [a] => simp [hlist] at haxes
    | a :: a' :: rest =>
      have hfit : ∀ axis ∈ a :: a' :: rest, op.Fits axis := hlist ▸ op.fits
      obtain ⟨ha, hothers⟩ := List.forall_mem_cons.mp hfit
      have hne : a ≠ a' := by
        have hnodup := op.differenceable.nodup
        rw [hlist] at hnodup
        exact fun heq => (List.nodup_cons.mp hnodup).1 (heq ▸ List.mem_cons_self)
      unfold isStacked at hstacked
      rw [hlist] at hstacked
      have hsame := List.all_eq_true.mp hstacked (op.axisDims a')
        (List.mem_map_of_mem (List.mem_cons_of_mem a List.mem_cons_self))
      have hequal : op.axisDims a = op.axisDims a' := Option.some.inj (of_decide_eq_true hsame)
      exact axisDims_ne_of_truncate hb ha (hothers a' List.mem_cons_self) hne hequal
  · intro hb
    have hdims (axis : ℕ) : op.axisDims axis = op.dims := axisDims_of_ne_truncate hb
    cases hlist : op.axes with
    | nil => simp [hlist] at haxes
    | cons a rest => simp [isStacked, hlist, hdims]

theorem two_le_length_axes (haxes : ∀ axis, op.axes ≠ [axis]) : 2 ≤ op.axes.length := by
  match hlist : op.axes with
  | [] => exact absurd hlist op.axes_ne_nil
  | [axis] => exact absurd hlist (haxes axis)
  | _ :: _ :: rest => simp

theorem output_eq (op : FiniteDifference) :
    op.output = op.boundary.differenceShape op.dims op.axes := by
  have hmap : op.axes.map op.axisDims = op.axes.map (op.boundary.differenceDims op.dims) :=
    List.map_congr_left fun axis haxis => axisDims_eq_differenceDims (op.fits axis haxis)
  rcases op.layout_cases with ⟨axis, haxes, hout⟩ | ⟨d, haxes, hstacked, hd, hout⟩ |
    ⟨haxes, hstacked, hout⟩
  · have hfit : op.Fits axis := op.fits axis (by rw [haxes]; exact List.mem_singleton_self axis)
    rw [hout, haxes, Boundary.differenceShape, axisDims_eq_differenceDims hfit]
  · have hb := (isStacked_eq_true_iff (two_le_length_axes haxes)).mp hstacked
    have hsame : d = op.dims := by
      obtain ⟨axis, haxis⟩ := List.exists_mem_of_ne_nil _ op.axes_ne_nil
      rw [← hd axis haxis, axisDims_of_ne_truncate hb]
    rw [hout, hsame]
    unfold Boundary.differenceShape
    split
    · next axis heq => exact absurd heq (haxes axis)
    · rw [if_neg hb]
  · have hb : op.boundary = .truncate := by
      by_contra hne
      rw [(isStacked_eq_true_iff (two_le_length_axes haxes)).mpr hne] at hstacked
      cases hstacked
    rw [hout, hmap]
    unfold Boundary.differenceShape
    split
    · next axis heq => exact absurd heq (haxes axis)
    · rw [if_pos hb]

/-! ### Entries -/

/-- The entry at an index of the differences along the `k`-th axis: in the only array, in a layer of
the stack, or in a block. -/
def partEntry [Zero K] (op : FiniteDifference) (u : Signal K) (k : ℕ) (idx : List ℕ) : K :=
  match u with
  | .flat t => if op.axes.length = 1 then t.entry idx else t.entry (k :: idx)
  | .blocked ts => layerEntry ts k idx

theorem partEntry_single [Zero K] {t : Tensor K} {k : ℕ} (haxes : op.axes = [axis]) :
    op.partEntry (.flat t) k = t.entry := by
  funext idx
  rw [partEntry, if_pos (by rw [haxes]; rfl)]

theorem partEntry_stack [Zero K] {t : Tensor K} {parts : List (Tensor K)} {k : ℕ} {idx : List ℕ}
    (haxes : 2 ≤ op.axes.length) (ht : Tensor.stack parts = .ok t)
    (hidx : InBox t.dims (k :: idx)) : op.partEntry (.flat t) k idx = layerEntry parts k idx := by
  rw [partEntry, if_neg (by omega), Tensor.entry_stack ht hidx]

section Entries

variable [Scalar K R W]

theorem isDifference_of_entry {x : Tensor K} {f : List ℕ → K} (hx : x.dims = op.dims)
    (h : op.Fits axis)
    (hf : ∀ idx, InBox (op.axisDims axis) idx → f idx = op.differenceEntry x axis idx) :
    op.boundary.IsDifference x axis f where
  inner idx hidx hlt := by
    rw [hx] at hidx hlt
    have hplace : idx.getD axis 0 < op.dims.getD axis 0 - 1 := by omega
    have hbox : InBox (op.axisDims axis) idx := by
      rw [axisDims_eq_differenceDims h]
      unfold Boundary.differenceDims
      cases op.boundary with
      | truncate => exact hidx.set_dims hplace
      | appendZero | circular => exact hidx
    rw [hf idx hbox, differenceEntry, if_pos hplace]
  last idx hidx hlast := by
    rw [hx] at hidx hlast
    have hplace : idx.getD axis 0 = op.dims.getD axis 0 - 1 := by omega
    have hself : idx.set axis (op.dims.getD axis 0 - 1) = idx :=
      list_set_getD (by rw [hidx.length_eq]; exact h.1) hplace
    have hdims := axisDims_eq_differenceDims h
    cases hb : op.boundary with
    | truncate =>
      intro hcut
      rw [hx] at hcut
      have hrank : axis < (Boundary.truncate.differenceDims op.dims axis).length := by
        rw [Boundary.differenceDims, List.length_set]
        exact h.1
      have hlt := hcut.getD_lt hrank
      rw [Boundary.differenceDims, getD_set_self h.1] at hlt
      omega
    | appendZero | circular =>
      rw [hb] at hdims
      rw [hf idx (hdims ▸ hidx), differenceEntry, if_neg (by omega), hb, hself]

theorem isDifference_of_differenceAlong {x u : Tensor K} (hx : x.dims = op.dims) (h : op.Fits axis)
    (hu : op.differenceAlong x axis = .ok u) : op.boundary.IsDifference x axis u.entry := by
  obtain ⟨-, -, rfl⟩ := (differenceAlong_eq_ok_iff hx h).mp hu
  exact isDifference_of_entry hx h fun idx hidx => Tensor.entry_ofFn _ hidx

/-- The differences along the `k`-th axis are the `k`-th part. -/
theorem isDifference_layerEntry {x : Tensor K} {us : List (Tensor K)} {k : ℕ}
    (hx : x.dims = op.dims) (hus : op.differences x op.axes = .ok us) (hk : op.axes[k]? = some axis) :
    op.boundary.IsDifference x axis (layerEntry us k) := by
  obtain ⟨hlt, rfl⟩ := List.getElem?_eq_some_iff.mp hk
  have hforall := differences_eq_ok_iff.mp hus
  have hlt' : k < us.length := hforall.length_eq ▸ hlt
  have hlayer : layerEntry us k = us[k].entry := by
    funext idx
    simp only [layerEntry, List.getElem?_eq_getElem hlt']
  rw [hlayer]
  exact isDifference_of_differenceAlong hx (op.fits _ (List.getElem_mem hlt)) (hforall.get hlt hlt')

/-- In every layout the differences along the `k`-th axis are where they are looked for. -/
theorem isDifference_partEntry {x : Tensor K} {u : Signal K} (hx : x.dims = op.dims)
    (hu : op.forward (.flat x) = .ok u) {k : ℕ} (hk : op.axes[k]? = some axis) :
    op.boundary.IsDifference x axis (op.partEntry u k) := by
  have hfit : op.Fits axis := op.fits axis (List.mem_of_getElem? hk)
  rcases op.layout_cases with ⟨a, haxes, -⟩ | ⟨d, haxes, hstacked, hd, -⟩ | ⟨haxes, hstacked, -⟩
  · obtain rfl : axis = a := by
      rw [haxes] at hk
      exact List.mem_singleton.mp (List.mem_of_getElem? hk)
    rw [forward_single haxes] at hu
    obtain ⟨t, ht, rfl⟩ := Except.map_eq_ok_iff.mp hu
    rw [partEntry_single haxes]
    exact isDifference_of_differenceAlong hx hfit ht
  · obtain ⟨parts, hparts, t, ht, rfl⟩ := (forward_stacked_eq_ok_iff haxes hstacked).mp hu
    have hseveral := two_le_length_axes haxes
    have hb := (isStacked_eq_true_iff hseveral).mp hstacked
    have htdims : t.dims = op.axes.length :: x.dims := by
      rw [dims_stack_differences hx (fun _ _ => axisDims_of_ne_truncate hb) hparts ht, hx]
    obtain ⟨hklt, -⟩ := List.getElem?_eq_some_iff.mp hk
    refine (isDifference_layerEntry hx hparts hk).congr fun idx hidx => ?_
    have hbox : InBox (op.axes.length :: x.dims) (k :: idx) := ⟨hklt, hidx⟩
    exact partEntry_stack hseveral ht (htdims ▸ hbox)
  · obtain ⟨parts, hparts, rfl⟩ := (forward_blocked_eq_ok_iff haxes hstacked).mp hu
    exact isDifference_layerEntry hx hparts hk

/-! ### Values -/

/-- What several axes give is blocks, or a stack if that can be addressed. -/
theorem forward_several_of_addressable {x : Tensor K} (hx : x.dims = op.dims)
    (hroom : Addressable op.dims) (haxes : ∀ axis, op.axes ≠ [axis]) :
    (op.boundary.CanStack op.dims op.axes → ∃ u, op.forward (.flat x) = .ok u) ∧
      (¬op.boundary.CanStack op.dims op.axes →
        op.forward (.flat x) = .error (.numerical (.stacking .overflow))) := by
  obtain ⟨parts, hparts⟩ := differences_of_addressable hx op.fits hroom
  have hseveral := two_le_length_axes haxes
  have hrun : op.forward (.flat x) = op.arrange parts := by
    rw [forward_several haxes, hparts]
    rfl
  rw [hrun, arrange]
  by_cases hb : op.boundary = .truncate
  · have hstacked : ¬op.isStacked = true := fun h => (isStacked_eq_true_iff hseveral).mp h hb
    rw [if_neg hstacked]
    exact ⟨fun _ => ⟨_, rfl⟩, fun hroom => absurd (fun _ hne => absurd hb hne) hroom⟩
  · rw [if_pos ((isStacked_eq_true_iff hseveral).mpr hb)]
    have hlen : parts.length = op.axes.length := by
      simpa using congrArg List.length (map_dims_differences hx op.fits hparts)
    have hall : ∀ t ∈ parts, t.dims = op.dims :=
      dims_of_mem_differences hx (fun _ _ => axisDims_of_ne_truncate hb) hparts
    have hne : parts ≠ [] := by
      rintro rfl
      exact op.axes_ne_nil (List.length_eq_zero_iff.mp hlen.symm)
    constructor
    · intro hstack
      have hstackroom : Addressable (parts.length :: op.dims) := hlen ▸ hstack hseveral hb
      obtain ⟨t, ht⟩ := Tensor.exists_stack hne hall hstackroom
      exact ⟨.flat t, by rw [ht]⟩
    · intro hstack
      have hnoroom : ¬Addressable (parts.length :: op.dims) :=
        fun h => hstack fun _ _ => hlen ▸ h
      rw [Tensor.stack_eq_overflow hne hall hnoroom]

theorem forward_of_addressable {x : Tensor K} (hx : x.dims = op.dims)
    (hroom : Addressable op.dims) :
    (op.boundary.CanStack op.dims op.axes → ∃ u, op.forward (.flat x) = .ok u) ∧
      (¬op.boundary.CanStack op.dims op.axes →
        op.forward (.flat x) = .error (.numerical (.stacking .overflow))) := by
  by_cases hsingle : ∃ axis, op.axes = [axis]
  · obtain ⟨axis, haxes⟩ := hsingle
    have hstack : op.boundary.CanStack op.dims op.axes := by
      intro hseveral
      simp [haxes] at hseveral
    obtain ⟨parts, hparts⟩ := differences_of_addressable hx op.fits hroom
    rw [haxes] at hparts
    obtain ⟨t, -, ht, -⟩ := List.forall₂_cons_left_iff.mp (differences_eq_ok_iff.mp hparts)
    rw [forward_single haxes, ht]
    exact ⟨fun _ => ⟨.flat t, rfl⟩, fun hno => absurd hstack hno⟩
  · exact forward_several_of_addressable hx hroom (not_exists.mp hsingle)

/-- **Finite differences in every layout.**  An operator exists exactly for axes along which the
array can be differenced.  Its output shape is given by the boundary rule and the number of axes,
and a result has that shape, with the differences along each axis in their place.  There is a result
unless there is a stack that cannot be addressed, which is reported. -/
theorem ofAxes_layouts (dims : List ℕ) (listed : Option (List ℕ)) (b : Boundary) :
    (Differenceable dims (listed.getD (List.range dims.length)) →
      ∃ op, ofAxes dims listed b = .ok op ∧ op.axes = listed.getD (List.range dims.length) ∧
        op.input = .flat dims ∧ op.output = b.differenceShape dims op.axes ∧
        (2 ≤ op.axes.length → (op.isStacked = true ↔ b ≠ .truncate)) ∧
        ∀ x : Tensor K, x.dims = dims → Addressable dims →
          (b.CanStack dims op.axes → ∃ u, op.forward (.flat x) = .ok u ∧ u.shape = op.output ∧
            ∀ k axis, op.axes[k]? = some axis → b.IsDifference x axis (op.partEntry u k)) ∧
          (¬b.CanStack dims op.axes →
            op.forward (.flat x) = .error (.numerical (.stacking .overflow)))) ∧
    (¬Differenceable dims (listed.getD (List.range dims.length)) →
      ∃ fault, ofAxes dims listed b = .error (.configuration fault)) := by
  refine ⟨fun h => ?_, ofAxes_eq_error⟩
  obtain ⟨op, hop, rfl, haxes, rfl⟩ := exists_ofAxes (b := b) h
  refine ⟨op, hop, haxes, rfl, op.output_eq, isStacked_eq_true_iff, fun x hx hroom => ?_⟩
  obtain ⟨htotal, hoverflow⟩ := forward_of_addressable hx hroom
  refine ⟨fun hstack => ?_, hoverflow⟩
  obtain ⟨u, hu⟩ := htotal hstack
  have hshape : (Signal.flat x).shape = op.input := congrArg Shape.flat hx
  refine ⟨u, hu, shape_forward hshape hu, fun k axis hk => ?_⟩
  exact isDifference_partEntry hx hu hk

/-- Two rows of three entries.  The columns come first, then the rows, around the end of each: the
differences along the columns are the first layer.  A single row has no differences along its
columns. -/
theorem ofAxes_layouts_twoRows :
    Differenceable [2, 3] [1, 0] ∧ Addressable [2, 3] ∧
      Boundary.circular.CanStack [2, 3] [1, 0] ∧
      (∃ (op : FiniteDifference) (x : Tensor ℝ) (u : Signal ℝ),
        ofAxes [2, 3] (some [1, 0]) .circular = .ok op ∧
        x.dims = [2, 3] ∧ x.entries = #[1, 2, 4, 7, 11, 16] ∧
        op.forward (.flat x) = .ok u ∧ u.shape = .flat [2, 2, 3] ∧
        op.partEntry u 0 [1, 1] = 5 ∧ op.partEntry u 0 [1, 2] = -9 ∧
        op.partEntry u 1 [1, 2] = -12) ∧
      ¬Differenceable [1, 3] [0, 1] ∧
      ∃ fault, ofAxes [1, 3] none .truncate = .error (.configuration fault) := by
  have hvalid : Differenceable [2, 3] [1, 0] := by decide
  have hroom : Addressable [2, 3] := by decide
  have hstack : Boundary.circular.CanStack [2, 3] [1, 0] := by decide
  have hshort : ¬Differenceable [1, 3] [0, 1] := by decide
  let x : Tensor ℝ := ⟨[2, 3], #[1, 2, 4, 7, 11, 16], rfl⟩
  obtain ⟨op, hop, haxes, -, houtput, -, hrun⟩ :=
    (ofAxes_layouts (K := ℝ) [2, 3] (some [1, 0]) .circular).1 hvalid
  rw [Option.getD_some] at haxes
  obtain ⟨u, hu, hshape, hparts⟩ := (hrun x rfl hroom).1 (haxes ▸ hstack)
  have hcolumns := hparts 0 1 (by rw [haxes]; rfl)
  have hrows := hparts 1 0 (by rw [haxes]; rfl)
  refine ⟨hvalid, hroom, hstack, ⟨op, x, u, hop, rfl, rfl, hu, ?_, ?_, ?_, ?_⟩, hshort, ?_⟩
  · rw [hshape, houtput, haxes]
    rfl
  · rw [hcolumns.inner [1, 1] (by decide) (by decide)]
    show (16 : ℝ) - 11 = 5
    norm_num
  · rw [hcolumns.last [1, 2] (by decide) rfl]
    show (7 : ℝ) - 16 = -9
    norm_num
  · rw [hrows.last [1, 2] (by decide) rfl]
    show (4 : ℝ) - 16 = -12
    norm_num
  · exact (ofAxes_layouts (K := ℝ) [1, 3] none .truncate).2 hshort

/-- An array without entries that can be stored, and addressed, but not twice. -/
theorem exists_forward_overflow :
    ∃ (op : FiniteDifference) (x : Tensor ℝ), Differenceable [2 ^ 61, 2, 0] [0, 1] ∧
      ofAxes [2 ^ 61, 2, 0] (some [0, 1]) .circular = .ok op ∧ (Signal.flat x).shape = op.input ∧
      Storable x.dims ∧ op.forward (.flat x) = .error (.numerical (.stacking .overflow)) := by
  have hvalid : Differenceable [2 ^ 61, 2, 0] ((some [0, 1]).getD (List.range 3)) := by decide
  have hstored : Storable [2 ^ 61, 2, 0] := by decide
  have hstack : ¬Boundary.circular.CanStack [2 ^ 61, 2, 0] [0, 1] := by decide
  obtain ⟨op, hop, hdims, haxes, hboundary⟩ :=
    exists_ofAxes (b := .circular) hvalid
  let x : Tensor ℝ := ⟨[2 ^ 61, 2, 0], #[], rfl⟩
  refine ⟨op, x, hvalid, hop, congrArg Shape.flat hdims.symm, hstored, ?_⟩
  refine (forward_of_addressable hdims.symm (hdims ▸ hstored.1)).2 ?_
  rw [hdims, haxes, hboundary]
  exact hstack

end Entries

end FiniteDifference

end OperatorSplitting
