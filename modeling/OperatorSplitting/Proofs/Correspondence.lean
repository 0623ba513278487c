import Mathlib
import OperatorSplitting.Proofs.Linear.AdjointMaps
import OperatorSplitting.Proofs.Evaluation

/-!
# Computations side by side

Two runs are compared by what their computations do, one beside the other.  Two results correspond if
both are errors, whatever these say, or if both are there and related (`Corresponds`).  Two computations
are *alike* if from faithful traces, which may be different ones, their results correspond and the
traces stay faithful (`Eval.Alike`).  Alikeness is kept by the monad operations, and a steady computation
is alike to itself.

Some computations go through a list and add something for each of its members to a sum.  If the
members are steady and additions commute, the order of the list does not matter
(`Alike.accumulate_perm`).  Others make a list of results, one for each member: if the members are
rearranged so are the results (`Alike.traverse_rearrange`).
-/

namespace OperatorSplitting

variable {K R W α β γ δ : Type}

/-! ### Results -/

/-- Both results are errors, or both are there and related. -/
inductive Corresponds (r : α → β → Prop) : Except Error α → Except Error β → Prop
  | ok {a b} : r a b → Corresponds r (.ok a) (.ok b)
  | error {e e'} : Corresponds r (.error e) (.error e')

namespace Corresponds

variable {r : α → β → Prop} {q : γ → δ → Prop} {x : Except Error α} {y : Except Error β}

theorem refl {x : Except Error α} : Corresponds Eq x x := by
  cases x with
  | error e => exact .error
  | ok a => exact .ok rfl

theorem of_eq {x y : Except Error α} (h : x = y) : Corresponds Eq x y := h ▸ refl

theorem mono {r' : α → β → Prop} (h : Corresponds r x y) (hr : ∀ a b, r a b → r' a b) :
    Corresponds r' x y := by
  cases h with
  | ok hab => exact .ok (hr _ _ hab)
  | error => exact .error

theorem trans {r' : β → γ → Prop} {z : Except Error γ} (h : Corresponds r x y)
    (h' : Corresponds r' y z) : Corresponds (fun a c => ∃ b, r a b ∧ r' b c) x z := by
  cases h with
  | ok hab =>
    cases h' with
    | ok hbc => exact .ok ⟨_, hab, hbc⟩
  | error =>
    cases h' with
    | error => exact .error

/-- One result is there if and only if the other one is. -/
theorem isOk_iff (h : Corresponds r x y) : (∃ a, x = .ok a) ↔ ∃ b, y = .ok b := by
  cases h with
  | ok _ => exact ⟨fun _ => ⟨_, rfl⟩, fun _ => ⟨_, rfl⟩⟩
  | error => exact ⟨nofun, nofun⟩

/-- It suffices to look at results that are there. -/
theorem of_isOk (hx : ∀ a, x = .ok a → ∃ b, y = .ok b ∧ r a b)
    (hy : ∀ b, y = .ok b → ∃ a, x = .ok a) : Corresponds r x y := by
  cases x with
  | ok a =>
    obtain ⟨b, rfl, hab⟩ := hx a rfl
    exact .ok hab
  | error e =>
    cases y with
    | ok b =>
      obtain ⟨a, ha⟩ := hy b rfl
      cases ha
    | error e' => exact .error

end Corresponds

/-! ### Lists in another order -/

/-- The members of a list at some positions, in the order of these. -/
def rearrange (order : List ℕ) (l : List α) : List α := order.filterMap fun k => l[k]?

theorem rearrange_map (order : List ℕ) (f : α → β) (l : List α) :
    rearrange order (l.map f) = (rearrange order l).map f := by
  rw [rearrange, rearrange, List.map_filterMap]
  congr 1
  funext k
  exact List.getElem?_map

/-- Lists of one length may be rearranged before or after they are zipped. -/
theorem rearrange_zip (order : List ℕ) {l : List α} {l' : List β} (h : l.length = l'.length) :
    rearrange order (l.zip l') = (rearrange order l).zip (rearrange order l') := by
  have hzip : (l.zip l').length = l.length := by rw [List.length_zip, ← h, Nat.min_self]
  induction order with
  | nil => rfl
  | cons k order ih =>
    unfold rearrange at ih ⊢
    rw [List.filterMap_cons, List.filterMap_cons, List.filterMap_cons]
    by_cases hk : k < l.length
    · have hk' : k < l'.length := by omega
      have hkzip : k < (l.zip l').length := by omega
      rw [List.getElem?_eq_getElem hk, List.getElem?_eq_getElem hk', List.getElem?_eq_getElem hkzip]
      simp [ih]
    · have hk' : ¬k < l'.length := by omega
      have hkzip : ¬k < (l.zip l').length := by omega
      rw [List.getElem?_eq_none (Nat.not_lt.mp hk), List.getElem?_eq_none (Nat.not_lt.mp hk'),
        List.getElem?_eq_none (Nat.not_lt.mp hkzip)]
      exact ih

/-- All positions in some order give all members. -/
theorem rearrange_perm {order : List ℕ} {l : List α} (h : order.Perm (List.range l.length)) :
    (rearrange order l).Perm l := by
  have hmembers : (List.range l.length).map (fun k => l[k]?) = l.map some := by
    apply List.ext_getElem (by simp)
    intro k hk hk'
    rw [List.length_map, List.length_range] at hk
    simp [hk]
  have hall : (List.range l.length).filterMap (fun k => l[k]?) = l := by
    calc (List.range l.length).filterMap (fun k => l[k]?)
        = ((List.range l.length).map fun k => l[k]?).filterMap id := by
          rw [List.filterMap_map, Function.id_comp]
      _ = (l.map some).filterMap id := by rw [hmembers]
      _ = l := by rw [List.filterMap_map, Function.id_comp, List.filterMap_some]
  exact (h.filterMap _).trans (.of_eq hall)

/-! ### Computations -/

namespace Eval

variable [Scalar K R W] {names : Naming K}

/-- From faithful traces, the results correspond and the traces stay faithful. -/
def Alike (names : Naming K) (r : α → β → Prop) (m : Eval K W α) (m' : Eval K W β) : Prop :=
  ∀ t t', t.Faithful names → t'.Faithful names → Corresponds r (m.run t).1 (m'.run t').1 ∧
    (m.run t).2.Faithful names ∧ (m'.run t').2.Faithful names

namespace Alike

variable {r : α → β → Prop} {q : γ → δ → Prop} {m : Eval K W α} {m' : Eval K W β}

theorem pure {a : α} {b : β} (h : r a b) :
    Alike names r (Pure.pure a : Eval K W α) (Pure.pure b) :=
  fun _ _ ht ht' => ⟨.ok h, ht, ht'⟩

theorem throw (e e' : Error) :
    Alike names r (MonadExcept.throw e : Eval K W α) (MonadExcept.throw e') :=
  fun _ _ ht ht' => ⟨.error, ht, ht'⟩

theorem liftExcept {x : Except Error α} {y : Except Error β} (h : Corresponds r x y) :
    Alike names r (liftM x : Eval K W α) (liftM y) :=
  fun _ _ ht ht' => ⟨h, ht, ht'⟩

theorem report (e e' : Event W) :
    Alike names Eq (OperatorSplitting.report e : Eval K W Unit) (OperatorSplitting.report e') :=
  fun _ _ ht ht' => ⟨.ok rfl, ht.report e, ht'.report e'⟩

theorem bind {f : α → Eval K W γ} {g : β → Eval K W δ} (h : Alike names r m m')
    (hfg : ∀ a b, r a b → Alike names q (f a) (g b)) : Alike names q (m >>= f) (m' >>= g) := by
  intro t t' ht ht'
  obtain ⟨hresult, hkeep, hkeep'⟩ := h t t' ht ht'
  rw [run_bind, run_bind]
  rcases hrun : m.run t with ⟨x, t₁⟩
  rcases hrun' : m'.run t' with ⟨y, t₁'⟩
  rw [hrun] at hresult hkeep
  rw [hrun'] at hresult hkeep'
  cases hresult with
  | ok hab => exact hfg _ _ hab t₁ t₁' hkeep hkeep'
  | error => exact ⟨.error, hkeep, hkeep'⟩

theorem mono {r' : α → β → Prop} (h : Alike names r m m') (hr : ∀ a b, r a b → r' a b) :
    Alike names r' m m' :=
  fun t t' ht ht' => ⟨(h t t' ht ht').1.mono hr, (h t t' ht ht').2⟩

theorem ite {c c' : Prop} [Decidable c] [Decidable c'] {n : Eval K W α} {n' : Eval K W β}
    (hc : c ↔ c') (hm : Alike names r m m') (hn : Alike names r n n') :
    Alike names r (if c then m else n) (if c' then m' else n') := by
  by_cases h : c
  · rw [if_pos h, if_pos (hc.mp h)]
    exact hm
  · rw [if_neg h, if_neg (mt hc.mpr h)]
    exact hn

theorem trans {r' : β → γ → Prop} {m'' : Eval K W γ} (h : Alike names r m m')
    (h' : Alike names r' m' m'') : Alike names (fun a c => ∃ b, r a b ∧ r' b c) m m'' := by
  intro t t'' ht ht''
  obtain ⟨hresult, hkeep, -⟩ := h t t'' ht ht''
  obtain ⟨hresult', -, hkeep''⟩ := h' t'' t'' ht'' ht''
  exact ⟨hresult.trans hresult', hkeep, hkeep''⟩

theorem trans_eq {m m' m'' : Eval K W α} (h : Alike names Eq m m') (h' : Alike names Eq m' m'') :
    Alike names Eq m m'' :=
  (h.trans h').mono fun _ _ ⟨_, hab, hbc⟩ => hab.trans hbc

/-- What is known of the results of one of the computations. -/
theorem and_ensures {post : α → Prop} (h : Alike names r m m')
    (hm : Ensures (Trace.Faithful names) m post) :
    Alike names (fun a b => r a b ∧ post a) m m' := by
  intro t t' ht ht'
  obtain ⟨hresult, hkeep⟩ := h t t' ht ht'
  have hpost := (hm t ht).2
  refine ⟨?_, hkeep⟩
  generalize (m.run t).1 = x at hresult hpost ⊢
  generalize (m'.run t').1 = y at hresult ⊢
  cases hresult with
  | ok hab => exact .ok ⟨hab, hpost _ rfl⟩
  | error => exact .error

/-- The results of two runs. -/
theorem of_run (h : Alike names r m m') {t t' t₁ t₁' : Trace K W} {x : Except Error α}
    {y : Except Error β} (ht : t.Faithful names) (ht' : t'.Faithful names)
    (hrun : m.run t = (x, t₁)) (hrun' : m'.run t' = (y, t₁')) :
    Corresponds r x y ∧ t₁.Faithful names ∧ t₁'.Faithful names := by
  have hboth := h t t' ht ht'
  rw [hrun, hrun'] at hboth
  exact hboth

end Alike

variable {r : α → β → Prop} {m : Eval K W α} {m' : Eval K W β}

/-- Steady computations are alike if their outcomes correspond. -/
theorem Steady.alike_of_outcome (hm : Steady names m) (hm' : Steady names m')
    (h : Corresponds r m.outcome m'.outcome) : Alike names r m m' := by
  intro t t' ht ht'
  obtain ⟨hresult, hkeep⟩ := hm t ht
  obtain ⟨hresult', hkeep'⟩ := hm' t' ht'
  rw [hresult, hresult']
  exact ⟨h, hkeep, hkeep'⟩

theorem Steady.alike {m : Eval K W α} (hm : Steady names m) : Alike names Eq m m :=
  hm.alike_of_outcome hm .refl

/-- A computation beside one that does the same and then applies a function. -/
theorem Steady.alike_map {m : Eval K W α} (hm : Steady names m) (f : α → β) :
    Alike names (fun a b => b = f a) m (do return f (← m)) := by
  refine hm.alike_of_outcome (hm.map f) ?_
  rw [hm.outcome_map]
  cases m.outcome with
  | error e => exact .error
  | ok a => exact .ok rfl

/-! ### Sums over a list -/

section Accumulate

variable {ι σ : Type} {part : ι → Eval K W γ} {act : σ → γ → Except Error σ}

/-- Two steady parts may be added in either order. -/
theorem Alike.swap {i j : ι} (hi : Steady names (part i)) (hj : Steady names (part j))
    (hact : ∀ s v w, Corresponds Eq (act s v >>= (act · w)) (act s w >>= (act · v))) (s : σ) :
    Alike names Eq (do
      let v ← part i
      let s ← act s v
      let w ← part j
      act s w : Eval K W σ) (do
      let w ← part j
      let s ← act s w
      let v ← part i
      act s v) := by
  have hsteady {i j : ι} (hi : Steady names (part i)) (hj : Steady names (part j)) :
      Steady names (do
        let v ← part i
        let s ← act s v
        let w ← part j
        act s w : Eval K W σ) :=
    hi.bind fun _ _ => (Steady.liftExcept _).bind fun _ _ => hj.bind fun _ _ => .liftExcept _
  have houtcome {i j : ι} (hi : Steady names (part i)) (hj : Steady names (part j)) :
      (do
        let v ← part i
        let s ← act s v
        let w ← part j
        act s w : Eval K W σ).outcome = (do
        let v ← (part i).outcome
        let s ← act s v
        let w ← (part j).outcome
        act s w) := by
    rw [hi.outcome_bind fun _ _ => (Steady.liftExcept _).bind fun _ _ => hj.bind fun _ _ =>
      .liftExcept _]
    congr 1
    funext v
    rw [outcome_liftExcept_bind]
    congr 1
    funext s
    exact hj.outcome_bind fun _ _ => .liftExcept _
  refine (hsteady hi hj).alike_of_outcome (hsteady hj hi) ?_
  rw [houtcome hi hj, houtcome hj hi]
  cases (part i).outcome with
  | error e =>
    cases (part j).outcome with
    | error e' => exact .error
    | ok w =>
      show Corresponds Eq (.error e) (act s w >>= fun _ => .error e)
      cases act s w <;> exact .error
  | ok v =>
    cases (part j).outcome with
    | error e' =>
      show Corresponds Eq (act s v >>= fun _ => .error e') (.error e')
      cases act s v <;> exact .error
    | ok w => exact hact s v w

variable (part act) (run : List ι → σ → Eval K W σ)

/-- A computation that adds its parts one after the other, beside another one whose parts are related to
them. -/
theorem Alike.accumulate_map (hnil : ∀ s, run [] s = Pure.pure s)
    (hcons : ∀ i is s, run (i :: is) s = do
      let v ← part i
      let s ← act s v
      run is s)
    {φ : ι → ι} {S : σ → σ → Prop} {V : γ → γ → Prop}
    (hact : ∀ s s' v v', S s s' → V v v' → Corresponds S (act s v) (act s' v')) {l : List ι}
    (hpart : ∀ i ∈ l, Alike names V (part i) (part (φ i))) {s s' : σ} (hs : S s s') :
    Alike names S (run l s) (run (l.map φ) s') := by
  induction l generalizing s s' with
  | nil =>
    rw [List.map_nil, hnil, hnil]
    exact .pure hs
  | cons i l ih =>
    obtain ⟨hi, hl⟩ := List.forall_mem_cons.mp hpart
    rw [List.map_cons, hcons, hcons]
    exact hi.bind fun _ _ hv => (Alike.liftExcept (hact _ _ _ _ hs hv)).bind fun _ _ hnext =>
      ih hl hnext

/-- A computation that adds its parts one after the other does the same in any order of the parts, if
these are steady and additions commute. -/
theorem Alike.accumulate_perm (hnil : ∀ s, run [] s = Pure.pure s)
    (hcons : ∀ i is s, run (i :: is) s = do
      let v ← part i
      let s ← act s v
      run is s)
    (hact : ∀ s v w, Corresponds Eq (act s v >>= (act · w)) (act s w >>= (act · v)))
    {l l' : List ι} (h : l.Perm l') (hpart : ∀ i ∈ l, Steady names (part i)) (s : σ) :
    Alike names Eq (run l s) (run l' s) := by
  have hsame {l : List ι} (hpart : ∀ i ∈ l, Steady names (part i)) (s : σ) :
      Alike names Eq (run l s) (run l s) := by
    have halike : Alike names Eq (run l s) (run (l.map id) s) :=
      Alike.accumulate_map part act run hnil hcons (fun _ _ _ _ hs hv => .of_eq (by rw [hs, hv]))
        (fun i hi => (hpart i hi).alike) rfl
    rwa [List.map_id] at halike
  induction h generalizing s with
  | nil => exact hsame hpart s
  | @cons i l l' _ ih =>
    obtain ⟨hi, hl⟩ := List.forall_mem_cons.mp hpart
    rw [hcons, hcons]
    exact hi.alike.bind fun _ _ hv => hv ▸ (Alike.liftExcept .refl).bind fun _ _ hs => hs ▸ ih hl _
  | swap i j l =>
    obtain ⟨hj, hpart⟩ := List.forall_mem_cons.mp hpart
    obtain ⟨hi, hl⟩ := List.forall_mem_cons.mp hpart
    have hunfold (i j : ι) : run (i :: j :: l) s = (do
        let v ← part i
        let s ← act s v
        let w ← part j
        act s w : Eval K W σ) >>= run l := by
      rw [hcons]
      simp only [hcons, bind_assoc]
    rw [hunfold, hunfold]
    exact (Alike.swap hj hi hact s).bind fun _ _ hs => hs ▸ hsame hl _
  | trans hperm _ ih ih' =>
    exact (ih hpart s).trans_eq (ih' (fun i hi => hpart i (hperm.mem_iff.mpr hi)) s)

end Accumulate

/-! ### Lists of results -/

section Traverse

variable {ι : Type} (part : ι → Eval K W γ) (run : List ι → Eval K W (List γ)) {l : List ι}

/-- A computation that makes a result of each member of a list. -/
theorem steady_traverse (hnil : run [] = Pure.pure [])
    (hcons : ∀ i is, run (i :: is) = do
      let v ← part i
      let vs ← run is
      return v :: vs)
    (hpart : ∀ i ∈ l, Steady names (part i)) : Steady names (run l) := by
  induction l with
  | nil =>
    rw [hnil]
    exact .pure _
  | cons i l ih =>
    obtain ⟨hi, hl⟩ := List.forall_mem_cons.mp hpart
    rw [hcons]
    exact hi.bind fun _ _ => (ih hl).bind fun _ _ => .pure _

theorem outcome_traverse_eq_ok_iff (hnil : run [] = Pure.pure [])
    (hcons : ∀ i is, run (i :: is) = do
      let v ← part i
      let vs ← run is
      return v :: vs)
    (hpart : ∀ i ∈ l, Steady names (part i)) {vs : List γ} :
    (run l).outcome = .ok vs ↔ l.map (fun i => (part i).outcome) = vs.map .ok := by
  induction l generalizing vs with
  | nil =>
    rw [hnil, outcome_pure, Except.ok.injEq]
    constructor
    · rintro rfl
      rfl
    · intro h
      exact (List.map_eq_nil_iff.mp h.symm).symm
  | cons i l ih =>
    obtain ⟨hi, hl⟩ := List.forall_mem_cons.mp hpart
    have hrest := steady_traverse part run hnil hcons hl
    rw [hcons, hi.outcome_bind fun _ _ => hrest.map _, List.map_cons, Except.bind_eq_ok_iff]
    constructor
    · rintro ⟨v, hv, h⟩
      rw [hrest.outcome_map, Except.map_eq_ok_iff] at h
      obtain ⟨vs, hvs, rfl⟩ := h
      rw [List.map_cons, hv, (ih hl).mp hvs]
    · intro h
      obtain ⟨v, vs, rfl, hv, hvs⟩ := List.map_eq_cons_iff.mp h.symm
      refine ⟨v, hv.symm, ?_⟩
      rw [hrest.outcome_map, (ih hl).mpr hvs.symm]
      rfl

/-- The members in another order have the same results, in that order. -/
theorem Alike.traverse_rearrange (hnil : run [] = Pure.pure [])
    (hcons : ∀ i is, run (i :: is) = do
      let v ← part i
      let vs ← run is
      return v :: vs)
    (hpart : ∀ i ∈ l, Steady names (part i)) {order : List ℕ}
    (horder : order.Perm (List.range l.length)) :
    Alike names (fun vs vs' => (run l).outcome = .ok vs ∧ vs.length = l.length ∧
        vs' = rearrange order vs) (run l) (run (rearrange order l)) := by
  have hperm := rearrange_perm horder
  have hpart' : ∀ i ∈ rearrange order l, Steady names (part i) :=
    fun i hi => hpart i (hperm.mem_iff.mp hi)
  refine (steady_traverse part run hnil hcons hpart).alike_of_outcome (steady_traverse part run hnil hcons hpart') ?_
  refine .of_isOk (fun vs hvs => ⟨rearrange order vs, ?_, hvs, ?_, rfl⟩) fun vs' hvs' => ?_
  · rw [outcome_traverse_eq_ok_iff part run hnil hcons hpart', ← rearrange_map, ← rearrange_map,
      (outcome_traverse_eq_ok_iff part run hnil hcons hpart).mp hvs]
  · have hlength := congrArg List.length ((outcome_traverse_eq_ok_iff part run hnil hcons hpart).mp hvs)
    rwa [List.length_map, List.length_map, eq_comm] at hlength
  · have hall := (outcome_traverse_eq_ok_iff part run hnil hcons hpart').mp hvs'
    have hsome : l.map (fun i => (part i).outcome) ∈ Set.range (List.map (Except.ok : γ → _)) := by
      rw [Set.range_list_map]
      intro result hresult
      have hmem : result ∈ vs'.map .ok := by
        rw [← hall]
        exact (hperm.map _).mem_iff.mpr hresult
      obtain ⟨v, -, hv⟩ := List.mem_map.mp hmem
      exact ⟨v, hv⟩
    obtain ⟨vs, hvs⟩ := hsome
    exact ⟨vs, (outcome_traverse_eq_ok_iff part run hnil hcons hpart).mpr hvs.symm⟩

end Traverse

end Eval

end OperatorSplitting
