import Mathlib.Data.List.Induction
import Mathlib.Data.List.Infix
import Mathlib.Data.List.Forall2
import Mathlib.Data.Set.Operations

/-!
# Runs of a step function

A system is a step function `step : σ → ε → σ` over events. A run is the list of events it is
fed; the moments of the run are the prefixes of that list. Conditions on runs are conditions on
every step, read in the state the step starts from (`Along`). A step that may fail is a function
into `Except`; two of them can be compared step by step (`Agree`).
-/

namespace Raftrust.Lib

/-- What stands where in a list that has grown by one element. -/
lemma getElem?_snoc_eq_some_iff {α : Type*} {l : List α} {a x : α} {i : ℕ} :
    (l ++ [a])[i]? = some x ↔ l[i]? = some x ∨ (i = l.length ∧ a = x) := by
  rcases lt_trichotomy i l.length with hi | rfl | hi
  · simp [List.getElem?_append_left hi, hi.ne]
  · simp
  · have hnone : (l ++ [a])[i]? = none := by
      rw [List.getElem?_eq_none_iff, List.length_append, List.length_singleton]
      omega
    simp [hnone, List.getElem?_eq_none hi.le, hi.ne']

/-- A list of pairs that begins like another one in both components begins like it. -/
lemma isPrefix_of_map_fst_snd {α β : Type*} {l l' : List (α × β)}
    (h : l.map Prod.fst <+: l'.map Prod.fst) (h' : l.map Prod.snd <+: l'.map Prod.snd) :
    l <+: l' := by
  induction l generalizing l' with
  | nil => exact List.nil_prefix
  | cons p l ih =>
    cases l' with
    | nil => simp at h
    | cons p' l' =>
      rw [List.map_cons, List.map_cons, List.cons_prefix_cons] at h h'
      rw [List.cons_prefix_cons]
      exact ⟨Prod.ext h.1 h'.1, ih h.2 h'.2⟩

variable {σ ε : Type*} (step : σ → ε → σ)

/-- The state reached from `s` by the events `es`. -/
def run (s : σ) (es : List ε) : σ :=
  es.foldl step s

@[simp] lemma run_nil (s : σ) : run step s [] = s := rfl

@[simp] lemma run_cons (s : σ) (e : ε) (es : List ε) :
    run step s (e :: es) = run step (step s e) es := rfl

lemma run_append (s : σ) (es es' : List ε) :
    run step s (es ++ es') = run step (run step s es) es' := by
  simp [run, List.foldl_append]

@[simp] lemma run_snoc (s : σ) (es : List ε) (e : ε) :
    run step s (es ++ [e]) = step (run step s es) e := by
  simp [run_append]

/-- Every step of the run satisfies `P` in the state it starts from. -/
def Along (P : σ → ε → Prop) : σ → List ε → Prop
  | _, [] => True
  | s, e :: es => P s e ∧ Along P (step s e) es

@[simp] lemma along_nil (P : σ → ε → Prop) (s : σ) : Along step P s [] := trivial

@[simp] lemma along_cons (P : σ → ε → Prop) (s : σ) (e : ε) (es : List ε) :
    Along step P s (e :: es) ↔ P s e ∧ Along step P (step s e) es := Iff.rfl

lemma along_append (P : σ → ε → Prop) (s : σ) (es es' : List ε) :
    Along step P s (es ++ es') ↔ Along step P s es ∧ Along step P (run step s es) es' := by
  induction es generalizing s with
  | nil => simp
  | cons e es ih => simp [ih, and_assoc]

@[simp] lemma along_snoc (P : σ → ε → Prop) (s : σ) (es : List ε) (e : ε) :
    Along step P s (es ++ [e]) ↔ Along step P s es ∧ P (run step s es) e := by
  simp [along_append]

lemma along_true (s : σ) (es : List ε) : Along step (fun _ _ => True) s es := by
  induction es generalizing s with
  | nil => trivial
  | cons e es ih => exact ⟨trivial, ih (step s e)⟩

lemma Along.of_isPrefix {P : σ → ε → Prop} {s : σ} {es es' : List ε}
    (h : Along step P s es) (hp : es' <+: es) : Along step P s es' := by
  obtain ⟨rest, rfl⟩ := hp
  exact ((along_append step P s es' rest).mp h).1

lemma Along.mono {P Q : σ → ε → Prop} (hPQ : ∀ s e, P s e → Q s e) {s : σ} {es : List ε}
    (h : Along step P s es) : Along step Q s es := by
  induction es generalizing s with
  | nil => trivial
  | cons e es ih => exact ⟨hPQ s e h.1, ih h.2⟩

instance decidableAlong (P : σ → ε → Prop) [∀ s e, Decidable (P s e)] :
    ∀ (s : σ) (es : List ε), Decidable (Along step P s es)
  | _, [] => .isTrue trivial
  | s, e :: es =>
    have := decidableAlong P (step s e) es
    inferInstanceAs (Decidable (P s e ∧ Along step P (step s e) es))

/-- The invariant rule: what holds of the empty run and survives every step that meets `P`
holds of every run whose steps all meet `P`. The invariant may speak about the whole past. -/
theorem run_invariant {P : σ → ε → Prop} {s : σ} (Inv : List ε → Prop) (h0 : Inv [])
    (hstep : ∀ es e, Along step P s es → Inv es → P (run step s es) e → Inv (es ++ [e]))
    {es : List ε} (h : Along step P s es) : Inv es := by
  induction es using List.reverseRecOn with
  | nil => exact h0
  | append_singleton es e ih =>
    obtain ⟨hes, he⟩ := (along_snoc step P s es e).mp h
    exact hstep es e hes (ih hes) he

/-- A preorder on the moments of a run that relates the two ends of every step relates every moment
to every later one. -/
lemma rel_of_isPrefix {R : List ε → List ε → Prop} (hrefl : ∀ es, R es es)
    (htrans : ∀ es₁ es₂ es₃, R es₁ es₂ → R es₂ es₃ → R es₁ es₃) {es es' : List ε}
    (hstep : ∀ es₁ e, es₁ ++ [e] <+: es → R es₁ (es₁ ++ [e])) (hp : es' <+: es) : R es' es := by
  obtain ⟨rest, rfl⟩ := hp
  induction rest using List.reverseRecOn with
  | nil =>
    rw [List.append_nil]
    exact hrefl es'
  | append_singleton rest e ih =>
    rw [← List.append_assoc] at hstep ⊢
    refine htrans _ _ _ (ih fun es₁ e' hp => ?_) (hstep _ e List.prefix_rfl)
    exact hstep es₁ e' (hp.trans (List.prefix_append _ _))

/-- If a good run stays good exactly under a condition on the next step, then a run is good at every
moment exactly if all its steps meet the condition. -/
theorem forall_isPrefix_iff_along {P : σ → ε → Prop} {s : σ} (Good : List ε → Prop)
    (h0 : Good []) {es : List ε}
    (hstep : ∀ es' e, es' ++ [e] <+: es → Good es' → (Good (es' ++ [e]) ↔ P (run step s es') e)) :
    (∀ es', es' <+: es → Good es') ↔ Along step P s es := by
  induction es using List.reverseRecOn with
  | nil =>
    refine iff_of_true (fun es' hp => ?_) trivial
    obtain rfl := List.prefix_nil.mp hp
    exact h0
  | append_singleton es e ih =>
    have hes := List.prefix_append es [e]
    have hrest := ih fun es' e' hp => hstep es' e' (hp.trans hes)
    rw [along_snoc, ← hrest]
    constructor
    · intro h
      exact ⟨fun es' hp => h es' (hp.trans hes),
        (hstep es e List.prefix_rfl (h es hes)).mp (h _ List.prefix_rfl)⟩
    · rintro ⟨h, he⟩ es' hp
      rcases List.prefix_concat_iff.mp hp with rfl | hp
      · exact (hstep es e List.prefix_rfl (h es List.prefix_rfl)).mpr he
      · exact h es' hp

/-- A system whose steps, as far as they meet `Q`, are each matched by some steps of another system,
all of which meet `P`: its runs are matched by runs of the other system, moment by moment. -/
lemma exists_run_of_simulates {σ' ε' : Type*} {step : σ → ε → σ} {step' : σ' → ε' → σ'}
    {Q : σ → ε → Prop} {P : σ' → ε' → Prop} {R : σ → σ' → Prop} {s : σ} {s' : σ'} (h0 : R s s')
    (hstep : ∀ t e es, Q t e → Along step' P s' es → R t (run step' s' es) →
      ∃ more, Along step' P s' (es ++ more) ∧ R (step t e) (run step' s' (es ++ more)))
    {es : List ε} (h : Along step Q s es) :
    ∃ es', Along step' P s' es' ∧ R (run step s es) (run step' s' es') ∧
      ∀ es₁, es₁ <+: es → ∃ es₁', es₁' <+: es' ∧ R (run step s es₁) (run step' s' es₁') := by
  induction es using List.reverseRecOn with
  | nil =>
    refine ⟨[], trivial, h0, fun es₁ hp => ?_⟩
    obtain rfl := List.prefix_nil.mp hp
    exact ⟨[], List.prefix_rfl, h0⟩
  | append_singleton es e ih =>
    obtain ⟨h, he⟩ := (along_snoc _ _ _ _ _).mp h
    obtain ⟨es', halong, hR, hmoments⟩ := ih h
    obtain ⟨more, halong', hR'⟩ := hstep _ e es' he halong hR
    rw [← run_snoc step] at hR'
    refine ⟨es' ++ more, halong', hR', fun es₁ hp => ?_⟩
    rcases List.prefix_concat_iff.mp hp with rfl | hp
    · exact ⟨_, List.prefix_rfl, hR'⟩
    · obtain ⟨es₁', hp', hR₁⟩ := hmoments es₁ hp
      exact ⟨es₁', hp'.trans (List.prefix_append _ _), hR₁⟩

/-! ### Runs seen from a component -/

section

variable {σ' ε' : Type*} (label : σ → ε → Option ε')

/-- The events of a component during a run: each step is at most one of them. -/
def labels (s : σ) : List ε → List ε'
  | [] => []
  | e :: es => (label s e).toList ++ labels (step s e) es

@[simp] lemma labels_nil (s : σ) : labels step label s [] = [] := rfl

@[simp] lemma labels_cons (s : σ) (e : ε) (es : List ε) :
    labels step label s (e :: es) = (label s e).toList ++ labels step label (step s e) es := rfl

lemma labels_append (s : σ) (es es' : List ε) :
    labels step label s (es ++ es') =
      labels step label s es ++ labels step label (run step s es) es' := by
  induction es generalizing s with
  | nil => rfl
  | cons e es ih => simp [ih]

@[simp] lemma labels_snoc (s : σ) (es : List ε) (e : ε) :
    labels step label s (es ++ [e]) =
      labels step label s es ++ (label (run step s es) e).toList := by
  simp [labels_append]

/-- The moments of a run are moments of the component. -/
lemma labels_isPrefix (s : σ) {es es' : List ε} (hp : es' <+: es) :
    labels step label s es' <+: labels step label s es := by
  obtain ⟨rest, rfl⟩ := hp
  rw [labels_append]
  exact List.prefix_append _ _

variable {step label} {step' : σ' → ε' → σ'} {proj : σ → σ'}

/-- A component that makes the labelled steps, and only those, runs through its labels. -/
lemma proj_run (h : ∀ s e, proj (step s e) = (label s e).elim (proj s) (step' (proj s))) (s : σ)
    (es : List ε) : proj (run step s es) = run step' (proj s) (labels step label s es) := by
  induction es generalizing s with
  | nil => rfl
  | cons e es ih =>
    rw [run_cons, ih, h, labels_cons]
    cases label s e <;> rfl

/-- What holds along the component's steps of a run holds along the component's run. -/
lemma Along.labels {P : σ' → ε' → Prop}
    (h : ∀ s e, proj (step s e) = (label s e).elim (proj s) (step' (proj s))) {s : σ}
    {es : List ε} (hP : Along step (fun s e => ∀ e' ∈ label s e, P (proj s) e') s es) :
    Along step' P (proj s) (Lib.labels step label s es) := by
  induction es generalizing s with
  | nil => trivial
  | cons e es ih =>
    have hrest := ih hP.2
    have hfirst := hP.1
    rw [h] at hrest
    rw [labels_cons]
    cases hlabel : label s e with
    | none =>
      rw [hlabel] at hrest
      exact hrest
    | some e' =>
      rw [hlabel] at hrest
      exact ⟨hfirst e' hlabel, hrest⟩

end

/-! ### Steps that may fail -/

section

universe u

variable {α β : Type u} {η η' : Type*}

lemma bind_eq_ok_iff {x : Except η α} {f : α → Except η β} {b : β} :
    x >>= f = .ok b ↔ ∃ a, x = .ok a ∧ f a = .ok b := by
  cases x with
  | error e => simp [bind, Except.bind]
  | ok a => simp [bind, Except.bind]

lemma map_eq_ok_iff {x : Except η α} {f : α → β} {b : β} :
    x.map f = .ok b ↔ ∃ a, x = .ok a ∧ f a = b := by
  cases x <;> simp [Except.map]

/-- Two computations that go on alike after the same beginning. -/
lemma bind_congr_of_ok {x : Except η α} {f g : α → Except η β}
    (h : ∀ a, x = .ok a → f a = g a) : x >>= f = x >>= g := by
  cases x with
  | error e => rfl
  | ok a => exact h a rfl

/-- What can be read back has an encoding of its own. -/
lemma injOn_of_decode {γ : Type*} {encode : α → γ} {decode : γ → Except η α} {s : Set α}
    (h : ∀ a ∈ s, decode (encode a) = .ok a) : Set.InjOn encode s := by
  intro a ha b hb heq
  exact Except.ok.inj ((h a ha).symm.trans ((congrArg decode heq).trans (h b hb)))

@[simp] lemma mapError_eq_ok_iff {x : Except η α} {f : η → η'} {a : α} :
    x.mapError f = .ok a ↔ x = .ok a := by
  cases x <;> simp [Except.mapError]

/-- A loop whose rounds all return collects what they return. -/
lemma mapM_eq_ok {γ : Type*} {f : γ → Except η α} {cs : List γ} {as : List α}
    (h : List.Forall₂ (fun c a => f c = .ok a) cs as) : cs.mapM f = .ok as := by
  induction h with
  | nil => rfl
  | cons hfirst _ ih =>
    rw [List.mapM_cons, hfirst, ih]
    rfl

/-- Decoding a list of encoded elements. -/
lemma mapM_map_eq_ok {γ : Type*} {decode : γ → Except η α} {encode : α → γ} {as : List α}
    (h : ∀ a ∈ as, decode (encode a) = .ok a) : (as.map encode).mapM decode = .ok as :=
  mapM_eq_ok (List.forall₂_map_left_iff.mpr (List.forall₂_same.mpr h))

lemma forall₂_of_mapM_eq_ok {γ : Type*} {f : γ → Except η α} {cs : List γ} {as : List α}
    (h : cs.mapM f = .ok as) : List.Forall₂ (fun c a => f c = .ok a) cs as := by
  induction cs generalizing as with
  | nil =>
    obtain rfl := Except.ok.inj h
    exact .nil
  | cons c cs ih =>
    rw [List.mapM_cons, bind_eq_ok_iff] at h
    obtain ⟨a, hfirst, h⟩ := h
    obtain ⟨as', hrest, h⟩ := bind_eq_ok_iff.mp h
    obtain rfl := Except.ok.inj h
    exact .cons hfirst (ih hrest)

/-- What a loop has collected was returned by one of its rounds. -/
lemma exists_of_mem_mapM {γ : Type*} {f : γ → Except η α} {cs : List γ} {as : List α}
    (h : cs.mapM f = .ok as) {a : α} (ha : a ∈ as) : ∃ c ∈ cs, f c = .ok a := by
  induction forall₂_of_mapM_eq_ok h with
  | nil => simp at ha
  | @cons c a' cs as hfirst hrest ih =>
    rcases List.mem_cons.mp ha with rfl | ha
    · exact ⟨c, List.mem_cons_self, hfirst⟩
    · obtain ⟨c', hc', hf⟩ := ih (mapM_eq_ok hrest) ha
      exact ⟨c', List.mem_cons_of_mem _ hc', hf⟩

/-- The computations of all elements succeed. -/
lemma exists_mapM {γ : Type*} {f : γ → Except η α} {cs : List γ} {P : α → Prop}
    (h : ∀ c ∈ cs, ∃ a, f c = .ok a ∧ P a) : ∃ as, cs.mapM f = .ok as ∧ ∀ a ∈ as, P a := by
  induction cs with
  | nil => exact ⟨[], rfl, by simp⟩
  | cons c cs ih =>
    obtain ⟨a, ha, hPa⟩ := h c List.mem_cons_self
    obtain ⟨as, has, hPas⟩ := ih fun c' hc' => h c' (List.mem_cons_of_mem c hc')
    refine ⟨a :: as, ?_, List.forall_mem_cons.mpr ⟨hPa, hPas⟩⟩
    rw [List.mapM_cons, ha, has]
    rfl

/-- Loops whose rounds differ in their errors only. -/
lemma mapM_mapError {γ : Type*} {f : γ → Except η α} {f' : γ → Except η' α} {g : η → η'}
    {cs : List γ} (h : ∀ c ∈ cs, f' c = (f c).mapError g) :
    cs.mapM f' = (cs.mapM f).mapError g := by
  induction cs with
  | nil => rfl
  | cons c cs ih =>
    rw [List.mapM_cons, List.mapM_cons, h c List.mem_cons_self,
      ih fun c' hc' => h c' (List.mem_cons_of_mem c hc')]
    cases f c with
    | error e => rfl
    | ok a => cases cs.mapM f <;> rfl

/-- The invariant rule for runs that stop at the first failure. -/
lemma foldlM_invariant {step : σ → ε → Except η σ} {Inv : σ → Prop}
    (hstep : ∀ s e s', Inv s → step s e = .ok s' → Inv s') {s s' : σ} {es : List ε} (h : Inv s)
    (hrun : es.foldlM step s = .ok s') : Inv s' := by
  induction es generalizing s with
  | nil => exact Except.ok.inj hrun ▸ h
  | cons e es ih =>
    rw [List.foldlM_cons, bind_eq_ok_iff] at hrun
    obtain ⟨s'', hfirst, hrest⟩ := hrun
    exact ih (hstep s e s'' h hfirst) hrest

/-- Every step of the run satisfies `P` in the state it starts from, up to the first failure. -/
def AlongOk (step : σ → ε → Except η σ) (P : σ → ε → Prop) : σ → List ε → Prop
  | _, [] => True
  | s, e :: es => P s e ∧ ∀ s', step s e = .ok s' → AlongOk step P s' es

lemma AlongOk.of_append {step : σ → ε → Except η σ} {P : σ → ε → Prop} {s : σ} {es es' : List ε}
    (h : AlongOk step P s (es ++ es')) : AlongOk step P s es := by
  induction es generalizing s with
  | nil => trivial
  | cons e es ih => exact ⟨h.1, fun s' hs' => ih (h.2 s' hs')⟩

/-- The last step meets `P` in the state that the others lead to. -/
lemma AlongOk.last {step : σ → ε → Except η σ} {P : σ → ε → Prop} {s s' : σ} {es : List ε} {e : ε}
    (h : AlongOk step P s (es ++ [e])) (hrun : es.foldlM step s = .ok s') : P s' e := by
  induction es generalizing s with
  | nil =>
    obtain rfl := Except.ok.inj hrun
    exact h.1
  | cons e' es ih =>
    rw [List.foldlM_cons, bind_eq_ok_iff] at hrun
    obtain ⟨s'', hfirst, hrest⟩ := hrun
    exact ih (h.2 s'' hfirst) hrest

/-- The invariant rule for runs whose steps meet `P`. -/
lemma AlongOk.foldlM_invariant {step : σ → ε → Except η σ} {P : σ → ε → Prop} {Inv : σ → Prop}
    (hstep : ∀ s e s', Inv s → P s e → step s e = .ok s' → Inv s') {s s' : σ} {es : List ε}
    (h : Inv s) (hP : AlongOk step P s es) (hrun : es.foldlM step s = .ok s') : Inv s' := by
  induction es generalizing s with
  | nil => exact Except.ok.inj hrun ▸ h
  | cons e es ih =>
    rw [List.foldlM_cons, bind_eq_ok_iff] at hrun
    obtain ⟨s'', hfirst, hrest⟩ := hrun
    exact ih (hstep s e s'' h hP.1 hfirst) (hP.2 s'' hfirst) hrest

/-- The invariant rule for runs whose steps meet `P` and then do not fail. -/
lemma AlongOk.exists_foldlM {step : σ → ε → Except η σ} {P : σ → ε → Prop} (Inv : σ → Prop)
    {s : σ} {es : List ε}
    (hstep : ∀ s, ∀ e ∈ es, Inv s → P s e → ∃ s', step s e = .ok s' ∧ Inv s') (h : Inv s)
    (hP : AlongOk step P s es) : ∃ s', es.foldlM step s = .ok s' ∧ Inv s' := by
  induction es generalizing s with
  | nil => exact ⟨s, rfl, h⟩
  | cons e es ih =>
    obtain ⟨s', hfirst, hs'⟩ := hstep s e List.mem_cons_self h hP.1
    rw [List.foldlM_cons, hfirst]
    exact ih (fun s x hx => hstep s x (List.mem_cons_of_mem e hx)) hs' (hP.2 s' hfirst)

instance decidableAlongOk (step : σ → ε → Except η σ) (P : σ → ε → Prop)
    [∀ s e, Decidable (P s e)] : ∀ (s : σ) (es : List ε), Decidable (AlongOk step P s es)
  | _, [] => .isTrue trivial
  | s, e :: es =>
    have : Decidable (∀ s', step s e = .ok s' → AlongOk step P s' es) :=
      match step s e with
      | .error _ => .isTrue fun _ h => nomatch h
      | .ok s' =>
        have := decidableAlongOk step P s' es
        decidable_of_iff (AlongOk step P s' es)
          ⟨fun h _ hs => Except.ok.inj hs ▸ h, fun h => h s' rfl⟩
    inferInstanceAs (Decidable (P s e ∧ ∀ s', step s e = .ok s' → AlongOk step P s' es))

/-- Two computations fail alike, or both return values that are related. -/
def Agree (R : α → β → Prop) : Except η α → Except η β → Prop
  | .ok a, .ok b => R a b
  | .error e, .error e' => e = e'
  | _, _ => False

namespace Agree

variable {α' β' : Type u} {R : α → β → Prop} {S : α' → β' → Prop}

lemma of_eq {x y : Except η α} {R : α → α → Prop} (hR : ∀ a, R a a) (h : x = y) : Agree R x y := by
  subst h
  cases x with
  | error e => exact rfl
  | ok a => exact hR a

lemma cases {x : Except η α} {y : Except η β} (h : Agree R x y) :
    (∃ a b, x = .ok a ∧ y = .ok b ∧ R a b) ∨ ∃ e, x = .error e ∧ y = .error e := by
  cases x with
  | error e =>
    cases y with
    | error e' => exact .inr ⟨e, rfl, congrArg _ h.symm⟩
    | ok b => exact h.elim
  | ok a =>
    cases y with
    | error e' => exact h.elim
    | ok b => exact .inl ⟨a, b, rfl, rfl, h⟩

lemma bind {x : Except η α} {y : Except η β} {f : α → Except η α'} {g : β → Except η β'}
    (h : Agree R x y) (hfg : ∀ a b, x = .ok a → y = .ok b → R a b → Agree S (f a) (g b)) :
    Agree S (x >>= f) (y >>= g) := by
  rcases h.cases with ⟨a, b, rfl, rfl, hab⟩ | ⟨e, rfl, rfl⟩
  · exact hfg a b rfl rfl hab
  · exact rfl

/-- Loops over the same list agree if their bodies do. -/
lemma foldlM {γ : Type*} {f : α → γ → Except η α} {g : β → γ → Except η β} {R : α → β → Prop}
    (hfg : ∀ a b c, R a b → Agree R (f a c) (g b c)) (cs : List γ) {a : α} {b : β} (h : R a b) :
    Agree R (cs.foldlM f a) (cs.foldlM g b) := by
  induction cs generalizing a b with
  | nil => exact h
  | cons c cs ih =>
    rw [List.foldlM_cons, List.foldlM_cons]
    exact (hfg a b c h).bind fun a' b' _ _ => ih

end Agree

end

end Raftrust.Lib
