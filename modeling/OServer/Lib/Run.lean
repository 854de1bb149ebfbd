/-
  OServer/Lib/Run.lean
  ====================
  **Runs of a step function, invariants and refinement.**

  A system takes one action after the other.  A step may break (`none`), and it
  may emit observations.  What the environment is trusted with is a predicate on
  the state and the next action.

    * `Reachable.invariant`       — what every allowed step keeps holds in every
                                    reachable state;
    * `Reachable.map`             — a system that can be followed in another one;
    * `run_history`               — what every allowed step keeps of the state and of what
                                    has been observed, every allowed run keeps;
    * `allowed_of_invariant`      — runs that are allowed because of an invariant;
    * `run_length_le`             — runs that bring a measure down end;
    * `logged`                    — the system with its history;
    * `Refines.run`               — a system that refines a specification never
                                    breaks in an allowed run and emits what the
                                    specification says;
    * `Refines.allowed_iff`       — whether a run is allowed can be read off the
                                    specification;
    * `Refines.run_filter_silent` — actions the specification ignores can be
                                    dropped from a run without being noticed;
    * `Agrees.run`                — two systems whose steps do the same have the same
                                    runs.
-/
import Mathlib.Tactic.Common

namespace Run

variable {S T A O : Type*}

/-! ## 1. Runs -/

section Runs
variable (step : S → A → Option (S × List O)) (allow : S → A → Prop)

/-- Take the actions in turn and collect what is observed. -/
def run : List A → S → Option (S × List O)
  | [], s => some (s, [])
  | a :: as, s => do
      let r ← step s a
      let u ← run as r.1
      some (u.1, r.2 ++ u.2)

variable {step} in
theorem run_cons {a : A} {as : List A} {s : S} {r : S × List O} :
    run step (a :: as) s = some r ↔
      ∃ r₁ r₂, step s a = some r₁ ∧ run step as r₁.1 = some r₂ ∧ r = (r₂.1, r₁.2 ++ r₂.2) := by
  simp only [run, Option.bind_eq_bind, Option.bind_eq_some_iff, Option.some.injEq]
  constructor
  · rintro ⟨r₁, hstep, r₂, hrun, rfl⟩
    exact ⟨r₁, r₂, hstep, hrun, rfl⟩
  · rintro ⟨r₁, r₂, hstep, hrun, rfl⟩
    exact ⟨r₁, hstep, r₂, hrun, rfl⟩

variable {step} in
theorem run_append {as bs : List A} {s : S} {r r' : S × List O} (h : run step as s = some r)
    (h' : run step bs r.1 = some r') : run step (as ++ bs) s = some (r'.1, r.2 ++ r'.2) := by
  induction as generalizing s r with
  | nil =>
    cases h
    exact h'
  | cons a as ih =>
    obtain ⟨r₁, r₂, hstep, htail, rfl⟩ := run_cons.mp h
    refine run_cons.mpr ⟨r₁, _, hstep, ih htail h', ?_⟩
    rw [List.append_assoc]

/-- Every action is allowed in the state in which it is taken. -/
def Allowed : List A → S → Prop
  | [], _ => True
  | a :: as, s => allow s a ∧ ∀ r, step s a = some r → Allowed as r.1

/-- States reached from an initial one by allowed actions. -/
inductive Reachable (init : S → Prop) : S → Prop where
  | init {s : S} (h : init s) : Reachable init s
  | step {s : S} {a : A} {r : S × List O} (h : Reachable init s) (ha : allow s a)
      (hr : step s a = some r) : Reachable init r.1

end Runs

section Reachable
variable {step : S → A → Option (S × List O)} {allow : S → A → Prop} {init : S → Prop}

/-- The induction behind every safety property. -/
theorem Reachable.invariant {P : S → Prop} (hinit : ∀ s, init s → P s)
    (hstep : ∀ s a r, P s → allow s a → step s a = some r → P r.1) {s : S}
    (h : Reachable step allow init s) : P s := by
  induction h with
  | init h => exact hinit _ h
  | step _ ha hr ih => exact hstep _ _ _ ih ha hr

/-- A run leads from one reachable state to another. -/
theorem Reachable.run {as : List A} {s : S} {r : S × List O} (h : Reachable step allow init s)
    (hall : Allowed step allow as s) (hr : Run.run step as s = some r) :
    Reachable step allow init r.1 := by
  induction as generalizing s r with
  | nil =>
    cases hr
    exact h
  | cons a as ih =>
    obtain ⟨r₁, r₂, hstep, htail, rfl⟩ := run_cons.mp hr
    exact ih (r := r₂) (h.step hall.1 hstep) (hall.2 r₁ hstep) htail

/-- A system whose steps can be followed in another one. -/
theorem Reachable.map {step' : T → A → Option (T × List O)} {allow' : T → A → Prop}
    {init' : T → Prop} (f : S → T) (hinit : ∀ s, init s → init' (f s))
    (hstep : ∀ s a r, Reachable step allow init s → allow s a → step s a = some r →
      allow' (f s) a ∧ step' (f s) a = some (f r.1, r.2)) {s : S}
    (h : Reachable step allow init s) : Reachable step' allow' init' (f s) := by
  induction h with
  | init h => exact .init (hinit _ h)
  | step h ha hr ih =>
    obtain ⟨ha', hr'⟩ := hstep _ _ _ h ha hr
    exact ih.step ha' hr'

theorem allowed_true (as : List A) (s : S) : Allowed step (fun _ _ => True) as s := by
  induction as generalizing s with
  | nil => trivial
  | cons a as ih => exact ⟨trivial, fun r _ => ih r.1⟩

theorem allowed_of_forall {down : A → Prop} {as : List A} (h : ∀ a ∈ as, down a) (s : S) :
    Allowed step (fun _ => down) as s := by
  induction as generalizing s with
  | nil => trivial
  | cons a as ih =>
    exact ⟨h a List.mem_cons_self, fun r _ => ih (fun b hb => h b (List.mem_cons_of_mem a hb)) r.1⟩

theorem allowed_cons {a : A} {as : List A} {s : S} {r : S × List O} (ha : allow s a)
    (hr : step s a = some r) (h : Allowed step allow as r.1) : Allowed step allow (a :: as) s := by
  refine ⟨ha, fun r' hr' => ?_⟩
  obtain rfl : r = r' := Option.some.inj (hr.symm.trans hr')
  exact h

theorem allowed_append {as bs : List A} {s : S} (h : Allowed step allow as s)
    (h' : ∀ r, Run.run step as s = some r → Allowed step allow bs r.1) :
    Allowed step allow (as ++ bs) s := by
  induction as generalizing s with
  | nil => exact h' (s, []) rfl
  | cons a as ih =>
    refine ⟨h.1, fun r₁ hr₁ => ih (h.2 r₁ hr₁) fun r hr => ?_⟩
    exact h' (r.1, r₁.2 ++ r.2) (run_cons.mpr ⟨r₁, r, hr₁, hr, rfl⟩)

/-- Where an invariant makes every action allowed, so is every run. -/
theorem allowed_of_invariant {P : S → Prop} {as : List A} (hallow : ∀ s, ∀ a ∈ as, P s → allow s a)
    (hstep : ∀ s, ∀ a ∈ as, ∀ r, P s → step s a = some r → P r.1) {s : S} (h : P s) :
    Allowed step allow as s := by
  induction as generalizing s with
  | nil => trivial
  | cons a as ih =>
    refine ⟨hallow s a List.mem_cons_self h, fun r hr => ih ?_ ?_ ?_⟩
    · exact fun s b hb => hallow s b (List.mem_cons_of_mem a hb)
    · exact fun s b hb => hstep s b (List.mem_cons_of_mem a hb)
    · exact hstep s a List.mem_cons_self r h hr

/-- The induction over a run, with all that has been observed. -/
theorem run_history {P : S → List O → Prop}
    (hstep : ∀ s past a r, P s past → allow s a → step s a = some r → P r.1 (past ++ r.2))
    {as : List A} {s : S} (past : List O) {r : S × List O} (h : P s past)
    (hall : Allowed step allow as s) (hr : Run.run step as s = some r) : P r.1 (past ++ r.2) := by
  induction as generalizing s past r with
  | nil =>
    cases hr
    rwa [List.append_nil]
  | cons a as ih =>
    obtain ⟨r₁, r₂, hr₁, htail, rfl⟩ := run_cons.mp hr
    have hlast := ih _ (hstep s past a r₁ h hall.1 hr₁) (hall.2 r₁ hr₁) htail
    rwa [List.append_assoc] at hlast

theorem run_invariant {P : S → Prop} (hstep : ∀ s a r, P s → allow s a → step s a = some r → P r.1)
    {as : List A} {s : S} {r : S × List O} (h : P s) (hall : Allowed step allow as s)
    (hr : Run.run step as s = some r) : P r.1 :=
  run_history (P := fun s _ => P s) (fun s _ => hstep s) [] h hall hr

/-- Runs of actions that bring a measure down end. -/
theorem run_length_le {measure : S → Nat → Prop}
    (hstep : ∀ s a r k, measure s k → allow s a → step s a = some r → ∃ k' < k, measure r.1 k')
    {as : List A} {s : S} {k : Nat} {r : S × List O} (hs : measure s k)
    (hall : Allowed step allow as s) (hrun : Run.run step as s = some r) :
    ∃ k', measure r.1 k' ∧ as.length + k' ≤ k := by
  induction as generalizing s k r with
  | nil =>
    cases hrun
    exact ⟨k, hs, by simp⟩
  | cons a as ih =>
    obtain ⟨r₁, r₂, hr₁, htail, rfl⟩ := run_cons.mp hrun
    obtain ⟨k₁, hlt, hs₁⟩ := hstep s a r₁ k hs hall.1 hr₁
    obtain ⟨k₂, hs₂, hle⟩ := ih (r := r₂) hs₁ (hall.2 r₁ hr₁) htail
    refine ⟨k₂, hs₂, ?_⟩
    rw [List.length_cons]
    omega

/-- A step of a state that goes with everything observed so far. -/
def logged (step : S → A → Option (S × List O)) (x : S × List O) (a : A) :
    Option ((S × List O) × List O) :=
  (step x.1 a).map fun r => ((r.1, x.2 ++ r.2), r.2)

theorem logged_eq_some {x : S × List O} {a : A} {r : (S × List O) × List O}
    (h : logged step x a = some r) :
    ∃ s' obs, step x.1 a = some (s', obs) ∧ r = ((s', x.2 ++ obs), obs) := by
  simp only [logged, Option.map_eq_some_iff] at h
  rcases h with ⟨⟨s', obs⟩, hstep, rfl⟩
  exact ⟨s', obs, hstep, rfl⟩

/-- The observations do not restrict the states. -/
theorem Reachable.of_logged {allow : S × List O → A → Prop} {x : S × List O}
    (h : Reachable (logged step) allow (fun x => init x.1 ∧ x.2 = []) x) :
    Reachable step (fun _ _ => True) init x.1 := by
  induction h with
  | init h => exact .init h.1
  | step _ _ hr ih =>
    rcases logged_eq_some hr with ⟨s', obs, hstep, rfl⟩
    exact .step (r := (s', obs)) ih trivial hstep

end Reachable

/-! ## 2. Refinement of a specification that never breaks -/

/-- The run of a total step function. -/
def runSpec (spec : T → A → T × List O) : List A → T → T × List O
  | [], τ => (τ, [])
  | a :: as, τ =>
      let u := runSpec spec as (spec τ a).1
      (u.1, (spec τ a).2 ++ u.2)

/-- A silent action changes nothing and shows nothing. -/
def Silent (spec : T → A → T × List O) (silent : A → Bool) : Prop :=
  ∀ τ a, silent a → spec τ a = (τ, [])

theorem runSpec_filter {spec : T → A → T × List O} {silent : A → Bool}
    (hs : Silent spec silent) (as : List A) (τ : T) :
    runSpec spec (as.filter fun a => !silent a) τ = runSpec spec as τ := by
  induction as generalizing τ with
  | nil => rfl
  | cons a as ih =>
    cases ha : silent a with
    | true =>
      have hspec := hs τ a ha
      simp [ha, ih, runSpec, hspec]
    | false => simp [ha, ih, runSpec]

/-- `step` does what `spec` says on states related by `R`; the two agree on which
    actions are allowed. -/
structure Refines (step : S → A → Option (S × List O)) (allow : S → A → Prop)
    (spec : T → A → T × List O) (ok : T → A → Prop) (R : S → T → Prop) : Prop where
  allow_iff : ∀ {s τ} (a), R s τ → (allow s a ↔ ok τ a)
  step : ∀ {s τ} (a), R s τ → ok τ a →
    ∃ s', step s a = some (s', (spec τ a).2) ∧ R s' (spec τ a).1

section Refines
variable {step : S → A → Option (S × List O)} {allow : S → A → Prop}
  {spec : T → A → T × List O} {ok : T → A → Prop} {R : S → T → Prop}

theorem Refines.run (h : Refines step allow spec ok R) {as : List A} {s : S} {τ : T}
    (hR : R s τ) (hall : Allowed step allow as s) :
    ∃ s', Run.run step as s = some (s', (runSpec spec as τ).2) ∧ R s' (runSpec spec as τ).1 := by
  induction as generalizing s τ with
  | nil => exact ⟨s, rfl, hR⟩
  | cons a as ih =>
    rcases h.step a hR ((h.allow_iff a hR).mp hall.1) with ⟨s₁, hs₁, hR₁⟩
    rcases ih hR₁ (hall.2 _ hs₁) with ⟨s₂, hs₂, hR₂⟩
    exact ⟨s₂, by simp [Run.run, runSpec, hs₁, hs₂], hR₂⟩

theorem Refines.reachable (h : Refines step allow spec ok R) {init : S → Prop}
    (hinit : ∀ s, init s → ∃ τ, R s τ) {s : S} (hs : Reachable step allow init s) :
    ∃ τ, R s τ := by
  refine hs.invariant (P := fun s => ∃ τ, R s τ) hinit ?_
  rintro s a r ⟨τ, hR⟩ ha hr
  rcases h.step a hR ((h.allow_iff a hR).mp ha) with ⟨s', hs', hR'⟩
  obtain rfl : r = _ := Option.some.inj (hr.symm.trans hs')
  exact ⟨_, hR'⟩

/-- What is allowed can be read off the specification. -/
theorem Refines.allowed_iff (h : Refines step allow spec ok R) {as : List A} {s : S} {τ : T}
    (hR : R s τ) :
    Allowed step allow as s ↔ Allowed (fun τ a => some (spec τ a)) ok as τ := by
  induction as generalizing s τ with
  | nil => exact Iff.rfl
  | cons a as ih =>
    have hnext : ok τ a → ((∀ r, step s a = some r → Allowed step allow as r.1) ↔
        ∀ u, some (spec τ a) = some u → Allowed (fun τ a => some (spec τ a)) ok as u.1) := by
      intro hok
      obtain ⟨s', hs', hR'⟩ := h.step a hR hok
      constructor
      · intro hall u hu
        obtain rfl := Option.some.inj hu
        exact (ih hR').mp (hall _ hs')
      · intro hall r hr
        obtain rfl : r = _ := Option.some.inj (hr.symm.trans hs')
        exact (ih hR').mpr (hall _ rfl)
    constructor
    · rintro ⟨ha, hall⟩
      have hok := (h.allow_iff a hR).mp ha
      exact ⟨hok, (hnext hok).mp hall⟩
    · rintro ⟨hok, hall⟩
      exact ⟨(h.allow_iff a hR).mpr hok, (hnext hok).mpr hall⟩

/-- A run stays allowed when silent actions are put in. -/
theorem Refines.allowed_of_filter (h : Refines step allow spec ok R) {silent : A → Bool}
    (hs : Silent spec silent) (hok : ∀ τ a, silent a → ok τ a) {as : List A} {s u : S} {τ : T}
    (hR : R s τ) (hRu : R u τ) (hall : Allowed step allow (as.filter fun a => !silent a) u) :
    Allowed step allow as s := by
  induction as generalizing s u τ with
  | nil => trivial
  | cons a as ih =>
    have hnext : ∀ {r}, ok τ a → step s a = some r → R r.1 (spec τ a).1 := by
      intro r ha hr
      rcases h.step a hR ha with ⟨s', hs', hR'⟩
      obtain rfl : r = _ := Option.some.inj (hr.symm.trans hs')
      exact hR'
    cases ha : silent a with
    | true =>
      simp only [List.filter_cons, ha, Bool.not_true, Bool.false_eq_true, if_false] at hall
      refine ⟨(h.allow_iff a hR).mpr (hok τ a ha), ?_⟩
      intro r hr
      have hr' := hnext (hok τ a ha) hr
      rw [hs τ a ha] at hr'
      exact ih hr' hRu hall
    | false =>
      simp only [List.filter_cons, ha, Bool.not_false, if_true] at hall
      have hoka := (h.allow_iff a hRu).mp hall.1
      rcases h.step a hRu hoka with ⟨u', hu', hRu'⟩
      exact ⟨(h.allow_iff a hR).mpr hoka, fun r hr => ih (hnext hoka hr) hRu' (hall.2 _ hu')⟩

/-- **Silent actions are not noticed**: with them or without, the run does not
    break and the observations are the same. -/
theorem Refines.run_filter_silent (h : Refines step allow spec ok R) {silent : A → Bool}
    (hs : Silent spec silent) (hok : ∀ τ a, silent a → ok τ a) {as : List A} {s : S} {τ : T}
    (hR : R s τ) (hall : Allowed step allow (as.filter fun a => !silent a) s) :
    ∃ s₁ s₂ obs, Run.run step as s = some (s₁, obs) ∧
      Run.run step (as.filter fun a => !silent a) s = some (s₂, obs) := by
  rcases h.run hR (h.allowed_of_filter hs hok hR hR hall) with ⟨s₁, hs₁, -⟩
  rcases h.run hR hall with ⟨s₂, hs₂, -⟩
  rw [runSpec_filter hs] at hs₂
  exact ⟨s₁, s₂, _, hs₁, hs₂⟩

end Refines

/-! ## 3. Two step functions that do the same -/

/-- On states related by `R` both systems break, or both go on, observe the same and come to
    related states. -/
structure Agrees (step : S → A → Option (S × List O)) (step' : T → A → Option (T × List O))
    (R : S → T → Prop) : Prop where
  breaks : ∀ {s t} (a), R s t → step' t a = none → step s a = none
  goes : ∀ {s t t' o} (a), R s t → step' t a = some (t', o) → ∃ s', step s a = some (s', o) ∧ R s' t'

section Agrees
variable {step : S → A → Option (S × List O)} {step' : T → A → Option (T × List O)}
  {R : S → T → Prop}

theorem Agrees.follows (h : Agrees step step' R) {s : S} {t : T} {a : A} {r : S × List O}
    (hR : R s t) (hr : step s a = some r) : ∃ t', step' t a = some (t', r.2) ∧ R r.1 t' := by
  cases hstep : step' t a with
  | none => simp [h.breaks a hR hstep] at hr
  | some u =>
    obtain ⟨s', hs', hR'⟩ := h.goes a hR hstep
    obtain rfl : r = _ := Option.some.inj (hr.symm.trans hs')
    exact ⟨u.1, rfl, hR'⟩

theorem Agrees.run (h : Agrees step step' R) {as : List A} {s : S} {t : T} {r : S × List O}
    (hR : R s t) (hr : Run.run step as s = some r) :
    ∃ t', Run.run step' as t = some (t', r.2) ∧ R r.1 t' := by
  induction as generalizing s t r with
  | nil =>
    cases hr
    exact ⟨t, rfl, hR⟩
  | cons a as ih =>
    obtain ⟨r₁, r₂, hstep, htail, rfl⟩ := run_cons.mp hr
    obtain ⟨t₁, ht₁, hR₁⟩ := h.follows hR hstep
    obtain ⟨t₂, ht₂, hR₂⟩ := ih hR₁ htail
    exact ⟨t₂, run_cons.mpr ⟨_, _, ht₁, ht₂, rfl⟩, hR₂⟩

theorem Agrees.reachable (h : Agrees step step' R) {init : S → Prop} {init' : T → Prop}
    (hinit : ∀ s, init s → ∃ t, init' t ∧ R s t) {s : S}
    (hs : Reachable step (fun _ _ => True) init s) :
    ∃ t, Reachable step' (fun _ _ => True) init' t ∧ R s t := by
  induction hs with
  | init hs =>
    obtain ⟨t, ht, hR⟩ := hinit _ hs
    exact ⟨t, .init ht, hR⟩
  | step _ _ hr ih =>
    obtain ⟨t, ht, hR⟩ := ih
    obtain ⟨t', ht', hR'⟩ := h.follows hR hr
    exact ⟨t', ht.step trivial ht', hR'⟩

end Agrees

end Run
