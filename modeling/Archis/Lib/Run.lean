/-
  Runs of a machine.

  A step takes a state and an input to the next state, or stops the machine for good (a panic).
    * `exec` feeds a list of inputs to the machine, and `Along ok` says that all its steps meet `ok`;
    * `exec_induction` is the invariant rule, `exec_progress` the rule for runs that do not stop;
    * `Yields` is the specification of one call whose loops have a bound.
-/
import Mathlib

namespace Archis.Lib

variable {σ ι : Type*} {step : σ → ι → Option σ} {ok : σ → ι → Prop} {i : ι} {is : List ι} {I : σ → Prop}

/-- The state after the inputs, unless a step stops the machine. -/
def exec (step : σ → ι → Option σ) : σ → List ι → Option σ
  | s, [] => some s
  | s, i :: is => (step s i).bind fun t => exec step t is

/-- Every step of the run meets `ok`. -/
def Along (step : σ → ι → Option σ) (ok : σ → ι → Prop) : σ → List ι → Prop
  | _, [] => True
  | s, i :: is => ok s i ∧ ∀ t, step s i = some t → Along step ok t is

instance [∀ s i, Decidable (ok s i)] : ∀ s is, Decidable (Along step ok s is)
  | _, [] => inferInstanceAs (Decidable True)
  | s, i :: is =>
    match h : step s i with
    | none => decidable_of_iff (ok s i) ⟨fun hok => ⟨hok, fun t ht => by rw [h] at ht; cases ht⟩, (·.1)⟩
    | some t =>
      have := instDecidableAlong t is
      decidable_of_iff (ok s i ∧ Along step ok t is)
        ⟨fun ⟨hok, hrest⟩ => ⟨hok, fun t' ht' => by rw [h] at ht'; cases ht'; exact hrest⟩,
          fun ⟨hok, hrest⟩ => ⟨hok, hrest t h⟩⟩

theorem exec_cons {s : σ} {t : σ} :
    exec step s (i :: is) = some t ↔ ∃ u, step s i = some u ∧ exec step u is = some t :=
  Option.bind_eq_some_iff

theorem Along.cons {s t : σ} (hok : ok s i) (hstep : step s i = some t)
    (h : Along step ok t is) : Along step ok s (i :: is) := by
  refine ⟨hok, fun t' ht' => ?_⟩
  obtain rfl : t = t' := by rw [hstep] at ht'; exact Option.some.inj ht'
  exact h

theorem Along.of_forall : ∀ {s : σ} {is : List ι}, (∀ i ∈ is, ∀ u, ok u i) → Along step ok s is
  | _, [], _ => trivial
  | s, i :: _, h => ⟨h i (by simp) s, fun _ _ => .of_forall fun j hj => h j (by simp [hj])⟩

theorem Along.mono {ok' : σ → ι → Prop} (hmono : ∀ s i, ok s i → ok' s i) :
    ∀ {s : σ} {is : List ι}, Along step ok s is → Along step ok' s is
  | _, [], _ => trivial
  | s, i :: _, ⟨hok, hrest⟩ => ⟨hmono s i hok, fun t ht => (hrest t ht).mono hmono⟩

/-- **The invariant rule.**  What every step that meets `ok` keeps holds after every run whose
steps meet `ok`. -/
theorem exec_induction (hstep : ∀ s i t, I s → ok s i → step s i = some t → I t) :
    ∀ {s : σ} {is : List ι} {t : σ}, I s → Along step ok s is → exec step s is = some t → I t
  | s, [], t, hs, _, h => by
    simp only [exec, Option.some.injEq] at h
    rw [← h]; exact hs
  | s, i :: is, t, hs, ⟨hok, hrest⟩, h => by
    obtain ⟨u, hu, ht⟩ := exec_cons.1 h
    exact exec_induction hstep (hstep s i u hs hok hu) (hrest u hu) ht

/-- **The progress rule**: if the steps that meet `ok` keep the invariant and do not stop the machine, no run of
them stops. -/
theorem exec_progress (hstep : ∀ s i, I s → ok s i → ∃ t, step s i = some t ∧ I t) :
    ∀ {s : σ} {is : List ι}, I s → Along step ok s is → ∃ t, exec step s is = some t ∧ I t
  | s, [], hs, _ => ⟨s, rfl, hs⟩
  | s, i :: is, hs, ⟨hok, hrest⟩ => by
    obtain ⟨u, hu, hI⟩ := hstep s i hs hok
    obtain ⟨t, ht, hI'⟩ := exec_progress hstep hI (hrest u hu)
    exact ⟨t, exec_cons.2 ⟨u, hu, ht⟩, hI'⟩

/-- A run goes on exactly as long as its steps meet the condition under which they can be taken. -/
theorem exec_isSome_iff (hstep : ∀ s i, (step s i).isSome = true ↔ ok s i) :
    ∀ {s : σ} {is : List ι}, (exec step s is).isSome = true ↔ Along step ok s is
  | _, [] => by simp [exec, Along]
  | s, i :: is => by
    rw [exec, Along, ← hstep s i]
    cases step s i with
    | none => simp
    | some t => simpa using exec_isSome_iff hstep

/-- **Two conditions along a run**: where they agree under an invariant that the steps keep, they agree on runs.
-/
theorem along_congr {ok' dom : σ → ι → Prop} (hI : ∀ s i t, I s → dom s i → ok s i →
    step s i = some t → I t) (hiff : ∀ s i, I s → dom s i → (ok' s i ↔ ok s i)) :
    ∀ {s : σ} {is : List ι}, I s → Along step dom s is → (Along step ok' s is ↔ Along step ok s is)
  | _, [], _, _ => Iff.rfl
  | s, i :: is, hs, ⟨hdom, hrest⟩ => by
    constructor
    · rintro ⟨h, hnext⟩
      have hok := (hiff s i hs hdom).1 h
      exact ⟨hok, fun t ht =>
        (along_congr hI hiff (hI s i t hs hdom hok ht) (hrest t ht)).1 (hnext t ht)⟩
    · rintro ⟨hok, hnext⟩
      exact ⟨(hiff s i hs hdom).2 hok, fun t ht =>
        (along_congr hI hiff (hI s i t hs hdom hok ht) (hrest t ht)).2 (hnext t ht)⟩

/-- What the call returns meets `P`, and it returns if `r` holds. -/
def Yields {α : Type*} (r : Prop) (o : Option α) (P : α → Prop) : Prop := (r → o.isSome) ∧ ∀ a, o = some a → P a

namespace Yields

variable {α β : Type*} {r r' : Prop} {o : Option α} {P P' : α → Prop} {Q : β → Prop}

protected theorem some {a : α} (h : P a) : Yields r (some a) P := ⟨fun _ => rfl, fun _ ha => Option.some.inj ha ▸ h⟩

protected theorem none (h : ¬ r) : Yields r none P := ⟨fun hr => absurd hr h, fun _ ha => by cases ha⟩

theorem cases (h : Yields r o P) : (¬ r ∧ o = none) ∨ ∃ a, o = some a ∧ P a := by
  cases o with
  | none => exact .inl ⟨fun hr => absurd (h.1 hr) (by simp), rfl⟩
  | some a => exact .inr ⟨a, rfl, h.2 a rfl⟩

theorem mono (h : Yields r o P) (hr : r' → r) (hP : ∀ a, P a → P' a) : Yields r' o P' :=
  ⟨fun h' => h.1 (hr h'), fun a ha => hP a (h.2 a ha)⟩

theorem bind {f : α → Option β} (h : Yields r o P) (hf : ∀ a, P a → Yields r (f a) Q) : Yields r (o.bind f) Q := by
  rcases h.cases with ⟨hr, rfl⟩ | ⟨a, rfl, ha⟩
  · exact .none hr
  · exact hf a ha

theorem map {f : α → β} (h : Yields r o P) (hf : ∀ a, P a → Q (f a)) : Yields r (o.map f) Q := by
  rcases h.cases with ⟨hr, rfl⟩ | ⟨a, rfl, ha⟩
  · exact .none hr
  · exact .some (hf a ha)

end Yields

end Archis.Lib
