/-
  Pre- and postconditions for code that keeps its state when it fails.

  `EStateM ε σ` is the monad of such code.  `wp x Q E s`: `x`, run from `s`, returns a value and a state that meet `Q`,
  or fails with an error and a state that meet `E`.  The rules follow the code: `wp_bind` for a sequence, `wp_get` and
  `wp_modify` for the state, `wp.mono` for consequence.  `Sure x P` is the case of code that fails from no state.
-/
import Mathlib

namespace Archis.Lib

variable {ε σ α β : Type} {s : σ} {Q Q' : α → σ → Prop} {E E' : ε → σ → Prop}

/-- `x`, run from `s`, returns with `Q` or fails with `E`. -/
def wp (x : EStateM ε σ α) (Q : α → σ → Prop) (E : ε → σ → Prop) (s : σ) : Prop :=
  match x s with
  | .ok a t => Q a t
  | .error e t => E e t

/-- A specification can be run. -/
instance (x : EStateM ε σ α) [∀ a t, Decidable (Q a t)] [∀ e t, Decidable (E e t)] (s : σ) : Decidable (wp x Q E s) :=
  match h : x s with
  | .ok a t => decidable_of_iff (Q a t) (by rw [wp, h])
  | .error e t => decidable_of_iff (E e t) (by rw [wp, h])

@[simp] theorem wp_pure {a : α} : wp (pure a : EStateM ε σ α) Q E s ↔ Q a s := Iff.rfl

@[simp] theorem wp_throw {e : ε} : wp (throw e : EStateM ε σ α) Q E s ↔ E e s := Iff.rfl

variable {x : EStateM ε σ β} {f : β → EStateM ε σ α} {t : σ} {R : β → σ → Prop}

@[simp] theorem wp_bind : wp (x >>= f) Q E s ↔ wp x (fun b => wp (f b) Q E) E s := by
  simp only [wp, bind, EStateM.bind]
  cases x s <;> rfl

theorem get_ok : (get : EStateM ε σ σ) s = .ok s s := rfl

@[simp] theorem wp_get {Q : σ → σ → Prop} : wp (get : EStateM ε σ σ) Q E s ↔ Q s s := Iff.rfl

@[simp] theorem wp_set {Q : PUnit → σ → Prop} : wp (set t : EStateM ε σ PUnit) Q E s ↔ Q ⟨⟩ t :=
  Iff.rfl

@[simp] theorem wp_modify {f : σ → σ} {Q : PUnit → σ → Prop} :
    wp (modify f : EStateM ε σ PUnit) Q E s ↔ Q ⟨⟩ (f s) := Iff.rfl

theorem wp.mono {x : EStateM ε σ α} (h : wp x Q E s) (hQ : ∀ a t, Q a t → Q' a t)
    (hE : ∀ e t, E e t → E' e t) : wp x Q' E' s := by
  unfold wp at h ⊢
  cases hx : x s with
  | ok a t => rw [hx] at h; exact hQ a t h
  | error e t => rw [hx] at h; exact hE e t h

theorem wp.imp {x : EStateM ε σ α} (h : wp x Q E s) (hQ : ∀ a t, Q a t → Q' a t) : wp x Q' E s :=
  h.mono hQ fun _ _ => id

theorem wp.seq (h : wp x R (fun _ _ => False) s) (hf : ∀ b t, R b t → wp (f b) Q E t) : wp (x >>= f) Q E s :=
  wp_bind.2 (h.mono hf fun _ _ hF => hF.elim)

theorem wp.seq' {E' : ε → σ → Prop} (h : wp x R E' s) (hf : ∀ b t, R b t →
    wp (f b) Q E t) (hE : ∀ e t, E' e t → E e t) : wp (x >>= f) Q E s :=
  wp_bind.2 (h.mono hf hE)

theorem wp_bind_assoc {γ : Type} {f : β → EStateM ε σ γ} {g : γ → EStateM ε σ α} :
    wp (x >>= fun b => f b >>= g) Q E s ↔ wp ((x >>= f) >>= g) Q E s := by
  rw [bind_assoc]

/-- What is true of a run, from what is true of every end of it. -/
theorem wp_iff {x : EStateM ε σ α} :
    wp x Q E s ↔ (∀ a t, x s = .ok a t → Q a t) ∧ ∀ e t, x s = .error e t → E e t := by
  unfold wp
  cases hx : x s with
  | ok a t => simp
  | error e t => simp

theorem wp_of_ok {x : EStateM ε σ α} {a : α} (h : x s = .ok a t) : wp x Q E s ↔ Q a t := by
  unfold wp; rw [h]

theorem exists_of_wp {x : EStateM ε σ α} (h : wp x Q (fun _ _ => False) s) : ∃ a t, x s = .ok a t ∧ Q a t := by
  unfold wp at h
  cases hx : x s with
  | ok a t => rw [hx] at h; exact ⟨a, t, rfl, h⟩
  | error e t => rw [hx] at h; exact h.elim

/-! ## Code that does not fail -/

/-- `x` does not fail, whatever the state is, and its value meets `P`. -/
def Sure (x : EStateM ε σ α) (P : α → Prop) : Prop := ∀ s, wp x (fun a _ => P a) (fun _ _ => False) s

namespace Sure

variable {x : EStateM ε σ α} {P P' : α → Prop} {R : β → Prop}

theorem pure {a : α} (h : P a) : Sure (Pure.pure a : EStateM ε σ α) P := fun _ => h

theorem mono (h : Sure x P) (hP : ∀ a, P a → P' a) : Sure x P' := fun s => (h s).mono (fun a _ => hP a) fun _ _ => id

theorem bind {f : α → EStateM ε σ β} (h : Sure x P) (hf : ∀ a, P a → Sure (f a) R) : Sure (x >>= f) R :=
  fun s => (h s).seq fun a t ha => hf a ha t

theorem ite {y : EStateM ε σ α} {c : Prop} [Decidable c] (h : c → Sure x P) (h' : ¬ c → Sure y P) :
    Sure (if c then x else y) P := by
  split_ifs with hc
  · exact h hc
  · exact h' hc

/-- The rule for loops over a list, with an invariant in the number of steps. -/
theorem foldlM {γ : Type} {f : α → γ → EStateM ε σ α} (I : ℕ → α → Prop) :
    ∀ (l : List γ) (n : ℕ) (a : α), (∀ k c a, c ∈ l → k < n + l.length → I k a → Sure (f a c) (I (k + 1))) → I n a →
      Sure (l.foldlM f a) (I (n + l.length))
  | [], n, a, _, h => Sure.pure h
  | c :: l, n, a, hf, h => by
    rw [List.foldlM_cons, List.length_cons, show n + (l.length + 1) = n + 1 + l.length by omega]
    refine (hf n c a (.head _) (by simp) h).bind fun b hb => ?_
    refine foldlM I l (n + 1) b (fun k c' a' hc' hk => hf k c' a' (.tail _ hc') ?_) hb
    rw [List.length_cons]
    omega

end Sure

end Archis.Lib
