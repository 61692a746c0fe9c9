/-
  Paths with `/` between their names.

    * `components` are the names in a path, whatever slashes are between and around them;
    * `render` is the one spelling of an absolute path with these names, and `components_render` reads it back;
    * a name (`IsName`) is not empty and has no slash.
-/
import Mathlib

namespace Archis.Lib

open List

def components (path : List Char) : List (List Char) := (path.splitOn '/').filter (· ≠ [])

def render (cs : List (List Char)) : List Char :=
  if cs = [] then ['/'] else cs.flatMap fun c => '/' :: c

def joinSlash (cs : List (List Char)) : List Char := ['/'].intercalate cs

def IsName (c : List Char) : Prop := c ≠ [] ∧ '/' ∉ c

instance (c : List Char) : Decidable (IsName c) := inferInstanceAs (Decidable (_ ∧ _))

variable {p q c : List Char} {cs ds : List (List Char)}

theorem components_append_slash (p q : List Char) : components (p ++ '/' :: q) = components p ++ components q := by
  rw [components, splitOn, splitOnP_append_cons _ _ (by simp), filter_append]
  rfl

theorem notMem_of_mem_splitOn {x : Char} (h : c ∈ p.splitOn x) : x ∉ c := by
  induction p generalizing c with
  | nil => simp_all [splitOn, splitOnP_nil]
  | cons y p ih =>
    rw [splitOn, splitOnP_cons_eq_if_modifyHead] at h
    split_ifs at h with hy
    · rcases mem_cons.1 h with rfl | h
      · exact not_mem_nil
      · exact ih h
    cases hs : p.splitOnP (· == x) with
    | nil => simp [hs] at h
    | cons d ds =>
      have hall : ∀ e ∈ d :: ds, x ∉ e := fun e he => ih (by rw [splitOn, hs]; exact he)
      rw [hs, modifyHead_cons] at h
      rcases mem_cons.1 h with rfl | h
      · have hxy : x ≠ y := fun h0 => hy (by simp [h0])
        exact not_mem_cons_of_ne_of_not_mem hxy (hall d (by simp))
      · exact hall c (.tail _ h)

theorem isName_of_mem_components (h : c ∈ components p) : IsName c := by
  obtain ⟨hc, hne⟩ := mem_filter.1 h
  exact ⟨of_decide_eq_true hne, notMem_of_mem_splitOn hc⟩

theorem components_slash (q : List Char) : components ('/' :: q) = components q :=
  components_append_slash [] q

theorem components_of_isName (h : IsName c) : components c = [c] := by
  have h1 : c.splitOn '/' = [c] := by
    have h1 := splitOn_intercalate '/' (fun x hx => (mem_singleton.1 hx : x = c) ▸ h.2) (by simp)
    rwa [intercalate_singleton] at h1
  rw [components, h1, filter_cons_of_pos (by simpa using h.1), filter_nil]

theorem components_flatMap : ∀ {cs : List (List Char)}, (∀ c ∈ cs, IsName c) →
    components (cs.flatMap fun c => '/' :: c) = cs
  | [], _ => rfl
  | c :: cs, h => by
    have ih := components_flatMap fun x hx => h x (mem_cons_of_mem c hx)
    rw [flatMap_cons, cons_append, components_slash]
    cases cs with
    | nil => rw [flatMap_nil, append_nil, components_of_isName (h c (by simp))]
    | cons d ds =>
      rw [flatMap_cons, cons_append] at ih ⊢
      rw [components_slash] at ih
      rw [components_append_slash, ih, components_of_isName (h c (by simp))]
      rfl

theorem components_render (h : ∀ c ∈ cs, IsName c) : components (render cs) = cs := by
  unfold render
  split_ifs with h0
  · rw [h0]; rfl
  · exact components_flatMap h

theorem render_append_singleton (cs : List (List Char)) (c : List Char) :
    render (cs ++ [c]) = cs.flatMap (fun c => '/' :: c) ++ '/' :: c := by
  rw [render, if_neg (by simp), flatMap_append]
  simp

end Archis.Lib
