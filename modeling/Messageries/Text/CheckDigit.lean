import Mathlib.Algebra.BigOperators.Fin
import Mathlib.Data.Set.Function

/-! Checksums of the digits of a word, each worth something of its own at each place. -/

namespace Messageries.Text.CheckDigit

open Finset

variable {D G : Type*}

section Total

variable [AddCommMonoid G] {worth : ℕ → D → G}

/-- The sum of what the digits are worth at their places, the first one at place `0`. -/
def total (worth : ℕ → D → G) (ds : List D) : G := ∑ i : Fin ds.length, worth i ds[i]

@[simp] theorem total_nil : total worth [] = 0 := rfl

@[simp] theorem total_cons (d : D) (ds : List D) :
    total worth (d :: ds) = worth 0 d + total (fun i => worth (i + 1)) ds :=
  Fin.sum_univ_succ _

theorem total_append (as bs : List D) :
    total worth (as ++ bs) = total worth as + total (fun i => worth (as.length + i)) bs := by
  induction as generalizing worth with
  | nil => simp
  | cons a as ih =>
    have next : (fun i => worth (as.length + 1 + i)) = fun i => worth (as.length + i + 1) := by
      funext i
      rw [Nat.add_right_comm]
    rw [List.cons_append, total_cons, ih, total_cons, add_assoc, List.length_cons, next]

end Total

section Checked

variable [AddCommGroup G] {worth : ℕ → D → G} {S : Set D}

/-- A word has exactly one check digit where the digits are worth every value once. -/
theorem existsUnique_check (h : Set.BijOn (worth 0) S Set.univ) (ds : List D) :
    ∃! d, d ∈ S ∧ total worth (d :: ds) = 0 := by
  obtain ⟨d, hd, e⟩ := h.surjOn (Set.mem_univ (-total (fun i => worth (i + 1)) ds))
  refine ⟨d, ⟨hd, by rw [total_cons, e, neg_add_cancel]⟩, fun d' hd' => ?_⟩
  refine h.injOn hd'.1 hd (e ▸ eq_neg_of_add_eq_zero_left ?_)
  rw [← total_cons]
  exact hd'.2

/-- One digit in the place of another changes the total. -/
theorem total_replace_ne {as bs : List D} {d e : D} (h : Set.InjOn (worth as.length) S)
    (hd : d ∈ S) (he : e ∈ S) (hne : d ≠ e) :
    total worth (as ++ d :: bs) ≠ total worth (as ++ e :: bs) := by
  rw [total_append, total_append, total_cons, total_cons]
  intro same
  exact hne (h hd he (add_right_cancel (add_left_cancel same)))

end Checked

end Messageries.Text.CheckDigit
