import Mathlib.Data.ZMod.Basic
import Messageries.Moderation.ContentScanner
import Messageries.Text.CheckDigit

namespace Messageries.Moderation

open Text Text.CheckDigit

/-- What a digit is worth: as it is, or doubled with 9 subtracted above 9. -/
def luhnWorth (doubled : Bool) (n : ℕ) : ℕ :=
  if doubled then if 9 < n * 2 then n * 2 - 9 else n * 2 else n

/-- The value of a letter that is a digit. -/
def value (u : UInt16) : ℕ := u.toNat - 48

/-- The sum over the positions, where the letter at `i` has position `num.length - i` from
the right. -/
def positionalSum (num : Utf16) : ℕ :=
  ∑ i : Fin num.length, luhnWorth (decide (Even (num.length - i))) (value num[i])

/-- The worth of a digit by the number of digits to its right, in the sum modulo 10. -/
def worth (flip : Bool) (i : ℕ) (u : UInt16) : ℕ := luhnWorth (flip ^^ decide (Odd i)) (value u)

theorem luhnSum_eq_total (flip : Bool) (ds : Utf16) :
    luhnSum flip (ds.map value) = total (worth flip) ds := by
  induction ds generalizing flip with
  | nil => rfl
  | cons d ds ih =>
    have next : (fun i => worth flip (i + 1)) = worth (!flip) := by
      funext i u
      cases flip <;> simp [worth, Nat.odd_add_one, ← Nat.not_even_iff_odd]
    rw [total_cons, next, ← ih]
    cases flip <;> rfl

theorem positionalSum_eq (num : Utf16) : positionalSum num = total (worth false) num.reverse := by
  induction num with
  | nil => rfl
  | cons u num ih =>
    have first : positionalSum (u :: num) =
        luhnWorth (decide (Even (num.length + 1))) (value u) + positionalSum num := by
      refine (Fin.sum_univ_succ _).trans ?_
      simp [positionalSum]
    rw [List.reverse_cons, total_append, ← ih, first, add_comm]
    simp [worth, Nat.even_add_one, ← Nat.not_even_iff_odd]

theorem luhn_iff_dvd (num : Utf16) : luhn num = true ↔ 10 ∣ positionalSum num := by
  have sum : luhnSum false (num.reverse.map value) = positionalSum num := by
    rw [luhnSum_eq_total, positionalSum_eq]
  rw [Nat.dvd_iff_mod_eq_zero, ← sum]
  exact beq_iff_eq

section Modulo

/-- The worth of a letter modulo 10. -/
def residue (i : ℕ) (u : UInt16) : ZMod 10 := worth false i u

theorem luhn_iff_total (num : Utf16) : luhn num = true ↔ total residue num.reverse = 0 := by
  have cast : total residue num.reverse = (positionalSum num : ZMod 10) := by
    rw [positionalSum_eq]
    exact (Nat.cast_sum ..).symm
  rw [luhn_iff_dvd, cast, ZMod.natCast_eq_zero_iff]

theorem value_bijOn : Set.BijOn value {u | isDigit u = true} (Set.Iio 10) := by
  have bounds : ∀ {u : UInt16}, isDigit u = true → 48 ≤ u.toNat ∧ u.toNat ≤ 57 := fun h => by
    simpa [isDigit] using h
  refine ⟨fun u hu => ?_, fun u hu v hv e => ?_, fun n hn => ?_⟩
  · have := bounds hu
    exact Set.mem_Iio.2 (by rw [value]; omega)
  · have := bounds hu
    have := bounds hv
    simp only [value] at e
    exact UInt16.toNat_inj.1 (by omega)
  · have hn : n < 10 := hn
    have toNat : (UInt16.ofNat (n + 48)).toNat = n + 48 :=
      UInt16.toNat_ofNat_of_lt' (Nat.lt_trans (by omega) (by decide : 58 < UInt16.size))
    refine ⟨.ofNat (n + 48), ?_, by rw [value, toNat, Nat.add_sub_cancel]⟩
    simp only [Set.mem_setOf_eq, isDigit, toNat, Bool.and_eq_true, decide_eq_true_eq]
    omega

/-- Doubling permutes the digits. -/
theorem luhnWorth_bijOn (doubled : Bool) :
    Set.BijOn (fun n => (luhnWorth doubled n : ZMod 10)) (Set.Iio 10) Set.univ := by
  have once : ∀ m < 10, ∀ n < 10,
      (luhnWorth doubled m : ZMod 10) = luhnWorth doubled n → m = n := by
    cases doubled <;> decide
  have all : ∀ z : ZMod 10, ∃ n < 10, (luhnWorth doubled n : ZMod 10) = z := by
    cases doubled <;> decide
  exact ⟨Set.mapsTo_univ _ _, fun m hm n hn => once m hm n hn, fun z _ => all z⟩

theorem residue_bijOn (i : ℕ) : Set.BijOn (residue i) {u | isDigit u = true} Set.univ :=
  (luhnWorth_bijOn _).comp value_bijOn

end Modulo

end Messageries.Moderation
