import Messageries.Moderation.Luhn

namespace Messageries.Guarantees

open Text Text.CheckDigit Moderation

/-- The Luhn check of a string of digits is that of the positional sum, so that one digit
completes a string and no single wrong digit goes unnoticed. -/
theorem luhn_detects :
    (∀ num : Utf16, num ≠ [] → (∀ u ∈ num, isDigit u = true) →
      (luhn num = true ↔ 10 ∣ positionalSum num)) ∧
    (∀ num : Utf16, (∀ u ∈ num, isDigit u = true) →
      ∃! c, isDigit c = true ∧ luhn (num ++ [c]) = true) ∧
    ∀ (a b : Utf16) (u v : UInt16), (∀ w ∈ a ++ u :: b, isDigit w = true) → isDigit v = true →
      v ≠ u → luhn (a ++ u :: b) = true → luhn (a ++ v :: b) = false := by
  refine ⟨fun num _ _ => luhn_iff_dvd num, fun num _ => ?_, fun a b u v hd hv hne hu => ?_⟩
  · simp only [luhn_iff_total, List.reverse_append, List.reverse_singleton]
    exact existsUnique_check (residue_bijOn 0) num.reverse
  · have digit : isDigit u = true := hd u (List.mem_append_right _ (List.mem_cons_self ..))
    have changed :
        total residue (b.reverse ++ v :: a.reverse) ≠ total residue (b.reverse ++ u :: a.reverse) :=
      total_replace_ne (residue_bijOn _).injOn hv digit hne
    refine Bool.eq_false_iff.2 fun valid => changed ?_
    rw [luhn_iff_total] at hu valid
    simp only [List.reverse_append, List.reverse_cons, List.append_assoc, List.singleton_append]
      at hu valid
    rw [hu, valid]

theorem luhn_detects_example :
    (luhn (text "4539148803436467") = true ∧ luhn (text "453914880343646") = false) ∧
      (∃! c, isDigit c = true ∧ luhn (text "453914880343646" ++ [c]) = true) ∧
      luhn (text "4539148803436461") = false := by
  refine ⟨⟨?_, ?_⟩, luhn_detects.2.1 _ (by decide), ?_⟩
  · exact (luhn_detects.1 _ (by decide) (by decide)).2 (by decide)
  · refine Bool.eq_false_iff.2 fun h => ?_
    exact absurd ((luhn_detects.1 _ (by decide) (by decide)).1 h) (by decide)
  · exact luhn_detects.2.2 (text "453914880343646") [] 55 49 (by decide) (by decide) (by decide)
      (by decide)

end Messageries.Guarantees
