import Messageries.Moderation.Scanning

namespace Messageries.Guarantees

open Text Text.Regex Moderation

/-- The text that the pass which reports `f` works on. -/
def textBefore (f : Flag) (input : Utf16) : Utf16 :=
  ((passes.takeWhile fun p => p.flag ≠ f).foldl Pass.step ⟨input, []⟩).cleaned

section Reports

variable {p : Pass} {ps : List Pass}

theorem occurrences_foldl (hp : Scans p) (hs : ∀ q ∈ ps, Scans q ∧ q.token ≠ p.token)
    (r : ScanResult) :
    occurrences p.token (ps.foldl Pass.step r).cleaned = occurrences p.token r.cleaned := by
  induction ps generalizing r with
  | nil => rfl
  | cons q ps ih =>
    obtain ⟨hq, hne⟩ := hs q (List.mem_cons_self ..)
    rw [List.foldl_cons, ih fun q hm => hs q (List.mem_cons_of_mem _ hm)]
    simp [Pass.step, hq.occurrences_clean hp, hne.symm]

theorem mem_flags_foldl {f : Flag} (hf : ∀ q ∈ ps, q.flag ≠ f) (r : ScanResult) :
    f ∈ (ps.foldl Pass.step r).flags ↔ f ∈ r.flags := by
  induction ps generalizing r with
  | nil => rfl
  | cons q ps ih =>
    rw [List.foldl_cons, ih fun q hm => hf q (List.mem_cons_of_mem _ hm), Pass.step]
    split
    · simp [(hf q (List.mem_cons_self ..)).symm]
    · rfl

/-- The passes come in one order and differ in what they report and write. -/
theorem passes_split (hp : p ∈ passes) : ∃ A B, passes = A ++ p :: B ∧
    (passes.takeWhile fun q => q.flag ≠ p.flag) = A ∧
    ∀ q ∈ A ++ B, q.token ≠ p.token ∧ q.flag ≠ p.flag := by
  simp only [passes, List.mem_cons, List.not_mem_nil, or_false] at hp
  rcases hp with rfl | rfl | rfl | rfl | rfl
  · exact ⟨[], [ibanPass, cvvPass, emailPass, phonePass], rfl, rfl, by decide⟩
  · exact ⟨[panPass], [cvvPass, emailPass, phonePass], rfl, rfl, by decide⟩
  · exact ⟨[panPass, ibanPass], [emailPass, phonePass], rfl, rfl, by decide⟩
  · exact ⟨[panPass, ibanPass, cvvPass], [phonePass], rfl, rfl, by decide⟩
  · exact ⟨[panPass, ibanPass, cvvPass, emailPass], [], rfl, rfl, by decide⟩

theorem occurrences_scan (hp : p ∈ passes) (input : Utf16) :
    occurrences p.token (scan input).cleaned =
      occurrences p.token input + p.replacements (textBefore p.flag input) := by
  obtain ⟨A, B, hs, hA, hne⟩ := passes_split hp
  have others : ∀ q ∈ A ++ B, Scans q ∧ q.token ≠ p.token := fun q hq =>
    ⟨scans (by rw [hs]; grind), (hne q hq).1⟩
  rw [scan, hs, List.foldl_append, List.foldl_cons,
    occurrences_foldl (scans hp) (fun q hq => others q (List.mem_append_right _ hq)), Pass.step,
    (scans hp).occurrences_clean (scans hp), if_pos rfl, textBefore, hA,
    occurrences_foldl (scans hp) fun q hq => others q (List.mem_append_left _ hq)]

theorem mem_flags_scan (hp : p ∈ passes) (input : Utf16) :
    p.flag ∈ (scan input).flags ↔ 0 < p.replacements (textBefore p.flag input) := by
  obtain ⟨A, B, hs, hA, hne⟩ := passes_split hp
  have := mem_flags_foldl (fun q hq => (hne q (List.mem_append_left _ hq)).2) ⟨input, []⟩
  rw [scan, hs, List.foldl_append, List.foldl_cons,
    mem_flags_foldl fun q hq => (hne q (List.mem_append_right _ hq)).2, ← Pass.flagged_iff,
    textBefore, hA, Pass.step]
  split <;> simp_all

theorem cleaned_foldl (ps : List Pass) (r : ScanResult) (h : (ps.foldl Pass.step r).flags = []) :
    (ps.foldl Pass.step r).cleaned = r.cleaned ∧ r.flags = [] := by
  induction ps generalizing r with
  | nil => exact ⟨rfl, h⟩
  | cons p ps ih =>
    obtain ⟨hc, hf⟩ := ih (p.step r) h
    rw [List.foldl_cons, hc]
    simp only [Pass.step] at hf ⊢
    split at hf
    · simp at hf
    next hp =>
      rw [p.flagged_iff, Nat.not_lt, Nat.le_zero] at hp
      exact ⟨Pass.clean_of_replacements hp, hf⟩

/-- What the scan reports is what it rewrote, for any text, also one with tokens of its own. -/
theorem scan_reports_rewrites (input : Utf16) :
    (∀ p ∈ passes,
      (p.flag ∈ (scan input).flags ↔
        occurrences p.token input < occurrences p.token (scan input).cleaned) ∧
      occurrences p.token (scan input).cleaned =
        occurrences p.token input + p.replacements (textBefore p.flag input) ∧
      ∀ q ∈ passes, ∀ u v, textBefore p.flag input = u ++ q.token ++ v → ∃ A B,
        p.pattern.pieces (textBefore p.flag input) = A ++ q.token.map .keep ++ B ∧
        texts A = u ∧ texts B = v ∧
        p.clean (textBefore p.flag input) =
          replace p.rewrite A ++ q.token ++ replace p.rewrite B) ∧
    ((scan input).hadSensitive = false → (scan input).cleaned = input) := by
  refine ⟨fun p hp => ⟨?_, occurrences_scan hp input, fun q hq u v e => ?_⟩, fun h => ?_⟩
  · rw [mem_flags_scan hp, occurrences_scan hp]
    omega
  · obtain ⟨A, B, hps, hA, hB⟩ := (scans hp).token_kept (scans hq) e
    refine ⟨A, B, hps, hA, hB, ?_⟩
    rw [Pass.clean, hps, replace_append, replace_append, replace_map_keep]
  · have hf : (scan input).flags = [] := by simpa [ScanResult.hadSensitive] using h
    exact (cleaned_foldl passes _ hf).1

end Reports

section Again

variable {p q : Pass} {ps : List Pass} {u v w : Utf16}

theorem stood_foldl (hs : ∀ p ∈ ps, Scans p) (hq : Scans q) {r : ScanResult}
    (e : (ps.foldl Pass.step r).cleaned = u ++ w ++ v) (h : Spans q.pattern u w v) :
    ∃ u' v', r.cleaned = u' ++ w ++ v' ∧ Spans q.pattern u' w v' := by
  induction ps generalizing r with
  | nil => exact ⟨u, v, e, h⟩
  | cons p ps ih =>
    obtain ⟨u', v', e, h⟩ := ih (fun p hp => hs p (List.mem_cons_of_mem _ hp)) e
    obtain ⟨A, B, hm, h⟩ := (hs p (List.mem_cons_self ..)).stood hq e h
    exact ⟨_, _, Pass.marks_eq hm, h⟩

theorem stood_before (hq : q ∈ passes) (f : Flag) {input : Utf16}
    (e : textBefore f input = u ++ w ++ v) (h : Spans q.pattern u w v) :
    ∃ u' v', input = u' ++ w ++ v' ∧ Spans q.pattern u' w v' :=
  stood_foldl (fun _ hp => scans ((List.takeWhile_prefix _).subset hp)) (scans hq) e h

theorem stood_scan (hq : q ∈ passes) {input : Utf16}
    (e : (scan input).cleaned = u ++ w ++ v) (h : Spans q.pattern u w v) :
    ∃ u' v', input = u' ++ w ++ v' ∧ Spans q.pattern u' w v' :=
  stood_foldl (fun _ hp => scans hp) (scans hq) e h

/-- Nothing is left of a kind that is always redacted. -/
theorem clear_scan (hq : q ∈ passes) (h : ∀ m, q.redacts m = true) (input : Utf16) :
    Clear q.pattern (scan input).cleaned := by
  obtain ⟨A, B, hs, -, -⟩ := passes_split hq
  intro u w v e hw
  rw [scan, hs, List.foldl_append, List.foldl_cons] at e
  obtain ⟨u', v', e, hw⟩ := stood_foldl (fun p hp => scans (by rw [hs]; simp [hp])) (scans hq) e hw
  exact (scans hq).clear_clean h _ _ _ _ e hw

theorem not_flagged_again (hq : q ∈ passes) (h : ∀ m, q.redacts m = true) (input : Utf16) :
    q.flag ∉ (scan (scan input).cleaned).flags := by
  have clear : Clear q.pattern (textBefore q.flag (scan input).cleaned) := by
    intro u w v e hw
    obtain ⟨u', v', e, hw⟩ := stood_before hq q.flag e hw
    exact clear_scan hq h input u' w v' e hw
  rw [mem_flags_scan hq, clear.replacements]
  exact Nat.lt_irrefl 0

end Again

section Cards

variable {p : Pass} {ps : List Pass} {u v w : Utf16}

/-- Digits, with at most one space or dash between two of them. -/
def grouped : Utf16 → Bool
  | [] => false
  | [d] => isDigit d
  | d :: a :: w =>
    isDigit d && if oneOf " -" a then grouped w else grouped (a :: w)

def isCard (w : Utf16) : Bool :=
  let digits := w.filter isDigit
  grouped w && 13 ≤ digits.length && digits.length ≤ 19 && luhn digits

/-- A card number stands between `u` and `v` and in no longer word. -/
structure CardAt (u w v : Utf16) : Prop where
  card : isCard w = true
  left : bound isWord u.getLast? w.head? = true
  right : bound isWord w.getLast? v.head? = true

/-- No match that one of the passes redacts has a letter of `w`. -/
def Missed : List Pass → Utf16 → Utf16 → Utf16 → Prop
  | [], _, _, _ => True
  | p :: ps, u, w, v => ∃ A B, p.marks (u ++ w ++ v) = A ++ w.map .keep ++ B ∧
      texts A = u ∧ texts B = v ∧
      Missed ps (replace (fun _ => p.token) A) w (replace (fun _ => p.token) B)

theorem grouped_spec (h : grouped w = true) : (∃ a, w.head? = some a ∧ isDigit a = true) ∧
    (∃ b, w.getLast? = some b ∧ isDigit b = true) ∧ ∀ a ∈ w, Matched a := by
  fun_induction grouped w with
  | case1 => cases h
  | case2 d => exact ⟨⟨d, rfl, h⟩, ⟨d, rfl, h⟩, by simpa using matched_digit h⟩
  | case3 d a w ih₁ ih₂ =>
    obtain ⟨hd, hw⟩ := Bool.and_eq_true_iff.1 h
    refine ⟨⟨d, rfl, hd⟩, ?_⟩
    split at hw
    next ha =>
      obtain ⟨⟨x, hx, -⟩, ⟨b, hb, hdb⟩, hm⟩ := ih₁ hw
      refine ⟨⟨b, by simp [List.getLast?_cons, hb], hdb⟩, ?_⟩
      simpa [matched_digit hd, matched_oneOf (by decide) ha] using hm
    next =>
      obtain ⟨-, ⟨b, hb, hdb⟩, hm⟩ := ih₂ hw
      exact ⟨⟨b, by simpa [List.getLast?_cons] using hb, hdb⟩, by simpa [matched_digit hd] using hm⟩

theorem CardAt.grouped (h : CardAt u w v) : grouped w = true := by
  have := h.card
  simp only [isCard, Bool.and_eq_true] at this
  exact this.1.1.1

theorem CardAt.loose (h : CardAt u w v) (hp : Scans p) : Loose 91 93 p.token w := by
  obtain ⟨⟨a, ha, hd⟩, -, hm⟩ := grouped_spec h.grouped
  exact ⟨fun ho => not_matched_bracket.1 (hm _ ho), fun hc => not_matched_bracket.2 (hm _ hc),
    a, List.mem_of_mem_head? ha, fun ht => hp.token_alien a ht (.inl hd)⟩

theorem isWord_of_digit {a : UInt16} (h : isDigit a = true) : isWord a = true := by
  simp [isWord, h]

/-- The cards after a pass are those before that it missed. -/
theorem cards_foldl (hs : ∀ p ∈ ps, Scans p) (r : ScanResult) :
    (∃ u v, (ps.foldl Pass.step r).cleaned = u ++ w ++ v ∧ CardAt u w v) ↔
      ∃ u v, r.cleaned = u ++ w ++ v ∧ CardAt u w v ∧ Missed ps u w v := by
  induction ps generalizing r with
  | nil => simp [Missed]
  | cons p ps ih =>
    have hp := hs p (List.mem_cons_self ..)
    rw [List.foldl_cons, ih fun q hq => hs q (List.mem_cons_of_mem _ hq)]
    constructor
    · rintro ⟨u, v, e, hw, hm⟩
      rw [Pass.step, Pass.clean_eq] at e
      obtain ⟨A, B, hk, rfl, rfl⟩ := kept_of_apart e fun m _ =>
        ⟨hp.token.ne_nil, hp.token.apart (hw.loose hp)⟩
      obtain ⟨hl, hr⟩ := hp.bounds (hw.loose hp).ne_nil hk
      have hc := Pass.marks_eq hk
      exact ⟨_, _, hc, ⟨hw.card, hl hw.left, hr hw.right⟩, A, B, hc ▸ hk, rfl, rfl, hm⟩
    · rintro ⟨u, v, e, hw, A, B, hk, rfl, rfl, hm⟩
      rw [← e] at hk
      refine ⟨_, _, ?_, ⟨hw.card, ?_, ?_⟩, hm⟩
      · rw [Pass.step, Pass.clean_eq, hk]
        simp
      · obtain ⟨⟨a, ha, hd⟩, -⟩ := grouped_spec hw.grouped
        have hl := hw.left
        rw [ha] at hl ⊢
        exact bound_left_of_word hp.token (by decide) (isWord_of_digit hd) hl
      · obtain ⟨-, ⟨b, hb, hd⟩, -⟩ := grouped_spec hw.grouped
        have hr := hw.right
        rw [hb] at hr ⊢
        exact bound_right_of_word hp.token (by decide) (isWord_of_digit hd) hr

/-- No card is left exactly when the passes miss none of those the text has. -/
theorem no_card_left_iff (input : Utf16) :
    (¬ ∃ u w v, (scan input).cleaned = u ++ w ++ v ∧ CardAt u w v) ↔
      ∀ u w v, input = u ++ w ++ v → CardAt u w v → ¬ Missed passes u w v := by
  have left : (∃ u w v, (scan input).cleaned = u ++ w ++ v ∧ CardAt u w v) ↔
      ∃ u w v, input = u ++ w ++ v ∧ CardAt u w v ∧ Missed passes u w v := by
    have cards : ∀ w, (∃ u v, (scan input).cleaned = u ++ w ++ v ∧ CardAt u w v) ↔
        ∃ u v, input = u ++ w ++ v ∧ CardAt u w v ∧ Missed passes u w v := fun w =>
      cards_foldl (fun p hp => scans hp) ⟨input, []⟩
    refine ⟨fun ⟨u, w, v, h⟩ => ?_, fun ⟨u, w, v, h⟩ => ?_⟩
    · obtain ⟨u, v, h⟩ := (cards w).1 ⟨u, v, h⟩
      exact ⟨u, w, v, h⟩
    · obtain ⟨u, v, h⟩ := (cards w).2 ⟨u, v, h⟩
      exact ⟨u, w, v, h⟩
  rw [left]
  grind

/-- The pattern takes the digit before the card along, and no check is made of the card
alone. -/
theorem card_survives : ∃ u w v,
    (scan (text "1 4242 4242 4242 4242")).cleaned = u ++ w ++ v ∧ CardAt u w v :=
  ⟨text "1 ", text "4242 4242 4242 4242", [], by decide +kernel, by decide +kernel,
    by decide +kernel, by decide +kernel⟩

end Cards

end Messageries.Guarantees
