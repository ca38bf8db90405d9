import Messageries.Text.Matching
import Messageries.Text.Utf16

namespace Messageries.Moderation

open Text

def text (s : String) : Utf16 := encode s.toList

section Letters

def isDigit (u : UInt16) : Bool := 48 ≤ u.toNat && u.toNat ≤ 57

def isUpper (u : UInt16) : Bool := 65 ≤ u.toNat && u.toNat ≤ 90

def isLower (u : UInt16) : Bool := 97 ≤ u.toNat && u.toNat ≤ 122

def isWord (u : UInt16) : Bool := isDigit u || isUpper u || isLower u || u == 95

def isSpace (u : UInt16) : Bool :=
  let n := u.toNat
  (9 ≤ n && n ≤ 13) || n == 0x20 || n == 0xA0 || n == 0x1680 || (0x2000 ≤ n && n ≤ 0x200A) ||
    n == 0x2028 || n == 0x2029 || n == 0x202F || n == 0x205F || n == 0x3000 || n == 0xFEFF

/-- `String.prototype.trim`. -/
def trim (s : Utf16) : Utf16 := ((s.dropWhile isSpace).reverse.dropWhile isSpace).reverse

/-- `trim` takes the blanks from both ends. -/
theorem trim_cut (s : Utf16) : ∃ a b, s = a ++ trim s ++ b ∧ (∀ u ∈ a, isSpace u = true) ∧
    ∀ u ∈ b, isSpace u = true := by
  have blank : ∀ s : Utf16, ∀ u ∈ s.takeWhile isSpace, isSpace u = true :=
    fun s => List.all_eq_true.1 List.all_takeWhile
  have back : s.dropWhile isSpace =
      trim s ++ ((s.dropWhile isSpace).reverse.takeWhile isSpace).reverse := by
    rw [trim, ← List.reverse_append, List.takeWhile_append_dropWhile, List.reverse_reverse]
  refine ⟨s.takeWhile isSpace, ((s.dropWhile isSpace).reverse.takeWhile isSpace).reverse, ?_,
    blank s, fun u hu => blank _ u (List.mem_reverse.1 hu)⟩
  rw [List.append_assoc, ← back, List.takeWhile_append_dropWhile]

end Letters

section Patterns

def oneOf (s : String) (u : UInt16) : Bool := (text s).contains u

def digit : Regex UInt16 := .one isDigit

def separator (s : String) : Regex UInt16 := .opt (.one (oneOf s))

/-- `\b` -/
def boundary : Regex UInt16 := .look fun a b => a.any isWord != b.any isWord

def sequence : List (Regex UInt16) → Regex UInt16
  | [] => .empty
  | r :: rs => .seq r (sequence rs)

/-- A word of letters and digits, in upper or lower case. -/
def anyCase (lower upper : String) : Regex UInt16 :=
  sequence (((text lower).zip (text upper)).map fun (a, b) => .one fun u => u == a || u == b)

/-- `/\b(?:\d[ -]?){13,19}\b/g` -/
def panPattern : Regex UInt16 :=
  sequence [boundary, .rep (.seq digit (separator " -")) 13 (some 19), boundary]

/-- `/\b[A-Z]{2}\d{2}[A-Z0-9]{10,30}\b/gi` -/
def ibanPattern : Regex UInt16 :=
  sequence [boundary, .rep (.one fun u => isUpper u || isLower u) 2 (some 2), .rep digit 2 (some 2),
    .rep (.one fun u => isUpper u || isLower u || isDigit u) 10 (some 30), boundary]

/-- `/\b(cvv|cvc|cv2)\s*[:=]?\s*(\d{3,4})\b/gi` -/
def cvvPattern : Regex UInt16 :=
  sequence [boundary, .alt (anyCase "cvv" "CVV") (.alt (anyCase "cvc" "CVC") (anyCase "cv2" "CV2")),
    .star (.one isSpace), separator ":=", .star (.one isSpace), .rep digit 3 (some 4), boundary]

/-- `/[\w.+-]+@[\w-]+\.[\w.-]+/g` -/
def emailPattern : Regex UInt16 :=
  sequence [.plus (.one fun u => isWord u || oneOf ".+-" u), .one (oneOf "@"),
    .plus (.one fun u => isWord u || oneOf "-" u), .one (oneOf "."),
    .plus (.one fun u => isWord u || oneOf ".-" u)]

/-- `/\b(?:\+?\d{1,3}[ .-]?)?(?:\(?\d{2,4}\)?[ .-]?){2,5}\d{2,4}\b/g` -/
def phonePattern : Regex UInt16 :=
  sequence [boundary,
    .opt (sequence [separator "+", .rep digit 1 (some 3), separator " .-"]),
    .rep (sequence [separator "(", .rep digit 2 (some 4), separator ")", separator " .-"]) 2 (some 5),
    .rep digit 2 (some 4), boundary]

end Patterns

inductive Flag
  | pan
  | iban
  | cvv
  | email
  | phone
  deriving DecidableEq

/-- From the right, every second digit is doubled. -/
def luhnSum : Bool → List Nat → Nat
  | _, [] => 0
  | false, n :: ns => n + luhnSum true ns
  | true, n :: ns => (if 9 < n * 2 then n * 2 - 9 else n * 2) + luhnSum false ns

def luhn (num : Utf16) : Bool := luhnSum false (num.reverse.map fun u => u.toNat - 48) % 10 == 0

/-- One pass of the scanner: a match that `redacts` accepts is replaced by the token. -/
structure Pass where
  flag : Flag
  pattern : Regex UInt16
  token : Utf16
  redacts : Utf16 → Bool

def panPass : Pass :=
  ⟨.pan, panPattern, text "[REDACTED_PAN]", fun m =>
    let digits := m.filter isDigit
    !(digits.length < 13 || 19 < digits.length) && luhn digits⟩

def ibanPass : Pass := ⟨.iban, ibanPattern, text "[REDACTED_IBAN]", fun _ => true⟩

def cvvPass : Pass := ⟨.cvv, cvvPattern, text "[REDACTED_CVV]", fun _ => true⟩

def emailPass : Pass := ⟨.email, emailPattern, text "[REDACTED_EMAIL]", fun _ => true⟩

def phonePass : Pass :=
  ⟨.phone, phonePattern, text "[REDACTED_PHONE]", fun m =>
    let digits := m.filter isDigit
    8 ≤ digits.length && digits.length ≤ 15⟩

def Pass.rewrite (p : Pass) (m : Utf16) : Utf16 := if p.redacts m then p.token else m

def Pass.clean (p : Pass) (s : Utf16) : Utf16 := Regex.replace p.rewrite (p.pattern.pieces s)

def Pass.flagged (p : Pass) (s : Utf16) : Bool :=
  (p.pattern.pieces s).any fun
    | .keep _ => false
    | .hit m => p.redacts m

structure ScanResult where
  cleaned : Utf16
  flags : List Flag

/-- `Math.min(1, flags.length * 0.3)`, in tenths. -/
def ScanResult.score (r : ScanResult) : Nat := min 10 (3 * r.flags.length)

def ScanResult.hadSensitive (r : ScanResult) : Bool := 0 < r.flags.length

def Pass.step (r : ScanResult) (p : Pass) : ScanResult :=
  ⟨p.clean r.cleaned, if p.flagged r.cleaned then r.flags ++ [p.flag] else r.flags⟩

def passes : List Pass := [panPass, ibanPass, cvvPass, emailPass, phonePass]

def scan (input : Utf16) : ScanResult := passes.foldl Pass.step ⟨input, []⟩

example : (scan (text "email a@b.com cvv: 999")).cleaned =
    text "email [REDACTED_EMAIL] [REDACTED_CVV]" := by
  decide +kernel

section WellFormed

/-- The letters the patterns go over are no surrogates. -/
def Plain (u : UInt16) : Prop := isSurrogate u = false

instance (u : UInt16) : Decidable (Plain u) := inferInstanceAs (Decidable (_ = _))

instance (priority := high) (P : UInt16 → Prop) [DecidablePred P] (s : Utf16) :
    Decidable (∀ u ∈ s, P u) :=
  List.decidableBAll P s

theorem plain_of_lt {u : UInt16} (h : u.toNat < 0xD800 ∨ 0xE000 ≤ u.toNat) : Plain u := by
  simp only [Plain, isSurrogate, isHigh, isLow, Bool.or_eq_false_iff, Bool.and_eq_false_iff,
    decide_eq_false_iff_not]
  omega

theorem plain_digit {u : UInt16} (h : isDigit u = true) : Plain u := by
  simp only [isDigit, Bool.and_eq_true, decide_eq_true_eq] at h
  exact plain_of_lt (by omega)

theorem plain_upper {u : UInt16} (h : isUpper u = true) : Plain u := by
  simp only [isUpper, Bool.and_eq_true, decide_eq_true_eq] at h
  exact plain_of_lt (by omega)

theorem plain_lower {u : UInt16} (h : isLower u = true) : Plain u := by
  simp only [isLower, Bool.and_eq_true, decide_eq_true_eq] at h
  exact plain_of_lt (by omega)

theorem plain_word {u : UInt16} (h : isWord u = true) : Plain u := by
  simp only [isWord, Bool.or_eq_true, beq_iff_eq] at h
  rcases h with ((h | h) | h) | rfl
  · exact plain_digit h
  · exact plain_upper h
  · exact plain_lower h
  · decide

theorem plain_space {u : UInt16} (h : isSpace u = true) : Plain u := by
  simp only [isSpace, Bool.or_eq_true, Bool.and_eq_true, decide_eq_true_eq, beq_iff_eq] at h
  exact plain_of_lt (by omega)

/-- The letters the patterns go over. -/
def Matched (u : UInt16) : Prop := (isWord u || isSpace u || oneOf "+-.@():=" u) = true

instance (u : UInt16) : Decidable (Matched u) := inferInstanceAs (Decidable (_ = _))

theorem matched_word {u : UInt16} (h : isWord u = true) : Matched u := by simp [Matched, h]

theorem matched_digit {u : UInt16} (h : isDigit u = true) : Matched u :=
  matched_word (by simp [isWord, h])

theorem matched_letter {u : UInt16} (h : (isUpper u || isLower u) = true) : Matched u :=
  matched_word (by simp only [isWord, Bool.or_eq_true] at h ⊢; tauto)

theorem matched_space {u : UInt16} (h : isSpace u = true) : Matched u := by simp [Matched, h]

theorem matched_oneOf {s : String} (hs : ∀ v ∈ text s, Matched v) {u : UInt16}
    (h : oneOf s u = true) : Matched u :=
  hs u (by simpa [oneOf] using h)

theorem Matched.plain {u : UInt16} (h : Matched u) : Plain u := by
  have signs : ∀ v ∈ text "+-.@():=", Plain v := by decide
  simp only [Matched, Bool.or_eq_true] at h
  rcases h with (h | h) | h
  · exact plain_word h
  · exact plain_space h
  · exact signs u (by simpa [oneOf] using h)

theorem over_separator {s : String} (hs : ∀ v ∈ text s, Matched v) :
    (separator s).Over Matched := fun _ h => matched_oneOf hs h

theorem over_sequence {rs : List (Regex UInt16)} (h : ∀ r ∈ rs, r.Over Matched) :
    (sequence rs).Over Matched := by
  induction rs with
  | nil => trivial
  | cons r rs ih =>
    exact ⟨h r (List.mem_cons_self ..), ih fun q hq => h q (List.mem_cons_of_mem _ hq)⟩

theorem over_anyCase {lower upper : String} (hl : ∀ v ∈ text lower, Matched v)
    (hu : ∀ v ∈ text upper, Matched v) : (anyCase lower upper).Over Matched := by
  refine over_sequence fun r hr => ?_
  obtain ⟨⟨a, b⟩, hab, rfl⟩ := List.mem_map.1 hr
  intro u h
  simp only [Bool.or_eq_true, beq_iff_eq] at h
  rcases h with rfl | rfl
  · exact hl _ (List.of_mem_zip hab).1
  · exact hu _ (List.of_mem_zip hab).2

theorem over_digits (m : Nat) (n : Option Nat) : (Regex.rep digit m n).Over Matched :=
  fun _ h => matched_digit h

theorem over_spaces : (Regex.star (.one isSpace)).Over Matched := fun _ h => matched_space h

theorem over_pan : panPattern.Over Matched :=
  ⟨trivial, ⟨fun _ h => matched_digit h, over_separator (by decide)⟩, trivial, trivial⟩

theorem over_iban : ibanPattern.Over Matched := by
  refine ⟨trivial, fun u h => matched_letter h, over_digits 2 _, fun u h => ?_, trivial, trivial⟩
  rcases Bool.or_eq_true_iff.1 h with h | h
  · exact matched_letter h
  · exact matched_digit h

theorem over_cvv : cvvPattern.Over Matched := by
  have words : ∀ lower upper : String, (∀ v ∈ text lower, Matched v) →
      (∀ v ∈ text upper, Matched v) → (anyCase lower upper).Over Matched :=
    fun _ _ => over_anyCase
  exact ⟨trivial, ⟨words _ _ (by decide) (by decide), words _ _ (by decide) (by decide),
    words _ _ (by decide) (by decide)⟩, over_spaces, over_separator (by decide), over_spaces,
    over_digits 3 _, trivial, trivial⟩

theorem over_email : emailPattern.Over Matched := by
  have wordOr : ∀ s : String, (∀ v ∈ text s, Matched v) →
      (Regex.plus (.one fun u => isWord u || oneOf s u)).Over Matched := by
    intro s hs u h
    rcases Bool.or_eq_true_iff.1 h with h | h
    · exact matched_word h
    · exact matched_oneOf hs h
  exact ⟨wordOr _ (by decide), fun _ h => matched_oneOf (by decide) h, wordOr _ (by decide),
    fun _ h => matched_oneOf (by decide) h, wordOr _ (by decide), trivial⟩

theorem over_phone : phonePattern.Over Matched :=
  ⟨trivial,
    ⟨over_separator (by decide), over_digits 1 _, over_separator (by decide), trivial⟩,
    ⟨over_separator (by decide), over_digits 2 _, over_separator (by decide),
      over_separator (by decide), trivial⟩,
    over_digits 2 _, trivial, trivial⟩

/-- Rewriting the matches moves no boundary between characters. -/
theorem after_replace {f : Utf16 → Utf16}
    (hf : ∀ m, (∀ u ∈ m, Plain u) → Place.between.after (f m) = .between)
    {ps : List (Regex.Piece UInt16)} (hp : ∀ x ∈ ps, x.Over Plain) (p : Place)
    (h : p.after (ps.flatMap Regex.Piece.text) = .between) :
    p.after (Regex.replace f ps) = .between := by
  induction ps generalizing p with
  | nil => exact h
  | cons x ps ih =>
    have hps : ∀ y ∈ ps, y.Over Plain := fun y hy => hp y (List.mem_cons_of_mem _ hy)
    rw [List.flatMap_cons, after_append] at h
    cases x with
    | keep a => exact ih hps (p.next a) h
    | hit m =>
      obtain ⟨hne, hm⟩ := hp _ (List.mem_cons_self ..)
      rw [Regex.replace, List.flatMap_cons, after_append]
      cases p with
      | between =>
        rw [hf m hm]
        refine ih hps .between ?_
        rwa [Regex.Piece.text, between_after hm] at h
      | inside =>
        obtain ⟨u, m, rfl⟩ := List.exists_cons_of_ne_nil hne
        have hu := next_of_not_surrogate (hm u (List.mem_cons_self ..))
        simp [Regex.Piece.text, hu.2] at h
      | lost => simp at h

theorem Pass.wellFormed_clean {p : Pass} (ho : p.pattern.Over Matched) (ht : WellFormed p.token)
    {s : Utf16} (h : WellFormed s) : WellFormed (p.clean s) := by
  refine after_replace (fun m hm => ?_) ((ho.mono fun _ => Matched.plain).pieces s) .between ?_
  · rw [Pass.rewrite]
    split
    · exact ht
    · exact between_after hm
  · rw [Regex.text_pieces]
    exact h

theorem wellFormed_scan {s : Utf16} (h : WellFormed s) : WellFormed (scan s).cleaned := by
  have h₁ := panPass.wellFormed_clean over_pan (by decide) h
  have h₂ := ibanPass.wellFormed_clean over_iban (by decide) h₁
  have h₃ := cvvPass.wellFormed_clean over_cvv (by decide) h₂
  have h₄ := emailPass.wellFormed_clean over_email (by decide) h₃
  exact phonePass.wellFormed_clean over_phone (by decide) h₄

theorem wellFormed_trim {s : Utf16} (h : WellFormed s) : WellFormed (trim s) := by
  obtain ⟨a, b, e, ha, hb⟩ := trim_cut s
  exact ((congrArg WellFormed e).mp h).inner (fun u hu => plain_space (ha u hu))
    fun u hu => plain_space (hb u hu)

end WellFormed

end Messageries.Moderation
