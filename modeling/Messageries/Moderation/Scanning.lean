import Messageries.Moderation.ContentScanner
import Messageries.Text.Rewriting

namespace Messageries.Moderation

open Text Text.Regex

variable {s : Utf16} {p : Pass}

section Bounded

/-- An expression between two `\b`. -/
def bounded (rs : List (Regex UInt16)) : Regex UInt16 := sequence (boundary :: (rs ++ [boundary]))

variable {rs qs : List (Regex UInt16)} {r : Regex UInt16} {a e : Regex.Place UInt16}

theorem mem_ends_cons : e ∈ (sequence (r :: rs)).ends a ↔
    ∃ b ∈ r.ends a, e ∈ (sequence rs).ends b := by
  simp [sequence, ends]

theorem mem_ends_append : e ∈ (sequence (rs ++ qs)).ends a ↔
    ∃ b ∈ (sequence rs).ends a, e ∈ (sequence qs).ends b := by
  induction rs generalizing a with
  | nil => simp [sequence, ends]
  | cons r rs ih =>
    simp only [List.cons_append, mem_ends_cons, ih]
    constructor
    · rintro ⟨b, hb, c, hc, he⟩
      exact ⟨c, ⟨b, hb, hc⟩, he⟩
    · rintro ⟨c, ⟨b, hb, hc⟩, he⟩
      exact ⟨b, hb, c, hc, he⟩

theorem mem_ends_boundary : e ∈ boundary.ends a ↔ e = a ∧ bound isWord a.1 a.2.head? = true := by
  simp only [boundary, ends, bound]
  split <;> simp_all

theorem mem_ends_bounded : e ∈ (bounded rs).ends a ↔
    bound isWord a.1 a.2.head? = true ∧ e ∈ (sequence rs).ends a ∧
      bound isWord e.1 e.2.head? = true := by
  simp only [bounded, mem_ends_cons, mem_ends_append, mem_ends_boundary]
  simp only [sequence, ends, List.mem_singleton]
  constructor
  · rintro ⟨_, ⟨rfl, ha⟩, b, he, _, ⟨rfl, hb⟩, rfl⟩
    exact ⟨ha, he, hb⟩
  · rintro ⟨ha, he, hb⟩
    exact ⟨a, ⟨rfl, ha⟩, e, he, e, ⟨rfl, hb⟩, rfl⟩

theorem edged_bounded (rs : List (Regex UInt16)) (s : Utf16) :
    Edged isWord ((bounded rs).pieces s) := by
  intro A m B h
  obtain ⟨hm, he, -⟩ := (sits_of_pieces h).found
  obtain ⟨hl, -, hr⟩ := mem_ends_bounded.1 he
  obtain ⟨u, m, rfl⟩ := List.exists_cons_of_ne_nil hm
  refine ⟨hm, fun hj => ?_, fun hj => ?_⟩
  · simp [bound, hj.1, show isWord u = true from hj.2] at hl
  · rw [bound, hj.1, hj.2] at hr
    cases hr

end Bounded

section Email

variable {f : UInt16 → Bool} {r q : Regex UInt16} {a e : Regex.Place UInt16}

theorem ends_sequence_one : (sequence [r]).ends a = r.ends a := List.flatMap_singleton' _

theorem oneOf_at {u : UInt16} : oneOf "@" u = true ↔ u = 64 := by
  rw [oneOf, show text "@" = [64] by decide]
  simp

theorem needs_email : emailPattern.Needs fun u => u = 64 :=
  .inr (.inl fun _ h => oneOf_at.1 h)

/-- An address ends where no letter of it follows. -/
theorem ends_email (h : (emailPattern.ends a).head? = some e) : e.2.head?.any isWord = false := by
  obtain ⟨_, -, h⟩ := head?_ends_seq h
  obtain ⟨_, -, h⟩ := head?_ends_seq h
  obtain ⟨_, -, h⟩ := head?_ends_seq h
  obtain ⟨_, -, h⟩ := head?_ends_seq h
  rw [ends_sequence_one] at h
  have := head?_ends_plus h
  cases he : e.2.head? with
  | none => rfl
  | some u =>
    rw [he] at this
    exact (Bool.or_eq_false_iff.1 this).1

theorem cons_email {u : UInt16} (hu : isWord u = true) {m : Utf16} (h : emailPattern.Accepts m) :
    emailPattern.Accepts (u :: m) := by
  obtain ⟨v, w, rfl, ⟨k, hk, -, hv⟩, hw⟩ := h
  refine ⟨u :: v, w, rfl, ⟨k + 1, by omega, nofun, ?_⟩, hw⟩
  exact Repeats.succ (u := [u]) ⟨u, by simp [hu], rfl⟩ hv

theorem lookFree_email : emailPattern.LookFree := ⟨trivial, trivial, trivial, trivial, trivial, trivial⟩

theorem edged_email (s : Utf16) : Edged isWord (emailPattern.pieces s) := by
  have closed : ∀ A m B, emailPattern.pieces s = A ++ .hit m :: B →
      ¬ Joined isWord m.getLast? (texts B).head? := by
    intro A m B h hj
    obtain ⟨-, l, hf⟩ := sits_of_pieces h
    rw [needs_email.first] at hf
    exact absurd hj.2 (by simp [ends_email hf])
  intro A m B h
  obtain ⟨hm, -, ha⟩ := (sits_of_pieces h).found
  refine ⟨hm, fun hj => ?_, closed A m B h⟩
  rcases List.eq_nil_or_concat A with rfl | ⟨A, x, rfl⟩
  · simp [Regex.Joined] at hj
  · rw [List.concat_eq_append, List.append_assoc] at h
    rw [List.concat_eq_append] at hj
    cases x with
    | keep u =>
      -- the match would have begun at this letter
      have hu : isWord u = true := by simpa using hj.1
      have none : ((u :: m) ++ texts B).length ≤ (texts B).length :=
        first_eq_none.1 (sits_of_pieces h) _
          (mem_ends_of_accepts lookFree_email (cons_email hu ha) _ (texts B))
      rw [List.length_append, List.length_cons] at none
      omega
    | hit n =>
      refine closed A n _ h ⟨?_, ?_⟩
      · obtain ⟨hn, -, -⟩ := (sits_of_pieces h).found
        obtain ⟨n, b, rfl⟩ := (List.eq_nil_or_concat n).resolve_left hn
        simpa [← List.append_assoc] using hj.1
      · obtain ⟨b, m, rfl⟩ := List.exists_cons_of_ne_nil hm
        simpa using hj.2

end Email

section Passes

/-- A letter that no token has. -/
def Alien (u : UInt16) : Prop := isDigit u = true ∨ u = 64

instance (u : UInt16) : Decidable (Alien u) := inferInstanceAs (Decidable (_ ∨ _))

/-- The patterns, between two `\b` or with none. -/
inductive Anchored : Regex UInt16 → Prop
  | bounded {r : List (Regex UInt16)} : (sequence r).LookFree → Anchored (bounded r)
  | free {r : Regex UInt16} : r.LookFree → Anchored r

/-- What the passes have in common. -/
structure Scans (p : Pass) : Prop where
  matched : p.pattern.Over Matched
  needs : p.pattern.Needs Alien
  anchored : Anchored p.pattern
  edged : ∀ s, Edged isWord (p.pattern.pieces s)
  token : Bracketed 91 93 p.token
  token_alien : ∀ u ∈ p.token, ¬ Alien u

theorem lookFree_sequence {rs : List (Regex UInt16)} (h : ∀ r ∈ rs, r.LookFree) :
    (sequence rs).LookFree := by
  induction rs with
  | nil => trivial
  | cons r rs ih =>
    exact ⟨h r (List.mem_cons_self ..), ih fun q hq => h q (List.mem_cons_of_mem _ hq)⟩

theorem lookFree_anyCase (lower upper : String) : (anyCase lower upper).LookFree := by
  refine lookFree_sequence fun r hr => ?_
  obtain ⟨_, -, rfl⟩ := List.mem_map.1 hr
  trivial

theorem bracketed_token (inner : Utf16) (ho : 91 ∉ inner) (hc : 93 ∉ inner) :
    Bracketed 91 93 (91 :: (inner ++ [93])) :=
  ⟨by decide, inner, rfl, ho, hc⟩

theorem scans_pan : Scans panPass where
  matched := over_pan
  needs := .inr (.inl ⟨by decide, .inl fun _ h => .inl h⟩)
  anchored := .bounded (r := [_]) ⟨⟨trivial, trivial⟩, trivial⟩
  edged := edged_bounded [_]
  token := bracketed_token (text "REDACTED_PAN") (by decide) (by decide)
  token_alien := by decide

theorem scans_iban : Scans ibanPass where
  matched := over_iban
  needs := .inr (.inr (.inl ⟨by decide, fun _ h => .inl h⟩))
  anchored := .bounded (r := [_, _, _]) ⟨trivial, trivial, trivial, trivial⟩
  edged := edged_bounded [_, _, _]
  token := bracketed_token (text "REDACTED_IBAN") (by decide) (by decide)
  token_alien := by decide

theorem scans_cvv : Scans cvvPass where
  matched := over_cvv
  needs := .inr (.inr (.inr (.inr (.inr (.inl ⟨by decide, fun _ h => .inl h⟩)))))
  anchored := .bounded (r := [_, _, _, _, _])
    ⟨⟨lookFree_anyCase .., lookFree_anyCase .., lookFree_anyCase ..⟩, trivial, trivial, trivial,
      trivial, trivial⟩
  edged := edged_bounded [_, _, _, _, _]
  token := bracketed_token (text "REDACTED_CVV") (by decide) (by decide)
  token_alien := by decide

theorem scans_email : Scans emailPass where
  matched := over_email
  needs := .inr (.inl fun _ h => .inr (oneOf_at.1 h))
  anchored := .free lookFree_email
  edged := edged_email
  token := bracketed_token (text "REDACTED_EMAIL") (by decide) (by decide)
  token_alien := by decide

theorem scans_phone : Scans phonePass where
  matched := over_phone
  needs := .inr (.inr (.inr (.inl ⟨by decide, fun _ h => .inl h⟩)))
  anchored := .bounded (r := [_, _, _])
    ⟨⟨trivial, trivial, trivial, trivial⟩, ⟨trivial, trivial, trivial, trivial, trivial⟩, trivial,
      trivial⟩
  edged := edged_bounded [_, _, _]
  token := bracketed_token (text "REDACTED_PHONE") (by decide) (by decide)
  token_alien := by decide

theorem scans (hp : p ∈ passes) : Scans p := by
  simp only [passes, List.mem_cons, List.not_mem_nil, or_false] at hp
  rcases hp with rfl | rfl | rfl | rfl | rfl
  · exact scans_pan
  · exact scans_iban
  · exact scans_cvv
  · exact scans_email
  · exact scans_phone

end Passes

section Marks

/-- The text cut at the matches that the pass redacts. -/
def Pass.marks (p : Pass) (s : Utf16) : List (Piece UInt16) :=
  settle p.redacts (p.pattern.pieces s)

/-- How many matches the pass redacts. -/
def Pass.replacements (p : Pass) (s : Utf16) : Nat :=
  (p.pattern.pieces s).countP (Piece.hitBy p.redacts)

theorem Pass.clean_eq (p : Pass) (s : Utf16) :
    p.clean s = replace (fun _ => p.token) (p.marks s) :=
  (replace_settle ..).symm

@[simp] theorem Pass.texts_marks (p : Pass) (s : Utf16) : texts (p.marks s) = s := by
  simp [marks]

theorem Pass.flagged_iff (p : Pass) (s : Utf16) : p.flagged s = true ↔ 0 < p.replacements s := by
  rw [flagged, replacements, List.countP_pos_iff, List.any_eq_true]
  refine exists_congr fun x => and_congr_right fun _ => ?_
  cases x <;> rfl

variable {m : Utf16} {u v w : Utf16} {r : Regex UInt16}

theorem mem_marks (h : .hit m ∈ p.marks s) :
    .hit m ∈ p.pattern.pieces s ∧ p.redacts m = true := by
  obtain ⟨A, B, h⟩ := List.append_of_mem h
  obtain ⟨A', B', hps, -, -, hr⟩ := settle_split h
  exact ⟨by simp [hps], hr⟩

theorem Scans.edged_marks (h : Scans p) (s : Utf16) : Edged isWord (p.marks s) :=
  (h.edged s).settle _

theorem not_matched_bracket : ¬ Matched 91 ∧ ¬ Matched 93 := by decide

/-- A word of one of the patterns is no part of a token. -/
theorem Scans.loose (h : Scans p) {q : Pass} (hq : Scans q) (hm : q.pattern.Accepts m) :
    Loose 91 93 p.token m := by
  obtain ⟨x, hx, ha⟩ := hq.needs.accepts hm
  refine ⟨fun ho => ?_, fun hc => ?_, x, hx, fun ht => h.token_alien x ht ha⟩
  · exact not_matched_bracket.1 (hq.matched.accepts hm _ ho)
  · exact not_matched_bracket.2 (hq.matched.accepts hm _ hc)

/-- Every pass leaves every token as it is, its own and those of others. -/
theorem Scans.token_kept (h : Scans p) {q : Pass} (hq : Scans q)
    (e : s = u ++ q.token ++ v) : ∃ A B,
      p.pattern.pieces s = A ++ q.token.map .keep ++ B ∧ texts A = u ∧ texts B = v := by
  have whole : replace id (p.pattern.pieces s) = u ++ q.token ++ v := by
    rw [replace_id, texts_pieces, e]
  have := kept_of_apart whole fun m hm => by
      obtain ⟨hne, ha⟩ := accepts_of_hit hm
      exact ⟨hne, (hq.token.apart (hq.loose h ha)).symm⟩
  simpa only [replace_id] using this

/-- A pass changes the number of its own tokens, by one for each replacement. -/
theorem Scans.occurrences_clean (h : Scans p) {q : Pass} (hq : Scans q) (s : Utf16) :
    occurrences q.token (p.clean s) =
      occurrences q.token s + if q.token = p.token then p.replacements s else 0 := by
  have := hq.token.occurrences_replace h.token (fun m (hm : .hit m ∈ p.marks s) =>
    hq.loose h (accepts_of_hit (mem_marks hm).1).2) []
  simpa [Pass.clean_eq, Pass.marks, Pass.replacements, hits_settle] using this

theorem Pass.clean_of_replacements (h : p.replacements s = 0) : p.clean s = s := by
  have none : ∀ m, .hit m ∉ p.marks s := by
    intro m hm
    obtain ⟨hm, hr⟩ := mem_marks hm
    exact absurd (List.countP_eq_zero.1 h _ hm) (by simp [Piece.hitBy, hr])
  calc p.clean s = replace id (p.marks s) := by
        rw [clean_eq, eq_keeps none id, replace_map_keep, replace_map_keep]
    _ = s := by rw [replace_id, texts_marks]

end Marks

section Places

variable {q : Pass} {u v w : Utf16} {r : Regex UInt16} {rs : List (Regex UInt16)}

/-- The expression goes over `w` where it stands between `u` and `v`. -/
def Spans (r : Regex UInt16) (u w v : Utf16) : Prop :=
  w ≠ [] ∧ (w.getLast?, v) ∈ r.ends (u.getLast?, w ++ v)

theorem spans_free (hr : r.LookFree) : Spans r u w v ↔ w ≠ [] ∧ r.Accepts w := by
  refine and_congr_right fun hw => ?_
  rw [mem_ends_iff hr]
  refine ⟨fun ⟨x, hx, ha⟩ => ?_, fun ha => ⟨w, ⟨rfl, (after_of_ne_nil hw _).symm⟩, ha⟩⟩
  rwa [List.append_cancel_right hx.1]

theorem spans_bounded (hr : (sequence rs).LookFree) :
    Spans (bounded rs) u w v ↔ bound isWord u.getLast? w.head? = true ∧
      (w ≠ [] ∧ (sequence rs).Accepts w) ∧ bound isWord w.getLast? v.head? = true := by
  rw [← spans_free (u := u) (v := v) hr, Spans, mem_ends_bounded]
  refine ⟨fun ⟨hw, hl, he, hb⟩ => ?_, fun ⟨hl, ⟨hw, he⟩, hb⟩ => ?_⟩
  · obtain ⟨a, w, rfl⟩ := List.exists_cons_of_ne_nil hw
    exact ⟨hl, ⟨hw, he⟩, hb⟩
  · obtain ⟨a, w, rfl⟩ := List.exists_cons_of_ne_nil hw
    exact ⟨hw, hl, he, hb⟩

theorem Spans.accepts (h : Spans r u w v) : r.Accepts w := by
  obtain ⟨x, hx, ha⟩ := accepts_of_mem_ends _ _ h.2
  rwa [List.append_cancel_right hx.1]

/-- No boundary around kept letters is new. -/
theorem Scans.bounds (hp : Scans p) {A B : List (Piece UInt16)} (hw : w ≠ [])
    (h : p.marks s = A ++ w.map .keep ++ B) :
    (bound isWord (replace (fun _ => p.token) A).getLast? w.head? = true →
      bound isWord (texts A).getLast? w.head? = true) ∧
    (bound isWord w.getLast? (replace (fun _ => p.token) B).head? = true →
      bound isWord w.getLast? (texts B).head? = true) := by
  have he := hp.edged_marks s
  rw [h] at he
  constructor
  · obtain ⟨a, w, rfl⟩ := List.exists_cons_of_ne_nil hw
    rw [List.append_assoc] at he
    exact he.bound_left hp.token (by decide)
  · obtain ⟨w, b, rfl⟩ := (List.eq_nil_or_concat w).resolve_left hw
    simp only [List.concat_eq_append, List.map_append, List.getLast?_concat] at he ⊢
    rw [← List.append_assoc, List.append_assoc] at he
    exact he.bound_right hp.token (by decide)

/-- What a pattern matches after a pass stood in the text before, a match there too, and
the pass kept it. -/
theorem Scans.stood (hp : Scans p) (hq : Scans q) (e : p.clean s = u ++ w ++ v)
    (h : Spans q.pattern u w v) : ∃ A B, p.marks s = A ++ w.map .keep ++ B ∧
      Spans q.pattern (texts A) w (texts B) := by
  rw [Pass.clean_eq] at e
  obtain ⟨A, B, hm, rfl, rfl⟩ := kept_of_apart e fun m _ =>
    ⟨hp.token.ne_nil, hp.token.apart (hp.loose hq h.accepts)⟩
  refine ⟨A, B, hm, ?_⟩
  obtain ⟨hl, hr⟩ := hp.bounds h.1 hm
  have anchored := hq.anchored
  generalize q.pattern = r at anchored h
  cases anchored with
  | bounded hf =>
    obtain ⟨h₁, h₂, h₃⟩ := (spans_bounded hf).1 h
    exact (spans_bounded hf).2 ⟨hl h₁, h₂, hr h₃⟩
  | free hf => exact (spans_free hf).2 ((spans_free hf).1 h)

theorem Pass.marks_eq {A B : List (Piece UInt16)} (h : p.marks s = A ++ w.map .keep ++ B) :
    s = texts A ++ w ++ texts B := by
  simpa using congrArg texts h

/-- Nothing in the text is for the expression. -/
def Clear (r : Regex UInt16) (s : Utf16) : Prop := ∀ u w v, s = u ++ w ++ v → ¬ Spans r u w v

theorem Scans.clear (hp : Scans p) (hq : Scans q) (h : Clear q.pattern s) :
    Clear q.pattern (p.clean s) := by
  intro u w v e hs
  obtain ⟨A, B, hm, hs⟩ := hp.stood hq e hs
  exact h _ _ _ (Pass.marks_eq hm) hs

/-- A pass that redacts every match leaves none. -/
theorem Scans.clear_clean (hp : Scans p) (h : ∀ m, p.redacts m = true) (s : Utf16) :
    Clear p.pattern (p.clean s) := by
  intro u w v e hs
  obtain ⟨A, B, hm, hw, hs⟩ := hp.stood hp e hs
  obtain ⟨a, w, rfl⟩ := List.exists_cons_of_ne_nil hw
  rw [Pass.marks, settle_all h, List.append_assoc] at hm
  have none : (a :: texts (w.map .keep ++ B)).length ≤ (texts B).length :=
    first_eq_none.1 (sits_of_pieces hm) ((a :: w).getLast?, texts B) (by simpa using hs)
  rw [texts_append, List.length_cons, List.length_append] at none
  omega

theorem spans_of_marks {A B : List (Piece UInt16)} {m : Utf16} (h : p.marks s = A ++ .hit m :: B) :
    s = texts A ++ m ++ texts B ∧ Spans p.pattern (texts A) m (texts B) := by
  obtain ⟨A', B', e, rfl, rfl, -⟩ := settle_split h
  obtain ⟨hm, hs, -⟩ := (sits_of_pieces e).found
  rw [texts_settle, texts_settle]
  refine ⟨?_, hm, hs⟩
  rw [← texts_pieces p.pattern s, e]
  simp

theorem Clear.replacements (h : Clear p.pattern s) : p.replacements s = 0 := by
  refine List.countP_eq_zero.2 fun x hx => ?_
  cases x with
  | keep a => simp [Piece.hitBy]
  | hit m =>
    obtain ⟨A, B, e⟩ := List.append_of_mem hx
    obtain ⟨hm, hs, -⟩ := (sits_of_pieces e).found
    refine absurd ⟨hm, hs⟩ (h (texts A) m (texts B) ?_)
    rw [← texts_pieces p.pattern s, e]
    simp

end Places

end Messageries.Moderation
