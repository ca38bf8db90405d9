import Mathlib.Data.List.Basic

/-! UTF-16 strings, as a list of code units that need not be well formed. -/

namespace Messageries.Text

abbrev Utf16 := List UInt16

def isHigh (u : UInt16) : Bool := 0xD800 ≤ u.toNat && u.toNat < 0xDC00

def isLow (u : UInt16) : Bool := 0xDC00 ≤ u.toNat && u.toNat < 0xE000

def isSurrogate (u : UInt16) : Bool := isHigh u || isLow u

def replacement : Char := Char.ofNat 0xFFFD

def units (c : Char) : Utf16 :=
  if c.toNat < 0x10000 then [.ofNat c.toNat]
  else [.ofNat (0xD800 + (c.toNat - 0x10000) / 0x400), .ofNat (0xDC00 + (c.toNat - 0x10000) % 0x400)]

def encode (cs : List Char) : Utf16 := cs.flatMap units

def scalar (u : UInt16) : Char := if isSurrogate u then replacement else Char.ofNat u.toNat

def pair (u v : UInt16) : Char :=
  Char.ofNat (0x10000 + (u.toNat - 0xD800) * 0x400 + (v.toNat - 0xDC00))

/-- The scalar values of a string; a surrogate without its partner becomes U+FFFD. -/
def decode : Utf16 → List Char
  | [] => []
  | [u] => [scalar u]
  | u :: v :: rest =>
    if isHigh u && isLow v then pair u v :: decode rest else scalar u :: decode (v :: rest)

/-- Where a reader of code units stands: between characters, after a high
surrogate, or past a surrogate without its partner. -/
inductive Place
  | between
  | inside
  | lost
  deriving DecidableEq

def Place.next (u : UInt16) : Place → Place
  | .between => if isHigh u then .inside else if isLow u then .lost else .between
  | .inside => if isLow u then .between else .lost
  | .lost => .lost

def Place.after (p : Place) (s : Utf16) : Place := s.foldl (fun p u => p.next u) p

def WellFormed (s : Utf16) : Prop := Place.between.after s = .between

instance (s : Utf16) : Decidable (WellFormed s) := inferInstanceAs (Decidable (_ = _))

section Place

@[simp] theorem after_nil (p : Place) : p.after [] = p := rfl

@[simp] theorem after_cons (p : Place) (u : UInt16) (s : Utf16) :
    p.after (u :: s) = (p.next u).after s := rfl

theorem after_append (p : Place) (s t : Utf16) : p.after (s ++ t) = (p.after s).after t :=
  List.foldl_append

@[simp] theorem after_lost (s : Utf16) : Place.lost.after s = .lost := by
  induction s with
  | nil => rfl
  | cons u s ih => exact ih

theorem next_of_not_surrogate {u : UInt16} (h : isSurrogate u = false) :
    Place.between.next u = .between ∧ Place.inside.next u = .lost := by
  simp only [isSurrogate, Bool.or_eq_false_iff] at h
  simp [Place.next, h]

theorem between_after {s : Utf16} (h : ∀ u ∈ s, isSurrogate u = false) :
    Place.between.after s = .between := by
  induction s with
  | nil => rfl
  | cons u s ih =>
    rw [after_cons, (next_of_not_surrogate (h u (List.mem_cons_self ..))).1]
    exact ih fun v hv => h v (List.mem_cons_of_mem _ hv)

/-- A run of code units that are no surrogates stands between characters. -/
theorem WellFormed.cut {a b c : Utf16} (h : WellFormed (a ++ b ++ c)) (hb : b ≠ [])
    (hs : ∀ u ∈ b, isSurrogate u = false) : WellFormed a ∧ WellFormed c := by
  simp only [WellFormed, after_append] at h ⊢
  obtain ⟨u, b, rfl⟩ := List.exists_cons_of_ne_nil hb
  have hu := next_of_not_surrogate (hs u (List.mem_cons_self ..))
  have hb := between_after fun v hv => hs v (List.mem_cons_of_mem _ hv)
  rw [after_cons] at h
  cases ha : Place.between.after a with
  | between =>
    rw [ha, hu.1, hb] at h
    exact ⟨rfl, h⟩
  | inside => simp [ha, hu.2] at h
  | lost => simp [ha, Place.next] at h

theorem WellFormed.inner {a b c : Utf16} (h : WellFormed (a ++ b ++ c))
    (ha : ∀ u ∈ a, isSurrogate u = false) (hc : ∀ u ∈ c, isSurrogate u = false) :
    WellFormed b := by
  rw [WellFormed, after_append, after_append, between_after ha] at h
  cases c with
  | nil => exact h
  | cons u c =>
    have hu := next_of_not_surrogate (hc u (List.mem_cons_self ..))
    cases hb : Place.between.after b with
    | between => exact hb
    | inside => simp [hb, hu.2] at h
    | lost => simp [hb, Place.next] at h

theorem WellFormed.append {a b : Utf16} (ha : WellFormed a) (hb : WellFormed b) :
    WellFormed (a ++ b) := by
  rw [WellFormed, after_append, ha]
  exact hb

end Place

theorem decode_nil : decode [] = [] := rfl

theorem decode_cons_of_not_high {u : UInt16} (h : isHigh u = false) (s : Utf16) :
    decode (u :: s) = scalar u :: decode s := by
  cases s with
  | nil => rfl
  | cons v s => simp [decode, h]

theorem decode_pair {u v : UInt16} (hu : isHigh u = true) (hv : isLow v = true) (s : Utf16) :
    decode (u :: v :: s) = pair u v :: decode s := by
  simp [decode, hu, hv]

theorem length_decode {s : Utf16} (h : ∀ u ∈ s, isHigh u = false) :
    (decode s).length = s.length := by
  induction s with
  | nil => rfl
  | cons u s ih =>
    rw [decode_cons_of_not_high (h u (List.mem_cons_self ..)), List.length_cons, List.length_cons,
      ih fun v hv => h v (List.mem_cons_of_mem _ hv)]

/-- No character goes over the place before a unit that is no second half. -/
theorem decode_append {u : UInt16} (h : isLow u = false) (s t : Utf16) :
    decode (s ++ u :: t) = decode s ++ decode (u :: t) := by
  induction s using decode.induct with
  | case1 => rfl
  | case2 a => simp [decode, h]
  | case3 a b s hp ih =>
    simp only [List.cons_append, decode, hp, if_true, ih]
  | case4 a b s hp ih =>
    rw [List.cons_append, List.cons_append, decode, decode, if_neg hp, if_neg hp,
      List.cons_append, ← List.cons_append, ih]

theorem toNat_ofNat {n : Nat} (h : n.isValidChar) : (Char.ofNat n).toNat = n := by
  rw [Char.ofNat, dif_pos h]
  rfl

theorem char_valid (c : Char) : c.toNat < 0xD800 ∨ 0xDFFF < c.toNat ∧ c.toNat < 0x110000 :=
  c.valid

theorem decode_units (c : Char) (s : Utf16) : decode (units c ++ s) = c :: decode s := by
  have hc := char_valid c
  by_cases h : c.toNat < 0x10000
  · have hu : (UInt16.ofNat c.toNat).toNat = c.toNat := by simp; omega
    have hh : isHigh (.ofNat c.toNat) = false := by
      simp only [isHigh, hu, Bool.and_eq_false_iff, decide_eq_false_iff_not]
      omega
    have hl : isLow (.ofNat c.toNat) = false := by
      simp only [isLow, hu, Bool.and_eq_false_iff, decide_eq_false_iff_not]
      omega
    have hsc : scalar (.ofNat c.toNat) = c := by
      rw [scalar, isSurrogate, hh, hl, hu]
      exact Char.ofNat_toNat c
    rw [units, if_pos h, List.singleton_append, decode_cons_of_not_high hh, hsc]
  · have hu : (UInt16.ofNat (0xD800 + (c.toNat - 0x10000) / 0x400)).toNat =
        0xD800 + (c.toNat - 0x10000) / 0x400 := by simp; omega
    have hv : (UInt16.ofNat (0xDC00 + (c.toNat - 0x10000) % 0x400)).toNat =
        0xDC00 + (c.toNat - 0x10000) % 0x400 := by simp; omega
    have hh : isHigh (.ofNat (0xD800 + (c.toNat - 0x10000) / 0x400)) = true := by
      simp only [isHigh, hu, Bool.and_eq_true, decide_eq_true_eq]
      omega
    have hl : isLow (.ofNat (0xDC00 + (c.toNat - 0x10000) % 0x400)) = true := by
      simp only [isLow, hv, Bool.and_eq_true, decide_eq_true_eq]
      omega
    have hp : pair (.ofNat (0xD800 + (c.toNat - 0x10000) / 0x400))
        (.ofNat (0xDC00 + (c.toNat - 0x10000) % 0x400)) = c := by
      rw [pair, hu, hv]
      have e : 0x10000 + (0xD800 + (c.toNat - 0x10000) / 0x400 - 0xD800) * 0x400 +
          (0xDC00 + (c.toNat - 0x10000) % 0x400 - 0xDC00) = c.toNat := by omega
      rw [e]
      exact Char.ofNat_toNat c
    rw [units, if_neg h, List.cons_append, List.cons_append, List.nil_append, decode_pair hh hl, hp]

theorem decode_encode (cs : List Char) : decode (encode cs) = cs := by
  induction cs with
  | nil => rfl
  | cons c cs ih =>
    rw [encode, List.flatMap_cons, decode_units]
    exact congrArg (c :: ·) ih

theorem units_scalar {u : UInt16} (h : isSurrogate u = false) : units (scalar u) = [u] := by
  have hv : u.toNat < 0xD800 ∨ 0xDFFF < u.toNat ∧ u.toNat < 0x110000 := by
    have := u.toNat_lt
    simp only [isSurrogate, isHigh, isLow, Bool.or_eq_false_iff, Bool.and_eq_false_iff,
      decide_eq_false_iff_not] at h
    omega
  have hn : (Char.ofNat u.toNat).toNat = u.toNat := toNat_ofNat hv
  rw [scalar, if_neg (by simp [h]), units, hn, if_pos u.toNat_lt, UInt16.ofNat_toNat]

theorem units_pair {u v : UInt16} (hu : isHigh u = true) (hv : isLow v = true) :
    units (pair u v) = [u, v] := by
  simp only [isHigh, isLow, Bool.and_eq_true, decide_eq_true_eq] at hu hv
  have hc : Nat.isValidChar (0x10000 + (u.toNat - 0xD800) * 0x400 + (v.toNat - 0xDC00)) := by
    refine .inr ⟨?_, ?_⟩ <;> omega
  have hn : (pair u v).toNat = 0x10000 + (u.toNat - 0xD800) * 0x400 + (v.toNat - 0xDC00) :=
    toNat_ofNat hc
  have eu : 0xD800 + ((pair u v).toNat - 0x10000) / 0x400 = u.toNat := by omega
  have ev : 0xDC00 + ((pair u v).toNat - 0x10000) % 0x400 = v.toNat := by omega
  rw [units, if_neg (by omega), eu, ev, UInt16.ofNat_toNat, UInt16.ofNat_toNat]

/-- A well-formed string is the text it was read as. -/
theorem encode_decode {s : Utf16} (h : WellFormed s) : encode (decode s) = s := by
  induction s using decode.induct with
  | case1 => rfl
  | case2 u =>
    have hs : isSurrogate u = false := by
      simp only [WellFormed, after_cons, after_nil, Place.next] at h
      simp only [isSurrogate, Bool.or_eq_false_iff]
      cases hh : isHigh u <;> cases hl : isLow u <;> simp_all
    simp [decode, encode, units_scalar hs]
  | case3 u v rest hp ih =>
    simp only [Bool.and_eq_true] at hp
    rw [decode_pair hp.1 hp.2, encode, List.flatMap_cons, units_pair hp.1 hp.2]
    simp only [WellFormed, after_cons, Place.next, hp.1, hp.2, if_true] at h
    exact congrArg (fun s => u :: v :: s) (ih h)
  | case4 u v rest hp ih =>
    simp only [WellFormed, after_cons, Place.next] at h
    have hh : isHigh u = false := by
      cases hh : isHigh u with
      | false => rfl
      | true =>
        have hl : isLow v = false := by
          cases hl : isLow v with
          | false => rfl
          | true => exact (hp (by simp [hh, hl])).elim
        simp [hh, hl] at h
    have hl : isLow u = false := by
      cases hl : isLow u with
      | false => rfl
      | true => simp [hh, hl] at h
    simp only [hh, hl] at h
    rw [decode_cons_of_not_high hh, encode, List.flatMap_cons,
      units_scalar (by simp [isSurrogate, hh, hl])]
    exact congrArg (u :: ·) (ih h)

end Messageries.Text
