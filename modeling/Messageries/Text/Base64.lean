import Messageries.Text.Utf8

namespace Messageries.Text

def digit (v : Nat) : UInt16 :=
  if v < 26 then .ofNat (65 + v)
  else if v < 52 then .ofNat (71 + v)
  else if v < 62 then .ofNat (v - 4)
  else if v = 62 then 43
  else 47

def padding : UInt16 := 61

/-- The alphabet of the reader also has the two letters of the URL variant. -/
def sextet (u : UInt16) : Option Nat :=
  let n := u.toNat
  if 65 ≤ n ∧ n ≤ 90 then some (n - 65)
  else if 97 ≤ n ∧ n ≤ 122 then some (n - 71)
  else if 48 ≤ n ∧ n ≤ 57 then some (n + 4)
  else if n = 43 ∨ n = 45 then some 62
  else if n = 47 ∨ n = 95 then some 63
  else none

def toBase64 : Bytes → Utf16
  | [] => []
  | [a] => [digit (a.toNat / 4), digit (a.toNat % 4 * 16), padding, padding]
  | [a, b] =>
    [digit (a.toNat / 4), digit (a.toNat % 4 * 16 + b.toNat / 16), digit (b.toNat % 16 * 4),
      padding]
  | a :: b :: c :: rest =>
    digit (a.toNat / 4) :: digit (a.toNat % 4 * 16 + b.toNat / 16) ::
      digit (b.toNat % 16 * 4 + c.toNat / 64) :: digit (c.toNat % 64) :: toBase64 rest

def ofSextets : List Nat → Bytes
  | a :: b :: c :: d :: rest =>
    .ofNat (a * 4 + b / 16) :: .ofNat (b % 16 * 16 + c / 4) :: .ofNat (c % 4 * 64 + d) ::
      ofSextets rest
  | [a, b, c] => [.ofNat (a * 4 + b / 16), .ofNat (b % 16 * 16 + c / 4)]
  | [a, b] => [.ofNat (a * 4 + b / 16)]
  | _ => []

/-- Reading stops at the padding and skips what is no digit. -/
def ofBase64 (s : Utf16) : Bytes := ofSextets ((s.takeWhile (· ≠ padding)).filterMap sextet)

theorem sextet_digit : ∀ v < 64, sextet (digit v) = some v := by
  decide

theorem digit_ne : ∀ v < 64, digit v ≠ padding ∧ digit v ≠ 58 := by
  decide

/-- One digit before the rest of the text. -/
theorem sextets_digit {v : Nat} (h : v < 64) (s : Utf16) :
    ((digit v :: s).takeWhile (· ≠ padding)).filterMap sextet =
      v :: (s.takeWhile (· ≠ padding)).filterMap sextet := by
  rw [List.takeWhile_cons_of_pos (by simpa using (digit_ne v h).1),
    List.filterMap_cons_some (sextet_digit v h)]

theorem sextets_padding (s : Utf16) :
    ((padding :: s).takeWhile (· ≠ padding)).filterMap sextet = [] := by
  simp

theorem byte_eq {a : UInt8} {n : Nat} (h : n = a.toNat) : UInt8.ofNat n = a := by
  rw [h, UInt8.ofNat_toNat]

theorem ofBase64_toBase64 (bs : Bytes) : ofBase64 (toBase64 bs) = bs := by
  induction bs using toBase64.induct with
  | case1 => rfl
  | case2 a =>
    have ha := a.toNat_lt
    rw [toBase64, ofBase64, sextets_digit (by omega), sextets_digit (by omega), sextets_padding,
      ofSextets, byte_eq (a := a) (by omega)]
  | case3 a b =>
    have ha := a.toNat_lt
    have hb := b.toNat_lt
    rw [toBase64, ofBase64, sextets_digit (by omega), sextets_digit (by omega),
      sextets_digit (by omega), sextets_padding, ofSextets, byte_eq (a := a) (by omega),
      byte_eq (a := b) (by omega)]
  | case4 a b c rest ih =>
    have ha := a.toNat_lt
    have hb := b.toNat_lt
    have hc := c.toNat_lt
    rw [toBase64, ofBase64, sextets_digit (by omega), sextets_digit (by omega),
      sextets_digit (by omega), sextets_digit (by omega), ofSextets,
      byte_eq (a := a) (by omega), byte_eq (a := b) (by omega), byte_eq (a := c) (by omega)]
    exact congrArg (fun bs => a :: b :: c :: bs) ih

/-- The text has digits and the padding only. -/
theorem forall_toBase64 {P : UInt16 → Prop} (digits : ∀ v < 64, P (digit v)) (pad : P padding)
    (bs : Bytes) : ∀ u ∈ toBase64 bs, P u := by
  induction bs using toBase64.induct with
  | case1 => simp [toBase64]
  | case2 a =>
    have ha := a.toNat_lt
    simp only [toBase64, List.mem_cons, List.not_mem_nil, or_false]
    rintro u (rfl | rfl | rfl | rfl)
    exacts [digits _ (by omega), digits _ (by omega), pad, pad]
  | case3 a b =>
    have ha := a.toNat_lt
    have hb := b.toNat_lt
    simp only [toBase64, List.mem_cons, List.not_mem_nil, or_false]
    rintro u (rfl | rfl | rfl | rfl)
    exacts [digits _ (by omega), digits _ (by omega), digits _ (by omega), pad]
  | case4 a b c rest ih =>
    have ha := a.toNat_lt
    have hb := b.toNat_lt
    have hc := c.toNat_lt
    simp only [toBase64, List.mem_cons]
    rintro u (rfl | rfl | rfl | rfl | hu)
    exacts [digits _ (by omega), digits _ (by omega), digits _ (by omega), digits _ (by omega),
      ih u hu]

/-- No colon in the text. -/
theorem toBase64_ne (bs : Bytes) : ∀ u ∈ toBase64 bs, u ≠ 58 :=
  forall_toBase64 (fun v hv => (digit_ne v hv).2) (by decide) bs

/-- Four letters for every three bytes begun. -/
theorem length_toBase64 (bs : Bytes) : (toBase64 bs).length = (bs.length + 2) / 3 * 4 := by
  induction bs using toBase64.induct with
  | case1 => rfl
  | case2 a => simp [toBase64]
  | case3 a b => simp [toBase64]
  | case4 a b c rest ih =>
    simp only [toBase64, List.length_cons, ih]
    omega

end Messageries.Text
