import Messageries.Text.Utf16

namespace Messageries.Text

abbrev Bytes := List UInt8

def utf8 (c : Char) : Bytes :=
  let n := c.toNat
  if n < 0x80 then [.ofNat n]
  else if n < 0x800 then [.ofNat (0xC0 + n / 0x40), .ofNat (0x80 + n % 0x40)]
  else if n < 0x10000 then
    [.ofNat (0xE0 + n / 0x1000), .ofNat (0x80 + n / 0x40 % 0x40), .ofNat (0x80 + n % 0x40)]
  else
    [.ofNat (0xF0 + n / 0x40000), .ofNat (0x80 + n / 0x1000 % 0x40),
      .ofNat (0x80 + n / 0x40 % 0x40), .ofNat (0x80 + n % 0x40)]

def toBytes (cs : List Char) : Bytes := cs.flatMap utf8

/-- A character of which `left` bytes follow the next one, which lies between
`lo` and `hi`. -/
structure Partial where
  left : Nat
  code : Nat
  lo : Nat
  hi : Nat

def lead (b : Nat) : List Char × Option Partial :=
  if b < 0x80 then ([Char.ofNat b], none)
  else if b < 0xC2 then ([replacement], none)
  else if b < 0xE0 then ([], some ⟨0, b - 0xC0, 0x80, 0xBF⟩)
  else if b < 0xF0 then
    ([], some ⟨1, b - 0xE0, if b = 0xE0 then 0xA0 else 0x80, if b = 0xED then 0x9F else 0xBF⟩)
  else if b < 0xF5 then
    ([], some ⟨2, b - 0xF0, if b = 0xF0 then 0x90 else 0x80, if b = 0xF4 then 0x8F else 0xBF⟩)
  else ([replacement], none)

/-- The reader replaces each part that cannot be continued by U+FFFD. -/
def ofBytesFrom : Option Partial → Bytes → List Char
  | none, [] => []
  | some _, [] => [replacement]
  | none, b :: bs => (lead b.toNat).1 ++ ofBytesFrom (lead b.toNat).2 bs
  | some p, b :: bs =>
    if p.lo ≤ b.toNat ∧ b.toNat ≤ p.hi then
      match p.left with
      | 0 => Char.ofNat (p.code * 0x40 + (b.toNat - 0x80)) :: ofBytesFrom none bs
      | n + 1 => ofBytesFrom (some ⟨n, p.code * 0x40 + (b.toNat - 0x80), 0x80, 0xBF⟩) bs
    else replacement :: ((lead b.toNat).1 ++ ofBytesFrom (lead b.toNat).2 bs)

def ofBytes (bs : Bytes) : List Char := ofBytesFrom none bs

theorem ofBytesFrom_last {p : Partial} {b : UInt8} (hl : p.lo ≤ b.toNat) (hh : b.toNat ≤ p.hi)
    (h0 : p.left = 0) (bs : Bytes) :
    ofBytesFrom (some p) (b :: bs) =
      Char.ofNat (p.code * 0x40 + (b.toNat - 0x80)) :: ofBytesFrom none bs := by
  simp [ofBytesFrom, hl, hh, h0]

theorem ofBytesFrom_more {p : Partial} {b : UInt8} {n : Nat} (hl : p.lo ≤ b.toNat)
    (hh : b.toNat ≤ p.hi) (hn : p.left = n + 1) (bs : Bytes) :
    ofBytesFrom (some p) (b :: bs) =
      ofBytesFrom (some ⟨n, p.code * 0x40 + (b.toNat - 0x80), 0x80, 0xBF⟩) bs := by
  simp [ofBytesFrom, hl, hh, hn]

theorem toNat_byte {n : Nat} (h : n < 256) : (UInt8.ofNat n).toNat = n := by
  simp
  omega

theorem ofBytesFrom_utf8 (c : Char) (bs : Bytes) :
    ofBytesFrom none (utf8 c ++ bs) = c :: ofBytesFrom none bs := by
  have hc := char_valid c
  have last : ∀ n, n = c.toNat → Char.ofNat n = c := fun n e => e ▸ Char.ofNat_toNat c
  simp only [utf8]
  split
  · -- one byte
    simp only [List.cons_append, List.nil_append, ofBytesFrom, lead]
    rw [toNat_byte (by omega), if_pos (by omega)]
    simp
  split
  · -- two bytes
    simp only [List.cons_append, List.nil_append]
    rw [ofBytesFrom, lead, toNat_byte (by omega), if_neg (by omega), if_neg (by omega),
      if_pos (by omega), List.nil_append]
    rw [ofBytesFrom_last ?_ ?_ rfl, toNat_byte (by omega)]
    · simp only
      rw [last _ (by omega)]
    all_goals simp only [toNat_byte (show 0x80 + c.toNat % 0x40 < 256 by omega)]
    all_goals omega
  split
  · -- three bytes
    simp only [List.cons_append, List.nil_append]
    rw [ofBytesFrom, lead, toNat_byte (by omega), if_neg (by omega), if_neg (by omega),
      if_neg (by omega), if_pos (by omega), List.nil_append]
    rw [ofBytesFrom_more (n := 0) ?_ ?_ rfl, toNat_byte (by omega),
      ofBytesFrom_last ?_ ?_ rfl, toNat_byte (by omega)]
    · simp only
      rw [last _ (by omega)]
    all_goals simp only [toNat_byte (show 0x80 + c.toNat / 0x40 % 0x40 < 256 by omega),
      toNat_byte (show 0x80 + c.toNat % 0x40 < 256 by omega)]
    all_goals first | omega | (split <;> omega)
  · -- four bytes
    simp only [List.cons_append, List.nil_append]
    rw [ofBytesFrom, lead, toNat_byte (by omega), if_neg (by omega), if_neg (by omega),
      if_neg (by omega), if_neg (by omega), if_pos (by omega), List.nil_append]
    rw [ofBytesFrom_more (n := 1) ?_ ?_ rfl, toNat_byte (by omega),
      ofBytesFrom_more (n := 0) ?_ ?_ rfl, toNat_byte (by omega),
      ofBytesFrom_last ?_ ?_ rfl, toNat_byte (by omega)]
    · simp only
      rw [last _ (by omega)]
    all_goals simp only [toNat_byte (show 0x80 + c.toNat / 0x1000 % 0x40 < 256 by omega),
      toNat_byte (show 0x80 + c.toNat / 0x40 % 0x40 < 256 by omega),
      toNat_byte (show 0x80 + c.toNat % 0x40 < 256 by omega)]
    all_goals first | omega | (split <;> omega)

theorem ofBytes_toBytes (cs : List Char) : ofBytes (toBytes cs) = cs := by
  induction cs with
  | nil => rfl
  | cons c cs ih =>
    rw [ofBytes, toBytes, List.flatMap_cons, ofBytesFrom_utf8]
    exact congrArg (c :: ·) ih

end Messageries.Text
