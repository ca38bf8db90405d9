import Messageries.Text.Regex

/-! Which words a backtracking matcher goes over, and where in a text it finds them. -/

namespace Messageries.Text.Regex

variable {α : Type}

section Accepts

/-- Expressions that look at no letter outside the word they go over. -/
def LookFree : Regex α → Prop
  | .empty => True
  | .one _ => True
  | .seq r q => r.LookFree ∧ q.LookFree
  | .alt r q => r.LookFree ∧ q.LookFree
  | .rep r _ _ => r.LookFree
  | .look _ => False

/-- `n` words of `L` one after the other. -/
inductive Repeats (L : List α → Prop) : Nat → List α → Prop
  | zero : Repeats L 0 []
  | succ {n : Nat} {u v : List α} : L u → Repeats L n v → Repeats L (n + 1) (u ++ v)

def Accepts : Regex α → List α → Prop
  | .empty, w => w = []
  | .one p, w => ∃ a, p a = true ∧ w = [a]
  | .seq r q, w => ∃ u v, w = u ++ v ∧ r.Accepts u ∧ q.Accepts v
  | .alt r q, w => r.Accepts w ∨ q.Accepts w
  | .rep r m n, w => ∃ k, m ≤ k ∧ (∀ l, n = some l → k ≤ max m l) ∧ Repeats r.Accepts k w
  | .look _, w => w = []

/-- The letter before the place where a word that starts after `prev` ends. -/
def after (prev : Option α) (w : List α) : Option α := w.getLast?.or prev

@[simp] theorem after_nil (prev : Option α) : after prev [] = prev := rfl

@[simp] theorem after_none (w : List α) : after none w = w.getLast? := by simp [after]

@[simp] theorem after_append (prev : Option α) (u v : List α) :
    after prev (u ++ v) = after (after prev u) v := by
  simp [after, List.getLast?_append, Option.or_assoc]

@[simp] theorem after_cons (prev : Option α) (a : α) (w : List α) :
    after prev (a :: w) = after (some a) w :=
  after_append prev [a] w

theorem after_of_ne_nil {w : List α} (h : w ≠ []) (prev : Option α) :
    after prev w = w.getLast? := by
  simp [after, List.getLast?_eq_some_getLast h]

/-- The matcher went from `s` to `e` over the word `w`. -/
def Goes (s e : Place α) (w : List α) : Prop := s.2 = w ++ e.2 ∧ e.1 = after s.1 w

theorem Goes.refl (s : Place α) : Goes s s [] := ⟨rfl, rfl⟩

theorem Goes.trans {s e f : Place α} {u v : List α} (h : Goes s e u) (h' : Goes e f v) :
    Goes s f (u ++ v) := by
  refine ⟨?_, ?_⟩
  · rw [h.1, h'.1, List.append_assoc]
  · rw [h'.2, h.2, after_append]

section Sound

variable {step : Place α → List (Place α)} {L : List α → Prop}

theorem repeats_times (h : ∀ s, ∀ e ∈ step s, ∃ w, Goes s e w ∧ L w) (n : Nat) (s e : Place α)
    (he : e ∈ times step n s) : ∃ w, Goes s e w ∧ Repeats L n w := by
  induction n generalizing s with
  | zero =>
    rw [List.mem_singleton.1 he]
    exact ⟨[], .refl s, .zero⟩
  | succ n ih =>
    obtain ⟨s', hs', he⟩ := List.mem_flatMap.1 he
    obtain ⟨u, hu, hL⟩ := h s s' hs'
    obtain ⟨v, hv, hr⟩ := ih s' he
    exact ⟨u ++ v, hu.trans hv, .succ hL hr⟩

theorem repeats_upTo (h : ∀ s, ∀ e ∈ step s, ∃ w, Goes s e w ∧ L w) (n : Nat) (s e : Place α)
    (he : e ∈ upTo step n s) : ∃ w k, Goes s e w ∧ k ≤ n ∧ Repeats L k w := by
  induction n generalizing s with
  | zero =>
    rw [List.mem_singleton.1 he]
    exact ⟨[], 0, .refl s, Nat.le_refl 0, .zero⟩
  | succ n ih =>
    rcases List.mem_append.1 he with he | he
    · obtain ⟨s', hs', he⟩ := List.mem_flatMap.1 he
      obtain ⟨u, hu, hL⟩ := h s s' (List.mem_filter.1 hs').1
      obtain ⟨v, k, hv, hk, hr⟩ := ih s' he
      exact ⟨u ++ v, k + 1, hu.trans hv, Nat.succ_le_succ hk, .succ hL hr⟩
    · rw [List.mem_singleton.1 he]
      exact ⟨[], 0, .refl s, Nat.zero_le _, .zero⟩

theorem Repeats.append {m n : Nat} {u v : List α} (h : Repeats L m u) (h' : Repeats L n v) :
    Repeats L (m + n) (u ++ v) := by
  induction h with
  | zero => simpa using h'
  | @succ k u u' hL _ ih =>
    have := Repeats.succ hL ih
    rwa [← List.append_assoc, show k + n + 1 = k + 1 + n by omega] at this

/-- What an expression goes over is one of its words. -/
theorem accepts_of_mem_ends {r : Regex α} (s e : Place α) (he : e ∈ r.ends s) :
    ∃ w, Goes s e w ∧ r.Accepts w := by
  induction r generalizing s e with
  | empty =>
    rw [List.mem_singleton.1 he]
    exact ⟨[], .refl s, rfl⟩
  | one q =>
    obtain ⟨prev, s⟩ := s
    cases s with
    | nil => simp [ends] at he
    | cons a s =>
      by_cases hq : q a = true
      · simp only [ends, hq, if_true, List.mem_singleton] at he
        subst he
        exact ⟨[a], ⟨rfl, by simp⟩, a, hq, rfl⟩
      · simp [ends, hq] at he
  | seq r q ihr ihq =>
    obtain ⟨s', hs', he⟩ := List.mem_flatMap.1 he
    obtain ⟨u, hu, hru⟩ := ihr s s' hs'
    obtain ⟨v, hv, hqv⟩ := ihq s' e he
    exact ⟨u ++ v, hu.trans hv, u, v, rfl, hru, hqv⟩
  | alt r q ihr ihq =>
    rcases List.mem_append.1 he with he | he
    · obtain ⟨w, hw, ha⟩ := ihr s e he
      exact ⟨w, hw, .inl ha⟩
    · obtain ⟨w, hw, ha⟩ := ihq s e he
      exact ⟨w, hw, .inr ha⟩
  | rep r m n ih =>
    obtain ⟨s', hs', he⟩ := List.mem_flatMap.1 he
    obtain ⟨u, hu, hru⟩ := repeats_times ih m s s' hs'
    obtain ⟨v, k, hv, hk, hrv⟩ := repeats_upTo ih _ s' e he
    refine ⟨u ++ v, hu.trans hv, m + k, Nat.le_add_right .., ?_, hru.append hrv⟩
    rintro l rfl
    simp only at hk
    omega
  | look f =>
    simp only [ends] at he
    split at he
    · rw [List.mem_singleton.1 he]
      exact ⟨[], .refl s, rfl⟩
    · cases he

end Sound

section Complete

variable {step : Place α → List (Place α)} {L : List α → Prop}

theorem mem_times (h : ∀ prev w rest, L w → (after prev w, rest) ∈ step (prev, w ++ rest))
    {n : Nat} {w : List α} (hw : Repeats L n w) (prev : Option α) (rest : List α) :
    (after prev w, rest) ∈ times step n (prev, w ++ rest) := by
  induction hw generalizing prev with
  | zero => exact List.mem_singleton.2 rfl
  | @succ n u v hu _ ih =>
    rw [List.append_assoc, after_append]
    exact List.mem_flatMap.2 ⟨_, h prev u _ hu, ih _⟩

theorem mem_upTo (h : ∀ prev w rest, L w → (after prev w, rest) ∈ step (prev, w ++ rest))
    {k n : Nat} {w : List α} (hw : Repeats (fun u => L u ∧ u ≠ []) k w) (hk : k ≤ n)
    (prev : Option α) (rest : List α) :
    (after prev w, rest) ∈ upTo step n (prev, w ++ rest) := by
  induction hw generalizing prev n with
  | zero =>
    cases n with
    | zero => exact List.mem_singleton.2 rfl
    | succ n => exact List.mem_append_right _ (List.mem_singleton.2 rfl)
  | @succ k u v hu _ ih =>
    obtain ⟨n, rfl⟩ : ∃ n', n = n' + 1 := ⟨n - 1, by omega⟩
    rw [List.append_assoc, after_append]
    refine List.mem_append_left _ (List.mem_flatMap.2 ⟨_, List.mem_filter.2 ⟨h prev u _ hu.1, ?_⟩,
      ih (Nat.le_of_succ_le_succ hk) _⟩)
    have := List.length_pos_iff.2 hu.2
    simp
    omega

theorem Repeats.split {m n : Nat} {w : List α} (h : Repeats L (m + n) w) :
    ∃ u v, w = u ++ v ∧ Repeats L m u ∧ Repeats L n v := by
  induction m generalizing w with
  | zero => exact ⟨[], w, rfl, .zero, by simpa using h⟩
  | succ m ih =>
    rw [Nat.succ_add] at h
    cases h with
    | @succ _ u v hu hv =>
      obtain ⟨u', v', rfl, h₁, h₂⟩ := ih hv
      exact ⟨u ++ u', v', (List.append_assoc ..).symm, .succ hu h₁, h₂⟩

/-- The rounds that go over nothing can be left out. -/
theorem Repeats.proper {n : Nat} {w : List α} (h : Repeats L n w) :
    ∃ k, k ≤ n ∧ k ≤ w.length ∧ Repeats (fun u => L u ∧ u ≠ []) k w := by
  induction h with
  | zero => exact ⟨0, Nat.le_refl 0, Nat.le_refl 0, .zero⟩
  | @succ n u v hu _ ih =>
    obtain ⟨k, hk, hl, hr⟩ := ih
    by_cases he : u = []
    · subst he
      exact ⟨k, Nat.le_succ_of_le hk, by simpa using hl, by simpa using hr⟩
    · have := List.length_pos_iff.2 he
      exact ⟨k + 1, Nat.succ_le_succ hk, by simp; omega, .succ ⟨hu, he⟩ hr⟩

/-- The matcher finds every word of an expression, whatever surrounds it. -/
theorem mem_ends_of_accepts {r : Regex α} (hr : r.LookFree) {w : List α} (hw : r.Accepts w)
    (prev : Option α) (rest : List α) : (after prev w, rest) ∈ r.ends (prev, w ++ rest) := by
  induction r generalizing w prev rest with
  | empty =>
    obtain rfl := hw
    exact List.mem_singleton.2 rfl
  | one q =>
    obtain ⟨a, hq, rfl⟩ := hw
    simp [ends, hq]
  | seq r q ihr ihq =>
    obtain ⟨u, v, rfl, hu, hv⟩ := hw
    rw [List.append_assoc, after_append]
    exact List.mem_flatMap.2 ⟨_, ihr hr.1 hu prev _, ihq hr.2 hv _ rest⟩
  | alt r q ihr ihq =>
    rcases hw with hw | hw
    · exact List.mem_append_left _ (ihr hr.1 hw prev rest)
    · exact List.mem_append_right _ (ihq hr.2 hw prev rest)
  | rep r m n ih =>
    obtain ⟨k, hm, hn, hk⟩ := hw
    obtain ⟨j, rfl⟩ : ∃ j, k = m + j := ⟨k - m, by omega⟩
    obtain ⟨u, v, rfl, hu, hv⟩ := hk.split
    obtain ⟨i, hi, hl, hp⟩ := hv.proper
    have step : ∀ prev w rest, r.Accepts w → (after prev w, rest) ∈ r.ends (prev, w ++ rest) :=
      fun prev _ rest hw => ih hr hw prev rest
    rw [List.append_assoc, after_append]
    refine List.mem_flatMap.2 ⟨_, mem_times step hu prev _, mem_upTo step hp ?_ _ rest⟩
    cases n with
    | none => simp; omega
    | some n =>
      have := hn n rfl
      simp
      omega
  | look _ => exact hr.elim

end Complete

theorem mem_ends_iff {r : Regex α} (hr : r.LookFree) {s e : Place α} :
    e ∈ r.ends s ↔ ∃ w, Goes s e w ∧ r.Accepts w := by
  refine ⟨accepts_of_mem_ends s e, ?_⟩
  rintro ⟨w, hg, hw⟩
  have := mem_ends_of_accepts hr hw s.1 e.2
  rwa [← hg.1, ← hg.2] at this

end Accepts

section Letters

variable {p q : α → Prop}

/-- Every letter the expression can consume satisfies `p`. -/
def Over (p : α → Prop) : Regex α → Prop
  | .empty => True
  | .one q => ∀ a, q a = true → p a
  | .seq r q => r.Over p ∧ q.Over p
  | .alt r q => r.Over p ∧ q.Over p
  | .rep r _ _ => r.Over p
  | .look _ => True

theorem Over.mono {r : Regex α} (h : r.Over p) (hpq : ∀ a, p a → q a) : r.Over q := by
  induction r with
  | empty => trivial
  | one f => exact fun a ha => hpq a (h a ha)
  | seq r s ihr ihs => exact ⟨ihr h.1, ihs h.2⟩
  | alt r s ihr ihs => exact ⟨ihr h.1, ihs h.2⟩
  | rep r m n ih => exact ih h
  | look f => trivial

theorem Repeats.forall {L : List α → Prop} (h : ∀ w, L w → ∀ a ∈ w, p a) {n : Nat} {w : List α}
    (hw : Repeats L n w) : ∀ a ∈ w, p a := by
  induction hw with
  | zero => simp
  | succ hu _ ih => exact fun a ha => (List.mem_append.1 ha).elim (h _ hu a) (ih a)

theorem Over.accepts {r : Regex α} (h : r.Over p) {w : List α} (hw : r.Accepts w) :
    ∀ a ∈ w, p a := by
  induction r generalizing w with
  | empty => simp [show w = [] from hw]
  | one q =>
    obtain ⟨a, hq, rfl⟩ := hw
    simpa using h a hq
  | seq r q ihr ihq =>
    obtain ⟨u, v, rfl, hu, hv⟩ := hw
    exact fun a ha => (List.mem_append.1 ha).elim (ihr h.1 hu a) (ihq h.2 hv a)
  | alt r q ihr ihq => exact hw.elim (ihr h.1) (ihq h.2)
  | rep r m n ih =>
    obtain ⟨k, -, -, hk⟩ := hw
    exact hk.forall fun _ hu => ih h hu
  | look f => simp [show w = [] from hw]

/-- No word of the expression is without a letter that satisfies `p`. -/
def Needs (p : α → Prop) : Regex α → Prop
  | .empty => False
  | .one q => ∀ a, q a = true → p a
  | .seq r q => r.Needs p ∨ q.Needs p
  | .alt r q => r.Needs p ∧ q.Needs p
  | .rep r m _ => 0 < m ∧ r.Needs p
  | .look _ => False

theorem Needs.accepts {r : Regex α} (h : r.Needs p) {w : List α} (hw : r.Accepts w) :
    ∃ a ∈ w, p a := by
  induction r generalizing w with
  | empty => exact h.elim
  | one q =>
    obtain ⟨a, hq, rfl⟩ := hw
    exact ⟨a, List.mem_singleton.2 rfl, h a hq⟩
  | seq r q ihr ihq =>
    obtain ⟨u, v, rfl, hu, hv⟩ := hw
    rcases h with h | h
    · obtain ⟨a, ha, hp⟩ := ihr h hu
      exact ⟨a, List.mem_append_left _ ha, hp⟩
    · obtain ⟨a, ha, hp⟩ := ihq h hv
      exact ⟨a, List.mem_append_right _ ha, hp⟩
  | alt r q ihr ihq => exact hw.elim (ihr h.1) (ihq h.2)
  | rep r m n ih =>
    obtain ⟨k, hm, -, hk⟩ := hw
    cases hk with
    | zero => exact absurd hm (by have := h.1; omega)
    | succ hu _ =>
      obtain ⟨a, ha, hp⟩ := ih h.2 hu
      exact ⟨a, List.mem_append_left _ ha, hp⟩
  | look _ => exact h.elim

end Letters

section Pieces

def texts (ps : List (Piece α)) : List α := ps.flatMap Piece.text

@[simp] theorem texts_nil : texts ([] : List (Piece α)) = [] := rfl

@[simp] theorem texts_keep (a : α) (ps : List (Piece α)) :
    texts (.keep a :: ps) = a :: texts ps := rfl

@[simp] theorem texts_hit (m : List α) (ps : List (Piece α)) :
    texts (.hit m :: ps) = m ++ texts ps := rfl

@[simp] theorem texts_append (ps qs : List (Piece α)) :
    texts (ps ++ qs) = texts ps ++ texts qs :=
  List.flatMap_append

@[simp] theorem texts_pieces (r : Regex α) (s : List α) : texts (r.pieces s) = s :=
  text_pieces r s

@[simp] theorem texts_piecesFrom (r : Regex α) (skip : Nat) (prev : Option α) (s : List α) :
    texts (r.piecesFrom skip prev s) = s.drop skip :=
  text_piecesFrom r skip prev s

/-- The end the matcher takes: the first one that is further on. -/
def first (r : Regex α) (s : Place α) : Option (Place α) :=
  ((r.ends s).filter fun e => e.2.length < s.2.length).head?

theorem first_eq (r : Regex α) (prev : Option α) (a : α) (s : List α) :
    r.first (prev, a :: s) =
      ((r.ends (prev, a :: s)).filter fun e => e.2.length ≤ s.length).head? := by
  simp only [first, List.length_cons, Nat.lt_succ_iff]

theorem piecesFrom_of_none {r : Regex α} {prev : Option α} {a : α} {s : List α}
    (h : r.first (prev, a :: s) = none) :
    r.piecesFrom 0 prev (a :: s) = .keep a :: r.piecesFrom 0 (some a) s := by
  rw [first_eq] at h
  rw [piecesFrom, h]

theorem piecesFrom_of_some {r : Regex α} {prev : Option α} {a : α} {s : List α} {e : Place α}
    (h : r.first (prev, a :: s) = some e) :
    r.piecesFrom 0 prev (a :: s) =
      .hit ((a :: s).take (s.length + 1 - e.2.length)) ::
        r.piecesFrom (s.length - e.2.length) (some a) s := by
  rw [first_eq] at h
  rw [piecesFrom, h]

theorem mem_of_first {r : Regex α} {s e : Place α} (h : r.first s = some e) :
    e ∈ r.ends s ∧ e.2.length < s.2.length := by
  simpa using List.mem_filter.1 (List.mem_of_mem_head? h)

theorem first_eq_none {r : Regex α} {s : Place α} :
    r.first s = none ↔ ∀ e ∈ r.ends s, s.2.length ≤ e.2.length := by
  simp [first]

theorem first_spec {r : Regex α} {prev : Option α} {a : α} {s : List α} {e : Place α}
    (h : r.first (prev, a :: s) = some e) :
    (a :: s).take (s.length + 1 - e.2.length) = a :: s.take (s.length - e.2.length) ∧
      s.drop (s.length - e.2.length) = e.2 := by
  obtain ⟨he, hlt⟩ := mem_of_first h
  obtain ⟨w, hg, -⟩ := accepts_of_mem_ends _ e he
  have hlen : s.length + 1 = w.length + e.2.length := by simpa using congrArg List.length hg.1
  have e₁ : s.length + 1 - e.2.length = s.length - e.2.length + 1 := by simp at hlt; omega
  refine ⟨by rw [e₁, List.take_succ_cons], ?_⟩
  have e₂ : (a :: s).drop (s.length + 1 - e.2.length) = e.2 := by
    rw [show s.length + 1 - e.2.length = w.length by omega]
    exact (congrArg (List.drop w.length) hg.1).trans (List.drop_left ..)
  rwa [e₁, List.drop_succ_cons] at e₂

/-- A letter is left outside the matches where none begins, and a match ends where the
matcher goes first. -/
def Piece.Sits (r : Regex α) (prev : Option α) (rest : List α) : Piece α → Prop
  | .keep a => r.first (prev, a :: rest) = none
  | .hit m => m ≠ [] ∧ ∃ l, r.first (prev, m ++ rest) = some (l, rest)

theorem sits_of_piecesFrom {r : Regex α} {skip : Nat} {prev : Option α} {s : List α}
    {A B : List (Piece α)} {x : Piece α} (h : r.piecesFrom skip prev s = A ++ x :: B) :
    x.Sits r (after prev (s.take skip ++ texts A)) (texts B) := by
  induction s generalizing skip prev A with
  | nil => cases skip <;> simp [piecesFrom] at h
  | cons a s ih =>
    cases skip with
    | succ skip => simpa using @ih _ (some a) _ h
    | zero =>
      cases hf : r.first (prev, a :: s) with
      | none =>
        rw [piecesFrom_of_none hf] at h
        cases A with
        | nil =>
          obtain ⟨rfl, rfl⟩ := List.cons.inj h
          simpa [Piece.Sits] using hf
        | cons y A =>
          obtain ⟨rfl, hA⟩ := List.cons.inj h
          simpa using ih hA
      | some e =>
        obtain ⟨hm, hd⟩ := first_spec hf
        rw [piecesFrom_of_some hf, hm] at h
        cases A with
        | nil =>
          obtain ⟨rfl, rfl⟩ := List.cons.inj h
          refine ⟨by simp, e.1, ?_⟩
          have hs : s.take (s.length - e.2.length) ++ e.2 = s :=
            (congrArg _ hd).symm.trans (List.take_append_drop ..)
          simpa [hd, hs] using hf
        | cons y A =>
          obtain ⟨rfl, hA⟩ := List.cons.inj h
          simpa using ih hA

theorem sits_of_pieces {r : Regex α} {s : List α} {A B : List (Piece α)} {x : Piece α}
    (h : r.pieces s = A ++ x :: B) : x.Sits r (texts A).getLast? (texts B) := by
  simpa using sits_of_piecesFrom h

/-- A match is a word of the expression, with its end where it stands. -/
theorem Piece.Sits.found {r : Regex α} {prev : Option α} {m rest : List α}
    (h : (Piece.hit m).Sits r prev rest) :
    m ≠ [] ∧ (m.getLast?, rest) ∈ r.ends (prev, m ++ rest) ∧ r.Accepts m := by
  obtain ⟨hm, l, hf⟩ := h
  obtain ⟨he, -⟩ := mem_of_first hf
  obtain ⟨w, hg, hw⟩ := accepts_of_mem_ends _ _ he
  obtain rfl : m = w := List.append_cancel_right hg.1
  obtain rfl : l = m.getLast? := hg.2.trans (after_of_ne_nil hm prev)
  exact ⟨hm, he, hw⟩

theorem accepts_of_hit {r : Regex α} {s m : List α} (h : .hit m ∈ r.pieces s) :
    m ≠ [] ∧ r.Accepts m := by
  obtain ⟨A, B, h⟩ := List.append_of_mem h
  exact ⟨(sits_of_pieces h).found.1, (sits_of_pieces h).found.2.2⟩

/-- A piece that is a match is not empty and has letters that satisfy `p` only. -/
def Piece.Over (p : α → Prop) : Piece α → Prop
  | .keep _ => True
  | .hit m => m ≠ [] ∧ ∀ a ∈ m, p a

theorem Over.pieces {p : α → Prop} {r : Regex α} (h : r.Over p) (s : List α) :
    ∀ x ∈ r.pieces s, x.Over p := by
  intro x hx
  cases x with
  | keep a => trivial
  | hit m => exact ⟨(accepts_of_hit hx).1, h.accepts (accepts_of_hit hx).2⟩

end Pieces

section Greedy

variable {f : α → Bool} {r q : Regex α} {a e : Place α}

theorem head?_ends_seq (h : ((seq r q).ends a).head? = some e) :
    ∃ b ∈ r.ends a, (q.ends b).head? = some e := by
  rw [ends, List.head?_flatMap] at h
  exact List.exists_of_findSome?_eq_some h

theorem upTo_ne_nil (step : Place α → List (Place α)) (n : Nat) (a : Place α) :
    upTo step n a ≠ [] := by
  cases n <;> simp [upTo]

theorem head?_upTo {n : Nat} (hn : a.2.length ≤ n)
    (h : (upTo (one f).ends n a).head? = some e) : e.2.head?.any f = false := by
  induction n generalizing a with
  | zero =>
    obtain rfl : a = e := by simpa [upTo] using h
    simp [List.eq_nil_of_length_eq_zero (Nat.le_zero.1 hn)]
  | succ n ih =>
    obtain ⟨prev, s⟩ := a
    cases s with
    | nil =>
      obtain rfl : (prev, []) = e := by simpa [upTo, ends] using h
      rfl
    | cons b s =>
      by_cases hb : f b = true
      · refine ih (a := (some b, s)) (by simpa using hn) ?_
        have step : (one f).ends (prev, b :: s) = [(some b, s)] := by simp [ends, hb]
        rw [upTo, step] at h
        obtain ⟨c, l, hc⟩ := List.exists_cons_of_ne_nil (upTo_ne_nil (one f).ends n (some b, s))
        simpa [hc] using h
      · obtain rfl : (prev, b :: s) = e := by simpa [upTo, ends, hb] using h
        simpa using hb

/-- As many letters as possible are tried first. -/
theorem head?_ends_plus (h : ((plus (one f)).ends a).head? = some e) :
    e.2.head?.any f = false := by
  rw [plus, ends, List.head?_flatMap] at h
  obtain ⟨b, -, h⟩ := List.exists_of_findSome?_eq_some h
  exact head?_upTo (Nat.le_refl _) h

theorem Needs.first {P : α → Prop} (h : r.Needs P) (a : Place α) :
    r.first a = (r.ends a).head? := by
  rw [Regex.first, List.filter_eq_self.2]
  intro e he
  obtain ⟨w, hg, hw⟩ := accepts_of_mem_ends a e he
  obtain ⟨b, hb, -⟩ := h.accepts hw
  have := List.length_pos_of_mem hb
  simp [hg.1]
  omega

end Greedy

section Literal

variable {f : α → Bool} {r : Regex α} {w x : List α} {a e : Place α}

theorem repeats_one {k : Nat} :
    Repeats (one f).Accepts k x ↔ x.length = k ∧ ∀ a ∈ x, f a = true := by
  constructor
  · intro h
    induction h with
    | zero => exact ⟨rfl, by simp⟩
    | succ hu _ ih =>
      obtain ⟨a, ha, rfl⟩ := hu
      simpa [ha, ih.1] using ih.2
  · intro h
    induction x generalizing k with
    | nil =>
      obtain rfl : 0 = k := h.1
      exact .zero
    | cons a x ih =>
      obtain ⟨rfl, hx⟩ := h
      rw [List.forall_mem_cons] at hx
      exact .succ ⟨a, hx.1, rfl⟩ (ih ⟨rfl, hx.2⟩)

theorem accepts_plus_one : (plus (one f)).Accepts x ↔ x ≠ [] ∧ ∀ a ∈ x, f a = true := by
  constructor
  · rintro ⟨k, hk, -, hx⟩
    obtain ⟨rfl, all⟩ := repeats_one.1 hx
    exact ⟨List.length_pos_iff.1 hk, all⟩
  · rintro ⟨hne, hx⟩
    exact ⟨x.length, List.length_pos_iff.2 hne, by simp, repeats_one.2 ⟨rfl, hx⟩⟩

variable [BEq α]

theorem accepts_literal [LawfulBEq α] : (literal w r).Accepts x ↔ ∃ y, x = w ++ y ∧ r.Accepts y := by
  induction w generalizing x with
  | nil => simp [literal]
  | cons b w ih =>
    constructor
    · rintro ⟨_, v, rfl, ⟨c, hc, rfl⟩, hv⟩
      obtain ⟨y, rfl, hy⟩ := ih.1 hv
      rw [eq_of_beq hc]
      exact ⟨y, rfl, hy⟩
    · rintro ⟨y, rfl, hy⟩
      exact ⟨[b], w ++ y, rfl, ⟨b, beq_self_eq_true b, rfl⟩, ih.2 ⟨y, rfl, hy⟩⟩

theorem lookFree_literal (h : r.LookFree) : (literal w r).LookFree := by
  induction w with
  | nil => exact h
  | cons b w ih => exact ⟨trivial, ih⟩

theorem head?_ends_literal (h : ((literal w r).ends a).head? = some e) :
    ∃ b, (r.ends b).head? = some e := by
  induction w generalizing a with
  | nil => exact ⟨a, h⟩
  | cons b w ih =>
    obtain ⟨c, -, hc⟩ := head?_ends_seq h
    exact ih hc

end Literal

section Exec

variable {r : Regex α} {prev : Option α} {a : α} {s : List α} {e : Place α}

/-- The first match in the rest of a text. -/
def execFrom (r : Regex α) (prev : Option α) (s : List α) : Option (List α) :=
  (r.piecesFrom 0 prev s).findSome? Piece.matched

theorem execFrom_of_none (h : r.first (prev, a :: s) = none) :
    r.execFrom prev (a :: s) = r.execFrom (some a) s := by
  rw [execFrom, piecesFrom_of_none h, List.findSome?_cons]
  rfl

theorem execFrom_of_some (h : r.first (prev, a :: s) = some e) :
    r.execFrom prev (a :: s) = some ((a :: s).take (s.length + 1 - e.2.length)) := by
  rw [execFrom, piecesFrom_of_some h, List.findSome?_cons]
  rfl

end Exec

end Messageries.Text.Regex
