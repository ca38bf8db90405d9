import Messageries.Text.Matching

/-! Texts in which matches give way to a token in brackets: what was written before
stays where it was, and the tokens can be counted. -/

namespace Messageries.Text.Regex

variable {α : Type}

@[simp] theorem replace_nil (f : List α → List α) : replace f [] = [] := rfl

@[simp] theorem replace_keep (f : List α → List α) (a : α) (ps : List (Piece α)) :
    replace f (.keep a :: ps) = a :: replace f ps := rfl

@[simp] theorem replace_hit (f : List α → List α) (m : List α) (ps : List (Piece α)) :
    replace f (.hit m :: ps) = f m ++ replace f ps := rfl

@[simp] theorem replace_append (f : List α → List α) (ps qs : List (Piece α)) :
    replace f (ps ++ qs) = replace f ps ++ replace f qs :=
  List.flatMap_append

@[simp] theorem replace_map_keep (f : List α → List α) (w : List α) :
    replace f (w.map .keep) = w := by
  induction w with
  | nil => rfl
  | cons a w ih => simp [ih]

theorem replace_id (ps : List (Piece α)) : replace id ps = texts ps := by
  induction ps with
  | nil => rfl
  | cons x ps ih => cases x <;> simp [ih]

section Apart

/-- In no text do the two words share a letter. -/
def Apart (x w : List α) : Prop :=
  ∀ u v X Y : List α, u ++ w ++ v = X ++ x ++ Y → X ++ x <+: u ∨ u ++ w <+: X

theorem Apart.symm {x w : List α} (h : Apart x w) : Apart w x :=
  fun u v X Y e => (h X Y u v e.symm).symm

theorem replace_cut {f : List α → List α} {ps : List (Piece α)} {u v : List α}
    (h : replace f ps = u ++ v)
    (hf : ∀ A m B, ps = A ++ .hit m :: B → replace f A ++ f m <+: u ∨ u <+: replace f A) :
    ∃ A B, ps = A ++ B ∧ replace f A = u ∧ replace f B = v := by
  induction ps generalizing u with
  | nil =>
    obtain ⟨rfl, rfl⟩ := List.append_eq_nil_iff.1 h.symm
    exact ⟨[], [], rfl, rfl, rfl⟩
  | cons x ps ih =>
    cases u with
    | nil => exact ⟨[], x :: ps, rfl, rfl, h⟩
    | cons b u =>
      cases x with
      | keep a =>
        obtain ⟨rfl, hu⟩ := List.cons.inj h
        obtain ⟨A, B, rfl, hA, hB⟩ := ih hu fun A m B e => by
          simpa using hf (.keep a :: A) m B (by rw [e, List.cons_append])
        exact ⟨.keep a :: A, B, rfl, by simp [hA], hB⟩
      | hit m =>
        obtain ⟨u', hu'⟩ : f m <+: b :: u := by simpa using hf [] m ps rfl
        rw [← hu', replace_hit, List.append_assoc] at h
        obtain ⟨A, B, rfl, hA, hB⟩ := ih (List.append_cancel_left h) fun A n B e => by
          have := hf (.hit m :: A) n B (by rw [e, List.cons_append])
          rwa [← hu', replace_hit, List.append_assoc, List.prefix_append_right_inj,
            List.prefix_append_right_inj] at this
        exact ⟨.hit m :: A, B, rfl, by simp [hA, hu'], hB⟩

theorem eq_keeps {ps : List (Piece α)} (h : ∀ m, .hit m ∉ ps) (f : List α → List α) :
    ps = (replace f ps).map .keep := by
  induction ps with
  | nil => rfl
  | cons x ps ih =>
    cases x with
    | keep a => exact congrArg (.keep a :: ·) (ih fun m hm => h m (List.mem_cons_of_mem _ hm))
    | hit m => exact absurd (List.mem_cons_self ..) (h m)

/-- A word apart from whatever stands for a match is made of letters outside the matches. -/
theorem kept_of_apart {f : List α → List α} {ps : List (Piece α)} {u w v : List α}
    (h : replace f ps = u ++ w ++ v) (hf : ∀ m, .hit m ∈ ps → f m ≠ [] ∧ Apart (f m) w) :
    ∃ A B, ps = A ++ w.map .keep ++ B ∧ replace f A = u ∧ replace f B = v := by
  have apart : ∀ A m B, ps = A ++ .hit m :: B →
      replace f A ++ f m <+: u ∨ u ++ w <+: replace f A := by
    intro A m B e
    refine (hf m (by simp [e])).2 u v (replace f A) (replace f B) ?_
    rw [← h, e]
    simp
  obtain ⟨P, B, rfl, hP, hB⟩ := replace_cut h fun A m B e =>
    (apart A m B e).imp (fun h => h.trans (List.prefix_append ..)) id
  obtain ⟨A, W, rfl, hA, hW⟩ := replace_cut hP fun A m B' e =>
    (apart A m (B' ++ B) (by rw [e]; simp)).imp id fun h => (List.prefix_append ..).trans h
  have hits : ∀ m, .hit m ∉ W := by
    intro m hm
    obtain ⟨C, D, rfl⟩ := List.append_of_mem hm
    have hne := List.length_pos_iff.2 (hf m (by simp)).1
    have hlen := congrArg List.length hW
    rw [replace_append, List.length_append, replace_hit, List.length_append] at hlen
    rcases apart (A ++ C) m (D ++ B) (by simp) with h | h <;>
    · have := h.length_le
      rw [replace_append, hA, List.length_append, List.length_append] at this
      omega
  exact ⟨A, B, by rw [← hW, ← eq_keeps hits f], hA, hB⟩

end Apart

section Bracketed

/-- A word between an opening and a closing letter that it does not contain. -/
structure Bracketed (o c : α) (t : List α) : Prop where
  ne : o ≠ c
  eq : ∃ inner, t = o :: (inner ++ [c]) ∧ o ∉ inner ∧ c ∉ inner

/-- A word without the brackets and not inside `t`. -/
structure Loose (o c : α) (t w : List α) : Prop where
  no_open : o ∉ w
  no_close : c ∉ w
  alien : ∃ x ∈ w, x ∉ t

variable {o c : α} {t t' w : List α}

theorem Loose.ne_nil (h : Loose o c t w) : w ≠ [] := by
  rintro rfl
  simpa using h.alien

theorem Bracketed.ne_nil (h : Bracketed o c t) : t ≠ [] := by
  obtain ⟨inner, rfl, -, -⟩ := h.eq
  simp

theorem Bracketed.apart (h : Bracketed o c t) (hw : Loose o c t w) : Apart t w := by
  intro u v X Y e
  obtain ⟨inner, ht, -, -⟩ := h.eq
  obtain ⟨x, hx, hxt⟩ := hw.alien
  rw [List.append_assoc] at e
  rcases List.append_eq_append_iff.1 e with ⟨as, hX, hv⟩ | ⟨as, hu, -⟩
  · rcases List.append_eq_append_iff.1 hX with ⟨bs, -, hb⟩ | ⟨bs, rfl, ha⟩
    · -- the token begins in `u`
      rcases List.eq_nil_or_concat as with rfl | ⟨as', a, rfl⟩
      · exact .inl ⟨[], by simpa using hX⟩
      · rw [List.concat_eq_append] at hb hv
        have hac : a = c := by
          have := congrArg List.getLast? (ht.symm.trans hb)
          rw [← List.append_assoc, ← List.cons_append, List.getLast?_concat,
            List.getLast?_concat] at this
          exact (Option.some.inj this).symm
        rcases List.append_eq_append_iff.1 hv with ⟨ds, hd, -⟩ | ⟨ds, rfl, -⟩
        · refine absurd ?_ hxt
          rw [hb, hd]
          exact List.mem_append_right _ (List.mem_append_left _ hx)
        · exact absurd (by simp [hac]) hw.no_close
    · -- the token begins after `u`
      rw [ha, List.append_assoc] at hv
      rcases List.append_eq_append_iff.1 hv with ⟨ds, rfl, -⟩ | ⟨ds, rfl, hd⟩
      · exact .inr ⟨ds, by simp⟩
      · cases ds with
        | nil => exact .inr ⟨[], by simp⟩
        | cons a ds =>
          obtain rfl : o = a := (List.cons.inj (by simpa [ht] using hd)).1
          exact absurd (by simp) hw.no_open
  · exact .inl ⟨as, hu.symm⟩

section Occurrences

theorem eq_of_append_cons {u v s s' : List α} (hu : c ∉ u) (hv : c ∉ v)
    (h : u ++ c :: s = v ++ c :: s') : u = v := by
  induction u generalizing v with
  | nil =>
    cases v with
    | nil => rfl
    | cons b v => exact absurd (by simp [(List.cons.inj h).1]) hv
  | cons a u ih =>
    simp only [List.mem_cons, not_or] at hu
    cases v with
    | nil => exact absurd (List.cons.inj h).1.symm hu.1
    | cons b v =>
      obtain ⟨rfl, h'⟩ := List.cons.inj h
      rw [ih hu.2 (fun hb => hv (List.mem_cons_of_mem _ hb)) h']

theorem prefix_append_cons {a : α} (ha : a ∉ t) (u v : List α) :
    t <+: u ++ a :: v ↔ t <+: u := by
  refine ⟨fun h => ?_, fun h => h.trans (List.prefix_append ..)⟩
  by_cases hl : t.length ≤ u.length
  · exact List.prefix_of_prefix_length_le h (List.prefix_append ..) hl
  · have whole : u ++ [a] <+: u ++ a :: v := ⟨v, by simp⟩
    have hu : u ++ [a] <+: t := List.prefix_of_prefix_length_le whole h (by simp; omega)
    exact absurd (hu.subset (by simp)) ha

variable [DecidableEq α]

/-- How often a word stands in a text. -/
def occurrences (t : List α) : List α → Nat
  | [] => 0
  | a :: s => (if t <+: a :: s then 1 else 0) + occurrences t s

theorem occurrences_append {v : List α} (h : ∀ u, u ≠ [] → (t <+: u ++ v ↔ t <+: u))
    (u : List α) : occurrences t (u ++ v) = occurrences t u + occurrences t v := by
  induction u with
  | nil => simp [occurrences]
  | cons a u ih =>
    have ha := h (a :: u) (by simp)
    rw [List.cons_append] at ha
    simp only [List.cons_append, occurrences, ih, ha, Nat.add_assoc]

theorem occurrences_alien {a : α} (ha : a ∉ t) (ht : t ≠ []) (u v : List α) :
    occurrences t (u ++ a :: v) = occurrences t u + occurrences t v := by
  rw [occurrences_append fun u _ => prefix_append_cons ha u v, occurrences,
    if_neg, Nat.zero_add]
  intro h
  obtain ⟨b, t, rfl⟩ := List.exists_cons_of_ne_nil ht
  obtain ⟨rfl, -⟩ := List.cons_prefix_cons.1 h
  simp at ha

theorem occurrences_eq_zero {a : α} (ha : a ∈ t) {w : List α} (hw : a ∉ w) :
    occurrences t w = 0 := by
  induction w with
  | nil => rfl
  | cons b w ih =>
    rw [occurrences, if_neg fun h => hw (h.subset ha), ih fun h => hw (List.mem_cons_of_mem _ h)]

theorem Bracketed.occurrences_free (h : Bracketed o c t) {w : List α} (hw : o ∉ w)
    (v : List α) : occurrences t (w ++ v) = occurrences t v := by
  obtain ⟨inner, rfl, -, -⟩ := h.eq
  induction w with
  | nil => rfl
  | cons a w ih =>
    simp only [List.mem_cons, not_or] at hw
    simp [occurrences, ih hw.2, List.cons_prefix_cons, hw.1]

/-- No occurrence goes over the beginning of another one. -/
theorem Bracketed.occurrences_open (h : Bracketed o c t) (u v : List α) :
    occurrences t (u ++ o :: v) = occurrences t u + occurrences t (o :: v) := by
  obtain ⟨inner, rfl, ho, -⟩ := h.eq
  refine occurrences_append (fun u hu => ?_) u
  obtain ⟨a, u, rfl⟩ := List.exists_cons_of_ne_nil hu
  have ho : o ∉ inner ++ [c] := by simp [ho, h.ne]
  rw [List.cons_append, List.cons_prefix_cons, List.cons_prefix_cons, prefix_append_cons ho]

theorem Bracketed.occurrences_closed (h : Bracketed o c t) {w : List α} (hw : c ∉ w)
    (u : List α) : occurrences t (u ++ w) = occurrences t u := by
  obtain ⟨inner, rfl, -, -⟩ := h.eq
  rw [occurrences_append, occurrences_eq_zero (a := c) (by simp) hw, Nat.add_zero]
  intro u _
  refine ⟨fun ⟨s, hs⟩ => ?_, fun h => h.trans (List.prefix_append ..)⟩
  rcases List.append_eq_append_iff.1 hs with ⟨as, rfl, -⟩ | ⟨bs, hb, rfl⟩
  · exact List.prefix_append ..
  · rcases List.eq_nil_or_concat bs with rfl | ⟨bs, b, rfl⟩
    · exact ⟨[], by simpa using hb⟩
    · have := congrArg List.getLast? hb
      rw [List.concat_eq_append, ← List.append_assoc, ← List.cons_append, List.getLast?_concat,
        List.getLast?_concat] at this
      exact absurd (by simp [Option.some.inj this]) hw

theorem Bracketed.occurrences_token (h : Bracketed o c t) (h' : Bracketed o c t') (v : List α) :
    occurrences t (t' ++ v) = (if t = t' then 1 else 0) + occurrences t v := by
  obtain ⟨inner, rfl, ho, hc⟩ := h.eq
  obtain ⟨inner', rfl, ho', hc'⟩ := h'.eq
  have free : o ∉ inner' ++ [c] := by simp [ho', h.ne]
  have iff : (o :: (inner ++ [c]) <+: o :: (inner' ++ [c] ++ v)) ↔
      o :: (inner ++ [c]) = o :: (inner' ++ [c]) := by
    refine ⟨fun h => ?_, fun h => ⟨v, by rw [h]; simp⟩⟩
    obtain ⟨s, hs⟩ := (List.cons_prefix_cons.1 h).2
    simp only [List.append_assoc, List.singleton_append] at hs
    rw [eq_of_append_cons hc hc' hs]
  rw [List.cons_append, occurrences, h.occurrences_free free]
  simp only [iff]

def hits (ps : List (Piece α)) : Nat := ps.countP fun x => x matches .hit _

/-- Every match gives one more occurrence of the token, and nothing else changes the number
of its occurrences or of those of another token. -/
theorem Bracketed.occurrences_replace (h : Bracketed o c t) (h' : Bracketed o c t')
    {ps : List (Piece α)} (hm : ∀ m, .hit m ∈ ps → Loose o c t m) (u : List α) :
    occurrences t (u ++ replace (fun _ => t') ps) =
      occurrences t (u ++ texts ps) + if t = t' then hits ps else 0 := by
  induction ps generalizing u with
  | nil => simp [texts, hits]
  | cons x ps ih =>
    have ih := ih fun m hx => hm m (List.mem_cons_of_mem _ hx)
    cases x with
    | keep a => simpa [hits] using ih (u ++ [a])
    | hit m =>
      obtain ⟨ho, hc, x, hx, hxt⟩ := hm m (List.mem_cons_self ..)
      have around : occurrences t (u ++ texts (.hit m :: ps)) =
          occurrences t u + occurrences t (texts ps) := by
        obtain ⟨m₁, m₂, rfl⟩ := List.append_of_mem hx
        simp only [List.mem_append, List.mem_cons, not_or] at ho hc
        rw [texts_hit, ← List.append_assoc, ← List.append_assoc, List.append_assoc,
          List.cons_append, occurrences_alien hxt h.ne_nil, h.occurrences_closed hc.1,
          h.occurrences_free ho.2.2]
      have between : occurrences t (u ++ replace (fun _ => t') (.hit m :: ps)) =
          occurrences t u + ((if t = t' then 1 else 0) +
            occurrences t (replace (fun _ => t') ps)) := by
        rw [replace_hit, ← h.occurrences_token h']
        obtain ⟨inner, rfl, -, -⟩ := h'.eq
        exact h.occurrences_open ..
      have rest := ih []
      simp only [List.nil_append] at rest
      have count : hits (.hit m :: ps) = hits ps + 1 := List.countP_cons_of_pos rfl
      rw [between, around, rest, count]
      split <;> omega

end Occurrences

end Bracketed

section Settle

/-- The matches that are not accepted are letters like the others. -/
def settle (p : List α → Bool) (ps : List (Piece α)) : List (Piece α) :=
  ps.flatMap fun
    | .keep a => [.keep a]
    | .hit m => if p m then [.hit m] else m.map .keep

variable {p : List α → Bool}

@[simp] theorem settle_nil : settle p [] = [] := rfl

@[simp] theorem settle_keep (a : α) (ps : List (Piece α)) :
    settle p (.keep a :: ps) = .keep a :: settle p ps := rfl

theorem settle_hit (m : List α) (ps : List (Piece α)) :
    settle p (.hit m :: ps) = (if p m then [.hit m] else m.map .keep) ++ settle p ps := rfl

@[simp] theorem texts_map_keep (w : List α) : texts (w.map .keep) = w := by
  rw [← replace_id, replace_map_keep]

@[simp] theorem texts_settle (ps : List (Piece α)) : texts (settle p ps) = texts ps := by
  induction ps with
  | nil => rfl
  | cons x ps ih =>
    cases x with
    | keep a => simp [ih]
    | hit m =>
      rw [settle_hit, texts_append, ih, texts_hit]
      split <;> simp

theorem replace_settle (f : List α → List α) (ps : List (Piece α)) :
    replace f (settle p ps) = replace (fun m => if p m then f m else m) ps := by
  induction ps with
  | nil => rfl
  | cons x ps ih =>
    cases x with
    | keep a => simp [ih]
    | hit m =>
      rw [settle_hit, replace_append, ih, replace_hit]
      split <;> simp

def Piece.hitBy (p : List α → Bool) : Piece α → Bool
  | .keep _ => false
  | .hit m => p m

theorem hits_settle (ps : List (Piece α)) : hits (settle p ps) = ps.countP (Piece.hitBy p) := by
  induction ps with
  | nil => rfl
  | cons x ps ih =>
    rw [hits] at ih
    cases x with
    | keep a => simpa [hits, Piece.hitBy] using ih
    | hit m =>
      rw [settle_hit, hits, List.countP_append, ih, List.countP_cons]
      split <;> simp_all [Piece.hitBy, Nat.add_comm]

theorem settle_all (h : ∀ m, p m = true) (ps : List (Piece α)) : settle p ps = ps := by
  induction ps with
  | nil => rfl
  | cons x ps ih => cases x <;> simp [settle_hit, h, ih]

theorem settle_split {ps A B : List (Piece α)} {m : List α}
    (h : settle p ps = A ++ .hit m :: B) :
    ∃ A' B', ps = A' ++ .hit m :: B' ∧ settle p A' = A ∧ settle p B' = B ∧ p m = true := by
  induction ps generalizing A with
  | nil => simp at h
  | cons x ps ih =>
    cases x with
    | keep a =>
      cases A with
      | nil => simp at h
      | cons y A =>
        obtain ⟨rfl, hA⟩ := List.cons.inj h
        obtain ⟨A', B', rfl, rfl, hB, hm⟩ := ih hA
        exact ⟨.keep a :: A', B', rfl, rfl, hB, hm⟩
    | hit n =>
      rw [settle_hit] at h
      split at h
      next hn =>
        cases A with
        | nil =>
          obtain ⟨e, rfl⟩ := List.cons.inj h
          obtain rfl := Piece.hit.inj e
          exact ⟨[], ps, rfl, rfl, rfl, hn⟩
        | cons y A =>
          obtain ⟨rfl, hA⟩ := List.cons.inj h
          obtain ⟨A', B', rfl, rfl, hB, hm⟩ := ih hA
          exact ⟨.hit n :: A', B', rfl, by simp [settle_hit, hn], hB, hm⟩
      next hn =>
        -- the letters of `n` are kept, so the match comes after them
        have after : ∃ as, A = n.map .keep ++ as ∧ settle p ps = as ++ .hit m :: B := by
          rcases List.append_eq_append_iff.1 h with ⟨as, hA, hs⟩ | ⟨bs, hn, hs⟩
          · exact ⟨as, hA, hs⟩
          · cases bs with
            | nil => exact ⟨[], by simpa using hn.symm, by simpa using hs.symm⟩
            | cons b bs =>
              obtain ⟨rfl, -⟩ := List.cons.inj hs
              have : Piece.hit m ∈ n.map Piece.keep := by simp [hn]
              simp at this
        obtain ⟨as, rfl, hs⟩ := after
        obtain ⟨A', B', rfl, rfl, hB, hm⟩ := ih hs
        exact ⟨.hit n :: A', B', rfl, by simp [settle_hit, hn], hB, hm⟩

end Settle

section Edges

variable {word : α → Bool}

/-- One of the two letters is in a word and the other is not. -/
def bound (word : α → Bool) (a b : Option α) : Bool := a.any word != b.any word

/-- Both letters are in a word. -/
def Joined (word : α → Bool) (a b : Option α) : Prop := a.any word = true ∧ b.any word = true

/-- No match ends or begins inside a word. -/
def Edged (word : α → Bool) (ps : List (Piece α)) : Prop :=
  ∀ A m B, ps = A ++ .hit m :: B →
    m ≠ [] ∧ ¬ Joined word (texts A).getLast? m.head? ∧ ¬ Joined word m.getLast? (texts B).head?

theorem Edged.settle {ps : List (Piece α)} (h : Edged word ps) (p : List α → Bool) :
    Edged word (settle p ps) := by
  intro A m B e
  obtain ⟨A', B', hps, rfl, rfl, -⟩ := settle_split e
  simpa using h A' m B' hps

variable {o c : α} {t : List α}

theorem Bracketed.head?_eq (h : Bracketed o c t) : t.head? = some o := by
  obtain ⟨inner, rfl, -, -⟩ := h.eq
  rfl

theorem Bracketed.getLast?_eq (h : Bracketed o c t) : t.getLast? = some c := by
  obtain ⟨inner, rfl, -, -⟩ := h.eq
  rw [← List.cons_append, List.getLast?_concat]

variable {A B : List (Piece α)} {a : α}

/-- Before a kept letter there is no boundary that was not there. -/
theorem Edged.bound_left (h : Edged word (A ++ .keep a :: B)) (ht : Bracketed o c t)
    (hc : word c = false) (hb : bound word (replace (fun _ => t) A).getLast? (some a) = true) :
    bound word (texts A).getLast? (some a) = true := by
  rcases List.eq_nil_or_concat A with rfl | ⟨A, x, rfl⟩
  · exact hb
  · rw [List.concat_eq_append] at h hb ⊢
    cases x with
    | keep b => simpa using hb
    | hit m =>
      obtain ⟨hm, -, he⟩ := h A m (.keep a :: B) (by simp)
      have ha : word a = true := by simpa [bound, ht.getLast?_eq, hc] using hb
      obtain ⟨m, b, rfl⟩ := (List.eq_nil_or_concat m).resolve_left hm
      have hb : word b = false := by simpa [Joined, ha] using he
      simp [bound, ha, hb, ← List.append_assoc]

/-- After a kept letter there is no boundary that was not there. -/
theorem Edged.bound_right (h : Edged word (A ++ .keep a :: B)) (ht : Bracketed o c t)
    (ho : word o = false) (hb : bound word (some a) (replace (fun _ => t) B).head? = true) :
    bound word (some a) (texts B).head? = true := by
  cases B with
  | nil => exact hb
  | cons x B =>
    cases x with
    | keep b => simpa using hb
    | hit m =>
      obtain ⟨hm, he, -⟩ := h (A ++ [.keep a]) m B (by simp)
      have ha : word a = true := by simpa [bound, ht.head?_eq, ho] using hb
      obtain ⟨b, m, rfl⟩ := List.exists_cons_of_ne_nil hm
      have hb : word b = false := by simpa [Joined, ha] using he
      simp [bound, ha, hb]

theorem bound_left_of_word (ht : Bracketed o c t) (hc : word c = false) (ha : word a = true)
    (hb : bound word (texts A).getLast? (some a) = true) :
    bound word (replace (fun _ => t) A).getLast? (some a) = true := by
  rcases List.eq_nil_or_concat A with rfl | ⟨A, x, rfl⟩
  · exact hb
  · cases x with
    | keep b => simpa using hb
    | hit m => simp [bound, ha, hc, ht.getLast?_eq]

theorem bound_right_of_word (ht : Bracketed o c t) (ho : word o = false) (ha : word a = true)
    (hb : bound word (some a) (texts B).head? = true) :
    bound word (some a) (replace (fun _ => t) B).head? = true := by
  cases B with
  | nil => exact hb
  | cons x B =>
    cases x with
    | keep b => simpa using hb
    | hit m => simp [bound, ha, ho, ht.head?_eq]

end Edges

end Messageries.Text.Regex
