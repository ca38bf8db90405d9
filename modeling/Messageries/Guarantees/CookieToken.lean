import Messageries.Crypto.LocalKms
import Messageries.Gateway.Auth

namespace Messageries.Guarantees

open Text Text.Regex Crypto Moderation Gateway

section Search

/-- The text after `access_token=` at the beginning of a text, up to the next semicolon. -/
def hitAt (s : Utf16) : Option Utf16 :=
  if tokenPrefix <+: s then
    if (s.drop tokenPrefix.length).takeWhile (· != 59) = [] then none
    else some ((s.drop tokenPrefix.length).takeWhile (· != 59))
  else none

def searchToken : Utf16 → Option Utf16
  | [] => none
  | u :: s => (hitAt (u :: s)).or (searchToken s)

variable {prev : Option UInt16} {s v : Utf16} {e : Place UInt16}

theorem hitAt_eq_some : hitAt s = some v ↔
    ∃ b, s = tokenPrefix ++ v ++ b ∧ v ≠ [] ∧ (∀ u ∈ v, u ≠ 59) ∧ ∀ u ∈ b.head?, u = 59 := by
  constructor
  · intro h
    unfold hitAt at h
    split at h
    · rename_i hp
      obtain ⟨r, rfl⟩ := hp
      rw [List.drop_left] at h
      split at h
      · cases h
      · rename_i hne
        obtain rfl := Option.some.inj h
        refine ⟨r.dropWhile (· != 59), ?_, hne, fun u hu => ?_, fun u hu => ?_⟩
        · rw [List.append_assoc, List.takeWhile_append_dropWhile]
        · simpa using List.all_eq_true.1 List.all_takeWhile u hu
        · have := List.head?_dropWhile_not (· != 59) r
          rw [Option.mem_def.1 hu] at this
          simpa using this
    · cases h
  · rintro ⟨b, rfl, hne, hv, hb⟩
    have ends : b.takeWhile (· != 59) = [] := by
      cases b with
      | nil => rfl
      | cons u b => simp [hb u rfl]
    have whole : (v ++ b).takeWhile (· != 59) = v := by
      rw [List.takeWhile_append_of_pos fun u hu => by simpa using hv u hu, ends, List.append_nil]
    rw [hitAt, if_pos ⟨v ++ b, (List.append_assoc ..).symm⟩, List.append_assoc, List.drop_left, whole,
      if_neg hne]

theorem accepts_token {w : Utf16} : tokenPattern.Accepts w ↔
    ∃ v, w = tokenPrefix ++ v ∧ v ≠ [] ∧ ∀ u ∈ v, (u != 59) = true := by
  simp only [tokenPattern, accepts_literal, accepts_plus_one]

theorem lookFree_token : tokenPattern.LookFree := lookFree_literal trivial

theorem needs_token : tokenPattern.Needs fun u => u = 97 := by
  refine .inl fun u h => ?_
  exact eq_of_beq h

/-- The pattern matches up to the next semicolon. -/
theorem hitAt_of_first (h : tokenPattern.first (prev, s) = some e) :
    ∃ v, hitAt s = some v ∧ s = tokenPrefix ++ v ++ e.2 := by
  obtain ⟨he, -⟩ := mem_of_first h
  obtain ⟨w, hg, hw⟩ := accepts_of_mem_ends _ e he
  obtain ⟨v, rfl, hne, hv⟩ := accepts_token.1 hw
  rw [needs_token.first] at h
  obtain ⟨_, hb⟩ := head?_ends_literal h
  have ends := head?_ends_plus hb
  refine ⟨v, hitAt_eq_some.2 ⟨e.2, hg.1, hne, fun u hu => by simpa using hv u hu, fun u hu => ?_⟩, hg.1⟩
  rw [Option.mem_def.1 hu] at ends
  simpa using ends

theorem first_of_hitAt (h : hitAt s = some v) :
    ∃ e, tokenPattern.first (prev, s) = some e ∧ s = tokenPrefix ++ v ++ e.2 := by
  obtain ⟨b, hs, hne, hv, -⟩ := hitAt_eq_some.1 h
  have accepts : tokenPattern.Accepts (tokenPrefix ++ v) :=
    accepts_token.2 ⟨v, rfl, hne, fun u hu => by simpa using hv u hu⟩
  have reached := mem_ends_of_accepts lookFree_token accepts prev b
  rw [← hs] at reached
  cases he : tokenPattern.first (prev, s) with
  | none =>
    have longer := first_eq_none.1 he _ reached
    have len := congrArg List.length hs
    have := List.length_pos_iff.2 hne
    simp only [List.length_append] at longer len
    omega
  | some e =>
    obtain ⟨v', hv', hs'⟩ := hitAt_of_first he
    obtain rfl := Option.some.inj (h.symm.trans hv')
    exact ⟨e, rfl, hs'⟩

theorem first_of_not_hitAt (h : hitAt s = none) : tokenPattern.first (prev, s) = none := by
  cases he : tokenPattern.first (prev, s) with
  | none => rfl
  | some e =>
    obtain ⟨v, hv, -⟩ := hitAt_of_first he
    cases h.symm.trans hv

theorem execFrom_token (prev : Option UInt16) (s : Utf16) :
    tokenPattern.execFrom prev s = (searchToken s).map (tokenPrefix ++ ·) := by
  induction s generalizing prev with
  | nil => rfl
  | cons u s ih =>
    rw [searchToken]
    cases h : hitAt (u :: s) with
    | none => rw [execFrom_of_none (first_of_not_hitAt h), ih, Option.none_or]
    | some v =>
      obtain ⟨e, he, hs⟩ := @first_of_hitAt prev _ _ h
      have len : s.length + 1 - e.2.length = (tokenPrefix ++ v).length := by
        have := congrArg List.length hs
        rw [List.length_append, List.length_cons] at this
        omega
      rw [execFrom_of_some he, len, hs, List.take_left, Option.some_or, Option.map_some]

theorem tokenOf_eq_searchToken (s : Utf16) : tokenOf s = searchToken s := by
  rw [tokenOf, show tokenPattern.exec s = _ from execFrom_token none s, Option.map_map]
  have back : (fun m : Utf16 => m.drop tokenPrefix.length) ∘ (tokenPrefix ++ ·) = id := by
    funext v
    exact List.drop_left
  rw [back, Option.map_id, id]

end Search

section Parts

variable {s p v w : Utf16}

theorem hitAt_takeWhile (s : Utf16) : hitAt (s.takeWhile (· != 59)) = hitAt s := by
  have cut : s.takeWhile (· != 59) ++ s.dropWhile (· != 59) = s := List.takeWhile_append_dropWhile
  have inside : ∀ u ∈ s.takeWhile (· != 59), u ≠ 59 := fun u hu => by
    simpa using List.all_eq_true.1 List.all_takeWhile u hu
  have stop : ∀ u ∈ (s.dropWhile (· != 59)).head?, u = 59 := fun u hu => by
    have := List.head?_dropWhile_not (· != 59) s
    rw [Option.mem_def.1 hu] at this
    simpa using this
  ext v
  rw [hitAt_eq_some, hitAt_eq_some]
  constructor
  · rintro ⟨b, hb, hne, hv, hs⟩
    have none : b = [] := by
      cases b with
      | nil => rfl
      | cons u b => exact absurd (hs u rfl) (inside u (by rw [hb]; simp))
    rw [none, List.append_nil] at hb
    exact ⟨s.dropWhile (· != 59), by rw [← hb, cut], hne, hv, stop⟩
  · rintro ⟨b, rfl, hne, hv, hs⟩
    have prefixed : ∀ u ∈ tokenPrefix ++ v, (u != 59) = true := by
      intro u hu
      rcases List.mem_append.1 hu with hu | hu
      · exact (by decide : ∀ u ∈ tokenPrefix, (u != 59) = true) u hu
      · simpa using hv u hu
    have ends : b.takeWhile (· != 59) = [] := by
      cases b with
      | nil => rfl
      | cons u b => simp [hs u rfl]
    refine ⟨[], ?_, hne, hv, by simp⟩
    rw [List.takeWhile_append_of_pos prefixed, ends]

theorem splitOn_eq (sep : UInt16) (s : Utf16) :
    ∃ parts, splitOn sep s = s.takeWhile (· != sep) :: parts := by
  induction s with
  | nil => exact ⟨[], rfl⟩
  | cons u s ih =>
    obtain ⟨parts, h⟩ := ih
    by_cases hu : u = sep
    · exact ⟨splitOn sep s, by simp [splitOn, hu]⟩
    · exact ⟨parts, by simp [splitOn, hu, h]⟩

/-- The parts between semicolons are searched one after the other. -/
theorem searchToken_splitOn (s : Utf16) : searchToken s = (splitOn 59 s).findSome? searchToken := by
  induction s with
  | nil => rfl
  | cons u s ih =>
    by_cases hu : u = 59
    · have away : hitAt (59 :: s) = none := by
        rw [hitAt, if_neg]
        rintro ⟨t, ht⟩
        exact absurd (List.cons.inj ht).1 (by decide)
      rw [searchToken, hu, away, Option.none_or, ih, splitOn, if_pos rfl, List.findSome?_cons]
      rfl
    · obtain ⟨parts, hs⟩ := splitOn_eq 59 s
      have whole : splitOn 59 (u :: s) = (u :: s.takeWhile (· != 59)) :: parts := by
        simp [splitOn, hu, hs]
      have part : hitAt (u :: s) = hitAt (u :: s.takeWhile (· != 59)) := by
        rw [← hitAt_takeWhile, List.takeWhile_cons_of_pos (by simpa using hu)]
      rw [whole, searchToken, ih, hs, part, List.findSome?_cons, List.findSome?_cons, searchToken]
      cases hitAt (u :: s.takeWhile (· != 59)) with
      | some v => rfl
      | none => rfl

theorem hitAt_part (hp : 59 ∉ p) : hitAt p = some v ↔ p = tokenPrefix ++ v ∧ v ≠ [] := by
  rw [hitAt_eq_some]
  constructor
  · rintro ⟨b, rfl, hne, -, hb⟩
    cases b with
    | nil => exact ⟨List.append_nil _, hne⟩
    | cons u b => exact absurd (by rw [hb u rfl]; simp) hp
  · rintro ⟨rfl, hne⟩
    exact ⟨[], (List.append_nil _).symm, hne, fun u hu h => hp (by rw [← h]; simp [hu]), by simp⟩

/-- The text that a part has before and after `access_token=` where it has that first. -/
def Mentions (p a v : Utf16) : Prop :=
  p = a ++ tokenPrefix ++ v ∧ v ≠ [] ∧
    ∀ a' v', p = a' ++ tokenPrefix ++ v' → a.length ≤ a'.length

theorem Mentions.unique {a a' v' : Utf16} (h : Mentions p a v) (h' : Mentions p a' v') :
    a = a' ∧ v = v' := by
  have len : a.length = a'.length := Nat.le_antisymm (h.2.2 _ _ h'.1) (h'.2.2 _ _ h.1)
  have same := h.1.symm.trans h'.1
  rw [List.append_assoc, List.append_assoc] at same
  obtain ⟨ha, hv⟩ := List.append_inj same len
  exact ⟨ha, List.append_cancel_left hv⟩

theorem mentions_of_searchToken (hp : 59 ∉ p) (h : searchToken p = some v) : ∃ a, Mentions p a v := by
  induction p with
  | nil => cases h
  | cons u p ih =>
    rw [searchToken] at h
    cases hit : hitAt (u :: p) with
    | some v' =>
      rw [hit] at h
      obtain rfl := Option.some.inj h
      obtain ⟨e, hne⟩ := (hitAt_part hp).1 hit
      exact ⟨[], e, hne, fun _ _ _ => Nat.zero_le _⟩
    | none =>
      rw [hit, Option.none_or] at h
      obtain ⟨a, e, hne, first⟩ := ih (fun hm => hp (List.mem_cons_of_mem _ hm)) h
      refine ⟨u :: a, by rw [e]; rfl, hne, fun a' v' e' => ?_⟩
      cases a' with
      | nil =>
        have empty : v' = [] := Decidable.byContradiction fun hne' => by
          rw [(hitAt_part hp).2 ⟨e', hne'⟩] at hit
          cases hit
        have long := congrArg List.length e
        have short := congrArg List.length e'
        have := List.length_pos_iff.2 hne
        simp only [List.length_append, List.length_cons, empty, List.length_nil] at long short
        omega
      | cons u' a' => exact Nat.succ_le_succ (first a' v' (List.cons.inj e').2)

theorem searchToken_eq_none (hp : 59 ∉ p) (h : searchToken p = none) (a v : Utf16)
    (e : p = a ++ tokenPrefix ++ v) : v = [] := by
  induction p generalizing a with
  | nil => exact (List.append_eq_nil_iff.1 e.symm).2
  | cons u p ih =>
    rw [searchToken, Option.or_eq_none_iff] at h
    cases a with
    | nil =>
      refine Decidable.byContradiction fun hne => ?_
      rw [(hitAt_part hp).2 ⟨e, hne⟩] at h
      cases h.1
    | cons u' a => exact ih (fun hm => hp (List.mem_cons_of_mem _ hm)) h.2 a (List.cons.inj e).2

theorem Mentions.found (hp : 59 ∉ p) {a : Utf16} (h : Mentions p a v) : searchToken p = some v := by
  cases hs : searchToken p with
  | none => exact absurd (searchToken_eq_none hp hs a v h.1) h.2.1
  | some v' =>
    obtain ⟨a', h'⟩ := mentions_of_searchToken hp hs
    rw [(h.unique h').2]

end Parts

section Cookies

variable {p v w : Utf16}

/-- The value of a cookie with that name, unless it is empty; its name ends at the first `=`. -/
def cookieNamed (name part : Utf16) : Option Utf16 :=
  let cookie := trim part
  let own := cookie.takeWhile (· != 61)
  let value := cookie.drop (own.length + 1)
  if own = name ∧ value ≠ [] then some value else none

/-- The value of the first such cookie of a header. -/
def cookieOf (name header : Utf16) : Option Utf16 :=
  (splitOn 59 header).findSome? (cookieNamed name)

theorem cut_iff {c name : Utf16} (hn : ∀ u ∈ name, (u != 61) = true) (hw : w ≠ []) :
    c.takeWhile (· != 61) = name ∧ c.drop (name.length + 1) = w ↔ c = name ++ 61 :: w := by
  constructor
  · rintro ⟨rfl, hd⟩
    have cut : c.takeWhile (· != 61) ++ c.dropWhile (· != 61) = c :=
      List.takeWhile_append_dropWhile
    have rest : (c.dropWhile (· != 61)).drop 1 = w := by
      rw [← hd, ← List.drop_drop]
      conv_rhs => rw [← cut, List.drop_left' (by rw [cut])]
    cases hc : c.dropWhile (· != 61) with
    | nil => exact absurd (by rw [← rest, hc]; rfl) hw
    | cons u r =>
      have equals : u = 61 := by
        have := List.head?_dropWhile_not (· != 61) c
        rw [hc] at this
        simpa using this
      rw [hc, List.drop_one, List.tail_cons] at rest
      rw [hc, rest, equals] at cut
      exact cut.symm
  · rintro rfl
    constructor
    · rw [List.takeWhile_append_of_pos hn]
      simp
    · rw [← List.drop_drop, List.drop_left]
      rfl

theorem cookieNamed_eq_some :
    cookieNamed (text "access_token") p = some w ↔ trim p = tokenPrefix ++ w ∧ w ≠ [] := by
  have plain : ∀ u ∈ text "access_token", (u != 61) = true := by decide
  have whole : tokenPrefix ++ w = text "access_token" ++ 61 :: w := by
    rw [show tokenPrefix = text "access_token" ++ [61] by decide, List.append_assoc]
    rfl
  simp only [cookieNamed]
  rw [whole]
  constructor
  · intro h
    split at h
    · rename_i hc
      obtain ⟨hn, hv⟩ := hc
      obtain rfl := Option.some.inj h
      rw [← hn]
      exact ⟨(cut_iff (by rw [hn]; exact plain) hv).1 ⟨rfl, rfl⟩, hv⟩
    · cases h
  · rintro ⟨e, hne⟩
    obtain ⟨hn, hv⟩ := (cut_iff plain hne).2 e
    rw [hn, hv, if_pos ⟨rfl, hne⟩]

theorem last_trim (p : Utf16) : ∀ u ∈ (trim p).getLast?, isSpace u = false := by
  intro u hu
  rw [trim, List.getLast?_reverse] at hu
  have := List.head?_dropWhile_not isSpace (p.dropWhile isSpace).reverse
  rw [Option.mem_def.1 hu] at this
  simpa using this

theorem dropWhile_self {s : Utf16} (h : ∀ u ∈ s.head?, isSpace u = false) :
    s.dropWhile isSpace = s := by
  cases s with
  | nil => rfl
  | cons u s => simp [h u rfl]

theorem trim_eq {a t : Utf16} (ha : ∀ u ∈ a, isSpace u = true)
    (hf : ∀ u ∈ t.head?, isSpace u = false) (hl : ∀ u ∈ t.getLast?, isSpace u = false) :
    trim (a ++ t) = t := by
  rw [trim, List.dropWhile_append_of_pos ha, dropWhile_self hf, dropWhile_self, List.reverse_reverse]
  rwa [List.head?_reverse]

theorem head?_tokenPrefix (s : Utf16) : (tokenPrefix ++ s).head? = some 97 := by
  rw [List.head?_append, show tokenPrefix.head? = some 97 by decide]
  rfl

/-- A cookie with that name is where its part has `access_token=` first. -/
theorem mentions_of_cookie (h : cookieNamed (text "access_token") p = some w) :
    (∀ u ∈ w.getLast?, isSpace u = false) ∧ ∃ a b, Mentions p a (w ++ b) ∧
      (∀ u ∈ a, isSpace u = true) ∧ ∀ u ∈ b, isSpace u = true := by
  obtain ⟨ht, hne⟩ := cookieNamed_eq_some.1 h
  obtain ⟨a, b, hp, ha, hb⟩ := trim_cut p
  rw [ht] at hp
  refine ⟨fun u hu => last_trim p u ?_, a, b, ⟨?_, ?_, fun a' v' e => ?_⟩, ha, hb⟩
  · rw [ht, List.getLast?_append, Option.mem_def.1 hu]
    rfl
  · rw [hp]
    simp only [List.append_assoc]
  · exact fun h => hne (List.append_eq_nil_iff.1 h).1
  · rw [hp] at e
    simp only [List.append_assoc] at e
    rcases List.append_eq_append_iff.1 e with ⟨c, rfl, -⟩ | ⟨c, rfl, hc⟩
    · rw [List.length_append]
      exact Nat.le_add_right ..
    · cases c with
      | nil => simp
      | cons u c =>
        -- the name would begin with a blank
        have first := congrArg List.head? hc
        rw [head?_tokenPrefix] at first
        obtain rfl : 97 = u := Option.some.inj first
        exact absurd (ha 97 (by simp)) (by decide)

theorem cookie_of_mentions {a : Utf16} (h : Mentions p a v) (ha : ∀ u ∈ a, isSpace u = true)
    (hv : ∀ u ∈ v.getLast?, isSpace u = false) :
    cookieNamed (text "access_token") p = some v := by
  obtain ⟨rfl, hne, -⟩ := h
  refine cookieNamed_eq_some.2 ⟨?_, hne⟩
  rw [List.append_assoc]
  refine trim_eq ha (fun u hu => ?_) fun u hu => hv u ?_
  · rw [head?_tokenPrefix] at hu
    obtain rfl := Option.some.inj hu
    decide
  · rw [List.getLast?_append] at hu
    cases hl : v.getLast? with
    | none => exact absurd (List.getLast?_eq_none_iff.1 hl) hne
    | some u' =>
      rw [hl] at hu
      exact hu

theorem searchToken_none_iff (hp : 59 ∉ p) : searchToken p = none ↔ ∀ a v, ¬ Mentions p a v := by
  constructor
  · intro h a v hm
    cases h.symm.trans (hm.found hp)
  · intro h
    cases hs : searchToken p with
    | none => rfl
    | some v =>
      obtain ⟨a, hm⟩ := mentions_of_searchToken hp hs
      exact absurd hm (h a v)

theorem cookie_none (h : ∀ a v, ¬ Mentions p a v) :
    cookieNamed (text "access_token") p = none := by
  cases hc : cookieNamed (text "access_token") p with
  | none => rfl
  | some w =>
    obtain ⟨-, a, b, hm, -⟩ := mentions_of_cookie hc
    exact absurd hm (h a _)

end Cookies

section Extraction

/-- No part of the header has `access_token=` with text after it; or in the first one that has,
only blanks come before it and none ends the part, or the first cookie with that name and a value
in the parts after it has the very text that follows there. -/
def Unmistaken (parts : List Utf16) : Prop :=
  (∀ p ∈ parts, ∀ a v, ¬ Mentions p a v) ∨ ∃ before p after a v, parts = before ++ p :: after ∧
    (∀ q ∈ before, ∀ a' v', ¬ Mentions q a' v') ∧ Mentions p a v ∧
      (((∀ u ∈ a, isSpace u = true) ∧ ∀ u ∈ v.getLast?, isSpace u = false) ∨
        after.findSome? (cookieNamed (text "access_token")) = some v)

variable {parts : List Utf16}

theorem cookies_before {before after : List Utf16} {p : Utf16}
    (h : ∀ q ∈ before, ∀ a v, ¬ Mentions q a v) :
    (before ++ p :: after).findSome? (cookieNamed (text "access_token")) =
      (cookieNamed (text "access_token") p).or
        (after.findSome? (cookieNamed (text "access_token"))) := by
  have none : before.findSome? (cookieNamed (text "access_token")) = none :=
    List.findSome?_eq_none_iff.2 fun q hq => cookie_none (h q hq)
  rw [List.findSome?_append, none, Option.none_or, List.findSome?_cons]
  cases cookieNamed (text "access_token") p <;> rfl

theorem found_of_unmistaken (hs : ∀ p ∈ parts, 59 ∉ p) (h : Unmistaken parts) :
    parts.findSome? searchToken = parts.findSome? (cookieNamed (text "access_token")) := by
  rcases h with h | ⟨before, p, after, a, v, rfl, hb, hm, hv⟩
  · rw [List.findSome?_eq_none_iff.2 fun p hp => (searchToken_none_iff (hs p hp)).2 (h p hp),
      List.findSome?_eq_none_iff.2 fun p hp => cookie_none (h p hp)]
  · have hp : 59 ∉ p := hs p (by simp)
    have found : (before ++ p :: after).findSome? searchToken = some v := by
      have none : before.findSome? searchToken = none :=
        List.findSome?_eq_none_iff.2 fun q hq =>
          (searchToken_none_iff (hs q (List.mem_append_left _ hq))).2 (hb q hq)
      rw [List.findSome?_append, none, Option.none_or, List.findSome?_cons, hm.found hp]
    rw [found, cookies_before hb]
    rcases hv with ⟨ha, hv⟩ | hv
    · rw [cookie_of_mentions hm ha hv, Option.some_or]
    · cases hc : cookieNamed (text "access_token") p with
      | none => rw [hv, Option.none_or]
      | some w =>
        -- the later cookie does not end in a blank, so that nothing was trimmed here
        obtain ⟨q, -, hq⟩ := List.exists_of_findSome?_eq_some hv
        have last := (mentions_of_cookie hq).1
        obtain ⟨-, a', b, hm', -, hb'⟩ := mentions_of_cookie hc
        obtain ⟨-, rfl⟩ := hm.unique hm'
        have untrimmed : b = [] := by
          rcases List.eq_nil_or_concat b with rfl | ⟨b, u, rfl⟩
          · rfl
          · have := last u (by simp)
            rw [hb' u (by simp)] at this
            cases this
        rw [untrimmed, List.append_nil, Option.some_or]

theorem unmistaken_of_found (hs : ∀ p ∈ parts, 59 ∉ p)
    (h : parts.findSome? searchToken = parts.findSome? (cookieNamed (text "access_token"))) :
    Unmistaken parts := by
  cases hf : parts.findSome? searchToken with
  | none =>
    exact .inl fun p hp => (searchToken_none_iff (hs p hp)).1 (List.findSome?_eq_none_iff.1 hf p hp)
  | some v =>
    obtain ⟨before, p, after, rfl, hp, hb⟩ := List.findSome?_eq_some_iff.1 hf
    obtain ⟨a, hm⟩ := mentions_of_searchToken (hs p (by simp)) hp
    have silent : ∀ q ∈ before, ∀ a' v', ¬ Mentions q a' v' := fun q hq =>
      (searchToken_none_iff (hs q (List.mem_append_left _ hq))).1 (hb q hq)
    refine .inr ⟨before, p, after, a, v, rfl, silent, hm, ?_⟩
    rw [hf, cookies_before silent] at h
    cases hc : cookieNamed (text "access_token") p with
    | none =>
      rw [hc, Option.none_or] at h
      exact .inr h.symm
    | some w =>
      rw [hc, Option.some_or] at h
      obtain rfl := Option.some.inj h
      obtain ⟨hl, a', b, hm', ha', -⟩ := mentions_of_cookie hc
      obtain ⟨rfl, -⟩ := hm.unique hm'
      exact .inl ⟨ha', hl⟩

/-- The two gateways extract the same token; it is the cookie `access_token` exactly when no
other text of the header is taken for it. -/
theorem cookie_token_iff {token : Field} (ht : ∀ s, token = .string s → s = [])
    (header : Option Utf16) :
    extractToken token header = RealtimeGateway.extractToken token header ∧
      (extractToken token header = cookieOf (text "access_token") (header.getD []) ↔
        Unmistaken (splitOn 59 (header.getD []))) := by
  have searched : RealtimeGateway.extractToken token header = searchToken (header.getD []) := by
    rw [← tokenOf_eq_searchToken]
    cases token with
    | absent => rfl
    | other truthy printed => rfl
    | string s =>
      rw [ht s rfl]
      rfl
  have alike : extractToken token header = RealtimeGateway.extractToken token header := by
    rw [searched, ← tokenOf_eq_searchToken]
    cases token with
    | absent => rcases header with _ | _ | ⟨u, s⟩ <;> rfl
    | other truthy printed => rcases header with _ | _ | ⟨u, s⟩ <;> rfl
    | string s =>
      rw [ht s rfl]
      rcases header with _ | _ | ⟨u, s⟩ <;> rfl
  refine ⟨alike, ?_⟩
  rw [alike, searched, searchToken_splitOn]
  have parts : ∀ p ∈ splitOn 59 (header.getD []), 59 ∉ p := fun p hp => not_mem_of_mem_splitOn hp
  exact ⟨unmistaken_of_found parts, found_of_unmistaken parts⟩

theorem cookie_token_iff_example :
    Unmistaken (splitOn 59 (text "a=1; access_token=x.y; b=2")) ∧
      ¬ Unmistaken (splitOn 59 (text "refresh_access_token=r; access_token=x.y")) := by
  constructor
  · exact (@cookie_token_iff .absent (fun _ h => by cases h)
      (some (text "a=1; access_token=x.y; b=2"))).2.1 (by decide +kernel)
  · intro h
    have same := (@cookie_token_iff .absent (fun _ h => by cases h)
      (some (text "refresh_access_token=r; access_token=x.y"))).2.2 h
    exact absurd same (by decide +kernel)

/-- Another cookie has a name that ends like this one. -/
theorem cookie_token_mistaken :
    ¬ ∀ (token : Field) (header : Utf16), (∀ s, token = .string s → s = []) →
      extractToken token (some header) = cookieOf (text "access_token") header := by
  intro h
  have same := h .absent (text "refresh_access_token=r; access_token=x.y") fun _ e => by cases e
  exact absurd same (by decide +kernel)

end Extraction

end Messageries.Guarantees
