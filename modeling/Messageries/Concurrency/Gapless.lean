import Mathlib.Data.List.Basic
import Mathlib.Data.List.Induction

/-! Numbers that come in one after the other, each of them perhaps more than once. -/

namespace Messageries.Concurrency

/-- Every number comes after all those below it, down to `s`. -/
inductive Gapless (s : Nat) : List Nat → Prop
  | nil : Gapless s []
  | snoc {ns : List Nat} {n : Nat} : Gapless s ns → s ≤ n → (∀ j, s ≤ j → j < n → j ∈ ns) →
      Gapless s (ns ++ [n])

namespace Gapless

variable {s t : Nat} {ns ms : List Nat}

theorem of_append (h : Gapless s (ns ++ ms)) : Gapless s ns := by
  generalize hl : ns ++ ms = l at h
  induction h generalizing ms with
  | nil =>
    obtain ⟨rfl, -⟩ := List.append_eq_nil_iff.1 hl
    exact .nil
  | snoc hs hn below ih =>
    rcases List.eq_nil_or_concat ms with rfl | ⟨ms, m, rfl⟩
    · rw [List.append_nil] at hl
      exact hl ▸ .snoc hs hn below
    · rw [List.concat_eq_append, ← List.append_assoc] at hl
      exact ih (List.append_inj_left' hl rfl)

/-- What a number that comes in has before it. -/
theorem before {n : Nat} (h : Gapless s (ns ++ [n])) : s ≤ n ∧ ∀ j, s ≤ j → j < n → j ∈ ns := by
  generalize hl : ns ++ [n] = l at h
  cases h with
  | nil => exact (List.append_ne_nil_of_right_ne_nil ns (List.cons_ne_nil n []) hl).elim
  | snoc _ hn below =>
    obtain ⟨rfl, hlast⟩ := List.append_inj' hl rfl
    cases hlast
    exact ⟨hn, below⟩

/-- A number that comes for the first time is the next one. -/
theorem eraseDups (h : Gapless s ns) : ∃ k, ns.eraseDups = List.range' s k := by
  induction h with
  | nil => exact ⟨0, rfl⟩
  | @snoc ns n _ hn below ih =>
    obtain ⟨k, hk⟩ := ih
    have mem : ∀ j, j ∈ ns ↔ s ≤ j ∧ j < s + k := fun j => by
      rw [← List.mem_eraseDups, hk, List.mem_range'_1]
    rw [List.eraseDups_append, hk]
    by_cases again : n ∈ ns
    · exact ⟨k, by simp [List.removeAll, again]⟩
    · have next : n = s + k := by
        have above : s + k ≤ n := Nat.le_of_not_lt fun hlt => again ((mem n).2 ⟨hn, hlt⟩)
        have stop : ¬s + k < n := fun hlt =>
          absurd ((mem (s + k)).1 (below (s + k) (Nat.le_add_right s k) hlt)).2 (Nat.lt_irrefl _)
        omega
      have new : [n].removeAll ns = [n] := by simp [List.removeAll, again]
      refine ⟨k + 1, ?_⟩
      rw [List.range'_concat, new, next]
      simp [List.eraseDups_cons]

/-- What the numbers stand for comes in without gaps when it does so in their order. -/
theorem filterMap {f : Nat → Option Nat} {k : Nat} (h : Gapless s ns) (hk : ∀ n ∈ ns, n < s + k)
    (hf : Gapless t ((List.range' s k).filterMap f)) : Gapless t (ns.filterMap f) := by
  induction h with
  | nil => exact .nil
  | @snoc ns n _ hn below ih =>
    have earlier : Gapless t (ns.filterMap f) := ih fun m hm => hk m (List.mem_append_left _ hm)
    have hlt := hk n (List.mem_append_right _ List.mem_cons_self)
    rw [List.filterMap_append]
    cases hx : f n with
    | none => simpa [hx] using earlier
    | some x =>
      obtain ⟨d, rfl⟩ := Nat.exists_eq_add_of_le hn
      obtain ⟨e, rfl⟩ := Nat.exists_eq_add_of_lt (Nat.lt_of_add_lt_add_left hlt)
      -- the numbers before this one, this one and the rest
      rw [show d + e + 1 = d + 1 + e by omega, ← List.range'_append_1, List.range'_concat,
        List.filterMap_append, List.filterMap_append] at hf
      have upTo := hf.of_append
      have single : [s + d].filterMap f = [x] := by simp [hx]
      rw [Nat.one_mul, single] at upTo
      rw [single]
      obtain ⟨hx, before⟩ := upTo.before
      refine .snoc earlier hx fun j hj hjx => ?_
      obtain ⟨m, hm, hmj⟩ := List.mem_filterMap.1 (before j hj hjx)
      obtain ⟨hm, hmn⟩ := List.mem_range'_1.1 hm
      exact List.mem_filterMap.2 ⟨m, below m hm hmn, hmj⟩

theorem filterMap_range' {α : Type} (f : α → Option Nat) (l : List α) :
    (List.range' 0 l.length).filterMap (fun i => l[i]?.bind f) = l.filterMap f := by
  induction l using List.reverseRecOn with
  | nil => rfl
  | append_singleton l a ih =>
    have old : (List.range' 0 l.length).filterMap (fun i => (l ++ [a])[i]?.bind f) =
        (List.range' 0 l.length).filterMap fun i => l[i]?.bind f :=
      List.filterMap_congr fun i hi => by
        rw [List.getElem?_append_left (by simpa using hi)]
    rw [List.length_append, List.length_singleton, List.range'_concat, List.filterMap_append,
      List.filterMap_append, old, ih]
    simp [List.filterMap_cons]

/-- The same of the entries of a log. -/
theorem entries {α : Type} {f : α → Option Nat} {l : List α} (h : Gapless 0 ns)
    (hl : ∀ n ∈ ns, n < l.length) (hf : Gapless t (l.filterMap f)) :
    Gapless t (ns.filterMap fun i => l[i]?.bind f) := by
  rw [← filterMap_range'] at hf
  exact h.filterMap (fun n hn => by simpa using hl n hn) hf

end Gapless

end Messageries.Concurrency
