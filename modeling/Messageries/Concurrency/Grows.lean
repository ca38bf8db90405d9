import Mathlib.Data.List.Forall2

/-! Logs whose entries stay where they are. -/

namespace Messageries.Concurrency

/-- The entries of `l` come first in `l'`, each changed as `R` lets it change. -/
def Grows {α : Type} (R : α → α → Prop) (l l' : List α) : Prop :=
  ∃ kept added, l' = kept ++ added ∧ List.Forall₂ R l kept

/-- The same with one new entry at most. -/
def Appends {α : Type} (R : α → α → Prop) (l l' : List α) : Prop :=
  ∃ kept added, l' = kept ++ added ∧ List.Forall₂ R l kept ∧ added.length ≤ 1

namespace Grows

variable {α : Type} {R : α → α → Prop} {l l' l'' : List α}

theorem refl (hR : ∀ a, R a a) (l : List α) : Grows R l l :=
  ⟨l, [], (List.append_nil l).symm, List.forall₂_same.2 fun a _ => hR a⟩

theorem exists_of_forall₂ (h : List.Forall₂ R l l') {a : α} (ha : a ∈ l) :
    ∃ a' ∈ l', R a a' := by
  induction h with
  | nil => cases ha
  | cons hab _ ih =>
    rcases List.mem_cons.1 ha with rfl | ha
    · exact ⟨_, List.mem_cons_self, hab⟩
    · obtain ⟨a', ha', hR⟩ := ih ha
      exact ⟨a', List.mem_cons_of_mem _ ha', hR⟩

theorem forall₂_trans (hR : ∀ a b c, R a b → R b c → R a c) (h : List.Forall₂ R l l')
    (h' : List.Forall₂ R l' l'') : List.Forall₂ R l l'' := by
  induction h generalizing l'' with
  | nil => exact h'
  | cons hab _ ih =>
    cases h' with
    | cons hbc h' => exact .cons (hR _ _ _ hab hbc) (ih h')

theorem trans (hR : ∀ a b c, R a b → R b c → R a c) (h : Grows R l l') (h' : Grows R l' l'') :
    Grows R l l'' := by
  obtain ⟨kept, added, rfl, hk⟩ := h
  obtain ⟨kept', added', rfl, hk'⟩ := h'
  refine ⟨kept'.take kept.length, kept'.drop kept.length ++ added', ?_, ?_⟩
  · rw [← List.append_assoc, List.take_append_drop]
  · have first := List.forall₂_take kept.length hk'
    rw [List.take_left] at first
    exact forall₂_trans hR hk first

/-- Entries that are numbered in a row. -/
theorem of_numbered {key : α → Nat} {s n n' : Nat} (hl : l.map key = List.range' s n)
    (hl' : l'.map key = List.range' s n')
    (h : ∀ a ∈ l, ∃ a' ∈ l', key a' = key a ∧ R a a') : Grows R l l' := by
  induction l generalizing l' s n n' with
  | nil => exact ⟨[], l', rfl, .nil⟩
  | cons a l ih =>
    cases n with
    | zero => cases hl
    | succ n =>
      rw [List.map_cons, List.range'_succ] at hl
      obtain ⟨ha, hl⟩ := List.cons.inj hl
      obtain ⟨a', ha', hk, hR⟩ := h a List.mem_cons_self
      cases l' with
      | nil => cases ha'
      | cons b l' =>
        cases n' with
        | zero => cases hl'
        | succ n' =>
          rw [List.map_cons, List.range'_succ] at hl'
          obtain ⟨hb, hl'⟩ := List.cons.inj hl'
          -- the numbers behind the first entry are greater
          have above : ∀ x ∈ l', s < key x := fun x hx => by
            have mem : key x ∈ List.range' (s + 1) n' := hl' ▸ List.mem_map_of_mem hx
            exact (List.mem_range'_1.1 mem).1
          have first : a' = b := by
            rcases List.mem_cons.1 ha' with e | hx
            · exact e
            · have := above a' hx
              omega
          have rest : ∀ x ∈ l, ∃ x' ∈ l', key x' = key x ∧ R x x' := fun x hx => by
            obtain ⟨x', hx', hkx, hRx⟩ := h x (List.mem_cons_of_mem a hx)
            have mem : key x ∈ List.range' (s + 1) n := hl ▸ List.mem_map_of_mem hx
            have := (List.mem_range'_1.1 mem).1
            rcases List.mem_cons.1 hx' with rfl | hx'
            · omega
            · exact ⟨x', hx', hkx, hRx⟩
          obtain ⟨kept, added, rfl, hf⟩ := ih hl hl' rest
          exact ⟨b :: kept, added, rfl, .cons (first ▸ hR) hf⟩

end Grows

theorem Appends.grows {α : Type} {R : α → α → Prop} {l l' : List α} (h : Appends R l l') :
    Grows R l l' := by
  obtain ⟨kept, added, rfl, hk, -⟩ := h
  exact ⟨kept, added, rfl, hk⟩

end Messageries.Concurrency
