import Messageries.Proofs.Extension

set_option linter.unusedSectionVars false

namespace Messageries.Proofs

open Text Relational Database Crypto Concurrency Backend

section Log

variable [AesGcm] [TokenHash] {w₀ : World} {g : Nat → Op → World → Prop} {p : Nat}
  {P : Pool Op Op.Res Err World Call Response}

theorem inserts_of_pooled {s : Stmt} {w : World} {t : Table} {r : t.Row}
    (h : Schema.Write.insert t r ∈ pooled s w) {x : Write} (hx : x ∈ pooled s w) :
    ∃ t r, x = .insert t r := by
  rcases Schema.Stmt.mem_plan h with ⟨t', make, rfl, f, -, i, e⟩ | ⟨t', q, f, rfl, e⟩
  · obtain ⟨f', -, i', rfl⟩ := Schema.Stmt.mem_plan_insert hx
    exact ⟨t', _, rfl⟩
  · cases e

/-- The tokens are written by single statements on connections of the pool, that `G` holds of. -/
def Writes (G : Stmt → Prop) (w : World) (new : List Write) : Prop :=
  ∀ x ∈ new, writesTo x = .refreshTokens →
    (∃ ks, x = .delete .refreshTokens ks) ∨ ∃ s, G s ∧ new = pooled s w

theorem Writes.nil {G : Stmt → Prop} {w : World} : Writes G w [] :=
  fun _ hx => (List.not_mem_nil hx).elim

theorem Saves.tokens {id : Nat} {x : Write} (h : Saves id x) : writesTo x = .refreshTokens := by
  obtain ⟨⟨ks, f, rfl, -⟩, -⟩ := h
  rfl

theorem Saves.pooled {id : Nat} {x : Write} {w : World} {new : List Write} {G : Stmt → Prop}
    (h : Saves id x) (hn : Writes G w new) (hx : x ∈ new) : ∃ s, G s ∧ x ∈ pooled s w := by
  rcases hn x hx h.tokens with ⟨ks, rfl⟩ | ⟨s, hs, rfl⟩
  · obtain ⟨⟨_, _, he, -⟩, -⟩ := h
    cases he
  · exact ⟨s, hs, hx⟩

theorem exec_tokens {db₀ : Db} {w w' : World} {i : Input} {o : Op} {r : Except Err o.Res}
    (hi : Inv db₀ w) (h : World.exec p i o w = some (r, w')) :
    ∃ new, w'.store.wal = w.store.wal ++ new.map (p, ·) ∧
      Writes (fun s => o = .query .pool s) w new := by
  obtain ⟨new, hc, hm⟩ := exec_makes h
  refine ⟨new, hc.1, ?_⟩
  cases hm with
  | nothing => exact .nil
  | commit ht _ => exact fun x hx e => (hi.apart p _ ht x hx e).elim
  | query s => exact fun x _ _ => .inr ⟨s, rfl, rfl⟩
  | remove t q ks =>
    intro x hx e
    obtain rfl := List.mem_singleton.1 hx
    obtain rfl : t = .refreshTokens := e
    exact .inl ⟨ks, rfl⟩

/-- A rule for what the log says of the tokens. -/
theorem token_rule {Ψ : World → Prop} (h : machine.Reach (From w₀) g P)
    (init : ∀ w, w.store.wal = [] → Ψ w)
    (step : ∀ a w w' p new, Inv w₀.store.db w → Inv w₀.store.db w' → Guar a w w' →
      w'.store.wal = w.store.wal ++ new.map (p, ·) → (new = [] ∨ ∃ k, w.calls p = some k) →
      Writes (fun s => g p (.query .pool s) w) w new → Ψ w → Ψ w') : Ψ P.shared := by
  induction h with
  | init hs => exact init _ (hs.2 ▸ hs.1.wal)
  | @step P P' l hP hl hst ih =>
    have hi := (sound g w₀).inv hP
    have hi' := (sound g w₀).inv (.step l hP hl hst)
    obtain ⟨a, hg⟩ := ((sound g w₀).step ((sound g w₀).holds hP) hl hst).2
    have idle : P'.shared.store.wal = P.shared.store.wal → Ψ P'.shared := fun e =>
      step a _ _ 0 [] hi hi' hg (by simp [e]) (.inl rfl) .nil ih
    rcases Machine.step_cases hst with ⟨q, k, s, rfl, -, hx, rfl⟩ |
      ⟨q, i, k, o, next, r, s, rfl, ht, hx, rfl⟩ | ⟨x, s, rfl, hx, rfl⟩ | ⟨q, k, o, next, rfl, ht, rfl⟩
    · refine idle ?_
      have hx : World.enter q k P.shared = some s := hx
      simp only [World.enter] at hx
      split at hx
      · cases hx
        rfl
      · cases hx
    · have hx : World.exec q i o P.shared = some (r, s) := hx
      obtain ⟨new, hw, hn⟩ := exec_tokens hi hx
      refine step a _ _ q new hi hi' hg hw (.inr ⟨k, call_of_thread hP ht⟩) ?_ ih
      intro x hx e
      rcases hn x hx e with hd | ⟨st, rfl, hnew⟩
      · exact .inl hd
      · exact .inr ⟨st, hl q i k _ next rfl ht, hnew⟩
    · refine idle ?_
      have hx : World.event x P.shared = some s := hx
      cases x with
      | rotateKeys kms =>
        simp only [World.event] at hx
        split at hx
        · cases hx
          rfl
        · cases hx
      | tick ms => cases hx; rfl
      | configure s => cases hx; rfl
      | evict ids => cases hx; rfl
      | upload key size => cases hx; rfl
    · exact idle rfl

end Log

end Messageries.Proofs
