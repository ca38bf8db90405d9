import Messageries.Concurrency.Machine

/-! Operations that are to follow one another. -/

namespace Messageries.Concurrency

variable {Op : Type} {Res : Op → Type} {Err σ Input Event Call α β : Type}

namespace Prog

/-- Every operation the program can come to satisfies `P`, or is followed, when it succeeds, by
one that `B` relates to it. -/
def Pairs (P : Op → Prop) (B : Op → Op → Prop) : Prog Op Res Err α → Prop
  | .pure _ => True
  | .throw _ => True
  | .op o k =>
    (P o ∨ ∃ o', B o o' ∧ ∀ a, ∃ k', k (.ok a) = .op o' k') ∧ ∀ r, (k r).Pairs P B

namespace Pairs

variable {P : Op → Prop} {B : Op → Op → Prop}

theorem of_uses {x : Prog Op Res Err α} (hx : x.Uses P) : x.Pairs P B := by
  induction x with
  | pure a => trivial
  | throw e => trivial
  | op o k ih => exact ⟨.inl hx.1, fun r => ih r (hx.2 r)⟩

theorem uses {x : Prog Op Res Err α} (hx : x.Pairs P B) :
    x.Uses fun o => P o ∨ ∃ o', B o o' := by
  induction x with
  | pure a => trivial
  | throw e => trivial
  | op o k ih => exact ⟨hx.1.imp_right fun ⟨o', h, _⟩ => ⟨o', h⟩, fun r => ih r (hx.2 r)⟩

theorem bind {x : Prog Op Res Err α} {f : α → Prog Op Res Err β} (hx : x.Pairs P B)
    (hf : ∀ a, (f a).Pairs P B) : (x >>= f).Pairs P B := by
  induction x with
  | pure a => exact hf a
  | throw e => trivial
  | op o k ih =>
    refine ⟨hx.1.imp_right fun ⟨o', h, next⟩ => ⟨o', h, fun a => ?_⟩, fun r => ih r (hx.2 r)⟩
    obtain ⟨k', hk'⟩ := next a
    exact ⟨fun r => k' r >>= f, congrArg (· >>= f) hk'⟩

theorem ite {c : Prop} [Decidable c] {x y : Prog Op Res Err α} (hx : c → x.Pairs P B)
    (hy : ¬c → y.Pairs P B) : (if c then x else y).Pairs P B := by
  split
  · exact hx ‹_›
  · exact hy ‹_›

end Pairs

end Prog

namespace Machine

variable {M : Machine Op Res Err σ Input Event Call α} {p : Nat} {o : Op}
  {P₀ P P' : Pool Op Res Err σ Call α}

/-- On the way from `P₀` to `P` process `p` came to the operation and was answered with an error. -/
def Refused (M : Machine Op Res Err σ Input Event Call α) (p : Nat) (o : Op)
    (P₀ P : Pool Op Res Err σ Call α) : Prop :=
  ∃ Q i k next e s, M.Later P₀ Q ∧ Q.threads p = some ⟨k, some (.op o next)⟩ ∧
    M.exec p i o Q.shared = some (.error e, s) ∧ M.Later (Q.put s p ⟨k, some (next (.error e))⟩) P

theorem Refused.later (h : M.Refused p o P₀ P) (hl : M.Later P P') : M.Refused p o P₀ P' := by
  obtain ⟨Q, i, k, next, e, s, hQ, ht, hx, hP⟩ := h
  exact ⟨Q, i, k, next, e, s, hQ, ht, hx, hP.trans hl⟩

theorem Leads.refused {i : Input} {k : Call} {next : Except Err (Res o) → Prog Op Res Err α}
    {e : Err} {s : σ} (h : M.Later P₀ P) (ht : P.threads p = some ⟨k, some (.op o next)⟩)
    (hx : M.exec p i o P.shared = some (.error e, s)) :
    M.Refused p o P₀ (P.put s p ⟨k, some (next (.error e))⟩) :=
  ⟨P, i, k, next, e, s, h, ht, hx, .refl⟩

end Machine

end Messageries.Concurrency
