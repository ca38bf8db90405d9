import Messageries.Guarantees.Numbering
import Messageries.Proofs.Alone

set_option linter.unusedSectionVars false

namespace Messageries.Guarantees

open Text Relational Database Crypto Concurrency Backend Moderation Proofs

/-- A limit that is there and that `parseInt` reads as zero. -/
def ReadsZero (limit : Option Utf16) : Prop := (truthy limit).bind parseInt = some 0

instance (limit : Option Utf16) : Decidable (ReadsZero limit) :=
  inferInstanceAs (Decidable (_ = _))

/-- Some process of some run, from some database, answers the call so. -/
def AnswersWith (k : Call) (r : Response) : Prop :=
  ∃ (cipher : AesGcm) (hash : TokenHash) (w₀ : World) (P : Run) (p : Nat),
    (@machine cipher hash).Reachable (· = w₀) P ∧ P.threads p = some ⟨k, some (.pure r)⟩

section Bounded

variable {limit : Option Utf16} {standard most : Int}

theorem clamp_bounded (h : ¬ ReadsZero limit) (h₀ : standard ≠ 0) (h₁ : standard ≤ most)
    (hm : 0 < most) : ∀ n, clamp limit standard most = some n → n ≠ 0 ∧ n ≤ most := by
  intro n hn
  unfold clamp at hn
  unfold ReadsZero at h
  cases ht : truthy limit with
  | none =>
    rw [ht] at hn
    obtain rfl := Option.some.inj hn
    exact ⟨h₀, h₁⟩
  | some s =>
    rw [ht] at hn h
    obtain ⟨m, hs, rfl⟩ := Option.map_eq_some_iff.1 hn
    have nonzero : m ≠ 0 := fun e => h (by rw [← e, ← hs]; rfl)
    omega

theorem clamp_zero (h : ReadsZero limit) (hm : 0 < most) : clamp limit standard most = some 0 := by
  unfold ReadsZero at h
  unfold clamp
  cases ht : truthy limit with
  | none =>
    rw [ht] at h
    cases h
  | some s =>
    rw [ht] at h
    have read : parseInt s = some 0 := h
    change (parseInt s).map _ = _
    rw [read, Option.map_some, Int.min_eq_left (Int.le_of_lt hm)]

variable {α β : Type} {Op : Type} {Res : Op → Type} {Err : Type}

theorem returns_page {limit : Option Int} {most : Nat}
    (h : ∀ n, limit = some n → n ≠ 0 ∧ n ≤ most) (rows : List α) :
    (orThrow (page limit rows)).Returns fun r => r.length ≤ most := by
  unfold page
  cases limit with
  | none => trivial
  | some n =>
    obtain ⟨h₀, hn⟩ := h n rfl
    simp only [if_neg h₀]
    split
    · trivial
    · refine Nat.le_trans (List.length_take_le ..) ?_
      omega

theorem returns_mapM {f : α → Prog Op Res Err β} (xs : List α) :
    (xs.mapM' f).Returns fun ys => ys.length = xs.length := by
  induction xs with
  | nil => rfl
  | cons x xs ih => exact .seq fun b => ih.bind fun ys h => congrArg (· + 1) h

end Bounded

section Services

variable [AesGcm] {most : Nat}

theorem returns_listRows {limit : Option Int} (h : ∀ n, limit = some n → n ≠ 0 ∧ n ≤ most)
    (conversationId : Nat) (after before : Option Utf16) :
    (listRows conversationId after before limit).Returns fun rows => rows.length ≤ most := by
  have selected : ∀ q descending, (selectPage conversationId q descending limit).Returns
      fun rows => rows.length ≤ most := fun _ _ => .seq fun _ => returns_page h _
  unfold listRows
  split
  · exact .seq fun _ => selected _ _
  · exact .seq fun _ => selected _ _
  · exact selected _ _

theorem returns_list {limit : Option Utf16} (h : ¬ ReadsZero limit) (conversationId : Nat)
    (after before : Option Utf16) :
    (Backend.list conversationId after before limit).Returns fun ms => ms.length ≤ 100 := by
  have bounded := clamp_bounded h (by decide : (50 : Int) ≠ 0) (by decide) (by decide : (0 : Int) < 100)
  refine (returns_listRows bounded conversationId after before).bind fun rows hr => ?_
  exact (returns_mapM rows).mono fun ms e => e ▸ hr

theorem returns_listMls {limit : Option Utf16} (h : ¬ ReadsZero limit) (user : AuthUser)
    (conversationId : Nat) (after : Option Utf16) :
    (listMlsMessages user conversationId after limit).Returns fun ms => ms.length ≤ 500 := by
  have bounded := clamp_bounded h (by decide : (100 : Int) ≠ 0) (by decide) (by decide : (0 : Int) < 500)
  exact .seq fun _ => .seq fun _ => .seq fun _ => .seq fun _ => returns_page bounded _

end Services

/-- What the code of a call returns, a process answers. -/
theorem AnswersWith.returns {k : Call} {r : Response} {Q : Response → Prop} (h : AnswersWith k r)
    (hQ : ∀ (cipher : AesGcm) (hash : TokenHash), (@code cipher hash k).Returns Q) : Q r := by
  obtain ⟨cipher, hash, w₀, P, p, hr, ht⟩ := h
  exact hr.residual (R := fun k' x => k' = k → x.Returns Q) (fun k' e => e ▸ hQ cipher hash)
    (fun _ _ _ r hx e => hx e r) ht rfl

theorem list_bounded {limit : Option Utf16} (h : ¬ ReadsZero limit) {user : AuthUser} {c : Nat}
    {after before : Option Utf16} {ms : List DecryptedMessage}
    (ha : AnswersWith (.list user c after before limit) (.messages ms)) : ms.length ≤ 100 := by
  refine ha.returns (Q := fun r => ∀ ms, r = .messages ms → ms.length ≤ 100)
    (fun cipher hash => ?_) ms rfl
  refine .seq fun _ => (returns_list h c after before).bind fun ms hms ms' e => ?_
  cases e
  exact hms

theorem listMls_bounded {limit : Option Utf16} (h : ¬ ReadsZero limit) {user : AuthUser} {c : Nat}
    {after : Option Utf16} {ms : List MlsMessage}
    (ha : AnswersWith (.listMls user c after limit) (.mlsMessages ms)) : ms.length ≤ 500 := by
  refine ha.returns (Q := fun r => ∀ ms, r = .mlsMessages ms → ms.length ≤ 500)
    (fun cipher hash => ?_) ms rfl
  refine .seq fun _ => (returns_listMls h user c after).bind fun ms hms ms' e => ?_
  cases e
  exact hms

section Unbounded

def chatter (n : Nat) : Message where
  id := n
  conversationId := 10
  senderId := 2
  sequence := n + 1
  body := some (text "a")
  bodyCiphertext := none
  bodyDekId := none
  bodyAlg := none
  bodyIv := none
  bodyTag := none
  bodyFormat := "plain"
  status := .sent
  idempotencyKey := none
  moderationFlags := none
  moderationScore := 0
  moderatedBy := none
  moderatedAt := none
  createdAt := 0
  deletedAt := none

/-- A conversation with 101 messages and 501 packets of its group. -/
def crowdedDb : Db
  | .messages => (List.range 101).map chatter
  | .groups => [⟨1, 10, [], [], 0, 2, 0⟩]
  | .mlsMessages => (List.range 501).map fun n => ⟨n, 1, 2, [], .application, 0, n + 1, none, [], 0⟩
  | t => exampleDb t

def crowdedWorld : World := worldOf crowdedDb exampleSettings

def rowsIn : Response → Nat
  | .messages ms => ms.length
  | .mlsMessages ms => ms.length
  | _ => 0

def rowsAlone (k : Call) : Option Nat :=
  ((@code exampleCipher exampleHash k).eval (World.exec 0 calm) crowdedWorld).map fun x =>
    match x.1 with
    | .ok r => rowsIn r
    | .error _ => 0

theorem rows_list : rowsAlone (.list ⟨2, .customer⟩ 10 none none (some (text "0"))) = some 101 := by
  decide +kernel

theorem rows_listMls : rowsAlone (.listMls ⟨2, .customer⟩ 10 none (some (text "0"))) = some 501 := by
  decide +kernel

theorem answers_of_rowsAlone {k : Call} {n : Nat} (h : rowsAlone k = some n) (hn : n ≠ 0) :
    ∃ r, AnswersWith k r ∧ rowsIn r = n := by
  obtain ⟨⟨x, w⟩, he, hx⟩ := Option.map_eq_some_iff.1 h
  cases x with
  | error e => exact absurd hx.symm hn
  | ok r =>
    obtain ⟨P, hr, ht⟩ := @answers_alone 0 calm exampleCipher exampleHash crowdedWorld w k r rfl he
    exact ⟨r, ⟨exampleCipher, exampleHash, crowdedWorld, P, 0, hr, ht⟩, hx⟩

/-- LIMIT 0 is left out, so that every row is answered. -/
theorem list_unbounded {limit : Option Utf16} (h : ReadsZero limit) :
    ∃ ms : List DecryptedMessage, AnswersWith (.list ⟨2, .customer⟩ 10 none none limit) (.messages ms) ∧
      100 < ms.length := by
  have same : rowsAlone (.list ⟨2, .customer⟩ 10 none none limit) = some 101 := by
    rw [← rows_list]
    simp only [rowsAlone, code, Backend.list, clamp_zero h (by decide : (0 : Int) < 100),
      clamp_zero (by decide +kernel : ReadsZero (some (text "0"))) (by decide : (0 : Int) < 100)]
  obtain ⟨r, ha, hr⟩ := answers_of_rowsAlone same (by decide)
  have shape := ha.returns (Q := fun r => ∃ ms, r = .messages ms)
    fun cipher hash => .seq fun _ => .seq fun ms => ⟨ms, rfl⟩
  obtain ⟨ms, rfl⟩ := shape
  exact ⟨ms, ha, by rw [show ms.length = 101 from hr]; decide⟩

theorem listMls_unbounded {limit : Option Utf16} (h : ReadsZero limit) :
    ∃ ms : List MlsMessage, AnswersWith (.listMls ⟨2, .customer⟩ 10 none limit) (.mlsMessages ms) ∧
      500 < ms.length := by
  have same : rowsAlone (.listMls ⟨2, .customer⟩ 10 none limit) = some 501 := by
    rw [← rows_listMls]
    simp only [rowsAlone, code, listMlsMessages, clamp_zero h (by decide : (0 : Int) < 500),
      clamp_zero (by decide +kernel : ReadsZero (some (text "0"))) (by decide : (0 : Int) < 500)]
  obtain ⟨r, ha, hr⟩ := answers_of_rowsAlone same (by decide)
  have shape := ha.returns (Q := fun r => ∃ ms, r = .mlsMessages ms)
    fun cipher hash => .seq fun _ => .seq fun ms => ⟨ms, rfl⟩
  obtain ⟨ms, rfl⟩ := shape
  exact ⟨ms, ha, by rw [show ms.length = 501 from hr]; decide⟩

end Unbounded

end Messageries.Guarantees
