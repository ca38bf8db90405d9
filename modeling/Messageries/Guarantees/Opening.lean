import Messageries.Guarantees.Numbering

set_option linter.unusedSectionVars false

namespace Messageries.Guarantees

open Text Relational Database Crypto Concurrency Backend Moderation Proofs

section Opening

variable [AesGcm] [TokenHash] {w₀ : World} {P : Run} {orderId : Nat}

/-- A call inserts its conversation while no other call committed one for the order. -/
def Uncontested (p : Nat) (o : Op) (w : World) : Prop :=
  ∀ make user orderId, o = .query .tx (.insert .conversations make) →
    w.calls p = some (.openByOrder user orderId) → Unopened orderId w

theorem alone_uncontested (orderId : Nat) : Alone Uncontested orderId :=
  fun _ _ make hg ⟨user, hc⟩ => hg make user orderId rfl hc

/-- Two conversations of one order are the same row. -/
theorem same_order (hi : Inv w₀.store.db P.shared) {c c' : Conversation}
    (hc : c ∈ P.shared.store.db .conversations) (hc' : c' ∈ P.shared.store.db .conversations)
    (h : c.orderId = c'.orderId) : c = c' := by
  have key : ∀ x : Conversation, Key.order x.orderId ∈ schema.keys .conversations x := fun x => by
    simp [Schema.keys, uniqueKeys]
  exact Schema.eq_of_mem_flatMap (hi.ok.unique .conversations) hc hc' (key c) (h ▸ key c')

/-- When no call inserts after another one committed, every call for an order returns the same
conversation, none fails for the race, and it starts with the two parties of the order. -/
theorem one_conversation_per_order (h : machine.Reach (From w₀) Uncontested P) {o : Order}
    (ho : o ∈ P.shared.store.db .orders) (hid : o.id = orderId) (hne : o.customerId ≠ o.sellerId) :
    (∀ p q user user' r r',
      P.threads p = some ⟨.openByOrder user orderId, some (.pure r)⟩ →
      P.threads q = some ⟨.openByOrder user' orderId, some (.pure r')⟩ →
      ∃ c c', r = .conversation c ∧ r' = .conversation c' ∧ c'.id = c.id) ∧
    (∀ p user e, P.threads p = some ⟨.openByOrder user orderId, some (.throw e)⟩ →
      ¬RaceError e) ∧
    ∀ p c, (p, Schema.Write.insert .conversations c) ∈ P.shared.store.wal →
      Founded P.shared.store.db P.shared.store.wal p c := by
  have hi := reached h
  refine ⟨fun p q user user' r r' hr hr' => ?_, fun p user e he => ?_, hi.db.founded⟩
  · obtain ⟨c, rfl, hc⟩ := (sound _ w₀).returned h hr
    obtain ⟨c', rfl, hc'⟩ := (sound _ w₀).returned h hr'
    obtain ⟨d, hd, hdc, hdo⟩ := hc.stored
    obtain ⟨d', hd', hdc', hdo'⟩ := hc'.stored
    have same : d = d' := same_order hi hd hd'
      ((hdo.trans hc.opens).trans (hdo'.trans hc'.opens).symm)
    exact ⟨c, c', rfl, rfl, hdc'.symm.trans (same ▸ hdc)⟩
  · have parties : ∀ o' ∈ P.shared.store.db .orders, (o' : Order).id = orderId →
        (o' : Order).customerId ≠ (o' : Order).sellerId := by
      intro o' ho' hid'
      have key : ∀ x : Order, Key.id x.id ∈ schema.keys .orders x := fun x => by
        simp [Schema.keys, primaryKey]
      have same : o' = o := Schema.eq_of_mem_flatMap (hi.ok.unique .orders) ho' ho (key o')
        (hid'.trans hid.symm ▸ key o)
      exact same ▸ hne
    exact (sound _ w₀).threw h he (alone_uncontested orderId) parties

end Opening

section Example

/-- What a call failed with. -/
def failure (P : Run) (p : Nat) : Option Err :=
  match P.threads p with
  | some ⟨_, some (.throw e)⟩ => some e
  | _ => none

def unopenedDb : Db
  | .conversations => []
  | .participants => []
  | t => exampleDb t

abbrev unopenedWorld : World := worldOf unopenedDb exampleSettings

def exampleOpen (user : AuthUser) : Call := .openByOrder user 1

/-- Two calls read that there is no conversation, and the second one inserts after the first one
committed. -/
def openRace : List (Label Input Event Call) :=
  serve 0 (exampleOpen ⟨2, .customer⟩) 2 ++ serve 1 (exampleOpen ⟨3, .seller⟩) 2 ++
    List.replicate 6 (.exec 0 calm) ++ List.replicate 4 (.exec 1 calm)

def openedByBoth : Ran (runFrom unopenedWorld openRace) (failure · 1)
    (some (.sql .inFailedTransaction)) :=
  .of (by decide +kernel)

theorem open_race_fails :
    ∃ P e, runFrom unopenedWorld openRace = some P ∧ failure P 1 = some e ∧ RaceError e := by
  obtain ⟨P, hP, he⟩ := openedByBoth
  exact ⟨P, _, hP, he, .inr rfl⟩

theorem initial_unopened : Initial unopenedWorld := by
  refine initial_worldOf (fun t => by cases t <;> decide +kernel) (fun t ht => ?_) nofun nofun
  have void := void_exampleDb t ht
  cases t
  case conversations => rfl
  case participants => rfl
  all_goals exact void

def uncontested (p : Nat) (o : Op) (w : World) : Bool :=
  match o, w.calls p with
  | .query .tx (.insert .conversations _), some (.openByOrder _ orderId) =>
    (w.store.db .conversations).all fun (c : Conversation) => c.orderId != orderId
  | _, _ => true

theorem uncontested_sound (p : Nat) (o : Op) (w : World) (h : uncontested p o w = true) :
    Uncontested p o w := by
  rintro make user orderId rfl hc c hc'
  simp only [uncontested, hc, List.all_eq_true] at h
  simpa using h c hc'

def openTwice : List (Label Input Event Call) :=
  serve 0 (exampleOpen ⟨2, .customer⟩) 8 ++ serve 1 (exampleOpen ⟨3, .seller⟩) 2

def openedTwice : Ran (passFrom uncontested unopenedWorld openTwice)
    (fun P => (P.shared.store.db .orders).map fun (o : Order) => (o.id, o.customerId, o.sellerId))
    [(1, 2, 3)] :=
  .of (by decide +kernel)

theorem one_conversation_per_order_example :
    ∃ P, passFrom uncontested unopenedWorld openTwice = some P ∧
      ∀ p q user user' r r',
        P.threads p = some ⟨.openByOrder user 1, some (.pure r)⟩ →
        P.threads q = some ⟨.openByOrder user' 1, some (.pure r')⟩ →
        ∃ c c', r = .conversation c ∧ r' = .conversation c' ∧ c'.id = c.id := by
  obtain ⟨P, hP, ho⟩ := openedTwice
  obtain ⟨o, ho, he⟩ := List.map_eq_singleton_iff.1 ho
  have h := reach_passFrom initial_unopened uncontested_sound hP
  have hmem : o ∈ P.shared.store.db .orders := ho ▸ List.mem_singleton_self o
  simp only [Prod.mk.injEq] at he
  exact ⟨P, hP, (@one_conversation_per_order exampleCipher exampleHash _ _ _ h o hmem he.1
    (by rw [he.2.1, he.2.2]; decide)).1⟩

end Example

end Messageries.Guarantees
