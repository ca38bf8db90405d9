import Mathlib.Data.List.Perm.Basic
import Mathlib.Logic.Function.Basic
import Messageries.Concurrency.Gapless

/-! A durable consumer of a log: each message is handed out until it is acknowledged. -/

namespace Messageries.Concurrency

/-- How often a message is handed out, and how long the consumer waits for an answer and after a
refusal. -/
structure Policy where
  maxDeliver : Nat
  ackWait : Nat
  nakDelay : Nat

/-- Of the messages from `start` on, those below `next` were handed out. `inbox` has the process
and the message of each delivery that is not taken up yet; `handled` is a ghost. -/
structure Consumer where
  start : Nat
  next : Nat
  deliveries : Nat → Nat
  due : Nat → Nat
  acked : Nat → Bool
  inbox : List (Nat × Nat)
  handled : List Nat

namespace Consumer

/-- A process that takes up a message is through with it or fails, and its answer may be lost. -/
inductive Act
  | deliver (process : Nat)
  | redeliver (process message : Nat)
  | take (process : Nat) (ok told : Bool)
  | lose (process : Nat)

/-- A consumer of what is new in a log of this length. -/
def new (length : Nat) : Consumer :=
  ⟨length, length, fun _ => 0, fun _ => 0, fun _ => false, [], []⟩

def hand (policy : Policy) (now process message : Nat) (c : Consumer) : Consumer :=
  { c with
    deliveries := Function.update c.deliveries message (c.deliveries message + 1)
    due := Function.update c.due message (now + policy.ackWait)
    inbox := c.inbox ++ [(process, message)] }

def answer (policy : Policy) (now message : Nat) (ok told : Bool) (c : Consumer) : Consumer :=
  { c with
    acked := if ok && told then Function.update c.acked message true else c.acked
    due := if !ok && told then Function.update c.due message (now + policy.nakDelay) else c.due
    handled := if ok then c.handled ++ [message] else c.handled }

def mayAgain (policy : Policy) (now message : Nat) (c : Consumer) : Bool :=
  decide (0 < c.deliveries message) && decide (c.deliveries message < policy.maxDeliver) &&
    !c.acked message && decide (c.due message ≤ now)

/-- One step, and the message a process was through with in it. -/
def step (policy : Policy) (length now : Nat) (a : Act) (c : Consumer) :
    Option (Consumer × Option Nat) :=
  match a with
  | .deliver process =>
    if c.next < length then
      some ({ c with next := c.next + 1 }.hand policy now process c.next, none)
    else none
  | .redeliver process message =>
    if c.mayAgain policy now message then some (c.hand policy now process message, none) else none
  | .take process ok told =>
    match c.inbox.find? fun e => e.1 == process with
    | some e =>
      some ({ c with inbox := c.inbox.erase e }.answer policy now e.2 ok told,
        if ok then some e.2 else none)
    | none => none
  | .lose process => some ({ c with inbox := c.inbox.filter fun e => e.1 != process }, none)

/-- How many deliveries of the message are not taken up. -/
def waiting (message : Nat) (c : Consumer) : Nat := c.inbox.countP fun e => e.2 == message

/-- What holds in every state of a consumer. -/
structure Ok (policy : Policy) (length : Nat) (c : Consumer) : Prop where
  start : c.start ≤ c.next
  next : c.next ≤ length
  delivered : ∀ i, 0 < c.deliveries i ↔ c.start ≤ i ∧ i < c.next
  most : ∀ i, c.deliveries i ≤ policy.maxDeliver
  balance : ∀ i, c.handled.count i + c.waiting i ≤ c.deliveries i
  acked : ∀ i, c.acked i = true → i ∈ c.handled

variable {policy : Policy} {length length' now : Nat} {c c' : Consumer} {a : Act} {out : Option Nat}

theorem Ok.new (length : Nat) : Ok policy length (new length) where
  start := Nat.le_refl _
  next := Nat.le_refl _
  delivered _ := ⟨fun h => (Nat.lt_irrefl 0 h).elim, fun h => (Nat.not_lt_of_le h.1 h.2).elim⟩
  most _ := Nat.zero_le _
  balance _ := Nat.le_refl _
  acked _ h := nomatch h

theorem Ok.grow (h : Ok policy length c) (hl : length ≤ length') : Ok policy length' c :=
  ⟨h.start, Nat.le_trans h.next hl, h.delivered, h.most, h.balance, h.acked⟩

theorem waiting_hand (process message i : Nat) :
    (c.hand policy now process message).waiting i =
      c.waiting i + if message = i then 1 else 0 := by
  simp [waiting, hand, List.countP_append, List.countP_cons, List.countP_nil]

/-- One more delivery of a message that may be handed out. -/
theorem Ok.hand (h : Ok policy length c) {process message n : Nat} (hs : c.start ≤ n)
    (hn : n ≤ length) (hd : ∀ i, 0 < c.deliveries i ∨ i = message ↔ c.start ≤ i ∧ i < n)
    (hm : c.deliveries message < policy.maxDeliver) :
    Ok policy length ({ c with next := n }.hand policy now process message) where
  start := hs
  next := hn
  delivered i := by
    by_cases e : i = message
    · subst e
      simpa [Consumer.hand] using (hd i).1 (.inr rfl)
    · simpa [Consumer.hand, e] using hd i
  most i := by
    by_cases e : i = message
    · subst e
      simpa [Consumer.hand] using Nat.succ_le_of_lt hm
    · simpa [Consumer.hand, e] using h.most i
  balance i := by
    have := h.balance i
    have more : ({ c with next := n }.hand policy now process message).waiting i =
      c.waiting i + if message = i then 1 else 0 := waiting_hand ..
    rw [more]
    by_cases e : i = message
    · subst e
      simp only [Consumer.hand, Function.update_self, if_true]
      omega
    · simp only [Consumer.hand, Function.update_of_ne e, if_neg (Ne.symm e)]
      omega
  acked := h.acked

theorem waiting_erase {e : Nat × Nat} (he : e ∈ c.inbox) (i : Nat) :
    ({ c with inbox := c.inbox.erase e } : Consumer).waiting i + (if e.2 = i then 1 else 0) =
      c.waiting i := by
  have perm := (List.perm_cons_erase he).countP_eq fun x => x.2 == i
  rw [List.countP_cons] at perm
  simp only [waiting, perm, beq_iff_eq]

/-- A message is taken up. -/
theorem Ok.take (h : Ok policy length c) {e : Nat × Nat} (he : e ∈ c.inbox) (ok told : Bool) :
    Ok policy length
      (({ c with inbox := c.inbox.erase e } : Consumer).answer policy now e.2 ok told) where
  start := h.start
  next := h.next
  delivered := h.delivered
  most := h.most
  balance i := by
    have balance := h.balance i
    have fewer := waiting_erase he i
    cases ok with
    | true =>
      have one : (c.handled ++ [e.2]).count i = c.handled.count i + if e.2 = i then 1 else 0 := by
        rw [List.count_append, List.count_singleton]
        simp only [beq_iff_eq]
      simp only [answer, if_true]
      simp only [waiting] at *
      omega
    | false =>
      simp only [answer, Bool.false_eq_true, if_false]
      simp only [waiting] at *
      omega
  acked i hi := by
    cases ok with
    | true =>
      cases told with
      | true =>
        simp only [answer, Bool.and_self, if_true, Function.update_apply] at hi ⊢
        split at hi
        · rename_i e'
          simp [e']
        · exact List.mem_append_left _ (h.acked i hi)
      | false => exact List.mem_append_left _ (h.acked i hi)
    | false => exact h.acked i hi

/-- What was handled was handed out. -/
theorem Ok.handed (h : Ok policy length c) {i : Nat} (hi : i ∈ c.handled) :
    c.start ≤ i ∧ i < c.next := by
  have pos := List.count_pos_iff.2 hi
  have balance := h.balance i
  exact (h.delivered i).1 (by omega)

theorem Ok.step (h : Ok policy length c) (hp : 0 < policy.maxDeliver)
    (hst : c.step policy length now a = some (c', out)) :
    Ok policy length c' ∧ c'.start = c.start ∧ c'.handled = c.handled ++ out.toList := by
  cases a with
  | deliver process =>
    simp only [Consumer.step] at hst
    split at hst
    · rename_i hlt
      cases hst
      refine ⟨h.hand (Nat.le_succ_of_le h.start) hlt (fun i => ?_) ?_, rfl, by simp [Consumer.hand]⟩
      · rw [h.delivered]
        have := h.start
        omega
      · have fresh : c.deliveries c.next = 0 := Nat.eq_zero_of_not_pos fun hd =>
          Nat.lt_irrefl _ ((h.delivered _).1 hd).2
        rwa [fresh]
    · cases hst
  | redeliver process message =>
    simp only [Consumer.step] at hst
    split at hst
    · rename_i hmay
      cases hst
      simp only [mayAgain, Bool.and_eq_true, decide_eq_true_eq] at hmay
      obtain ⟨⟨⟨hpos, hmost⟩, -⟩, -⟩ := hmay
      refine ⟨h.hand h.start h.next (fun i => ?_) hmost, rfl, by simp [Consumer.hand]⟩
      rw [← h.delivered, or_iff_left_iff_imp]
      rintro rfl
      exact hpos
    · cases hst
  | take process ok told =>
    simp only [Consumer.step] at hst
    split at hst
    · rename_i e hf
      cases hst
      have he := List.mem_of_find?_eq_some hf
      refine ⟨h.take he ok told, rfl, ?_⟩
      cases ok <;> simp [answer]
    · cases hst
  | lose process =>
    cases hst
    refine ⟨⟨h.start, h.next, h.delivered, h.most, fun i => ?_, h.acked⟩, rfl, by simp⟩
    have fewer : (c.inbox.filter fun e => e.1 != process).countP (fun e => e.2 == i) ≤
        c.waiting i := List.filter_sublist.countP_le
    have := h.balance i
    simp only [waiting] at *
    omega

/-- A message that is neither acknowledged nor given up is handed out once more in time. -/
theorem Ok.again (h : Ok policy length c) {i : Nat} (hs : c.start ≤ i) (ha : c.acked i = false)
    (hm : c.deliveries i < policy.maxDeliver) :
    c.next ≤ i ∨ ∀ t, c.due i ≤ t → c.mayAgain policy t i = true := by
  refine (Nat.lt_or_ge i c.next).symm.imp_right fun hlt t ht => ?_
  have pos := (h.delivered i).2 ⟨hs, hlt⟩
  simp [mayAgain, pos, hm, ha, ht]

/-- The step is one of this process, which does not fail. -/
def Act.Smooth (process : Nat) : Act → Prop
  | .deliver q | .redeliver q _ => q = process
  | .take q ok _ => q = process ∧ ok = true
  | .lose _ => False

/-- What was handed out to a process that works alone and does not fail. -/
structure Serial (process : Nat) (c : Consumer) : Prop where
  alone : ∀ e ∈ c.inbox, e.1 = process
  order : Gapless c.start (c.handled ++ c.inbox.map Prod.snd)
  all : ∀ i, c.start ≤ i → i < c.next → i ∈ c.handled ++ c.inbox.map Prod.snd

variable {process : Nat}

theorem Serial.new (length : Nat) : Serial process (new length) where
  alone _ he := (List.not_mem_nil he).elim
  order := .nil
  all _ hs hn := (Nat.not_lt_of_le hs hn).elim

theorem Serial.hand (h : Serial process c) {message n : Nat} (hs : c.start ≤ message)
    (hm : message ≤ c.next) (hn : ∀ i, i < n → i < c.next ∨ i = message) :
    Serial process ({ c with next := n }.hand policy now process message) := by
  have order : c.handled ++ (c.inbox ++ [(process, message)]).map Prod.snd =
      c.handled ++ c.inbox.map Prod.snd ++ [message] := by simp
  refine ⟨fun e he => ?_, ?_, fun i hi hlt => ?_⟩
  · rcases List.mem_append.1 he with he | he
    · exact h.alone e he
    · rw [List.mem_singleton.1 he]
  · show Gapless c.start (c.handled ++ (c.inbox ++ [(process, message)]).map Prod.snd)
    rw [order]
    exact .snoc h.order hs fun j hj hlt => h.all j hj (Nat.lt_of_lt_of_le hlt hm)
  · show i ∈ c.handled ++ (c.inbox ++ [(process, message)]).map Prod.snd
    rw [order]
    rcases hn i hlt with hlt | rfl
    · exact List.mem_append_left _ (h.all i hi hlt)
    · exact List.mem_append_right _ List.mem_cons_self

theorem Serial.step (h : Serial process c) (hok : Ok policy length c) (ha : a.Smooth process)
    (hst : c.step policy length now a = some (c', out)) : Serial process c' := by
  cases a with
  | deliver q =>
    obtain rfl : q = process := ha
    simp only [Consumer.step] at hst
    split at hst
    · cases hst
      exact h.hand hok.start (Nat.le_refl _) fun i hi => Nat.lt_or_eq_of_le (Nat.le_of_lt_succ hi)
    · cases hst
  | redeliver q message =>
    obtain rfl : q = process := ha
    simp only [Consumer.step] at hst
    split at hst
    · rename_i hmay
      cases hst
      simp only [mayAgain, Bool.and_eq_true, decide_eq_true_eq] at hmay
      obtain ⟨hs, hlt⟩ := (hok.delivered message).1 hmay.1.1.1
      exact h.hand hs (Nat.le_of_lt hlt) fun i hi => .inl hi
    · cases hst
  | take q ok told =>
    obtain ⟨rfl, rfl⟩ := ha
    simp only [Consumer.step] at hst
    cases hin : c.inbox with
    | nil => simp [hin] at hst
    | cons e rest =>
      have mine : e.1 = q := h.alone e (hin ▸ List.mem_cons_self)
      rw [hin, List.find?_cons_of_pos (by simp [mine])] at hst
      cases hst
      -- what was first in the inbox comes last among the handled
      have same : c.handled ++ c.inbox.map Prod.snd = c.handled ++ [e.2] ++ rest.map Prod.snd := by
        simp [hin]
      refine ⟨fun x hx => h.alone x ?_, ?_, fun i hi hlt => ?_⟩
      · rw [answer, List.erase_cons_head] at hx
        exact hin ▸ List.mem_cons_of_mem _ hx
      · have order := h.order
        rw [same] at order
        simpa [answer] using order
      · have all := h.all i hi hlt
        rw [same] at all
        simpa [answer] using all
  | lose q => exact ha.elim

end Consumer

end Messageries.Concurrency
