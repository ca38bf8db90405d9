import Messageries.Guarantees.Numbering

set_option linter.unusedSectionVars false

namespace Messageries.Guarantees

open Text Relational Database Crypto Concurrency Backend Moderation Proofs

section Rows

variable [AesGcm] [TokenHash] {db₀ : Db} {w : World} {c : Nat}

/-- The messages of a conversation after the cursor `s`, in order. -/
def following (c : Nat) (s : Int) (db : Db) : List Message :=
  ((db .messages).filter (inConversation c fun x => s < x)).insertionSort
    fun a b => a.sequence ≤ b.sequence

theorem mem_following {s : Int} {db : Db} {m : Message} :
    m ∈ following c s db ↔ m ∈ db .messages ∧ m.conversationId = c ∧ m.deletedAt = none ∧
      s < m.sequence := by
  rw [following, List.mem_insertionSort, List.mem_filter]
  simp [inConversation, and_assoc]

/-- Two messages of a conversation with one number are the same row. -/
theorem same_sequence (hi : Inv db₀ w) {m m' : Message} (hm : m ∈ w.store.db .messages)
    (hm' : m' ∈ w.store.db .messages) (hc : m.conversationId = m'.conversationId)
    (hs : m.sequence = m'.sequence) : m = m' := by
  have key : ∀ x : Message, Key.sequence x.conversationId x.sequence ∈ schema.keys .messages x :=
    fun x => by simp [Schema.keys, uniqueKeys]
  exact Schema.eq_of_mem_flatMap (hi.ok.unique .messages) hm hm' (key m) (hc ▸ hs ▸ key m')

theorem following_sorted (hi : Inv db₀ w) (s : Int) :
    (following c s w.store.db).Pairwise fun a b => a.sequence < b.sequence := by
  have sorted : (following c s w.store.db).Pairwise fun a b => a.sequence ≤ b.sequence :=
    List.pairwise_insertionSort (fun a b : Message => a.sequence ≤ b.sequence) _
  have distinct : (following c s w.store.db).Nodup :=
    (List.perm_insertionSort _ _).nodup_iff.2
      ((Schema.nodup_of_keys (hi.ok.unique .messages)).filter _)
  refine (sorted.and distinct).imp_of_mem fun {a b} ha hb h => Nat.lt_of_le_of_ne h.1 fun e => h.2 ?_
  obtain ⟨ha, hca, -⟩ := mem_following.1 ha
  obtain ⟨hb, hcb, -⟩ := mem_following.1 hb
  exact same_sequence hi ha hb (hca.trans hcb.symm) e

/-- A page holds every row up to its last one. -/
theorem mem_take_of_le {l : List Message} (hs : l.Pairwise fun a b => a.sequence < b.sequence)
    {n : Nat} {last m : Message} (hl : last ∈ l.take n) (hm : m ∈ l)
    (hle : m.sequence ≤ last.sequence) : m ∈ l.take n := by
  rw [← List.take_append_drop n l] at hs hm
  rcases List.mem_append.1 hm with hm | hm
  · exact hm
  · have := (List.pairwise_append.1 hs).2.2 last hl m hm
    omega

/-- The conversation of a message numbers it. -/
theorem numbered_message (hi : Inv db₀ w) {m : Message} (hm : m ∈ w.store.db .messages) :
    ∃ d ∈ w.store.db .conversations, (d : Conversation).id = m.conversationId ∧
      1 ≤ m.sequence ∧ m.sequence ≤ (d : Conversation).lastSequence := by
  obtain ⟨d, hd, hid⟩ : Exists w.store.db m.conversationId := by
    rcases hi.db.origin .messages m hm with ⟨m₀, hm₀, -⟩ | ⟨q, m₀, hm₀, hl⟩
    · rw [hi.db.unsent] at hm₀
      cases hm₀
    · have hl : MessageLater m₀ m := hl
      exact hl.conversationId ▸ (hi.db.sends q m₀ hm₀).conversation
  have hs : m.sequence ∈ sequences w.store.db d.id :=
    List.mem_map.2 ⟨m, List.mem_filter.2 ⟨hm, by simp [hid]⟩, rfl⟩
  have range := (hi.db.numbered d hd).mem_iff.1 hs
  rw [List.mem_range'_1] at range
  exact ⟨d, hd, hid, range.1, by omega⟩

theorem exists_sequence (hi : Inv db₀ w) {d : Conversation} (hd : d ∈ w.store.db .conversations)
    {i : Nat} (h : 1 ≤ i) (hl : i ≤ d.lastSequence) :
    ∃ m ∈ w.store.db .messages, (m : Message).conversationId = d.id ∧
      (m : Message).sequence = i := by
  have hs : i ∈ sequences w.store.db d.id := by
    rw [(hi.db.numbered d hd).mem_iff, List.mem_range'_1]
    omega
  obtain ⟨m, hm, rfl⟩ := List.mem_map.1 hs
  obtain ⟨hm, hc⟩ := List.mem_filter.1 hm
  exact ⟨m, hm, by simpa using hc, rfl⟩

/-- A message with the number of an older one, or a smaller number, was there then. -/
theorem old_message {w' : World} (hi : Inv db₀ w) (hi' : Inv db₀ w')
    (hk : Kept w.store.db w'.store.db) {m m' : Message} (hm : m ∈ w.store.db .messages)
    (hm' : m' ∈ w'.store.db .messages) (hc : m'.conversationId = m.conversationId)
    (hle : m'.sequence ≤ m.sequence) :
    ∃ m₀ ∈ w.store.db .messages, MessageLater m₀ m' := by
  obtain ⟨d, hd, hid, -, hl⟩ := numbered_message hi hm
  obtain ⟨-, -, -, hpos, -⟩ := numbered_message hi' hm'
  obtain ⟨m₀, hm₀, hc₀, hs₀⟩ := exists_sequence hi hd hpos (hle.trans hl)
  obtain ⟨m₁, hm₁, hlater⟩ := hk .messages nofun m₀ hm₀
  have hlater : MessageLater m₀ m₁ := hlater
  have same : m₁ = m' := same_sequence hi' hm₁ hm'
    (hlater.conversationId.trans (hc₀.trans (hid.trans hc.symm)))
    (hlater.sequence.trans hs₀)
  exact ⟨m₀, hm₀, same ▸ hlater⟩

end Rows

section Polling

variable [AesGcm] [TokenHash] {w₀ : World} {P : Run} {user : AuthUser} {c : Nat}

/-- A request for the rows after a cursor, with the rows it was answered with. -/
structure Poll where
  process : Nat
  after : Utf16
  before : Option Utf16
  limit : Option Utf16
  rows : List DecryptedMessage

/-- The cursor that follows a page. -/
def nextCursor (s : Int) (rows : List DecryptedMessage) : Int :=
  match rows.getLast? with
  | some d => d.sequence
  | none => s

/-- A reader starts at `0` and goes on from the last row received; `s` is its cursor. -/
inductive Polled (P : Run) (user : AuthUser) (c : Nat) : List Poll → Int → Prop
  | start : Polled P user c [] 0
  | next {polls : List Poll} {s n : Int} (q : Poll) : Polled P user c polls s →
      P.threads q.process =
        some ⟨.list user c (some q.after) q.before q.limit, some (.pure (.messages q.rows))⟩ →
      bigint q.after = .ok s → clamp q.limit 50 100 = some n → 1 ≤ n →
      Polled P user c (polls ++ [q]) (nextCursor s q.rows)

def received (polls : List Poll) : List DecryptedMessage := polls.flatMap Poll.rows

/-- The page was read when the log was `pre`. -/
def ReadAt (db₀ : Db) (P : Run) (c : Nat) (q : Poll) (pre : Wal) : Prop :=
  pre <+: P.shared.store.wal ∧ P.shared.arrived q.process ≤ pre.length ∧
    Answered c (some q.after) q.before (clamp q.limit 50 100) q.rows (replay db₀ pre)

theorem cursorOf_after {after : Utf16} {before : Option Utf16} {s : Int}
    (h : bigint after = .ok s) : cursorOf (some after) before = .ok (fun x => s < x, false) := by
  cases after with
  | nil => cases h
  | cons u t => simp only [cursorOf, truthy, h]; rfl

/-- What a page holds, by the rows that were there when it was read. -/
theorem poll_read (h : machine.Reachable (From w₀) P) {q : Poll} {s n : Int}
    (ht : P.threads q.process =
      some ⟨.list user c (some q.after) q.before q.limit, some (.pure (.messages q.rows))⟩)
    (hs : bigint q.after = .ok s) (hl : clamp q.limit 50 100 = some n) (hn : 1 ≤ n) :
    ∃ w, Inv w₀.store.db w ∧ Kept w.store.db P.shared.store.db ∧
      ReadAt w₀.store.db P c q w.store.wal ∧
      List.Forall₂ (fun m d => ∃ t, d = withBody m t)
        ((following c s w.store.db).take n.toNat) q.rows := by
  obtain ⟨-, ms, hms, -, -, w, hi, hp, hk, ha, rows, ⟨r, descending, hc, hr⟩, hf⟩ :=
    (sound _ w₀).returned h ht
  cases hms
  refine ⟨w, hi, hk, ⟨hp, ha, rows, ⟨r, descending, hc, hi.db.replay ▸ hr⟩, hf⟩, ?_⟩
  rw [cursorOf_after hs] at hc
  cases hc
  rw [hl] at hr
  have page : (if n = 0 then .ok (following c s w.store.db)
      else if n < 0 then .error (.sql .invalidLimit)
      else .ok ((following c s w.store.db).take n.toNat) : Except Err _) = .ok rows := hr
  rw [if_neg (by omega), if_neg (by omega)] at page
  cases page
  exact hf

/-- The rows a reader received are messages of the conversation, in order up to its cursor, and
nothing up to the cursor was left out. -/
structure Complete (db₀ : Db) (P : Run) (c : Nat) (polls : List Poll) (s : Int) : Prop where
  cursor : s = 0 ∨ ∃ m ∈ P.shared.store.db .messages, (m : Message).conversationId = c ∧
    (m : Message).sequence = s
  rows : ∀ d ∈ received polls, ∃ m ∈ P.shared.store.db .messages,
    (m : Message).id = d.id ∧ (m : Message).sequence = d.sequence ∧
      (m : Message).conversationId = c ∧ (d.sequence : Int) ≤ s
  increasing : (received polls).Pairwise fun d d' => d.sequence < d'.sequence
  complete : ∀ m ∈ P.shared.store.db .messages, (m : Message).conversationId = c →
    ((m : Message).sequence : Int) ≤ s → ∃ q ∈ polls, ∃ pre, ReadAt db₀ P c q pre ∧
      ∃ m₀ ∈ replay db₀ pre .messages, (m₀ : Message).id = (m : Message).id ∧
        ((m₀ : Message).deletedAt = none → ∃ d ∈ q.rows, d.id = (m : Message).id)

theorem received_append (polls : List Poll) (q : Poll) :
    received (polls ++ [q]) = received polls ++ q.rows := by
  simp [received]

/-- The page leaves a row of the conversation for each of its answers, and none out. -/
structure Page (w : World) (c : Nat) (s : Int) (rows : List DecryptedMessage) : Prop where
  answers : ∀ d ∈ rows, ∃ m ∈ following c s w.store.db, m.id = d.id ∧ m.sequence = d.sequence
  increasing : rows.Pairwise fun d d' => d.sequence < d'.sequence
  last : ∀ d, rows.getLast? = some d → ∀ m ∈ following c s w.store.db,
    m.sequence ≤ d.sequence → ∃ d' ∈ rows, d'.id = m.id

theorem page_of_read {db₀ : Db} {w : World} {s : Int} {n : Nat} {rows : List DecryptedMessage}
    (hi : Inv db₀ w) (hf : List.Forall₂ (fun m d => ∃ t, d = withBody m t)
      ((following c s w.store.db).take n) rows) : Page w c s rows := by
  have sorted := following_sorted (c := c) hi s
  have numbers : rows.map (·.sequence) = ((following c s w.store.db).take n).map (·.sequence) := by
    have same : List.Forall₂ (fun m d => m = d)
        (((following c s w.store.db).take n).map (·.sequence)) (rows.map (·.sequence)) := by
      rw [List.forall₂_map_left_iff, List.forall₂_map_right_iff]
      exact hf.imp fun m d ⟨t, h⟩ => by rw [h]; rfl
    exact (List.forall₂_eq_eq_eq ▸ same).symm
  refine ⟨fun d hd => ?_, ?_, fun d hd m hm hle => ?_⟩
  · obtain ⟨m, hm, t, rfl⟩ := exists_left hf hd
    exact ⟨m, List.mem_of_mem_take hm, rfl, rfl⟩
  · have taken : ((following c s w.store.db).take n).Pairwise fun a b => a.sequence < b.sequence :=
      sorted.sublist (List.take_sublist _ _)
    have ordered : (((following c s w.store.db).take n).map (·.sequence)).Pairwise (· < ·) :=
      List.pairwise_map.2 taken
    rw [← numbers] at ordered
    exact List.pairwise_map.1 ordered
  · obtain ⟨m₁, hm₁, t, rfl⟩ := exists_left hf (List.mem_of_getLast? hd)
    obtain ⟨d', hd', t', rfl⟩ := exists_left hf.flip (mem_take_of_le sorted hm₁ hm hle)
    exact ⟨_, hd', rfl⟩

theorem le_getLast {rows : List DecryptedMessage} {d x : DecryptedMessage}
    (h : rows.Pairwise fun d d' => d.sequence < d'.sequence) (hd : rows.getLast? = some d)
    (hx : x ∈ rows) : x.sequence ≤ d.sequence := by
  obtain ⟨ys, rfl⟩ := List.getLast?_eq_some_iff.1 hd
  rcases List.mem_append.1 hx with hx | hx
  · exact Nat.le_of_lt ((List.pairwise_append.1 h).2.2 x hx d (List.mem_singleton_self d))
  · exact Nat.le_of_eq (congrArg _ (List.mem_singleton.1 hx))

theorem polled_complete (h : machine.Reachable (From w₀) P) {polls : List Poll} {s : Int}
    (hp : Polled P user c polls s) : Complete w₀.store.db P c polls s := by
  have hi := reached h
  induction hp with
  | start =>
    refine ⟨.inl rfl, nofun, .nil, fun m hm _ hs => ?_⟩
    obtain ⟨-, -, -, hpos, -⟩ := numbered_message hi hm
    omega
  | @next polls s n q _ ht hs hl hn ih =>
    obtain ⟨w, hiw, hk, hread, hf⟩ := poll_read h ht hs hl hn
    have page := page_of_read hiw hf
    -- the rows of the page, as they are now
    have now : ∀ d ∈ q.rows, ∃ m ∈ P.shared.store.db .messages, (m : Message).id = d.id ∧
        (m : Message).sequence = d.sequence ∧ (m : Message).conversationId = c ∧
        s < d.sequence := by
      intro d hd
      obtain ⟨m, hm, hid, hseq⟩ := page.answers d hd
      obtain ⟨hm, hc, -, hlt⟩ := mem_following.1 hm
      obtain ⟨m', hm', hl'⟩ := hk .messages nofun m hm
      have hl' : MessageLater m m' := hl'
      exact ⟨m', hm', hl'.id.trans hid, hl'.sequence.trans hseq, hl'.conversationId.trans hc,
        hseq ▸ hlt⟩
    cases hlast : q.rows.getLast? with
    | none =>
      have hnil : q.rows = [] := List.getLast?_eq_none_iff.1 hlast
      simp only [nextCursor, hlast]
      refine ⟨ih.cursor, ?_, ?_, fun m hm hc hle => ?_⟩
      · rw [received_append, hnil, List.append_nil]
        exact ih.rows
      · rw [received_append, hnil, List.append_nil]
        exact ih.increasing
      · obtain ⟨q', hq', rest⟩ := ih.complete m hm hc hle
        exact ⟨q', List.mem_append_left _ hq', rest⟩
    | some d =>
      have hd := List.mem_of_getLast? hlast
      obtain ⟨md, hmd, hid, hseq, hcd, hlt⟩ := now d hd
      simp only [nextCursor, hlast]
      refine ⟨.inr ⟨md, hmd, hcd, by rw [hseq]⟩, fun x hx => ?_, ?_, fun m hm hc hle => ?_⟩
      · rw [received_append] at hx
        rcases List.mem_append.1 hx with hx | hx
        · obtain ⟨m, hm, h₁, h₂, h₃, h₄⟩ := ih.rows x hx
          exact ⟨m, hm, h₁, h₂, h₃, by omega⟩
        · obtain ⟨m, hm, h₁, h₂, h₃, -⟩ := now x hx
          have := le_getLast page.increasing hlast hx
          exact ⟨m, hm, h₁, h₂, h₃, by omega⟩
      · rw [received_append, List.pairwise_append]
        refine ⟨ih.increasing, page.increasing, fun x hx y hy => ?_⟩
        obtain ⟨-, -, -, -, -, hxs⟩ := ih.rows x hx
        obtain ⟨-, -, -, -, -, hys⟩ := now y hy
        omega
      · by_cases hsm : (m.sequence : Int) ≤ s
        · obtain ⟨q', hq', rest⟩ := ih.complete m hm hc hsm
          exact ⟨q', List.mem_append_left _ hq', rest⟩
        · obtain ⟨m₁, hm₁, -, hseq₁⟩ := page.answers d hd
          obtain ⟨hmem₁, hc₁, -⟩ := mem_following.1 hm₁
          obtain ⟨m₀, hm₀, hl₀⟩ := old_message hiw hi hk hmem₁ hm (hc.trans hc₁.symm) (by omega)
          refine ⟨q, by simp, w.store.wal, hread, m₀, hiw.db.replay ▸ hm₀, hl₀.id.symm, fun hdel => ?_⟩
          have hin : m₀ ∈ following c s w.store.db := mem_following.2
            ⟨hm₀, hl₀.conversationId.symm.trans hc, hdel, by have := hl₀.sequence; omega⟩
          obtain ⟨d', hd', hid'⟩ := page.last d hlast m₀ hin (by have := hl₀.sequence; omega)
          exact ⟨d', hd', hid'.trans hl₀.id.symm⟩

/-- What was committed stays. -/
theorem kept_run {P P' : Run} {ls : List (Label Input Event Call)}
    (h : machine.Reachable (From w₀) P) (hr : machine.run ls P = some P') :
    Kept P.shared.store.db P'.shared.store.db := by
  induction ls generalizing P with
  | nil =>
    cases hr
    exact .refl _
  | cons l ls ih =>
    obtain ⟨Q, hQ, hr⟩ := Option.bind_eq_some_iff.1 hr
    obtain ⟨a, hg⟩ := ((sound _ w₀).step ((sound _ w₀).holds h) (fun _ _ _ _ _ _ _ => trivial) hQ).2
    exact hg.kept.trans (ih (.step l h (fun _ _ _ _ _ _ _ => trivial) hQ) hr)

/-- A reader who polls from `0` receives rows in increasing order, none twice and, up to its
cursor, every message that was not deleted when its page was read; no message with a number up to
its cursor is committed later. -/
theorem polling_misses_nothing (h : machine.Reachable (From w₀) P) {polls : List Poll} {s : Int}
    (hp : Polled P user c polls s) :
    (received polls).Pairwise (fun d d' => d.sequence < d'.sequence ∧ d.id ≠ d'.id) ∧
    (∀ m ∈ P.shared.store.db .messages, (m : Message).conversationId = c →
      ((m : Message).sequence : Int) ≤ s → ∃ q ∈ polls, ∃ pre, ReadAt w₀.store.db P c q pre ∧
        ∃ m₀ ∈ replay w₀.store.db pre .messages, (m₀ : Message).id = (m : Message).id ∧
          ((m₀ : Message).deletedAt = none → ∃ d ∈ q.rows, d.id = (m : Message).id)) ∧
    ∀ ls P', machine.run ls P = some P' → ∀ m' ∈ P'.shared.store.db .messages,
      (m' : Message).conversationId = c → ((m' : Message).sequence : Int) ≤ s →
      ∃ m ∈ P.shared.store.db .messages, (m : Message).id = (m' : Message).id := by
  have hi := reached h
  have done := polled_complete h hp
  refine ⟨?_, done.complete, fun ls P' hr m' hm' hc hs => ?_⟩
  · refine done.increasing.imp_of_mem fun {d d'} hd hd' hlt => ⟨hlt, fun e => ?_⟩
    obtain ⟨m, hm, hid, hseq, -⟩ := done.rows d hd
    obtain ⟨m', hm', hid', hseq', -⟩ := done.rows d' hd'
    have key : ∀ x : Message, Key.id x.id ∈ schema.keys .messages x := fun x => by
      simp [Schema.keys, primaryKey]
    have same : m = m' := Schema.eq_of_mem_flatMap (hi.ok.unique .messages) hm hm' (key m)
      (hid.trans (e.trans hid'.symm) ▸ key m')
    have : d.sequence = d'.sequence := hseq.symm.trans (same ▸ hseq')
    omega
  · have hi' := reached (h.run hr)
    rcases done.cursor with rfl | ⟨m, hm, hcm, rfl⟩
    · obtain ⟨-, -, -, hpos, -⟩ := numbered_message hi' hm'
      omega
    · obtain ⟨m₀, hm₀, hl⟩ := old_message hi hi' (kept_run h hr) hm hm' (hc.trans hcm.symm)
        (by omega)
      exact ⟨m₀, hm₀, hl.id.symm⟩

end Polling

section Example

def examplePoll (after : String) : Call :=
  .list ⟨3, .seller⟩ 10 (some (text after)) none (some (text "1"))

/-- Two messages, the first of which is read before the second is sent. -/
def readBetween : List (Label Input Event Call) :=
  serve 0 exampleSend 15 ++ serve 2 (examplePoll "0") 3 ++ serve 1 exampleSend 15 ++
    serve 3 (examplePoll "1") 3

/-- What a list was answered with. -/
def pageOf (P : Run) (p : Nat) : Option (List DecryptedMessage) :=
  match answer P p with
  | some (.messages ms) => some ms
  | _ => none

theorem thread_of_pageOf {P : Run} {p : Nat} {k : Call} {ms : List DecryptedMessage}
    (hk : callOf P p = some k) (h : pageOf P p = some ms) :
    P.threads p = some ⟨k, some (.pure (.messages ms))⟩ := by
  rw [pageOf] at h
  split at h
  · rename_i he
    cases h
    exact thread_of_answer hk he
  · cases h

def pollTwice : Ran (runFrom exampleWorld readBetween)
    (fun P => callOf P 2 == some (examplePoll "0") && callOf P 3 == some (examplePoll "1") &&
      (pageOf P 2).map (List.map (·.sequence)) == some [1] &&
      (pageOf P 3).map (List.map (·.sequence)) == some [2]) true :=
  .of (by decide +kernel)

theorem polling_misses_nothing_example :
    ∃ P ms ms', runFrom exampleWorld readBetween = some P ∧ pageOf P 2 = some ms ∧
      pageOf P 3 = some ms' ∧ (ms ++ ms').map (·.sequence) = [1, 2] ∧
      (ms ++ ms').Pairwise fun d d' => d.sequence < d'.sequence ∧ d.id ≠ d'.id := by
  obtain ⟨P, hP, hv⟩ := pollTwice
  simp only [Bool.and_eq_true, beq_iff_eq, Option.map_eq_some_iff] at hv
  obtain ⟨⟨⟨hk, hk'⟩, ms, hms, hs⟩, ms', hms', hs'⟩ := hv
  have limited : clamp (some (text "1")) 50 100 = some 1 := by decide +kernel
  have first := Polled.next ⟨2, text "0", none, some (text "1"), ms⟩ .start
    (thread_of_pageOf hk hms) (by decide +kernel : bigint (text "0") = .ok 0) limited (by decide)
  have cursor : nextCursor 0 ms = 1 := by
    obtain ⟨d, rfl, hd⟩ := List.map_eq_singleton_iff.1 hs
    simp [nextCursor, hd]
  have second := Polled.next ⟨3, text "1", none, some (text "1"), ms'⟩ (cursor ▸ first)
    (thread_of_pageOf hk' hms') (by decide +kernel : bigint (text "1") = .ok 1) limited (by decide)
  refine ⟨P, ms, ms', hP, hms, hms', by simp [hs, hs'], ?_⟩
  simpa [received] using (@polling_misses_nothing exampleCipher exampleHash _ _ _ _
    (reachable_runFrom initial_example hP) _ _ second).1

end Example

end Messageries.Guarantees
