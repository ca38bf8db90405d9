import Messageries.Guarantees.Delivery
import Messageries.Guarantees.Polling
import Messageries.Proofs.Groups

set_option linter.unusedSectionVars false

namespace Messageries.Guarantees

open Text Relational Database Crypto Concurrency Backend Moderation Proofs

section Steps

variable [AesGcm] [TokenHash] {db₀ : Db} {g : Nat → Op → World → Prop} {w w' : World} {P P' : Run}

/-- A step of a run commits what one process wrote, or nothing. -/
theorem step_commits {l : Label Input Event Call} (h : machine.step l P = some P') :
    ∃ p new, State.Commits p new P.shared.store P'.shared.store := by
  rcases Machine.step_cases h with ⟨p, k, s, -, -, hx, rfl⟩ | ⟨p, i, k, o, next, r, s, -, -, hx, rfl⟩ |
    ⟨x, s, -, hx, rfl⟩ | ⟨p, k, o, next, -, -, rfl⟩
  · have same := (Extension.enter_idle hx).1
    exact ⟨0, [], .none (by simp [same]) (by simp [same])⟩
  · obtain ⟨new, hc, -⟩ := exec_makes hx
    exact ⟨p, new, hc⟩
  · have same := (Extension.event_idle hx).1
    exact ⟨0, [], .none (by simp [same]) (by simp [same])⟩
  · exact ⟨0, [], .none rfl rfl⟩

/-- A message is committed to a conversation in clear only. -/
theorem sealed_step (hi : Inv db₀ w) (hi' : Inv db₀ w') {p : Nat} {new : List Write}
    (hn : State.Commits p new w.store w'.store) {c : Conversation}
    (hc : c ∈ w.store.db .conversations) (he : c.e2eeEnabled = true) {m : Message}
    (hm : m ∈ w'.store.db .messages) (hmc : m.conversationId = c.id) :
    ∃ m₀ ∈ w.store.db .messages, (m₀ : Message).id = m.id := by
  obtain ⟨q, m₁, hm₁, hl⟩ := inserted_message hi' hm
  by_cases old : (q, Schema.Write.insert .messages m₁) ∈ w.store.wal
  · obtain ⟨m₀, hm₀, hl₀⟩ := hi.db.stored q .messages nofun m₁ old
    have hl₀ : MessageLater m₁ m₀ := hl₀
    exact ⟨m₀, hm₀, hl₀.id.trans hl.id.symm⟩
  · exfalso
    obtain ⟨users, e, ks, f, before, after, hw, hb, -, -, ⟨d, hd, hid, hplain, -⟩, -⟩ :=
      hi'.db.delivered q m₁ hm₁
    rw [hn.1] at hw hm₁
    obtain ⟨y, hy, ey⟩ := List.mem_map.1 ((List.mem_append.1 hm₁).resolve_left old)
    cases ey
    -- what the send wrote before, it wrote in this step
    have cut : ∃ mid, before = w.store.wal ++ mid ∧ mid ⊆ new.map (p, ·) := by
      rcases List.append_eq_append_iff.1 (hw.trans (List.append_assoc ..)) with
        ⟨mid, rfl, hmid⟩ | ⟨mid, hmid, hrest⟩
      · exact ⟨mid, rfl, hmid ▸ List.subset_append_left ..⟩
      · cases mid with
        | nil => exact ⟨[], by simpa using hmid.symm, List.nil_subset _⟩
        | cons y mid =>
          have first : (p, Schema.Write.insert .messages m₁) = y := (List.cons.inj hrest).1
          exact (old (by rw [hmid, first]; simp)).elim
    obtain ⟨mid, rfl, hmid⟩ := cut
    have apart : ∀ x ∈ mid.map Prod.snd, writesTo x ≠ .conversations := by
      intro x hx ht
      obtain ⟨⟨r, x⟩, hmem, rfl⟩ := List.mem_map.1 hx
      obtain ⟨_, -, er⟩ := List.mem_map.1 (hmid hmem)
      cases er
      have none := own_eq_nil.1 hb x (List.mem_append_right _ hmem)
      rw [ht] at none
      cases none
    rw [replay, List.map_append, Schema.Write.applyAll_append, applyAll_apart apart] at hd
    have hd : d ∈ w.store.db .conversations := hi.db.replay ▸ hd
    have same := same_conversation hi hd hc (hid.trans (hl.conversationId.symm.trans hmc))
    rw [same, he] at hplain
    cases hplain

end Steps

section CutOver

variable [AesGcm] [TokenHash] {g : Nat → Op → World → Prop} {w₀ : World} {P P' : Run}

theorem chained (h : machine.Reach (From w₀) g P) : Chained (Timely g) P.shared.store.db :=
  ((sound_groups g w₀).inv h).2

/-- A sealed conversation stays as it is. -/
theorem sealed_run {ls : List (Label Input Event Call)} (h : machine.Reachable (From w₀) P)
    (hr : machine.run ls P = some P') {c : Conversation}
    (hc : c ∈ P.shared.store.db .conversations) (he : c.e2eeEnabled = true) :
    (∃ c' ∈ P'.shared.store.db .conversations, (c' : Conversation).id = c.id ∧
      (c' : Conversation).e2eeEnabled = true) ∧
    ∀ m ∈ P'.shared.store.db .messages, (m : Message).conversationId = c.id →
      ∃ m₀ ∈ P.shared.store.db .messages, (m₀ : Message).id = (m : Message).id := by
  induction ls generalizing P c with
  | nil =>
    cases hr
    exact ⟨⟨c, hc, rfl, he⟩, fun m hm _ => ⟨m, hm, rfl⟩⟩
  | cons l ls ih =>
    obtain ⟨Q, hQ, hr⟩ := Option.bind_eq_some_iff.1 hr
    have hnext : machine.Reachable (From w₀) Q := .step l h (fun _ _ _ _ _ _ _ => trivial) hQ
    obtain ⟨a, hg⟩ := ((sound _ w₀).step ((sound _ w₀).holds h) (fun _ _ _ _ _ _ _ => trivial) hQ).2
    obtain ⟨c₁, hc₁, hl⟩ := hg.kept .conversations nofun c hc
    have hl : ConversationLater c c₁ := hl
    obtain ⟨⟨c', hc', hid, he'⟩, messages⟩ := ih hnext hr hc₁ (hl.e2ee he)
    refine ⟨⟨c', hc', hid.trans hl.id, he'⟩, fun m hm hmc => ?_⟩
    obtain ⟨m₁, hm₁, hid₁⟩ := messages m hm (hmc.trans hl.id.symm)
    -- the message is the one it was a step ago
    obtain ⟨m₂, hm₂, hl₂⟩ := kept_run hnext hr .messages nofun m₁ hm₁
    have hl₂ : MessageLater m₁ m₂ := hl₂
    have same : m₂ = m := Schema.eq_of_key ((reached (hnext.run hr)).ok.unique .messages) hm₂ hm
      (k := .id m.id) (List.mem_cons.2 (.inl (by rw [← hid₁, ← hl₂.id]; rfl))) (List.mem_cons_self ..)
    obtain ⟨p, new, hn⟩ := step_commits hQ
    obtain ⟨m₀, hm₀, hid₀⟩ := sealed_step (reached h) (reached hnext) hn hc he hm₁
      (hl₂.conversationId.symm.trans (same ▸ hmc))
    exact ⟨m₀, hm₀, hid₀.trans hid₁⟩

/-- The groups of a conversation. -/
def groupsOf (conversationId : Nat) (db : Db) : List MlsGroup :=
  (db .groups).filter fun (r : MlsGroup) => r.conversationId == conversationId

/-- A conversation has one group once it is sealed, and none before; it stays sealed, and no
message is committed to it any more. -/
theorem e2ee_cut_over (h : machine.Reachable (From w₀) P) :
    (∀ c ∈ P.shared.store.db .conversations,
      (groupsOf (c : Conversation).id P.shared.store.db).length =
        if (c : Conversation).e2eeEnabled then 1 else 0) ∧
    ∀ ls P', machine.run ls P = some P' → ∀ c ∈ P.shared.store.db .conversations,
      (c : Conversation).e2eeEnabled = true →
      (∃ c' ∈ P'.shared.store.db .conversations, (c' : Conversation).id = (c : Conversation).id ∧
        (c' : Conversation).e2eeEnabled = true) ∧
      ∀ m ∈ P'.shared.store.db .messages,
        (m : Message).conversationId = (c : Conversation).id →
        ∃ m₀ ∈ P.shared.store.db .messages, (m₀ : Message).id = (m : Message).id := by
  refine ⟨fun c hc => ?_, fun ls P' hr c hc he => sealed_run h hr hc he⟩
  have hsealed := (chained h).sealed c hc
  split
  · rename_i he
    obtain ⟨r, hr, hid⟩ := hsealed.1 he
    have one := Schema.filter_length_le_one ((reached h).ok.unique .groups)
      (q := fun (r : MlsGroup) => r.conversationId == (c : Conversation).id)
      (k := .conversation (c : Conversation).id) fun r hr => by
        simp [Schema.keys, uniqueKeys, ← beq_iff_eq.1 hr]
    have some : 0 < (groupsOf (c : Conversation).id P.shared.store.db).length :=
      List.length_pos_of_mem (List.mem_filter.2 ⟨hr, beq_iff_eq.2 hid⟩)
    exact Nat.le_antisymm one some
  · rename_i he
    rw [List.length_eq_zero_iff, groupsOf, List.filter_eq_nil_iff]
    exact fun r hr hid => he (hsealed.2 ⟨r, hr, beq_iff_eq.1 hid⟩)

end CutOver

section CutOverExample

def exampleEnable : Call :=
  .enableE2ee ⟨2, .customer⟩ 10 [1] (text "MLS_128") [⟨3, [7], text "d"⟩]

def sendThenEnable : List (Label Input Event Call) :=
  serve 0 exampleSend 15 ++ serve 1 exampleEnable 11

def sendEnableSend : Ran (runFrom exampleWorld (sendThenEnable ++ serve 2 exampleSend 6))
    (fun P => sequences P.shared.store.db 10) [1] :=
  .of (by decide +kernel)

def enabled : Ran (runFrom exampleWorld sendThenEnable)
    (fun P => (P.shared.store.db .conversations).map fun (c : Conversation) =>
      (c.id, c.e2eeEnabled)) [(10, true)] :=
  .of (by decide +kernel)

theorem e2ee_cut_over_example :
    ∃ P P' : Run, runFrom exampleWorld sendThenEnable = some P ∧
      exampleMachine.run (serve 2 exampleSend 6) P = some P' ∧
      (groupsOf 10 P.shared.store.db).length = 1 ∧
      ∀ m ∈ P'.shared.store.db .messages, (m : Message).conversationId = 10 →
        ∃ m₀ ∈ P.shared.store.db .messages, (m₀ : Message).id = (m : Message).id := by
  obtain ⟨P, hP, hc⟩ := enabled
  obtain ⟨P', hP', -⟩ := sendEnableSend
  rw [runFrom, Machine.run_append, ← runFrom, hP] at hP'
  obtain ⟨c, hc, he⟩ := List.map_eq_singleton_iff.1 hc
  have hmem : c ∈ P.shared.store.db .conversations := hc ▸ List.mem_singleton_self c
  simp only [Prod.mk.injEq] at he
  have done := @e2ee_cut_over exampleCipher exampleHash _ _ (reachable_runFrom initial_example hP)
  refine ⟨P, P', hP, hP', ?_, ?_⟩
  · have one := done.1 c hmem
    rwa [he.1, he.2, if_pos rfl] at one
  · have rest := (done.2 _ P' hP' c hmem he.2).2
    rwa [he.1] at rest

end CutOverExample

section Numbering

variable [AesGcm] [TokenHash] {w₀ : World} {P : Run}

/-- The messages of a group are numbered 1, 2, ... and its epoch counts its commits. -/
theorem mls_numbered (h : machine.Reachable (From w₀) P) :
    ∀ r ∈ P.shared.store.db .groups,
      (((entries P.shared.store.db (r : MlsGroup).id).map (·.sequence)).Perm
        (List.range' 1 (entries P.shared.store.db (r : MlsGroup).id).length)) ∧
      (r : MlsGroup).epoch = ((entries P.shared.store.db (r : MlsGroup).id).filter
        fun m => m.kind == .commit).length := by
  intro r hr
  refine ⟨.of_eq ((chained h).serial r hr), ?_⟩
  rw [(chained h).counted r hr, commits, List.countP_eq_length_filter]
  rfl

end Numbering

section NumberingExample

def exampleMls (kind : MlsKind) (epoch : String) : Call :=
  .sendMls ⟨2, .customer⟩ 10 (text "d") kind (text epoch) [8] none

def enableThenCommit : Ran
    (runFrom exampleWorld (serve 0 exampleEnable 11 ++ serve 1 (exampleMls .commit "0") 11))
    (fun P => (P.shared.store.db .groups).map fun (r : MlsGroup) => (r.id, r.epoch)) [(100, 1)] :=
  .of (by decide +kernel)

theorem mls_numbered_example :
    ∃ P r, runFrom exampleWorld (serve 0 exampleEnable 11 ++ serve 1 (exampleMls .commit "0") 11) =
        some P ∧ r ∈ P.shared.store.db .groups ∧ (r : MlsGroup).epoch = 1 ∧
      (((entries P.shared.store.db (r : MlsGroup).id).map (·.sequence)).Perm
        (List.range' 1 (entries P.shared.store.db (r : MlsGroup).id).length)) ∧
      (r : MlsGroup).epoch = ((entries P.shared.store.db (r : MlsGroup).id).filter
        fun m => m.kind == .commit).length := by
  obtain ⟨P, hP, hg⟩ := enableThenCommit
  obtain ⟨r, hr, he⟩ := List.map_eq_singleton_iff.1 hg
  simp only [Prod.mk.injEq] at he
  have hmem : r ∈ P.shared.store.db .groups := hr ▸ List.mem_singleton_self r
  exact ⟨P, r, hP, hmem, he.2,
    @mls_numbered exampleCipher exampleHash _ _ (reachable_runFrom initial_example hP) r hmem⟩

end NumberingExample

section Epochs

variable [AesGcm] [TokenHash] {w₀ : World} {P : Run}

/-- The epoch a message names is not behind the last one of its group and not ahead of the
group, and a commit names the epoch the group is in. -/
def NamesEpoch (db : Db) (r : MlsGroup) (kind : MlsKind) (n : Int) : Prop :=
  (∀ x ∈ entries db r.id, x.epoch ≤ n) ∧ n ≤ r.epoch ∧ (kind = .commit → n = r.epoch)

instance (db : Db) (r : MlsGroup) (kind : MlsKind) (n : Int) : Decidable (NamesEpoch db r kind n) :=
  inferInstanceAs (Decidable (_ ∧ _ ∧ _))

/-- A message is inserted only when the epoch its sender gave fits its group. -/
def punctual (p : Nat) (o : Op) (w : World) : Bool :=
  match o with
  | .query .tx (.insert .mlsMessages _) =>
    match w.calls p with
    | some (.sendMls _ c _ kind epoch _ _) =>
      match bigint epoch with
      | .ok n => (w.store.db .groups).all fun (r : MlsGroup) =>
          r.conversationId != c || decide (NamesEpoch w.store.db r kind n)
      | .error _ => true
    | _ => true
  | _ => true

theorem timely_punctual : Timely fun p o w => punctual p o w = true := by
  intro p w make user c device kind epoch ciphertext target hg hk r hr hc n hn
  simp only [punctual, hk, hn, List.all_eq_true] at hg
  rcases Bool.or_eq_true_iff.1 (hg r hr) with h | h
  · simp [hc] at h
  · exact of_decide_eq_true h

end Epochs

section EpochsExample

/-- Two commits that name the same epoch. -/
def commitTwice : Ran (runFrom exampleWorld (serve 0 exampleEnable 11 ++
      serve 1 (exampleMls .commit "0") 11 ++ serve 2 (exampleMls .commit "0") 11))
    (fun P => ((P.shared.store.db .mlsMessages).filter fun (m : MlsMessage) =>
      m.kind == .commit).map fun (m : MlsMessage) => (m.groupId, m.sequence, m.epoch))
    [(100, 2, 0), (100, 3, 0)] :=
  .of (by decide +kernel)

/-- A commit that names its epoch, and a message of the epoch that follows. -/
def commitThenSpeak : Ran (passFrom punctual exampleWorld (serve 0 exampleEnable 11 ++
      serve 1 (exampleMls .commit "0") 11 ++ serve 2 (exampleMls .application "1") 10))
    (fun P => (P.shared.store.db .groups).map fun (r : MlsGroup) => (r.id, r.epoch)) [(100, 1)] :=
  .of (by decide +kernel)

end EpochsExample

end Messageries.Guarantees
