import Messageries.Proofs.Footprint
import Messageries.Proofs.Calls
import Messageries.Proofs.Worker


set_option linter.unusedSectionVars false

namespace Messageries.Proofs

open Text Relational Database Crypto Concurrency Backend

section Documents

/-- The user is listed among the participants of the conversation. -/
def Seated (db : Db) (conversationId userId : Nat) : Prop :=
  ∃ r ∈ db .participants, (r : ConversationParticipant).conversationId = conversationId ∧
    (r : ConversationParticipant).userId = userId

theorem Kept.seated {db db' : Db} (h : Kept db db') {c u : Nat} (hs : Seated db c u) :
    Seated db' c u := by
  obtain ⟨r, hr, hc, hu⟩ := hs
  obtain ⟨r', hr', hc', hu', -⟩ := h .participants nofun r hr
  exact ⟨r', hr', hc'.trans hc, hu'.trans hu⟩

/-- A seat is kept, whatever the log writes. -/
theorem Seated.replay {wal : Wal} (h : ∀ y ∈ wal, ∃ k, May k y.2) {db : Db} {c u : Nat}
    (hs : Seated db c u) : Seated (Proofs.replay db wal) c u := by
  have may : ∀ x ∈ wal.map Prod.snd, ∃ k, May k x := by
    intro x hx
    obtain ⟨y, hy, rfl⟩ := List.mem_map.1 hx
    exact h y hy
  obtain ⟨F, rows, hdb, hF, -⟩ := applyAll_split (t := .participants)
    (S := fun (r r' : ConversationParticipant) =>
      r'.conversationId = r.conversationId ∧ r'.userId = r.userId) (N := fun _ => True)
    (fun _ => ⟨rfl, rfl⟩) (fun _ _ _ h h' => ⟨h'.1.trans h.1, h'.2.trans h.2⟩)
    (fun _ _ _ _ => trivial) (fun _ _ => trivial) (fun ks f hf r => by
      obtain ⟨k, ⟨role, rfl⟩ | hk⟩ := may _ hf
      · exact ⟨rfl, rfl⟩
      · cases k <;> first | exact hk.elim | (obtain ⟨n, -, rfl⟩ := hk; exact ⟨rfl, rfl⟩))
    (fun ks hk => by
      obtain ⟨k, hm⟩ := may _ hk
      cases hm) db
  obtain ⟨r, hr, hc, hu⟩ := hs
  rw [Proofs.replay, Seated, hdb]
  exact ⟨F r, List.mem_append_left _ (List.mem_map_of_mem hr), (hF r).1.trans hc,
    (hF r).2.trans hu⟩

/-- The document describes the message. -/
structure Describes (d : Document) (m : Message) : Prop where
  id : m.id = d.messageId
  conversationId : m.conversationId = d.conversationId
  sequence : m.sequence = d.sequence
  senderId : m.senderId = d.senderId

theorem Describes.later {d : Document} {m m' : Message} (h : Describes d m)
    (hl : MessageLater m m') : Describes d m' :=
  ⟨hl.id.trans h.id, hl.conversationId.trans h.conversationId, hl.sequence.trans h.sequence,
    hl.senderId.trans h.senderId⟩

/-- What the document says of its message is so, and the users it is for have their seats. -/
structure Truthful (d : Document) (w : World) : Prop where
  message : ∃ m ∈ w.store.db .messages, Describes d m ∧
    (gone m.status = false → Says d.messageId d.content w)
  seats : ∀ u ∈ d.participants, Seated w.store.db d.conversationId u

variable [AesGcm] [TokenHash] {db₀ : Db}

theorem Persists.seated (c u : Nat) : Persists db₀ fun w => Seated w.store.db c u :=
  fun _ _ _ _ _ hg h => hg.kept.seated h

theorem Persists.truthful (d : Document) : Persists db₀ (Truthful d) := by
  rintro a w w' hi hi' hg ⟨⟨m, hm, hd, hs⟩, hu⟩
  obtain ⟨m', hm', hl⟩ := hg.kept .messages nofun m hm
  have hl : MessageLater m m' := hl
  refine ⟨⟨m', hm', hd.later hl, fun hv => ?_⟩, fun u hm => hg.kept.seated (hu u hm)⟩
  exact Persists.said _ _ a w w' hi hi' hg (hs ((hl.content hv).1 ▸ hv))

/-- The document of a row that was read, with what a reader gets of it. -/
theorem Stored.truthful {m : Message} {w : World} (h : Stored m w) {t : Utf16}
    {participants : List Nat} (ht : Shown m t w)
    (hp : ∀ u ∈ participants, Seated w.store.db m.conversationId u) :
    Truthful (documentOf m t participants) w := by
  obtain ⟨m', hm', hl⟩ := h.present
  refine ⟨⟨m', hm', ⟨hl.id, hl.conversationId, hl.sequence, hl.senderId⟩, fun hv => ?_⟩, hp⟩
  exact ht ((hl.content hv).1 ▸ hv)

end Documents

section Backfill

variable [AesGcm] [TokenHash] {db₀ : Db} {g : Nat → Op → World → Prop} {k : Call} {p : Nat}
  {φ : World → Prop} {α : Type}

/-- What is written to the index is truthful. -/
def Honest (o : Op) (w : World) : Prop := ∀ d, o = .index d → Truthful d w

def Unindexing (o : Op) : Prop := ∀ d, o ≠ .index d

theorem unindexing_query (c : Conn) (s : Stmt) : Unindexing (.query c s) := by
  rintro d ⟨⟩

/-- What process `p` does for the call `k` from `φ` on, and `C` holds of its operations. -/
abbrev Assures (C : Op → World → Prop) (db₀ : Db) (g : Nat → Op → World → Prop) (k : Call) (p : Nat)
    (φ : World → Prop) (x : App α) (Q : Except Err α → World → Prop) : Prop :=
  Protocol.Asserts machine g (protocol db₀) p C (fun w => Base k p w ∧ φ w) x
    fun r w => Base k p w ∧ Q r w

theorem Spec.assures {C : Op → World → Prop} {x : App α} {Q : Except Err α → World → Prop}
    (h : Spec db₀ g k p φ x Q) (hx : x.Uses fun o => ∀ w, C o w) : Assures C db₀ g k p φ x Q :=
  Protocol.Valid.asserts h hx

theorem Spec.fills {x : App α} {Q : Except Err α → World → Prop} (h : Spec db₀ g k p φ x Q)
    (hx : x.Uses Unindexing) : Assures Honest db₀ g k p φ x Q :=
  h.assures (hx.mono fun _ ho _ d e => (ho d e).elim)

/-- The text a message is indexed with: nothing, or what a reader gets. -/
theorem spec_textOrEmpty {m : Message} (hφ : Persists db₀ φ) (hm : ∀ w, φ w → Stored m w) :
    Spec db₀ g k p φ (decryptOrEmpty m)
      fun r w => φ w ∧ ∃ t, r = .ok t ∧ (t ≠ [] → Shown m t w) := by
  unfold decryptOrEmpty
  split
  · rename_i body hb
    exact .pure fun w _ h => ⟨h, body, rfl, fun _ => shown_body (hm w h) (eq_of_truthy hb)⟩
  · split
    · exact .pure fun _ _ h => ⟨h, [], rfl, fun hne => (hne rfl).elim⟩
    · rename_i e he
      refine (spec_decrypt_stored he hφ hm).tryCatch
        (fun _ => .pure fun _ _ h => ⟨h.1, [], rfl, fun hne => (hne rfl).elim⟩)
        fun t w _ h => ⟨h.1, t, rfl, fun _ hv => ?_⟩
      obtain ⟨_, ht, hs⟩ := h.2 hv
      cases ht
      exact hs

theorem Footprint.unindexing {o : Op} (h : Footprint k o) (hk : ¬MayIndex k) : Unindexing o := by
  rintro d rfl
  exact hk h

theorem Plain.unindexing {o : Op} (h : Plain o) : Unindexing o := by
  rintro d rfl
  exact h

theorem fills_backfill {m : Message} {participants : List Nat} (hφ : Persists db₀ φ)
    (hm : ∀ w, φ w → Stored m w ∧ ∀ u ∈ participants, Seated w.store.db m.conversationId u) :
    Assures Honest db₀ g k p φ (backfill participants m) fun _ => φ := by
  have text : Spec db₀ g k p φ (decryptOrEmpty m)
      fun r w => φ w ∧ ∃ t, r = .ok t ∧ (t ≠ [] → Shown m t w) :=
    spec_textOrEmpty hφ fun w h => (hm w h).1
  have unindexing := (plain_decryptOrEmpty m).mono fun _ h => h.unindexing
  refine Protocol.Asserts.bind (text.fills unindexing) (fun t => ?_)
    fun _ _ _ h => ⟨h.1, h.2.1⟩
  refine Protocol.Asserts.ite (fun _ => .pure fun _ _ h => ⟨h.1, h.2.1⟩) fun hne => ?_
  -- the text stays what it was while the settings are looked up
  have hψ : Persists db₀ fun w => φ w ∧ Shown m t w := hφ.and (.shown m t)
  have enabled : Spec db₀ g k p (fun w => φ w ∧ Shown m t w) settings
      (ends (fun _ => False) fun _ w => φ w ∧ Shown m t w) := Spec.settings hψ
  refine Protocol.Asserts.bind ((enabled.fills ((Prog.uses_perform _).2 nofun)).pre
    fun w _ ⟨hb, hw, t', ht, hs⟩ => ⟨hb, hw, ?_⟩) (fun cfg => ?_) fun _ _ _ h => h.2.elim
  · cases ht
    exact hs fun he => hne (List.isEmpty_iff.2 he)
  refine Protocol.Asserts.ite (fun _ => ?_) fun _ => .pure fun _ _ h => ⟨h.1, h.2.1⟩
  have index : Spec db₀ g k p (fun w => φ w ∧ Shown m t w)
      (perform (.index (documentOf m t participants))) fun _ w => φ w ∧ Shown m t w :=
    .quiet ((Prog.uses_perform _).2 trivial) hψ
  refine (Protocol.Valid.asserts_first index (fun w _ h d hd => ?_) fun r => ?_).post
    fun _ _ _ h => ⟨h.1, h.2.1⟩
  · cases hd
    obtain ⟨stored, seats⟩ := hm w h.2.1
    exact stored.truthful h.2.2 seats
  · cases r <;> trivial

/-- Every message of the conversation goes to the index as it is, for its participants. -/
theorem fills_enableIndexing (hk : ¬IsSend k) (hs : IsSearch k) (user : AuthUser) (c : Nat) :
    Assures Honest db₀ g k p (fun _ => True) (enableIndexing user c) fun _ _ => True := by
  have quietly : ∀ {β : Type} {x : App β} {ψ : World → Prop}, x.Uses (QuietOp k) →
      x.Uses Plain → Persists db₀ ψ → Assures Honest db₀ g k p ψ x fun _ => ψ := fun hq hx hψ =>
    (Spec.quiet hq hψ).fills (hx.mono fun _ h => h.unindexing)
  have access : (assertCanAccess user c).Uses Unindexing :=
    (footprint_access (k := .getOne user c) rfl trivial).mono fun _ h => h.unindexing id
  have done : ∀ (e : Err) (w : World), Inv db₀ w → Base k p w ∧ True → Base k p w ∧ True :=
    fun _ _ _ h => h
  refine Protocol.Asserts.bind ((spec_assertCanAccess user c persists_true).fills access)
    (fun conv => ?_) fun _ _ _ h => ⟨h.1, trivial⟩
  have start : Persists db₀ fun _ : World => True := persists_true
  refine Protocol.Asserts.pre (φ := fun w => Base k p w ∧ True) ?_ fun _ _ h => ⟨h.1, trivial⟩
  refine Protocol.Asserts.bind (quietly uses_refuse plain_refuse start) (fun _ => ?_) done
  refine Protocol.Asserts.bind (quietly uses_settings plain_settings start) (fun cfg => ?_) done
  refine Protocol.Asserts.bind (quietly uses_refuse plain_refuse start) (fun _ => ?_) done
  have messages : Spec db₀ g k p (fun _ => True)
      (select .pool .messages (inConversation c fun _ => true)) (ends (· = .fault)
        fun rows w => True ∧ ∀ m ∈ rows, inConversation c (fun _ => true) m = true ∧
          Read db₀ .messages m w) := Spec.rows (t := .messages) _ start
  refine Protocol.Asserts.bind (messages.fills (any_select (unindexing_query _ _))) (fun rows => ?_)
    fun _ _ _ h => ⟨h.1, trivial⟩
  -- the rows that were read are of messages of the conversation
  have hψ : Persists db₀ fun w => ∀ m ∈ rows, m.conversationId = c ∧ Stored m w :=
    .forall fun m => .imp fun _ => .and (.const _) (.stored m)
  have participants : Spec db₀ g k p (fun w => ∀ m ∈ rows, m.conversationId = c ∧ Stored m w)
      (listParticipants .pool c) (ends (· = .fault)
        fun seats w => (∀ m ∈ rows, m.conversationId = c ∧ Stored m w) ∧
          ∀ r ∈ seats, (r.conversationId == c) = true ∧ Read db₀ .participants r w) :=
    Spec.rows (t := .participants) _ hψ
  refine Protocol.Asserts.bind ((participants.fills (any_select (unindexing_query _ _))).pre fun w hi h =>
    ⟨h.1, fun m hm => ?_⟩) (fun seats => ?_) fun _ _ _ h => ⟨h.1, trivial⟩
  · obtain ⟨hc, hr⟩ := h.2.2 m hm
    simp only [inConversation, Bool.and_eq_true, beq_iff_eq] at hc
    exact ⟨hc.1.1, .of_read hi hr⟩
  have hR : Persists db₀ fun w => (∀ m ∈ rows, m.conversationId = c ∧ Stored m w) ∧
      ∀ u ∈ seats.map (·.userId), Seated w.store.db c u :=
    hψ.and (.forall fun u => .imp fun _ => .seated c u)
  refine Protocol.Asserts.pre (φ := fun w => Base k p w ∧
    (∀ m ∈ rows, m.conversationId = c ∧ Stored m w) ∧
      ∀ u ∈ seats.map (·.userId), Seated w.store.db c u) ?_ fun w _ h =>
        ⟨h.1, h.2.1, fun u hmem => ?_⟩
  · refine Protocol.Asserts.bind (Protocol.Asserts.forM fun m hm => ?_) (fun _ => ?_)
      fun _ _ _ h => ⟨h.1, trivial⟩
    · refine fills_backfill hR fun w h => ?_
      obtain ⟨hc, stored⟩ := h.1 m ((List.mem_insertionSort _).1 hm)
      exact ⟨stored, fun u hu => hc ▸ h.2 u hu⟩
    · refine Protocol.Asserts.bind (quietly uses_now plain_now hR) (fun t => ?_)
        fun _ _ _ h => ⟨h.1, trivial⟩
      have free : Free k .pool .conversations := ⟨fun _ => hk, fun h => absurd h (by decide)⟩
      refine Protocol.Asserts.bind (quietly (uses_update (t := .conversations) free
        (fun _ r => still_setSearchIndexed _ _ r)
        fun _ _ => ⟨.inr fun _ => rfl, .inl hs, .inr fun _ => rfl⟩) plain_update hR)
        (fun _ => ?_) fun _ _ _ h => ⟨h.1, trivial⟩
      exact (Spec.fills (.quiet (uses_audit ..) hR) (any_audit fun _ => unindexing_query _ _)).post
        fun _ _ _ h => ⟨h.1, trivial⟩
  · obtain ⟨r, hr, rfl⟩ := List.mem_map.1 hmem
    obtain ⟨hc, hread⟩ := h.2.2 r hr
    obtain ⟨r', hr', hc', hu', -⟩ := hread.present (by decide)
    exact ⟨r', hr', hc'.trans (beq_iff_eq.1 hc), hu'⟩

/-- Whatever a call sends to the index from the rows of the store is truthful. -/
theorem fills_enableSearch (user : AuthUser) (c : Nat) :
    Assures Honest db₀ g (.enableSearch user c) p (fun _ => True) (code (.enableSearch user c))
      fun _ _ => True := by
  have access : (assertCanAccess user c).Uses Unindexing :=
    (footprint_access (k := .getOne user c) rfl trivial).mono fun _ h => h.unindexing id
  refine Protocol.Asserts.bind ((spec_assertCanAccess user c persists_true).fills access)
    (fun conv => ?_) fun _ _ _ h => ⟨h.1, trivial⟩
  refine Protocol.Asserts.bind ((fills_enableIndexing (k := .enableSearch user c) id trivial user
    conv.1.id).pre fun _ _ h => ⟨h.1, trivial⟩) (fun _ => ?_) fun _ _ _ h => h
  exact .pure fun _ _ h => h

end Backfill

section Runs

variable [AesGcm] [TokenHash] {g : Nat → Op → World → Prop} {w₀ : World} {k : Call} {p : Nat}
  {P P' : Pool Op Op.Res Err World Call Response}

/-- What a call that is no worker's sends to the index is truthful. -/
theorem honest_reach (h : machine.Reach (From w₀) g P) (hk : ¬IsBatch k) {d : Document}
    {next : Except Err _ → App Response}
    (ht : P.threads p = some ⟨k, some (.op (.index d) next)⟩) : Truthful d P.shared := by
  -- no call indexes anything but the workers' and the one that opts in
  have all : ∀ q k', Protocol.Asserts machine g (protocol w₀.store.db) q
      (fun o w => ¬IsBatch k' → Honest o w) (Start q k') (code k') fun _ _ => True := by
    intro q k'
    by_cases enabling : ∃ user c, k' = .enableSearch user c
    · obtain ⟨user, c, rfl⟩ := enabling
      exact (((fills_enableSearch user c).imp fun _ _ ho _ => ho).pre
        fun w _ h => ⟨h.base, trivial⟩).post fun _ _ _ _ => trivial
    · refine ((serves_code k').asserts ((footprint_code k').mono fun o ho w hb d e => ?_)).post
        fun _ _ _ _ => trivial
      subst e
      have indexes : MayIndex k' := ho
      unfold MayIndex at indexes
      split at indexes
      · exact (enabling ⟨_, _, rfl⟩).elim
      · exact (hb trivial).elim
      · exact indexes.elim
  exact (sound g w₀).asserts all h ht hk d rfl

end Runs

end Messageries.Proofs
