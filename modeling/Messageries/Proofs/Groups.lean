import Messageries.Proofs.Special

set_option linter.unusedSectionVars false

namespace Messageries.Proofs

open Text Relational Database Crypto Concurrency Backend

section Rows

/-- The messages of a group, in the order they were committed. -/
def entries (db : Db) (groupId : Nat) : List MlsMessage :=
  (db .mlsMessages).filter fun (m : MlsMessage) => m.groupId == groupId

theorem mem_entries {db : Db} {groupId : Nat} {m : MlsMessage} :
    m ∈ entries db groupId ↔ m ∈ db .mlsMessages ∧ m.groupId = groupId := by
  rw [entries, List.mem_filter, beq_iff_eq]

def isCommit (m : MlsMessage) : Bool := m.kind == .commit

/-- How many messages of the list move their group to the next epoch. -/
def commits (ms : List MlsMessage) : Nat := ms.countP isCommit

@[simp] theorem commits_append (ms ms' : List MlsMessage) :
    commits (ms ++ ms') = commits ms + commits ms' :=
  List.countP_append

theorem commits_singleton (m : MlsMessage) : commits [m] = if m.kind = .commit then 1 else 0 := by
  simp [commits, List.countP_singleton, isCommit]

/-- The messages are numbered in the order they came. -/
def Serial (ms : List MlsMessage) : Prop := ms.map (·.sequence) = List.range' 1 ms.length

theorem Serial.append {ms : List MlsMessage} {m : MlsMessage} (h : Serial ms)
    (hm : m.sequence = ms.length + 1) : Serial (ms ++ [m]) := by
  rw [Serial, List.map_append, h, List.length_append, List.length_singleton, List.range'_1_concat]
  simp [hm, Nat.add_comm]

/-- The last number of a serial list is its length. -/
theorem Serial.lastSequence {ms : List MlsMessage} (h : Serial ms) :
    Backend.lastSequence ms = ms.length := by
  have top : ∀ n : Nat, (List.range' 1 n).foldl max 0 = n := by
    intro n
    induction n with
    | zero => rfl
    | succ n ih => rw [List.range'_1_concat, List.foldl_append, ih]; simp [Nat.add_comm]
  rw [Backend.lastSequence, ← List.foldl_map (f := fun m : MlsMessage => m.sequence), h, top]

/-- Rows with one number are the same row. -/
theorem Serial.inj {ms : List MlsMessage} (h : Serial ms) {m m' : MlsMessage} (hm : m ∈ ms)
    (hm' : m' ∈ ms) (hs : m.sequence = m'.sequence) : m = m' := by
  refine List.inj_on_of_nodup_map ?_ hm hm' hs
  rw [h]
  exact List.nodup_range'

/-- Rows stand in the order of their numbers. -/
theorem Serial.sorted {ms : List MlsMessage} (h : Serial ms) :
    ms.Pairwise fun a b => a.sequence < b.sequence := by
  have ordered : (ms.map (·.sequence)).Pairwise (· < ·) := by
    rw [h]
    exact List.pairwise_lt_range'
  exact List.pairwise_map.1 ordered

/-- No epoch of the list is ahead of the commits made so far, none falls back behind an older
one, and each commit carries the epoch it ends. -/
structure Paced (ms : List MlsMessage) : Prop where
  sorted : ms.Pairwise fun a b => a.epoch ≤ b.epoch
  bounded : ∀ m ∈ ms, m.epoch ≤ (commits ms : Int)
  ends : ∀ (pre : List MlsMessage) (m : MlsMessage) (post : List MlsMessage),
    ms = pre ++ m :: post → m.kind = .commit → m.epoch = (commits pre : Int)

/-- The message may come next. -/
structure Follows (ms : List MlsMessage) (m : MlsMessage) : Prop where
  least : ∀ x ∈ ms, x.epoch ≤ m.epoch
  most : m.epoch ≤ (commits ms : Int)
  ends : m.kind = .commit → m.epoch = (commits ms : Int)

theorem Paced.append {ms : List MlsMessage} {m : MlsMessage} (h : Paced ms) (hm : Follows ms m) :
    Paced (ms ++ [m]) := by
  refine ⟨List.pairwise_append.2 ⟨h.sorted, List.pairwise_singleton .., fun x hx y hy => ?_⟩,
    fun x hx => ?_, fun pre x post e hx => ?_⟩
  · rw [List.mem_singleton.1 hy]
    exact hm.least x hx
  · have grow : (commits ms : Int) ≤ (commits (ms ++ [m]) : Int) := by
      rw [commits_append]
      omega
    rcases List.mem_append.1 hx with hx | hx
    · exact (h.bounded x hx).trans grow
    · rw [List.mem_singleton.1 hx]
      exact hm.most.trans grow
  · rcases List.append_eq_append_iff.1 e with ⟨as, rfl, has⟩ | ⟨bs, rfl, hbs⟩
    · cases as with
      | nil =>
        simp only [List.nil_append, List.cons.injEq] at has
        rw [List.append_nil, ← has.1]
        exact hm.ends (has.1 ▸ hx)
      | cons a as => simp at has
    · cases bs with
      | nil =>
        simp only [List.nil_append, List.cons.injEq] at hbs
        rw [hbs.1] at hx ⊢
        simpa using hm.ends hx
      | cons b bs =>
        simp only [List.cons_append, List.cons.injEq] at hbs
        exact h.ends pre x bs (by rw [hbs.1]) hx

/-- Each epoch is ended by one commit. -/
theorem Paced.once {ms : List MlsMessage} (h : Paced ms) {m m' : MlsMessage} (hm : m ∈ ms)
    (hm' : m' ∈ ms) (hk : m.kind = .commit) (hk' : m'.kind = .commit) (he : m.epoch = m'.epoch) :
    m = m' := by
  -- between two commits the count goes up
  have apart : ∀ pre a mid b post, ms = pre ++ a :: (mid ++ b :: post) → a.kind = .commit →
      b.kind = .commit → a.epoch < b.epoch := by
    intro pre a mid b post e ha hb
    have first := h.ends pre a _ e ha
    have second := h.ends (pre ++ a :: mid) b post (by simp [e]) hb
    have counted : commits (pre ++ a :: mid) = commits pre + (commits [a] + commits mid) := by
      rw [commits_append, ← commits_append [a]]
      rfl
    rw [first, second, counted, commits_singleton, if_pos ha]
    omega
  obtain ⟨pre, post, rfl⟩ := List.append_of_mem hm
  rcases List.mem_append.1 hm' with hm' | hm'
  · obtain ⟨pre', mid, rfl⟩ := List.append_of_mem hm'
    have := apart pre' m' mid m post (by simp) hk' hk
    omega
  · rcases List.mem_cons.1 hm' with e | hm'
    · exact e.symm
    · obtain ⟨mid, post', rfl⟩ := List.append_of_mem hm'
      have := apart pre m mid m' post' rfl hk hk'
      omega

/-- What the founder of a group leaves in it. -/
structure Greeting (groupId : Nat) (ms : List MlsMessage) : Prop where
  serial : Serial ms
  rows : ∀ m ∈ ms, m.groupId = groupId ∧ m.kind = .welcome ∧ m.epoch = 0

theorem Greeting.commits {groupId : Nat} {ms : List MlsMessage} (h : Greeting groupId ms) :
    commits ms = 0 :=
  List.countP_eq_zero.2 fun m hm => by simp [isCommit, (h.rows m hm).2.1]

theorem Greeting.paced {groupId : Nat} {ms : List MlsMessage} (h : Greeting groupId ms) :
    Paced ms := by
  refine ⟨List.pairwise_of_forall_mem_list fun a ha b hb => ?_, fun m hm => ?_,
    fun pre m post e hk => ?_⟩
  · rw [(h.rows a ha).2.2, (h.rows b hb).2.2]
  · rw [(h.rows m hm).2.2, h.commits]
    exact Int.le_refl 0
  · rw [(h.rows m (by simp [e])).2.1] at hk
    cases hk

theorem Greeting.append {groupId : Nat} {ms : List MlsMessage} {m : MlsMessage}
    (h : Greeting groupId ms) (hs : m.sequence = ms.length + 1)
    (hm : m.groupId = groupId ∧ m.kind = .welcome ∧ m.epoch = 0) : Greeting groupId (ms ++ [m]) := by
  refine ⟨h.serial.append hs, fun x hx => ?_⟩
  rcases List.mem_append.1 hx with hx | hx
  · exact h.rows x hx
  · exact List.mem_singleton.1 hx ▸ hm

end Rows

section Chained

/-- What holds of the groups and their messages; `strict` are the runs in which the messages
come with the epoch of their group. -/
structure Chained (strict : Prop) (db : Db) : Prop where
  sealed : ∀ c ∈ db .conversations, (c : Conversation).e2eeEnabled = true ↔
    ∃ r ∈ db .groups, (r : MlsGroup).conversationId = (c : Conversation).id
  housed : ∀ r ∈ db .groups, Exists db (r : MlsGroup).conversationId
  grouped : ∀ m ∈ db .mlsMessages, ∃ r ∈ db .groups, (r : MlsGroup).id = (m : MlsMessage).groupId
  serial : ∀ r ∈ db .groups, Serial (entries db (r : MlsGroup).id)
  counted : ∀ r ∈ db .groups, (r : MlsGroup).epoch = commits (entries db (r : MlsGroup).id)
  paced : strict → ∀ r ∈ db .groups, Paced (entries db (r : MlsGroup).id)

theorem Initial.chained {strict : Prop} {w : World} (h : Initial w) :
    Chained strict w.store.db := by
  have none : w.store.db .groups = [] := h.groups
  refine ⟨fun c hc => ?_, ?_, ?_, ?_, ?_, ?_⟩
  · simp [h.plain c hc, none]
  · simp [none]
  · simp [h.mlsMessages]
  · simp [none]
  · simp [none]
  · simp [none]

/-- Conversations that keep their seal, and new ones without. -/
structure Ageing (db db' : Db) : Prop where
  groups : db' .groups = db .groups
  mlsMessages : db' .mlsMessages = db .mlsMessages
  conversations : ∃ (F : Conversation → Conversation) (rows : List Conversation),
    db' .conversations = (db .conversations).map F ++ rows ∧
      (∀ c, (F c).id = c.id ∧ (F c).e2eeEnabled = c.e2eeEnabled) ∧
      ∀ c ∈ rows, c.e2eeEnabled = false

theorem Chained.age {strict : Prop} {db db' : Db} (h : Chained strict db) (ha : Ageing db db')
    (hu : (schema.keysOf .conversations (db' .conversations)).Nodup) : Chained strict db' := by
  obtain ⟨F, rows, hc, hF, hrows⟩ := ha.conversations
  have same : ∀ gid, entries db' gid = entries db gid := fun gid => by
    rw [entries, ha.mlsMessages, entries]
  have kept : ∀ {n}, Exists db n → Exists db' n := by
    rintro n ⟨c, hm, rfl⟩
    exact ⟨F c, hc ▸ List.mem_append_left _ (List.mem_map_of_mem hm), (hF c).1⟩
  refine ⟨fun c hm => ?_, fun r hr => kept (h.housed r (ha.groups ▸ hr)), fun m hm => ?_,
    fun r hr => same _ ▸ h.serial r (ha.groups ▸ hr),
    fun r hr => same _ ▸ h.counted r (ha.groups ▸ hr),
    fun hs r hr => same _ ▸ h.paced hs r (ha.groups ▸ hr)⟩
  · rw [ha.groups]
    rw [hc] at hm hu
    rcases List.mem_append.1 hm with hm | hm
    · obtain ⟨c₀, hm₀, rfl⟩ := List.mem_map.1 hm
      rw [(hF c₀).1, (hF c₀).2]
      exact h.sealed c₀ hm₀
    · rw [hrows c hm]
      refine ⟨nofun, fun ⟨r, hr, hid⟩ => ?_⟩
      obtain ⟨c₀, hm₀, hid₀⟩ := h.housed r hr
      have key : Key.id c.id ∈ schema.keys .conversations (F c₀) :=
        List.mem_cons.2 (.inl (by rw [← hid, ← hid₀, ← (hF c₀).1]; rfl))
      exact (fresh_key hu hm₀ hm key (List.mem_cons_self ..)).elim
  · rw [ha.groups]
    exact h.grouped m (ha.mlsMessages ▸ hm)

end Chained

section Founding

/-- What opens a group: its row, the welcomes, and the seal of the conversation. -/
def founding (gr : MlsGroup) (ms : List MlsMessage) (ks : List Key) (t : Nat) : List Write :=
  .insert .groups gr :: ms.map (Schema.Write.insert (S := schema) .mlsMessages) ++
    [.update .conversations ks (setE2ee t)]

variable [AesGcm] [TokenHash] {strict : Prop} {db : Db} {gr : MlsGroup} {ms : List MlsMessage}
  {ks : List Key} {t : Nat}

theorem founding_groups : Schema.Write.applyAll (founding gr ms ks t) db .groups =
    db .groups ++ [gr] := by
  have apart : ∀ x ∈ ms.map (Schema.Write.insert (S := schema) .mlsMessages) ++
      [Schema.Write.update .conversations ks (setE2ee t)], writesTo x ≠ .groups := by
    intro x hx
    rcases List.mem_append.1 hx with hx | hx
    · obtain ⟨m, -, rfl⟩ := List.mem_map.1 hx
      nofun
    · rw [List.mem_singleton.1 hx]
      nofun
  rw [founding, List.cons_append, Schema.Write.applyAll_cons, applyAll_apart apart,
    Schema.Write.apply_insert]

theorem founding_mlsMessages : Schema.Write.applyAll (founding gr ms ks t) db .mlsMessages =
    db .mlsMessages ++ ms := by
  rw [founding, List.cons_append, Schema.Write.applyAll_cons, Schema.Write.applyAll_append,
    Schema.Write.applyAll_cons, Schema.Write.applyAll_nil,
    Schema.Write.apply_update_of_ne _ _ _ (by decide), Schema.applyAll_inserts,
    Schema.Write.apply_insert_of_ne _ _ (by decide)]

theorem founding_conversations : Schema.Write.applyAll (founding gr ms ks t) db .conversations =
    (db .conversations).map fun c =>
      if schema.key .conversations c ∈ ks then (setE2ee t).set c else c := by
  have apart : ∀ x ∈ Schema.Write.insert .groups gr ::
      ms.map (Schema.Write.insert (S := schema) .mlsMessages), writesTo x ≠ .conversations := by
    intro x hx
    rcases List.mem_cons.1 hx with rfl | hx
    · nofun
    · obtain ⟨m, -, rfl⟩ := List.mem_map.1 hx
      nofun
  rw [founding, Schema.Write.applyAll_append, Schema.Write.applyAll_cons,
    Schema.Write.applyAll_nil, Schema.Write.apply_update, applyAll_apart apart]

/-- The messages of a group after its founding, and of the others. -/
theorem founding_entries (h : Chained strict db) (hf : ∀ r ∈ db .groups, (r : MlsGroup).id ≠ gr.id)
    (hg : Greeting gr.id ms) (gid : Nat) :
    entries (Schema.Write.applyAll (founding gr ms ks t) db) gid =
      if gid = gr.id then ms else entries db gid := by
  rw [entries, founding_mlsMessages, List.filter_append]
  split
  · subst gid
    have none : (db .mlsMessages).filter (fun (m : MlsMessage) => m.groupId == gr.id) = [] := by
      refine List.filter_eq_nil_iff.2 fun m hm e => ?_
      obtain ⟨r, hr, hid⟩ := h.grouped m hm
      exact hf r hr (hid.trans (beq_iff_eq.1 e))
    rw [none, List.nil_append, List.filter_eq_self]
    exact fun m hm => beq_iff_eq.2 (hg.rows m hm).1
  · rename_i hne
    have none : ms.filter (fun (m : MlsMessage) => m.groupId == gid) = [] := by
      refine List.filter_eq_nil_iff.2 fun m hm e => hne ?_
      exact (beq_iff_eq.1 e).symm.trans (hg.rows m hm).1
    rw [none, List.append_nil, entries]

/-- A new group has an identifier and a conversation of its own. -/
theorem fresh_group (hu : (schema.keysOf .groups (db .groups ++ [gr])).Nodup) :
    ∀ r ∈ db .groups, (r : MlsGroup).id ≠ gr.id ∧
      (r : MlsGroup).conversationId ≠ gr.conversationId := by
  intro r hr
  have new : ∀ k ∈ schema.keys .groups r, k ∉ schema.keys .groups gr := fun k hr' hg' =>
    fresh_key (F := id) (by simpa using hu) hr (List.mem_singleton_self gr) hr' hg'
  refine ⟨fun e => ?_, fun e => ?_⟩
  · exact new (.id gr.id) (List.mem_cons.2 (.inl (by rw [← e]; rfl))) (List.mem_cons_self ..)
  · exact new (.conversation gr.conversationId) (by simp [Schema.keys, uniqueKeys, ← e])
      (by simp [Schema.keys, uniqueKeys])

theorem Chained.found (h : Chained strict db) (hg : Greeting gr.id ms) (hz : gr.epoch = 0)
    (hu : (schema.keysOf .groups (db .groups ++ [gr])).Nodup) (he : Exists db gr.conversationId)
    (hk : ∀ key, key ∈ ks ↔ key = .id gr.conversationId) :
    Chained strict (Schema.Write.applyAll (founding gr ms ks t) db) := by
  have hid : ∀ r ∈ db .groups, (r : MlsGroup).id ≠ gr.id := fun r hr => (fresh_group hu r hr).1
  have listed : ∀ gid, entries (Schema.Write.applyAll (founding gr ms ks t) db) gid =
      if gid = gr.id then ms else entries db gid := founding_entries h hid hg
  have kept : ∀ {n}, Exists db n → Exists (Schema.Write.applyAll (founding gr ms ks t) db) n := by
    rintro n ⟨c, hc, rfl⟩
    rw [Exists, founding_conversations]
    refine ⟨_, List.mem_map_of_mem hc, ?_⟩
    split <;> rfl
  have each : ∀ {P : MlsGroup → List MlsMessage → Prop}, P gr ms →
      (∀ r ∈ db .groups, P r (entries db (r : MlsGroup).id)) →
      ∀ r ∈ Schema.Write.applyAll (founding gr ms ks t) db .groups,
        P r (entries (Schema.Write.applyAll (founding gr ms ks t) db) (r : MlsGroup).id) := by
    intro P hnew hold r hr
    rw [founding_groups] at hr
    rw [listed]
    rcases List.mem_append.1 hr with hr | hr
    · rw [if_neg (hid r hr)]
      exact hold r hr
    · rw [List.mem_singleton.1 hr, if_pos rfl]
      exact hnew
  refine ⟨fun c hc => ?_, fun r hr => ?_, fun m hm => ?_, each hg.serial h.serial,
    each (P := fun r ms => r.epoch = commits ms) (by rw [hz, hg.commits]) h.counted,
    fun hs => each (P := fun _ ms => Paced ms) hg.paced (h.paced hs)⟩
  · rw [founding_conversations] at hc
    obtain ⟨c₀, hc₀, rfl⟩ := List.mem_map.1 hc
    rw [founding_groups]
    have key : schema.key .conversations c₀ ∈ ks ↔ c₀.id = gr.conversationId := by
      rw [hk]
      exact ⟨fun e => Key.id.inj e, fun e => congrArg Key.id e⟩
    split
    · rename_i hm
      exact ⟨fun _ => ⟨gr, by simp, (key.1 hm).symm⟩, fun _ => rfl⟩
    · rename_i hm
      rw [h.sealed c₀ hc₀]
      constructor
      · rintro ⟨r, hr, e⟩
        exact ⟨r, List.mem_append_left _ hr, e⟩
      · rintro ⟨r, hr, e⟩
        rcases List.mem_append.1 hr with hr | hr
        · exact ⟨r, hr, e⟩
        · rw [List.mem_singleton.1 hr] at e
          exact (hm (key.2 e.symm)).elim
  · rw [founding_groups] at hr
    rcases List.mem_append.1 hr with hr | hr
    · exact kept (h.housed r hr)
    · rw [List.mem_singleton.1 hr]
      exact kept he
  · rw [founding_mlsMessages] at hm
    rw [founding_groups]
    rcases List.mem_append.1 hm with hm | hm
    · obtain ⟨r, hr, e⟩ := h.grouped m hm
      exact ⟨r, List.mem_append_left _ hr, e⟩
    · exact ⟨gr, by simp, (hg.rows m hm).1.symm⟩

end Founding

section Relaying

/-- What a message writes: a commit moves its group to the next epoch. -/
def relay (gr : MlsGroup) (ks : List Key) (m : MlsMessage) : List Write :=
  (if m.kind = .commit then [.update .groups ks (setEpoch (gr.epoch + 1))] else []) ++
    [.insert .mlsMessages m]

variable [AesGcm] [TokenHash] {strict : Prop} {db : Db} {gr : MlsGroup} {m : MlsMessage}
  {ks : List Key}

theorem relay_apart {t : Table} (hg : t ≠ .groups) (hm : t ≠ .mlsMessages) :
    Schema.Write.applyAll (relay gr ks m) db t = db t := by
  refine applyAll_apart (fun x hx e => ?_) db
  rcases List.mem_append.1 hx with hx | hx
  · split at hx
    · rw [List.mem_singleton.1 hx] at e
      exact hg e.symm
    · cases hx
  · rw [List.mem_singleton.1 hx] at e
    exact hm e.symm

theorem relay_mlsMessages : Schema.Write.applyAll (relay gr ks m) db .mlsMessages =
    db .mlsMessages ++ [m] := by
  rw [relay, Schema.Write.applyAll_append, Schema.Write.applyAll_cons, Schema.Write.applyAll_nil,
    Schema.Write.apply_insert, applyAll_apart fun x hx => ?_]
  split at hx
  · rw [List.mem_singleton.1 hx]
    nofun
  · cases hx

theorem relay_entries (hm : m.groupId = gr.id) (gid : Nat) :
    entries (Schema.Write.applyAll (relay gr ks m) db) gid =
      if gid = gr.id then entries db gid ++ [m] else entries db gid := by
  rw [entries, relay_mlsMessages, List.filter_append, List.filter_singleton, hm]
  split
  · subst gid
    simp [entries]
  · rename_i hne
    simp [entries, beq_eq_false_iff_ne.2 (Ne.symm hne)]

/-- The group as the message leaves it. -/
def moved (gr : MlsGroup) (m : MlsMessage) (r : MlsGroup) : MlsGroup :=
  if r.id = gr.id then { r with epoch := r.epoch + commits [m] } else r

theorem relay_groups (hg : gr ∈ db .groups) (hu : (schema.keysOf .groups (db .groups)).Nodup)
    (hk : m.kind = .commit → ∀ key, key ∈ ks ↔ key = .id gr.id) :
    Schema.Write.applyAll (relay gr ks m) db .groups = (db .groups).map (moved gr m) := by
  have apart : ∀ x ∈ [Schema.Write.insert (S := schema) .mlsMessages m], writesTo x ≠ .groups := by
    simp [writesTo]
  rw [relay, Schema.Write.applyAll_append, applyAll_apart apart]
  split
  · rename_i hc
    rw [Schema.Write.applyAll_cons, Schema.Write.applyAll_nil, Schema.Write.apply_update]
    refine List.map_congr_left fun (r : MlsGroup) hr => ?_
    have key : schema.key .groups r ∈ ks ↔ r.id = gr.id := by
      rw [hk hc]
      exact ⟨fun e => Key.id.inj e, fun e => congrArg Key.id e⟩
    simp only [moved, key, commits_singleton, if_pos hc]
    split
    · rename_i e
      obtain rfl : r = gr := Schema.eq_of_key hu hr hg (k := .id gr.id)
        (List.mem_cons.2 (.inl (by rw [← e]; rfl))) (List.mem_cons_self ..)
      rfl
    · rfl
  · rename_i hc
    have same : (db .groups).map (moved gr m) = (db .groups).map id := by
      refine List.map_congr_left fun (r : MlsGroup) _ => ?_
      simp only [moved, commits_singleton, if_neg hc, Nat.add_zero, ite_self, id]
    rw [same, List.map_id]
    rfl

theorem moved_same (r : MlsGroup) : (moved gr m r).id = r.id ∧
    (moved gr m r).conversationId = r.conversationId := by
  unfold moved
  split <;> exact ⟨rfl, rfl⟩

theorem Chained.relay (h : Chained strict db) (hg : gr ∈ db .groups)
    (hu : (schema.keysOf .groups (db .groups)).Nodup) (hm : m.groupId = gr.id)
    (hs : m.sequence = (entries db gr.id).length + 1)
    (hk : m.kind = .commit → ∀ key, key ∈ ks ↔ key = .id gr.id)
    (hf : strict → Follows (entries db gr.id) m) :
    Chained strict (Schema.Write.applyAll (Proofs.relay gr ks m) db) := by
  have groups := relay_groups hg hu hk
  have listed : ∀ gid, entries (Schema.Write.applyAll (Proofs.relay gr ks m) db) gid =
      if gid = gr.id then entries db gid ++ [m] else entries db gid := relay_entries hm
  have exists_iff : ∀ P : Nat → Nat → Prop,
      (∃ r ∈ Schema.Write.applyAll (Proofs.relay gr ks m) db .groups,
        P (r : MlsGroup).id (r : MlsGroup).conversationId) ↔
      ∃ r ∈ db .groups, P (r : MlsGroup).id (r : MlsGroup).conversationId := by
    intro P
    rw [groups]
    constructor
    · rintro ⟨r, hr, hP⟩
      obtain ⟨r₀, hr₀, rfl⟩ := List.mem_map.1 hr
      rw [(moved_same r₀).1, (moved_same r₀).2] at hP
      exact ⟨r₀, hr₀, hP⟩
    · rintro ⟨r, hr, hP⟩
      refine ⟨moved gr m r, List.mem_map_of_mem hr, ?_⟩
      rwa [(moved_same r).1, (moved_same r).2]
  have each : ∀ {P : List MlsMessage → Prop},
      (P (entries db gr.id) → P (entries db gr.id ++ [m])) →
      (∀ r ∈ db .groups, P (entries db (r : MlsGroup).id)) →
      ∀ r ∈ Schema.Write.applyAll (Proofs.relay gr ks m) db .groups,
        P (entries (Schema.Write.applyAll (Proofs.relay gr ks m) db) (r : MlsGroup).id) := by
    intro P hnew hold r hr
    rw [groups] at hr
    obtain ⟨r₀, hr₀, rfl⟩ := List.mem_map.1 hr
    rw [listed, (moved_same r₀).1]
    split
    · rename_i e
      rw [e]
      exact hnew (e ▸ hold r₀ hr₀)
    · exact hold r₀ hr₀
  refine ⟨fun c hc => ?_, fun r hr => ?_, fun x hx => ?_, each (fun h => h.append hs) h.serial,
    fun r hr => ?_, fun hst => each (fun h => h.append (hf hst)) (h.paced hst)⟩
  · rw [relay_apart (by decide) (by decide)] at hc
    rw [exists_iff fun _ n => n = c.id]
    exact h.sealed c hc
  · rw [groups] at hr
    obtain ⟨r₀, hr₀, rfl⟩ := List.mem_map.1 hr
    rw [Exists, relay_apart (by decide) (by decide), (moved_same r₀).2]
    exact h.housed r₀ hr₀
  · rw [relay_mlsMessages] at hx
    rw [exists_iff fun n _ => n = x.groupId]
    rcases List.mem_append.1 hx with hx | hx
    · exact h.grouped x hx
    · rw [List.mem_singleton.1 hx]
      exact ⟨gr, hg, hm.symm⟩
  · rw [groups] at hr
    obtain ⟨r₀, hr₀, rfl⟩ := List.mem_map.1 hr
    rw [listed, (moved_same r₀).1, moved]
    split
    · rw [commits_append, ← h.counted r₀ hr₀]
    · exact h.counted r₀ hr₀

end Relaying

section Extension

variable [AesGcm] [TokenHash]

def IsListMls : Call → Prop
  | .listMls _ _ _ _ => True
  | _ => False

/-- The calls that write to the groups or read their messages. -/
def OfGroups (k : Call) : Prop := IsEnable k ∨ IsSendMls k ∨ IsListMls k

/-- Writes that leave the groups, their messages and the seals alone. -/
def Groupless : Write → Prop
  | .insert .conversations c => (c : Conversation).e2eeEnabled = false
  | .insert .groups _ => False
  | .insert .mlsMessages _ => False
  | .update .conversations _ f =>
    ∀ c : Conversation, (f.set c : Conversation).e2eeEnabled = c.e2eeEnabled
  | .update .groups _ _ => False
  | .update .mlsMessages _ _ => False
  | .delete t _ => t = .attachments
  | _ => True

/-- What a step leaves of the groups: their names, and the messages of those another process
has locked. -/
structure Leaves (a : Option Nat) (w w' : World) : Prop where
  entries : ∀ gid q, w.store.owner .groups (.id gid) = some q → a ≠ some q →
    Proofs.entries w'.store.db gid = Proofs.entries w.store.db gid
  groups : ∀ r ∈ w.store.db .groups, ∃ r' ∈ w'.store.db .groups,
    (r' : MlsGroup).id = (r : MlsGroup).id ∧
      (r' : MlsGroup).conversationId = (r : MlsGroup).conversationId

variable (strict : Prop)

def groupsExtension : Extension where
  inv w := Chained strict w.store.db
  guar := Leaves
  special := OfGroups
  plain := Groupless

variable {strict} {db₀ : Db} {w w' : World}

theorem ageing_of_groupless {ws : List Write} (h : ∀ x ∈ ws, Groupless x) (db : Db) :
    Ageing db (Schema.Write.applyAll ws db) := by
  have apart : ∀ t, t = .groups ∨ t = .mlsMessages → Schema.Write.applyAll ws db t = db t := by
    intro t ht
    refine applyAll_apart (fun x hx e => ?_) db
    subst e
    have hg := h x hx
    cases x with
    | insert t r => rcases ht with rfl | rfl <;> exact hg
    | update t ks f => rcases ht with rfl | rfl <;> exact hg
    | delete t ks => rcases ht with rfl | rfl <;> exact nomatch hg
  refine ⟨apart _ (.inl rfl), apart _ (.inr rfl), ?_⟩
  exact applyAll_split (t := .conversations)
    (S := fun (c c' : Conversation) => c'.id = c.id ∧ c'.e2eeEnabled = c.e2eeEnabled)
    (N := fun (c : Conversation) => c.e2eeEnabled = false) (fun _ => ⟨rfl, rfl⟩)
    (fun _ _ _ h h' => ⟨h'.1.trans h.1, h'.2.trans h.2⟩) (fun _ _ h hn => h.2.trans hn)
    (fun _ hr => h _ hr)
    (fun ks f hf c => ⟨Key.id.inj (f.key_set c), h _ hf c⟩) (fun _ hk => nomatch h _ hk) db

theorem keeps_groups : (groupsExtension strict).Keeps db₀ where
  init := by
    rintro w hw -
    exact hw.chained
  plain := by
    rintro a w w' _ hi' _ ⟨⟨p, new, hc, hnew⟩, -⟩ hx
    have aged : Ageing w.store.db w'.store.db := hc.2 ▸ ageing_of_groupless hnew _
    refine ⟨hx.age aged (hi'.ok.unique .conversations), fun gid q _ _ => ?_, fun r hr => ?_⟩
    · rw [entries, aged.mlsMessages, entries]
    · exact ⟨r, aged.groups ▸ hr, rfl, rfl⟩

theorem groups_may (k : Call) (x : Write) (hk : ¬(groupsExtension strict).special k)
    (hm : May k x) : (groupsExtension strict).plain x := by
  have unsent : ¬IsSendMls k := fun h => hk (.inr (.inl h))
  have unsealed : ¬IsEnable k := fun h => hk (.inl h)
  cases x with
  | insert t r =>
    cases t
    case conversations => exact hm.1
    case groups =>
      obtain ⟨user, gid, suite, ws, rfl, -⟩ := hm
      exact unsealed trivial
    case mlsMessages =>
      rcases hm with ⟨_, _, _, _, _, _, _, _, _, _, rfl, -⟩ |
        ⟨_, _, _, _, _, _, _, _, _, _, _, _, rfl, -⟩
      · exact unsealed trivial
      · exact unsent trivial
    all_goals trivial
  | update t ks f =>
    cases t
    case conversations => exact hm.1.resolve_left unsealed
    case groups => exact unsent hm.1
    case mlsMessages => exact hm
    all_goals trivial
  | delete t ks => exact hm

section Calls

variable {g : Nat → Op → World → Prop} {k : Call} {p : Nat} {a : Option Nat} {ws : List Write}
  {st' : State schema}

theorem open_groups : (groupsExtension strict).Open :=
  ⟨fun _ _ _ => trivial, fun _ _ => trivial, fun _ => trivial⟩

/-- The key of a row a transaction has inserted is its own. -/
theorem owns_insert (hi : Inv db₀ w) (hh : Held p ws w) {t : Table} {r : t.Row}
    (hr : Schema.Write.insert t r ∈ ws) : w.store.owner t (schema.key t r) = some p := by
  obtain ⟨now, ht⟩ := hh
  exact hi.ok.owned p _ ht _ hr (t, schema.key t r)
    (List.mem_map.2 ⟨_, List.mem_cons_self .., rfl⟩)

theorem seals_founding {gr : MlsGroup} {ms : List MlsMessage} {ks : List Key}
    {t : Nat} (hi : ((groupsExtension strict).protocol db₀).inv w) (hk : w.calls p = some k)
    (hen : IsEnable k) (hh : Held p (founding gr ms ks t) w) (hf : Founds k gr)
    (hms : ∀ m ∈ ms, Greets k m) (hg : Greeting gr.id ms) (he : Exists w.store.db gr.conversationId)
    (hks : ∀ key, key ∈ ks ↔ key = .id gr.conversationId)
    (hc : State.Commits p (founding gr ms ks t) w.store st') :
    (groupsExtension strict).Seals db₀ p (founding gr ms ks t) w st' := by
  have quiet : ∀ x ∈ founding gr ms ks t, Quiet k .tx x := by
    have unsent : ¬IsSend k := by
      cases k <;> first | exact id | cases hen
    have still : ¬Rotates k := by
      cases k <;> first | exact id | cases hen
    intro x hx
    rcases List.mem_append.1 hx with hx | hx
    · rcases List.mem_cons.1 hx with rfl | hx
      · exact ⟨⟨free_of rfl rfl, hf⟩, trivial⟩
      · obtain ⟨m, hm, rfl⟩ := List.mem_map.1 hx
        exact ⟨⟨free_of rfl rfl, .inl (hms m hm)⟩, trivial⟩
    · rw [List.mem_singleton.1 hx]
      exact ⟨⟨⟨fun _ => unsent, nofun⟩, .inl hen, .inr fun _ => rfl, .inr fun _ => rfl⟩,
        still_setE2ee t⟩
  refine ⟨.quiet (fun _ => hk) quiet hi.1.db.numbered hc.2, fun hi' hg' => ?_⟩
  have hu : (schema.keysOf .groups (w.store.db .groups ++ [gr])).Nodup := by
    have := hi'.ok.unique .groups
    rwa [World.withStore, hc.2, founding_groups] at this
  obtain ⟨_, _, _, _, _, hz⟩ := hf
  refine ⟨?_, fun gid q ho hq => ?_, fun r hr => ?_⟩
  · have := hi.2.found (t := t) hg hz hu he hks
    rwa [← hc.2] at this
  · have hne : gid ≠ gr.id := by
      rintro rfl
      have mine := owns_insert hi.1 hh (t := .groups) (r := gr) (by simp [founding])
      have mine : w.store.owner .groups (.id gr.id) = some p := mine
      rw [mine] at ho
      exact hq ho
    have hid := fun r hr => (fresh_group hu r hr).1
    rw [World.withStore, hc.2, founding_entries hi.2 hid hg, if_neg hne]
  · refine ⟨r, ?_, rfl, rfl⟩
    rw [World.withStore, hc.2, founding_groups]
    exact List.mem_append_left _ hr

/-- The welcomes are numbered one after the other. -/
theorem valid_saveWelcomes {user : AuthUser} {c : Nat} {gid : Bytes} {suite : Utf16}
    {welcomes : List Welcome} {φ : World → Prop} {gr : MlsGroup} (before : List Write)
    (hφ : (groupsExtension strict).Firm db₀ p φ)
    (hk : ∀ w, φ w → w.calls p = some (.enableE2ee user c gid suite welcomes))
    {rest : List Welcome} (hr : ∀ x ∈ rest, x ∈ welcomes) {ms : List MlsMessage}
    (hg : Greeting gr.id ms)
    (hms : ∀ m ∈ ms, Greets (.enableE2ee user c gid suite welcomes) m) :
    Protocol.Valid machine g ((groupsExtension strict).protocol db₀) p
      (fun w => φ w ∧ Held p (before ++ ms.map (Schema.Write.insert (S := schema) .mlsMessages)) w)
      (saveWelcomes gr.id user.sub ms.length rest)
      (onOk fun _ w => ∃ ms', Greeting gr.id ms' ∧
        (∀ m ∈ ms', Greets (.enableE2ee user c gid suite welcomes) m) ∧ φ w ∧
        Held p (before ++ ms'.map (Schema.Write.insert (S := schema) .mlsMessages)) w) := by
  induction rest generalizing ms with
  | nil => exact .pure fun w _ h => ⟨ms, hg, hms, h.1, h.2⟩
  | cons x rest ih =>
    refine Protocol.Valid.bind (keeps_groups.insertOne (Q := fun (m : MlsMessage) => m.groupId = gr.id ∧
      m.sequence = ms.length + 1 ∧ m.kind = .welcome ∧ m.epoch = 0 ∧
        Greets (.enableE2ee user c gid suite welcomes) m) nofun hφ hk
      fun w id now _ _ _ => ⟨rfl, rfl, rfl, rfl, ?_⟩) (fun m => ?_) fun _ _ _ _ => trivial
    · exact ⟨user, c, gid, suite, welcomes, x, gr.id, _, id, now, rfl,
        hr x (List.mem_cons_self ..), rfl⟩
    · refine Protocol.Valid.pre (Protocol.Valid.given (φ := fun w => φ w ∧ Held p (before ++
        ms.map (Schema.Write.insert (S := schema) .mlsMessages) ++ [.insert .mlsMessages m]) w)
        fun hm => ?_) fun w _ h => ⟨h.1.2, h.1.1, h.2⟩
      have greeting := hg.append hm.2.1 ⟨hm.1, hm.2.2.1, hm.2.2.2.1⟩
      have greets : ∀ m' ∈ ms ++ [m], Greets (.enableE2ee user c gid suite welcomes) m' := by
        intro m' hm'
        rcases List.mem_append.1 hm' with hm' | hm'
        · exact hms m' hm'
        · exact List.mem_singleton.1 hm' ▸ hm.2.2.2.2
      have next := ih (fun y hy => hr y (List.mem_cons_of_mem _ hy)) greeting greets
      rw [List.length_append, List.length_singleton, List.map_append, ← List.append_assoc] at next
      exact next

theorem valid_enableE2ee (user : AuthUser) (c : Nat) (gid : Bytes) (suite : Utf16)
    (welcomes : List Welcome) :
    Protocol.Valid machine g ((groupsExtension strict).protocol db₀) p
      (Extension.Idle (.enableE2ee user c gid suite welcomes) p)
      (enableE2ee user c gid suite welcomes) fun _ _ => True := by
  refine Protocol.Valid.bind (keeps_groups.access open_groups id id user c) (fun conv => ?_)
    fun _ _ _ _ => trivial
  refine Protocol.Valid.bind (Q := fun _ w =>
    Extension.Idle (.enableE2ee user c gid suite welcomes) p w ∧ Exists w.store.db c)
    (.ite (fun _ => .throw fun w _ h => ⟨h.1, h.2.2.seen⟩)
      fun _ => .pure fun w _ h => ⟨h.1, h.2.2.seen⟩) (fun _ => ?_) fun _ _ _ _ => trivial
  have firm : (groupsExtension strict).Firm db₀ p fun w => Exists w.store.db c :=
    (Extension.Lasts.of_persists (.conversation c)).firm
  have served : (groupsExtension strict).Firm db₀ p fun w =>
      w.calls p = some (.enableE2ee user c gid suite welcomes) ∧ Exists w.store.db c :=
    (Extension.Lasts.of_persists (.call p _)).firm.and firm
  refine (keeps_groups.transaction (Q := fun _ _ => True) (R := fun _ ws w => ∃ gr ms ks t,
    ws = founding gr ms ks t ∧ Founds (.enableE2ee user c gid suite welcomes) gr ∧
      (∀ m ∈ ms, Greets (.enableE2ee user c gid suite welcomes) m) ∧ Greeting gr.id ms ∧
      Exists w.store.db gr.conversationId ∧ ∀ key, key ∈ ks ↔ key = .id gr.conversationId)
    firm ?_ (fun _ ws w st' hi hk hh hR _ hc => ?_) fun _ => .const _ _ _).post fun _ _ _ _ => trivial
  · refine Protocol.Valid.bind (keeps_groups.insertOne (Q := fun (gr : MlsGroup) =>
      gr.conversationId = c ∧ Founds (.enableE2ee user c gid suite welcomes) gr) nofun served
      (fun _ h => h.1) fun w id now _ _ _ => ⟨rfl, user, gid, suite, welcomes, rfl, rfl⟩)
      (fun (gr : MlsGroup) => ?_) fun _ _ _ _ => trivial
    refine Protocol.Valid.pre (Protocol.Valid.given (φ := fun w => (w.calls p =
      some (.enableE2ee user c gid suite welcomes) ∧ Exists w.store.db c) ∧
        Held p [.insert .groups gr] w) fun hgr => ?_) fun w _ h => ⟨h.1.2, h.1.1, h.2⟩
    have empty : Greeting gr.id [] := ⟨rfl, by simp⟩
    refine Protocol.Valid.bind (valid_saveWelcomes [.insert .groups gr] served
      (fun _ h => h.1) (fun _ hx => hx) empty (by simp)) (fun _ => ?_) fun _ _ _ _ => trivial
    refine Protocol.Valid.exists fun ms => Protocol.Valid.given fun hg => .given fun hms => ?_
    refine Protocol.Valid.bind (keeps_groups.aside ((Prog.uses_perform _).2 trivial) served)
      (fun t => ?_) fun _ _ _ _ => trivial
    refine Protocol.Valid.bind (keeps_groups.update nofun served fun _ h => h.1) (fun _ => ?_)
      fun _ _ _ _ => trivial
    refine Protocol.Valid.bind ((keeps_groups.audit (fun _ => trivial) (fun _ h => h.1.1) ?_).pre
      fun w _ h => h) (fun _ => ?_) fun _ _ _ _ => trivial
    · exact served.stable.and (.exists fun _ => .exists fun _ =>
        .and (.const _ _ _) (Extension.stable_held _))
    · refine .pure fun w _ ⟨⟨_, he⟩, _, w₀, ⟨⟨_, he₀⟩, _⟩, hh⟩ => ⟨_, hh, gr, ms, _, t, rfl, hgr.2,
        hms, hg, hgr.1 ▸ he, fun key => ?_⟩
      have apart : ∀ x ∈ [Schema.Write.insert .groups gr] ++
          ms.map (Schema.Write.insert (S := schema) .mlsMessages), writesTo x ≠ .conversations := by
        intro x hx
        rcases List.mem_append.1 hx with hx | hx
        · rw [List.mem_singleton.1 hx]
          nofun
        · obtain ⟨m, -, rfl⟩ := List.mem_map.1 hx
          nofun
      rw [applyAll_apart apart, hgr.1, List.mem_map]
      constructor
      · rintro ⟨r, hr, rfl⟩
        exact congrArg Key.id (beq_iff_eq.1 (List.mem_filter.1 hr).2)
      · rintro rfl
        obtain ⟨r, hr, hid⟩ := he₀
        exact ⟨r, List.mem_filter.2 ⟨hr, beq_iff_eq.2 hid⟩, congrArg Key.id hid⟩
  · obtain ⟨gr, ms, ks, t, rfl, hf, hms, hg, he, hks⟩ := hR
    exact ⟨seals_founding hi hk trivial hh hf hms hg he hks hc, fun _ => trivial⟩

/-- The group is that of the conversation. -/
def Homed (gid c : Nat) (w : World) : Prop :=
  ∃ r ∈ w.store.db .groups, (r : MlsGroup).id = gid ∧ (r : MlsGroup).conversationId = c

theorem lasts_homed (gid c : Nat) : (groupsExtension strict).Lasts db₀ (Homed gid c) := by
  rintro a w w' - - hg ⟨r, hr, rfl, rfl⟩
  exact hg.2.groups r hr

theorem valid_findGroup (c : Nat) :
    Protocol.Valid machine g ((groupsExtension strict).protocol db₀) p (Extension.Idle k p)
      (findGroup c) fun r w => Extension.Idle k p w ∧ onOk (fun gr => Homed gr.id c) r w := by
  refine Protocol.Valid.bind (keeps_groups.findOne (t := .groups)
    (Q := fun (o : Option MlsGroup) w => ∀ r, o = some r → Homed r.id c w) (fun w _ _ r hr => ?_)
    (fun o a w w' ha hi hi' hg h r hr => lasts_homed r.id c a w w' hi hi' hg (h r hr))
    Extension.stable_idle) (fun o => ?_) fun _ _ _ h => ⟨h.1, trivial⟩
  · obtain ⟨hr, hc⟩ := List.mem_filter.1 (List.mem_of_mem_head? hr)
    exact ⟨r, hr, rfl, beq_iff_eq.1 hc⟩
  · cases o with
    | none => exact .throw fun _ _ h => ⟨h.1, trivial⟩
    | some gr => exact .pure fun _ _ h => ⟨h.1, h.2 gr rfl⟩

/-- A member sends only what may come next in its group, by the epoch it names. -/
def Timely (g : Nat → Op → World → Prop) : Prop :=
  ∀ p w make user c device kind epoch ciphertext target,
    g p (.query .tx (.insert .mlsMessages make)) w →
    w.calls p = some (.sendMls user c device kind epoch ciphertext target) →
    ∀ r ∈ w.store.db .groups, (r : MlsGroup).conversationId = c → ∀ n, bigint epoch = .ok n →
      (∀ x ∈ entries w.store.db (r : MlsGroup).id, x.epoch ≤ n) ∧ n ≤ (r : MlsGroup).epoch ∧
        (kind = .commit → n = (r : MlsGroup).epoch)

/-- The messages of a locked group stay as they were read. -/
theorem firm_entries {gr : MlsGroup} {φ : World → Prop}
    (hφ : (groupsExtension strict).Firm db₀ p φ) (hl : ∀ w, φ w → Locked p .groups gr w)
    (rows : List MlsMessage) :
    (groupsExtension strict).Firm db₀ p fun w => φ w ∧ rows = entries w.store.db gr.id := by
  refine ⟨fun a w w' ha hi hi' hg h => ⟨hφ.stable a w w' ha hi hi' hg h.1, ?_⟩,
    fun hi hi' hg hu h => ⟨hφ.unwritten hi hi' hg hu h.1, ?_⟩⟩
  · rw [hg.2.entries gr.id p (hl w h.1).owner ha]
    exact h.2
  · rw [hu.db]
    exact h.2

theorem seals_relay {gr : MlsGroup} {m : MlsMessage} {ks : List Key}
    (hi : ((groupsExtension strict).protocol db₀).inv w) (hk : w.calls p = some k)
    (hsm : IsSendMls k) (hl : Locked p .groups gr w) (hm : m.groupId = gr.id)
    (hs : m.sequence = (entries w.store.db gr.id).length + 1) (hr : Relays k m)
    (hks : m.kind = .commit → ∀ key, key ∈ ks ↔ key = .id gr.id)
    (hf : strict → Follows (entries w.store.db gr.id) m)
    (hc : State.Commits p (relay gr ks m) w.store st') :
    (groupsExtension strict).Seals db₀ p (relay gr ks m) w st' := by
  have quiet : ∀ x ∈ relay gr ks m, Quiet k .tx x := by
    intro x hx
    rcases List.mem_append.1 hx with hx | hx
    · split at hx
      · rw [List.mem_singleton.1 hx]
        exact ⟨⟨free_of rfl rfl, hsm, _, rfl⟩, fun _ => ⟨trivial, trivial⟩⟩
      · cases hx
    · rw [List.mem_singleton.1 hx]
      exact ⟨⟨free_of rfl rfl, .inr hr⟩, trivial⟩
  refine ⟨.quiet (fun _ => hk) quiet hi.1.db.numbered hc.2, fun hi' hg' => ?_⟩
  refine ⟨?_, fun gid q ho hq => ?_, fun r hr => ?_⟩
  · have := hi.2.relay hl.row (hi.1.ok.unique .groups) hm hs hks hf
    rwa [← hc.2] at this
  · have hne : gid ≠ gr.id := by
      rintro rfl
      have mine : w.store.owner .groups (.id gr.id) = some p := hl.owner
      rw [mine] at ho
      exact hq ho
    rw [World.withStore, hc.2, relay_entries hm, if_neg hne]
  · refine ⟨moved gr m r, ?_, (moved_same r).1, (moved_same r).2⟩
    rw [World.withStore, hc.2, relay_groups hl.row (hi.1.ok.unique .groups) hks]
    exact List.mem_map_of_mem hr

/-- What a message does once its group is locked. -/
theorem valid_relay (user : AuthUser) (c : Nat) (device : Utf16) (kind : MlsKind) (epoch : Utf16)
    (ciphertext : Bytes) (target : Option Nat)
    (hk : k = .sendMls user c device kind epoch ciphertext target) (gr : MlsGroup) :
    Protocol.Valid machine g ((groupsExtension (Timely g)).protocol db₀) p
      (fun w => ((w.calls p = some k ∧ Homed gr.id c w) ∧ Locked p .groups gr w) ∧ Held p [] w)
      (do
        let rows ← select .tx .mlsMessages fun m => m.groupId == gr.id
        let nextSeq := lastSequence rows + 1
        onlyIf (kind = .commit) do
          let _ ← update .tx .groups (fun x => x.id == gr.id) fun _ => setEpoch (gr.epoch + 1)
        let e ← parameter .tx (bigint epoch)
        let saved ← insertOne .tx .mlsMessages
          (newMlsMessage ⟨c, device, kind, epoch, ciphertext, target⟩ gr.id user.sub e nextSeq)
        return (saved.id, nextSeq))
      (onOk fun _ w => ∃ ws, Held p ws w ∧ ∃ gr ks m, ws = relay gr ks m ∧
        Locked p .groups gr w ∧ m.groupId = gr.id ∧
        m.sequence = (entries w.store.db gr.id).length + 1 ∧ Relays k m ∧
        (m.kind = .commit → ∀ key, key ∈ ks ↔ key = .id gr.id) ∧
        (Timely g → Follows (entries w.store.db gr.id) m)) := by
  have base : (groupsExtension (Timely g)).Firm db₀ p fun w =>
      (w.calls p = some k ∧ Homed gr.id c w) ∧ Locked p .groups gr w :=
    ((Extension.Lasts.of_persists (.call p k)).and (lasts_homed gr.id c)).firm.and
      (.of_tame (tame_locked .groups gr))
  have read := firm_entries base (fun _ h => h.2)
  refine Protocol.Valid.bind (keeps_groups.view (t := .mlsMessages)
    (Q := fun (rows : List MlsMessage) w => rows = entries w.store.db gr.id)
    (fun _ h => h.1.1) (fun _ _ _ => rfl) read) (fun (rows : List MlsMessage) => ?_)
    fun _ _ _ _ => trivial
  have firm := read rows
  -- a commit moves the group
  refine Protocol.Valid.bind (Q := onOk fun _ w => ∃ ks,
    (kind = .commit → ∀ key, key ∈ ks ↔ key = Key.id gr.id) ∧
      (((w.calls p = some k ∧ Homed gr.id c w) ∧ Locked p .groups gr w) ∧
        rows = entries w.store.db gr.id) ∧
      Held p (if kind = .commit then [.update .groups ks (setEpoch (gr.epoch + 1))] else []) w)
    ?_ (fun _ => ?_) fun _ _ _ _ => trivial
  · refine .ite (fun hc => ?_) fun hc => .pure fun w _ h => ⟨[], fun h => (hc h).elim, h.1, ?_⟩
    · refine Protocol.Valid.bind (keeps_groups.update nofun firm fun _ h => h.1.1.1) (fun _ => ?_)
        fun _ _ _ _ => trivial
      refine .pure fun w _ ⟨hw, _, w₀, ⟨⟨⟨_, hl⟩, _⟩, _⟩, hh⟩ => ⟨_, fun _ key => ?_, hw,
        by rw [if_pos hc]; exact hh⟩
      rw [Schema.Write.applyAll_nil, List.mem_map]
      constructor
      · rintro ⟨r, hr, rfl⟩
        exact congrArg Key.id (beq_iff_eq.1 (List.mem_filter.1 hr).2)
      · rintro rfl
        exact ⟨gr, List.mem_filter.2 ⟨hl.row, beq_self_eq_true _⟩, rfl⟩
    · rw [if_neg hc]
      exact h.2
  · refine Protocol.Valid.exists fun ks => .given fun hks => ?_
    refine keeps_groups.parsed (fun _ h => h.1.1.1) fun e he => ?_
    refine Protocol.Valid.bind (keeps_groups.insertOne (Q := fun (m : MlsMessage) =>
      m.groupId = gr.id ∧ m.kind = kind ∧ m.sequence = lastSequence rows + 1 ∧ Relays k m ∧
        (Timely g → ∀ ms, ms = rows → gr.epoch = commits ms → Follows ms m)) nofun firm
      (fun _ h => h.1.1.1) fun w id now hi hw hg => ⟨rfl, rfl, rfl, ?_, ?_⟩)
      (fun (m : MlsMessage) => ?_) fun _ _ _ _ => trivial
    · exact ⟨user, c, device, kind, epoch, ciphertext, target, gr.id, e, _, id, now, hk, he, rfl⟩
    · rintro ht ms rfl hcount
      obtain ⟨⟨⟨hcall, r, hr, hid, hc⟩, hl⟩, hrows⟩ := hw
      obtain rfl : r = gr := Schema.eq_of_key (hi.1.ok.unique .groups) hr hl.row (k := .id gr.id)
        (List.mem_cons.2 (.inl (by rw [← hid]; rfl))) (List.mem_cons_self ..)
      obtain ⟨least, most, ends⟩ := ht p w _ user c device kind epoch ciphertext target hg
        (hk ▸ hcall) r hr hc e he
      refine ⟨fun x hx => least x (hrows ▸ hx), ?_, fun h => ?_⟩
      · rw [← hcount]
        exact most
      · rw [← hcount]
        exact ends h
    · refine .pure fun w hi ⟨⟨hw, hm⟩, hh⟩ => ⟨_, hh, gr, ks, m, ?_, hw.1.2, hm.1, ?_, hm.2.2.2.1,
        fun h => hks (hm.2.1 ▸ h), fun ht => hm.2.2.2.2 ht _ hw.2.symm (hi.2.counted gr hw.1.2.row)⟩
      · rw [relay, hm.2.1]
      · rw [hm.2.2.1, hw.2, (hi.2.serial gr hw.1.2.row).lastSequence]

theorem valid_sendMls (user : AuthUser) (c : Nat) (device : Utf16) (kind : MlsKind) (epoch : Utf16)
    (ciphertext : Bytes) (target : Option Nat)
    (hk : k = .sendMls user c device kind epoch ciphertext target) :
    Protocol.Valid machine g ((groupsExtension (Timely g)).protocol db₀) p (Extension.Idle k p)
      (sendMlsMessage user ⟨c, device, kind, epoch, ciphertext, target⟩) fun _ _ => True := by
  subst hk
  refine Protocol.Valid.bind (keeps_groups.access open_groups id id user c) (fun _ => ?_)
    fun _ _ _ _ => trivial
  refine Protocol.Valid.bind ((valid_findGroup c).pre fun _ _ h => h.1) (fun group => ?_)
    fun _ _ _ _ => trivial
  refine (keeps_groups.transaction (Q := fun _ _ => True) (R := fun _ ws w => ∃ gr ks m,
    ws = relay gr ks m ∧ Locked p .groups gr w ∧ m.groupId = gr.id ∧
      m.sequence = (entries w.store.db gr.id).length + 1 ∧
      Relays (.sendMls user c device kind epoch ciphertext target) m ∧
      (m.kind = .commit → ∀ key, key ∈ ks ↔ key = .id gr.id) ∧
      (Timely g → Follows (entries w.store.db gr.id) m)) (lasts_homed group.id c).firm ?_
    (fun _ ws w st' hi hk hh hR _ hc => ?_) fun _ => .const _ _ _).post fun _ _ _ _ => trivial
  · have called : (groupsExtension (Timely g)).Lasts db₀ fun w =>
        w.calls p = some (.sendMls user c device kind epoch ciphertext target) :=
      .of_persists (.call p _)
    have base := called.and (lasts_homed group.id c)
    refine Protocol.Valid.bind (keeps_groups.lockRows (t := .groups)
      (Q := fun (rows : List MlsGroup) w => ∀ gr, rows.head? = some gr → gr.id = group.id ∧
        Locked p .groups gr w) base.firm (fun _ h => h.1)
      (fun _ _ h => h) (fun _ _ rows now _ _ _ _ _ _ _ hrows hl gr hgr => ?_) fun rows => ?_)
      (fun rows => ?_) fun _ _ _ _ => trivial
    · have hmem := List.mem_of_mem_head? hgr
      have hid := hmem
      rw [hrows] at hid
      exact ⟨beq_iff_eq.1 (List.mem_filter.1 hid).2, hl gr hmem⟩
    · exact fun a w w' ha hi hi' hg h gr hgr => (h gr hgr).imp_right
        (stable_locked .groups gr a w w' ha hi.1 hi'.1 hg.1)
    · cases hrows : rows.head? with
      | none => exact .throw fun _ _ _ => trivial
      | some gr =>
        refine Protocol.Valid.pre (valid_relay user c device kind epoch ciphertext target rfl gr)
          fun w _ ⟨⟨⟨hk, hh⟩, hl⟩, hw⟩ => ?_
        obtain ⟨e, hl⟩ := hl gr hrows
        exact ⟨⟨⟨hk, e ▸ hh⟩, hl⟩, hw⟩
  · obtain ⟨gr, ks, m, rfl, hl, hm, hs, hr, hks, hf⟩ := hR
    exact ⟨seals_relay hi hk trivial hl hm hs hr hks hf hc, fun _ => trivial⟩

/-- The number a reader asks to go on from. -/
def cursorAfter (afterSequence : Option Utf16) : Except SqlState (Option Int) :=
  match truthy afterSequence with
  | none => .ok none
  | some s => (bigint s).map some

/-- The page of the group's messages. -/
def pageOfGroup (db : Db) (gid userId : Nat) (after : Option Int) (limit : Option Utf16) :
    Except Err (List MlsMessage) :=
  page (clamp limit 100 500) (((db .mlsMessages).filter (pickUp gid userId after)).insertionSort
    fun (a b : MlsMessage) => a.sequence ≤ b.sequence)

/-- The rows are a page of the group of the conversation, read since the call came in. -/
def PickedUp (db₀ : Db) (strict : Prop) (p : Nat) (user : AuthUser) (c : Nat)
    (afterSequence limit : Option Utf16) (rows : List MlsMessage) (w : World) : Prop :=
  ∃ w₁ gid after, ((groupsExtension strict).protocol db₀).inv w₁ ∧ w₁.store.wal <+: w.store.wal ∧
    w.arrived p ≤ w₁.store.wal.length ∧ Homed gid c w₁ ∧ Homed gid c w ∧
    cursorAfter afterSequence = .ok after ∧
    pageOfGroup w₁.store.db gid user.sub after limit = .ok rows

theorem stable_pickedUp {user : AuthUser} {c : Nat} {after limit : Option Utf16}
    {rows : List MlsMessage} : ((groupsExtension strict).protocol db₀).Stable p fun w =>
      w.calls p = some k ∧ PickedUp db₀ strict p user c after limit rows w := by
  rintro a w w' ha hi hi' hg ⟨hk, w₁, gid, n, hi₁, hp, hle, h₁, h, rest⟩
  exact ⟨hg.1.calls p k hk, w₁, gid, n, hi₁, hp.trans hg.1.wal, (hg.1.arrived p k hk).trans_le hle, h₁,
    lasts_homed gid c a w w' hi hi' hg h, rest⟩

theorem valid_optionalBigint (hr : ¬Rotates k) (hs : ¬IsSend k) (s : Option Utf16) :
    Protocol.Valid machine g ((groupsExtension strict).protocol db₀) p (Extension.Idle k p)
      (optionalBigint s)
      fun r w => Extension.Idle k p w ∧ onOk (fun after _ => cursorAfter s = .ok after) r w := by
  unfold optionalBigint
  cases h : truthy s with
  | none => exact .pure fun _ _ hw => ⟨hw, by rw [onOk, ends, cursorAfter, h]⟩
  | some s' =>
    refine Protocol.Valid.bind (keeps_groups.parameter hr hs _) (fun n => ?_)
      fun _ _ _ h => ⟨h.1, trivial⟩
    refine .pure fun _ _ hw => ⟨hw.1, ?_⟩
    have e : bigint s' = .ok n := hw.2
    rw [onOk, ends, cursorAfter, h]
    exact congrArg (Except.map some) e

theorem valid_listMls (user : AuthUser) (c : Nat) (afterSequence limit : Option Utf16)
    (hr : ¬Rotates k) (hs : ¬IsSend k) :
    Protocol.Valid machine g ((groupsExtension strict).protocol db₀) p (Extension.Idle k p)
      (listMlsMessages user c afterSequence limit)
      (onOk fun rows => PickedUp db₀ strict p user c afterSequence limit rows) := by
  refine Protocol.Valid.bind (keeps_groups.access open_groups hr hs user c) (fun _ => ?_)
    fun _ _ _ _ => trivial
  refine Protocol.Valid.bind ((valid_findGroup c).pre fun _ _ h => h.1) (fun group => ?_)
    fun _ _ _ _ => trivial
  have homed : (groupsExtension strict).Lasts db₀ (Homed group.id c) := lasts_homed _ _
  refine Protocol.Valid.bind (Protocol.Valid.frame (valid_optionalBigint hr hs afterSequence) homed)
    (fun after => ?_) fun _ _ _ _ => trivial
  refine Protocol.Valid.bind (keeps_groups.select (t := .mlsMessages)
    (Q := fun (rows : List MlsMessage) w => w.calls p = some k ∧
      ∀ rows', page (clamp limit 100 500) (rows.insertionSort fun a b => a.sequence ≤ b.sequence) =
        .ok rows' → PickedUp db₀ strict p user c afterSequence limit rows' w)
    (fun w hi ⟨⟨hidle, hc⟩, hh⟩ _ => ⟨hidle.1, fun rows' hp => ⟨w, group.id, after, hi,
      List.prefix_rfl, hi.1.arrived p, hh, hh, hc, hp⟩⟩)
    (fun rows a w w' ha hi hi' hg h => ⟨hg.1.calls p k h.1, fun rows' hp =>
      (stable_pickedUp a w w' ha hi hi' hg ⟨h.1, h.2 rows' hp⟩).2⟩)
    ((Extension.stable_idle.and (.const _ _ _)).and homed.stable)) (fun rows => ?_)
    fun _ _ _ _ => trivial
  cases hp : page (clamp limit 100 500)
      (List.insertionSort (fun a b : MlsMessage => a.sequence ≤ b.sequence) rows) with
  | error e =>
    simp only [orThrow]
    exact .throw fun _ _ _ => trivial
  | ok rows' =>
    simp only [orThrow]
    exact .pure fun w _ h => h.2.2 rows' hp

/-- How the calls of the groups end. -/
def GroupsPost (db₀ : Db) (strict : Prop) (p : Nat) :
    Call → Except Err Response → World → Prop
  | .listMls user c afterSequence limit, .ok r, w => ∃ rows, r = .mlsMessages rows ∧
      PickedUp db₀ strict p user c afterSequence limit rows w
  | _, _, _ => True

theorem serves_groups (hk : OfGroups k) :
    Protocol.Valid machine g ((groupsExtension (Timely g)).protocol db₀) p (Start p k) (code k)
      (GroupsPost db₀ (Timely g) p k) := by
  have idle : ∀ w, Start p k w → Extension.Idle k p w := fun w h => ⟨h.call, h.idle⟩
  cases k
  case enableE2ee user c gid suite welcomes =>
    refine Protocol.Valid.bind (Protocol.Valid.pre (keeps_groups.access open_groups id id user c)
      fun w _ h => idle w h) (fun _ => ?_) fun _ _ _ _ => trivial
    exact Protocol.Valid.bind ((valid_enableE2ee user c gid suite welcomes).pre fun _ _ h => h.1)
      (fun _ => .pure fun _ _ _ => trivial) fun _ _ _ _ => trivial
  case sendMls user c device kind epoch ciphertext target =>
    refine Protocol.Valid.bind (Protocol.Valid.pre (keeps_groups.access open_groups id id user c)
      fun w _ h => idle w h) (fun _ => ?_) fun _ _ _ _ => trivial
    exact Protocol.Valid.bind ((valid_sendMls user c device kind epoch ciphertext target rfl).pre
      fun _ _ h => h.1) (fun _ => .pure fun _ _ _ => trivial) fun _ _ _ _ => trivial
  case listMls user c after limit =>
    refine Protocol.Valid.bind (Protocol.Valid.pre (keeps_groups.access open_groups id id user c)
      fun w _ h => idle w h) (fun _ => ?_) fun _ _ _ _ => trivial
    exact Protocol.Valid.bind ((valid_listMls user c after limit id id).pre fun _ _ h => h.1)
      (fun rows => .pure fun _ _ h => ⟨rows, rfl, h⟩) fun _ _ _ _ => trivial
  all_goals rcases hk with h | h | h <;> cases h

theorem sound_groups (g : Nat → Op → World → Prop) (w₀ : World) :
    Protocol.Sound machine g ((groupsExtension (Timely g)).protocol w₀.store.db) (From w₀) Start
      fun p k r w => OfGroups k → GroupsPost w₀.store.db (Timely g) p k r w :=
  keeps_groups.sound id groups_may fun _ _ hk => serves_groups hk

end Calls

section Log

/-- The messages of groups in the log. -/
def mlsLog (wal : Wal) : List MlsMessage :=
  wal.filterMap fun
    | (_, .insert .mlsMessages m) => some m
    | _ => none

theorem mem_mlsLog {wal : Wal} {m : MlsMessage} :
    m ∈ mlsLog wal ↔ ∃ p, (p, Schema.Write.insert .mlsMessages m) ∈ wal := by
  rw [mlsLog, List.mem_filterMap]
  constructor
  · rintro ⟨⟨p, x⟩, hx, e⟩
    split at e
    · rename_i he
      cases he
      cases e
      exact ⟨_, hx⟩
    · cases e
  · rintro ⟨p, h⟩
    exact ⟨_, h, rfl⟩

theorem mlsLog_grows {wal wal' : Wal} (h : wal <+: wal') : mlsLog wal <+: mlsLog wal' := by
  obtain ⟨rest, rfl⟩ := h
  exact ⟨mlsLog rest, by rw [mlsLog, mlsLog, mlsLog, ← List.filterMap_append]⟩

/-- The messages of the groups are those of the log, in its order. -/
theorem mlsMessages_eq (hw : Initial w') (hi : Inv w'.store.db w) :
    w.store.db .mlsMessages = mlsLog w.store.wal := by
  have grow : ∀ (wal : Wal) (db : Db), (∀ p x, (p, x) ∈ wal → ∃ k, May k x) →
      replay db wal .mlsMessages = db .mlsMessages ++ mlsLog wal := by
    intro wal
    induction wal with
    | nil => exact fun db _ => (List.append_nil _).symm
    | cons e wal ih =>
      intro db h
      have rest := ih (e.2.apply db) fun p x hx => h p x (List.mem_cons_of_mem _ hx)
      obtain ⟨k, hk⟩ := h e.1 e.2 (List.mem_cons_self ..)
      rw [replay, List.map_cons, Schema.Write.applyAll_cons]
      refine rest.trans ?_
      obtain ⟨p, x⟩ := e
      cases x with
      | insert t r =>
        by_cases e : t = .mlsMessages
        · subst e
          rw [Schema.Write.apply_insert, List.append_assoc]
          rfl
        · rw [Schema.Write.apply_insert_of_ne _ _ (Ne.symm e)]
          cases t <;> first | rfl | exact (e rfl).elim
      | update t ks f =>
        have e : t ≠ .mlsMessages := by
          rintro rfl
          exact hk
        rw [Schema.Write.apply_update_of_ne _ _ _ e.symm]
        rfl
      | delete t ks =>
        have e : t ≠ .mlsMessages := by
          rintro rfl
          cases hk
        rw [Schema.Write.apply_delete_of_ne _ _ e.symm]
        rfl
  rw [hi.db.replay, grow _ _ fun p x hx => (hi.db.known p x hx).imp fun _ h => h.2, hw.mlsMessages,
    List.nil_append]

end Log

end Extension

end Messageries.Proofs
