import Messageries.Concurrency.Asserting
import Messageries.Proofs.Special

set_option linter.unusedSectionVars false

namespace Messageries.Proofs

open Text Relational Database Crypto Concurrency Backend

variable [AesGcm] [TokenHash]

section Notes

/-- The last thing process `p` noted. -/
def lastNote (p : Nat) (w : World) : Option Note :=
  (w.notes.filter fun n => n.process == p).getLast?

/-- Process `p` began with the event and came to no end of it. -/
def Began (p e : Nat) (w : World) : Prop :=
  ∃ n, lastNote p w = some n ∧ n.event = e ∧ n.stage = .began

/-- JetStream has a message under this identifier. -/
def Accepted (e : Nat) (w : World) : Prop := ∃ m ∈ w.stream, m.msgId = e

/-- Process `p` noted this of the event. -/
def Noted (p e : Nat) (s : Stage) (w : World) : Prop :=
  ∃ n ∈ w.notes, n.process = p ∧ n.event = e ∧ n.stage = s

/-- An event nobody failed with. -/
def blankEvent : OutboxEvent := ⟨0, .messageRead, 0, .read 0 0 [], none, 0, 0, 0, none⟩

/-- The update records that a worker failed. -/
def isFailure (f : schema.Assign .outbox) : Bool :=
  (f.set blankEvent : OutboxEvent).lastError.isSome

/-- The write records a failure of the event. -/
def postpones (e : Nat) : Write → Bool
  | .update .outbox ks f => decide (Key.id e ∈ ks) && isFailure f
  | _ => false

theorem postpones_cases {e : Nat} {x : Write} (h : postpones e x = true) :
    ∃ ks f, x = .update .outbox ks f ∧ Key.id e ∈ ks := by
  unfold postpones at h
  split at h
  · rename_i ks f
    obtain ⟨hk, -⟩ := Bool.and_eq_true_iff.1 h
    exact ⟨ks, f, rfl, of_decide_eq_true hk⟩
  · cases h

/-- How many failures of the event are committed. -/
def failures (e : Nat) (wal : Wal) : Nat := wal.countP fun x => postpones e x.2

theorem failures_append (e : Nat) (wal wal' : Wal) :
    failures e (wal ++ wal') = failures e wal + failures e wal' := by
  simp [failures]

theorem failures_eq_zero {e : Nat} {wal : Wal} (h : ∀ x ∈ wal, postpones e x.2 = false) :
    failures e wal = 0 :=
  List.countP_eq_zero.2 fun x hx => by simp [h x hx]

theorem failures_concat (e : Nat) (wal : Wal) (p : Nat) (x : Write) :
    failures e (wal ++ [(p, x)]) = failures e wal + (postpones e x).toNat := by
  rw [failures_append]
  cases h : postpones e x <;> simp [failures, h]

/-- What the notes and the stream of two worlds have to do with each other. -/
structure Grown (a : Option Nat) (w w' : World) : Prop where
  stream : w.stream <+: w'.stream
  notes : w.notes <+: w'.notes
  mine : ∀ q, a ≠ some q → lastNote q w' = lastNote q w

variable {a : Option Nat} {w w' : World} {p e : Nat} {s : Stage}

theorem Grown.of_eq (hs : w'.stream = w.stream) (hn : w'.notes = w.notes) : Grown a w w' :=
  ⟨hs ▸ List.prefix_rfl, hn ▸ List.prefix_rfl, fun q _ => by rw [lastNote, hn, lastNote]⟩

theorem Accepted.mono (h : Accepted e w) (hg : Grown a w w') : Accepted e w' := by
  obtain ⟨m, hm, he⟩ := h
  exact ⟨m, hg.stream.subset hm, he⟩

theorem Noted.mono (h : Noted p e s w) (hg : Grown a w w') : Noted p e s w' := by
  obtain ⟨n, hn, hp, he, hs⟩ := h
  exact ⟨n, hg.notes.subset hn, hp, he, hs⟩

theorem lastNote_append {n : Note} (h : w'.notes = w.notes ++ [n]) :
    lastNote p w' = if n.process = p then some n else lastNote p w := by
  rw [lastNote, h, List.filter_append]
  split
  · simp [*]
  · simp [lastNote, *]

/-- What is published is put at the end of the stream, unless it is a duplicate or lost. -/
theorem exec_published {i : Input} {o : Op} {r : Except Err o.Res}
    (h : World.exec p i o w = some (r, w')) :
    w'.stream = w.stream ∨
      ∃ t m e, o = .publish t m e ∧ w'.stream = w.stream ++ [⟨t, m, e, w.clock⟩] := by
  by_cases hf : Feeds o
  · cases o with
    | publish t m e =>
      simp only [World.exec] at h
      split at h
      · have put : (w.publish t m e).stream = w.stream ∨
            (w.publish t m e).stream = w.stream ++ [⟨t, m, e, w.clock⟩] := by
          unfold World.publish
          split
          · exact .inl rfl
          · exact .inr rfl
        exact (of_remote (S := fun w w' => w'.stream = w.stream ∨
          w'.stream = w.stream ++ [⟨t, m, e, w.clock⟩]) (.inl rfl) put h).imp_right
            fun hs => ⟨t, m, e, rfl, hs⟩
      · cases h
        exact .inl rfl
    | note e s =>
      cases h
      exact .inl rfl
    | index d =>
      obtain ⟨ds, rfl⟩ := exec_indexes h trivial
      exact .inl rfl
    | unindex c =>
      obtain ⟨ds, rfl⟩ := exec_indexes h trivial
      exact .inl rfl
    | mail m =>
      refine .inl (of_remote (S := fun w w' => w'.stream = w.stream) rfl ?_ h)
      rfl
    | _ => exact hf.elim
  · exact .inl (exec_feed h hf).stream

theorem exec_stream {i : Input} {o : Op} {r : Except Err o.Res}
    (h : World.exec p i o w = some (r, w')) : w.stream <+: w'.stream := by
  rcases exec_published h with hs | ⟨_, _, _, -, hs⟩
  · exact hs ▸ List.prefix_rfl
  · exact hs ▸ List.prefix_append _ _

/-- A process takes notes of its own only. -/
theorem exec_notes {i : Input} {o : Op} {r : Except Err o.Res}
    (h : World.exec p i o w = some (r, w')) :
    w'.notes = w.notes ∨ ∃ e s, o = .note e s ∧ w'.notes = w.notes ++ [⟨p, e, s, w.clock⟩] := by
  by_cases hf : Feeds o
  · cases o with
    | publish t m id =>
      simp only [World.exec] at h
      split at h
      · refine .inl (of_remote (S := fun w w' => w'.notes = w.notes) rfl ?_ h)
        unfold World.publish
        split <;> rfl
      · cases h
        exact .inl rfl
    | note e s =>
      cases h
      exact .inr ⟨e, s, rfl, rfl⟩
    | index d =>
      obtain ⟨ds, rfl⟩ := exec_indexes h trivial
      exact .inl rfl
    | unindex c =>
      obtain ⟨ds, rfl⟩ := exec_indexes h trivial
      exact .inl rfl
    | mail m =>
      refine .inl (of_remote (S := fun w w' => w'.notes = w.notes) rfl ?_ h)
      rfl
    | _ => exact hf.elim
  · exact .inl (exec_feed h hf).notes

theorem exec_grown {i : Input} {o : Op} {r : Except Err o.Res}
    (h : World.exec p i o w = some (r, w')) : Grown (some p) w w' := by
  have stream := exec_stream h
  rcases exec_notes h with hn | ⟨e, s, -, hn⟩
  · exact ⟨stream, hn ▸ List.prefix_rfl, fun q _ => by rw [lastNote, hn, lastNote]⟩
  · refine ⟨stream, hn ▸ List.prefix_append _ _, fun q hq => ?_⟩
    rw [lastNote_append hn, if_neg fun e => hq (congrArg some e)]

/-- A process that takes a note is served. -/
theorem served_step {i : Input} {o : Op} {r : Except Err o.Res} {k : Call}
    (h : World.exec p i o w = some (r, w')) (hk : w.calls p = some k)
    (hc : ∀ q k, w.calls q = some k → w'.calls q = some k)
    (hs : ∀ n ∈ w.notes, w.calls n.process ≠ none) : ∀ n ∈ w'.notes, w'.calls n.process ≠ none := by
  have kept : ∀ q, w.calls q ≠ none → w'.calls q ≠ none := fun q hq => by
    obtain ⟨k', hk'⟩ := Option.ne_none_iff_exists'.1 hq
    rw [hc q k' hk']
    exact Option.some_ne_none k'
  intro n hn
  rcases exec_notes h with e | ⟨_, _, -, e⟩
  · exact kept _ (hs n (e ▸ hn))
  · rw [e] at hn
    rcases List.mem_append.1 hn with hn | hn
    · exact kept _ (hs n hn)
    · rw [List.mem_singleton.1 hn]
      exact kept p (hk ▸ Option.some_ne_none k)

end Notes

section Rows

/-- What the notes and the log tell of an event. When `strict`, no worker skips its publication. -/
structure Told (strict : Prop) (w : World) (wal : Wal) (e : OutboxEvent) : Prop where
  done : e.processedAt ≠ none → (∃ p, Noted p e.id .ended w) ∧ (strict → Accepted e.id w)
  counted : e.attempts = failures e.id wal
  due : e.attempts = 0 ∧ e.nextAttemptAt = e.createdAt ∨
    ∃ n ∈ w.notes, n.event = e.id ∧ n.stage = .failed ∧ e.nextAttemptAt ≤ n.time + 3600000

/-- Every update of the outbox is about one event, which its process is through with. -/
def Owned (db : Db) (w : World) (p : Nat) (x : Write) : Prop :=
  ∀ ks f, x = .update .outbox ks f → ∃ e, Key.id e ∈ schema.keysOf .outbox (db .outbox) ∧
    (∀ k ∈ ks, k = .id e) ∧ Noted p e (if isFailure f then .failed else .ended) w

/-- What the batches keep of the outbox. -/
structure Worked (strict : Prop) (w : World) : Prop where
  told : ∀ e ∈ w.store.db .outbox, Told strict w w.store.wal e
  owned : ∀ p x, (p, x) ∈ w.store.wal → Owned w.store.db w p x
  served : ∀ n ∈ w.notes, w.calls n.process ≠ none

/-- A write of a process that is through with the event `e`. -/
inductive Marks (strict : Prop) (p : Nat) (w : World) (e : OutboxEvent) : Write → Prop
  | processed {ks : List Key} {t : Nat} : (∀ k ∈ ks, k = .id e.id) → Noted p e.id .ended w →
      (strict → Accepted e.id w) → Marks strict p w e (.update .outbox ks (setProcessed t))
  | failed {ks : List Key} {s t : Nat} {m : String} {n : Note} : (∀ k ∈ ks, k = .id e.id) →
      n ∈ w.notes → n.process = p → n.event = e.id → n.stage = .failed →
      t + s * 1000 ≤ n.time + 3600000 →
      Marks strict p w e (.update .outbox ks (setFailed (e.attempts + 1) s m t))

variable {strict : Prop} {a : Option Nat} {w w' : World} {wal : Wal} {p : Nat} {e e' : OutboxEvent}
  {x : Write} {db : Db}

theorem Told.mono (h : Told strict w wal e) (hg : Grown a w w') : Told strict w' wal e where
  done hp := by
    obtain ⟨⟨p, hn⟩, ha⟩ := h.done hp
    exact ⟨⟨p, hn.mono hg⟩, fun hs => (ha hs).mono hg⟩
  counted := h.counted
  due := h.due.imp_right fun ⟨n, hn, hd⟩ => ⟨n, hg.notes.subset hn, hd⟩

theorem Marks.mono (h : Marks strict p w e x) (hg : Grown a w w') : Marks strict p w' e x := by
  cases h with
  | processed hk hn ha => exact .processed hk (hn.mono hg) fun hs => (ha hs).mono hg
  | failed hk hn hp he hs hle => exact .failed hk (hg.notes.subset hn) hp he hs hle

/-- A row with the key of the event takes the update, and no other one does. -/
theorem Marks.apply (h : Marks strict p w e x) (hu : (schema.keysOf .outbox (db .outbox)).Nodup)
    (he : e ∈ db .outbox) (ht : ∀ e ∈ db .outbox, Told strict w wal e) :
    ∀ e ∈ x.apply db .outbox, Told strict w (wal ++ [(p, x)]) e := by
  have same : ∀ r ∈ db .outbox, (r : OutboxEvent).id = e.id → r = e := fun r hr hid =>
    Schema.eq_of_key hu hr he (event_key r) (hid ▸ event_key e)
  have other : ∀ {ks : List Key} {f : schema.Assign .outbox} {r : OutboxEvent}, r ∈ db .outbox →
      Key.id r.id ∉ ks → Told strict w (wal ++ [(p, .update .outbox ks f)]) r := by
    intro ks f r hr hk
    have none : postpones r.id (.update .outbox ks f) = false := by simp [postpones, hk]
    refine ⟨(ht r hr).done, ?_, (ht r hr).due⟩
    rw [failures_concat, none]
    exact (ht r hr).counted
  intro r' hr'
  cases h with
  | @processed ks t hk hn ha =>
    rw [Schema.Write.apply_update] at hr'
    obtain ⟨r, hr, rfl⟩ := List.mem_map.1 hr'
    split
    · rename_i hin
      obtain rfl := same r hr (Key.id.inj (hk _ hin))
      have none : postpones (r : OutboxEvent).id (.update .outbox ks (setProcessed t)) = false := by
        simp [postpones, isFailure, setProcessed]
      refine ⟨fun _ => ⟨⟨p, hn⟩, ha⟩, ?_, (ht r hr).due⟩
      show (r : OutboxEvent).attempts = failures (r : OutboxEvent).id _
      rw [failures_concat, none]
      exact (ht r hr).counted
    · exact other hr ‹_›
  | @failed ks s t m n hk hn hp he' hs hle =>
    rw [Schema.Write.apply_update] at hr'
    obtain ⟨r, hr, rfl⟩ := List.mem_map.1 hr'
    split
    · rename_i hin
      obtain rfl := same r hr (Key.id.inj (hk _ hin))
      have hin : Key.id (r : OutboxEvent).id ∈ ks := hin
      have one : postpones (r : OutboxEvent).id
          (.update .outbox ks (setFailed ((r : OutboxEvent).attempts + 1) s m t)) = true := by
        simp [postpones, isFailure, setFailed, hin]
      refine ⟨(ht r hr).done, ?_, .inr ⟨n, hn, he', hs, hle⟩⟩
      show (r : OutboxEvent).attempts + 1 = failures (r : OutboxEvent).id _
      rw [failures_concat, one]
      exact congrArg (· + 1) (ht r hr).counted
    · exact other hr ‹_›

/-- The rows a mark leaves alone. -/
theorem Marks.keeps (h : Marks strict p w e x) (he : e' ∈ db .outbox) (hid : e'.id ≠ e.id) :
    e' ∈ x.apply db .outbox := by
  have mem : ∀ {ks : List Key} {f : schema.Assign .outbox}, (∀ k ∈ ks, k = .id e.id) →
      e' ∈ (Schema.Write.update .outbox ks f).apply db .outbox := by
    intro ks f hk
    rw [Schema.Write.apply_update]
    refine List.mem_map.2 ⟨e', he, if_neg fun hin => hid (Key.id.inj (hk _ hin))⟩
  cases h with
  | processed hk _ _ => exact mem hk
  | failed hk _ _ _ _ _ => exact mem hk

theorem Marks.updates (h : Marks strict p w e x) : ∃ ks f, x = .update .outbox ks f := by
  cases h with
  | processed _ _ _ => exact ⟨_, _, rfl⟩
  | failed _ _ _ _ _ _ => exact ⟨_, _, rfl⟩

theorem Marks.owned (h : Marks strict p w e x) (he : e ∈ db .outbox) : Owned db w p x := by
  have key : Key.id e.id ∈ schema.keysOf .outbox (db .outbox) := Schema.key_mem_keysOf he
  intro ks f hx
  cases h with
  | processed hk hn _ =>
    cases hx
    exact ⟨e.id, key, hk, hn⟩
  | failed hk hn hp he' hs _ =>
    cases hx
    exact ⟨e.id, key, hk, _, hn, hp, he', hs⟩

theorem Owned.mono {db' : Db} (h : Owned db w p x) (hg : Grown a w w')
    (hk : schema.keysOf .outbox (db .outbox) ⊆ schema.keysOf .outbox (db' .outbox)) :
    Owned db' w' p x := by
  intro ks f hx
  obtain ⟨e, he, hks, hn⟩ := h ks f hx
  exact ⟨e, hk he, hks, hn.mono hg⟩

theorem marked_of_mem {es : List OutboxEvent} {ws : List Write}
    (h : List.Forall₂ (Marks strict p w) es ws) : ∀ x ∈ ws, ∃ e ∈ es, Marks strict p w e x := by
  induction h with
  | nil => exact fun x hx => (List.not_mem_nil hx).elim
  | @cons e x es ws hx _ ih =>
    intro y hy
    rcases List.mem_cons.1 hy with rfl | hy
    · exact ⟨e, List.mem_cons_self, hx⟩
    · obtain ⟨e', he', hy'⟩ := ih y hy
      exact ⟨e', List.mem_cons_of_mem _ he', hy'⟩

/-- The writes of a batch, on rows that differ. -/
theorem Told.marked {es : List OutboxEvent} {ws : List Write}
    (h : List.Forall₂ (Marks strict p w) es ws) (hd : (es.map OutboxEvent.id).Nodup)
    (hu : (schema.keysOf .outbox (db .outbox)).Nodup) (hes : ∀ e ∈ es, e ∈ db .outbox)
    (ht : ∀ e ∈ db .outbox, Told strict w wal e) :
    ∀ e ∈ Schema.Write.applyAll ws db .outbox, Told strict w (wal ++ ws.map (p, ·)) e := by
  induction h generalizing db wal with
  | nil => simpa using ht
  | @cons e x es ws hx _ ih =>
    obtain ⟨hne, hd⟩ := List.nodup_cons.1 hd
    have he := hes e List.mem_cons_self
    have unique : (schema.keysOf .outbox (x.apply db .outbox)).Nodup := by
      obtain ⟨ks, f, rfl⟩ := hx.updates
      rw [Schema.Write.apply_update, Schema.keysOf_update]
      exact hu
    have rest : ∀ e' ∈ es, e' ∈ x.apply db .outbox := fun e' he' =>
      hx.keeps (hes e' (List.mem_cons_of_mem _ he')) fun hid =>
        hne (hid ▸ List.mem_map_of_mem he')
    have := ih hd unique rest (hx.apply hu he ht)
    rw [Schema.Write.applyAll_cons, List.map_cons, List.append_cons]
    exact this

/-- A write that only adds events nobody tried. -/
def Untrying (x : Write) : Prop :=
  writesTo x = .outbox → ∃ e : OutboxEvent, x = .insert .outbox e ∧ Untried e

variable {db₀ : Db} {new : List Write}

theorem Worked.untrying (h : Worked strict w) (hg : Grown a w w') (hi' : Inv db₀ w')
    (hc : State.Commits p new w.store w'.store) (hn : ∀ x ∈ new, Untrying x)
    (hs : ∀ n ∈ w'.notes, w'.calls n.process ≠ none) : Worked strict w' := by
  have update : ∀ ks f, Schema.Write.update .outbox ks f ∉ new := fun ks f hx => by
    obtain ⟨e, he, -⟩ := hn _ hx rfl
    cases he
  have delete : ∀ ks, Schema.Write.delete .outbox ks ∉ new := fun ks hx => by
    obtain ⟨e, he, -⟩ := hn _ hx rfl
    cases he
  obtain ⟨F, rows, hdb, hF, hrows⟩ := applyAll_split (t := .outbox) (S := fun r r' => r' = r)
    (N := Untried) (fun _ => rfl) (fun _ _ _ h h' => h'.trans h) (fun _ _ h hr => h ▸ hr)
    (fun r hr => by
      obtain ⟨e, he, hu⟩ := hn _ hr rfl
      cases he
      exact hu) (fun ks f hf => (update ks f hf).elim) delete w.store.db
  rw [← hc.2] at hdb
  have silent : ∀ e, failures e (new.map (p, ·)) = 0 := fun e => failures_eq_zero fun x hx => by
    obtain ⟨y, hy, rfl⟩ := List.mem_map.1 hx
    refine Bool.eq_false_iff.2 fun hpost => ?_
    obtain ⟨ks, f, rfl, -⟩ := postpones_cases hpost
    exact update ks f hy
  have keys : schema.keysOf .outbox (w.store.db .outbox) ⊆
      schema.keysOf .outbox (w'.store.db .outbox) := fun k hk => by
    obtain ⟨r, hr, hk⟩ := List.mem_flatMap.1 hk
    refine List.mem_flatMap.2 ⟨r, ?_, hk⟩
    rw [hdb]
    exact List.mem_append_left _ (List.mem_map.2 ⟨r, hr, hF r⟩)
  refine ⟨fun e he => ?_, fun q x hx => ?_, hs⟩
  · rw [hc.1]
    rw [hdb] at he
    rcases List.mem_append.1 he with he | he
    · obtain ⟨r, hr, rfl⟩ := List.mem_map.1 he
      rw [hF r]
      have old := (h.told r hr).mono hg
      exact ⟨old.done, by rw [failures_append, silent]; exact old.counted, old.due⟩
    · obtain ⟨hp, ha, hd⟩ := hrows e he
      refine ⟨fun hne => (hne hp).elim, ?_, .inl ⟨ha, hd⟩⟩
      rw [ha, failures_append, silent]
      refine (failures_eq_zero fun x hx => Bool.eq_false_iff.2 fun hpost => ?_).symm
      obtain ⟨ks, f, hxu, hk⟩ := postpones_cases hpost
      obtain ⟨e', he', hks, -⟩ := h.owned x.1 x.2 hx ks f hxu
      obtain ⟨r, hr, hrk⟩ := List.mem_flatMap.1 he'
      have unique := hi'.ok.unique .outbox
      rw [hdb] at unique
      exact fresh_key unique hr he ((hF r).symm ▸ hrk) (hks _ hk ▸ event_key e)
  · rw [hc.1] at hx
    rcases List.mem_append.1 hx with hx | hx
    · exact (h.owned q x hx).mono hg keys
    · obtain ⟨y, hy, hyx⟩ := List.mem_map.1 hx
      cases hyx
      intro ks f e
      exact (update ks f (e ▸ hy)).elim

/-- A step that commits nothing. -/
theorem Worked.idle (h : Worked strict w) (hg : Grown a w w') (hi' : Inv db₀ w')
    (hdb : w'.store.db = w.store.db) (hwal : w'.store.wal = w.store.wal)
    (hs : ∀ n ∈ w'.notes, w'.calls n.process ≠ none) : Worked strict w' :=
  h.untrying (p := 0) hg hi' (.none hdb hwal) (by simp) hs

theorem Worked.marked (h : Worked strict w) (hg : Grown a w w') (hi : Inv db₀ w)
    (hc : State.Commits p new w.store w'.store) {es : List OutboxEvent}
    (hm : List.Forall₂ (Marks strict p w) es new) (hd : (es.map OutboxEvent.id).Nodup)
    (hes : ∀ e ∈ es, e ∈ w.store.db .outbox) (hs : ∀ n ∈ w'.notes, w'.calls n.process ≠ none) :
    Worked strict w' := by
  have made := marked_of_mem hm
  have keys : schema.keysOf .outbox (w'.store.db .outbox) =
      schema.keysOf .outbox (w.store.db .outbox) := by
    have keep : ∀ x ∈ new, Schema.Write.Keeps x := fun x hx => by
      obtain ⟨e, -, hex⟩ := made x hx
      obtain ⟨ks, f, rfl⟩ := hex.updates
      trivial
    have none : new.flatMap (Schema.Write.newKeys .outbox) = [] := by
      refine List.flatMap_eq_nil_iff.2 fun x hx => ?_
      obtain ⟨e, -, hex⟩ := made x hx
      obtain ⟨ks, f, rfl⟩ := hex.updates
      rfl
    rw [hc.2, Schema.keysOf_applyAll keep, none, List.append_nil]
  refine ⟨fun e he => ?_, fun q x hx => ?_, hs⟩
  · rw [hc.1]
    rw [hc.2] at he
    exact (Told.marked hm hd (hi.ok.unique .outbox) hes h.told e he).mono hg
  · rw [hc.1] at hx
    have old : Owned w.store.db w q x := by
      rcases List.mem_append.1 hx with hx | hx
      · exact h.owned q x hx
      · obtain ⟨y, hy, hyx⟩ := List.mem_map.1 hx
        cases hyx
        obtain ⟨e, he, hex⟩ := made _ hy
        exact hex.owned (hes e he)
    exact old.mono hg (keys ▸ List.Subset.refl _)

end Rows

section Extension

/-- What the batches keep beyond the protocol. -/
def worked (strict : Prop) : Extension where
  inv := Worked strict
  guar := Grown
  special := IsBatch
  plain := Untrying
  watches := True

variable {strict : Prop} {a : Option Nat} {w w' : World} {p : Nat} {k : Call} {i : Input} {o : Op}
  {r : Except Err o.Res} {db₀ : Db} {new : List Write}

/-- A step that leaves the feeds alone. -/
theorem worked_quiet (hi' : Inv db₀ w') (hg : Guar a w w') (hs : w'.stream = w.stream)
    (hn : w'.notes = w.notes) (hc : State.Commits p new w.store w'.store)
    (hu : ∀ x ∈ new, Untrying x) (h : Worked strict w) : Worked strict w' ∧ Grown a w w' := by
  have grown : Grown a w w' := .of_eq hs hn
  refine ⟨h.untrying grown hi' hc hu fun n hn' => ?_, grown⟩
  obtain ⟨k, hk⟩ := Option.ne_none_iff_exists'.1 (h.served n (hn ▸ hn'))
  rw [hg.calls _ k hk]
  exact Option.some_ne_none k

theorem keeps_worked : (worked strict).Keeps db₀ where
  init := by
    rintro w hw -
    refine ⟨fun e he => ?_, fun p x hx => ?_, fun n hn => ?_⟩
    · rw [hw.outbox] at he
      cases he
    · rw [hw.wal] at hx
      cases hx
    · rw [hw.notes] at hn
      cases hn
  plain := by
    rintro a w w' - hi' hg ⟨⟨p, new, hc, hn⟩, hf⟩ h
    exact worked_quiet hi' hg (hf trivial).stream (hf trivial).notes hc hn h

/-- The calls that are no batch add events only. -/
theorem worked_step (hk : ¬IsBatch k) (hc : w.calls p = some k)
    (h : World.exec p i o w = some (r, w')) (hi' : Inv db₀ w') (hg : Guar (some p) w w')
    (hx : Worked strict w) : Worked strict w' ∧ Grown (some p) w w' := by
  obtain ⟨new, hnew, -⟩ := exec_makes h
  obtain ⟨hs, hn, -⟩ := hg.worker.resolve_right (by
    rintro ⟨q, k', hq, hk', hb⟩
    cases hq
    cases hc.symm.trans hk'
    exact hk hb)
  refine worked_quiet hi' hg hs hn hnew (fun x hx he => ?_) hx
  have logged : (p, x) ∈ w'.store.wal :=
    hnew.1 ▸ List.mem_append_right _ (List.mem_map_of_mem hx)
  obtain ⟨k', hk', hm⟩ := hi'.db.known p x logged
  cases hk'.symm.trans (hg.calls p k hc)
  cases x with
  | insert t row =>
    obtain rfl : t = .outbox := he
    exact ⟨row, rfl, hm⟩
  | update t ks f =>
    obtain rfl : t = .outbox := he
    exact (hk hm.1).elim
  | delete t ks =>
    obtain rfl : t = .outbox := he
    cases hm

end Extension

section Steps

/-- Operations beside the transaction of a worker that leave the outbox alone. -/
def Beside : Op → Prop
  | .begin | .commit | .rollback | .query .tx _ | .note _ _ => False
  | .query .pool s => ∀ w, ∀ x ∈ pooled s w, writesTo x ≠ .outbox
  | .remove t _ => t ≠ .outbox
  | _ => True

/-- The operation tells another server of an event. -/
def Informs (o : Op) : Prop :=
  match o with
  | .publish _ _ _ | .index _ | .mail _ => True
  | _ => False

/-- The document of a message that was just created. -/
def createdDocument (m : MessageCreated) : Document :=
  ⟨m.messageId, m.conversationId, m.sequence, m.senderId, m.createdAt, m.body,
    m.senderId :: m.recipients⟩

/-- The mail tells one of its recipients about the message. -/
def Concerns (m : MessageCreated) (x : Mail) : Prop :=
  x.messageId = m.messageId ∧ x.conversationId = m.conversationId ∧ x.userId ∈ m.recipients

/-- Operations beside the transaction that are for the message. -/
def Within (m : MessageCreated) (o : Op) : Prop :=
  Beside o ∧
    match o with
    | .publish _ _ _ => False
    | .index d => d = createdDocument m
    | .mail x => Concerns m x
    | _ => True

variable {strict : Prop} {w w' : World} {p : Nat} {k : Call} {i : Input} {o : Op}
  {r : Except Err o.Res} {db₀ : Db}

theorem exec_beside (hi : Inv db₀ w) (ho : Beside o) (h : World.exec p i o w = some (r, w')) :
    State.Frame none w.store w'.store := by
  cases o
  case begin => exact ho.elim
  case commit => exact ho.elim
  case rollback => exact ho.elim
  case note e s => exact ho.elim
  case query c s =>
    cases c with
    | tx => exact ho.elim
    | pool =>
      rcases exec_query h with ⟨r₀, st', hq, rfl, -⟩ | ⟨-, rfl | ⟨hc, -⟩⟩
      · exact (State.query_ok hi.ok hq).2
      · exact .refl _ _
      · cases hc
  case remove t q =>
    simp only [World.exec] at h
    split at h
    · rename_i n st' hr
      have frame := (State.remove_ok hi.ok hr).2.1
      rcases remote_cases h with ⟨-, -, rfl⟩ | ⟨-, rfl | rfl⟩
      · exact frame
      · exact .refl _ _
      · exact frame
    · cases h
  all_goals
    have same : w'.store = w.store := exec_offStore h trivial
    exact same ▸ .refl _ _

/-- Process `p` took the rows and keeps the others from them; `done` are those its transaction
has marked so far, and it may have begun with the event `s`. -/
structure Tending (strict : Prop) (k : Call) (p : Nat) (rows done : List OutboxEvent)
    (s : Option Nat) (w : World) : Prop where
  base : Base k p w
  distinct : (rows.map OutboxEvent.id).Nodup
  first : done <+: rows
  locked : ∀ e ∈ rows, Locked p .outbox e w
  marks : ∀ tx, w.store.tx p = some tx →
    tx.now ≤ w.clock ∧ List.Forall₂ (Marks strict p w) done tx.writes
  begun : ∀ e, Began p e w → s = some e

variable {rows done : List OutboxEvent} {s : Option Nat}

theorem stable_tending :
    ((worked strict).protocol db₀).Stable p (Tending strict k p rows done s) := by
  intro a w w' ha hi hi' hg h
  have marks : ∀ tx, w'.store.tx p = some tx →
      tx.now ≤ w'.clock ∧ List.Forall₂ (Marks strict p w') done tx.writes := fun tx ht => by
    obtain ⟨hle, hm⟩ := h.marks tx ((hg.1.frame.tx p ha).symm.trans ht)
    exact ⟨hle.trans hg.1.clock, hm.imp fun _ _ hx => hx.mono hg.2⟩
  refine ⟨stable_base a w w' ha hi.1 hi'.1 hg.1 h.base, h.distinct, h.first, fun e he => ?_, marks,
    fun e hb => ?_⟩
  · exact stable_locked .outbox e a w w' ha hi.1 hi'.1 hg.1 (h.locked e he)
  · exact h.begun e (by rwa [Began, hg.2.mine p ha] at hb)

/-- No other process holds the event that `p` is busy with. -/
def Sole (p : Nat) (w : World) : Prop :=
  ∀ e, Began p e w → w.store.owner .outbox (.id e) = some p

theorem Tending.sole (h : Tending strict k p rows done s w)
    (hs : ∀ e, s = some e → ∃ row ∈ rows, (row : OutboxEvent).id = e) : Sole p w := by
  intro e hb
  obtain ⟨row, hrow, rfl⟩ := hs e (h.begun e hb)
  exact (h.locked row hrow).owner

/-- What `p` publishes, indexes or mails is an event of the outbox, and when it publishes, its
transaction sees an event as processed only if JetStream has it. -/
def Offers (strict : Prop) (p : Nat) (o : Op) (w : World) : Prop :=
  match o with
  | .publish type payload e =>
    (∃ row ∈ w.store.db .outbox, (row : OutboxEvent).id = e ∧
      (row : OutboxEvent).eventType = type ∧ (row : OutboxEvent).payload = payload) ∧
      ∀ row ∈ w.store.db .outbox, ∃ row' ∈ w.store.view p .outbox,
        (row' : OutboxEvent).id = (row : OutboxEvent).id ∧
          (row' : OutboxEvent).payload = (row : OutboxEvent).payload ∧
            ((row' : OutboxEvent).processedAt ≠ none → strict → Accepted (row : OutboxEvent).id w)
  | .index d => ∃ row ∈ w.store.db .outbox, ∃ m,
    (row : OutboxEvent).payload = .created m ∧ d = createdDocument m
  | .mail x => ∃ row ∈ w.store.db .outbox, ∃ m,
    (row : OutboxEvent).payload = .created m ∧ Concerns m x
  | _ => True

/-- What a worker is sure of at its operations. -/
def Busy (strict : Prop) (p : Nat) (k : Call) (o : Op) (w : World) : Prop :=
  IsBatch k → Sole p w ∧ Offers strict p o w

theorem Tending.busy (h : Tending strict k p rows done s w)
    (hs : ∀ e, s = some e → ∃ row ∈ rows, (row : OutboxEvent).id = e) (ho : ¬Informs o) :
    Busy strict p k o w := by
  refine fun _ => ⟨h.sole hs, ?_⟩
  cases o with
  | publish t m e => exact (ho trivial).elim
  | index d => exact (ho trivial).elim
  | mail x => exact (ho trivial).elim
  | _ => trivial

theorem Tending.within (h : Tending strict k p rows done s w)
    (hs : ∀ e, s = some e → ∃ row ∈ rows, (row : OutboxEvent).id = e) {row : OutboxEvent}
    (hrow : row ∈ rows) {m : MessageCreated} (hm : row.payload = .created m) (ho : Within m o) :
    Busy strict p k o w := by
  refine fun _ => ⟨h.sole hs, ?_⟩
  cases o with
  | publish t m e => exact ho.2.elim
  | index d => exact ⟨row, (h.locked row hrow).row, m, hm, ho.2⟩
  | mail x => exact ⟨row, (h.locked row hrow).row, m, hm, ho.2⟩
  | _ => trivial

theorem Marks.lawful {e : OutboxEvent} {x : Write} (h : Marks strict p w e x) (db : Db) :
    Lawful db x := by
  cases h with
  | processed _ _ _ => exact fun _ _ _ => ⟨rfl, rfl, rfl⟩
  | failed _ _ _ _ _ _ => exact fun _ _ _ => ⟨rfl, rfl, rfl⟩

/-- The outbox as the transaction sees it. -/
theorem Tending.view (h : Tending strict k p rows done s w) :
    ∃ ws, List.Forall₂ (Marks strict p w) (done.take ws.length) ws ∧
      w.store.view p = Schema.Write.applyAll ws w.store.db := by
  cases ht : w.store.tx p with
  | none => exact ⟨[], .nil, State.view_of_none ht⟩
  | some tx =>
    have hm := (h.marks tx ht).2
    exact ⟨tx.writes, hm.length_eq ▸ (List.take_length (l := done)).symm ▸ hm, State.view_of_some ht⟩

theorem Tending.offers (hi : Inv db₀ w) (hx : Worked strict w)
    (h : Tending strict k p rows done s w) {row : OutboxEvent} (hrow : row ∈ rows) :
    Offers strict p (.publish row.eventType row.payload row.id) w := by
  obtain ⟨ws, hm, view⟩ := h.view
  have early : done.take ws.length <+: rows := (List.take_prefix _ _).trans h.first
  have distinct : ((done.take ws.length).map OutboxEvent.id).Nodup :=
    (early.sublist.map _).nodup h.distinct
  have told := Told.marked hm distinct (hi.ok.unique .outbox)
    (fun e he => (h.locked e (early.subset he)).row) hx.told
  have kept : Kept w.store.db (w.store.view p) := view ▸ kept_applyAll (.of_forall (fun x hx db => by
    obtain ⟨e, -, he⟩ := marked_of_mem hm x hx
    exact he.lawful db) _)
  refine ⟨⟨row, (h.locked row hrow).row, rfl, rfl, rfl⟩, fun e he => ?_⟩
  obtain ⟨e', he', hid, -, hp⟩ := kept .outbox (by decide) e he
  refine ⟨e', he', hid, hp, fun hne hst => ?_⟩
  exact hid ▸ ((told e' (view ▸ he')).done hne).2 hst

/-- An operation beside the transaction. -/
theorem beside_step (ho : QuietOp k o) (ha : Beside o)
    (hi : ((worked strict).protocol db₀).inv w) (hw : Tending strict k p rows done s w)
    (h : World.exec p i o w = some (r, w')) :
    ((worked strict).protocol db₀).inv w' ∧ ((worked strict).protocol db₀).guar (some p) w w' ∧
      Tending strict k p rows done s w' := by
  obtain ⟨hi', hg, hs⟩ := exec_quiet hi.1 hw.base.1 hw.base.2 ho h
  have frame := exec_beside hi.1 ha h
  have grown := exec_grown h
  have notes : w'.notes = w.notes := (exec_notes h).resolve_right fun ⟨e, s, hn, _⟩ => by
    subst hn
    exact ha
  obtain ⟨new, hc, hm⟩ := exec_makes h
  have untrying : ∀ x ∈ new, Untrying x := by
    cases hm with
    | nothing => exact fun x hx => (List.not_mem_nil hx).elim
    | commit _ _ => exact ha.elim
    | query s => exact fun x hx he => (ha w x hx he).elim
    | remove t q ks =>
      intro x hx he
      cases List.mem_singleton.1 hx
      exact (ha he).elim
  have served := served_step h hw.base.1 hg.calls hi.2.served
  refine ⟨⟨hi', hi.2.untrying grown hi' hc untrying served⟩, ⟨hg, grown⟩,
    ⟨hg.calls p k hw.base.1, hs⟩, hw.distinct, hw.first, fun e he => ?_, fun tx ht => ?_,
    fun e hb => ?_⟩
  · have old := hw.locked e he
    have hr : e ∈ schema.rowsAt .outbox (schema.key .outbox e) w.store.db :=
      Schema.mem_rowsAt.2 ⟨old.row, rfl⟩
    rw [← frame.row p nofun _ _ old.owner] at hr
    exact ⟨(Schema.mem_rowsAt.1 hr).1, frame.owner p nofun _ _ old.owner⟩
  · obtain ⟨hle, hm⟩ := hw.marks tx ((frame.tx p nofun).symm.trans ht)
    exact ⟨hle.trans hg.clock, hm.imp fun _ _ hx => hx.mono grown⟩
  · exact hw.begun e (by rwa [Began, lastNote, notes] at hb)

/-- A statement of an open transaction, whether it succeeds or not. -/
theorem exec_statement {st : Stmt} {r : Except Err st.Out}
    (h : World.exec p i (.query .tx st) w = some (r, w')) :
    w'.store.db = w.store.db ∧
    (∀ t key, w.store.owner t key = some p → w'.store.owner t key = some p) ∧
    ((∃ e, r = .error e ∧ ∀ tx', w'.store.tx p = some tx' → ∃ tx, w.store.tx p = some tx ∧
        tx'.now = tx.now ∧ tx'.writes = tx.writes) ∨
      ∃ a tx, r = .ok a ∧ w.store.tx p = some tx ∧
        (st.plan (w.store.view p) (w.store.free (some p)) w.store.nextId tx.now).answer = .ok a ∧
        w' = w.withStore (w.store.stage p tx
          (st.plan (w.store.view p) (w.store.free (some p)) w.store.nextId tx.now))) := by
  have failed : ∀ e : Err, (Except.error e : Except Err st.Out) = r →
      w' = w.withStore (w.store.fail p) → w'.store.db = w.store.db ∧
      (∀ t key, w.store.owner t key = some p → w'.store.owner t key = some p) ∧
      ∃ e, r = .error e ∧ ∀ tx', w'.store.tx p = some tx' → ∃ tx, w.store.tx p = some tx ∧
        tx'.now = tx.now ∧ tx'.writes = tx.writes := by
    rintro e rfl rfl
    refine ⟨State.fail_db, fun t key ho => ?_, e, rfl, fun tx' ht => ?_⟩
    · simp only [World.withStore, State.fail]
      split <;> exact ho
    · simp only [World.withStore, State.fail] at ht
      split at ht
      · exact ⟨tx', ht, rfl, rfl⟩
      · rename_i tx htx
        simp only [Function.update_self, Option.some.injEq] at ht
        exact ⟨tx, htx, ht ▸ rfl, ht ▸ rfl⟩
  rcases exec_tx h with ⟨r₀, st', hq, rfl, rfl⟩ | ⟨rfl, rfl⟩
  · rcases State.query_cases hq with ⟨e, rfl, rfl | ⟨-, rfl⟩⟩ | ⟨tx, a, -, ht, -, rfl, ha, -, rfl⟩ |
      ⟨a, hc, -⟩
    · exact ⟨rfl, fun _ _ ho => ho, .inl ⟨_, rfl, fun tx' ht => ⟨tx', ht, rfl, rfl⟩⟩⟩
    · obtain ⟨hdb, ho, he⟩ := failed (.sql e) rfl rfl
      exact ⟨hdb, ho, .inl he⟩
    · refine ⟨rfl, fun t key ho => ?_, .inr ⟨a, tx, rfl, ht, ha, rfl⟩⟩
      simp [World.withStore, State.stage, ho]
    · cases hc
  · obtain ⟨hdb, ho, he⟩ := failed .fault rfl rfl
    exact ⟨hdb, ho, .inl he⟩

/-- Process `p` noted this of the event since its transaction began. -/
def Reported (p e : Nat) (s : Stage) (w : World) : Prop :=
  ∃ n ∈ w.notes, n.process = p ∧ n.event = e ∧ n.stage = s ∧
    ∀ tx, w.store.tx p = some tx → tx.now ≤ n.time

theorem stable_reported {e : Nat} {s : Stage} :
    ((worked strict).protocol db₀).Stable p (Reported p e s) := by
  rintro a w w' ha - - hg ⟨n, hn, hp, he, hs, hle⟩
  exact ⟨n, hg.2.notes.subset hn, hp, he, hs, fun tx ht =>
    hle tx ((hg.1.frame.tx p ha).symm.trans ht)⟩

/-- A note of the worker. -/
theorem note_step {e : Nat} {st : Stage} {r : Except Err Unit} (hk : IsBatch k)
    (hi : ((worked strict).protocol db₀).inv w) (hw : Tending strict k p rows done s w)
    (h : World.exec p i (.note e st) w = some (r, w')) :
    ((worked strict).protocol db₀).inv w' ∧ ((worked strict).protocol db₀).guar (some p) w w' ∧
      Tending strict k p rows done (if st = .began then some e else none) w' ∧
        Reported p e st w' := by
  have ho : QuietOp k (.note e st) := hk
  obtain ⟨hi', hg, hs⟩ := exec_quiet hi.1 hw.base.1 hw.base.2 ho h
  have grown := exec_grown h
  have served := served_step h hw.base.1 hg.calls hi.2.served
  cases h
  refine ⟨⟨hi', hi.2.idle grown hi' rfl rfl served⟩, ⟨hg, grown⟩, ⟨⟨hw.base.1, hs⟩, hw.distinct,
    hw.first, fun e he => ⟨(hw.locked e he).row, (hw.locked e he).owner⟩, fun tx ht => ?_, ?_⟩, ?_⟩
  · obtain ⟨hle, hm⟩ := hw.marks tx ht
    exact ⟨hle, hm.imp fun _ _ hx => hx.mono grown⟩
  · rintro e' ⟨n, hn, rfl, hst⟩
    rw [lastNote_append rfl, if_pos rfl] at hn
    cases hn
    rw [if_pos hst]
  · exact ⟨_, List.mem_append_right _ List.mem_cons_self, rfl, rfl, rfl, fun tx ht =>
      (hw.marks tx ht).1⟩

/-- A statement of the transaction that keeps the marks in order. -/
theorem statement_step {st : Stmt} {r : Except Err st.Out} (ho : QuietOp k (.query .tx st))
    (hi : ((worked strict).protocol db₀).inv w) (hw : Tending strict k p rows done s w)
    (h : World.exec p i (.query .tx st) w = some (r, w'))
    (done' : List OutboxEvent) (hd : (∃ e, r = .error e) → done' = done) (hf : done' <+: rows)
    (hm : ∀ a tx, r = .ok a → w.store.tx p = some tx →
      (st.plan (w.store.view p) (w.store.free (some p)) w.store.nextId tx.now).answer = .ok a →
      List.Forall₂ (Marks strict p w) done tx.writes →
      List.Forall₂ (Marks strict p w) done' (tx.writes ++
        (st.plan (w.store.view p) (w.store.free (some p)) w.store.nextId tx.now).writes)) :
    ((worked strict).protocol db₀).inv w' ∧ ((worked strict).protocol db₀).guar (some p) w w' ∧
      Tending strict k p rows done' s w' := by
  obtain ⟨hi', hg, hs⟩ := exec_quiet hi.1 hw.base.1 hw.base.2 ho h
  have grown := exec_grown h
  have served := served_step h hw.base.1 hg.calls hi.2.served
  have feed : SameFeed w w' := exec_feed h id
  obtain ⟨hdb, howner, hcases⟩ := exec_statement h
  have wal : w'.store.wal = w.store.wal := by
    obtain ⟨new, hc, hm⟩ := exec_makes h
    cases hm with
    | nothing => simpa using hc.1
  refine ⟨⟨hi', hi.2.idle grown hi' hdb wal served⟩, ⟨hg, grown⟩, ⟨hg.calls p k hw.base.1, hs⟩,
    hw.distinct, hf, fun e he => ?_, fun tx' ht' => ?_, fun e hb => ?_⟩
  · have old := hw.locked e he
    exact ⟨hdb ▸ old.row, howner _ _ old.owner⟩
  · rcases hcases with ⟨e, he, hsame⟩ | ⟨a, tx, ha, ht, hans, rfl⟩
    · obtain ⟨tx, ht, hnow, hwr⟩ := hsame tx' ht'
      obtain ⟨hle, hmarks⟩ := hw.marks tx ht
      rw [hd ⟨e, he⟩, hnow, hwr]
      exact ⟨hle.trans hg.clock, hmarks.imp fun _ _ hx => hx.mono grown⟩
    · obtain ⟨hle, hmarks⟩ := hw.marks tx ht
      simp only [World.withStore, State.stage, Function.update_self, Option.some.injEq] at ht'
      subst ht'
      exact ⟨hle, (hm a tx ha ht hans hmarks).imp fun _ _ hx => hx.mono grown⟩
  · exact hw.begun e (by rwa [Began, lastNote, feed.notes] at hb)

/-- The marks of a process without a transaction. -/
theorem Tending.idle (hb : Base k p w) (ht : w.store.tx p = none) (hn : ∀ e, ¬Began p e w) :
    Tending strict k p [] [] none w :=
  ⟨hb, List.nodup_nil, List.prefix_rfl, fun _ he => (List.not_mem_nil he).elim,
    fun _ h => (nomatch ht.symm.trans h), fun e h => (hn e h).elim⟩

theorem Tending.unbegun (h : Tending strict k p rows done none w) (e : Nat) : ¬Began p e w :=
  fun hb => nomatch h.begun e hb

theorem unbegun_of_eq (h : Tending strict k p rows done none w) (hf : SameFeed w w') (e : Nat) :
    ¬Began p e w' := by
  rw [Began, lastNote, hf.notes]
  exact h.unbegun e

theorem begin_step {r : Except Err Unit} (hi : ((worked strict).protocol db₀).inv w)
    (hw : Tending strict k p [] [] none w) (h : World.exec p i .begin w = some (r, w')) :
    ((worked strict).protocol db₀).inv w' ∧ ((worked strict).protocol db₀).guar (some p) w w' ∧
      Tending strict k p [] [] none w' := by
  obtain ⟨hi', hg, hs⟩ := exec_quiet hi.1 hw.base.1 hw.base.2 (o := .begin) trivial h
  have grown := exec_grown h
  have served := served_step h hw.base.1 hg.calls hi.2.served
  have feed : SameFeed w w' := exec_feed h id
  have same : w'.store.db = w.store.db ∧ w'.store.wal = w.store.wal := by
    obtain ⟨new, hc, hm⟩ := exec_makes h
    cases hm with
    | nothing => exact ⟨hc.2, by simpa using hc.1⟩
  refine ⟨⟨hi', hi.2.idle grown hi' same.1 same.2 served⟩, ⟨hg, grown⟩,
    ⟨hg.calls p k hw.base.1, hs⟩, List.nodup_nil, List.prefix_rfl,
    fun _ he => (List.not_mem_nil he).elim, fun tx ht => ?_,
    fun e hb => (unbegun_of_eq hw feed e hb).elim⟩
  have kept : ∀ tx, w.store.tx p = some tx →
      tx.now ≤ w'.clock ∧ List.Forall₂ (Marks strict p w') [] tx.writes := fun tx ht => by
    obtain ⟨hle, hm⟩ := hw.marks tx ht
    exact ⟨hle.trans hg.clock, hm.imp fun _ _ hx => hx.mono grown⟩
  have opened : ∀ {st' : State schema} {r₀ : Except SqlState Unit},
      w.store.begin p w.clock = (r₀, st') → st'.tx p = some tx →
        tx.now ≤ w'.clock ∧ List.Forall₂ (Marks strict p w') [] tx.writes := by
    intro st' r₀ hb ht
    rcases State.begin_cases hb with ⟨rfl, -⟩ | ⟨-, -, rfl⟩
    · exact kept tx ht
    · simp only [Function.update_self, Option.some.injEq] at ht
      exact ht ▸ ⟨hg.clock, .nil⟩
  obtain ⟨r₀, st', hb, ⟨-, rfl⟩ | ⟨-, rfl | rfl⟩⟩ := exec_begin h
  · exact opened hb ht
  · exact kept tx ht
  · exact opened hb ht

theorem rolled_back_step {r : Except Err Unit} (hi : ((worked strict).protocol db₀).inv w)
    (hw : Tending strict k p rows done none w) (h : World.exec p i .rollback w = some (r, w')) :
    ((worked strict).protocol db₀).inv w' ∧ ((worked strict).protocol db₀).guar (some p) w w' ∧
      Tending strict k p [] [] none w' := by
  obtain ⟨hi', hg, hs⟩ := exec_quiet hi.1 hw.base.1 hw.base.2 (o := .rollback) trivial h
  have grown := exec_grown h
  have served := served_step h hw.base.1 hg.calls hi.2.served
  have feed : SameFeed w w' := exec_feed h id
  cases h
  exact ⟨⟨hi', hi.2.idle grown hi' rfl rfl served⟩, ⟨hg, grown⟩,
    .idle ⟨hw.base.1, hs⟩ State.rollback_tx_self (unbegun_of_eq hw feed)⟩

theorem commit_step {r : Except Err Unit} (hi : ((worked strict).protocol db₀).inv w)
    (hw : Tending strict k p rows rows none w) (h : World.exec p i .commit w = some (r, w')) :
    ((worked strict).protocol db₀).inv w' ∧ ((worked strict).protocol db₀).guar (some p) w w' ∧
      Tending strict k p [] [] none w' := by
  obtain ⟨hi', hg, hs⟩ := exec_quiet hi.1 hw.base.1 hw.base.2 (o := .commit) trivial h
  have grown := exec_grown h
  have served := served_step h hw.base.1 hg.calls hi.2.served
  have feed : SameFeed w w' := exec_feed h id
  have done : Worked strict w' ∧ w'.store.tx p = none := by
    rcases exec_commit h with ⟨r₀, st', hc, rfl, -⟩ | ⟨-, rfl⟩
    · rcases State.commit_cases hc with ⟨hn, rfl⟩ | ⟨tx, -, -, rfl⟩ | ⟨tx, ht, -, rfl⟩
      · exact ⟨hi.2.idle grown hi' rfl rfl served, hn⟩
      · exact ⟨hi.2.idle grown hi' rfl rfl served, State.rollback_tx_self⟩
      · exact ⟨hi.2.marked grown hi.1 ⟨rfl, rfl⟩ (hw.marks tx ht).2 hw.distinct
          (fun e he => (hw.locked e he).row) served, State.rollback_tx_self⟩
    · exact ⟨hi.2.idle grown hi' rfl rfl served, State.rollback_tx_self⟩
  exact ⟨⟨hi', done.1⟩, ⟨hg, grown⟩,
    .idle ⟨hg.calls p k hw.base.1, hs⟩ done.2 (unbegun_of_eq hw feed)⟩

theorem nodup_firstCreated {es : List OutboxEvent} (h : (es.map OutboxEvent.id).Nodup) (n : Nat) :
    ((firstCreated n es).map OutboxEvent.id).Nodup := by
  have sorted : ((es.insertionSort fun a b => a.createdAt ≤ b.createdAt).map
      OutboxEvent.id).Nodup :=
    (((List.perm_insertionSort _ es).map OutboxEvent.id).nodup_iff).2 h
  exact ((List.take_sublist n _).map OutboxEvent.id).nodup sorted

theorem nodup_outbox (hi : Inv db₀ w) : ((w.store.db .outbox).map OutboxEvent.id).Nodup := by
  refine List.Nodup.of_map Key.id ?_
  have keys : ∀ es : List OutboxEvent,
      schema.keysOf .outbox es = (es.map OutboxEvent.id).map Key.id := by
    intro es
    induction es with
    | nil => rfl
    | cons e es ih => exact congrArg (Key.id e.id :: ·) ih
  exact keys _ ▸ hi.ok.unique .outbox

/-- What the rows of a batch are when they are picked. -/
def Chosen (strict : Prop) (k : Call) (p : Nat) : Except Err (List OutboxEvent) → World → Prop
  | .ok rows, w => Tending strict k p rows [] none w
  | .error _, w => Tending strict k p [] [] none w

theorem lock_step {n : Nat} {r : Except Err (List OutboxEvent)}
    (ho : QuietOp k (.query .tx (.lock .outbox (fun _ => due) (firstCreated n) true)))
    (hi : ((worked strict).protocol db₀).inv w) (hw : Tending strict k p [] [] none w)
    (h : World.exec p i (.query .tx (.lock .outbox (fun _ => due) (firstCreated n) true)) w =
      some (r, w')) :
    ((worked strict).protocol db₀).inv w' ∧ ((worked strict).protocol db₀).guar (some p) w w' ∧
      Chosen strict k p r w' := by
  obtain ⟨hi', hg, ht⟩ := statement_step ho hi hw h [] (fun _ => rfl) List.prefix_rfl
    fun a tx _ _ _ hm => by simpa [Schema.Stmt.plan] using hm
  refine ⟨hi', hg, ?_⟩
  obtain ⟨hdb, howner, ⟨e, rfl, -⟩ | ⟨rows, tx, rfl, htx, ha, rfl⟩⟩ := exec_statement h
  · exact ht
  · have view : w.store.view p = w.store.db := by
      rw [State.view_of_some htx, List.forall₂_nil_left_iff.1 (hw.marks tx htx).2]
      rfl
    obtain rfl := Except.ok.inj ha
    have mem : ∀ rows : List OutboxEvent, ∀ e ∈ firstCreated n rows, e ∈ rows := fun rows e he =>
      (List.mem_insertionSort _).1 (List.mem_of_mem_take he)
    refine ⟨ht.base, ?_, List.nil_prefix, fun e he => ⟨?_, if_pos ?_⟩, ht.marks, ht.begun⟩
    · refine nodup_firstCreated (List.Nodup.sublist (List.filter_sublist.map _) ?_) n
      rw [view]
      exact nodup_outbox hi.1
    · have seen : e ∈ w.store.view p .outbox := (List.mem_filter.1 (mem _ e he)).1
      rwa [view] at seen
    · exact List.mem_map.2 ⟨e, he, rfl⟩

end Steps

section Handle

variable {m : MessageCreated}

theorem within_select {t : Table} (q : t.Row → Bool) :
    (Backend.select .pool t q).Uses (Within m) :=
  (Prog.uses_perform _).2 ⟨fun _ _ hx => (List.not_mem_nil hx).elim, trivial⟩

theorem within_notifyUser {conv : Conversation} {user : User} (hc : conv.id = m.conversationId)
    (hu : user.id ∈ m.recipients) : (notifyUser m.messageId conv user).Uses (Within m) := by
  have settings : (Backend.settings).Uses (Within m) := (Prog.uses_perform _).2 ⟨trivial, trivial⟩
  have now : (Backend.now).Uses (Within m) := (Prog.uses_perform _).2 ⟨trivial, trivial⟩
  refine .ite (fun _ => trivial) fun _ => settings.bind fun cfg => now.bind fun t =>
    (within_select _).bind fun _ => any_onlyIf (Prog.Uses.tryCatch ?_ fun e => ?_)
  · have mail : (perform (.mail (newMessageMail cfg user conv m.messageId t))).Uses (Within m) :=
      (Prog.uses_perform _).2 ⟨trivial, rfl, hc, hu⟩
    refine mail.bind fun _ => Prog.Uses.bind (Prog.Uses.bind ((Prog.uses_perform _).2
      ⟨fun w x hx => ?_, trivial⟩) fun rows => ?_) fun _ => trivial
    · obtain ⟨f, -, i, rfl⟩ := Schema.Stmt.mem_plan_insert hx
      exact nofun
    · cases rows <;> trivial
  · exact .ite (fun _ => trivial) fun _ => trivial

theorem within_indexCreated (m : MessageCreated) : (indexCreated m).Uses (Within m) := by
  refine Prog.Uses.tryCatch (Prog.Uses.bind ((within_select _).bind fun _ => trivial) fun conv => ?_)
    fun _ => trivial
  cases conv with
  | none => trivial
  | some conv =>
    have settings : (Backend.settings).Uses (Within m) :=
      (Prog.uses_perform _).2 ⟨trivial, trivial⟩
    refine .ite (fun _ => settings.bind fun cfg => any_onlyIf ?_) fun _ => trivial
    exact (Prog.uses_perform _).2 ⟨trivial, rfl⟩

variable {strict : Prop} {p : Nat} {k : Call} {db₀ : Db} {g : Nat → Op → World → Prop}
  {rows done : List OutboxEvent} {s : Option Nat} {α : Type}

/-- What the processes of the workers assert. -/
abbrev Works (strict : Prop) (db₀ : Db) (g : Nat → Op → World → Prop) (p : Nat) (k : Call)
    {α : Type} (φ : World → Prop) (x : App α) (Q : Except Err α → World → Prop) : Prop :=
  Protocol.Asserts machine g ((worked strict).protocol db₀) p (Busy strict p k) φ x Q

/-- When `strict`, NATS is enabled whenever a worker asks. -/
def Enabled (strict : Prop) (g : Nat → Op → World → Prop) : Prop :=
  strict → ∀ p n w, g p (.natsEnabled n) w → (w.settings.natsEnabled && (w.nats n).js) = true

theorem Enabled.lax : Enabled False g := False.elim

/-- An operation beside the transaction, with what its answer tells. -/
theorem works_beside {o : Op} {Q : Except Err o.Res → World → Prop} (ho : QuietOp k o)
    (ha : Beside o)
    (hc : ∀ w, ((worked strict).protocol db₀).inv w → Tending strict k p rows done s w →
      Busy strict p k o w)
    (hQ : ∀ i w r w', g p o w → World.exec p i o w = some (r, w') → Q r w')
    (hst : ∀ r, ((worked strict).protocol db₀).Stable p (Q r)) :
    Works strict db₀ g p k (Tending strict k p rows done s) (perform o)
      fun r w => Tending strict k p rows done s w ∧ Q r w := by
  refine Protocol.Valid.asserts_first (Protocol.Valid.perform (fun i w r w' hi hw hg hx => ?_)
    fun r => stable_tending.and (hst r)) hc fun r => ?_
  · obtain ⟨hi', hgu, ht⟩ := beside_step ho ha hi hw hx
    exact ⟨hi', hgu, ht, hQ i w r w' hg hx⟩
  · cases r <;> trivial

/-- Code that is for the message of a row. -/
theorem works_within {x : App α} (hx : x.Uses (QuietOp k)) {m : MessageCreated}
    (ha : x.Uses (Within m)) (hs : ∀ e, s = some e → ∃ row ∈ rows, (row : OutboxEvent).id = e)
    {row : OutboxEvent} (hrow : row ∈ rows) (hm : row.payload = .created m) :
    Works strict db₀ g p k (Tending strict k p rows done s) x
      fun _ => Tending strict k p rows done s := by
  induction x with
  | pure a => exact .pure fun _ _ h => h
  | throw e => exact .throw fun _ _ h => h
  | op o next ih =>
    exact .op (fun _ => Tending strict k p rows done s)
      (fun w _ hw => hw.within hs hrow hm ha.1)
      (fun i w r w' hi hw _ h => beside_step hx.1 ha.1.1 hi hw h) (fun _ => stable_tending)
      fun r => ih r (hx.2 r) (ha.2 r)

/-- A query beside the transaction, with what it tells of the rows. -/
theorem works_select {t : Table} {q : t.Row → Bool} {Q : List t.Row → Prop}
    (hs : ∀ e, s = some e → ∃ row ∈ rows, (row : OutboxEvent).id = e)
    (hQ : ∀ db : Db, Q ((db t).filter q)) :
    Works strict db₀ g p k (Tending strict k p rows done s) (Backend.select .pool t q)
      fun r w => Tending strict k p rows done s w ∧ onOk (fun rows _ => Q rows) r w := by
  refine Protocol.Valid.asserts_first (keeps_worked.select (Q := fun rows _ => Q rows)
    (fun w _ _ _ => hQ w.store.db) (fun _ => .const _ _ _) stable_tending)
    (fun w _ hw => hw.busy hs id) fun r => ?_
  cases r <;> trivial

/-- The mails about a message go to its recipients. -/
theorem works_notifyNewMessage (hb : IsBatch k)
    (hs : ∀ e, s = some e → ∃ row ∈ rows, (row : OutboxEvent).id = e) {row : OutboxEvent}
    (hrow : row ∈ rows) {m : MessageCreated} (hm : row.payload = .created m) {ids : List Nat}
    (hids : ∀ u ∈ ids, u ∈ m.recipients) :
    Works strict db₀ g p k (Tending strict k p rows done s)
      (notifyNewMessage m.messageId m.conversationId ids)
      fun _ => Tending strict k p rows done s := by
  refine Protocol.Asserts.bind (works_select (Q := fun us => ∀ u ∈ us, (u : User).id ∈ m.recipients)
    hs fun db u hu => ?_) (fun us => ?_) fun _ _ _ h => h.1
  · exact hids _ (List.contains_iff_mem.1 (List.mem_filter.1 hu).2)
  refine (Protocol.Asserts.given fun hus => ?_).pre fun _ _ h => And.symm h
  refine Protocol.Asserts.bind (Q := fun r w => Tending strict k p rows done s w ∧
    onOk (fun o _ => ∀ c, o = some c → (c : Conversation).id = m.conversationId) r w)
    (Protocol.Asserts.bind (works_select (Q := fun cs => ∀ c ∈ cs,
      (c : Conversation).id = m.conversationId) hs fun db c hc => ?_) (fun cs => .pure fun w _ h =>
        ⟨h.1, fun c hc => h.2 c (List.mem_of_head? hc)⟩) fun _ _ _ h => ⟨h.1, trivial⟩)
    (fun conv => ?_) fun _ _ _ h => h.1
  · exact beq_iff_eq.1 (List.mem_filter.1 hc).2
  refine (Protocol.Asserts.given fun hconv => ?_).pre fun _ _ h => And.symm h
  cases conv with
  | none => exact .pure fun _ _ h => h
  | some conv =>
    exact works_within (.forM fun user => uses_notifyUser hb ..)
      (.each fun user hu => within_notifyUser (hconv conv rfl) (hus user hu)) hs hrow hm

theorem works_onMessageCreated (hb : IsBatch k)
    (hs : ∀ e, s = some e → ∃ row ∈ rows, (row : OutboxEvent).id = e) {row : OutboxEvent}
    (hrow : row ∈ rows) {m : MessageCreated} (hm : row.payload = .created m) :
    Works strict db₀ g p k (Tending strict k p rows done s) (onMessageCreated m)
      fun _ => Tending strict k p rows done s := by
  have areOnline : Works strict db₀ g p k (Tending strict k p rows done s)
      (perform (.areOnline m.recipients)) fun _ => Tending strict k p rows done s :=
    works_within ((Prog.uses_perform _).2 trivial) (m := m)
      ((Prog.uses_perform _).2 ⟨trivial, trivial⟩) hs hrow hm
  refine .ite (fun _ => .pure fun _ _ h => h) fun _ => Protocol.Asserts.bind areOnline
    (fun online => ?_) fun _ _ _ h => h
  exact .ite (fun _ => works_notifyNewMessage hb hs hrow hm fun u hu => (List.mem_filter.1 hu).1)
    fun _ => .pure fun _ _ h => h

theorem accepted_publish {w : World} {type : EventType} {payload : Payload} {msgId : Nat} :
    Accepted msgId (w.publish type payload msgId) := by
  unfold World.publish
  split
  · rename_i h
    obtain ⟨m, hm, hid⟩ := List.any_eq_true.1 h
    exact ⟨m, hm, beq_iff_eq.1 (Bool.and_eq_true_iff.1 hid).1⟩
  · exact ⟨_, List.mem_append_right _ List.mem_cons_self, rfl⟩

/-- `handle` publishes the event, unless it is allowed to skip that. -/
theorem works_handle (hb : IsBatch k)
    (hs : ∀ e, s = some e → ∃ row ∈ rows, (row : OutboxEvent).id = e) (hg : Enabled strict g)
    (worker : Nat) {row : OutboxEvent} (hrow : row ∈ rows) :
    Works strict db₀ g p k (Tending strict k p rows done s)
      (handle worker row.id row.eventType row.payload)
      fun r w => Tending strict k p rows done s w ∧
        onOk (fun _ w => strict → Accepted row.id w) r w := by
  have accepted : ∀ a w w', ((worked strict).protocol db₀).inv w →
      ((worked strict).protocol db₀).inv w' → ((worked strict).protocol db₀).guar a w w' →
      (strict → Accepted row.id w) → strict → Accepted row.id w' :=
    fun _ _ _ _ _ hgu h hst => (h hst).mono hgu.2
  have enabled : Works strict db₀ g p k (Tending strict k p rows done s)
      (perform (.natsEnabled worker)) fun r w => Tending strict k p rows done s w ∧
        onOk (fun (b : Bool) _ => strict → b = true) r w := by
    refine works_beside trivial trivial (fun w _ hw => hw.busy hs id)
      (fun i w r w' hgo hx => ?_) fun r => ?_
    · cases hx
      exact fun hst => hg hst p worker w hgo
    · cases r <;> exact .const _ _ _
  have publish : Works strict db₀ g p k (Tending strict k p rows done s)
      (perform (.publish row.eventType row.payload row.id)) fun r w =>
        Tending strict k p rows done s w ∧ onOk (fun _ w => strict → Accepted row.id w) r w := by
    refine works_beside hb trivial
      (fun w hi hw _ => ⟨hw.sole hs, hw.offers hi.1 hi.2 hrow⟩)
      (fun i w r w' _ hx => ?_) fun r => ?_
    · cases r with
      | error e => trivial
      | ok a =>
        intro _
        simp only [World.exec] at hx
        split at hx
        · rcases remote_cases hx with ⟨-, -, rfl⟩ | ⟨he, -⟩
          · exact accepted_publish
          · cases he
        · cases hx
    · cases r with
      | ok a => exact fun a w w' _ => accepted a w w'
      | error e => exact .const _ _ _
  refine Protocol.Asserts.bind enabled (fun (b : Bool) => ?_) fun _ _ _ h => ⟨h.1, trivial⟩
  have published : Works strict db₀ g p k
      (fun w => Tending strict k p rows done s w ∧ (strict → b = true))
      (onlyIf b (perform (.publish row.eventType row.payload row.id))) fun r w =>
        Tending strict k p rows done s w ∧ onOk (fun _ w => strict → Accepted row.id w) r w := by
    refine Protocol.Asserts.ite (fun _ => publish.pre fun _ _ h => h.1) fun hb => ?_
    exact .pure fun _ _ h => ⟨h.1, fun hst => (hb (h.2 hst)).elim⟩
  refine Protocol.Asserts.bind published (fun _ => ?_) fun _ _ _ h => ⟨h.1, trivial⟩
  cases hm : row.payload with
  | read c u n => exact .pure fun _ _ h => h
  | created m =>
    refine Protocol.Asserts.bind ((works_onMessageCreated hb hs hrow hm).frame accepted)
      (fun _ => ?_) fun _ _ _ h => ⟨h.1, trivial⟩
    have indexed : (indexCreated m).Uses (QuietOp k) :=
      Prog.Uses.tryCatch (uses_indexMessageIfEnabled _) fun _ => trivial
    refine ((works_within indexed (within_indexCreated m) hs hrow hm).frame accepted).post
      fun r w _ h => ⟨h.1, ?_⟩
    cases r with
    | ok a => exact h.2
    | error e => trivial

theorem works_note (hb : IsBatch k)
    (hs : ∀ e, s = some e → ∃ row ∈ rows, (row : OutboxEvent).id = e) (e : Nat) (st : Stage) :
    Works strict db₀ g p k (Tending strict k p rows done s) (perform (.note e st)) fun _ w =>
      Tending strict k p rows done (if st = .began then some e else none) w ∧ Reported p e st w := by
  refine Protocol.Valid.asserts_first (Protocol.Valid.perform (fun i w r w' hi hw _ hx => ?_)
    fun r => stable_tending.and stable_reported) (fun w _ hw => hw.busy hs id) fun r => ?_
  · exact note_step (i := i) hb hi hw hx
  · cases r <;> trivial

theorem Tending.weaken {w : World} (h : Tending strict k p rows done none w) (s : Option Nat) :
    Tending strict k p rows done s w :=
  ⟨h.base, h.distinct, h.first, h.locked, h.marks, fun e hb => (h.unbegun e hb).elim⟩

/-- What the transaction has when it is through with one more row. -/
def Marked (strict : Prop) (k : Call) (p : Nat) (rows done : List OutboxEvent) (row : OutboxEvent)
    (s : Option Nat) {α : Type} : Except Err α → World → Prop
  | .ok _, w => Tending strict k p rows (done ++ [row]) none w
  | .error _, w => Tending strict k p rows done s w

theorem works_mark {row : OutboxEvent} (hrow : done ++ [row] <+: rows)
    {f : Nat → schema.Assign .outbox} {φ : World → Prop}
    (ho : QuietOp k (.query .tx
      (.update .outbox (fun _ _ (e : OutboxEvent) => e.id == row.id) f)))
    (hm : ∀ w ks tx, φ w → w.store.tx p = some tx → (∀ key ∈ ks, key = .id row.id) →
      Marks strict p w row (.update .outbox ks (f tx.now))) :
    Works strict db₀ g p k (fun w => Tending strict k p rows done none w ∧ φ w)
      (Backend.update .tx .outbox (fun e => e.id == row.id) f)
      (Marked strict k p rows done row none) := by
  refine Protocol.Valid.asserts_first (Protocol.Valid.perform (fun i w r w' hi hw _ hx => ?_)
    fun r => ?_) (fun w _ hw => hw.1.busy nofun id) fun r => ?_
  · cases r with
    | error e =>
      exact statement_step ho hi hw.1 hx done (fun _ => rfl) hw.1.first fun a _ ha => nomatch ha
    | ok a =>
      refine statement_step ho hi hw.1 hx (done ++ [row]) (fun ⟨_, he⟩ => nomatch he) hrow
        fun a tx _ ht ha hmarks => ?_
      rw [(Schema.Stmt.plan_update ha).1]
      refine List.rel_append hmarks (.cons (hm w _ tx hw.2 ht fun key hkey => ?_) .nil)
      obtain ⟨e, he, rfl⟩ := List.mem_map.1 hkey
      exact congrArg Key.id (beq_iff_eq.1 (List.mem_filter.1 he).2)
  · cases r with
    | ok a => exact stable_tending
    | error e => exact stable_tending
  · cases r <;> trivial

theorem works_handleRow (hb : IsBatch k) (hk : ¬IsSend k)
    (hg : Enabled strict g)
    (worker : Nat) {row : OutboxEvent} (hfirst : done ++ [row] <+: rows) :
    Works strict db₀ g p k (Tending strict k p rows done none) (handleRow worker row)
      (Marked strict k p rows done row none) := by
  have free : Free k .tx .outbox := ⟨fun _ => hk, nofun⟩
  have hrow : row ∈ rows := hfirst.subset (List.mem_append_right _ List.mem_cons_self)
  have held : ∀ e, some row.id = some e → ∃ row ∈ rows, (row : OutboxEvent).id = e :=
    fun e he => ⟨row, hrow, Option.some.inj he⟩
  have lasts : ∀ a w w', ((worked strict).protocol db₀).inv w →
      ((worked strict).protocol db₀).inv w' → ((worked strict).protocol db₀).guar a w w' →
      (strict → Accepted row.id w) → strict → Accepted row.id w' :=
    fun _ _ _ _ _ hgu h hst => (h hst).mono hgu.2
  refine Protocol.Asserts.tryCatch (Q := Marked strict k p rows done row (some row.id)) ?_
    (fun e => ?_) fun _ _ _ h => h
  · refine Protocol.Asserts.bind (works_note (s := none) hb nofun row.id .began) (fun _ => ?_)
      fun _ _ _ h => h.1
    refine Protocol.Asserts.bind ((works_handle hb held hg worker hrow).pre
      fun _ _ h => h.1) (fun _ => ?_) fun _ _ _ h => h.1
    refine Protocol.Asserts.bind ((works_note hb held row.id .ended).frame lasts) (fun _ => ?_)
      fun _ _ _ h => h.1.1.weaken _
    refine Protocol.Asserts.bind ((works_mark hfirst (f := setProcessed)
      (φ := fun w => Reported p row.id .ended w ∧ (strict → Accepted row.id w))
      ⟨⟨free, fun _ now => ⟨hb, .inl ⟨now, rfl⟩⟩⟩, fun _ _ => ⟨⟨rfl, rfl, rfl⟩, trivial⟩⟩
      fun w ks tx hw _ hks => ?_).pre fun _ _ h => ⟨h.1.1, h.1.2, h.2⟩) (fun _ => ?_)
      fun _ _ _ h => h.weaken _
    · obtain ⟨⟨n, hn, hp, he, hst, -⟩, ha⟩ := hw
      exact .processed hks ⟨n, hn, hp, he, hst⟩ ha
    · exact .pure fun _ _ h => h
  · refine Protocol.Asserts.bind (works_note hb held row.id .failed) (fun _ => ?_)
      fun _ _ _ h => h.1
    refine Protocol.Asserts.bind (works_mark hfirst (φ := Reported p row.id .failed)
      ⟨⟨free, fun _ now => ⟨hb, .inr ⟨_, _, _, now, rfl⟩⟩⟩,
        fun _ _ => ⟨⟨rfl, rfl, rfl⟩, trivial⟩⟩ fun w ks tx hw ht hks => ?_) (fun _ => ?_)
      fun _ _ _ h => h
    · obtain ⟨n, hn, hp, he, hst, hle⟩ := hw
      have := hle tx ht
      exact .failed hks hn hp he hst (by omega)
    · exact .pure fun _ _ h => h

end Handle

section Batch

variable {strict : Prop} {p : Nat} {k : Call} {db₀ : Db} {g : Nat → Op → World → Prop}
  {rows done : List OutboxEvent} {α : Type}

/-- Where the transaction of a batch is when it cannot go on. -/
def Broken (strict : Prop) (k : Call) (p : Nat) (w : World) : Prop :=
  ∃ rows done, Tending strict k p rows done none w

/-- Where the batch is after its rows: through with all of them, or broken. -/
def Through (strict : Prop) (k : Call) (p : Nat) (rows done : List OutboxEvent) {α : Type} :
    Except Err α → World → Prop
  | .ok _, w => Tending strict k p rows done none w
  | .error _, w => Broken strict k p w

theorem works_rows (hb : IsBatch k) (hk : ¬IsSend k)
    (hg : Enabled strict g)
    (worker : Nat) (rest : List OutboxEvent) (hrest : done ++ rest <+: rows) :
    Works strict db₀ g p k (Tending strict k p rows done none) (rest.forM (handleRow worker))
      (Through strict k p rows (done ++ rest)) := by
  induction rest generalizing done with
  | nil =>
    refine .pure fun w _ h => ?_
    rw [List.append_nil]
    exact h
  | cons row rest ih =>
    rw [List.append_cons] at hrest ⊢
    exact Protocol.Asserts.bind (works_handleRow hb hk hg worker
      ((List.prefix_append _ rest).trans hrest)) (fun _ => ih hrest) fun _ _ _ h => ⟨_, _, h⟩

theorem works_begin :
    Works strict db₀ g p k (Tending strict k p [] [] none) (perform .begin) fun _ =>
      Tending strict k p [] [] none := by
  refine Protocol.Valid.asserts_first (Protocol.Valid.perform (fun i w r w' hi hw _ hx => ?_)
    fun _ => stable_tending) (fun w _ hw => hw.busy nofun id) fun r => ?_
  · exact begin_step (i := i) hi hw hx
  · cases r <;> trivial

/-- A transaction that is through with all its rows. -/
def Filled (strict : Prop) (k : Call) (p : Nat) (w : World) : Prop :=
  ∃ rows : List OutboxEvent, Tending strict k p rows rows none w

theorem works_commit :
    Works strict db₀ g p k (Filled strict k p) (perform .commit) fun _ =>
      Tending strict k p [] [] none := by
  refine Protocol.Valid.asserts_first (Protocol.Valid.perform
    (fun i w r w' hi ⟨rows, hw⟩ _ hx => ?_) fun _ => stable_tending)
    (fun w _ ⟨rows, hw⟩ => hw.busy nofun id) fun r => ?_
  · exact commit_step (i := i) hi hw hx
  · cases r <;> trivial

theorem works_rollback :
    Works strict db₀ g p k (Broken strict k p) (perform .rollback) fun _ =>
      Tending strict k p [] [] none := by
  refine Protocol.Valid.asserts_first (Protocol.Valid.perform
    (fun i w r w' hi ⟨rows, done, hw⟩ _ hx => ?_) fun _ => stable_tending)
    (fun w _ ⟨rows, done, hw⟩ => hw.busy nofun id) fun r => ?_
  · exact rolled_back_step (i := i) hi hw hx
  · cases r <;> trivial

theorem works_pick {n : Nat} :
    Works strict db₀ g p k (Tending strict k p [] [] none)
      (lockSkipLocked .tx .outbox due (firstCreated n)) (Chosen strict k p) := by
  refine Protocol.Valid.asserts_first (Protocol.Valid.perform (fun i w r w' hi hw _ hx => ?_)
    fun r => ?_) (fun w _ hw => hw.busy nofun id) fun r => ?_
  · exact lock_step (i := i) trivial hi hw hx
  · cases r with
    | ok rows => exact stable_tending
    | error e => exact stable_tending
  · cases r <;> trivial

/-- What a batch is about to commit, unless it is broken. -/
def Batched (strict : Prop) (k : Call) (p : Nat) : Except Err Nat → World → Prop
  | .ok _, w => Filled strict k p w
  | .error _, w => Broken strict k p w

theorem works_processBatch (hb : IsBatch k) (hk : ¬IsSend k)
    (hg : Enabled strict g)
    (worker batchSize : Nat) :
    Works strict db₀ g p k (Tending strict k p [] [] none) (processBatch worker batchSize)
      fun _ _ => True := by
  refine Protocol.Asserts.tryCatch (Q := Through strict k p [] []) ?_ (fun e => ?_)
    fun _ _ _ _ => trivial
  · refine Protocol.Asserts.bind works_begin (fun _ => ?_) fun _ _ _ h => ⟨_, _, h⟩
    refine Protocol.Asserts.bind (Q := Batched strict k p) (Protocol.Asserts.bind works_pick
      (fun rows => ?_) fun _ _ _ h => ⟨_, _, h⟩) (fun n => ?_) fun _ _ _ h => h
    · have loop : Works strict db₀ g p k (Tending strict k p rows [] none)
          (rows.forM (handleRow worker)) (Through strict k p rows rows) :=
        works_rows hb hk hg worker rows List.prefix_rfl
      exact Protocol.Asserts.bind loop (fun _ => .pure fun _ _ h => ⟨rows, h⟩) fun _ _ _ h => h
    · exact Protocol.Asserts.bind works_commit (fun _ => .pure fun _ _ h => h)
        fun _ _ _ h => ⟨_, _, h⟩
  · exact Protocol.Asserts.bind works_rollback (fun _ => .throw fun _ _ _ => trivial)
      fun _ _ _ _ => trivial

end Batch

section Runs

variable {strict : Prop} {p : Nat} {k : Call} {g : Nat → Op → World → Prop} {w₀ : World}
  {P : Pool Op Op.Res Err World Call Response}

theorem works_code (hb : IsBatch k)
    (hg : Enabled strict g) :
    Works strict w₀.store.db g p k (fun w => Start p k w ∧ ∀ e, ¬Began p e w) (code k)
      fun _ _ => True := by
  cases k with
  | processBatch worker batchSize =>
    refine Protocol.Asserts.bind ((works_processBatch hb id hg worker batchSize).pre
      fun w _ h => .idle h.1.base h.1.idle h.2) (fun n => .pure fun _ _ h => h) fun _ _ _ h => h
  | _ => exact hb.elim

theorem sound_worked
    (hg : Enabled strict g) :
    Protocol.Sound machine g ((worked strict).protocol w₀.store.db) (From w₀)
      (fun p k w => Start p k w ∧ ∀ e, ¬Began p e w) fun _ k _ _ => IsBatch k → True := by
  have keeps : (worked strict).Keeps w₀.store.db := keeps_worked
  refine Extension.soundFrom (S := fun p w => ∀ e, ¬Began p e w) (Q := fun _ _ _ _ => True)
    keeps.init (fun a w w' hi hi' hg hs hf hx => keeps.plain a w w' hi hi' hg
      (.idle (by rw [hs]) (by rw [hs]) hf) hx)
    (fun p w hi hi' hg hx => keeps.plain _ _ _ hi hi' hg (.idle rfl rfl ⟨rfl, rfl, rfl, rfl⟩) hx)
    (fun p k w w' hx he e => ?_) (fun p a w w' ha _ _ hgu h e => ?_)
    (fun p k i o w r w' hk hc _ hx _ hi' hgu hw => worked_step hk hc hx hi' hgu hw)
    fun p k hb => (works_code hb hg).valid
  · -- a process that was not served yet has no notes
    rintro ⟨n, hn, -⟩
    simp only [World.enter] at he
    split at he
    · cases he
      have mem := List.mem_filter.1 (List.mem_of_getLast? hn)
      exact hx.served n mem.1 (beq_iff_eq.1 mem.2 ▸ ‹_›)
    · cases he
  · rw [Began, hgu.2.mine p ha]
    exact h e

/-- What the notes, the stream and the log tell of the outbox in every run. -/
theorem worked_reach (h : machine.Reach (From w₀) g P)
    (hg : Enabled strict g) :
    Worked strict P.shared :=
  ((sound_worked hg).inv h).2

theorem busy_reach (h : machine.Reach (From w₀) g P)
    (hg : Enabled strict g)
    {o : Op} {next : Except Err o.Res → App Response}
    (ht : P.threads p = some ⟨k, some (.op o next)⟩) : Busy strict p k o P.shared := by
  refine (sound_worked hg).asserts (C := Busy strict) (Q := fun _ _ _ _ => True) (fun p k => ?_) h ht
  by_cases hk : IsBatch k
  · exact works_code hk hg
  · exact (((sound_worked hg).code p k).asserts ((Prog.uses_true _).mono
      fun o _ w hb => (hk hb).elim)).post fun _ _ _ _ => trivial

/-- A worker that is busy with an event holds its row. -/
theorem sole_reach (h : machine.Reach (From w₀) g P)
    {worker batchSize e : Nat} {o : Op} {next : Except Err o.Res → App Response}
    (ht : P.threads p = some ⟨.processBatch worker batchSize, some (.op o next)⟩)
    (hb : Began p e P.shared) : P.shared.store.owner .outbox (.id e) = some p :=
  (busy_reach h .lax ht trivial).1 e hb

end Runs

end Messageries.Proofs
