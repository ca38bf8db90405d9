import Mathlib.Data.List.Infix
import Messageries.Backend.SearchQuery
import Messageries.Guarantees.Notices
import Messageries.Guarantees.Search

set_option linter.unusedSectionVars false

namespace Messageries.Guarantees

open Text Relational Database Crypto Concurrency Backend Moderation Proofs

section Truth

variable [AesGcm] [TokenHash] {w₀ : World} {P P' : Run}

theorem Credible.document {w : World} {m : MessageCreated} (h : Credible m w) :
    Truthful (createdDocument m) w := by
  obtain ⟨r, hr, hid, hc, hn, hs⟩ := h.message
  refine ⟨⟨r, hr, ⟨hid, hc, hn, hs⟩, fun _ => h.body⟩, fun u hu => ?_⟩
  rcases List.mem_cons.1 hu with rfl | hu
  · exact h.sender
  · exact (h.recipients u hu).2

/-- A document stays true of what it describes. -/
theorem truthful_later (h : machine.Reachable (From w₀) P) (hl : machine.Later P P') {d : Document}
    (hd : Truthful d P.shared) : Truthful d P'.shared :=
  (sound _ w₀).leads (R := fun w w' => Truthful d w → Truthful d w') (fun _ => id)
    (fun _ _ _ hab hbc ha => hbc (hab ha))
    (fun a w w' hi hi' hg => Persists.truthful d a w w' hi hi' hg) h hl hd

theorem truthful_reach (h : machine.Reachable (From w₀) P) :
    ∀ d ∈ P.shared.documents, d ∈ w₀.documents ∨ Truthful d P.shared := by
  induction h with
  | init hw =>
    obtain ⟨-, rfl⟩ := hw
    exact fun d hd => .inl hd
  | @step P P' l hP hl hst ih =>
    have next : machine.Later P P' := .step l .refl hl hst
    have old : ∀ d ∈ P.shared.documents, d ∈ w₀.documents ∨ Truthful d P'.shared := fun d hd =>
      (ih d hd).imp_right (truthful_later hP next)
    rcases step_feeds hst with same | ⟨p, i, k, o, _, r, ht, hx⟩
    · rw [same.documents]
      exact old
    intro d hd
    rcases exec_documents hx d hd with hd | rfl
    · exact old d hd
    refine .inr (truthful_later hP next ?_)
    by_cases batch : IsBatch k
    · obtain ⟨e, he, m, hm, rfl⟩ := (busy_reach hP .lax ht batch).2
      exact (credible_of_event (reached hP) he hm).document
    · exact honest_reach hP batch ht

/-- Each document that was put into the index is of a stored message, has the text its sender wrote,
and is for users that have a seat in its conversation. -/
theorem index_truthful (h : machine.Reachable (From w₀) P) :
    ∀ d ∈ P.shared.documents, d ∈ w₀.documents ∨ Truthful d P.shared :=
  truthful_reach h

end Truth

section Index

variable [AesGcm] [TokenHash] {w₀ : World} {P : Run}

/-- A message has one document at most. -/
def Distinct (w : World) : Prop := (w.documents.map Document.messageId).Nodup

theorem Distinct.filter {w : World} (h : Distinct w) (q : Document → Bool) :
    ((w.documents.filter q).map Document.messageId).Nodup :=
  (List.filter_sublist.map _).nodup h

theorem Distinct.index {w : World} (h : Distinct w) (d : Document) : Distinct (w.index d) := by
  rw [Distinct, World.index, List.map_append]
  refine List.nodup_append'.2 ⟨h.filter _, List.nodup_singleton _, fun id hid hd => ?_⟩
  obtain ⟨e, he, rfl⟩ := List.mem_map.1 hid
  have differs := (List.mem_filter.1 he).2
  simp only [List.map_cons, List.map_nil, List.mem_singleton] at hd
  simp [hd] at differs

/-- The other operations leave the index alone. -/
theorem exec_unindexed {p : Nat} {w w' : World} {i : Input} {o : Op} {r : Except Err o.Res}
    (h : World.exec p i o w = some (r, w')) (ho : ¬Indexes o) : w'.documents = w.documents := by
  by_cases hf : Feeds o
  · cases o with
    | publish t m id =>
      simp only [World.exec] at h
      split at h
      · refine of_remote (S := fun w w' => w'.documents = w.documents) rfl ?_ h
        unfold World.publish
        split <;> rfl
      · cases h
        rfl
    | note e s =>
      cases h
      rfl
    | mail m => exact of_remote (S := fun w w' => w'.documents = w.documents) rfl (by rfl) h
    | index d => exact (ho trivial).elim
    | unindex c => exact (ho trivial).elim
    | _ => exact hf.elim
  · exact (exec_feed h hf).documents

theorem exec_distinct {p : Nat} {w w' : World} {i : Input} {o : Op} {r : Except Err o.Res}
    (h : World.exec p i o w = some (r, w')) (hd : Distinct w) : Distinct w' := by
  by_cases hf : Indexes o
  · cases o with
    | index d => exact of_remote (S := fun _ w' => Distinct w') hd (hd.index d) h
    | unindex c =>
      refine of_remote (S := fun _ w' => Distinct w') hd ?_ h
      exact hd.filter _
    | _ => exact hf.elim
  · rw [Distinct, exec_unindexed h hf]
    exact hd

theorem index_distinct (h : machine.Reachable (From w₀) P) (h₀ : Distinct w₀) :
    Distinct P.shared := by
  induction h with
  | init hw => exact hw.2 ▸ h₀
  | step l hP hl hst ih =>
    rcases step_feeds hst with same | ⟨p, i, k, o, _, r, ht, hx⟩
    · rw [Distinct, same.documents]
      exact ih
    · exact exec_distinct hx ih

end Index

section Search

variable [AesGcm] [TokenHash] [SearchServer] {w₀ : World} {P P' : Run}

/-- The document is one the request is about. -/
theorem admits_searchBody {input : SearchInput} {d : Document} :
    (searchBody input).admits d = true ↔ SearchServer.matched input.query d.content = true ∧
      input.userId ∈ d.participants ∧ ∀ c, input.conversationId = some c → d.conversationId = c := by
  cases hc : input.conversationId with
  | none => simp [searchBody, SearchBody.admits, Term.holds, hc]
  | some c => simp [searchBody, SearchBody.admits, Term.holds, hc]

/-- What a search answers with: messages of the conversations the user has a seat in, each once, and
unless there are too many all that the index has for the user. -/
structure Finds (docs : List Document) (input : SearchInput) (res : SearchResult) (w : World) :
    Prop where
  message : ∀ x ∈ res.hits, ∃ m ∈ w.store.db .messages, (m : Message).id = x.messageId ∧
    (m : Message).conversationId = x.conversationId ∧ (m : Message).sequence = x.sequence ∧
      (m : Message).senderId = x.senderId ∧
        (gone (m : Message).status = false → ∃ t, Says x.messageId t w ∧
          SearchServer.matched input.query t = true)
  seat : ∀ x ∈ res.hits, Seated w.store.db x.conversationId input.userId
  conversation : ∀ x ∈ res.hits, ∀ c, input.conversationId = some c → x.conversationId = c
  once : (res.hits.map Hit.messageId).Nodup
  length : res.hits.length = min (min (input.limit.getD 20) 100) res.total
  whole : res.hits.length < min (input.limit.getD 20) 100 → ∀ d ∈ docs,
    SearchServer.matched input.query d.content = true → input.userId ∈ d.participants →
      (∀ c, input.conversationId = some c → d.conversationId = c) →
        d.messageId ∈ res.hits.map Hit.messageId

theorem search_ok {cfg : Settings} {docs : List Document} {input : SearchInput} {res : SearchResult}
    (h : search cfg docs input = .ok res) :
    res = ⟨(searchBody input).total docs,
      (SearchServer.hits (searchBody input) docs).map (hitOf (searchBody input))⟩ := by
  unfold search at h
  split at h
  · cases h
  · split at h
    · cases h
    · rename_i on _
      cases h
      exact if_pos (by simpa using on)

/-- A search in the index as it was at any moment of the run finds what its user may see. -/
theorem search_finds (h : machine.Reachable (From w₀) P) (hl : machine.Later P P')
    (empty : w₀.documents = []) (hs : Searches) {cfg : Settings} {input : SearchInput}
    {res : SearchResult} (hres : search cfg P.shared.documents input = .ok res) :
    Finds P.shared.documents input res P'.shared := by
  have truthful : ∀ d ∈ P.shared.documents, Truthful d P'.shared := fun d hd =>
    truthful_later h hl ((truthful_reach h d hd).resolve_left (empty ▸ List.not_mem_nil))
  have distinct : Distinct P.shared := index_distinct h (by simp [Distinct, empty])
  obtain rfl := search_ok hres
  have found := hs.found (searchBody input) P.shared.documents
  have size := hs.size (searchBody input) P.shared.documents
  have hit : ∀ x ∈ (SearchServer.hits (searchBody input) P.shared.documents).map
      (hitOf (searchBody input)), ∃ d ∈ P.shared.documents, x = hitOf (searchBody input) d ∧
        (searchBody input).admits d = true := by
    intro x hx
    obtain ⟨d, hd, rfl⟩ := List.mem_map.1 hx
    obtain ⟨hd, ha⟩ := List.mem_filter.1 (found.subset hd)
    exact ⟨d, hd, rfl, ha⟩
  refine ⟨fun x hx => ?_, fun x hx => ?_, fun x hx => ?_, ?_, ?_, fun few d hd hm hu hc => ?_⟩
  · obtain ⟨d, hd, rfl, ha⟩ := hit x hx
    obtain ⟨⟨m, hm, hdm, said⟩, -⟩ := truthful d hd
    exact ⟨m, hm, hdm.id, hdm.conversationId, hdm.sequence, hdm.senderId,
      fun hv => ⟨d.content, said hv, (admits_searchBody.1 ha).1⟩⟩
  · obtain ⟨d, hd, rfl, ha⟩ := hit x hx
    exact (truthful d hd).seats _ (admits_searchBody.1 ha).2.1
  · obtain ⟨d, hd, rfl, ha⟩ := hit x hx
    exact (admits_searchBody.1 ha).2.2
  · obtain ⟨l, hp, hsub⟩ := found
    rw [List.map_map]
    exact (hp.map _).nodup_iff.1 ((hsub.map Document.messageId).nodup (distinct.filter _))
  · rw [List.length_map, size]
    simp only [SearchBody.total, searchBody, trackTotalHits]
    omega
  · rw [List.length_map, size] at few
    have all := found.perm_of_length_le (by
      rw [size, ← List.countP_eq_length_filter]
      simp only [searchBody] at few ⊢
      omega)
    rw [List.map_map]
    exact List.mem_map_of_mem (f := Hit.messageId ∘ hitOf (searchBody input))
      (all.mem_iff.2 (List.mem_filter.2 ⟨hd, admits_searchBody.2 ⟨hm, hu, hc⟩⟩))

end Search

section Example

/-- A server that looks for the query as it stands. -/
@[reducible] def exampleServer : SearchServer where
  matched query content := decide (query <:+: content)
  fragments _ content := [content]
  hits b docs := ((docs.filter fun d => decide (b.content <:+: d.content) &&
    b.filter.all (·.holds d)).insertionSort fun d d' => d'.createdAt ≤ d.createdAt).take b.size

theorem searches_example : @Searches exampleServer := by
  refine @Searches.mk exampleServer (fun b docs => ?_) fun b docs => ?_
  · exact (List.take_sublist ..).subperm.trans (List.perm_insertionSort ..).subperm
  · have taken := List.length_take (i := b.size) (l := (docs.filter
      (@SearchBody.admits exampleServer b)).insertionSort fun d d' => d'.createdAt ≤ d.createdAt)
    rwa [List.length_insertionSort, ← List.countP_eq_length_filter] at taken

/-- A message is indexed. -/
def wroteWord : List (Label Input Event Call) :=
  serve 0 (.send ⟨2, .customer⟩ 10 (text "bonjour") none) 15 ++ serve 1 (.processBatch 0 20) 15

/-- It is deleted while its recipient looks for a word of it. -/
def deleteWord : List (Label Input Event Call) :=
  List.replicate 3 (.exec 1 calm) ++ serve 2 (.softDelete ⟨2, .customer⟩ 10 100) 9

def wordSearch : SearchInput := ⟨3, text "bon", none, none⟩

def hitIds (P : Run) : Option (List Nat) :=
  match @search exampleServer P.shared.settings P.shared.documents wordSearch with
  | .ok res => some (res.hits.map Hit.messageId)
  | .error _ => none

theorem hits_of_hitIds {P : Run} {ids : List Nat} (h : hitIds P = some ids) :
    ∃ res, @search exampleServer P.shared.settings P.shared.documents wordSearch = .ok res ∧
      res.hits.map Hit.messageId = ids := by
  unfold hitIds at h
  split at h
  · exact ⟨_, ‹_›, Option.some.inj h⟩
  · cases h

def indexedWord : Ran (runFrom optedInWorld wroteWord) hitIds (some [100]) :=
  .of (by decide +kernel)

def deletedWord : Ran (runFrom optedInWorld (wroteWord ++ deleteWord))
    (fun P => (P.shared.store.db .messages).map fun (m : Message) => (m.id, gone m.status))
    [(100, true)] :=
  .of (by decide +kernel)

theorem search_finds_example : ∃ P P' res, runFrom optedInWorld wroteWord = some P ∧
    exampleMachine.run deleteWord P = some P' ∧
    @search exampleServer P.shared.settings P.shared.documents wordSearch = .ok res ∧
    res.hits.map Hit.messageId = [100] ∧
    @Finds exampleServer P.shared.documents wordSearch res P'.shared := by
  obtain ⟨P, hP, hs⟩ := indexedWord
  obtain ⟨P', hP', -⟩ := deletedWord
  obtain ⟨res, hres, hids⟩ := hits_of_hitIds hs
  rw [runFrom, Machine.run_append, ← runFrom, hP, Option.bind_some] at hP'
  exact ⟨P, P', res, hP, hP', hres, hids,
    @search_finds exampleCipher exampleHash exampleServer _ _ _ (reachable_runFrom initial_optedIn hP)
      (Machine.Leads.run .refl hP') rfl searches_example _ _ _ hres⟩

theorem index_truthful_example : ∃ P, runFrom optedInWorld (wroteWord ++ deleteWord) = some P ∧
    ∀ d ∈ P.shared.documents, d ∈ optedInWorld.documents ∨ Truthful d P.shared := by
  obtain ⟨P, hP, -⟩ := deletedWord
  exact ⟨P, hP, @index_truthful exampleCipher exampleHash _ _
    (reachable_runFrom initial_optedIn hP)⟩

end Example

end Messageries.Guarantees
