import Messageries.Backend.DekCache
import Messageries.Guarantees.Numbering

set_option linter.unusedSectionVars false

namespace Messageries.Guarantees.DekCache

open Text Crypto Concurrency Backend.EnvelopeCryptoService
open Backend (CachedDek EncryptedPayload World cacheTtlMs)
open Moderation (text)

section Meaning

variable [AesGcm] (kms : KmsProvider)

/-- The key behind an identifier. -/
def keyOf (dekId : Utf16) : Except CryptoErr Bytes :=
  match splitColons dekId with
  | keyId :: b64 :: _ =>
    match kms.decryptDataKey keyId (ofBase64 b64) with
    | some dek => .ok dek
    | none => .error .kms
  | _ => .error .typeError

def openedWith (payload : EncryptedPayload) (dek : Bytes) : Except CryptoErr Utf16 :=
  match AesGcm.decrypt dek payload.iv payload.tag payload.ciphertext with
  | some pt => .ok (encode (ofBytes pt))
  | none => .error .cipher

/-- What a payload decrypts to. -/
def plaintextOf (payload : EncryptedPayload) : Except CryptoErr Utf16 :=
  keyOf kms payload.dekId >>= openedWith payload

end Meaning

theorem length_keys_insert {α : Type*} {β : α → Type*} [DecidableEq α] (a : α) (b : β a)
    (m : AList β) : (m.insert a b).keys.length ≤ m.keys.length + 1 := by
  rw [AList.keys_insert, List.length_cons]
  exact Nat.succ_le_succ (List.erase_sublist ..).length_le

section Buffers

variable [AesGcm] {kms : KmsProvider} {s s' : Service} {dekId : Utf16} {dek : Ref}

/-- The buffer has the key behind the identifier. -/
def Unwrapped (kms : KmsProvider) (dekId : Utf16) (dek : Ref) (s : Service) : Prop :=
  .decrypted dek ∈ s.log ∧ keyOf kms dekId = .ok (s.heap dek)

/-- The key was stored within the time that a key is served. -/
def Timely (dekId : Utf16) (dek : Ref) (time : Nat) (log : List Entry) : Prop :=
  ∃ t, .stored dekId dek t ∈ log ∧ t ≤ time ∧ time < t + cacheTtlMs

/-- The cached keys are those of their identifiers, and no buffer is of two kinds. -/
structure Sane (kms : KmsProvider) (s : Service) : Prop where
  size : s.dekCache.keys.length ≤ 5001
  cached : ∀ dekId c, s.dekCache.lookup dekId = some c → Unwrapped kms dekId c.dek s ∧
    ∃ t, .stored dekId c.dek t ∈ s.log ∧ t ≤ s.clock ∧ c.expires = t + cacheTtlMs
  apart : ∀ dek, .generated dek ∈ s.log → .decrypted dek ∉ s.log
  fresh : ∀ dek, .generated dek ∈ s.log ∨ .decrypted dek ∈ s.log → dek < s.allocated
  wiped : ∀ dek, .wiped dek ∈ s.log → .generated dek ∈ s.log
  used : ∀ dek, .used dek ∈ s.log → .decrypted dek ∈ s.log
  served : ∀ later dekId dek t earlier, s.log = later ++ .served dekId dek t :: earlier →
    .decrypted dek ∈ earlier ∧ Timely dekId dek t earlier

/-- A step forgets nothing, and leaves the keys that the key service unwrapped as they are. -/
structure Preserves (s s' : Service) : Prop where
  log : s.log ⊆ s'.log
  heap : ∀ dek, .decrypted dek ∈ s.log → s'.heap dek = s.heap dek

theorem Preserves.refl (s : Service) : Preserves s s := ⟨fun _ h => h, fun _ _ => rfl⟩

theorem Unwrapped.preserved (h : Unwrapped kms dekId dek s) (hs : Preserves s s') :
    Unwrapped kms dekId dek s' :=
  ⟨hs.log h.1, h.2.trans (congrArg _ (hs.heap dek h.1).symm)⟩

theorem preserves_record (e : Entry) (s : Service) : Preserves s (s.record e) :=
  ⟨List.subset_cons_self .., fun _ _ => rfl⟩

/-- What has to be known before the entry is made. -/
def Admits (s : Service) : Entry → Prop
  | .generated dek => dek < s.allocated ∧ .decrypted dek ∉ s.log
  | .decrypted dek => dek < s.allocated ∧ .generated dek ∉ s.log
  | .stored _ _ _ => True
  | .served dekId dek t => .decrypted dek ∈ s.log ∧ Timely dekId dek t s.log
  | .used dek => .decrypted dek ∈ s.log
  | .wiped dek => .generated dek ∈ s.log

theorem Sane.record {e : Entry} (h : Sane kms s) (he : Admits s e) : Sane kms (s.record e) where
  size := h.size
  cached dekId c hc := by
    obtain ⟨hk, t, ht, h⟩ := h.cached dekId c hc
    exact ⟨hk.preserved (preserves_record e s), t, List.mem_cons_of_mem _ ht, h⟩
  apart dek h₁ h₂ := by
    rcases List.mem_cons.1 h₁ with rfl | old
    · rcases List.mem_cons.1 h₂ with h₂ | h₂
      · cases h₂
      · exact he.2 h₂
    · rcases List.mem_cons.1 h₂ with rfl | h₂
      · exact he.2 old
      · exact h.apart dek old h₂
  fresh dek hf := by
    rcases hf with hf | hf
    · rcases List.mem_cons.1 hf with rfl | hf
      · exact he.1
      · exact h.fresh dek (.inl hf)
    · rcases List.mem_cons.1 hf with rfl | hf
      · exact he.1
      · exact h.fresh dek (.inr hf)
  wiped dek hm := by
    rcases List.mem_cons.1 hm with rfl | hm
    · exact List.mem_cons_of_mem _ he
    · exact List.mem_cons_of_mem _ (h.wiped dek hm)
  used dek hm := by
    rcases List.mem_cons.1 hm with rfl | hm
    · exact List.mem_cons_of_mem _ he
    · exact List.mem_cons_of_mem _ (h.used dek hm)
  served later dekId dek t earlier hl := by
    cases later with
    | nil =>
      obtain ⟨rfl, rfl⟩ := List.cons.inj hl
      exact he
    | cons e' later => exact h.served later dekId dek t earlier (List.cons.inj hl).2

/-- Only the buffers of encryptions are written to. -/
theorem Sane.write (h : Sane kms s) (hd : .decrypted dek ∉ s.log) (b : Bytes) :
    Sane kms (s.write dek b) ∧ Preserves s (s.write dek b) := by
  have preserves : Preserves s (s.write dek b) :=
    ⟨fun _ h => h, fun dek' hm => Function.update_of_ne (fun e : dek' = dek => hd (e ▸ hm)) ..⟩
  exact ⟨{ h with
    cached := fun dekId c hc =>
      ⟨(h.cached dekId c hc).1.preserved preserves, (h.cached dekId c hc).2⟩ }, preserves⟩

theorem Sane.new (h : Sane kms s) :
    .generated s.allocated ∉ s.log ∧ .decrypted s.allocated ∉ s.log :=
  ⟨fun hm => Nat.lt_irrefl _ (h.fresh _ (.inl hm)), fun hm => Nat.lt_irrefl _ (h.fresh _ (.inr hm))⟩

theorem Sane.allocate (h : Sane kms s) (b : Bytes) :
    Sane kms (s.allocate b) ∧ Preserves s (s.allocate b) := by
  obtain ⟨sane, preserves⟩ := h.write h.new.2 b
  exact ⟨{ sane with fresh := fun dek hd => Nat.lt_succ_of_lt (sane.fresh dek hd) },
    preserves.log, preserves.heap⟩

theorem Sane.wipe (h : Sane kms s) (hg : .generated dek ∈ s.log) :
    Sane kms (s.wipe dek) ∧ Preserves s (s.wipe dek) := by
  obtain ⟨sane, preserves⟩ := h.write (fun hd => h.apart dek hg hd)
    (List.replicate (s.heap dek).length 0)
  refine ⟨sane.record hg, fun e he => List.mem_cons_of_mem _ (preserves.log he), preserves.heap⟩

theorem Sane.serve (h : Sane kms s) :
    Sane kms (s.serve dekId).2 ∧ Preserves s (s.serve dekId).2 ∧
      ∀ dek, (s.serve dekId).1 = some dek → Unwrapped kms dekId dek (s.serve dekId).2 := by
  unfold Service.serve
  cases hc : s.dekCache.lookup dekId with
  | none => exact ⟨h, .refl s, nofun⟩
  | some c =>
    obtain ⟨hk, t, ht, hle, hexp⟩ := h.cached dekId c hc
    by_cases hx : s.clock < c.expires
    · have timely : Timely dekId c.dek s.clock s.log := ⟨t, ht, hle, hexp ▸ hx⟩
      simp only [if_pos hx]
      refine ⟨h.record (e := .served dekId c.dek s.clock) ⟨hk.1, timely⟩, preserves_record _ s, ?_⟩
      rintro _ ⟨⟩
      exact hk.preserved (preserves_record _ s)
    · simp only [if_neg hx]
      exact ⟨h, .refl s, nofun⟩

theorem Sane.store (h : Sane kms s) (hk : Unwrapped kms dekId dek s) :
    Sane kms (s.store dekId dek) ∧ Preserves s (s.store dekId dek) := by
  have preserves : Preserves s (s.store dekId dek) := ⟨List.subset_cons_self .., fun _ _ => rfl⟩
  have sane : Sane kms (s.record (.stored dekId dek s.clock)) :=
    h.record (e := .stored dekId dek s.clock) trivial
  refine ⟨{ sane with size := ?_, cached := fun dekId' c hc => ?_ }, preserves⟩
  · refine (length_keys_insert ..).trans ?_
    split
    · exact Nat.le_add_left 1 5000
    · omega
  · by_cases e : dekId' = dekId
    · subst e
      simp only [Service.store, Service.record, AList.lookup_insert, Option.some.injEq] at hc
      subst hc
      exact ⟨hk.preserved preserves, s.clock, List.mem_cons_self .., Nat.le_refl _, rfl⟩
    · simp only [Service.store, Service.record, AList.lookup_insert_ne e] at hc
      split at hc
      · cases hc
      · exact sane.cached dekId' c hc

end Buffers

section Calls

variable [AesGcm] {kms : KmsProvider} {g : Nat → CryptoOp → Service → Prop} {p : Nat}

/-- Every call keeps the cache sane, and preserves what the others work with. -/
def protocol (kms : KmsProvider) : Protocol Service := ⟨Sane kms, fun _ => Preserves⟩

theorem stable_unwrapped (dekId : Utf16) (dek : Ref) :
    (protocol kms).Stable p (Unwrapped kms dekId dek) :=
  fun _ _ _ _ _ _ hg h => h.preserved hg

theorem stable_logged (e : Entry) : (protocol kms).Stable p fun s => e ∈ s.log :=
  fun _ _ _ _ _ _ hg h => hg.log h

/-- The buffer of the key, or the error that there is none. -/
def Keyed (kms : KmsProvider) (dekId : Utf16) : Except CryptoErr Ref → Service → Prop
  | .ok dek, s => Unwrapped kms dekId dek s
  | .error e, _ => keyOf kms dekId = .error e

theorem stable_keyed (dekId : Utf16) (r : Except CryptoErr Ref) :
    (protocol kms).Stable p (Keyed kms dekId r) := by
  cases r with
  | ok dek => exact stable_unwrapped dekId dek
  | error e => exact .const _ _ _

theorem valid_serve (dekId : Utf16) :
    Protocol.Valid (machine kms) g (protocol kms) p (fun _ => True) (perform (.serve dekId))
      fun r s => ∃ o, r = .ok o ∧ ∀ dek, o = some dek → Unwrapped kms dekId dek s := by
  refine Protocol.Valid.perform (fun i s r s' hs _ _ hx => ?_) fun r =>
    .exists fun o => .and (.const _ _ _) fun a s s' ha hs hs' hg h dek hd => (h dek hd).preserved hg
  cases hx
  obtain ⟨sane, preserves, hk⟩ : Sane kms (s.serve dekId).2 ∧ Preserves s (s.serve dekId).2 ∧ _ :=
    Sane.serve hs
  exact ⟨sane, preserves, _, rfl, hk⟩

theorem valid_decryptDataKey {dekId keyId b64 : Utf16} {rest : List Utf16}
    (hd : splitColons dekId = keyId :: b64 :: rest) :
    Protocol.Valid (machine kms) g (protocol kms) p (fun _ => True)
      (perform (.decryptDataKey keyId (ofBase64 b64))) (Keyed kms dekId) := by
  refine Protocol.Valid.perform (fun i s r s' hs _ _ hx => ?_) (stable_keyed dekId)
  simp only [machine, exec] at hx
  cases hk : kms.decryptDataKey keyId (ofBase64 b64) with
  | none =>
    rw [hk] at hx
    cases hx
    exact ⟨hs, .refl s, by simp [Keyed, keyOf, hd, hk]⟩
  | some b =>
    rw [hk] at hx
    cases hx
    obtain ⟨sane, preserves⟩ := Sane.allocate hs b
    refine ⟨sane.record (e := .decrypted s.allocated) ⟨Nat.lt_succ_self _, hs.new.1⟩,
      ⟨fun e he => List.mem_cons_of_mem _ (preserves.log he), preserves.heap⟩,
      List.mem_cons_self .., ?_⟩
    simp [keyOf, hd, hk, Service.record, Service.allocate, Service.write]

theorem valid_store (dekId : Utf16) (dek : Ref) :
    Protocol.Valid (machine kms) g (protocol kms) p (Unwrapped kms dekId dek)
      (perform (.store dekId dek)) fun r s => r = .ok () ∧ Unwrapped kms dekId dek s := by
  refine Protocol.Valid.perform (fun i s r s' hs hk _ hx => ?_) fun r =>
    .and (.const _ _ _) (stable_unwrapped dekId dek)
  cases hx
  obtain ⟨sane, preserves⟩ := Sane.store hs hk
  exact ⟨sane, preserves, rfl, hk.preserved preserves⟩

theorem valid_unwrapWithKms (dekId : Utf16) :
    Protocol.Valid (machine kms) g (protocol kms) p (fun _ => True)
      (unwrapWithKms dekId fun dek => perform (.store dekId dek)) (Keyed kms dekId) := by
  unfold unwrapWithKms
  split
  · rename_i keyId b64 rest hd
    refine Protocol.Valid.bind (valid_decryptDataKey hd) (fun dek => ?_) fun _ _ _ h => h
    exact Protocol.Valid.bind (valid_store dekId dek) (fun _ => .pure fun _ _ h => h.2)
      fun _ _ _ h => nomatch h.1
  · rename_i hd
    refine .throw fun s _ _ => ?_
    simp only [Keyed, keyOf]

theorem valid_unwrap (dekId : Utf16) :
    Protocol.Valid (machine kms) g (protocol kms) p (fun _ => True) (unwrap dekId)
      (Keyed kms dekId) := by
  refine Protocol.Valid.bind (valid_serve dekId) (fun cached => ?_) fun e s _ h => ?_
  · cases cached with
    | none => exact (valid_unwrapWithKms dekId).pre fun _ _ _ => trivial
    | some dek =>
      refine .pure fun s _ h => ?_
      obtain ⟨o, ho, h⟩ := h
      cases ho
      exact h dek rfl
  · obtain ⟨o, ho, -⟩ := h
    cases ho

/-- The buffer still has the key when it is used. -/
theorem valid_openWith (payload : EncryptedPayload) (dek : Ref) :
    Protocol.Valid (machine kms) g (protocol kms) p (Unwrapped kms payload.dekId dek)
      (openWith payload dek) fun r _ => r = plaintextOf kms payload := by
  refine Protocol.Valid.bind (Q := fun r _ => (r.map fun pt => encode (ofBytes pt)) =
    plaintextOf kms payload) (Protocol.Valid.perform (fun i s r s' hs hk _ hx => ?_) fun r =>
      .const _ _ _) (fun pt => .pure fun _ _ h => h) fun _ _ _ h => h
  have used : Sane kms (s.record (.used dek)) := hs.record (e := .used dek) hk.1
  have plain : plaintextOf kms payload = openedWith payload (s.heap dek) := by
    rw [plaintextOf, hk.2]
    rfl
  rw [plain, openedWith]
  simp only [machine, exec] at hx
  cases hpt : AesGcm.decrypt (s.heap dek) payload.iv payload.tag payload.ciphertext with
  | some pt =>
    rw [hpt] at hx
    cases hx
    exact ⟨used, preserves_record _ s, rfl⟩
  | none =>
    rw [hpt] at hx
    cases hx
    exact ⟨used, preserves_record _ s, rfl⟩

theorem valid_decrypt (payload : EncryptedPayload) :
    Protocol.Valid (machine kms) g (protocol kms) p (fun _ => True) (decrypt payload)
      fun r _ => r = plaintextOf kms payload :=
  Protocol.Valid.bind (valid_unwrap payload.dekId) (fun dek => valid_openWith payload dek)
    fun e _ _ h => by rw [plaintextOf, show keyOf kms payload.dekId = .error e from h]; rfl

theorem valid_encrypt (plaintext : Utf16) :
    Protocol.Valid (machine kms) g (protocol kms) p (fun _ => True) (encrypt plaintext)
      fun _ _ => True := by
  have generate : Protocol.Valid (machine kms) g (protocol kms) p (fun _ => True)
      (perform .generateDataKey) fun r s => ∀ key, r = .ok key → .generated key.2.1 ∈ s.log := by
    refine Protocol.Valid.perform (fun i s r s' hs _ _ hx => ?_) fun r a s s' _ _ _ hg h key hk =>
      hg.log (h key hk)
    simp only [machine, exec] at hx
    split at hx
    · cases hx
      obtain ⟨sane, preserves⟩ := Sane.allocate hs _
      refine ⟨sane.record (e := .generated s.allocated) ⟨Nat.lt_succ_self _, hs.new.2⟩,
        ⟨fun e he => List.mem_cons_of_mem _ (preserves.log he), preserves.heap⟩, ?_⟩
      rintro key ⟨⟩
      exact List.mem_cons_self ..
    · cases hx
      exact ⟨hs, .refl s, nofun⟩
  have reads : ∀ (dek : Ref) (o : CryptoOp),
      (∀ i s, (exec kms i o s).2 = s) → Protocol.Valid (machine kms) g (protocol kms) p
        (fun s => .generated dek ∈ s.log) (perform o) fun _ s => .generated dek ∈ s.log := by
    refine fun dek o ho => Protocol.Valid.perform (fun i s r s' hs hk _ hx => ?_) fun _ =>
      stable_logged _
    obtain rfl : s = s' := (ho i s).symm.trans (congrArg Prod.snd (Option.some.inj hx))
    exact ⟨hs, .refl s, hk⟩
  refine Protocol.Valid.bind generate (fun key => ?_) fun _ _ _ _ => trivial
  obtain ⟨keyId, dek, wrappedDek⟩ := key
  refine Protocol.Valid.bind ((reads dek (.random 12) fun _ _ => rfl).pre fun _ _ h => h _ rfl)
    (fun iv => ?_) fun _ _ _ _ => trivial
  refine Protocol.Valid.bind (reads dek (.cipher dek iv.1 _) fun _ _ => rfl) (fun c => ?_)
    fun _ _ _ _ => trivial
  refine Protocol.Valid.bind (Q := fun _ _ => True) (Protocol.Valid.perform
    (fun i s r s' hs hk _ hx => ?_) fun _ => .const _ _ _) (fun _ => .pure fun _ _ h => h)
    fun _ _ _ h => h
  cases hx
  exact ⟨(Sane.wipe hs hk).1, (Sane.wipe hs hk).2, trivial⟩

/-- How a call ends. -/
def Post (kms : KmsProvider) (_ : Nat) : CryptoCall → Except CryptoErr CryptoResponse → Service → Prop
  | .encrypt _, _, _ => True
  | .decrypt payload, r, _ => r = (plaintextOf kms payload).map .opened

/-- A service that has just started. -/
def Started (s : Service) : Prop := s.dekCache = ∅ ∧ s.log = []

theorem sane_started {s : Service} (h : Started s) : Sane kms s where
  size := by simp [h.1]
  cached dekId c hc := by simp [h.1] at hc
  apart dek hm := by simp [h.2] at hm
  fresh dek hm := by simp [h.2] at hm
  wiped dek hm := by simp [h.2] at hm
  used dek hm := by simp [h.2] at hm
  served later dekId dek t earlier hl := by simp [h.2] at hl

theorem sound (kms : KmsProvider) : Protocol.Sound (machine kms) g (protocol kms) Started
    (fun _ _ _ => True) (Post kms) where
  init _ h := sane_started h
  event ms s s' hs hx := by
    cases hx
    refine ⟨{ hs with cached := fun dekId c hc => ?_ }, fun _ h => h, fun _ _ => rfl⟩
    obtain ⟨hk, t, ht, hle, hexp⟩ := hs.cached dekId c hc
    exact ⟨hk, t, ht, Nat.le_add_right_of_le hle, hexp⟩
  enter p k s s' hs hx := by
    cases hx
    exact ⟨hs, .refl s, trivial⟩
  lose p s hs := ⟨hs, .refl s⟩
  start _ _ := .const _ _ _
  code p k := by
    cases k with
    | encrypt plaintext =>
      exact Protocol.Valid.bind (valid_encrypt plaintext) (fun _ => .pure fun _ _ _ => trivial)
        fun _ _ _ _ => trivial
    | decrypt payload =>
      refine Protocol.Valid.bind (valid_decrypt payload) (fun pt => .pure fun _ _ h => ?_)
        fun e _ _ h => ?_
      · exact congrArg (Except.map CryptoResponse.opened) h
      · exact congrArg (Except.map CryptoResponse.opened) h

end Calls

section Image

variable [AesGcm] {kms : KmsProvider} {s s' : Service} {dekId : Utf16} {dek : Ref}

/-- The cache with the bytes of its keys, as the requests see it. -/
def image (s : Service) : List CachedDek :=
  s.dekCache.entries.map fun e => ⟨e.1, s.heap e.2.dek, e.2.expires⟩

theorem kerase_eq_filter {α : Type*} {β : α → Type*} [DecidableEq α] (a : α)
    {l : List (Sigma β)} (h : l.NodupKeys) : l.kerase a = l.filter fun e => e.1 ≠ a := by
  induction l with
  | nil => rfl
  | cons e l ih =>
    obtain ⟨hn, hl⟩ := List.nodupKeys_cons.1 h
    by_cases he : a = e.1
    · subst he
      rw [List.kerase_cons_eq rfl, List.filter_cons_of_neg (by simp)]
      have apart : ∀ e' ∈ l, e'.1 ≠ e.1 := fun e' he' hk => hn (hk ▸ List.mem_keys_of_mem he')
      exact (List.filter_eq_self.2 (by simpa using apart)).symm
    · rw [List.kerase_cons_ne he, List.filter_cons_of_pos (by simpa using Ne.symm he), ih hl]

theorem image_store (w : World) (h : w.dekCache = image s) :
    (w.cachePut ⟨dekId, s.heap dek, s.clock + cacheTtlMs⟩).dekCache = image (s.store dekId dek) := by
  have size : w.dekCache.length = s.dekCache.keys.length := by
    simp [h, image, AList.keys, List.keys]
  have insert : ∀ m : AList fun _ : Utf16 => Cached,
      ((m.insert dekId ⟨dek, s.clock + cacheTtlMs⟩).entries.map fun e =>
        (⟨e.1, s.heap e.2.dek, e.2.expires⟩ : CachedDek)) =
      ⟨dekId, s.heap dek, s.clock + cacheTtlMs⟩ ::
        (m.entries.map fun e => (⟨e.1, s.heap e.2.dek, e.2.expires⟩ : CachedDek)).filter
          fun c => c.dekId != dekId := by
    intro m
    rw [AList.entries_insert, kerase_eq_filter dekId m.nodupKeys, List.map_cons, List.filter_map]
    congr 3
    funext e
    by_cases he : e.1 = dekId <;> simp [he]
  simp only [World.cachePut, size]
  split
  · exact (insert ∅).symm.trans (by simp [image, Service.store, Service.record, *])
  · rw [h]
    exact (insert s.dekCache).symm.trans (by simp [image, Service.store, Service.record, *])

/-- What is served has the bytes that the image has. -/
theorem image_serve : (s.serve dekId).1.map s.heap =
    (((image s).find? fun c => c.dekId == dekId).filter fun c => s.clock < c.expires).map
      CachedDek.dek := by
  have find : (image s).find? (fun c => c.dekId == dekId) = (s.dekCache.lookup dekId).map
      fun c => ⟨dekId, s.heap c.dek, c.expires⟩ := by
    have look : s.dekCache.entries.find? (fun e => dekId = e.1) =
        (s.dekCache.lookup dekId).map (Sigma.mk dekId) :=
      (List.map_dlookup_eq_find dekId s.dekCache.entries).symm
    have same : (fun c : CachedDek => c.dekId == dekId) ∘
        (fun e : (_ : Utf16) × Cached => ⟨e.1, s.heap e.2.dek, e.2.expires⟩) =
        fun e => decide (dekId = e.1) := by
      funext e
      by_cases he : dekId = e.1
      · simp [he]
      · simp [he, Ne.symm he]
    rw [image, List.find?_map, same, look, Option.map_map]
    rfl
  rw [find, Service.serve]
  cases s.dekCache.lookup dekId with
  | none => rfl
  | some c =>
    by_cases hx : s.clock < c.expires
    · simp [hx]
    · simp [hx, Nat.not_lt.1 hx]

/-- The image changes with a store only. -/
theorem image_exec {random : Nat → UInt8} {o : CryptoOp} (h : Sane kms s)
    (hs : Preserves s (exec kms random o s).2) : image (exec kms random o s).2 = match o with
      | .store dekId dek => image (s.store dekId dek)
      | _ => image s := by
  have kept : (exec kms random o s).2.dekCache = s.dekCache →
      image (exec kms random o s).2 = image s := by
    intro same
    rw [image, image, same]
    refine List.map_congr_left fun e he => ?_
    have hc : s.dekCache.lookup e.1 = some e.2 := AList.mem_lookup_iff.2 he
    rw [hs.heap e.2.dek (h.cached e.1 e.2 hc).1.1]
  cases o with
  | store dekId dek => rfl
  | generateDataKey =>
    refine kept ?_
    simp only [exec]
    split <;> rfl
  | random n => rfl
  | cipher dek iv plaintext => rfl
  | wipe dek => exact kept rfl
  | serve dekId =>
    refine kept ?_
    simp only [exec, Service.serve]
    split
    · split <;> rfl
    · rfl
  | decryptDataKey keyId ciphertext =>
    refine kept ?_
    simp only [exec]
    split <;> rfl
  | decipher dek iv tag ciphertext =>
    refine kept ?_
    simp only [exec]
    split <;> rfl

end Image

section Uncached

variable [AesGcm] {kms : KmsProvider} {random : Nat → UInt8} {payload : EncryptedPayload}

theorem eval_openWith (dek : Ref) (s : Service) :
    (openWith payload dek).eval (fun o s => some (exec kms random o s)) s =
      some (openedWith payload (s.heap dek), s.record (.used dek)) := by
  simp only [openWith, openedWith, perform, Prog.perform, Bind.bind, Prog.bind, Prog.eval, exec]
  cases AesGcm.decrypt (s.heap dek) payload.iv payload.tag payload.ciphertext with
  | none => rfl
  | some pt => rfl

/-- Without the cache a payload decrypts to the same from any state. -/
theorem eval_uncached (s : Service) :
    ∃ s', (decryptUncached payload).eval (fun o s => some (exec kms random o s)) s =
      some (plaintextOf kms payload, s') := by
  have malformed : (∀ keyId b64 rest, splitColons payload.dekId ≠ keyId :: b64 :: rest) →
      ∃ s', (decryptUncached payload).eval (fun o s => some (exec kms random o s)) s =
        some (plaintextOf kms payload, s') := by
    intro hd
    refine ⟨s, ?_⟩
    simp only [decryptUncached, unwrapWithKms, plaintextOf, keyOf]
    rfl
  cases hd : splitColons payload.dekId with
  | nil => exact malformed (by simp [hd])
  | cons keyId parts =>
    cases parts with
    | nil => exact malformed (by simp [hd])
    | cons b64 rest =>
      simp only [decryptUncached, unwrapWithKms, plaintextOf, keyOf, hd]
      cases hk : kms.decryptDataKey keyId (ofBase64 b64) with
      | none =>
        refine ⟨s, ?_⟩
        simp only [perform, Prog.perform, Bind.bind, Prog.bind, Prog.eval, exec, hk]
        rfl
      | some dek =>
        have opens : (openWith payload s.allocated).eval (fun o s => some (exec kms random o s))
            ((s.allocate dek).record (.decrypted s.allocated)) = _ := eval_openWith _ _
        have new : ((s.allocate dek).record (.decrypted s.allocated)).heap s.allocated = dek :=
          Function.update_self ..
        rw [new] at opens
        refine ⟨_, Eq.trans ?_ opens⟩
        simp only [perform, Prog.perform, Bind.bind, Prog.bind, Prog.eval, exec, hk]
        rfl

theorem eval_codeUncached (s : Service) :
    ∃ s', (codeUncached (.decrypt payload)).eval (fun o s => some (exec kms random o s)) s =
      some ((plaintextOf kms payload).map .opened, s') := by
  obtain ⟨s', hs⟩ : ∃ s', (decryptUncached payload).eval (fun o s => some (exec kms random o s)) s =
      some (plaintextOf kms payload, s') := eval_uncached s
  refine ⟨s', (Prog.eval_bind _ hs).trans ?_⟩
  cases plaintextOf kms payload <;> rfl

end Uncached

section Transparency

variable [AesGcm] {kms : KmsProvider}
  {P : Pool CryptoOp CryptoOp.Res CryptoErr Service CryptoCall CryptoResponse}

/-- Call `p` ended with the result. -/
def Ended (P : Pool CryptoOp CryptoOp.Res CryptoErr Service CryptoCall CryptoResponse) (p : Nat)
    (k : CryptoCall) : Except CryptoErr CryptoResponse → Prop
  | .ok a => P.threads p = some ⟨k, some (.pure a)⟩
  | .error e => P.threads p = some ⟨k, some (.throw e)⟩

/-- Decryption comes to its end and does not depend on the cache; a key is served for a minute
after it was stored and never when it was wiped, and the cache stays small. -/
theorem dek_cache_transparent (h : (machine kms).Reachable Started P) :
    (∀ p payload r, Ended P p (.decrypt payload) r → ∀ random s, ∃ s',
      (codeUncached (.decrypt payload)).eval (fun o s => some (exec kms random o s)) s =
        some (r, s')) ∧
    (∀ p payload x random, P.threads p = some ⟨.decrypt payload, some x⟩ → ∃ n P' r,
      (machine kms).run (List.replicate n (.exec p random)) P = some P' ∧
        Ended P' p (.decrypt payload) r) ∧
    (∀ later dekId dek t earlier, P.shared.log = later ++ .served dekId dek t :: earlier →
      ∃ t₀, .stored dekId dek t₀ ∈ earlier ∧ t₀ ≤ t ∧ t < t₀ + cacheTtlMs) ∧
    (∀ dek, .wiped dek ∈ P.shared.log →
      .used dek ∉ P.shared.log ∧ ∀ dekId t, .served dekId dek t ∉ P.shared.log) ∧
    P.shared.dekCache.keys.length ≤ 5001 := by
  have sane : Sane kms P.shared := (sound kms).inv h
  refine ⟨fun p payload r hr random s => ?_, fun p payload x random ht => ?_,
    fun later dekId dek t earlier hl => (sane.served later dekId dek t earlier hl).2,
    fun dek hw => ⟨fun hu => ?_, fun dekId t hs => ?_⟩, sane.size⟩
  · have post : r = (plaintextOf kms payload).map .opened := by
      cases r with
      | ok a => exact (sound kms).returned h hr
      | error e => exact (sound kms).threw h hr
    exact post ▸ eval_codeUncached s
  · obtain ⟨n, P', hn, ⟨a, ha⟩ | ⟨e, he⟩⟩ :=
      Machine.run_to_end (M := machine kms) (i := random) (fun _ _ => rfl) ht
    · exact ⟨n, P', .ok a, hn, ha⟩
    · exact ⟨n, P', .error e, hn, he⟩
  · exact sane.apart dek (sane.wiped dek hw) (sane.used dek hu)
  · obtain ⟨later, earlier, hl⟩ := List.append_of_mem hs
    have old := (sane.served later dekId dek t earlier hl).1
    exact sane.apart dek (sane.wiped dek hw) (hl ▸ List.mem_append_right _ (List.mem_cons_of_mem _ old))

/-- The cache of the bytes makes the steps that the cache of the buffers makes, and serves the
same keys. -/
theorem cache_refines (h : (machine kms).Reachable Started P)
    {P' : Pool CryptoOp CryptoOp.Res CryptoErr Service CryptoCall CryptoResponse}
    {l : Label (Nat → UInt8) Nat CryptoCall} (hst : (machine kms).step l P = some P') (w : World)
    (hw : w.dekCache = image P.shared) :
    (∀ dekId, (P.shared.serve dekId).1.map P.shared.heap =
      ((w.dekCache.find? fun c => c.dekId == dekId).filter fun c =>
        P.shared.clock < c.expires).map CachedDek.dek) ∧
    (image P'.shared = w.dekCache ∨ ∃ dekId dek, image P'.shared =
      (w.cachePut ⟨dekId, P.shared.heap dek, P.shared.clock + cacheTtlMs⟩).dekCache) := by
  refine ⟨fun dekId => hw ▸ image_serve, ?_⟩
  have held := (sound kms).holds h
  rcases Machine.step_cases hst with ⟨p, k, s, rfl, -, hx, rfl⟩ |
    ⟨p, i, k, o, next, r, s, rfl, ht, hx, rfl⟩ | ⟨ms, s, rfl, hx, rfl⟩ | ⟨p, k, o, next, rfl, -, rfl⟩
  · cases hx
    exact .inl hw.symm
  · have preserves := Protocol.Sound.exec held ht trivial hx
    obtain rfl : (exec kms i o P.shared).2 = s := congrArg Prod.snd (Option.some.inj hx)
    have step := image_exec held.1 preserves
    cases o with
    | store dekId dek => exact .inr ⟨dekId, dek, step.trans (image_store w hw).symm⟩
    | _ => exact .inl (step.trans hw.symm)
  · cases hx
    exact .inl hw.symm
  · exact .inl hw.symm

end Transparency

section Example

abbrev exampleService : Machine CryptoOp CryptoOp.Res CryptoErr Service (Nat → UInt8) Nat CryptoCall
    CryptoResponse :=
  @machine exampleCipher (@localKms exampleCipher exampleKms)

def ofOnes : Bytes := List.replicate 32 1

/-- What a call that draws ones from the key service seals. -/
def examplePayload : EncryptedPayload :=
  @Backend.sealWith exampleCipher (text "k1") ofOnes (List.replicate 12 1)
    (@LocalKmsProvider.wrap exampleCipher (List.replicate 32 0) (List.replicate 12 1) ofOnes)
    (text "Bonjour")

/-- A payload is sealed, and opened by two calls at a time and by one a second later. -/
def openedThrice : List (Label (Nat → UInt8) Nat CryptoCall) :=
  .enter 0 (.encrypt (text "Bonjour")) :: List.replicate 4 (.exec 0 fun _ => 1) ++
    [.enter 1 (.decrypt examplePayload), .enter 2 (.decrypt examplePayload)] ++
    (List.replicate 4 [.exec 1 fun _ => 0, .exec 2 fun _ => 0]).flatten ++
    [.event 1000, .enter 3 (.decrypt examplePayload), .exec 3 fun _ => 0, .exec 3 fun _ => 0]

abbrev ranThrice : Option (Pool CryptoOp CryptoOp.Res CryptoErr Service CryptoCall CryptoResponse) :=
  exampleService.run openedThrice ⟨⟨fun _ => [], 0, ∅, 0, []⟩, fun _ => none⟩

/-- Whether the call of the process has opened the example to `s`. -/
def opens (P : Pool CryptoOp CryptoOp.Res CryptoErr Service CryptoCall CryptoResponse) (p : Nat)
    (s : Utf16) : Bool :=
  match P.threads p with
  | some ⟨k, some (.pure (.opened s'))⟩ => k = .decrypt examplePayload && s' = s
  | _ => false

theorem ended_of_opens {P : Pool CryptoOp CryptoOp.Res CryptoErr Service CryptoCall CryptoResponse}
    {p : Nat} {s : Utf16} (h : opens P p s = true) :
    Ended P p (.decrypt examplePayload) (.ok (.opened s)) := by
  simp only [opens] at h
  split at h
  · rename_i k s' ht
    simp only [Bool.and_eq_true, decide_eq_true_eq] at h
    obtain ⟨rfl, rfl⟩ := h
    exact ht
  · cases h

theorem opens_thrice : ranThrice.any (fun P =>
    (opens P 1 (text "Bonjour") && opens P 2 (text "Bonjour") && opens P 3 (text "Bonjour")) &&
      (P.shared.log.contains (.served examplePayload.dekId 2 1000) &&
        P.shared.log.contains (.wiped 0))) = true := by
  decide +kernel

theorem dek_cache_transparent_example :
    ∃ P, ranThrice = some P ∧ .served examplePayload.dekId 2 1000 ∈ P.shared.log ∧
      Ended P 3 (.decrypt examplePayload) (.ok (.opened (text "Bonjour"))) ∧
      .wiped 0 ∈ P.shared.log ∧ .used 0 ∉ P.shared.log ∧ P.shared.dekCache.keys.length ≤ 5001 := by
  have run := opens_thrice
  cases hP : ranThrice with
  | none => simp [hP] at run
  | some P =>
    simp only [hP, Option.any_some, Bool.and_eq_true, List.contains_iff_mem] at run
    obtain ⟨⟨-, h₃⟩, hs, hw⟩ := run
    have reached : exampleService.Reachable Started P :=
      Machine.Reachable.run (.init ⟨rfl, rfl⟩) hP
    obtain ⟨-, -, -, unused, size⟩ := @dek_cache_transparent exampleCipher _ _ reached
    exact ⟨P, rfl, hs, ended_of_opens h₃, hw, (unused 0 hw).1, size⟩

end Example

end Messageries.Guarantees.DekCache
