import Mathlib.Data.List.Lemmas
import Messageries.Moderation.ContentScanner
import Messageries.Text.Base64

namespace Messageries.Crypto

open Text Moderation

/-- AES-256-GCM of the platform; a decipher that throws gives `none`. -/
class AesGcm where
  encrypt : (key iv plaintext : Bytes) → Bytes × Bytes
  decrypt : (key iv tag ciphertext : Bytes) → Option Bytes
  decrypt_encrypt : ∀ {key iv : Bytes} (plaintext : Bytes), key.length = 32 → iv.length = 12 →
    decrypt key iv (encrypt key iv plaintext).2 (encrypt key iv plaintext).1 = some plaintext
  tag_length : ∀ key iv plaintext : Bytes, (encrypt key iv plaintext).2.length = 16

section Split

def colon : UInt16 := 58

def comma : UInt16 := 44

/-- `s.split(sep)` for a separator of one letter. -/
def splitOn (sep : UInt16) : Utf16 → List Utf16
  | [] => [[]]
  | u :: s =>
    if u = sep then [] :: splitOn sep s
    else
      match splitOn sep s with
      | part :: parts => (u :: part) :: parts
      | [] => [[u]]

/-- `s.split('::')`. -/
def splitColons : Utf16 → List Utf16
  | [] => [[]]
  | [u] => [[u]]
  | u :: v :: s =>
    if u = colon ∧ v = colon then [] :: splitColons s
    else
      match splitColons (v :: s) with
      | part :: parts => (u :: part) :: parts
      | [] => [[u]]

theorem not_mem_of_mem_splitOn {sep : UInt16} {s part : Utf16} (h : part ∈ splitOn sep s) :
    sep ∉ part := by
  induction s generalizing part with
  | nil =>
    rw [List.mem_singleton.1 h]
    exact List.not_mem_nil
  | cons u s ih =>
    simp only [splitOn] at h
    split at h
    · rcases List.mem_cons.1 h with rfl | h
      · exact List.not_mem_nil
      · exact ih h
    · rename_i hu
      split at h
      · rename_i part' parts hs
        have hpart : sep ∉ part' := ih (hs ▸ List.mem_cons_self ..)
        rcases List.mem_cons.1 h with rfl | h
        · simpa [Ne.symm hu] using hpart
        · exact ih (hs ▸ List.mem_cons_of_mem _ h)
      · rw [List.mem_singleton.1 h]
        simpa using Ne.symm hu

theorem splitColons_of_not_mem {s : Utf16} (h : colon ∉ s) : splitColons s = [s] := by
  induction s with
  | nil => rfl
  | cons u s ih =>
    simp only [List.mem_cons, not_or] at h
    cases s with
    | nil => rfl
    | cons v s =>
      rw [splitColons, if_neg (fun hc => h.1 hc.1.symm), ih h.2]

theorem splitColons_append {s t : Utf16} (hs : colon ∉ s) (ht : colon ∉ t) :
    splitColons (s ++ colon :: colon :: t) = [s, t] := by
  induction s with
  | nil => simp [splitColons, splitColons_of_not_mem ht]
  | cons u s ih =>
    simp only [List.mem_cons, not_or] at hs
    obtain ⟨v, w, e⟩ : ∃ v w, s ++ colon :: colon :: t = v :: w := by
      cases s <;> exact ⟨_, _, rfl⟩
    have hsplit := ih hs.2
    rw [List.cons_append]
    rw [e] at hsplit ⊢
    rw [splitColons, if_neg (fun hc => hs.1 hc.1.symm), hsplit]

end Split

section Keys

/-- `map.get(id)` -/
def lookup (keys : List (Utf16 × Bytes)) (id : Utf16) : Option Bytes :=
  (keys.find? fun p => p.1 == id).map Prod.snd

/-- `map.set(id, key)`: a known key keeps its place. -/
def insertKey : List (Utf16 × Bytes) → Utf16 × Bytes → List (Utf16 × Bytes)
  | [], p => [p]
  | q :: keys, p => if q.1 = p.1 then p :: keys else q :: insertKey keys p

def ofPairs (ps : List (Utf16 × Bytes)) : List (Utf16 × Bytes) := ps.foldl insertKey []

theorem mem_insertKey {keys : List (Utf16 × Bytes)} {p q : Utf16 × Bytes}
    (h : q ∈ insertKey keys p) : q = p ∨ q ∈ keys := by
  induction keys with
  | nil => exact .inl (List.mem_singleton.1 h)
  | cons a keys ih =>
    simp only [insertKey] at h
    split at h
    · rcases List.mem_cons.1 h with rfl | h
      · exact .inl rfl
      · exact .inr (List.mem_cons_of_mem _ h)
    · rcases List.mem_cons.1 h with rfl | h
      · exact .inr (List.mem_cons_self ..)
      · exact (ih h).imp_right (List.mem_cons_of_mem _)

theorem mem_ofPairs {ps : List (Utf16 × Bytes)} {q : Utf16 × Bytes} (h : q ∈ ofPairs ps) :
    q ∈ ps := by
  have fold : ∀ (ps keys : List (Utf16 × Bytes)), q ∈ ps.foldl insertKey keys →
      q ∈ keys ∨ q ∈ ps := by
    intro ps
    induction ps with
    | nil => exact fun _ h => .inl h
    | cons p ps ih =>
      intro keys h
      rcases ih _ h with h | h
      · rcases mem_insertKey h with rfl | h
        · exact .inr (List.mem_cons_self ..)
        · exact .inl h
      · exact .inr (List.mem_cons_of_mem _ h)
  simpa using fold ps [] h

theorem mem_of_lookup {keys : List (Utf16 × Bytes)} {id : Utf16} {key : Bytes}
    (h : lookup keys id = some key) : (id, key) ∈ keys := by
  simp only [lookup, Option.map_eq_some_iff] at h
  obtain ⟨⟨id', key'⟩, hf, rfl⟩ := h
  have hid : id' = id := by simpa using List.find?_some hf
  exact hid ▸ List.mem_of_find?_eq_some hf

end Keys

/-- The keys of the local key service; the constructor of the source refuses what
the last two fields exclude. -/
structure LocalKmsProvider where
  keys : List (Utf16 × Bytes)
  active : Utf16
  wellFormed : ∀ p ∈ keys, colon ∉ p.1 ∧ p.2.length = 32
  active_mem : (lookup keys active).isSome

namespace LocalKmsProvider

inductive ConfigError
  | notBase64
  | keyLength (id : Utf16)
  | unknownActive (id : Utf16)

/-- One `id:base64` of KMS_LOCAL_KEYS. -/
def parsePair (pair : Utf16) : Except ConfigError (Utf16 × Bytes) :=
  match splitOn colon pair with
  | id :: b64 :: _ =>
    let buf := ofBase64 b64
    if buf.length = 32 then .ok (trim id, buf) else .error (.keyLength id)
  | _ => .error .notBase64

def parsePairs : List Utf16 → Except ConfigError (List (Utf16 × Bytes))
  | [] => .ok []
  | pair :: rest =>
    match parsePair pair with
    | .error e => .error e
    | .ok p =>
      match parsePairs rest with
      | .error e => .error e
      | .ok ps => .ok (p :: ps)

theorem mem_of_mem_trim {u : UInt16} {s : Utf16} (h : u ∈ trim s) : u ∈ s := by
  have h' := (List.dropWhile_sublist _).mem (List.mem_reverse.1 h)
  exact (List.dropWhile_sublist _).mem (List.mem_reverse.1 h')

theorem parsePair_ok {pair : Utf16} {p : Utf16 × Bytes} (h : parsePair pair = .ok p) :
    colon ∉ p.1 ∧ p.2.length = 32 := by
  simp only [parsePair] at h
  split at h
  · rename_i id b64 rest hs
    split at h
    · cases h
      have hid : colon ∉ id := not_mem_of_mem_splitOn (hs ▸ List.mem_cons_self ..)
      exact ⟨fun hc => hid (mem_of_mem_trim hc), ‹_›⟩
    · cases h
  · cases h

theorem parsePairs_ok {pairs : List Utf16} {ps : List (Utf16 × Bytes)}
    (h : parsePairs pairs = .ok ps) : ∀ p ∈ ps, colon ∉ p.1 ∧ p.2.length = 32 := by
  induction pairs generalizing ps with
  | nil =>
    cases h
    exact fun _ hp => nomatch hp
  | cons pair rest ih =>
    simp only [parsePairs] at h
    split at h
    · cases h
    · rename_i p hp
      split at h
      · cases h
      · rename_i ps' hps
        cases h
        intro q hq
        rcases List.mem_cons.1 hq with rfl | hq
        · exact parsePair_ok hp
        · exact ih hps q hq

def devKeyId : Utf16 := text "dev-key-1"

/-- `new LocalKmsProvider(cfg)`; `dev` is the random key of a service that has no
KMS_LOCAL_KEYS. -/
def ofConfig (raw active : Option Utf16) (dev : { b : Bytes // b.length = 32 }) :
    Except ConfigError LocalKmsProvider :=
  match raw with
  | none | some [] =>
    .ok { keys := [(devKeyId, dev.1)]
          active := devKeyId
          wellFormed := by
            intro p hp
            obtain rfl := List.mem_singleton.1 hp
            exact ⟨(by decide : colon ∉ devKeyId), dev.2⟩
          active_mem := by simp [lookup] }
  | some raw =>
    match h : parsePairs (splitOn comma raw) with
    | .error e => .error e
    | .ok ps =>
      let keys := ofPairs ps
      let active := active.getD ((keys.map Prod.fst).getLastD [])
      if ha : (lookup keys active).isSome then
        .ok ⟨keys, active, fun p hp => parsePairs_ok h p (mem_ofPairs hp), ha⟩
      else .error (.unknownActive active)

/-- The key `this.keys.get(this.active)!` -/
def activeKey (kms : LocalKmsProvider) : Bytes := (lookup kms.keys kms.active).get kms.active_mem

theorem activeKey_mem (kms : LocalKmsProvider) : (kms.active, kms.activeKey) ∈ kms.keys :=
  mem_of_lookup (Option.some_get _).symm

/-- `[1B iv.len][iv][1B tag.len][tag][wrapped]` -/
def frame (iv tag wrapped : Bytes) : Bytes :=
  .ofNat iv.length :: iv ++ .ofNat tag.length :: tag ++ wrapped

def parseFrame : Bytes → Option (Bytes × Bytes × Bytes)
  | [] => none
  | ivLen :: rest =>
    match rest.drop ivLen.toNat with
    | [] => none
    | tagLen :: rest' =>
      some (rest.take ivLen.toNat, rest'.take tagLen.toNat, rest'.drop tagLen.toNat)

theorem parseFrame_frame {iv tag : Bytes} (hiv : iv.length < 256) (htag : tag.length < 256)
    (wrapped : Bytes) : parseFrame (frame iv tag wrapped) = some (iv, tag, wrapped) := by
  have hi : (UInt8.ofNat iv.length).toNat = iv.length := toNat_byte hiv
  have ht : (UInt8.ofNat tag.length).toNat = tag.length := toNat_byte htag
  simp [frame, parseFrame, hi, ht]

section Wrap

variable [AesGcm]

def wrap (kek iv dek : Bytes) : Bytes :=
  let c := AesGcm.encrypt kek iv dek
  frame iv c.2 c.1

/-- `decryptDataKey`: an unknown key, a short frame or a failed decipher throws. -/
def decryptDataKey (kms : LocalKmsProvider) (keyId : Utf16) (ciphertext : Bytes) : Option Bytes :=
  match lookup kms.keys keyId with
  | none => none
  | some kek =>
    match parseFrame ciphertext with
    | none => none
    | some (iv, tag, wrapped) => AesGcm.decrypt kek iv tag wrapped

theorem decryptDataKey_wrap {kms : LocalKmsProvider} {keyId : Utf16} {kek iv : Bytes}
    (hk : lookup kms.keys keyId = some kek) (hiv : iv.length = 12) (dek : Bytes) :
    kms.decryptDataKey keyId (wrap kek iv dek) = some dek := by
  have hlen : kek.length = 32 := (kms.wellFormed _ (mem_of_lookup hk)).2
  have hframe := parseFrame_frame (by omega : iv.length < 256)
    (by rw [AesGcm.tag_length]; decide : (AesGcm.encrypt kek iv dek).2.length < 256)
    (AesGcm.encrypt kek iv dek).1
  simp only [decryptDataKey, hk, wrap, hframe]
  exact AesGcm.decrypt_encrypt dek hlen hiv

end Wrap

end LocalKmsProvider

end Messageries.Crypto
