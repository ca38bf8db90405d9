import Messageries.Crypto.AwsKms
import Messageries.Guarantees.Confidentiality

set_option linter.unusedSectionVars false

namespace Messageries.Guarantees

open Text Relational Database Crypto Concurrency Backend Moderation Proofs

section Widths

variable [AesGcm] [TokenHash]

/-- The width of messages.body_dek_id. -/
def dekIdWidth : Nat := 128

/-- AES-GCM neither adds to the length of a text nor takes from it. -/
def KeepsLength : Prop :=
  ∀ key iv plaintext : Bytes, (AesGcm.encrypt key iv plaintext).1.length = plaintext.length

theorem length_wrap (hl : KeepsLength) (kek : Bytes) {iv dek : Bytes} (hiv : iv.length = 12)
    (hdek : dek.length = 32) : (LocalKmsProvider.wrap kek iv dek).length = 62 := by
  simp [LocalKmsProvider.wrap, LocalKmsProvider.frame, hl kek iv dek, AesGcm.tag_length, hiv, hdek]

/-- The identifier of the key, the separator, and four letters for every three bytes. -/
theorem length_dekIdOf (keyId : Utf16) (wrapped : Bytes) :
    (decode (dekIdOf keyId wrapped)).length =
      (decode keyId).length + 2 + (wrapped.length + 2) / 3 * 4 := by
  have plain : ∀ u ∈ colon :: colon :: toBase64 wrapped, isHigh u = false := by
    have := forall_toBase64 (P := fun u => isHigh u = false) (by decide) (by decide) wrapped
    simpa [show isHigh colon = false by decide] using this
  rw [dekIdOf, decode_append (by decide), List.length_append, length_decode plain]
  simp [length_toBase64]
  omega

theorem checkText_dekId {dekId : Utf16} (h : 0 ∉ dekId) :
    checkText (some dekIdWidth) dekId = none ↔ (decode dekId).length ≤ dekIdWidth := by
  simp [checkText, h, dekIdWidth]

/-- What `encrypt` returns, for the keys of the service. -/
theorem ends_encrypt {p : Nat} {inputs : Nat → Input} (kms : LocalKmsProvider) (plaintext : Utf16) :
    Prog.Ends (alone p inputs) (fun s => s.1.kms = kms) (encrypt plaintext) fun r _ =>
      ∀ e, r = .ok e → ∃ dek iv wrapIv : Bytes, dek.length = 32 ∧ wrapIv.length = 12 ∧
        e = sealWith kms.active dek iv (LocalKmsProvider.wrap kms.activeKey wrapIv dek) plaintext := by
  have random : ∀ n, Prog.Ends (alone p inputs) (fun s => s.1.kms = kms)
      (Prog.perform (Op.random n) : App { b : Bytes // b.length = n })
      fun _ s => s.1.kms = kms := fun n => by
    refine Prog.Ends.perform fun s r s' hs h => ?_
    obtain ⟨w, m⟩ := s'
    cases alone_cases h
    exact hs
  have key : Prog.Ends (alone p inputs) (fun s => s.1.kms = kms) generateDataKey fun r s =>
      s.1.kms = kms ∧ ∀ k, r = .ok k → k.keyId = kms.active ∧
        ∃ wrapIv : Bytes, wrapIv.length = 12 ∧
          k.ciphertext = LocalKmsProvider.wrap kms.activeKey wrapIv k.plaintext.1 := by
    refine Prog.Ends.bind (Q := fun r s => s.1.kms = kms ∧ ∀ k, r = .ok k → k = kms)
      (Prog.Ends.perform fun s r s' hs h => ?_) (fun k => ?_) fun _ _ h => ⟨h.1, nofun⟩
    · obtain ⟨w, m⟩ := s'
      cases alone_cases h
      exact ⟨hs, fun k hk => (Except.ok.inj hk).symm.trans hs⟩
    refine Prog.Ends.given (fun s h => h.2 k rfl) fun hk => ?_
    subst hk
    refine Prog.Ends.bind ((random 32).pre fun _ h => h.1) (fun dek => ?_) fun _ _ h => ⟨h, nofun⟩
    refine Prog.Ends.bind (random 12) (fun iv => ?_) fun _ _ h => ⟨h, nofun⟩
    refine Prog.Ends.pure.post fun r s h => ⟨h.2, fun k' hk => ?_⟩
    cases h.1.symm.trans hk
    exact ⟨rfl, iv.1, iv.2, rfl⟩
  refine Prog.Ends.bind key (fun k => ?_) fun _ _ _ => nofun
  refine Prog.Ends.given (fun s h => h.2 k rfl) fun hk => ?_
  refine Prog.Ends.bind ((random 12).pre fun _ h => h.1) (fun iv => ?_) fun _ _ _ => nofun
  refine Prog.Ends.pure.post fun r s h e he => ?_
  cases h.1.symm.trans he
  obtain ⟨hid, wrapIv, hiv, hc⟩ := hk
  exact ⟨k.plaintext.1, iv.1, wrapIv, k.plaintext.2, hiv, by rw [hid, hc]⟩

/-- A text the local service seals fits its row when the name of the active key has 42 characters
at most; no text fits that KMS sealed. -/
theorem sealed_fits_iff (hl : KeepsLength) :
    (∀ (w : World) p inputs plaintext e s,
      (encrypt plaintext).eval (alone p inputs) (w, 0) = some (.ok e, s) →
        ((decode e.dekId).length ≤ dekIdWidth ↔ (decode w.kms.active).length ≤ 42) ∧
        (0 ∉ w.kms.active → (checkText (some dekIdWidth) e.dekId = none ↔
          (decode w.kms.active).length ≤ 42))) ∧
    ∀ arn kms, AwsKmsProvider.ofConfig arn = some kms → ∀ out, 150 < out.ciphertextBlob.length →
      ∀ iv plaintext, ¬(decode (sealWith (kms.generateDataKey out).1 (kms.generateDataKey out).2.1
        iv (kms.generateDataKey out).2.2 plaintext).dekId).length ≤ dekIdWidth := by
  refine ⟨fun w p inputs plaintext e s h => ?_, fun arn kms _ out ho iv plaintext => ?_⟩
  · obtain ⟨dek, iv, wrapIv, hdek, hiv, rfl⟩ := ends_encrypt w.kms plaintext _ _ _ rfl h e rfl
    have fits : (decode (dekIdOf w.kms.active
        (LocalKmsProvider.wrap w.kms.activeKey wrapIv dek))).length ≤ dekIdWidth ↔
          (decode w.kms.active).length ≤ 42 := by
      rw [length_dekIdOf, length_wrap hl _ hiv hdek, dekIdWidth]
      omega
    refine ⟨fits, fun h0 => (checkText_dekId ?_).trans fits⟩
    have base := forall_toBase64 (P := fun u => u ≠ 0) (by decide) (by decide)
      (LocalKmsProvider.wrap w.kms.activeKey wrapIv dek)
    simp only [sealWith, dekIdOf, List.mem_append, List.mem_cons, not_or]
    exact ⟨h0, by decide, by decide, fun hm => base 0 hm rfl⟩
  · simp only [sealWith, AwsKmsProvider.generateDataKey]
    rw [length_dekIdOf, dekIdWidth]
    omega

end Widths

section Example

/-- The keys of a service with one key named by 43 letters. -/
def longKeys : Utf16 :=
  List.replicate 43 107 ++ colon :: toBase64 (List.replicate 32 0)

theorem keepsLength_example : @KeepsLength exampleCipher :=
  fun _ _ _ => List.length_mapIdx ..

def sealExample (kms : LocalKmsProvider) : Option (Except Err EncryptedPayload × World × Nat) :=
  (@encrypt exampleCipher (text "Bonjour")).eval (alone 0 fun _ => calm)
    ({ exampleWorld with kms := kms }, 0)

/-- The length of what the service makes. -/
def lengthWith (kms : LocalKmsProvider) : Option Nat :=
  match sealExample kms with
  | some (.ok e, _) => some (decode e.dekId).length
  | _ => none

theorem lengthWith_eq {kms : LocalKmsProvider} {n : Nat} (h : lengthWith kms = some n) :
    ∃ e s, sealExample kms = some (.ok e, s) ∧ (decode e.dekId).length = n := by
  simp only [lengthWith] at h
  split at h
  next e s he => exact ⟨e, s, he, Option.some.inj h⟩
  · cases h

theorem sealed_fits_example : ∃ e s, sealExample exampleKms = some (.ok e, s) ∧
    (decode e.dekId).length ≤ dekIdWidth := by
  have all := @sealed_fits_iff exampleCipher exampleHash keepsLength_example
  obtain ⟨e, s, he, -⟩ := lengthWith_eq (by decide +kernel : lengthWith exampleKms = some 88)
  exact ⟨e, s, he, (all.1 { exampleWorld with kms := exampleKms } 0 (fun _ => calm)
    (text "Bonjour") e s he).1.2 (by decide +kernel)⟩

/-- The constructor takes a key id of 43 characters. -/
theorem long_key_id_does_not_fit : ∃ kms e s,
    LocalKmsProvider.ofConfig (some longKeys) none ⟨List.replicate 32 0, rfl⟩ = .ok kms ∧
      sealExample kms = some (.ok e, s) ∧ ¬(decode e.dekId).length ≤ dekIdWidth := by
  have long : (LocalKmsProvider.ofConfig (some longKeys) none
      ⟨List.replicate 32 0, rfl⟩).toOption.bind lengthWith = some 129 := by decide +kernel
  generalize LocalKmsProvider.ofConfig (some longKeys) none ⟨List.replicate 32 0, rfl⟩ = r at long ⊢
  cases r with
  | error e => cases long
  | ok kms =>
    obtain ⟨e, s, he, hn⟩ := lengthWith_eq long
    exact ⟨kms, e, s, rfl, he, by simp [hn, dekIdWidth]⟩

end Example

end Messageries.Guarantees
