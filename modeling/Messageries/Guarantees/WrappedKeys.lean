import Messageries.Guarantees.Numbering

namespace Messageries.Guarantees

open Text Crypto Backend Moderation Crypto.LocalKmsProvider

section Codec

variable [AesGcm]

/-- The id of a wrapped key gives back the name of the key and the frame, and the frame its
parts, under a name that the service knows. -/
theorem wrapped_key_codec (raw active : Option Utf16) (dev : { b : Bytes // b.length = 32 })
    {iv tag : Bytes} (hiv : iv.length < 256) (htag : tag.length < 256) (wrapped : Bytes) :
    ∀ kms, ofConfig raw active dev = .ok kms → ∃ b64,
      splitColons (dekIdOf kms.active (frame iv tag wrapped)) = [kms.active, b64] ∧
        ofBase64 b64 = frame iv tag wrapped ∧
        parseFrame (ofBase64 b64) = some (iv, tag, wrapped) ∧
        lookup kms.keys kms.active = some kms.activeKey ∧
        kms.decryptDataKey kms.active (ofBase64 b64) =
          AesGcm.decrypt kms.activeKey iv tag wrapped := by
  intro kms _
  have known : lookup kms.keys kms.active = some kms.activeKey := (Option.some_get _).symm
  have named : colon ∉ kms.active := (kms.wellFormed _ kms.activeKey_mem).1
  have parsed : parseFrame (ofBase64 (toBase64 (frame iv tag wrapped))) =
      some (iv, tag, wrapped) := by
    rw [ofBase64_toBase64, parseFrame_frame hiv htag]
  have split : splitColons (dekIdOf kms.active (frame iv tag wrapped)) =
      [kms.active, toBase64 (frame iv tag wrapped)] :=
    splitColons_append named fun hc => toBase64_ne _ colon hc rfl
  refine ⟨_, split, ofBase64_toBase64 _, parsed, known, ?_⟩
  simp only [decryptDataKey, known, parsed]

end Codec

def zeros : { b : Bytes // b.length = 32 } := ⟨List.replicate 32 0, rfl⟩

/-- Two keys of zeros, with blanks around the second id. -/
def twoKeys : Utf16 :=
  text "k1:" ++ toBase64 zeros.1 ++ text ", k2 :" ++ toBase64 zeros.1

theorem wrapped_key_codec_example :
    ∃ kms, ofConfig (some twoKeys) none zeros = .ok kms ∧ kms.active = text "k2" ∧ ∃ b64,
      splitColons (dekIdOf kms.active (frame [1, 2] [58, 58] [])) = [kms.active, b64] ∧
        ofBase64 b64 = frame [1, 2] [58, 58] [] := by
  have accepted : ∀ r : Except ConfigError LocalKmsProvider,
      r.toOption.map LocalKmsProvider.active = some (text "k2") →
        ∃ kms, r = .ok kms ∧ kms.active = text "k2" := by
    intro r h
    cases r with
    | error e => cases h
    | ok kms => exact ⟨kms, rfl, Option.some.inj h⟩
  obtain ⟨kms, hk, ha⟩ := accepted (ofConfig (some twoKeys) none zeros) (by decide +kernel)
  obtain ⟨b64, hs, hb, -⟩ := @wrapped_key_codec exampleCipher (some twoKeys) none zeros [1, 2]
    [58, 58] (by decide) (by decide) [] kms hk
  exact ⟨kms, hk, ha, b64, hs, hb⟩

end Messageries.Guarantees
