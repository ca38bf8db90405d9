import Messageries.Crypto.LocalKms

namespace Messageries.Crypto

open Text

/-- The key service of a deployment; the constructor refuses an empty ARN. -/
structure AwsKmsProvider where
  keyArn : Utf16
  required : keyArn ≠ []

/-- What KMS answers to a GenerateDataKeyCommand with KeySpec AES_256. -/
structure GenerateDataKeyOutput where
  plaintext : Bytes
  ciphertextBlob : Bytes

namespace AwsKmsProvider

/-- `new AwsKmsProvider(cfg)`; `none` when AWS_KMS_KEY_ARN is missing or empty. -/
def ofConfig (arn : Option Utf16) : Option AwsKmsProvider :=
  let keyArn := arn.getD []
  if h : keyArn ≠ [] then some ⟨keyArn, h⟩ else none

/-- The key id, the data key and its wrapped form. -/
def generateDataKey (kms : AwsKmsProvider) (out : GenerateDataKeyOutput) : Utf16 × Bytes × Bytes :=
  (kms.keyArn, out.plaintext, out.ciphertextBlob)

end AwsKmsProvider

end Messageries.Crypto
