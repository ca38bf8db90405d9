import Messageries.Backend.Repository

namespace Messageries.Backend

open Text Relational Database Concurrency

/-- SHA-256 of the platform. -/
class TokenHash where
  hash : Bytes → Bytes

section Revoke

def setRevoked (t : Nat) (reason : String) : schema.Assign .refreshTokens :=
  ⟨fun (r : RefreshToken) => { r with revokedAt := some t, revokedReason := some reason },
    fun _ => rfl⟩

def revokeWhere (q : RefreshToken → Bool) (reason : String) : App Unit := do
  let t ← now
  let _ ← update .pool .refreshTokens (fun (r : RefreshToken) => q r && r.revokedAt.isNone)
    fun _ => setRevoked t reason

def revokeAllForUser (userId : Nat) (reason : String) : App Unit :=
  revokeWhere (fun r => r.userId == userId) reason

end Revoke

section Rotate

variable [TokenHash]

def revoke (token : Bytes) (reason : String) : App Unit :=
  revokeWhere (fun r => r.tokenHash == TokenHash.hash token) reason

structure IssuedToken where
  token : Bytes
  expiresAt : Nat

def newToken (userId : Nat) (parentId : Option Nat) (tokenHash : Bytes) (expires : Nat)
    (id now : Nat) : RefreshToken :=
  { id, userId, tokenHash, parentId, expiresAt := expires, revokedAt := none,
    revokedReason := none, createdAt := now }

def issue (userId : Nat) (parentId : Option Nat) : App IssuedToken := do
  let cfg ← settings
  let raw : { b : Bytes // b.length = 48 } ← perform (.random 48)
  let t ← now
  let expires := t + cfg.jwtRefreshTtl * 1000
  let _ ← insertOne .pool .refreshTokens
    (newToken userId parentId (TokenHash.hash raw.1) expires)
  return ⟨raw.1, expires⟩

/-- `save(found)` over the stored row. -/
def mergeToken (entity stored : RefreshToken) : schema.Assign .refreshTokens :=
  ⟨fun (r : RefreshToken) =>
    { r with
      revokedAt := changed entity.revokedAt stored.revokedAt r.revokedAt
      revokedReason := changed entity.revokedReason stored.revokedReason r.revokedReason },
    fun _ => rfl⟩

def saveToken (entity : RefreshToken) : App Unit := do
  match ← findOne .pool .refreshTokens fun r => r.id == entity.id with
  | some stored =>
    let _ ← update .pool .refreshTokens (fun r => r.id == entity.id) fun _ =>
      mergeToken entity stored
  | none =>
    let _ ← insertAll .pool .refreshTokens [fun _ _ => entity]

def rotate (token : Bytes) : App (Nat × IssuedToken) := do
  match ← findOne .pool .refreshTokens fun r => r.tokenHash == TokenHash.hash token with
  | none => throw (.forbidden "Refresh token invalide")
  | some found =>
    onlyIf found.revokedAt.isSome do
      revokeWhere (fun r => r.userId == found.userId) "family_compromise"
      throw (.forbidden "Session compromise — reconnexion requise")
    let t ← now
    onlyIf (found.expiresAt < t) (throw (.forbidden "Refresh token expiré"))
    let t ← now
    saveToken { found with revokedAt := some t, revokedReason := some "rotated" }
    let next ← issue found.userId (some found.id)
    return (found.userId, next)

/-- `AuthService.refresh`, without the access token it signs. -/
def refresh (token : Bytes) : App IssuedToken := do
  let (userId, next) ← rotate token
  match ← findOne .pool .users fun u => u.id == userId with
  | none => throw (.unauthorized "Compte invalide")
  | some user =>
    onlyIf (user.isSuspended || user.anonymizedAt.isSome) (throw (.unauthorized "Compte invalide"))
    return next

end Rotate

end Messageries.Backend
