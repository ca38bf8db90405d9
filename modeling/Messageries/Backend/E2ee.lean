import Messageries.Backend.Messages

namespace Messageries.Backend

open Text Relational Database Concurrency

section KeyPackages

def newKeyPackage (userId : Nat) (deviceId cipherSuite : Utf16) (expires : Nat) (kp : Bytes)
    (id now : Nat) : MlsKeyPackage :=
  { id, userId, deviceId := sent deviceId, cipherSuite := sent cipherSuite, keyPackage := kp,
    consumedAt := none, consumedBy := none, expiresAt := expires, createdAt := now }

def publishKeyPackages (userId : Nat) (deviceId cipherSuite : Utf16) (keyPackages : List Bytes)
    (ttlDays : Option Nat) : App Nat := do
  onlyIf (keyPackages.length = 0) (throw (.badRequest "Empty pool"))
  onlyIf (100 < keyPackages.length) (throw (.badRequest "Pool too large"))
  let t ← now
  let expires := t + ttlDays.getD 30 * 86400000
  let rows ← insertAll .pool .keyPackages
    (keyPackages.map (newKeyPackage userId deviceId cipherSuite expires))
  return rows.length

def setConsumed (requesterId t : Nat) : schema.Assign .keyPackages :=
  ⟨fun (k : MlsKeyPackage) => { k with consumedAt := some t, consumedBy := some requesterId },
    fun _ => rfl⟩

def available (targetUserId : Nat) (cipherSuite : Utf16) (now : Nat) (k : MlsKeyPackage) : Bool :=
  k.userId == targetUserId && k.cipherSuite == sent cipherSuite && k.consumedAt.isNone &&
    decide (now < k.expiresAt)

def oldest (ks : List MlsKeyPackage) : List MlsKeyPackage :=
  (ks.insertionSort fun a b => a.createdAt ≤ b.createdAt).take 1

def claimKeyPackage (targetUserId requesterId : Nat) (cipherSuite : Utf16) : App MlsKeyPackage :=
  transaction do
    match (← lockRows .tx .keyPackages (available targetUserId cipherSuite) oldest).head? with
    | none => throw (.notFound "Aucun KeyPackage disponible pour ce user")
    | some kp =>
      let t ← now
      let _ ← update .tx .keyPackages (fun k => k.id == kp.id) fun _ => setConsumed requesterId t
      return kp

def countAvailable (userId : Nat) (cipherSuite : Utf16) : App Nat := do
  let t ← now
  let rows ← select .pool .keyPackages (available userId cipherSuite t)
  return rows.length

end KeyPackages

section Groups

def newGroup (conversationId : Nat) (groupIdMls : Bytes) (cipherSuite : Utf16) (createdBy : Nat)
    (id now : Nat) : MlsGroup :=
  { id, conversationId, groupIdMls, cipherSuite := sent cipherSuite, epoch := 0, createdBy,
    createdAt := now }

def newWelcome (groupId actorId sequence : Nat) (w : Welcome) (id now : Nat) : MlsMessage :=
  { id, groupId, senderUserId := actorId, senderDeviceId := sent w.senderDeviceId, kind := .welcome,
    epoch := 0, sequence, targetUserId := some w.targetUserId, ciphertext := w.ciphertext,
    createdAt := now }

def saveWelcomes (groupId actorId : Nat) : Nat → List Welcome → App Unit
  | _, [] => return ()
  | seq, w :: ws => do
    let _ ← insertOne .tx .mlsMessages (newWelcome groupId actorId (seq + 1) w)
    saveWelcomes groupId actorId (seq + 1) ws

def setE2ee (t : Nat) : schema.Assign .conversations :=
  ⟨fun (c : Conversation) => { c with e2eeEnabled := true, e2eeEnabledAt := some t },
    fun _ => rfl⟩

def enableE2ee (user : AuthUser) (conversationId : Nat) (groupIdMls : Bytes) (cipherSuite : Utf16)
    (welcomeMessages : List Welcome) : App Nat := do
  let (conversation, _) ← assertCanAccess user conversationId
  onlyIf conversation.e2eeEnabled (throw (.conflict "Déjà E2EE"))
  transaction do
    let group ← insertOne .tx .groups (newGroup conversationId groupIdMls cipherSuite user.sub)
    saveWelcomes group.id user.sub 0 welcomeMessages
    let t ← now
    let _ ← update .tx .conversations (fun c => c.id == conversationId) fun _ => setE2ee t
    audit (some user.sub) "e2ee.enabled" "conversation" (some conversationId)
      [("cipherSuite", .string cipherSuite), ("welcomes", .number welcomeMessages.length)]
    return group.id

end Groups

section MlsMessages

def setEpoch (epoch : Nat) : schema.Assign .groups :=
  ⟨fun (g : MlsGroup) => { g with epoch }, fun _ => rfl⟩

structure MlsInput where
  conversationId : Nat
  senderDeviceId : Utf16
  kind : MlsKind
  epoch : Utf16
  ciphertext : Bytes
  targetUserId : Option Nat

def newMlsMessage (input : MlsInput) (groupId senderId : Nat) (epoch : Int) (sequence : Nat)
    (id now : Nat) : MlsMessage :=
  { id, groupId, senderUserId := senderId, senderDeviceId := sent input.senderDeviceId,
    kind := input.kind, epoch, sequence, targetUserId := input.targetUserId,
    ciphertext := input.ciphertext, createdAt := now }

def lastSequence (rows : List MlsMessage) : Nat := rows.foldl (fun n m => max n m.sequence) 0

def findGroup (conversationId : Nat) : App MlsGroup := do
  match ← findOne .pool .groups fun g => g.conversationId == conversationId with
  | some group => return group
  | none => throw (.notFound "Pas de groupe MLS")

def sendMlsMessage (user : AuthUser) (input : MlsInput) : App (Nat × Nat) := do
  let _ ← assertCanAccess user input.conversationId
  let group ← findGroup input.conversationId
  transaction do
    match (← lockRows .tx .groups (fun _ g => g.id == group.id) id).head? with
    | none => throw .unexpected
    | some g =>
      let rows ← select .tx .mlsMessages fun m => m.groupId == g.id
      let nextSeq := lastSequence rows + 1
      onlyIf (input.kind = .commit) do
        let _ ← update .tx .groups (fun x => x.id == g.id) fun _ => setEpoch (g.epoch + 1)
      let epoch ← parameter .tx (bigint input.epoch)
      let saved ← insertOne .tx .mlsMessages (newMlsMessage input g.id user.sub epoch nextSeq)
      return (saved.id, nextSeq)

def pickUp (groupId userId : Nat) (after : Option Int) (m : MlsMessage) : Bool :=
  m.groupId == groupId && m.targetUserId.all (· == userId) &&
    after.all fun n => n < (m.sequence : Int)

def optionalBigint (s : Option Utf16) : App (Option Int) :=
  match truthy s with
  | none => return none
  | some s => do
    let n ← parameter .pool (bigint s)
    return some n

def listMlsMessages (user : AuthUser) (conversationId : Nat) (afterSequence limit : Option Utf16) :
    App (List MlsMessage) := do
  let _ ← assertCanAccess user conversationId
  let group ← findGroup conversationId
  let after ← optionalBigint afterSequence
  let rows : List MlsMessage ← select .pool .mlsMessages (pickUp group.id user.sub after)
  orThrow (page (clamp limit 100 500) (rows.insertionSort fun a b => a.sequence ≤ b.sequence))

end MlsMessages

end Messageries.Backend
