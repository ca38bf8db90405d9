import Messageries.Backend.Conversations

namespace Messageries.Backend

open Text Relational Database Concurrency

section Report

def newReport (messageId reporterId : Nat) (reason : Utf16) (details : Option Utf16)
    (id now : Nat) : MessageReport :=
  { id, messageId, reporterId, reason := sent reason, details := details.map sent,
    status := .opened, resolvedBy := none, resolvedAt := none, createdAt := now }

def report (messageId reporterId : Nat) (reason : Utf16) (details : Option Utf16) :
    App MessageReport := do
  match ← findOne .pool .messages fun m => m.id == messageId with
  | none => throw (.notFound "Not Found")
  | some _ =>
    let report ← insertOne .pool .reports (newReport messageId reporterId reason details)
    audit (some reporterId) "message.reported" "message" (some messageId)
      [("reportId", .id report.id), ("reason", .string reason)]
    return report

end Report

section Resolve

/-- `save(r)` over the stored row; nothing ever sets its other columns. -/
def mergeReport (entity stored : MessageReport) : schema.Assign .reports :=
  ⟨fun (r : MessageReport) =>
    { r with
      status := changed entity.status stored.status r.status
      resolvedBy := changed entity.resolvedBy stored.resolvedBy r.resolvedBy
      resolvedAt := changed entity.resolvedAt stored.resolvedAt r.resolvedAt },
    fun _ => rfl⟩

def saveReport (entity : MessageReport) : App Unit := do
  match ← findOne .pool .reports fun r => r.id == entity.id with
  | some stored =>
    let _ ← update .pool .reports (fun r => r.id == entity.id) fun _ => mergeReport entity stored
  | none =>
    let _ ← insertAll .pool .reports [fun _ _ => entity]

def setHidden (moderatorId t : Nat) : schema.Assign .messages :=
  ⟨fun (m : Message) =>
    { m with status := .hidden, moderatedBy := some moderatorId, moderatedAt := some t },
    fun _ => rfl⟩

def ResolveAction.status : ResolveAction → ReportStatus
  | .dismiss => .dismissed
  | .hideMessage => .actioned

def ResolveAction.auditName : ResolveAction → String
  | .dismiss => "report.dismiss"
  | .hideMessage => "report.hide_message"

def resolve (reportId moderatorId : Nat) (action : ResolveAction) : App MessageReport := do
  match ← findOne .pool .reports fun r => r.id == reportId with
  | none => throw (.notFound "Not Found")
  | some r =>
    let t ← now
    let r : MessageReport :=
      { r with status := action.status, resolvedBy := some moderatorId, resolvedAt := some t }
    saveReport r
    onlyIf (action = .hideMessage) do
      let t ← now
      let _ ← update .pool .messages (fun m => m.id == r.messageId) fun _ => setHidden moderatorId t
    audit (some moderatorId) action.auditName "report" (some r.id) [("messageId", .id r.messageId)]
    return r

end Resolve

end Messageries.Backend
