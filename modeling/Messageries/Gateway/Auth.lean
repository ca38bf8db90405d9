import Messageries.Gateway.Server
import Messageries.Text.Matching

namespace Messageries.Gateway

open Text Moderation

/-- `access_token=` -/
def tokenPrefix : Utf16 := text "access_token="

/-- `/access_token=([^;]+)/` -/
def tokenPattern : Regex UInt16 := .literal tokenPrefix (.plus (.one (· != 59)))

/-- The group of the first match: what follows the text before it. -/
def tokenOf (cookie : Utf16) : Option Utf16 :=
  (tokenPattern.exec cookie).map fun m => m.drop tokenPrefix.length

/-- `extractToken` of the gateway, for the `token` of the handshake and the header. -/
def extractToken (token : Field) (cookieHeader : Option Utf16) : Option Utf16 :=
  match token, cookieHeader with
  | .string (u :: s), _ => some (u :: s)
  | _, some (u :: s) => tokenOf (u :: s)
  | _, _ => none

/-- `extractToken` of `RealtimeGateway`. -/
def RealtimeGateway.extractToken (token : Field) (cookie : Option Utf16) : Option Utf16 :=
  match token with
  | .string (u :: s) => some (u :: s)
  | _ => tokenOf (cookie.getD [])

end Messageries.Gateway
