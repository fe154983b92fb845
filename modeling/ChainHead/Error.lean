import ChainHead.Beacon.BlockId
import ChainHead.Http.Exchange
import ChainHead.Settings
import ChainHead.Stream.Fault

/-! Everything that can fail, by cause, and how it is said. Only a response with a status outside of success
carries a status. -/

namespace ChainHead

/-- What is wrong with what the caller asked for. -/
inductive RequestFault where
  | badBlockId (fault : BlockId.Fault)
  | badStreamUrl (fault : Http.Target.Fault)
  | unreadableSettings (path : String) (fault : Files.Fault)
  | noBuffer
  | other (text : String)
deriving DecidableEq

def RequestFault.message : RequestFault → String
  | .badBlockId fault => fault.message
  | .badStreamUrl fault => "Invalid SSE URL: invalid parameter: " ++ fault.message
  | .unreadableSettings path fault =>
    "failed to read config file '" ++ path ++ "': " ++ fault.message
  | .noBuffer => "head_event_buffer must be greater than zero"
  | .other text => text

inductive Error where
  | config (fault : RequestFault)
  | transport (fault : Http.Transport)
  | status (code : Nat) (body : Option String)
  | decode (fault : Json.Failure)
  | stream (fault : StreamFault)
  | malformedEvent (fault : EventFault)
  | url (fault : Url.Fault)
  | toml (document : String) (fault : Toml.Fault)
deriving DecidableEq

namespace Error

def message : Error → String
  | .config fault => "config error: " ++ fault.message
  | .transport _ => "transport error"
  | .status code body =>
    "upstream returned status " ++ Numeral.text code ++ ": " ++ body.getD "<empty body>"
  | .decode fault => "decode error: " ++ fault.message
  | .stream fault => "SSE error: " ++ fault.message
  | .malformedEvent fault => "malformed event: " ++ fault.message
  | .url fault => "invalid URL: " ++ fault.message
  | .toml document fault => "TOML parse error: " ++ fault.message document

def status? : Error → Option Nat
  | .status code _ => some code
  | _ => none

def ofSettings : Settings.Fault → Error
  | .unreadable path fault => .config (.unreadableSettings path fault)
  | .document text fault => .toml text fault
  | .noBuffer => .config .noBuffer

/-- Whether an error is about one event and leaves its stream as it is. -/
def isSkippable : Error → Bool
  | .decode _ | .malformedEvent _ => true
  | _ => false

end Error

/-- The block with a name. A text that is no name is a fault of the caller. -/
def BlockId.named (name : String) : Except Error BlockId :=
  match BlockId.read name with
  | .ok id => .ok id
  | .error fault => .error (.config (.badBlockId fault))

end ChainHead
