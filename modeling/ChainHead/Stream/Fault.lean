import ChainHead.Text.Numeral
import ChainHead.Text.Utf8

/-! What can go wrong with an event stream. An event can be malformed, which leaves the stream as it is, or
the stream itself can end. -/

namespace ChainHead

inductive EventFault where
  | badKey (fault : Utf8.Fault)
  | badValue (fault : Utf8.Fault)
  | emptyEvent
  | other (text : String)
deriving DecidableEq, Repr

/-- Where text is broken, as a record. -/
def brokenText (fault : Utf8.Fault) : String :=
  let blamed :=
    match fault.blamed with
    | none => "None"
    | some n => "Some(" ++ Numeral.text n ++ ")"
  "Utf8Error \x7b valid_up_to: " ++ Numeral.text fault.validUpTo ++ ", error_len: " ++ blamed ++ " \x7d"

def EventFault.message : EventFault → String
  | .badKey fault => "malformed key: " ++ brokenText fault
  | .badValue fault => "malformed value: " ++ brokenText fault
  | .emptyEvent => "empty event"
  | .other text => text

inductive StreamFault where
  | endOfBody
  | unfinished
  | unexpectedResponse
  | noResponse
  | badLocation
  | tooManyRedirections
  | other (text : String)
deriving DecidableEq, Repr

def StreamFault.message : StreamFault → String
  | .endOfBody => "Eof"
  | .unfinished => "UnexpectedEof"
  | .unexpectedResponse => "UnexpectedResponse"
  | .noResponse => "HttpStream"
  | .badLocation => "MalformedLocationHeader"
  | .tooManyRedirections => "MaxRedirectLimitReached"
  | .other text => text

end ChainHead
