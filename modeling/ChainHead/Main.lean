import ChainHead.Program

/-! The command line of the program. It reads the file of the settings, writes the log line by line, and
follows the node over the network it is given, which is one that reaches nothing. It knows no international
domains. -/

namespace ChainHead

def readSettingsFile (path : String) : IO (Except Files.Fault (List UInt8)) := do
  try
    let content ← IO.FS.readBinFile path
    return .ok content.toList
  catch
    | .noFileOrDirectory .. => return .error .notFound
    | e => return .error (.other (toString e))

/-- Writes entries, one on a line. -/
def writeLog (entries : List LogEntry) : IO Unit :=
  for entry in entries do
    IO.println entry.line

partial def followOn (w : World) (seen : Nat) : IO Unit := do
  writeLog (w.feed.log.drop seen)
  IO.sleep w.service.reconnectDelay.toUInt32
  match w.wake? with
  | some next => followOn next w.feed.log.length
  | none => return

/-- Follows the node of the settings, and gives the exit code. -/
def follow [Url.Idna] (s : Settings) : IO UInt32 := do
  let p := Program.start s .unreachable
  writeLog p.log
  match Feed.open? s.headEventBuffer.toNat with
  | none =>
    IO.eprint Program.noChannelText
    return 101
  | some feed =>
    let w : World := { service := p.client.service, feed, started := true, network := .unreachable }
    followOn w.rest 0
    return 0

end ChainHead

open ChainHead

section

open scoped Url.Idna

def main (arguments : List String) : IO UInt32 := do
  match CommandLine.read arguments with
  | .error fault =>
    IO.eprint fault.message
    return 2
  | .ok .help =>
    IO.print CommandLine.helpText
    return 0
  | .ok (.follow path) =>
    match Settings.ofFile path (← readSettingsFile path) with
    | .error fault =>
      IO.eprint (CommandLine.errorText (.ofSettings fault))
      return 1
    | .ok s => follow s

end
