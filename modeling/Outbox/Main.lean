import Outbox.Metrics
import Outbox.Rpc.Node
import Outbox.Settings.Load
import Outbox.Signer.Key

namespace Outbox

/-- The environment as far as a text mentions it. -/
def readVariables (names : List String) : IO (String → Option String) := do
  let values ← names.mapM fun name => return (name, ← IO.getEnv name)
  return fun name => (values.lookup name).join

def mentioned (text : String) : List String :=
  (Settings.pieces 0 text.toList).filterMap fun
    | .reference name => some (String.ofList name)
    | .char _ => none

/-- The text of a file, if it can be read. -/
def fileText (path : String) : IO (Option String) := do
  try
    return some (← IO.FS.readFile path)
  catch _ =>
    return none

def report (s : Settings) (env : String → Option String) : List String :=
  let wallet := match s.wallet.privateKeyEnv with
    | none => "No wallet configured - sending requires explicit identities"
    | some name =>
      match Signer.ofVariable env name with
      | .ok signer => "Identity " ++ signer.address.text
      | .error f => "Identity not loaded: " ++ f.message
  ["Endpoint " ++ s.client.endpoint, wallet] ++
    if s.metrics.enabled then
      ["Metrics: http://0.0.0.0:" ++ toString s.metrics.port ++ "/metrics"]
    else []

end Outbox

open Outbox in
def main : IO UInt32 := do
  let pathEnv ← readVariables ["TX_ADMISSION_CONFIG"]
  let path := Settings.path pathEnv
  let text ← fileText path
  let env ← readVariables (mentioned (text.getD ""))
  match Settings.load env (fun _ => text) path with
  | .error e =>
    IO.eprintln ("Error: " ++ e.message)
    return 1
  | .ok s =>
    let env ← readVariables s.wallet.privateKeyEnv.toList
    for line in report s env do
      IO.println line
    return 0
