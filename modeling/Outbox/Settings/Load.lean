import Outbox.Settings.Decode
import Outbox.Settings.Substitution
import Outbox.Text.Blank
import Outbox.Text.Quoted
import Outbox.Toml.Document

namespace Outbox.Settings

inductive Defect where
  | noEndpoint
  | requestTimeout
  | syncSendTimeout
  | pollInterval
  | feeCacheTtl
  | nonceCacheCapacity
  | queueSize
  | workers
  | workerInterval
deriving DecidableEq

def Defect.message : Defect → String
  | noEndpoint => "client.endpoint must be set"
  | requestTimeout => "client.request_timeout_secs should be positive"
  | syncSendTimeout => "client.sync_send_timeout_secs should be positive"
  | pollInterval => "client.sync_send_poll_interval_ms should be positive"
  | feeCacheTtl => "fee cache TTLs should be positive"
  | nonceCacheCapacity => "client.nonce_cache_capacity should be at least 1"
  | queueSize => "confirmer.queue_size should be at least 1"
  | workers => "confirmer.workers should be at least 1"
  | workerInterval => "confirmer.worker_interval_ms should be positive"

/-- Everything that is wrong with the settings, in order of importance. -/
def defects (s : Settings) : List Defect :=
  let c := s.client
  let f := s.confirmer
  [(Text.trim c.endpoint.toList == [], Defect.noEndpoint),
    (c.requestTimeoutSecs == 0, .requestTimeout),
    (c.syncSendTimeoutSecs == 0, .syncSendTimeout),
    (c.syncSendPollIntervalMs == 0, .pollInterval),
    (c.tipCacheTtlSecs == 0 || c.baseFeeCacheTtlSecs == 0, .feeCacheTtl),
    (c.nonceCacheCapacity == 0, .nonceCacheCapacity),
    (f.queueSize == 0, .queueSize),
    (f.workers == 0, .workers),
    (f.workerIntervalMs == 0, .workerInterval)].filterMap fun e =>
      if e.1 then some e.2 else none

inductive Refusal where
  | unreadable (path : String)
  | malformed
  | defective (d : Defect)
deriving DecidableEq

def Refusal.message : Refusal → String
  | unreadable path => "Failed to read config file: " ++ Text.quoted path
  | malformed => "Failed to parse configuration"
  | defective d => d.message

/-- Of several defects the first is reported. -/
def parse (env : String → Option String) (text : String) : Except Refusal Settings :=
  match (Toml.parse? (substitute env text)).bind ofEntries? with
  | none => .error .malformed
  | some s =>
    match s.defects with
    | [] => .ok s
    | d :: _ => .error (.defective d)

/-- The file named by the environment, or else the usual one. -/
def path (env : String → Option String) : String :=
  (env "TX_ADMISSION_CONFIG").getD "config/default.toml"

/-- `read?` answers the text of a file, if there is one. -/
def load (env : String → Option String) (read? : String → Option String) (path : String) :
    Except Refusal Settings :=
  match read? path with
  | none => .error (.unreadable path)
  | some text => parse env text

/-- The parts of a relative path that name something, with steps up taken back. A path to a file
neither ends in a slash nor starts with one, and every folder that it goes through must exist. -/
def resolve (folders : List (List String)) : List String → List String → Option (List String)
  | here, [] => some here
  | here, "" :: rest => resolve folders here rest
  | here, "." :: rest => resolve folders here rest
  | here, ".." :: rest => if here = [] then none else resolve folders here.dropLast rest
  | here, [name] => some (here ++ [name])
  | here, name :: rest =>
    if folders.contains (here ++ [name]) then resolve folders (here ++ [name]) rest else none

/-- All folders on the way to a file. -/
def foldersOf (file : List String) : List (List String) :=
  (List.range file.length).map fun n => file.take n

/-- Looks a path up among files that are known by their relative paths. Bytes that are no text
cannot be read. -/
def lookup (files : List (String × Option String)) (path : String) : Option String :=
  let split := fun p : String => (p.splitOn "/")
  let folders := files.flatMap fun f => foldersOf (split f.1)
  if path = "" ∨ path.startsWith "/" ∨ path.endsWith "/" then none
  else
    (resolve folders [] (split path)).bind fun parts =>
      (files.find? fun f => split f.1 == parts).bind (·.2)

end Outbox.Settings
