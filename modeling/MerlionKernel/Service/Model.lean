import MerlionKernel.Rust.Find

/-!
# The service manager

`start`, `stop` and `check_restart` of `service_mgr.rs`, with the time of the call as an argument.
A oneshot completes as soon as it is started. The journal and the process ids are only written to
and are left out; of a 64-bit counter of process ids no run sees the end.
-/

namespace MerlionKernel.Service

open Rust

/-- How the service process behaves. -/
inductive ServiceType
  | simple
  | forking
  | oneshot
  | notify
  deriving DecidableEq

/-- The state of a service unit. -/
inductive ServiceState
  | inactive
  | starting
  | running
  | stopping
  | stopped
  | failed
  deriving DecidableEq

/-- When to restart a service. -/
inductive RestartPolicy
  | always
  | onFailure
  | onAbnormal
  | never

/-- Dependency types between service units. -/
inductive DepKind
  | after
  | requires
  | wants
  deriving DecidableEq

/-- A dependency edge. -/
structure Dependency where
  target : String
  kind : DepKind
  deriving DecidableEq

/-- A service unit and its state. -/
structure ServiceUnit where
  name : String
  svcType : ServiceType
  dependencies : List Dependency := []
  state : ServiceState := .inactive
  restartPolicy : RestartPolicy := .onFailure
  restartDelay : Nat := 500
  restartCount : Nat := 0
  maxRetries : Nat := 5
  stateChangeTick : Nat := 0
  startTick : Nat := 0

/-- The services that are registered. -/
abbrev Services := List ServiceUnit

def ServiceUnit.setState (now : Nat) (state : ServiceState) (svc : ServiceUnit) : ServiceUnit :=
  { svc with state := state, stateChangeTick := now }

/-! ### Calls -/

/-- The service that `find_service` finds is changed in place. -/
def change (name : String) (f : ServiceUnit → ServiceUnit) (services : Services) : Services :=
  modifyFirst (fun s => s.name = name) f services

def findService (services : Services) (name : String) : Option ServiceUnit :=
  services.find? fun s => s.name = name

/-- A service of the name is running. -/
def isRunning (services : Services) (name : String) : Bool :=
  services.any fun s => s.name = name && s.state = .running

/-- The dependency is required and not running. -/
def unmet (services : Services) (dep : Dependency) : Bool :=
  dep.kind = .requires && !isRunning services dep.target

/-- The unit after it is started. -/
def ServiceUnit.launch (now : Nat) (svc : ServiceUnit) : ServiceUnit :=
  let svc := { svc.setState now .starting with startTick := now, restartCount := 0 }
  if svc.svcType = .oneshot then (svc.setState now .running).setState now .stopped
  else svc.setState now .running

/-- Start a service by name. -/
def start (now : Nat) (name : String) (services : Services) : Except String Unit × Services :=
  match findService services name with
  | none => (.error ("service '" ++ name ++ "' not found"), services)
  | some svc =>
    if svc.state = .running then (.error ("'" ++ name ++ "' is already running"), services)
    else
      match svc.dependencies.find? (unmet services) with
      | some dep =>
        (.error ("required dependency '" ++ dep.target ++ "' is not running"), services)
      | none => (.ok (), change name (ServiceUnit.launch now) services)

/-- The unit after it is stopped. -/
def ServiceUnit.halt (now : Nat) (svc : ServiceUnit) : ServiceUnit :=
  (svc.setState now .stopping).setState now .stopped

/-- Stop a service by name. -/
def stop (now : Nat) (name : String) (services : Services) : Except String Unit × Services :=
  match findService services name with
  | none => (.error ("service '" ++ name ++ "' not found"), services)
  | some svc =>
    if svc.state ≠ .running then (.error ("'" ++ name ++ "' is not running"), services)
    else (.ok (), change name (ServiceUnit.halt now) services)

/-! ### Automatic restarts -/

/-- The policy asks for a restart of a service in this state. -/
def ServiceUnit.shouldRestart (svc : ServiceUnit) : Bool :=
  match svc.restartPolicy with
  | .always => true
  | .onFailure => svc.state = .failed
  | .onAbnormal => svc.state = .failed
  | .never => false

/-- The service is put on the list of those to be restarted. -/
def ServiceUnit.due (now : Nat) (svc : ServiceUnit) : Exec Bool :=
  if svc.state ≠ .failed ∧ svc.state ≠ .stopped then return false
  else if svc.restartCount ≥ svc.maxRetries then return false
  else if svc.shouldRestart then do
    let elapsed ← sub now svc.stateChangeTick
    return elapsed ≥ svc.restartDelay
  else return false

/-- The list `to_restart`. -/
def toRestart (now : Nat) : Services → Exec (List String)
  | [] => return []
  | svc :: services => do
    let due ← svc.due now
    let names ← toRestart now services
    return if due then svc.name :: names else names

/-- The attempt is counted. The count was below `max_retries` and does not overflow. -/
def ServiceUnit.countAttempt (svc : ServiceUnit) : ServiceUnit :=
  { svc with restartCount := svc.restartCount + 1 }

/-- A service that could not be started is given up after its last attempt. -/
def ServiceUnit.giveUp (now : Nat) (svc : ServiceUnit) : ServiceUnit :=
  if svc.restartCount ≥ svc.maxRetries then svc.setState now .failed else svc

/-- One round of the loop over the list. -/
def retry (now : Nat) (name : String) (services : Services) : Except String Unit × Services :=
  let out := start now name (change name ServiceUnit.countAttempt services)
  match out.1 with
  | .ok () => out
  | .error e => (.error e, change name (ServiceUnit.giveUp now) out.2)

/-! ### Histories -/

/-- What has happened to a service. -/
inductive Event
  /-- It was started by a call. -/
  | started (name : String)
  /-- It was stopped by a call. -/
  | stopped (name : String)
  /-- It was restarted automatically. -/
  | restarted (name : String)
  deriving DecidableEq

def Event.name : Event → String
  | .started name => name
  | .stopped name => name
  | .restarted name => name

/-- The services, and what has happened to them, the last event first. -/
structure Session where
  services : Services
  history : List Event

namespace Session

/-- The session after a call, whose event is recorded if it succeeds. -/
def record (s : Session) (event : Event) (out : Except String Unit × Services) : Session where
  services := out.2
  history :=
    match out.1 with
    | .ok () => event :: s.history
    | .error _ => s.history

def start (now : Nat) (name : String) (s : Session) : Session :=
  s.record (.started name) (Service.start now name s.services)

def stop (now : Nat) (name : String) (s : Session) : Session :=
  s.record (.stopped name) (Service.stop now name s.services)

/-- Restart a service by name. An error of `stop` is ignored. -/
def restart (now : Nat) (name : String) (s : Session) : Session :=
  (s.stop now name).start now name

def retry (now : Nat) (s : Session) (name : String) : Exec Session :=
  return s.record (.restarted name) (Service.retry now name s.services)

/-- Restart the services that are due. -/
def checkRestart (now : Nat) (s : Session) : Exec Session := do
  let names ← toRestart now s.services
  names.foldlM (retry now) s

end Session

/-- A call. -/
inductive Call
  | start (name : String)
  | stop (name : String)
  | restart (name : String)
  | checkRestart

/-- A call at a time. -/
def step (s : Session) : Nat × Call → Exec Session
  | (now, .start name) => return s.start now name
  | (now, .stop name) => return s.stop now name
  | (now, .restart name) => return s.restart now name
  | (now, .checkRestart) => s.checkRestart now

end MerlionKernel.Service
