import NeemataProxy.Lib.HashMap
import NeemataProxy.Lb

/-!
# The service registry (`src/server.rs`)

Each access to the registry, each shutdown signal and each wait for a task is one step. Between its steps a call
of `upsert_service`, `remove_service` or `stop_all` keeps the handles it still has to deal with in its `Hands`.
-/

namespace NeemataProxy

open Lib

structure BoundListenAddress where
  hostname : Str
  port : Nat
  deriving DecidableEq, Repr

/-- What a task runs: the health checks of a balancer, or the listener of a start attempt. -/
inductive Service where
  | health (lb : LoadBalancer)
  | listener (attempt : Nat) (addr : BoundListenAddress)
  deriving DecidableEq

/-- A task runs until it has been told to shut down, and ends some time after that. -/
inductive TaskStatus where
  | running
  | signalled
  | terminated
  deriving DecidableEq, Repr

structure ServiceTask where
  service : Service
  status : TaskStatus
  deriving DecidableEq

/-- `ServiceHandle` with its `shutdown` sender and its `task`: the number of the task. -/
abbrev ServiceHandle := Nat

/-- `Server`, with all tasks that have been spawned. -/
structure Server where
  services : HashMap Str ServiceHandle
  tasks : List ServiceTask

namespace Server

def new : Server := ⟨.empty, []⟩

/-- `tokio::spawn`. -/
def spawn (s : Server) (service : Service) : Server := { s with tasks := s.tasks ++ [⟨service, .running⟩] }

/-- The handle that `spawn` returns. -/
def nextHandle (s : Server) : ServiceHandle := s.tasks.length

/-- `guard.insert(name, service)`. -/
def insert (s : Server) (name : Str) (h : ServiceHandle) : Server := { s with services := s.services.insert name h }

/-- `guard.remove(name)`. -/
def remove (s : Server) (name : Str) : Server := { s with services := s.services.remove name }

/-- `std::mem::take(&mut *guard)`. -/
def take (s : Server) : Server := { s with services := .empty }

def setStatus (s : Server) (h : ServiceHandle) (status : TaskStatus) : Server :=
  { s with tasks := s.tasks.modify h (fun t => { t with status := status }) }

def statusOf (s : Server) (h : ServiceHandle) : Option TaskStatus := s.tasks[h]?.map ServiceTask.status

/-- `handle.shutdown.send(true)`. -/
def signal (s : Server) (h : ServiceHandle) : Server :=
  if s.statusOf h = some .running then s.setStatus h .signalled else s

end Server

/-- The handles that a call is responsible for. -/
@[ext]
structure Hands where
  /-- A spawned service that is about to be registered. -/
  spawned : Option (Str × ServiceHandle)
  /-- The handles it has taken out of the registry, in the order in which it shuts them down. -/
  held : List ServiceHandle
  /-- The first of them has been told to shut down. -/
  sent : Bool
  deriving DecidableEq, Repr

namespace Hands

def empty : Hands := ⟨none, [], false⟩

/-- A service to be registered under a name. -/
def register (name : Str) (h : ServiceHandle) : Hands := ⟨some (name, h), [], false⟩

/-- Handles to be shut down. -/
def displaced (held : List ServiceHandle) : Hands := ⟨none, held, false⟩

def handles (hands : Hands) : List ServiceHandle := (hands.spawned.map Prod.snd).toList ++ hands.held

/-- The next step of a call with these hands: the insertion of `upsert_service`, or a step of shutting down. -/
def step (s : Server) (hands : Hands) : Option (Server × Hands) :=
  match hands.spawned, hands.held with
  | some (name, h), _ => some (s.insert name h, displaced (s.services.get name).toList)
  | none, [] => none
  | none, h :: rest =>
      if hands.sent then
        if s.statusOf h = some .terminated then some (s, displaced rest) else none
      else some (s.signal h, ⟨none, h :: rest, true⟩)

end Hands

end NeemataProxy
