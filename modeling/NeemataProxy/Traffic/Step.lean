import NeemataProxy.Proxy.Runs
import NeemataProxy.Router.Filter

/-!
# Requests on a proxy

Any number of requests go through the phases of `SharedRouter` while calls change the proxy. Pingora asks for a peer after
`request_filter`, again when `fail_to_connect` lets it retry, and again when a reused connection has failed; each access
to the router is one step. `hash` stands for `DefaultHasher`.
-/

namespace NeemataProxy

open Lib Routing

abbrev RequestId := Nat

/-- What Pingora does next with a request. -/
inductive Phase where
  | arriving
  | upstreamPeer
  | select (resolved : ResolvedPool)
  | bind (resolved : ResolvedPool) (selected : Str)
  | connect (peer : HttpPeer)
  | ended

def Phase.Offers (addr : SocketAddr) : Phase → Prop
  | .select resolved => addr ∈ resolved.lb.addrs
  | _ => True

instance (addr : SocketAddr) : (phase : Phase) → Decidable (phase.Offers addr)
  | .select resolved => inferInstanceAs (Decidable (addr ∈ resolved.lb.addrs))
  | .arriving | .upstreamPeer | .bind _ _ | .connect _ | .ended => isTrue trivial

/-- `session` is the request as it arrived, `loaded` is the proxy in which `request_filter` loaded its `RouterConfig`, and
`selected` are the addresses that its balancer has given; no step reads the last two. -/
structure Request where
  session : Option Session
  ctx : RouterCtx
  phase : Phase
  loaded : Option Shared
  selected : List Str

def Request.new : Request := ⟨none, .default, .arriving, none, []⟩

structure Traffic where
  world : World
  requests : RequestId → Request

namespace Traffic

def new (parsed : Options.ProxyOptionsParsed) : Traffic := ⟨.new parsed, fun _ => .new⟩

def router (t : Traffic) : Router := t.world.shared.router

/-- A step of request `r`, and what it does to the router. -/
def set (t : Traffic) (r : RequestId) (router : Router) (req : Request) : Traffic where
  world := { t.world with shared := { t.world.shared with router := router } }
  requests := Function.update t.requests r req

end Traffic

/-- `selected` is what `lb.select` returns, `e` is the error of the connection. -/
inductive TrafficLabel where
  | proxy (l : Label)
  | requestFilter (r : RequestId) (now : Nat) (session : Session)
  | lookup (r : RequestId) (now : Nat) (ord : IterOrder (AffinityMapKey × AffinityEntry))
  | select (r : RequestId) (selected : Option SocketAddr)
  | bind (r : RequestId) (now : Nat) (ord : IterOrder (AffinityMapKey × AffinityEntry))
  | failToConnect (r : RequestId) (e : Error)
  | retry (r : RequestId)

namespace Traffic

variable (hash : AffinityMapKey → UInt64)

def filterStep (t : Traffic) (now : Nat) (session : Session) : Router × Request :=
  let f := requestFilter now t.router session .default
  let phase := match f.2.2.2 with
    | .ok false => .upstreamPeer
    | _ => .ended
  (f.1, ⟨some session, f.2.2.1, phase, some t.world.shared, []⟩)

def lookupStep (t : Traffic) (req : Request) (now : Nat) (ord : IterOrder (AffinityMapKey × AffinityEntry)) :
    Router × Request :=
  let l := upstreamPeerLookup hash ord now t.router req.ctx
  let phase := match l.2.2 with
    | .failed _ => .ended
    | .mapped resolved addr => .connect (peerFor resolved l.1.timeouts addr)
    | .select resolved => .select resolved
  (l.1, { req with ctx := l.2.1, phase := phase })

def selectStep (req : Request) (resolved : ResolvedPool) (selected : Option SocketAddr) : Request :=
  let s := upstreamPeerSelect req.ctx selected
  match s.2 with
  | .error _ => { req with ctx := s.1, phase := .ended }
  | .ok addr => { req with ctx := s.1, phase := .bind resolved addr, selected := req.selected ++ [addr] }

def bindStep (t : Traffic) (req : Request) (now : Nat) (ord : IterOrder (AffinityMapKey × AffinityEntry))
    (resolved : ResolvedPool) (selected : Str) : Router × Request :=
  let b := upstreamPeerBind hash ord now t.router req.ctx resolved selected
  (b.1, { req with phase := .connect b.2 })

def failStep (t : Traffic) (req : Request) (e : Error) : Router × Request :=
  let f := failToConnect hash t.router req.ctx e
  (f.1, { req with ctx := f.2.1, phase := if f.2.2.retry then .upstreamPeer else .ended })

def step (t : Traffic) : TrafficLabel → Option Traffic
  | .proxy l => (NeemataProxy.step t.world l).map fun w => { t with world := w }
  | .requestFilter r now session =>
      match (t.requests r).phase with
      | .arriving => some (t.set r (t.filterStep now session).1 (t.filterStep now session).2)
      | _ => none
  | .lookup r now ord =>
      match (t.requests r).phase with
      | .upstreamPeer =>
          some (t.set r (t.lookupStep hash (t.requests r) now ord).1 (t.lookupStep hash (t.requests r) now ord).2)
      | _ => none
  | .select r selected =>
      match (t.requests r).phase with
      | .select resolved => some (t.set r t.router (selectStep (t.requests r) resolved selected))
      | _ => none
  | .bind r now ord =>
      match (t.requests r).phase with
      | .bind resolved selected =>
          let b := t.bindStep hash (t.requests r) now ord resolved selected
          some (t.set r b.1 b.2)
      | _ => none
  | .failToConnect r e =>
      match (t.requests r).phase with
      | .connect _ =>
          let f := t.failStep hash (t.requests r) e
          some (t.set r f.1 f.2)
      | _ => none
  | .retry r =>
      match (t.requests r).phase with
      | .connect _ => some (t.set r t.router { t.requests r with phase := .upstreamPeer })
      | _ => none

/-- The steps of traffic as a relation. -/
def Steps (t : Traffic) (l : TrafficLabel) (t' : Traffic) : Prop := t.step hash l = some t'

/-- What a step of request `r` does to the router and to the request. -/
inductive Act (t : Traffic) (r : RequestId) : TrafficLabel → Router → Request → Prop where
  | filtered (now : Nat) (session : Session) (hphase : (t.requests r).phase = .arriving) :
      Act t r (.requestFilter r now session) (t.filterStep now session).1 (t.filterStep now session).2
  | lookedUp (now : Nat) (ord : IterOrder (AffinityMapKey × AffinityEntry)) (hphase : (t.requests r).phase = .upstreamPeer) :
      Act t r (.lookup r now ord) (t.lookupStep hash (t.requests r) now ord).1
        (t.lookupStep hash (t.requests r) now ord).2
  | selected {resolved : ResolvedPool} (selected : Option SocketAddr) (hphase : (t.requests r).phase = .select resolved) :
      Act t r (.select r selected) t.router (selectStep (t.requests r) resolved selected)
  | bound {resolved : ResolvedPool} {selected : Str} (now : Nat) (ord : IterOrder (AffinityMapKey × AffinityEntry))
      (hphase : (t.requests r).phase = .bind resolved selected) :
      Act t r (.bind r now ord) (t.bindStep hash (t.requests r) now ord resolved selected).1
        (t.bindStep hash (t.requests r) now ord resolved selected).2
  | failed {peer : HttpPeer} (e : Error) (hphase : (t.requests r).phase = .connect peer) :
      Act t r (.failToConnect r e) (t.failStep hash (t.requests r) e).1 (t.failStep hash (t.requests r) e).2
  | retried {peer : HttpPeer} (hphase : (t.requests r).phase = .connect peer) :
      Act t r (.retry r) t.router { t.requests r with phase := .upstreamPeer }

/-- A step is a step of the proxy or of one request. -/
theorem step_cases {t t' : Traffic} {l : TrafficLabel} (h : t.step hash l = some t') :
    (∃ pl w, l = .proxy pl ∧ NeemataProxy.step t.world pl = some w ∧ t' = { t with world := w }) ∨
    ∃ r router req, Act hash t r l router req ∧ t' = t.set r router req := by
  cases l with
  | proxy pl =>
      obtain ⟨w, hw, rfl⟩ := Option.map_eq_some_iff.mp h
      exact .inl ⟨pl, w, rfl, hw, rfl⟩
  | requestFilter r now session =>
      simp only [step] at h
      split at h
      · exact .inr ⟨r, _, _, .filtered now session ‹_›, (Option.some.inj h).symm⟩
      · cases h
  | lookup r now ord =>
      simp only [step] at h
      split at h
      · exact .inr ⟨r, _, _, .lookedUp now ord ‹_›, (Option.some.inj h).symm⟩
      · cases h
  | select r selected =>
      simp only [step] at h
      split at h
      · exact .inr ⟨r, _, _, .selected selected ‹_›, (Option.some.inj h).symm⟩
      · cases h
  | bind r now ord =>
      simp only [step] at h
      split at h
      · exact .inr ⟨r, _, _, .bound now ord ‹_›, (Option.some.inj h).symm⟩
      · cases h
  | failToConnect r e =>
      simp only [step] at h
      split at h
      · exact .inr ⟨r, _, _, .failed e ‹_›, (Option.some.inj h).symm⟩
      · cases h
  | retry r =>
      simp only [step] at h
      split at h
      · exact .inr ⟨r, _, _, .retried ‹_›, (Option.some.inj h).symm⟩
      · cases h

/-- `lb.select` returns one of the addresses that the balancer was given. -/
def Selects (t : Traffic) : TrafficLabel → Prop
  | .select r (some addr) => (t.requests r).phase.Offers addr
  | _ => True

instance (t : Traffic) : (l : TrafficLabel) → Decidable (t.Selects l)
  | .select r (some addr) => inferInstanceAs (Decidable ((t.requests r).phase.Offers addr))
  | .select _ none | .proxy _ | .requestFilter _ _ _ | .lookup _ _ _ | .bind _ _ _ | .failToConnect _ _ | .retry _ =>
      isTrue trivial

end Traffic

end NeemataProxy
