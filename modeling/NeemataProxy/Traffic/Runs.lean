import NeemataProxy.Traffic.Step

/-!
# Runs of requests on a proxy
-/

namespace NeemataProxy

open Lib Routing Options

theorem traffic_of_check (hash : AffinityMapKey → UInt64) (allow : Traffic → TrafficLabel → Prop)
    [∀ t l, Decidable (allow t l)] (t₀ : Traffic) (ls : List TrafficLabel) (check : Traffic → Bool)
    (h : (runAllowed (Traffic.step hash) allow t₀ ls).any check = true) :
    ∃ t, Reach (Traffic.Steps hash) allow t₀ t ∧ check t = true := Reach.exists_of_any h

theorem traffic_new {options : ProxyOptions} {w₀ : World} (hnew : Proxy.new options = .ok w₀) :
    ∃ parsed, (⟨w₀, fun _ => .new⟩ : Traffic) = .new parsed := by
  obtain ⟨parsed, -, rfl⟩ := proxy_new hnew
  exact ⟨parsed, rfl⟩

/-- What holds of a new request and is kept by the steps of a request holds of every request in a run. -/
theorem requests_of_reach {hash : AffinityMapKey → UInt64} {allow : Traffic → TrafficLabel → Prop} {parsed : ProxyOptionsParsed}
    {P : Request → Prop} (hnew : P .new)
    (hact : ∀ (t : Traffic) (r : RequestId) (l : TrafficLabel) (router : Router) (req : Request),
      Reach (Traffic.Steps hash) allow (.new parsed) t → allow t l → Traffic.Act hash t r l router req → P (t.requests r) → P req)
    {t : Traffic} (hrun : Reach (Traffic.Steps hash) allow (.new parsed) t) (r : RequestId) : P (t.requests r) := by
  induction hrun with
  | refl => exact hnew
  | @tail t₁ t₂ l hrun hallow hstep ih =>
      rcases Traffic.step_cases hash hstep with ⟨pl, w, -, -, rfl⟩ | ⟨r', router, req, hstepped, rfl⟩
      · exact ih
      · by_cases hr : r = r'
        · subst hr
          simp only [Traffic.set, Function.update_self]
          exact hact t₁ r l router req hrun hallow hstepped ih
        · simp only [Traffic.set, Function.update_of_ne hr]
          exact ih

/-! ## A sample proxy with sticky sessions -/

def stickyOptions : ProxyOptions :=
  { sampleOptions with stickySessions := some ⟨some true, none, none, none, none⟩ }

def stickyParsed : ProxyOptionsParsed :=
  { sampleParsed with
    stickySessions := ⟨true, Str.lit "nmt_affinity", Str.lit "x-nmt-affinity-key", 600000, 20000⟩ }

theorem sticky_new : Proxy.new stickyOptions = .ok (World.new stickyParsed) := rfl

def sampleHash (_ : AffinityMapKey) : UInt64 := 7

def upstreamAt (port : Nat) : UpstreamOptions :=
  .port ⟨Str.lit "port", Str.lit "http", false, Str.lit "127.0.0.1", port⟩

def addrAt (port : Nat) : SocketAddr := ⟨Str.lit "127.0.0.1", false, port⟩

/-- The application gets upstreams at these ports, one after the other. -/
def addUpstreams (ports : List Nat) : List TrafficLabel :=
  ports.zipIdx.flatMap fun p =>
    (begins p.2 (.addUpstream (Str.lit "app") (upstreamAt p.1)) :: steps p.2 5).map TrafficLabel.proxy

/-- A request for `/` with an affinity key. -/
def clientSession : Session where
  reqHeader := ⟨⟨none, none, some ⟨['/'], none, root_path_ok⟩⟩,
    [(Str.lit "host", Str.bytes (Str.lit "a")), (Str.lit "x-nmt-affinity-key", Str.bytes (Str.lit "client"))]⟩
  isUpgradeReq := false
  rawPathLen := 1
  h1RawLen := 40
  closed := false
  downstream := ⟨none, none, none⟩

/-- Whether the request has a peer at this port. -/
def Traffic.at (t : Traffic) (r : RequestId) (port : Nat) : Bool :=
  match (t.requests r).phase with
  | .connect peer => peer.address = (addrAt port).toStr
  | _ => false

theorem connect_of_at {t : Traffic} {r : RequestId} {port : Nat} (h : t.at r port = true) :
    ∃ peer, (t.requests r).phase = .connect peer ∧ peer.address = (addrAt port).toStr := by
  unfold Traffic.at at h
  split at h
  · exact ⟨_, ‹_›, of_decide_eq_true h⟩
  · cases h

end NeemataProxy
