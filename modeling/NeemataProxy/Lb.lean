import NeemataProxy.Lib.Str

/-!
# Transports and load balancers (`src/lb.rs`)

The load balancer itself is Pingora's. What the proxy gives it and relies on is its identity (the `Arc` that
pools and health tasks share), the addresses it was built from and its health check.
-/

namespace NeemataProxy

open Lib

/-- `TransportKind`. -/
inductive TransportKind where
  | http1
  | http2
  | ws
  deriving DecidableEq, Repr

/-- A resolved address; `ip` is the text of the address, which IPv6 puts in brackets. -/
structure SocketAddr where
  ip : Str
  isIpv6 : Bool
  port : Nat
  deriving DecidableEq, Repr

/-- `addr.to_string()`. -/
def SocketAddr.toStr (a : SocketAddr) : Str :=
  if a.isIpv6 then '[' :: a.ip ++ Str.lit "]:" ++ Str.decimal a.port
  else a.ip ++ ':' :: Str.decimal a.port

/-- `TcpHealthCheck::new()` or `TcpHealthCheck::new_tls(hostname)`. -/
inductive TcpHealthCheck where
  | plain
  | tls (hostname : Str)
  deriving DecidableEq, Repr

/-- `Arc<LoadBalancer<RoundRobin>>`: `id` names the allocation by the rebuild and the transport it was made for;
two pools share a balancer when it agrees. -/
structure LoadBalancer where
  id : Nat × TransportKind
  addrs : Finset SocketAddr
  healthCheck : TcpHealthCheck
  healthCheckFrequencyMs : Nat
  deriving DecidableEq

end NeemataProxy
