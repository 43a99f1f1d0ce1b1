import Rurge.Capture.Entry
import Rurge.Config.Host
import Rurge.FakeIp.Safety
import Rurge.Lib.Assoc

/-!
# The destinations of a UDP session

Each destination is a flow of the dialer's, found two ways: by the endpoint the app sent to, when a
datagram comes, and by the target the dialer names, when a reply or a refusal does.  A destination
at a fake address has the name's lease for as long as it is there.  What becomes of a datagram's
bytes once its destination is found (the budget, the queue) is left out: no destination depends on
it.
-/

namespace Rurge

namespace Tun

open FakeIp
open Capture (RejectKind)

/-- `std::net::SocketAddr`, without a flow label or a scope. -/
@[ext]
structure Endpoint where
  ip : IpAddr
  port : UInt16
  deriving DecidableEq

/-- The most an IP header and a UDP header take. -/
def QUOTE_MAX : ℕ := 60 + 8

/-- The IP header and the UDP header of a datagram, which an ICMP message quotes. -/
structure Quote where
  bytes : List UInt8
  le_max : bytes.length ≤ QUOTE_MAX

def Quote.of (headers : List UInt8) : Quote where
  bytes := headers.take QUOTE_MAX
  le_max := List.length_take_le _ _

/-- What the destination of a packet is. -/
inductive Place
  | Responder
  | Own
  | Fake
  | Real
  deriving DecidableEq

/-- Which of the four an address is. -/
def place : IpAddr → Place
  | .v4 ip =>
    let n := ip.toNat
    if n / 2 ^ 8 = 0xc61200 then if 2 ≤ n % 2 ^ 8 ∧ n % 2 ^ 8 ≤ 9 then .Responder else .Own
    else if n / 2 ^ 16 = 0xc612 ∨ n / 2 ^ 16 = 0xc613 then .Fake
    else .Real
  | .v6 ip =>
    let n := ip.toNat
    if n = 0xfd006152 * 2 ^ 96 + 2 then .Responder
    else if n / 2 ^ 8 = 0xfd006152 * 2 ^ 88 then .Own
    else if n / 2 ^ 64 = 0xfd006152 * 2 ^ 32 then .Fake
    else .Real

/-- What the receive task knows of a datagram of the app. -/
structure Datagram where
  app : Endpoint
  dst : Endpoint
  /-- The two addresses are those of one IP header. -/
  family : dst.ip.isIpv4 = app.ip.isIpv4
  quote : Quote
  now : ℕ

/-- One destination of a session. `lease` is the index of the fake address it holds. -/
structure Entry where
  target : Target
  endpoint : Endpoint
  quote : Quote
  lease : Option ℕ
  up : ℕ
  down : ℕ

namespace Entry

def new (endpoint : Endpoint) (target : Target) (lease : Option ℕ) (quote : Quote) (now : ℕ) :
    Entry := ⟨target, endpoint, quote, lease, now, now⟩

/-- A datagram went to it. -/
def sent (entry : Entry) (quote : Quote) (now : ℕ) : Entry := { entry with quote, up := now }

/-- A reply came from it. -/
def answered (entry : Entry) (now : ℕ) : Entry := { entry with down := now }

/-- Whether a datagram went either way in the last `idle`. -/
def keep (entry : Entry) (now idle : ℕ) : Bool := decide (now - max entry.up entry.down < idle)

end Entry

/-- The destinations of a session, at most `max`. -/
structure Targets where
  max : ℕ
  by_endpoint : Assoc Endpoint Entry
  endpoints : Assoc Target Endpoint

namespace Targets

def new (max : ℕ) : Targets := ⟨max, ∅, ∅⟩

def is_full (t : Targets) : Bool := decide (t.max ≤ t.by_endpoint.entries.length)

/-- The destination of the flow the dialer calls `target`. -/
def by_target (t : Targets) (target : Target) : Option Entry :=
  (t.endpoints.lookup target).bind fun endpoint => t.by_endpoint.lookup endpoint

def insert (t : Targets) (entry : Entry) : Targets :=
  { t with
    endpoints := t.endpoints.insert entry.target entry.endpoint
    by_endpoint := t.by_endpoint.insert entry.endpoint entry }

/-- The destination at `endpoint` changed in place. -/
def modify (t : Targets) (endpoint : Endpoint) (f : Entry → Entry) : Targets :=
  { t with by_endpoint := Assoc.modify endpoint f t.by_endpoint }

/-- The destinations that go in a sweep. -/
def gone (t : Targets) (now idle : ℕ) : List Entry :=
  (t.by_endpoint.entries.filter fun e => !e.2.keep now idle).map Sigma.snd

/-- The destinations without a datagram either way for `idle` are let go. -/
def sweep (t : Targets) (now idle : ℕ) : Targets :=
  { t with
    by_endpoint := Assoc.retain (fun _ entry => entry.keep now idle) t.by_endpoint
    endpoints := Assoc.eraseAll ((t.gone now idle).map Entry.target) t.endpoints }

def clear (t : Targets) : Targets := { t with by_endpoint := ∅, endpoints := ∅ }

/-- The leases the destinations have. -/
def leases (t : Targets) : List ℕ := t.by_endpoint.entries.filterMap fun e => e.2.lease

end Targets

/-- A lease is dropped, if there is one. -/
def drop_lease (pool : System) : Option ℕ → System
  | none => pool
  | some index => pool.step (.drop index)

def drop_leases (pool : System) (leases : List ℕ) : System :=
  leases.foldl (fun pool index => pool.step (.drop index)) pool

/-- The target of a datagram, with the lease on the fake address if it is sent to one. -/
def target_of (pool : System) (d : Datagram) : Option (Target × Option ℕ) × System :=
  match place d.dst.ip with
  | .Fake =>
    ((pool.pool.lease d.dst.ip).1.map fun (name, index) =>
      (⟨.domain name, d.dst.port⟩, some index), pool.step (.lease d.dst.ip))
  | _ => (some (⟨.ip d.dst.ip, d.dst.port⟩, none), pool)

/-- A datagram for a session that is there: the target it is queued for. -/
def deliver (pool : System) (t : Targets) (d : Datagram) : System × Targets × Option Target :=
  match t.by_endpoint.lookup d.dst with
  | some entry => (pool, t.modify d.dst (·.sent d.quote d.now), some entry.target)
  | none =>
    match target_of pool d with
    | (none, pool) => (pool, t, none)
    | (some (target, lease), pool) =>
      if t.is_full then (drop_lease pool lease, t, none)
      else (pool, t.insert (.new d.dst target lease d.quote d.now), some target)

/-- What of the options a session uses; the options are checked as the TUN is opened. -/
structure TunOptions where
  max_udp_targets : ℕ
  udp_idle : ℕ
  positive : 0 < max_udp_targets

/-- A session of the app at `app`. -/
structure Session where
  app : Endpoint
  ending : Bool
  targets : Targets

/-- The session a datagram begins, with the target it is queued for. -/
def begin (options : TunOptions) (pool : System) (d : Datagram) :
    System × Option (Session × Target) :=
  match target_of pool d with
  | (none, pool) => (pool, none)
  | (some (target, lease), pool) =>
    (pool, some (⟨d.app, false, (Targets.new options.max_udp_targets).insert
      (.new d.dst target lease d.quote d.now)⟩, target))

/-- Why a reply cannot be shown to the app. -/
inductive Reason
  | Unsupported
  | UnknownFake
  deriving DecidableEq

/-- The endpoint a reply is shown as coming from, and the destinations as they are then. -/
def source_of (pool : System) (s : Session) (source : Target) (answers : Option Target) (now : ℕ) :
    Except Reason Endpoint × Targets :=
  match answers.bind s.targets.by_target with
  | some entry => (.ok entry.endpoint, s.targets.modify entry.endpoint (·.answered now))
  | none =>
    let flow := answers.getD source
    (match flow.host with
      | .ip ip => if ip.isIpv4 = s.app.ip.isIpv4 then .ok ⟨ip, flow.port⟩ else .error .Unsupported
      | .domain name =>
        match pool.pool.addressOf name with
        | some index =>
          .ok ⟨if s.app.ip.isIpv6 then .v6 (v6Of index) else .v4 (v4Of index), flow.port⟩
        | none => .error .UnknownFake, s.targets)

/-- The endpoint and the headers an app is told a refusal with. -/
def refused (s : Session) (target : Target) (kind : RejectKind) : Option (Endpoint × Quote) :=
  if kind = .Drop then none
  else (s.targets.by_target target).map fun entry => (entry.endpoint, entry.quote)

/-! ### A session and the pool over whole runs -/

/-- The pool, the app's session once its first datagram began it, and where the datagrams queued
went, the latest first, which nothing reads but the results. -/
structure World where
  pool : System
  session : Option Session
  sent : List (Target × Endpoint)

/-- What happens to a session and to the pool. -/
inductive Event
  | datagram (d : Datagram)
  | reply (source : Target) (answers : Option Target) (now : ℕ)
  | refused (target : Target) (kind : RejectKind)
  | sweep (now : ℕ)
  | mark_ending
  | ended
  | pool (op : Op)

namespace World

/-- The leases the session has. -/
def leases (w : World) : List ℕ := w.session.elim [] fun s => s.targets.leases

/-- A datagram: it begins the session, or is the session's unless it is another app's or the session
ends. -/
def receive (options : TunOptions) (w : World) (d : Datagram) : World :=
  match w.session with
  | none =>
    match begin options w.pool d with
    | (pool, none) => { w with pool }
    | (pool, some (s, target)) => ⟨pool, some s, (target, d.dst) :: w.sent⟩
  | some s =>
    if s.app = d.app ∧ s.ending = false then
      let (pool, targets, target) := deliver w.pool s.targets d
      ⟨pool, some { s with targets }, (target.map (·, d.dst)).toList ++ w.sent⟩
    else w

/-- One event.  What others do to the pool drops no lease of the session's. -/
def step (options : TunOptions) (w : World) : Event → World
  | .datagram d => w.receive options d
  | .reply source answers now =>
    { w with session := w.session.map fun s =>
      { s with targets := (source_of w.pool s source answers now).2 } }
  | .refused _ _ => w
  | .sweep now =>
    { w with
      pool := drop_leases w.pool (w.session.elim [] fun s =>
        (s.targets.gone now options.udp_idle).filterMap Entry.lease)
      session := w.session.map fun s => { s with targets := s.targets.sweep now options.udp_idle } }
  | .mark_ending => { w with session := w.session.map fun s => { s with ending := true } }
  | .ended =>
    { w with
      pool := drop_leases w.pool w.leases
      session := w.session.map fun s => { s with ending := true, targets := s.targets.clear } }
  | .pool op =>
    match op with
    | .drop index =>
      if w.leases.count index < w.pool.out.count index then
        { w with pool := w.pool.step (.drop index) }
      else w
    | op => { w with pool := w.pool.step op }

/-- Before the app's first datagram, with the pool as it was started. -/
def new (start : Start) : World := ⟨start.system, none, []⟩

def run (options : TunOptions) (start : Start) (events : List Event) : World :=
  Runs.run (step options) (new start) events

end World

end Tun

end Rurge
