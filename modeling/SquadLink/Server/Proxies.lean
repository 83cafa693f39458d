import SquadLink.Lib.Text
import SquadLink.Server.Auth
import SquadLink.Server.Budgets

/-! The address that the limiter counts a request by (`server/init/src/main.rs`, `client_ip`), for clients
    behind a reverse proxy: how far the answers to one client depend on what another one asks. -/

namespace SquadLink

/-! ### Socket addresses -/

/-- `std::net::IpAddr` -/
inductive IpAddr
  | v4 (octets : Vector UInt8 4)
  | v6 (segments : Vector UInt16 8)
deriving DecidableEq

structure SocketAddr where
  ip : IpAddr
  port : UInt16
deriving DecidableEq

namespace IpAddr

/-- 127.0.0.0/8 and ::1. -/
def isLoopback : IpAddr → Bool
  | v4 octets => octets[0] == 127
  | v6 segments => segments == #v[0, 0, 0, 0, 0, 0, 0, 1]

def showV4 (octets : List UInt8) : List Char :=
  ['.'].intercalate (octets.map fun o => Nat.toDigits 10 o.toNat)

def showSegments (segments : List UInt16) : List Char :=
  [':'].intercalate (segments.map fun s => Nat.toDigits 16 s.toNat)

/-- A run of zero segments. -/
structure Span where
  start : Nat
  len : Nat

/-- The first of the longest runs, when the run `longest` has been seen before segment `i` and the run
    `current` ends there. -/
def zeroes (longest current : Span) : Nat → List UInt16 → Span
  | _, [] => longest
  | i, segment :: rest =>
    if segment = 0 then
      let current : Span := { start := if current.len = 0 then i else current.start, len := current.len + 1 }
      zeroes (if longest.len < current.len then current else longest) current (i + 1) rest
    else zeroes longest { start := 0, len := 0 } (i + 1) rest

/-- `Display`. A mapped IPv4 address is written as one, and the first longest run of two or more zero
    segments as `::`. -/
def toString : IpAddr → String
  | v4 octets => String.ofList (showV4 octets.toList)
  | v6 segments =>
    let s : List UInt16 := segments.toList
    if s.take 6 = [0, 0, 0, 0, 0, 0xffff] then
      String.ofList ("::ffff:".toList ++ showV4 ((s.drop 6).flatMap fun (x : UInt16) => [(x >>> 8).toUInt8, x.toUInt8]))
    else
      let span := zeroes { start := 0, len := 0 } { start := 0, len := 0 } 0 s
      if 1 < span.len then
        String.ofList (showSegments (s.take span.start) ++ [':', ':'] ++ showSegments (s.drop (span.start + span.len)))
      else String.ofList (showSegments s)

end IpAddr

example : (IpAddr.v6 #v[0x2001, 0xdb8, 0, 0, 1, 0, 0, 1]).toString = "2001:db8::1:0:0:1" := by decide

/-! ### The client's address -/

/-- Names, in lower case, and values, in the order of arrival. -/
abbrev HeaderMap := List (String × Bytes)

def HeaderMap.get (name : String) (headers : HeaderMap) : Option Bytes := (headers.find? fun h => h.1 == name).map (·.2)

/-- `HeaderValue::to_str`: visible ASCII, spaces and tabs only. -/
def headerText (value : Bytes) : Option (List Char) :=
  if value.all fun b => (32 ≤ b && b < 127) || b == 9 then some (value.map fun b => Char.ofNat b.toNat) else none

/-- The first entry of X-Forwarded-For. -/
def firstForwarded (headers : HeaderMap) : Option String :=
  (((headers.get "x-forwarded-for").bind headerText).map fun s => Text.trim (String.ofList (s.takeWhile (· != ',')))).filter
    fun s => !s.isEmpty

/-- X-Forwarded-For is only trusted when the direct peer is our loopback reverse proxy; otherwise the socket
    peer is used. -/
def clientIp (headers : HeaderMap) (peer : SocketAddr) : String :=
  if peer.ip.isLoopback then (firstForwarded headers).getD peer.ip.toString else peer.ip.toString

/-- A request at one of the two endpoints, as its handler receives it. -/
structure Arrival where
  now : Nat
  endpoint : Endpoint
  headers : HeaderMap
  peer : SocketAddr
deriving DecidableEq

def Arrival.toRequest (r : Arrival) : Request := .call r.now r.endpoint (clientIp r.headers r.peer)

/-! ### Clients behind a proxy -/

/-- The real address of a client as the proxy writes it: visible characters without a comma. -/
structure ClientAddr where
  text : String
  visible : ∀ c ∈ text.toList, 32 < c.toNat ∧ c.toNat < 127 ∧ c ≠ ','
  nonempty : text ≠ ""
deriving DecidableEq

/-- The proxy at `p` passes the client's request on, with the client's address first in X-Forwarded-For. -/
structure Arrival.Forwarded (p : IpAddr) (a : ClientAddr) (r : Arrival) : Prop where
  peer : r.peer.ip = p
  first : ∃ value hops, r.headers.get "x-forwarded-for" = some value ∧ headerText value = some (a.text.toList ++ hops) ∧
    ∀ c ∈ hops.head?, c = ','

/-- What reaches the limiter behind the proxy: the requests of clients, and the prune of the sweep task. -/
inductive Inbound
  | request (client : ClientAddr) (r : Arrival)
  | sweep (now : Nat)
deriving DecidableEq

namespace Inbound

def toRequest : Inbound → Request
  | request _ r => r.toRequest
  | sweep now => .prune now

def isFrom (a : ClientAddr) : Inbound → Bool
  | request b _ => b == a
  | sweep _ => false

def Through (p : IpAddr) : Inbound → Prop
  | request a r => r.Forwarded p a
  | sweep _ => True

/-- What the client is answered, if the request is one of its own: `false` for `rate_limited`. -/
def answer (a : ClientAddr) (m : RateLimiter) : Inbound → Option Bool
  | request b r => if b = a then r.toRequest.answer r.endpoint m else none
  | sweep _ => none

end Inbound

/-- The answers to a client in a history, at both endpoints. -/
def answersTo (a : ClientAddr) : RateLimiter → List Inbound → List Bool
  | _, [] => []
  | m, i :: h => (i.answer a m).toList ++ answersTo a (i.toRequest.serve m) h

/-- Behind the proxy at `p`, the answers to `b` are the same in histories that differ in requests of `a` only. -/
def Independent (p : IpAddr) (a b : ClientAddr) : Prop :=
  ∀ h₁ h₂ : List Inbound, (∀ i ∈ h₁, i.Through p) → (∀ i ∈ h₂, i.Through p) →
    h₁.filter (fun i => !i.isFrom a) = h₂.filter (fun i => !i.isFrom a) → answersTo b ∅ h₁ = answersTo b ∅ h₂

section
variable {p : IpAddr} {a b c : ClientAddr} {r : Arrival} {i : Inbound} {m m' : RateLimiter} {h : List Inbound}

/-! ### Behind a loopback proxy -/

theorem ClientAddr.not_isWhitespace : ∀ c ∈ a.text.toList, Text.isWhitespace c = false := by
  intro c hc
  obtain ⟨low, high, -⟩ := a.visible c hc
  simp only [Text.isWhitespace, Bool.or_eq_false_iff, Bool.and_eq_false_iff, decide_eq_false_iff_not, beq_eq_false_iff_ne]
  omega

theorem ClientAddr.trim_text : Text.trim a.text = a.text :=
  Text.trim_eq_self (fun c hc => a.not_isWhitespace c (List.mem_of_mem_head? hc))
    fun c hc => a.not_isWhitespace c (List.mem_of_getLast? hc)

theorem Arrival.Forwarded.firstForwarded (f : r.Forwarded p a) : firstForwarded r.headers = some a.text := by
  obtain ⟨value, hops, hget, htext, hops_head⟩ := f.first
  have before : ∀ c ∈ a.text.toList, (c != ',') = true := fun c hc => bne_iff_ne.mpr (a.visible c hc).2.2
  have after : hops.takeWhile (fun c => c != ',') = [] := by
    cases hops with
    | nil => rfl
    | cons c l =>
      rw [hops_head c rfl]
      rfl
  have cut : (a.text.toList ++ hops).takeWhile (fun c => c != ',') = a.text.toList := by
    rw [List.takeWhile_append_of_pos before, after, List.append_nil]
  have shown : (!a.text.isEmpty) = true := by simpa using a.nonempty
  rw [SquadLink.firstForwarded, hget, Option.bind_some, htext, Option.map_some, cut, String.ofList_toList, a.trim_text]
  exact Option.filter_some_pos shown

/-- A loopback proxy is looked through: the client is counted by its own address. -/
theorem Arrival.Forwarded.clientIp_loopback (f : r.Forwarded p a) (loopback : p.isLoopback = true) :
    clientIp r.headers r.peer = a.text := by
  rw [clientIp, f.peer, if_pos loopback, f.firstForwarded]
  rfl

theorem ClientAddr.text_inj : a.text = b.text ↔ a = b := by
  refine ⟨fun h => ?_, fun h => h ▸ rfl⟩
  cases a
  cases b
  cases h
  rfl

/-- The limiters count alike everywhere but at the address of `a`. -/
def AlikeBut (a : ClientAddr) (m m' : RateLimiter) : Prop := ∀ ip, ip ≠ a.text → m.lookup ip = m'.lookup ip

theorem AlikeBut.serve_own (alike : AlikeBut a m m') (now : Nat) (e : Endpoint) :
    AlikeBut a ((Request.call now e a.text).serve m) m' := by
  intro ip hip
  exact (AList.lookup_insert_ne hip).trans (alike ip hip)

theorem AlikeBut.serve_other (alike : AlikeBut a m m') {ip : String} (hip : ip ≠ a.text) (now : Nat) (e : Endpoint) :
    AlikeBut a ((Request.call now e ip).serve m) ((Request.call now e ip).serve m') := by
  intro ip' hip'
  simp only [Request.serve, RateLimiter.allow, alike ip hip]
  by_cases heq : ip' = ip
  · rw [heq, AList.lookup_insert, AList.lookup_insert]
  · rw [AList.lookup_insert_ne heq, AList.lookup_insert_ne heq, alike ip' hip']

theorem AlikeBut.prune (alike : AlikeBut a m m') (now : Nat) :
    AlikeBut a ((Request.prune now).serve m) ((Request.prune now).serve m') := by
  intro ip hip
  rw [Request.serve, Request.serve, RateLimiter.prune, RateLimiter.prune, Assoc.lookup_retain,
    Assoc.lookup_retain, alike ip hip]

/-- Without the requests of `a`, the answers to `b` are the same. -/
theorem answersTo_filter (loopback : p.isLoopback = true) (hne : a ≠ b) (through : ∀ i ∈ h, i.Through p)
    (alike : AlikeBut a m m') :
    answersTo b m h = answersTo b m' (h.filter fun i => !i.isFrom a) := by
  induction h generalizing m m' with
  | nil => rfl
  | cons i h ih =>
    obtain ⟨first, rest⟩ := List.forall_mem_cons.mp through
    cases i with
    | request c r =>
      have ip : clientIp r.headers r.peer = c.text := Arrival.Forwarded.clientIp_loopback first loopback
      by_cases hc : c = a
      · subst hc
        have after : AlikeBut c ((Inbound.request c r).toRequest.serve m) m' := by
          rw [Inbound.toRequest, Arrival.toRequest, ip]
          exact alike.serve_own r.now r.endpoint
        rw [List.filter_cons_of_neg (by simp [Inbound.isFrom]), answersTo, Inbound.answer, if_neg hne]
        exact ih rest after
      · have hip : clientIp r.headers r.peer ≠ a.text := fun heq => hc (ClientAddr.text_inj.mp (ip.symm.trans heq))
        have after : AlikeBut a ((Inbound.request c r).toRequest.serve m) ((Inbound.request c r).toRequest.serve m') :=
          alike.serve_other hip r.now r.endpoint
        have same : (Inbound.request c r).answer b m = (Inbound.request c r).answer b m' := by
          simp only [Inbound.answer, Arrival.toRequest, Request.answer, RateLimiter.allow, alike _ hip]
        rw [List.filter_cons_of_pos (by simpa [Inbound.isFrom] using hc), answersTo, answersTo, same, ih rest after]
    | sweep now =>
      have after := alike.prune now
      rw [List.filter_cons_of_pos (by simp [Inbound.isFrom]), answersTo, answersTo]
      exact congrArg _ (ih rest after)

/-! ### Behind any other proxy -/

/-- Any other proxy is taken for the client: all clients behind it are counted together. -/
theorem Arrival.Forwarded.clientIp_remote (f : r.Forwarded p a) (remote : p.isLoopback = false) :
    clientIp r.headers r.peer = p.toString := by
  rw [clientIp, f.peer, remote, if_neg Bool.false_ne_true]

/-- A request of a client through the proxy, with nothing else in its headers. -/
def forwarded (p : IpAddr) (now : Nat) (e : Endpoint) (a : ClientAddr) : Inbound :=
  .request a
    { now, endpoint := e, headers := [("x-forwarded-for", a.text.toList.map fun c => UInt8.ofNat c.toNat)],
      peer := { ip := p, port := 40000 } }

theorem ClientAddr.headerText_text : headerText (a.text.toList.map fun c => UInt8.ofNat c.toNat) = some a.text.toList := by
  have byte : ∀ c ∈ a.text.toList, (UInt8.ofNat c.toNat).toNat = c.toNat := fun c hc => by
    obtain ⟨-, high, -⟩ := a.visible c hc
    rw [UInt8.toNat_ofNat']
    omega
  have shown : (a.text.toList.map fun c => UInt8.ofNat c.toNat).all (fun b => (32 ≤ b && b < 127) || b == 9) = true := by
    rw [List.all_eq_true]
    intro b hb
    obtain ⟨c, hc, rfl⟩ := List.mem_map.mp hb
    obtain ⟨low, high, -⟩ := a.visible c hc
    simp only [Bool.or_eq_true, Bool.and_eq_true, decide_eq_true_eq, UInt8.le_iff_toNat_le,
      UInt8.lt_iff_toNat_lt, byte c hc]
    exact Or.inl ⟨low.le, high⟩
  rw [headerText, if_pos shown, List.map_map]
  refine congrArg some ((List.map_congr_left fun c hc => ?_).trans (List.map_id _))
  rw [Function.comp_apply, byte c hc, Char.ofNat_toNat]
  rfl

theorem through_forwarded (p : IpAddr) (now : Nat) (e : Endpoint) (a : ClientAddr) : (forwarded p now e a).Through p :=
  { peer := rfl, first := ⟨_, [], rfl, by rw [a.headerText_text, List.append_nil], fun _ hc => by cases hc⟩ }

theorem toRequest_forwarded (remote : p.isLoopback = false) (now : Nat) (e : Endpoint) (a : ClientAddr) :
    (forwarded p now e a).toRequest = .call now e p.toString :=
  congrArg _ ((through_forwarded p now e a).clientIp_remote remote)

/-- Requests of `a` leave no answer to `b`, and are served like any other request. -/
theorem answersTo_replicate (hne : a ≠ b) (h : List Inbound) : ∀ (k : Nat) (m : RateLimiter),
    answersTo b m (List.replicate k (forwarded p 0 .joinSession a) ++ h) =
      answersTo b ((List.replicate k (forwarded p 0 .joinSession a).toRequest).foldl Request.serve m) h
  | 0, _ => rfl
  | k + 1, m => by
    rw [List.replicate_succ, List.cons_append, answersTo, answersTo_replicate hne h k, List.replicate_succ, List.foldl_cons,
      forwarded, Inbound.answer, if_neg hne]
    rfl

/-- As many PIN tries of `a` as sessions may be created, and a session created by `b`. -/
def crowded (p : IpAddr) (a b : ClientAddr) : List Inbound :=
  List.replicate rlCreateMax (forwarded p 0 .joinSession a) ++ [forwarded p 0 .createSession b]

theorem answersTo_crowded (remote : p.isLoopback = false) (hne : a ≠ b) : answersTo b ∅ (crowded p a b) = [false] := by
  have denied := @answer_after_others .createSession ∅ 0 p.toString (AList.lookup_empty _)
  have own : ∀ m, (forwarded p 0 .createSession b).answer b m =
      (Request.call 0 .createSession p.toString).answer .createSession m :=
    fun m => by
      rw [← toRequest_forwarded remote 0 .createSession b]
      exact if_pos rfl
  rw [crowded, answersTo_replicate hne, toRequest_forwarded remote, answersTo, own]
  exact congrArg (fun o : Option Bool => o.toList ++ []) denied

theorem answersTo_alone (remote : p.isLoopback = false) : answersTo b ∅ [forwarded p 0 .createSession b] = [true] := by
  have allowed := @answer_first .createSession ∅ 0 p.toString (AList.lookup_empty _)
  have own : (forwarded p 0 .createSession b).answer b ∅ =
      (Request.call 0 .createSession p.toString).answer .createSession ∅ := by
    rw [← toRequest_forwarded remote 0 .createSession b]
    exact if_pos rfl
  rw [answersTo, own]
  exact congrArg (fun o : Option Bool => o.toList ++ []) allowed

theorem filter_crowded (hne : a ≠ b) :
    (crowded p a b).filter (fun i => !i.isFrom a) = [forwarded p 0 .createSession b] := by
  have none : (List.replicate rlCreateMax (forwarded p 0 .joinSession a)).filter (fun i => !i.isFrom a) = [] :=
    List.filter_eq_nil_iff.mpr fun i hi => by
      rw [List.eq_of_mem_replicate hi]
      simp [forwarded, Inbound.isFrom]
  rw [crowded, List.filter_append, none, List.nil_append]
  exact List.filter_cons_of_pos (by simpa [forwarded, Inbound.isFrom] using hne.symm)

theorem not_independent (remote : p.isLoopback = false) (hne : a ≠ b) : ¬ Independent p a b := by
  intro independent
  have through : ∀ i ∈ crowded p a b, i.Through p := fun i hi => by
    rcases List.mem_append.mp hi with hi | hi
    · exact List.eq_of_mem_replicate hi ▸ through_forwarded p 0 .joinSession a
    · exact List.mem_singleton.mp hi ▸ through_forwarded p 0 .createSession b
  have alone : ∀ i ∈ [forwarded p 0 .createSession b], i.Through p := fun i hi =>
    List.mem_singleton.mp hi ▸ through_forwarded p 0 .createSession b
  have kept : [forwarded p 0 .createSession b].filter (fun i => !i.isFrom a) = [forwarded p 0 .createSession b] :=
    List.filter_cons_of_pos (by simpa [forwarded, Inbound.isFrom] using hne.symm)
  have same :=
    independent (crowded p a b) [forwarded p 0 .createSession b] through alone ((filter_crowded hne).trans kept.symm)
  rw [answersTo_crowded remote hne, answersTo_alone remote] at same
  cases same

/-- Two clients behind a proxy are limited independently exactly when the proxy's address is a loopback
    address. -/
theorem independent_iff (hne : a ≠ b) : Independent p a b ↔ p.isLoopback = true := by
  constructor
  · intro independent
    by_contra remote
    exact not_independent (Bool.not_eq_true _ ▸ remote) hne independent
  · intro loopback h₁ h₂ through₁ through₂ same
    rw [answersTo_filter loopback hne through₁ fun _ _ => rfl, answersTo_filter loopback hne through₂ fun _ _ => rfl, same]

end

/-! ### Two clients in the container deployment -/

def hostClient : ClientAddr :=
  { text := "203.0.113.5", visible := List.all_iff_forall_prop.mp (by decide), nonempty := by decide }

def mateClient : ClientAddr :=
  { text := "198.51.100.7", visible := List.all_iff_forall_prop.mp (by decide), nonempty := by decide }

theorem independent_behind_localhost : Independent (.v4 #v[127, 0, 0, 1]) hostClient mateClient :=
  (independent_iff (by decide)).mpr rfl

/-- The gateway of the bridge network, from which the published port is reached. -/
def bridgeGateway : IpAddr := .v4 #v[172, 18, 0, 1]

theorem shared_behind_gateway : ¬ ∀ (p : IpAddr) (a b : ClientAddr), a ≠ b → Independent p a b := by
  intro h
  exact not_independent rfl (by decide) (h bridgeGateway hostClient mateClient (by decide))

end SquadLink
