import SquadLink.System.Strangers
import SquadLink.System.Traffic

/-! Runs in which members leave and come back, seen from one PeerConn: what of its negotiation is on its way lies in
    one place, and only as long as the PeerConn has no remote description. -/

namespace SquadLink

namespace Mesh

/-- The mesh holds no PeerConn for a peer of a greater id that the message shows, and an answer is one to the
    PeerConn held for its sender. -/
def ready (m : Mesh) : ServerMsg → Bool
  | .roster peers => peers.all fun p => !decide (m.myId < p.userId) || (m.conn? p.userId).isNone
  | .peerJoined userId _ => !decide (m.myId < userId) || (m.conn? userId).isNone
  | .answer sender sdp => (m.conn? sender).all fun p => sdp.replyTo.any fun id => id.pc = p.pc
  | _ => true

section
variable {m : Mesh} {msg : ServerMsg} {q : String} {sdp : Sdp} {p : PeerConn}

theorem ready_seen (h : m.ready msg = true) (seen : msg.cue q = .seen) (greater : m.myId < q) : m.conn? q = none := by
  cases msg with
  | roster peers =>
    simp only [ServerMsg.cue, ite_eq_left_iff, reduceCtorEq, imp_false, not_not] at seen
    obtain ⟨p, hp, rfl⟩ := List.mem_map.mp seen
    have := List.all_eq_true.mp h p hp
    simpa [greater] using this
  | peerJoined userId name =>
    simp only [ServerMsg.cue, ite_eq_left_iff, reduceCtorEq, imp_false, not_not] at seen
    subst seen
    simpa [ready, greater] using h
  | peerLeft userId | offer sender sdp | answer sender sdp | ice sender cand =>
    simp only [ServerMsg.cue] at seen
    split at seen <;> cases seen
  | _ => cases seen

theorem ready_answer (h : m.ready msg = true) (answer : msg.cue q = .signal (.answer sdp)) (hp : m.conn? q = some p) :
    sdp.replyTo.map (·.pc) = some p.pc := by
  obtain rfl := ServerMsg.cue_eq_signal answer
  simp only [Signal.msgBy, ready, hp, Option.all_some, Option.any_eq_true, decide_eq_true_eq] at h
  obtain ⟨id, hid, hpc⟩ := h
  rw [hid, Option.map_some, hpc]

end

end Mesh

/-! ### Messages of a negotiation -/

/-- The message is an offer of the PeerConn, or an answer to one. -/
def ClientMsg.deals (pc : PcId) : ClientMsg → Bool
  | .offer _ sdp => sdp.id.pc = pc
  | .answer _ sdp => sdp.replyTo.map (·.pc) = some pc
  | _ => false

def ServerMsg.deals (pc : PcId) : ServerMsg → Bool
  | .offer _ sdp => sdp.id.pc = pc
  | .answer _ sdp => sdp.replyTo.map (·.pc) = some pc
  | _ => false

theorem ClientMsg.signalFor_eq_some {q : String} {msg : ClientMsg} {sig : Signal} (h : msg.signalFor q = some sig) :
    msg = sig.msgTo q := by
  cases msg with
  | offer dest sdp | answer dest sdp | ice dest cand =>
    obtain ⟨rfl, heq⟩ := Option.ite_none_right_eq_some.mp h
    cases heq
    rfl
  | _ => cases h

namespace Weight

/-- What belongs to the negotiation of one PeerConn. -/
def dealing (pc : PcId) : Weight := { up := fun _ msg => (msg.deals pc).toNat, down := fun _ msg => (msg.deals pc).toNat }

theorem relayed_dealing (pc : PcId) : (dealing pc).Relayed where
  offer _ _ _ _ := Nat.le_refl _
  answer _ _ _ _ := Nat.le_refl _
  up_silent _ msg h := by cases msg <;> first | rfl | cases h
  down_silent _ msg h := by cases msg <;> first | rfl | cases h

/-- An offer to a smaller id or an answer to a greater one. -/
def contrary : Weight where
  up ec
    | .offer dest _ => (!decide (ec.userId < dest)).toNat
    | .answer dest _ => (!decide (dest < ec.userId)).toNat
    | _ => 0
  down ed
    | .offer sender _ => (!decide (sender < ed.userId)).toNat
    | .answer sender _ => (!decide (ed.userId < sender)).toNat
    | _ => 0

theorem relayed_contrary : contrary.Relayed where
  offer _ _ _ _ := Nat.le_refl _
  answer _ _ _ _ := Nat.le_refl _
  up_silent _ msg h := by cases msg <;> first | rfl | cases h
  down_silent _ msg h := by cases msg <;> first | rfl | cases h

section
variable {W : Weight} {ec : EngineConfig} {ms : List ClientMsg} {q : String}

theorem ups_eq_zero (h : ∀ msg ∈ ms, W.up ec msg = 0) : W.ups (some ec) ms = 0 := by
  induction ms with
  | nil => exact W.ups_nil _
  | cons msg ms ih =>
    rw [ups_cons, ups_singleton, h msg List.mem_cons_self, ih fun m hm => h m (List.mem_cons_of_mem _ hm)]

theorem le_downs {msgs : List ServerMsg} {msg : ServerMsg} (hm : msg ∈ msgs) : W.down ec msg ≤ W.downs (some ec) msgs := by
  induction msgs with
  | nil => cases hm
  | cons m msgs ih =>
    rw [downs_cons, downs_singleton]
    rcases List.mem_cons.mp hm with rfl | hm
    · exact Nat.le_add_right _ _
    · exact (ih hm).trans (Nat.le_add_left _ _)

/-- Where only what is said to `q` weighs anything. -/
theorem ups_of_dest (h : ∀ msg ∈ ms, W.up ec msg ≠ 0 → msg.dest = some q) :
    W.ups (some ec) ms = W.ups (some ec) ((ms.filterMap (ClientMsg.signalFor q)).map (Signal.msgTo q)) := by
  induction ms with
  | nil => rfl
  | cons msg ms ih =>
    rw [ups_cons, ih fun m hm => h m (List.mem_cons_of_mem _ hm)]
    cases hsig : msg.signalFor q with
    | some sig =>
      rw [List.filterMap_cons_some hsig, List.map_cons, ups_cons _ _ (sig.msgTo q), ← ClientMsg.signalFor_eq_some hsig]
    | none =>
      have light : W.up ec msg = 0 := by
        by_contra heavy
        have hdest := h msg List.mem_cons_self heavy
        cases msg with
        | offer dest sdp | answer dest sdp | ice dest cand =>
          cases hdest
          simp [ClientMsg.signalFor] at hsig
        | _ => cases hdest
      rw [List.filterMap_cons_none hsig, ups_singleton, light, Nat.zero_add]

end

end Weight

/-! ### What handling a message makes a mesh say -/

/-- A message of a negotiation shows nobody. -/
theorem ServerMsg.not_seen_of_negotiates {msg : ServerMsg} (h : msg.negotiates = true) (q : String) :
    msg.cue q ≠ .seen := by
  cases msg with
  | offer sender sdp | answer sender sdp =>
    simp only [ServerMsg.cue]
    split <;> simp
  | _ => cases h

theorem Side.Reacts.length_le {rtc : Webrtc} {offers : Bool} {pc : Nat → PcId} {s s' : Side}
    {cue : Cue} {said : List Signal} (reacts : s.Reacts rtc offers pc cue s' said) : said.length ≤ 1 := by
  cases reacts <;> simp

namespace Mesh

/-- The mesh has handled a message for which it was ready, and has said `ms`. -/
structure Responds (rtc : Webrtc) (m : Mesh) (msg : ServerMsg) (ms : List ClientMsg) (m' : Mesh) : Prop where
  ready : m.ready msg = true
  unturned : ∀ by', msg ≠ .rekey by'
  directed : ∀ cm ∈ ms, cm.dest.isSome
  reacts : ∀ q, Side.Reacts rtc (decide (m.myId < q)) (m.pcFor q) (m.side q) (msg.cue q) (m'.side q)
    (ms.filterMap (ClientMsg.signalFor q))

section
variable {rtc : Webrtc} {m m' : Mesh} {msg : ServerMsg} {ms : List ClientMsg} {ec ed : EngineConfig}

theorem Responds.calm (r : Responds rtc m msg ms m') {q : String} : msg.cue q ≠ .rekey := fun hcue => by
  obtain ⟨by', rfl⟩ := ServerMsg.cue_eq_rekey hcue
  exact r.unturned by' rfl

/-- It has made offers from new PeerConns to greater ids, or has answered an offer. -/
theorem Responds.said (r : Responds rtc m msg ms m') {cm : ClientMsg} (hm : cm ∈ ms) :
    (∃ q sdp, msg.cue q = .seen ∧ m.myId < q ∧ m.conn? q = none ∧ sdp.id.pc = m.pcFor q (m.serial q) ∧ cm = .offer q sdp) ∨
      ∃ q off ans, msg = .offer q off ∧ ans.replyTo = some off.id ∧ cm = .answer q ans := by
  obtain ⟨q, hdest⟩ := Option.isSome_iff_exists.mp (r.directed cm hm)
  obtain ⟨sig, hsig⟩ : ∃ sig, cm.signalFor q = some sig := by
    cases cm with
    | offer dest sdp | answer dest sdp | ice dest cand =>
      cases hdest
      exact ⟨_, if_pos rfl⟩
    | _ => cases hdest
  have hsaid : sig ∈ ms.filterMap (ClientMsg.signalFor q) := List.mem_filterMap.mpr ⟨cm, hm, hsig⟩
  obtain rfl := ClientMsg.signalFor_eq_some hsig
  have reacts := r.reacts q
  generalize hcue : msg.cue q = cue at reacts
  generalize ms.filterMap (ClientMsg.signalFor q) = said at reacts hsaid
  generalize m'.side q = s' at reacts
  cases reacts with
  | @offered p n smaller has =>
    obtain rfl := List.mem_singleton.mp hsaid
    have greater := of_decide_eq_true smaller
    have vacant := ready_seen r.ready hcue greater
    refine .inl ⟨q, p.nextSdp rtc none, hcue, greater, vacant, ?_, rfl⟩
    cases has with
    | held hp => cases vacant.symm.trans hp
    | new hp new => exact new.pc
  | @answered sdp p n has =>
    obtain rfl := List.mem_singleton.mp hsaid
    exact .inr ⟨q, sdp, _, ServerMsg.cue_eq_signal hcue, rfl, rfl⟩
  | rotated smaller held has => exact absurd hcue r.calm
  | _ => cases hsaid

theorem Responds.few (r : Responds rtc m msg ms m') {pc : PcId} {q : String}
    (only : ∀ cm ∈ ms, (Weight.dealing pc).up ec cm ≠ 0 → cm.dest = some q) : (Weight.dealing pc).ups (some ec) ms ≤ 1 := by
  have light : ∀ cm, (Weight.dealing pc).up ec cm ≤ 1 := fun cm => Bool.toNat_le _
  rw [Weight.ups_of_dest only]
  have few := (r.reacts q).length_le
  generalize ms.filterMap (ClientMsg.signalFor q) = said at few
  cases said with
  | nil => exact Nat.zero_le _
  | cons sig said =>
    cases said with
    | nil =>
      rw [List.map_singleton, Weight.ups_singleton]
      exact light _
    | cons sig' said => simp at few

/-- For a negotiation it says no more than it has heard, unless it begins one with a new PeerConn. -/
theorem Responds.dealing (r : Responds rtc m msg ms m') (pc : PcId) :
    (Weight.dealing pc).ups (some ec) ms ≤ (Weight.dealing pc).down ed msg ∨
      ∃ q, msg.cue q = .seen ∧ m.myId < q ∧ m.conn? q = none ∧ pc = m.pcFor q (m.serial q) ∧
        (Weight.dealing pc).ups (some ec) ms ≤ 1 := by
  by_cases light : ∀ cm ∈ ms, (Weight.dealing pc).up ec cm = 0
  · rw [Weight.ups_eq_zero light]
    exact .inl (Nat.zero_le _)
  · obtain ⟨cm, hm, heavy⟩ : ∃ cm ∈ ms, (Weight.dealing pc).up ec cm ≠ 0 := by
      by_contra none
      exact light fun cm hm => by_contra fun heavy => none ⟨cm, hm, heavy⟩
    have deals : ∀ cm : ClientMsg, (Weight.dealing pc).up ec cm ≠ 0 → cm.deals pc = true := fun cm heavy => by
      by_contra hdeals
      exact heavy (by simp only [Weight.dealing, Bool.not_eq_true _ ▸ hdeals, Bool.toNat_false])
    rcases r.said hm with ⟨q, sdp, seen, greater, vacant, new, rfl⟩ | ⟨q, off, ans, rfl, reply, rfl⟩
    · have hpc : pc = m.pcFor q (m.serial q) := (of_decide_eq_true (deals _ heavy)).symm.trans new
      refine .inr ⟨q, seen, greater, vacant, hpc, r.few (q := q) fun cm' hm' heavy' => ?_⟩
      rcases r.said hm' with ⟨q', sdp', -, -, -, new', rfl⟩ | ⟨q', off, ans, rfl, -, -⟩
      · have same : m.pcFor q' (m.serial q') = m.pcFor q (m.serial q) :=
          new'.symm.trans ((of_decide_eq_true (deals _ heavy')).trans hpc)
        exact congrArg (fun pc : PcId => some pc.peer) same
      · exact absurd seen (ServerMsg.not_seen_of_negotiates rfl q)
    · refine .inl ((r.few (q := q) fun cm' hm' _ => ?_).trans ?_)
      · rcases r.said hm' with ⟨q', sdp', seen, -⟩ | ⟨q', off', ans', heq, -, rfl⟩
        · exact absurd seen (ServerMsg.not_seen_of_negotiates rfl q')
        · cases heq
          rfl
      · have same : ans.replyTo.map (·.pc) = some pc := of_decide_eq_true (deals _ heavy)
        rw [reply, Option.map_some, Option.some.injEq] at same
        simp only [Weight.dealing, ServerMsg.deals, same, decide_true, Bool.toNat_true]
        exact Nat.le_refl 1

/-- To a peer of a greater id that it sees it makes an offer from a new PeerConn. -/
theorem Responds.begun (r : Responds rtc m msg ms m') {q : String} (seen : msg.cue q = .seen) (greater : m.myId < q) :
    ∃ p : PeerConn, p.IsNew (m.pcFor q (m.serial q)) ∧ m'.side q = ⟨some p.offered, m.serial q + 1⟩ ∧
      ms.filterMap (ClientMsg.signalFor q) = [.offer (p.nextSdp rtc none)] := by
  have vacant := ready_seen r.ready seen greater
  have reacts := r.reacts q
  rw [seen] at reacts
  generalize m'.side q = s' at reacts
  generalize ms.filterMap (ClientMsg.signalFor q) = said at reacts
  cases reacts with
  | @offered p n smaller has =>
    cases has with
    | held hp => cases vacant.symm.trans hp
    | new hp new => exact ⟨p, new, rfl, rfl⟩
  | waits larger => exact absurd greater (of_decide_eq_false larger)

/-- How a mesh comes to hold `x'` for `q` when it handles a message. -/
inductive Comes (m m' : Mesh) (msg : ServerMsg) (q : String) (x' : Link) : Prop
  | kept {x : Link} (held : m.link? q = some x) (pc : x'.pc = x.pc) (remoteSet : x'.remoteSet = x.remoteSet)
      (remotes : x'.remotes = x.remotes)
  | opened (seen : msg.cue q = .seen) (pc : x'.pc = m.pcFor q (m.serial q)) (awaits : x'.Awaits)
      (serial : m.serial q < m'.serial q)
  | answered {sdp : Sdp} {x : Link} (cue : msg.cue q = .signal (.offer sdp))
      (base : m.link? q = some x ∧ x.remoteSet = false ∨ x.pc = m.pcFor q (m.serial q) ∧ x.Awaits ∧
        m.serial q < m'.serial q)
      (pc : x'.pc = x.pc) (remoteSet : x'.remoteSet = true) (remotes : x'.remotes = x.remotes ++ [sdp])
  | concluded {sdp : Sdp} {x : Link} (cue : msg.cue q = .signal (.answer sdp)) (held : m.link? q = some x)
      (pc : x'.pc = x.pc) (remoteSet : x'.remoteSet = true) (remotes : x'.remotes = x.remotes ++ [sdp])

theorem Responds.comes (r : Responds rtc m msg ms m') {q : String} {x' : Link} (hx : m'.link? q = some x') :
    Comes m m' msg q x' := by
  have reacts := r.reacts q
  have hx : (m'.side q).link = some x' := hx
  have serial : m'.serial q = (m'.side q).serial := rfl
  generalize hcue : msg.cue q = cue at reacts
  generalize ms.filterMap (ClientMsg.signalFor q) = said at reacts
  generalize m'.side q = s' at reacts hx serial
  have held : ∀ {p}, m.conn? q = some p → m.link? q = some p.link := fun hp => by rw [link?, hp, Option.map_some]
  -- The PeerConn held has changed, but not in its link.
  have still : ∀ {f : PeerConn → PeerConn}, (∀ p, (f p).link.pc = p.link.pc ∧ (f p).link.remoteSet = p.link.remoteSet ∧
      (f p).link.remotes = p.link.remotes) → ((m.side q).changed f).link = some x' → Comes m m' msg q x' := fun hf hx => by
    obtain ⟨p', hp', rfl⟩ := Option.map_eq_some_iff.mp hx
    obtain ⟨p, hp, rfl⟩ := Option.map_eq_some_iff.mp hp'
    exact .kept (held hp) (hf p).1 (hf p).2.1 (hf p).2.2
  cases reacts with
  | @offered p n smaller has =>
    cases hx
    cases has with
    | held hp => exact .kept (held hp) rfl rfl rfl
    | new hp new => exact .opened hcue new.pc ⟨new.remoteSet, new.remotes⟩ (serial ▸ Nat.lt_succ_self _)
  | @waits p n larger has =>
    cases hx
    cases has with
    | held hp => exact .kept (held hp) rfl rfl rfl
    | new hp new => exact .opened hcue new.pc new.awaits (serial ▸ Nat.lt_succ_self _)
  | left => cases hx
  | rotated smaller held has => exact absurd hcue r.calm
  | unrotated h => exact .kept hx rfl rfl rfl
  | @answered sdp p n has =>
    cases hx
    have link : (p.concluded rtc sdp).created.link.pc = p.link.pc ∧ (p.concluded rtc sdp).created.link.remoteSet = true ∧
        (p.concluded rtc sdp).created.link.remotes = p.link.remotes ++ [sdp] := by
      simp [PeerConn.link, PeerConn.created, PeerConn.concluded, PeerConn.setRemote]
    cases has with
    | held hp =>
      obtain ⟨hp, unset⟩ := Side.vacated_eq_some hp
      exact .answered hcue (.inl ⟨held hp, unset⟩) link.1 link.2.1 link.2.2
    | new hp new => exact .answered hcue (.inr ⟨new.pc, new.awaits, serial ▸ Nat.lt_succ_self _⟩) link.1 link.2.1 link.2.2
  | concluded sdp =>
    obtain ⟨p', hp', rfl⟩ := Option.map_eq_some_iff.mp hx
    obtain ⟨p, hp, rfl⟩ := Option.map_eq_some_iff.mp hp'
    rw [PeerConn.link_concluded]
    exact .concluded hcue (held hp) rfl rfl rfl
  | ice cand => exact still (fun p => by rw [PeerConn.link_addOrQueueIce]; exact ⟨rfl, rfl, rfl⟩) hx
  | other => exact .kept hx rfl rfl rfl
  | chats => exact @still (fun p => { p with chat := true }) (fun p => ⟨rfl, rfl, rfl⟩) hx

/-- To an answer it says nothing. -/
theorem Responds.silent (r : Responds rtc m msg ms m') {q : String} {sdp : Sdp}
    (answer : msg = .answer q sdp) : ms = [] := by
  refine List.eq_nil_iff_forall_not_mem.mpr fun cm hm => ?_
  rcases r.said hm with ⟨q', sdp', seen, -⟩ | ⟨q', off, ans, offer, -⟩
  · exact absurd seen (ServerMsg.not_seen_of_negotiates (by rw [answer]; rfl) q')
  · cases answer.symm.trans offer

/-- Offers go to greater ids, and answers to smaller ones. -/
theorem Responds.contrary (r : Responds rtc m msg ms m') (id : m.myId = ec.userId)
    (right : Weight.contrary.down ec msg = 0) :
    Weight.contrary.ups (some ec) ms = 0 := by
  refine Weight.ups_eq_zero fun cm hm => ?_
  rcases r.said hm with ⟨q, sdp, -, greater, -, -, rfl⟩ | ⟨q, off, ans, rfl, -, rfl⟩
  · simp only [Weight.contrary, ← id, greater, decide_true, Bool.not_true, Bool.toNat_false]
  · exact right

end

end Mesh

/-! ### Runs -/

/-- The PeerConn is one that the mesh has made for `q`, and has one remote description at most. -/
structure Link.Sole (x : Link) (m : Mesh) (q : String) : Prop where
  made : ∃ n < m.serial q, x.pc = m.pcFor q n
  one : x.remotes.length ≤ 1
  unset : x.remoteSet = false → x.remotes = []

theorem Link.Sole.congr {x : Link} {m m' : Mesh} {q : String} (h : x.Sole m q) (serial : m'.serial = m.serial)
    (owner : m'.owner = m.owner) : x.Sole m' q := by
  obtain ⟨n, hn, hpc⟩ := h.made
  refine ⟨⟨n, by rwa [serial], ?_⟩, h.one, h.unset⟩
  rw [hpc, Mesh.pcFor, Mesh.pcFor, owner]

namespace Sys

/-- A step in which no queue is full, no call of the library fails, and no client handles a key rotation. -/
structure Unharmed (cfg : SysConfig) (σ : Sys) (a : Act) (σ' : Sys) : Prop where
  room : σ'.server.NeverFull
  calls : ∀ p ∈ (SysEvent.act a).handler, p.2.AllOk
  unturned : ∀ p ∈ σ.taken (.act a), ∀ by', p.2 ≠ .rekey by'

/-- Besides, a client only handles a message for which its mesh is ready. -/
structure Careful (cfg : SysConfig) (σ : Sys) (a : Act) (σ' : Sys) : Prop extends Unharmed cfg σ a σ' where
  ready : ∀ p ∈ σ.taken (.act a), p.1.mesh.ready p.2 = true

/-- Of the negotiation of each PeerConn there is one message on its way at most, and none before the PeerConn is made,
    after it has got its remote description, or if it is for a smaller id. -/
structure Exclusive (σ : Sys) : Prop where
  rosters : RostersDistinct σ
  contrary : Tokens.None (σ.load .contrary)
  single : ∀ pc, Tokens.Single (σ.load (.dealing pc))
  unmade : ∀ c q n, (∀ e, σ.engines c = some e → e.mesh.serial q ≤ n) → Tokens.None (σ.load (.dealing ⟨c, q, n⟩))
  sole : ∀ c e q x, σ.engines c = some e → e.mesh.link? q = some x →
    x.Sole e.mesh q ∧ ((e.mesh.myId < q → x.remotes ≠ []) → Tokens.None (σ.load (.dealing x.pc)))

section
variable {cfg : SysConfig} {σ σ' : Sys} {a : Act} {W : Weight} {c : ClientId} {e e' : Engine}
  {s : SocketId} {msg : ServerMsg}
variable {ms : List ClientMsg}

theorem exclusive_empty : Exclusive empty where
  rosters s peers h := by cases h
  contrary p := by cases p <;> rfl
  single pc := Tokens.None.single fun p => by cases p <;> rfl
  unmade _ _ _ _ p := by cases p <;> rfl
  sole _ _ _ _ he := by cases he

/-- A round in which an engine handles no message changes nothing of its negotiations. -/
theorem turn_still {msgs : List ClientMsg} (turn : Turn cfg σ σ' a c e msgs e') (idle : ∀ w, a ≠ .handle c w) :
    e'.mesh.link? = e.mesh.link? ∧ e'.mesh.serial = e.mesh.serial ∧ e'.mesh.owner = e.mesh.owner ∧
    e'.mesh.myId = e.mesh.myId := by
  cases turn with
  | handle w s msg act => exact absurd act (idle w)
  | event ev act round =>
    obtain ⟨-, -, idles, -⟩ := Engine.onEvent_spec round
    exact ⟨funext idles.link, idles.serial, idles.owner, idles.myId⟩
  | _ => exact ⟨rfl, rfl, rfl, rfl⟩

/-- What no client handles makes nothing new. -/
theorem exclusive_idle (wf : WF cfg σ) (hs : step cfg σ a = some σ') (idle : ∀ c w, a ≠ .handle c w) (ex : Exclusive σ) :
    Exclusive σ' := by
  have shift : ∀ {W : Weight}, W.Relayed → Tokens.Shift (σ.load W) (σ'.load W) := fun lawful => load_shift lawful wf hs idle
  have still : ∀ {c e e'}, σ.engines c = some e → σ'.engines c = some e' → e'.mesh.link? = e.mesh.link? ∧
      e'.mesh.serial = e.mesh.serial ∧ e'.mesh.owner = e.mesh.owner ∧ e'.mesh.myId = e.mesh.myId := by
    intro c e e' he he'
    obtain ⟨e₁, msgs, he₁, turn, -⟩ := engine_step wf hs he
    cases he'.symm.trans he₁
    exact turn_still turn (idle c)
  have event : next cfg σ (.act a) = some σ' := hs
  refine ⟨rostersDistinct_next ex.rosters event, (shift Weight.relayed_contrary).none ex.contrary,
    fun pc => (shift (Weight.relayed_dealing pc)).single (ex.single pc), fun c q n later => ?_, fun c e' q x he' hx => ?_⟩
  · refine (shift (Weight.relayed_dealing _)).none (ex.unmade c q n fun e he => ?_)
    obtain ⟨e', -, he', -⟩ := engine_step wf hs he
    rw [← (still he he').2.1]
    exact later e' he'
  · rcases engines_step hs he' with ⟨e, he⟩ | ⟨ecfg, srv, -, -, -, rfl⟩
    · obtain ⟨link, serial, owner, myId⟩ := still he he'
      rw [link] at hx
      obtain ⟨sole, done⟩ := ex.sole c e q x he hx
      exact ⟨sole.congr serial owner, fun h => (shift (Weight.relayed_dealing _)).none (done (myId ▸ h))⟩
    · cases hx

/-- A client that handles a message has been ready for it. -/
theorem responds (wf : WF cfg σ) {w : Outcomes} (hs : step cfg σ (.handle c w) = some σ')
    (careful : Careful cfg σ (.handle c w) σ') (rosters : RostersDistinct σ) :
    ∃ e s msg ms, σ.engines c = some e ∧ e.running = true ∧ e.cur = some s ∧ (σ.inbox s).head? = some msg ∧
      σ'.engines = Function.update σ.engines c (some (e.handle cfg.rtc w msg)) ∧
      (∀ W, Handled W σ σ' c e (e.handle cfg.rtc w msg) s msg ms) ∧
      Mesh.Responds cfg.rtc e.mesh msg ms (e.handle cfg.rtc w msg).mesh := by
  obtain ⟨e, s, msg, ms, he, running, cur, head, engines, handled⟩ := load_handle wf hs
  have distinct : ∀ peers, msg = .roster peers → (peers.map (·.userId)).Nodup := fun peers heq =>
    rosters s peers (mem_heard.mpr (.inl (heq ▸ List.mem_of_mem_head? head)))
  obtain ⟨ms', hout', -, reacts⟩ := e.mesh.react_sides (careful.calls (c, w) rfl) e.cfg.relayEnabled distinct
  obtain ⟨ms₁, hout₁, -, directed⟩ := (e.mesh.react_grows cfg.rtc w e.cfg.relayEnabled msg).sends
  have hout := (handled .contrary).out
  rw [Engine.handle_mesh] at hout
  cases List.append_cancel_left (hout.symm.trans hout')
  cases List.append_cancel_left (hout.symm.trans hout₁)
  have taken : σ.taken (.act (.handle c w)) = some (e, msg) := taken_of rfl he running cur head
  refine ⟨e, s, msg, ms, he, running, cur, head, engines, handled, careful.ready _ taken,
    careful.unturned _ taken, directed, ?_⟩
  rw [Engine.handle_mesh]
  exact reacts

/-- What weighs no more than the message handled moves along with it. -/
theorem Handled.shift (handled : Handled W σ σ' c e e' s msg ms) (le : W.ups (some e.cfg) ms ≤ W.down e.cfg msg) :
    Tokens.Shift (σ.load W) (σ'.load W) :=
  .moved (.down s) (.out c) (W.ups (some e.cfg) ms) (by simp) ((Nat.add_le_add_left le _).trans handled.taken) handled.put
    handled.others

/-- What is put down where there was nothing. -/
theorem Handled.begun (handled : Handled W σ σ' c e e' s msg ms) (le : W.ups (some e.cfg) ms ≤ 1)
    (empty : Tokens.None (σ.load W)) :
    Tokens.Single (σ'.load W) := by
  refine empty.put (d := .out c) ?_ fun p hp => ?_
  · have := handled.put
    rw [empty] at this
    omega
  · by_cases hdown : p = .down s
    · subst hdown
      have := handled.taken
      omega
    · exact handled.others p hdown hp

/-- The PeerConns of a client that has handled a message. -/
theorem sole_handle (wf : WF cfg σ) (he : σ.engines c = some e) (ex : Exclusive σ)
    (handled : ∀ W, Handled W σ σ' c e e' s msg ms)
    (r : Mesh.Responds cfg.rtc e.mesh msg ms e'.mesh) (owner : e'.mesh.owner = e.mesh.owner)
    (myId : e'.mesh.myId = e.mesh.myId) {q : String} {x : Link} (hx : e'.mesh.link? q = some x)
    (kept : ∀ pc, Tokens.None (σ.load (.dealing pc)) → (∀ q, msg.cue q = .seen → e.mesh.myId < q →
      pc ≠ e.mesh.pcFor q (e.mesh.serial q)) → Tokens.None (σ'.load (.dealing pc))) :
    x.Sole e'.mesh q ∧ ((e'.mesh.myId < q → x.remotes ≠ []) → Tokens.None (σ'.load (.dealing x.pc))) := by
  have grown : e.mesh.serial q ≤ e'.mesh.serial q := (r.reacts q).serial_le
  have pcFor : e'.mesh.pcFor q = e.mesh.pcFor q := by
    funext n
    rw [Mesh.pcFor, Mesh.pcFor, owner]
  have fresh : Tokens.None (σ.load (.dealing (e.mesh.pcFor q (e.mesh.serial q)))) := by
    rw [Mesh.pcFor, (wf.mesh c e he).1]
    refine ex.unmade c q _ fun e₁ he₁ => ?_
    cases he.symm.trans he₁
    exact Nat.le_refl _
  have made_old : ∀ {y : Link}, y.Sole e.mesh q → ∃ n < e'.mesh.serial q, y.pc = e'.mesh.pcFor q n := fun sole => by
    obtain ⟨n, hn, hpc⟩ := sole.made
    exact ⟨n, hn.trans_le grown, by rw [pcFor, hpc]⟩
  have old : ∀ {y : Link}, y.Sole e.mesh q → ∀ q', msg.cue q' = .seen → e.mesh.myId < q' →
      y.pc ≠ e.mesh.pcFor q' (e.mesh.serial q') := by
    intro y sole q' _ _ heq
    obtain ⟨n, hn, hpc⟩ := sole.made
    obtain ⟨-, rfl, rfl⟩ := PcId.mk.inj (hpc.symm.trans heq)
    exact Nat.lt_irrefl _ hn
  rw [myId]
  cases r.comes hx with
  | @kept y held pc remoteSet remotes =>
    obtain ⟨sole, done⟩ := ex.sole c e q y he held
    rw [pc, remotes]
    refine ⟨⟨pc ▸ made_old sole, remotes ▸ sole.one, fun h => ?_⟩, fun h => kept _ (done h) (old sole)⟩
    rw [remotes]
    exact sole.unset (remoteSet ▸ h)
  | opened seen pc awaits serial =>
    refine ⟨⟨⟨_, serial, by rw [pcFor, pc]⟩, by rw [awaits.2]; exact Nat.zero_le 1, fun _ => awaits.2⟩, fun h => ?_⟩
    rw [pc]
    refine kept _ fresh fun q' _ greater heq => ?_
    obtain ⟨-, rfl, -⟩ := PcId.mk.inj heq
    exact h greater awaits.2
  | @answered sdp y cue base pc remoteSet remotes =>
    have offer : msg = .offer q sdp := ServerMsg.cue_eq_signal cue
    -- The offer comes from a smaller id, so nothing answers an offer of this PeerConn.
    have smaller : ¬ e.mesh.myId < q := fun greater => by
      have taken := (handled .contrary).taken
      have id := (wf.mesh c e he).2
      have wrong : Weight.contrary.down e.cfg msg = 1 := by
        simp only [offer, Weight.contrary, ← id, String.lt_asymm greater, decide_false, Bool.not_false, Bool.toNat_true]
      rw [ex.contrary, wrong] at taken
      omega
    have awaited : y.remotes = [] ∧ (∃ n < e'.mesh.serial q, y.pc = e'.mesh.pcFor q n) ∧
        Tokens.None (σ.load (.dealing y.pc)) := by
      rcases base with ⟨held, unset⟩ | ⟨new, awaits, serial⟩
      · obtain ⟨sole, done⟩ := ex.sole c e q y he held
        exact ⟨sole.unset unset, made_old sole, done fun greater => absurd greater smaller⟩
      · exact ⟨awaits.2, ⟨_, serial, by rw [pcFor, new]⟩, by rw [new]; exact fresh⟩
    obtain ⟨none, made, empty⟩ := awaited
    have one : x.remotes = [sdp] := by rw [remotes, none, List.nil_append]
    refine ⟨⟨by rw [pc]; exact made, by rw [one]; exact Nat.le_refl 1, fun h => ?_⟩, fun _ => ?_⟩
    · rw [remoteSet] at h
      cases h
    · rw [pc]
      exact kept _ empty fun q' seen _ => absurd seen (ServerMsg.not_seen_of_negotiates (by rw [offer]; rfl) q')
  | @concluded sdp y cue held pc remoteSet remotes =>
    obtain ⟨sole, done⟩ := ex.sole c e q y he held
    have answer : msg = .answer q sdp := ServerMsg.cue_eq_signal cue
    obtain ⟨p, hp, rfl⟩ := Option.map_eq_some_iff.mp held
    -- The answer is the one message of the negotiation that was on its way.
    have deals : (Weight.dealing p.link.pc).down e.cfg msg = 1 := by
      have reply := Mesh.ready_answer r.ready cue hp
      simp only [answer, Weight.dealing, ServerMsg.deals, reply, PeerConn.link_pc, decide_true, Bool.toNat_true]
    have taken := (handled (.dealing p.link.pc)).taken
    rw [deals] at taken
    have none : p.link.remotes = [] := by
      by_contra some
      have := done (fun _ => some) (.down s)
      omega
    have one : x.remotes = [sdp] := by rw [remotes, none, List.nil_append]
    refine ⟨⟨pc ▸ made_old sole, by rw [one]; exact Nat.le_refl 1, fun h => ?_⟩, fun _ => ?_⟩
    · rw [remoteSet] at h
      cases h
    · rw [pc]
      refine (ex.single _).taken taken fun place hplace => ?_
      by_cases hout : place = .out c
      · subst hout
        have put := (handled (.dealing p.link.pc)).put
        rwa [r.silent answer, Weight.ups_nil, Nat.add_zero] at put
      · exact (handled _).others place hplace hout

theorem exclusive_handle (wf : WF cfg σ) {w : Outcomes} (hs : step cfg σ (.handle c w) = some σ')
    (careful : Careful cfg σ (.handle c w) σ') (ex : Exclusive σ) : Exclusive σ' := by
  obtain ⟨e, s, msg, ms, he, -, -, -, engines, handled, r⟩ := responds wf hs careful ex.rosters
  obtain ⟨owner, myId⟩ := wf.mesh c e he
  have grows := e.mesh.react_grows cfg.rtc w e.cfg.relayEnabled msg
  rw [← Engine.handle_mesh] at grows
  have right : Weight.contrary.down e.cfg msg = 0 := by
    have := (handled .contrary).taken
    rw [ex.contrary] at this
    omega
  have fresh : ∀ q, Tokens.None (σ.load (.dealing (e.mesh.pcFor q (e.mesh.serial q)))) := fun q => by
    rw [Mesh.pcFor, owner]
    refine ex.unmade c q _ fun e₁ he₁ => ?_
    cases he.symm.trans he₁
    exact Nat.le_refl _
  -- Of each negotiation a message moves along, or one is begun.
  have moves : ∀ pc, Tokens.Shift (σ.load (.dealing pc)) (σ'.load (.dealing pc)) ∨
      (∃ q, msg.cue q = .seen ∧ e.mesh.myId < q ∧ e.mesh.conn? q = none ∧ pc = e.mesh.pcFor q (e.mesh.serial q)) ∧
        Tokens.Single (σ'.load (.dealing pc)) := by
    intro pc
    rcases r.dealing pc with le | ⟨q, seen, greater, vacant, hpc, le⟩
    · exact .inl ((handled _).shift le)
    · exact .inr ⟨⟨q, seen, greater, vacant, hpc⟩, (handled _).begun le (hpc ▸ fresh q)⟩
  have kept : ∀ pc, Tokens.None (σ.load (.dealing pc)) → (∀ q, msg.cue q = .seen → e.mesh.myId < q → e.mesh.conn? q = none →
      pc ≠ e.mesh.pcFor q (e.mesh.serial q)) → Tokens.None (σ'.load (.dealing pc)) := by
    intro pc empty old
    rcases moves pc with shift | ⟨⟨q, seen, greater, vacant, hpc⟩, -⟩
    · exact shift.none empty
    · exact absurd hpc (old q seen greater vacant)
  have serial_le : ∀ q, e.mesh.serial q ≤ (e.handle cfg.rtc w msg).mesh.serial q := fun q => (r.reacts q).serial_le
  have event : next cfg σ (.act (.handle c w)) = some σ' := hs
  refine ⟨rostersDistinct_next ex.rosters event, ?_, fun pc => ?_, fun d q n later => ?_, fun d e₁ q x he₁ hx => ?_⟩
  · exact ((handled .contrary).shift (by rw [r.contrary myId right]; exact Nat.zero_le _)).none ex.contrary
  · rcases moves pc with shift | ⟨-, single⟩
    · exact shift.single (ex.single pc)
    · exact single
  · refine kept _ (ex.unmade d q n fun e₁ he₁ => ?_) fun q' seen greater _ heq => ?_
    · by_cases hd : d = c
      · subst hd
        cases he.symm.trans he₁
        exact (serial_le q).trans (later _ (by rw [engines, Function.update_self]))
      · exact later e₁ (by rw [engines, Function.update_of_ne hd]; exact he₁)
    · obtain ⟨p, -, side, -⟩ := r.begun seen greater
      obtain ⟨rfl, rfl, rfl⟩ := PcId.mk.inj heq
      have := later _ (by rw [engines, owner, Function.update_self])
      have made : (e.handle cfg.rtc w msg).mesh.serial q = e.mesh.serial q + 1 := congrArg Side.serial side
      omega
  · by_cases hd : d = c
    · subst hd
      rw [engines, Function.update_self, Option.some.injEq] at he₁
      subst he₁
      exact sole_handle wf he ex handled r grows.owner grows.myId hx fun pc empty old =>
        kept pc empty fun q seen greater _ => old q seen greater
    · rw [engines, Function.update_of_ne hd] at he₁
      obtain ⟨sole, done⟩ := ex.sole d e₁ q x he₁ hx
      refine ⟨sole, fun h => kept _ (done h) fun q' _ _ _ heq => hd ?_⟩
      obtain ⟨n, -, hpc⟩ := sole.made
      rw [← (wf.mesh d e₁ he₁).1, ← owner]
      exact congrArg PcId.owner (hpc.symm.trans heq)

theorem exclusive_step (wf : WF cfg σ) (hs : step cfg σ a = some σ') (careful : Careful cfg σ a σ') (ex : Exclusive σ) :
    Exclusive σ' := by
  cases a with
  | handle c w => exact exclusive_handle wf hs careful ex
  | _ => exact exclusive_idle wf hs (fun _ _ => by simp) ex

theorem exclusive_reach (h : Lts.Reach (step cfg) (Careful cfg) empty σ) : WF cfg σ ∧ Exclusive σ :=
  h.invariant (P := fun σ => WF cfg σ ∧ Exclusive σ) ⟨wf_empty, exclusive_empty⟩
    fun _ _ _ inv careful hs => ⟨wf_step inv.1 hs, exclusive_step inv.1 hs careful inv.2⟩

end

end Sys

end SquadLink
