import SquadLink.Server.Invariants

/-! Room isolation and sender stamping. Whatever the sockets send and in whatever order their steps fall,
    what is placed in a queue on account of a room stays within that room. -/

namespace SquadLink

namespace Server

/-- What holds of a history in which rooms are isolated. -/
structure Isolated (cfg : ServerConfig) (st : Server) : Prop where
  /-- What is placed for a room was caused by a socket that had joined that room with a valid token, is
      placed at a socket that had joined it too, and carries the causing socket's user id. -/
  stamped : ∀ pre post cause dest msg, st.history = pre ++ .placed cause dest msg :: post → msg.roomBound = true →
    ∃ room userId token userId' token', .accepted cause room userId token ∈ pre ∧
      cfg.auth.check cfg.prim room token = true ∧ .accepted dest room userId' token' ∈ pre ∧
      ∀ x, msg.stamp = some x → x = userId
  /-- No socket has a second accepted Join. -/
  once : ∀ pre post s room userId token, st.history = pre ++ .accepted s room userId token :: post →
    ∀ room' userId' token', .accepted s room' userId' token' ∉ post
  /-- A socket acts under the room and user id of its accepted Join. -/
  identity : ∀ s room userId, st.ident s = some (room, userId) → ∃ token, .accepted s room userId token ∈ st.history

theorem rooms_isolated {cfg : ServerConfig} {st : Server} (h : Lts.Reach (step cfg) Lts.anyStep empty st) :
    Isolated cfg st := by
  have inv := inv_reach h
  refine ⟨fun pre post cause dest msg hist hb => ?_, fun pre post s room userId token hist room' userId' token' hm => ?_,
    inv.joined⟩
  · obtain ⟨room, userId, token, userId', token', hc, hd, hstamp⟩ := inv.roomBound pre post cause dest msg hist hb
    have hc' : .accepted cause room userId token ∈ st.history := by
      rw [hist]
      exact List.mem_append_left _ hc
    exact ⟨room, userId, token, userId', token', hc, (inv.accepted _ _ _ _ hc').2.1, hd, hstamp⟩
  · have joiners := inv.joiners
    rw [hist] at joiners
    have later := (List.pairwise_cons.mp (List.pairwise_append.mp joiners).2.1).1 _ hm
    exact later s rfl rfl

/-! A run of two sockets in an open room, in which one offers to the other. -/

def openConfig : ServerConfig :=
  { prim := { hmacSha256 := fun _ _ => [], hmacSha1 := fun _ _ => [], base64 := fun _ => "", hex := sampleHex }
    auth := .opened
    turn := none }

/-- A socket opens, joins the room `r` and gets its roster. -/
def joinActs (s : SocketId) (userId : String) : List SAct :=
  [.accept, .frame s (.text (.join "r" userId userId none)), .finishJoin s 0]

def sampleSdp : Sdp :=
  { text := "v=0", id := { pc := { owner := 0, peer := "bob", serial := 0 }, n := 0 }, replyTo := none }

def offerActs : List SAct := joinActs 0 "alice" ++ joinActs 1 "bob" ++ [.frame 0 (.text (.offer "bob" sampleSdp))]

def afterOffer : Server := (Lts.exec (step openConfig) empty offerActs).getD empty

theorem exec_offerActs : Lts.exec (step openConfig) empty offerActs = some afterOffer := rfl

theorem rooms_isolated_offer : .placed 0 1 (.offer "alice" sampleSdp) ∈ afterOffer.history ∧
    Isolated openConfig afterOffer :=
  ⟨by decide, rooms_isolated (Lts.Reach.of_exec (fun _ _ _ _ => trivial) exec_offerActs)⟩

end Server

end SquadLink
