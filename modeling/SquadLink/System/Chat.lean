import SquadLink.Client.View
import SquadLink.System.Names

/-! Text chat over the data channels (`companion-core/src/mesh.rs`, `broadcast_chat` and `wire_chat`), on top of the
    system. A line goes to every peer whose chat channel is open, as JSON; what comes in is queued for the engine's loop
    under the user id that the PeerConn is filed under. The channels are the library's: a message comes from the
    PeerConnection at the other end, which is one whose description has been set, since the description names its
    certificate. The JSON is a parameter as well. -/

namespace SquadLink

/-- Text-chat payload of the DataChannels. -/
structure ChatMsg where
  text : String
  ts : UInt64
deriving DecidableEq, Repr

/-- What `serde_json` makes of a chat line, and of a text that comes in. -/
structure ChatCodec where
  write : ChatMsg → String
  read : String → Option ChatMsg

/-- What has been written is read again. -/
def ChatCodec.Faithful (codec : ChatCodec) : Prop := ∀ line, codec.read (codec.write line) = some line

namespace Mesh

/-- The PeerConnections that a chat line is sent over. -/
def chatPcs (m : Mesh) : List PcId := m.broadcastChat.filterMap fun peer => (m.conn? peer).map (·.pc)

end Mesh

/-- `channel pc` is what has been sent on the chat channel of a PeerConnection and has not come to its other end yet,
    `events` what waits for a client's loop, and `typed` all that the user of a client has typed; no step reads `typed`. -/
structure Talk where
  sys : Sys
  channel : PcId → List String
  events : ClientId → List (String × String)
  typed : ClientId → List String

inductive TalkAct
  /-- A step of the system that has nothing to do with chat. -/
  | act (a : Act)
  /-- The user sends a chat line, at the time `ts`. -/
  | type (c : ClientId) (text : String) (ts : UInt64)
  /-- A message arrives on the chat channel of the PeerConn for `q`, from the PeerConnection `pc`. -/
  | arrive (c : ClientId) (q : String) (pc : PcId)
  /-- What is on its way from `pc` is lost with its channel. -/
  | cut (pc : PcId)
  /-- The loop takes the oldest event. -/
  | take (c : ClientId)

def Act.chats : Act → Bool
  | .event _ (.command (.chat _)) | .event _ (.mesh (.chat _ _)) => true
  | _ => false

namespace Talk

def empty : Talk := { sys := .empty, channel := fun _ => [], events := fun _ => [], typed := fun _ => [] }

section
variable (codec : ChatCodec) (cfg : SysConfig) (t : Talk)

/-- The line goes out on the channels of a mesh. -/
def broadcast (m : Mesh) (line : ChatMsg) : PcId → List String := fun pc =>
  if pc ∈ m.chatPcs then t.channel pc ++ [codec.write line] else t.channel pc

/-- Only what can be read is passed on. -/
def received (c : ClientId) (q json : String) : ClientId → List (String × String) :=
  match codec.read json with
  | some line => Function.update t.events c (t.events c ++ [(q, line.text)])
  | none => t.events

def step : TalkAct → Option Talk
  | .act a => if a.chats then none else (Sys.step cfg t.sys a).map fun sys => { t with sys }
  | .type c text ts =>
    match t.sys.running? c with
    | some e => (Sys.step cfg t.sys (.event c (.command (.chat text)))).map fun sys =>
        { t with
          sys
          channel := t.broadcast codec e.mesh { text, ts }
          typed := Function.update t.typed c (t.typed c ++ [text]) }
    | none => none
  | .arrive c q pc =>
    match (t.sys.engines c).bind fun e => e.mesh.conn? q, t.channel pc with
    | some p, json :: rest =>
      if p.chat ∧ pc ∈ p.remotes.map (·.id.pc) then
        some { t with channel := Function.update t.channel pc rest, events := t.received codec c q json }
      else none
    | _, _ => none
  | .cut pc => some { t with channel := Function.update t.channel pc [] }
  | .take c =>
    match t.events c with
    | (q, text) :: rest => (Sys.step cfg t.sys (.event c (.mesh (.chat q text)))).map fun sys =>
        { t with sys, events := Function.update t.events c rest }
    | [] => none

end

/-- A candidate is reported by a PeerConnection of the client that the callback belongs to. -/
def Reports (t : Talk) : TalkAct → Prop
  | .act a => Sys.Reports t.sys a
  | _ => True

instance (t : Talk) (a : TalkAct) : Decidable (Reports t a) := by
  unfold Reports
  split <;> infer_instance

/-- A client of user `q`, in the room of client `c`, has typed the text; and both have been let in. -/
def Said (cfg : SysConfig) (t : Talk) (c : ClientId) (q text : String) : Prop :=
  ∃ e d f, t.sys.engines c = some e ∧ t.sys.engines d = some f ∧ text ∈ t.typed d ∧ f.cfg.userId = q ∧
    f.cfg.room = e.cfg.room ∧ Sys.Entitled cfg e.cfg ∧ Sys.Entitled cfg f.cfg

/-- Who is behind a line that client `c` shows under a name: its own user, or another one who is called so. -/
inductive Author (cfg : SysConfig) (t : Talk) (c : ClientId) (ecfg : EngineConfig) (name text : String) : Prop
  | own (typed : text ∈ t.typed c) (named : name = ecfg.name)
  | other (q : String) (said : Said cfg t c q text)
      (named : name = q ∨ Sys.Registered cfg t.sys ecfg.room { userId := q, name })

structure Sound (codec : ChatCodec) (cfg : SysConfig) (t : Talk) : Prop where
  channel : ∀ pc, ∀ json ∈ t.channel pc, ∃ line : ChatMsg, json = codec.write line ∧ line.text ∈ t.typed pc.owner
  events : ∀ c, ∀ l ∈ t.events c, Said cfg t c l.1 l.2
  lines : ∀ c e, t.sys.engines c = some e → ∀ l ∈ e.lines, Author cfg t c e.cfg l.1 l.2

end Talk

/-- The chat lines that a client shows after a step. -/
theorem Sys.lines_step {cfg : SysConfig} {σ σ' : Sys} {a : Act} (wf : WF cfg σ) (hs : step cfg σ a = some σ') {c : ClientId}
    {e' : Engine} (he' : σ'.engines c = some e') : e'.lines = [] ∨ ∃ e, σ.engines c = some e ∧ e'.cfg = e.cfg ∧
      (e'.lines = e.lines ∨ ∃ ev, a = .event c ev ∧ e'.lines = e.lines ++ (ev.line? e).toList) := by
  rcases engines_step hs he' with ⟨e, he⟩ | ⟨ecfg, srv, -, -, -, rfl⟩
  · refine .inr ⟨e, he, ?_⟩
    obtain ⟨e₁, msgs, he₁, turn, -⟩ := engine_step wf hs he
    cases he'.symm.trans he₁
    cases turn with
    | idle => exact ⟨rfl, .inl rfl⟩
    | handle w s msg act cur inbox => exact ⟨Engine.handle_cfg msg, .inl (Engine.lines_handle msg)⟩
    | lost act => exact ⟨rfl, .inl Engine.lines_lost⟩
    | uplink msg rest act out => exact ⟨rfl, .inl rfl⟩
    | reconnect act off => exact ⟨rfl, .inl (Engine.lines_reconnected _)⟩
    | event ev act round => exact ⟨(Engine.onEvent_spec round).1, .inr ⟨ev, act, Engine.lines_onEvent round⟩⟩
  · exact .inl rfl

namespace Talk

section
variable {codec : ChatCodec} {cfg : SysConfig} {t t' : Talk} {a : TalkAct} {c : ClientId} {q text : String}

theorem Said.grow (h : Said cfg t c q text) (kept : Sys.Kept t.sys t'.sys) (typed : ∀ d, t.typed d ⊆ t'.typed d) :
    Said cfg t' c q text := by
  obtain ⟨e, d, f, he, hf, hm, said⟩ := h
  obtain ⟨e', he', hecfg⟩ := kept.engine c e he
  obtain ⟨f', hf', hfcfg⟩ := kept.engine d f hf
  exact ⟨e', d, f', he', hf', typed d hm, hecfg ▸ hfcfg ▸ said⟩

theorem Author.grow {ecfg : EngineConfig} {name : String} (h : Author cfg t c ecfg name text) (kept : Sys.Kept t.sys t'.sys)
    (typed : ∀ d, t.typed d ⊆ t'.typed d) : Author cfg t' c ecfg name text := by
  cases h with
  | own hm named => exact .own (typed c hm) named
  | other q said named => exact .other q (said.grow kept typed) (named.imp_right fun registered => registered.kept kept)

/-- The system's part in a step. -/
theorem lines_sound (wf : Sys.WF cfg t.sys) (sound : Sound codec cfg t) {b : Act} (hs : Sys.step cfg t.sys b = some t'.sys)
    (typed : ∀ d, t.typed d ⊆ t'.typed d)
    (added : ∀ c e ev l, b = .event c ev → t.sys.engines c = some e → ev.line? e = some l → Author cfg t' c e.cfg l.1 l.2) :
    ∀ c e, t'.sys.engines c = some e → ∀ l ∈ e.lines, Author cfg t' c e.cfg l.1 l.2 := by
  have kept := Sys.step_kept wf hs
  intro c e' he' l hl
  rcases Sys.lines_step wf hs he' with none | ⟨e, he, hcfg, same | ⟨ev, act, lines⟩⟩
  · rw [none] at hl
    cases hl
  · rw [hcfg]
    exact (sound.lines c e he l (same ▸ hl)).grow kept typed
  · rw [lines] at hl
    rw [hcfg]
    rcases List.mem_append.mp hl with hl | hl
    · exact (sound.lines c e he l hl).grow kept typed
    · exact added c e ev l act he (Option.mem_toList.mp hl)

/-- The system makes a step of its own, or stands still. -/
theorem sys_step (hs : step codec cfg t a = some t') :
    t'.sys = t.sys ∨ ∃ b, Sys.step cfg t.sys b = some t'.sys ∧ (Reports t a → Sys.Reports t.sys b) := by
  cases a with
  | act a =>
    obtain ⟨-, hs⟩ := Option.ite_none_left_eq_some.mp hs
    obtain ⟨sys, hsys, rfl⟩ := Option.map_eq_some_iff.mp hs
    exact .inr ⟨a, hsys, id⟩
  | type c text ts =>
    simp only [step] at hs
    split at hs
    · obtain ⟨sys, hsys, rfl⟩ := Option.map_eq_some_iff.mp hs
      exact .inr ⟨_, hsys, fun _ => trivial⟩
    · cases hs
  | arrive c q pc =>
    simp only [step] at hs
    split at hs
    · obtain ⟨-, hs⟩ := Option.ite_none_right_eq_some.mp hs
      cases hs
      exact .inl rfl
    · cases hs
  | cut pc => cases hs; exact .inl rfl
  | take c =>
    simp only [step] at hs
    split at hs
    · obtain ⟨sys, hsys, rfl⟩ := Option.map_eq_some_iff.mp hs
      exact .inr ⟨_, hsys, fun _ => trivial⟩
    · cases hs

theorem sys_reach (h : Lts.Reach (step codec cfg) (fun t a _ => Reports t a) empty t) :
    Lts.Reach (Sys.step cfg) (fun σ a _ => Sys.Reports σ a) Sys.empty t.sys :=
  h.simulate_over (f := Talk.sys) fun _ _ _ ok hs => (sys_step hs).imp_right fun ⟨b, hs, reports⟩ => ⟨b, reports ok, hs⟩

theorem sound_step (wf : Sys.WF cfg t.sys) (attr : Sys.Attributed cfg t.sys) (named : Sys.Named cfg t.sys)
    (sound : Sound codec cfg t)
    (faithful : codec.Faithful) (hs : step codec cfg t a = some t') : Sound codec cfg t' := by
  have same : Sys.Kept t.sys t.sys := ⟨Nat.le_refl _, fun _ _ => rfl, fun _ e he => ⟨e, he, rfl⟩⟩
  cases a with
  | act a =>
    obtain ⟨quiet, hs⟩ := Option.ite_none_left_eq_some.mp hs
    obtain ⟨sys, hsys, rfl⟩ := Option.map_eq_some_iff.mp hs
    have kept := Sys.step_kept wf hsys
    refine ⟨sound.channel, fun c l hl => (sound.events c l hl).grow kept fun d => List.Subset.refl _,
      lines_sound wf sound hsys (fun d => List.Subset.refl _) fun c e ev l act he hl => ?_⟩
    -- Chat has steps of its own.
    subst act
    cases ev with
    | command cmd =>
      cases cmd with
      | chat text => exact absurd rfl quiet
      | _ => cases hl
    | mesh ev =>
      cases ev with
      | chat sender text => exact absurd rfl quiet
      | badge peer badge => cases hl
    | _ => cases hl
  | type c text ts =>
    simp only [step] at hs
    split at hs
    · rename_i e running
      obtain ⟨he, -⟩ := Sys.running?_eq_some running
      obtain ⟨sys, hsys, rfl⟩ := Option.map_eq_some_iff.mp hs
      have kept := Sys.step_kept wf hsys
      have grows : ∀ d, t.typed d ⊆ Function.update t.typed c (t.typed c ++ [text]) d := fun d => by
        by_cases hd : d = c
        · subst hd
          rw [Function.update_self]
          exact List.subset_append_left _ _
        · rw [Function.update_of_ne hd]
          exact List.Subset.refl _
      have new : text ∈ Function.update t.typed c (t.typed c ++ [text]) c := by
        rw [Function.update_self]
        exact List.mem_append_right _ (List.mem_singleton_self _)
      refine ⟨fun pc json hj => ?_, fun d l hl => (sound.events d l hl).grow kept grows,
        lines_sound wf sound hsys grows fun d f ev l act hf hl => ?_⟩
      · have old (hj : json ∈ t.channel pc) : ∃ line : ChatMsg, json = codec.write line ∧
            line.text ∈ Function.update t.typed c (t.typed c ++ [text]) pc.owner := by
          obtain ⟨line, hw, hm⟩ := sound.channel pc json hj
          exact ⟨line, hw, grows _ hm⟩
        simp only [broadcast] at hj
        split at hj
        · rename_i hpc
          rcases List.mem_append.mp hj with hold | hnew
          · exact old hold
          · refine ⟨{ text, ts }, List.mem_singleton.mp hnew, ?_⟩
            -- The channel is one of the client's own PeerConnections.
            obtain ⟨q, -, hq⟩ := List.mem_filterMap.mp hpc
            obtain ⟨p, hp, rfl⟩ := Option.map_eq_some_iff.mp hq
            rw [((attr.meshes c e he).own q p hp).1, (wf.mesh c e he).1]
            exact new
        · exact old hj
      · injection act with hc hev
        subst hc hev
        cases hl
        exact .own new rfl
    · cases hs
  | arrive c q pc =>
    simp only [step] at hs
    split at hs
    · rename_i p json rest hp hchannel
      obtain ⟨⟨-, hpc⟩, hs⟩ := Option.ite_none_right_eq_some.mp hs
      cases hs
      obtain ⟨e, he, filed⟩ := Option.bind_eq_some_iff.mp hp
      refine ⟨fun pc' json' hj => ?_, fun d l hl => ?_, fun d f hf l hl =>
        (sound.lines d f hf l hl).grow same fun _ => List.Subset.refl _⟩
      · by_cases hpc' : pc' = pc
        · subst hpc'
          simp only [Function.update_self] at hj
          exact sound.channel pc' json' (hchannel ▸ List.mem_cons_of_mem _ hj)
        · simp only [Function.update_of_ne hpc'] at hj
          exact sound.channel pc' json' hj
      · have old (hl : l ∈ t.events d) : Said cfg t d l.1 l.2 := sound.events d l hl
        refine Said.grow (t := t) ?_ same fun _ => List.Subset.refl _
        obtain ⟨sent, rfl, hm⟩ := sound.channel pc json (hchannel ▸ List.mem_cons_self)
        simp only [received, faithful sent] at hl
        by_cases hd : d = c
        · subst hd
          rw [Function.update_self] at hl
          rcases List.mem_append.mp hl with hold | hnew
          · exact old hold
          · cases List.mem_singleton.mp hnew
            have told : pc ∈ p.told := List.mem_append_left _ hpc
            have made : Sys.MadeFor cfg t.sys e.cfg q pc := ((attr.meshes d e he).knows q p filed).told told
            obtain ⟨f, hf, hq, hroom, entitled⟩ := made.maker
            exact ⟨e, pc.owner, f, he, hf, hm, hq, hroom, made.entitled, entitled⟩
        · rw [Function.update_of_ne hd] at hl
          exact old hl
    · cases hs
  | cut pc =>
    cases hs
    refine ⟨fun pc' json hj => ?_, sound.events, fun d e he l hl =>
      (sound.lines d e he l hl).grow same fun _ => List.Subset.refl _⟩
    by_cases hpc : pc' = pc
    · subst hpc
      simp only [Function.update_self] at hj
      cases hj
    · simp only [Function.update_of_ne hpc] at hj
      exact sound.channel pc' json hj
  | take c =>
    simp only [step] at hs
    split at hs
    · rename_i q text rest hevents
      obtain ⟨sys, hsys, rfl⟩ := Option.map_eq_some_iff.mp hs
      have kept := Sys.step_kept wf hsys
      have said : Said cfg t c q text := sound.events c (q, text) (hevents ▸ List.mem_cons_self)
      refine ⟨sound.channel, fun d l hl => Said.grow (t := t) ?_ kept fun _ => List.Subset.refl _,
        lines_sound wf sound hsys (fun _ => List.Subset.refl _) fun d e ev l act he hl => ?_⟩
      · by_cases hd : d = c
        · subst hd
          simp only [Function.update_self] at hl
          exact sound.events d l (hevents ▸ List.mem_cons_of_mem _ hl)
        · simp only [Function.update_of_ne hd] at hl
          exact sound.events d l hl
      · injection act with hc hev
        subst hc hev
        cases hl
        refine .other q (said.grow kept fun _ => List.Subset.refl _) ?_
        -- The name is one that has been let in, or there is none.
        cases hn : (e.members.lookup q).map (·.name) with
        | none => exact .inl rfl
        | some n => exact .inr ((named.members c e q n he hn).kept kept)
    · cases hs

/-- Whatever is shown in the chat has been typed: by the user itself, or by a user of the same room, and it is shown under
    that user's id or a name that the user was let in with. -/
theorem chat_attributed (faithful : codec.Faithful) (h : Lts.Reach (step codec cfg) (fun t a _ => Reports t a) empty t)
    {e : Engine} {name : String}
    (he : t.sys.engines c = some e) (shown : .chat name text ∈ e.ui) : Author cfg t c e.cfg name text := by
  have sound : Sound codec cfg t := by
    refine h.invariant_over (Q := fun t => Sys.WF cfg t.sys ∧ Sys.Attributed cfg t.sys ∧ Sys.Named cfg t.sys)
      (fun t hr => ?_) ⟨fun _ _ hj => (by cases hj), fun _ _ hl => (by cases hl), fun _ _ he => (by cases he)⟩
      fun _ _ _ known _ sound _ hs => sound_step known.1 known.2.1 known.2.2 sound faithful hs
    have reach := sys_reach hr
    exact ⟨Sys.wf_reach reach, Sys.attributed_reach reach, Sys.named_reach reach⟩
  exact sound.lines c e he (name, text) (List.mem_filterMap.mpr ⟨_, shown, rfl⟩)

end

/-! ### One line -/

/-- Two clients connect, and the chat channel opens; the one with the larger id says hello. -/
def greetActs : List TalkAct :=
  Sys.connectActs.map .act ++ [.act (.event 1 (.dataChannel { owner := 1, peer := "alice", serial := 0 })),
    .type 1 "hello" 0]

def greeted (codec : ChatCodec) : Talk := (Lts.exec (step codec Sys.sampleConfig) empty greetActs).getD empty

/-- The other one has got it, and its loop has not taken it yet. -/
def arrived (codec : ChatCodec) : Talk :=
  { greeted codec with
    channel := Function.update (greeted codec).channel { owner := 1, peer := "alice", serial := 0 } []
    events := Function.update (greeted codec).events 0 [("bob", "hello")] }

def chatted (codec : ChatCodec) : Talk := (step codec Sys.sampleConfig (arrived codec) (.take 0)).getD empty

theorem step_arrived {codec : ChatCodec} (faithful : codec.Faithful) : step codec Sys.sampleConfig (greeted codec)
    (.arrive 0 "bob" { owner := 1, peer := "alice", serial := 0 }) = some (arrived codec) := by
  have read : (greeted codec).received codec 0 "bob" (codec.write { text := "hello", ts := 0 }) =
      Function.update (greeted codec).events 0 [("bob", "hello")] := by
    rw [received, faithful { text := "hello", ts := 0 }]
    rfl
  rw [arrived, ← read]
  rfl

theorem reach_chatted {codec : ChatCodec} (faithful : codec.Faithful) :
    Lts.Reach (step codec Sys.sampleConfig) (fun t a _ => Reports t a) empty (chatted codec) := by
  have greets : Lts.Reach (step codec Sys.sampleConfig) (fun t a _ => Reports t a) empty (greeted codec) :=
    Lts.Reach.of_execOk (fun _ _ _ => of_decide_eq_true)
      (show Lts.execOk (step codec Sys.sampleConfig) (fun t a _ => decide (Reports t a)) empty greetActs =
        some (greeted codec) from rfl)
  have arrives : Lts.Reach (step codec Sys.sampleConfig) (fun t a _ => Reports t a) empty (arrived codec) :=
    .step (.arrive 0 "bob" { owner := 1, peer := "alice", serial := 0 }) greets trivial (step_arrived faithful)
  exact .step (.take 0) arrives trivial rfl

def textKey : List Char := "\x7b\"text\":\"".toList

def tsKey : List Char := "\",\"ts\":".toList

/-- JSON as it is for a text without special characters. -/
def plain : ChatCodec where
  write line := String.ofList (textKey ++ (line.text.toList ++ (tsKey ++ (Nat.toDigits 10 line.ts.toNat ++ ['\x7d']))))
  read json :=
    let rest := (json.toList.drop textKey.length).reverse.tail
    let digits := (rest.takeWhile Char.isDigit).reverse
    let text := ((rest.dropWhile Char.isDigit).drop tsKey.length).reverse
    some { text := String.ofList text, ts := UInt64.ofNat (Nat.ofDigitChars 10 digits 0) }

theorem plain_faithful : plain.Faithful := fun line => by
  have digits : ∀ c ∈ (Nat.toDigits 10 line.ts.toNat).reverse, c.isDigit = true := fun c hc =>
    Nat.isDigit_of_mem_toDigits (by decide) (by decide) (List.mem_reverse.mp hc)
  have colon : tsKey.reverse = ':' :: tsKey.reverse.tail := rfl
  have stops : ∀ l, (tsKey.reverse ++ l).takeWhile Char.isDigit = [] ∧
      (tsKey.reverse ++ l).dropWhile Char.isDigit = tsKey.reverse ++ l := fun l => by
    rw [colon]
    exact ⟨rfl, rfl⟩
  have rest : ((plain.write line).toList.drop textKey.length).reverse.tail =
      (Nat.toDigits 10 line.ts.toNat).reverse ++ (tsKey.reverse ++ line.text.toList.reverse) := by
    rw [plain, String.toList_ofList, List.drop_left]
    simp only [List.reverse_append, List.reverse_singleton, List.cons_append, List.nil_append, List.tail_cons,
      List.append_assoc]
  unfold plain at rest ⊢
  simp only [rest, List.takeWhile_append_of_pos digits, List.dropWhile_append_of_pos digits, stops, List.append_nil,
    List.reverse_reverse, Nat.ofDigitChars_ten_toDigits, UInt64.ofNat_toNat]
  rw [← List.length_reverse, List.drop_left, List.reverse_reverse, String.ofList_toList]

theorem chat_attributed_hello : plain.write { text := "hello", ts := 0 } = "\x7b\"text\":\"hello\",\"ts\":0\x7d" ∧
    ∃ e, (chatted plain).sys.engines 0 = some e ∧ e.lines = [("bob", "hello")] ∧
      Author Sys.sampleConfig (chatted plain) 0 e.cfg "bob" "hello" :=
  ⟨by rfl, _, rfl, rfl, chat_attributed plain_faithful (reach_chatted plain_faithful) rfl (by decide)⟩

end Talk

end SquadLink
