import CExercises.Framing.RoundTrip
import CExercises.Framing.SessionDef

/-!
# Every message comes back

`Took` relates one end of a stream to the other: the peer has sent part of a frame, the call of
`recv_msg` has taken part of that, and the stream holds the difference.  It survives every step of
either side.

A round goes through three phases.  While the server works on the message of the client's round
(`Asking`) nothing can run ahead: the client waits for an answer that has not been sent.  When the
server has sent it (`Answering`) it goes on to its next round, or closes, but finds nothing there.
Once the client has the answer, the next round begins, or the session is over (`Over`).  The line
that the server prints about a message comes after its answer and belongs to no phase (`Served`):
the client may be in its next round by then.

Every step gets nearer to the end of its party's round, so that no run goes on for ever, and the
phases show that it stops nowhere else.
-/

namespace CExercises.Framing

variable {msg echo : CStr} {sent more stream stream' : List UInt8} {pc pc' : RecvPc}
  {buf buf' : Option CStr} {closed : Prop}

/-! ## One stream -/

/-- The peer has sent the part `sent` of the frame of `msg`, and `recv_msg` stands at `pc`. -/
def Took (msg : CStr) (sent : List UInt8) : RecvPc → Option CStr → List UInt8 → Prop
  | .len, _, stream => stream = sent
  | .body n got, _, stream =>
      n = msg.strlen ∧ sent = UInt8.ofNat msg.strlen :: (got ++ stream)
  | .returned, buf, stream => sent = sendMsg msg ∧ stream = [] ∧ buf = some msg

lemma toNat_strlen (h : msg.strlen < bufSize) : (UInt8.ofNat msg.strlen).toNat = msg.strlen := by
  rw [UInt8.toNat_ofNat']
  exact Nat.mod_eq_of_lt (lt_trans h (by decide))

/-- The frame of a message that fits. -/
lemma sendMsg_of_fits (h : msg.strlen < bufSize) :
    sendMsg msg = UInt8.ofNat msg.strlen :: msg.bytes := by
  have hlen : msg.bytes.length ≤ msg.strlen := le_refl _
  simp only [sendMsg, toNat_strlen h]
  rw [List.take_of_length_le hlen]

lemma stringOf_bytes (msg : CStr) : stringOf msg.bytes = msg := by
  refine CStr.ext_bytes ?_
  rw [stringOf, List.takeWhile_eq_self_iff]
  intro b hb
  simpa using msg.nulFree b hb

/-- **The receiver moves.**  The end of the stream is not met before the end of the frame. -/
lemma Took.recv (h : Took msg sent pc buf stream) (hfits : msg.strlen < bufSize)
    (hsent : sent <+: sendMsg msg) (hclosed : closed → sent = sendMsg msg)
    (hstep : RecvStep closed pc buf stream pc' buf' stream') : Took msg sent pc' buf' stream' := by
  rw [sendMsg_of_fits hfits] at hsent hclosed
  cases hstep with
  | @len _ n =>
      obtain rfl : n :: stream' = sent := h
      rw [List.cons_prefix_cons] at hsent
      refine ⟨?_, by rw [hsent.1, List.nil_append]⟩
      rw [clamp_eq n (by decide), hsent.1, toNat_strlen hfits]
      exact Nat.min_eq_left (Nat.le_sub_one_of_lt hfits)
  | lenClosed hc =>
      have hnil : [] = sent := h
      rw [hclosed hc] at hnil
      cases hnil
  | body hmore hsome hasked =>
      obtain ⟨hn, hs⟩ := h
      exact ⟨hn, by rw [hs, List.append_assoc]⟩
  | @bodyClosed _ n got hmore hc =>
      obtain ⟨hn, hs⟩ := h
      rw [hclosed hc, List.append_nil, List.cons.injEq] at hs
      have hlen : msg.strlen = got.length := by rw [← hs.2]; rfl
      omega
  | @done _ n got _ hall =>
      obtain ⟨hn, rfl⟩ := h
      rw [List.cons_prefix_cons] at hsent
      have hle := hsent.2.length_le
      rw [List.length_append] at hle
      have hlen : msg.bytes.length = msg.strlen := rfl
      obtain rfl : stream = [] := List.length_eq_zero_iff.mp (by omega)
      rw [List.append_nil] at hsent
      have hgot : got = msg.bytes := hsent.2.eq_of_length (by omega)
      refine ⟨?_, rfl, ?_⟩
      · rw [sendMsg_of_fits hfits, hgot, List.append_nil]
      · rw [hgot, stringOf_bytes]

/-- **The sender moves.** -/
lemma Took.send (h : Took msg sent pc buf stream) (hsent : sent ++ more <+: sendMsg msg) :
    Took msg (sent ++ more) pc buf (stream ++ more) := by
  cases pc with
  | len =>
      obtain rfl : stream = sent := h
      rfl
  | body n got =>
      obtain ⟨hn, rfl⟩ := h
      exact ⟨hn, by simp⟩
  | returned =>
      obtain ⟨rfl, rfl, hbuf⟩ := h
      have hle := hsent.length_le
      rw [List.length_append] at hle
      obtain rfl : more = [] := List.length_eq_zero_iff.mp (by omega)
      exact ⟨by rw [List.append_nil], rfl, hbuf⟩

/-- A receiver that has returned has taken the whole frame. -/
lemma Took.exists_step (closed : Prop) (h : Took msg sent pc buf stream) (hfull : sent = sendMsg msg)
    (hfits : msg.strlen < bufSize) (hpc : pc ≠ .returned) :
    ∃ pc' buf' stream', RecvStep closed pc buf stream pc' buf' stream' := by
  rw [sendMsg_of_fits hfits] at hfull
  cases pc with
  | len =>
      obtain rfl : stream = sent := h
      rw [hfull]
      exact ⟨_, _, _, .len⟩
  | body n got =>
      obtain ⟨rfl, hs⟩ := h
      by_cases hmore : got.length < msg.strlen
      · rw [hfull, List.cons.injEq] at hs
        have hlen : msg.strlen = (got ++ stream).length := by rw [← hs.2]; rfl
        rw [List.length_append] at hlen
        cases stream with
        | nil =>
            rw [List.length_nil] at hlen
            omega
        | cons b rest =>
            refine ⟨_, _, _, @RecvStep.body _ _ _ _ [b] _ hmore (List.cons_ne_nil _ _) ?_⟩
            rw [List.length_singleton]
            omega
      · exact ⟨_, _, _, .done hmore⟩
  | returned => exact absurd rfl hpc

/-! ## The phases of a round -/

/-- What the client has sent of the frame of its current message. -/
def clientSent (msg : CStr) : ClientPc → List UInt8
  | .top => []
  | .sendBody => [UInt8.ofNat msg.strlen]
  | .recv _ => sendMsg msg
  | .closed => []

/-- What the server has sent of the frame of its answer. -/
def serverSent (echo : CStr) : ServerPc → List UInt8
  | .sendBody _ => [UInt8.ofNat echo.strlen]
  | _ => []

/-- The server works on `msg`, of which the client has sent the part `sent`. -/
def ServerAt (msg : CStr) (sent : List UInt8) (server : Server) (up : List UInt8) : Prop :=
  match server.pc with
  | .print | .top => up = sent
  | .recv pc => Took msg sent pc server.buf up
  | .sendLen echo | .sendBody echo =>
      echo = formatEcho msg ∧ server.buf = some msg ∧ up = [] ∧ sent = sendMsg msg
  | .closed => False

/-- The client waits, or is about to, for `echo`, of which the server has sent the part `sent`. -/
def ClientAt (echo : CStr) (sent : List UInt8) (client : Client) (down : List UInt8) : Prop :=
  match client.pc with
  | .top | .sendBody => down = sent
  | .recv pc => Took echo sent pc client.buf down
  | .closed => False

lemma ServerAt.send {server : Server} {up : List UInt8} (h : ServerAt msg sent server up)
    (hsent : sent ++ more <+: sendMsg msg) : ServerAt msg (sent ++ more) server (up ++ more) := by
  rcases server with ⟨pc, rounds, buf, log⟩
  have hfull : sent = sendMsg msg → more = [] := by
    rintro rfl
    have hle := hsent.length_le
    rw [List.length_append] at hle
    exact List.length_eq_zero_iff.mp (by omega)
  cases pc with
  | print | top => exact congrArg (· ++ more) h
  | recv pc => exact Took.send h hsent
  | sendLen echo | sendBody echo =>
      obtain ⟨hecho, hbuf, hup, hs⟩ := h
      rw [hfull hs, List.append_nil, List.append_nil]
      exact ⟨hecho, hbuf, hup, hs⟩
  | closed => exact h

lemma ClientAt.send {client : Client} {down : List UInt8} (h : ClientAt echo sent client down)
    (hsent : sent ++ more <+: sendMsg echo) :
    ClientAt echo (sent ++ more) client (down ++ more) := by
  rcases client with ⟨pc, todo, buf, log⟩
  cases pc with
  | top | sendBody => exact congrArg (· ++ more) h
  | recv pc => exact Took.send h hsent
  | closed => exact h

/-- What the client prints for a message. -/
def exchange (msg : CStr) : CStr × CStr := (msg, formatEcho msg)

/-- The server has answered `past` and has `left` rounds to go, and the line about the last answer
may be left to print. -/
def Served (past : List CStr) (left : ℕ) (server : Server) : Prop :=
  match server.pc with
  | .print => ∃ before msg, past = before ++ [msg] ∧ server.buf = some msg ∧ server.log = before
      ∧ server.rounds = left + 1
  | _ => server.log = past ∧ server.rounds = left

/-- The server has yet to send the answer of the client's round. -/
structure Asking (past : List CStr) (msg : CStr) (rest : List CStr) (s : Session) : Prop where
  todo : s.client.todo = msg :: rest
  served : Served past (rest.length + 1) s.server
  server : ServerAt msg (clientSent msg s.client.pc) s.server s.up
  client : ClientAt (formatEcho msg) (serverSent (formatEcho msg) s.server.pc) s.client s.down
  printed : s.client.log = past.map exchange

/-- The server has sent it, and prints, waits for the next message or has closed. -/
structure Answering (past : List CStr) (msg : CStr) (rest : List CStr) (s : Session) : Prop where
  todo : s.client.todo = msg :: rest
  served : Served (past ++ [msg]) rest.length s.server
  sent : clientSent msg s.client.pc = sendMsg msg
  up : s.up = []
  waits : s.server.pc = .print ∨ s.server.pc = .top ∨ (s.server.pc = .recv .len ∧ rest ≠ [])
    ∨ (s.server.pc = .closed ∧ rest = [])
  client : ClientAt (formatEcho msg) (sendMsg (formatEcho msg)) s.client s.down
  printed : s.client.log = past.map exchange

/-- All messages have been answered. -/
structure Over (msgs : List CStr) (s : Session) : Prop where
  todo : s.client.todo = []
  served : Served msgs 0 s.server
  up : s.up = []
  down : s.down = []
  client : s.client.pc = .top ∨ s.client.pc = .closed
  server : s.server.pc = .print ∨ s.server.pc = .top ∨ s.server.pc = .closed
  printed : s.client.log = msgs.map exchange

/-- The session stands in one of the three. -/
inductive Phase (msgs : List CStr) (s : Session) : Prop
  | asking {past : List CStr} {msg : CStr} {rest : List CStr} (hmsgs : msgs = past ++ msg :: rest)
      (h : Asking past msg rest s)
  | answering {past : List CStr} {msg : CStr} {rest : List CStr}
      (hmsgs : msgs = past ++ msg :: rest) (h : Answering past msg rest s)
  | ended (h : Over msgs s)

/-! ## One step -/

/-- A message that leaves room for the prefix comes back as it is, and fits. -/
lemma formatEcho_of_fits (h : msg.strlen ≤ 56) :
    formatEcho msg = echoPrefix.append msg ∧ (formatEcho msg).strlen < bufSize := by
  have hlen : (echoPrefix.append msg).bytes.length = 7 + msg.strlen := by
    rw [CStr.append_bytes, List.length_append]
    rfl
  have heq : formatEcho msg = echoPrefix.append msg := by
    refine CStr.ext_bytes (List.take_of_length_le ?_)
    rw [hlen]
    unfold echoSize
    omega
  refine ⟨heq, ?_⟩
  rw [heq]
  show (echoPrefix.append msg).bytes.length < bufSize
  rw [hlen]
  unfold bufSize
  omega

/-- An answer is not empty, so that its length byte is not all of it. -/
lemma serverSent_ne (pc : ServerPc) (h : msg.strlen ≤ 56) :
    serverSent (formatEcho msg) pc ≠ sendMsg (formatEcho msg) := by
  rcases formatEcho_of_fits h with ⟨heq, hfits⟩
  intro hs
  have hlen := congrArg List.length hs
  rw [sendMsg_of_fits hfits, heq, List.length_cons, CStr.append_bytes, List.length_append] at hlen
  have h7 : echoPrefix.bytes.length = 7 := rfl
  cases pc <;> simp only [serverSent, List.length_nil, List.length_singleton] at hlen <;> omega

lemma serverSent_le (pc : ServerPc) (echo : CStr) :
    serverSent echo pc <+: sendMsg echo := by
  cases pc with
  | sendBody _ => exact ⟨_, rfl⟩
  | _ => exact List.nil_prefix

lemma clientSent_le (pc : ClientPc) (msg : CStr) : clientSent msg pc <+: sendMsg msg := by
  cases pc with
  | sendBody => exact ⟨_, rfl⟩
  | recv _ => exact List.prefix_refl _
  | _ => exact List.nil_prefix

section

variable {past rest msgs : List CStr} {s s' : Session} {p : Party}

/-- The line is printed, with the message that is still in the buffer. -/
lemma Served.print {left k : ℕ} {server : Server} {got : CStr} (h : Served past left server)
    (hpc : server.pc = .print) (hbuf : server.buf = some got) (hrounds : server.rounds = k + 1) :
    server.log ++ [got] = past ∧ k = left := by
  simp only [Served, hpc] at h
  obtain ⟨before, last, rfl, hlast, rfl, hleft⟩ := h
  rw [hbuf, Option.some.injEq] at hlast
  exact ⟨by rw [hlast], Nat.succ_injective (hrounds.symm.trans hleft)⟩

/-- **Step**, while the server works on the message. -/
lemma Asking.step (h : Asking past msg rest s) (hfits : msg.strlen ≤ 56)
    (hstep : SessionStep p s s') : Asking past msg rest s' ∨ Answering past msg rest s' := by
  rcases h with ⟨htodo, hserved, hserver, hclient, hprinted⟩
  rcases formatEcho_of_fits hfits with ⟨_, hecho⟩
  have hmsg : msg.strlen < bufSize := lt_of_le_of_lt hfits (by decide)
  cases hstep with
  | clientSendLen hpc htodo' =>
      rw [htodo, List.cons.injEq] at htodo'
      obtain ⟨rfl, rfl⟩ := htodo'
      simp only [hpc, clientSent] at hserver
      simp only [ClientAt, hpc] at hclient
      exact Or.inl ⟨htodo, hserved, hserver.send ⟨_, rfl⟩, hclient, hprinted⟩
  | clientSendBody hpc htodo' =>
      rw [htodo, List.cons.injEq] at htodo'
      obtain ⟨rfl, rfl⟩ := htodo'
      simp only [hpc, clientSent] at hserver
      simp only [ClientAt, hpc] at hclient
      exact Or.inl ⟨htodo, hserved, hserver.send (List.prefix_refl _), hclient, hprinted⟩
  | clientRecv hpc hrecv =>
      simp only [hpc, clientSent] at hserver
      simp only [ClientAt, hpc] at hclient
      refine Or.inl ⟨htodo, hserved, hserver, ?_, hprinted⟩
      refine Took.recv hclient hecho (serverSent_le _ _) (fun hclosed => ?_) hrecv
      simp only [ServerAt, hclosed] at hserver
  | clientPrint hpc htodo' hbuf =>
      simp only [ClientAt, hpc] at hclient
      exact absurd hclient.1 (serverSent_ne _ hfits)
  | clientClose hpc htodo' =>
      rw [htodo] at htodo'
      cases htodo'
  | serverTop hpc hrounds' =>
      simp only [Served, hpc] at hserved
      simp only [ServerAt, hpc] at hserver
      simp only [hpc, serverSent] at hclient
      exact Or.inl ⟨htodo, hserved, hserver, hclient, hprinted⟩
  | serverRecv hpc hrecv =>
      simp only [Served, hpc] at hserved
      simp only [ServerAt, hpc] at hserver
      simp only [hpc, serverSent] at hclient
      refine Or.inl ⟨htodo, hserved, ?_, hclient, hprinted⟩
      refine Took.recv hserver hmsg (clientSent_le _ _) (fun hclosed => ?_) hrecv
      simp only [ClientAt, hclosed] at hclient
  | serverFormat hpc hbuf =>
      simp only [Served, hpc] at hserved
      simp only [ServerAt, hpc] at hserver
      simp only [hpc, serverSent] at hclient
      obtain ⟨hsent, hup, hbuf'⟩ := hserver
      rw [hbuf, Option.some.injEq] at hbuf'
      subst hbuf'
      exact Or.inl ⟨htodo, hserved, ⟨rfl, hbuf, hup, hsent⟩, hclient, hprinted⟩
  | serverSendLen hpc =>
      simp only [Served, hpc] at hserved
      simp only [ServerAt, hpc] at hserver
      simp only [hpc, serverSent] at hclient
      obtain ⟨rfl, hbuf, hup, hsent⟩ := hserver
      exact Or.inl ⟨htodo, hserved, ⟨rfl, hbuf, hup, hsent⟩, hclient.send ⟨_, rfl⟩, hprinted⟩
  | serverSendBody hpc =>
      simp only [Served, hpc] at hserved
      simp only [ServerAt, hpc] at hserver
      simp only [hpc, serverSent] at hclient
      obtain ⟨rfl, hbuf, hup, hsent⟩ := hserver
      obtain ⟨hlog, hrounds⟩ := hserved
      exact Or.inr ⟨htodo, ⟨past, msg, rfl, hbuf, hlog, hrounds⟩, hsent, hup, Or.inl rfl,
        hclient.send (List.prefix_refl _), hprinted⟩
  | serverPrint hpc hbuf hrounds =>
      simp only [ServerAt, hpc] at hserver
      simp only [hpc, serverSent] at hclient
      exact Or.inl ⟨htodo, hserved.print hpc hbuf hrounds, hserver, hclient, hprinted⟩
  | serverClose hpc hrounds' =>
      simp only [Served, hpc] at hserved
      rw [hserved.2] at hrounds'
      cases hrounds'

/-- **Step**, while the answer is on its way. -/
lemma Answering.step (h : Answering past msg rest s) (hfits : msg.strlen ≤ 56)
    (hstep : SessionStep p s s') : Answering past msg rest s'
      ∨ (∃ next rest', rest = next :: rest' ∧ Asking (past ++ [msg]) next rest' s')
      ∨ (rest = [] ∧ Over (past ++ [msg]) s') := by
  rcases h with ⟨htodo, hserved, hsent, hup, hwaits, hclient, hprinted⟩
  rcases formatEcho_of_fits hfits with ⟨_, hecho⟩
  have hopen : s.client.pc ≠ .closed := fun hclosed => by
    simp only [ClientAt, hclosed] at hclient
  cases hstep with
  | clientSendLen hpc htodo' =>
      rw [hpc] at hsent
      cases hsent
  | clientSendBody hpc htodo' =>
      rw [htodo, List.cons.injEq] at htodo'
      obtain ⟨rfl, rfl⟩ := htodo'
      simp only [ClientAt, hpc] at hclient
      rw [hpc] at hsent
      have hnil := (List.cons.inj hsent).2
      refine Or.inl ⟨htodo, hserved, rfl, ?_, hwaits, hclient, hprinted⟩
      rw [hup, List.nil_append]
      exact hnil.symm
  | clientRecv hpc hrecv =>
      simp only [ClientAt, hpc] at hclient
      rw [hpc] at hsent
      exact Or.inl ⟨htodo, hserved, hsent, hup, hwaits,
        Took.recv hclient hecho (List.prefix_refl _) (fun _ => rfl) hrecv, hprinted⟩
  | clientPrint hpc htodo' hbuf =>
      rw [htodo, List.cons.injEq] at htodo'
      obtain ⟨rfl, rfl⟩ := htodo'
      simp only [ClientAt, hpc] at hclient
      obtain ⟨_, hdown, hbuf'⟩ := hclient
      rw [hbuf, Option.some.injEq] at hbuf'
      subst hbuf'
      have hlog : s.client.log ++ [(msg, formatEcho msg)] = (past ++ [msg]).map exchange := by
        rw [hprinted, List.map_append]
        rfl
      right
      cases hrest : rest with
      | nil =>
          rw [hrest] at hserved
          refine Or.inr ⟨rfl, rfl, hserved, hup, hdown, Or.inl rfl, ?_, hlog⟩
          rcases hwaits with hpc' | hpc' | ⟨_, hne⟩ | ⟨hpc', _⟩
          · exact Or.inl hpc'
          · exact Or.inr (Or.inl hpc')
          · exact absurd hrest hne
          · exact Or.inr (Or.inr hpc')
      | cons next rest' =>
          rw [hrest] at hserved
          have hpc' : s.server.pc = .print ∨ s.server.pc = .top ∨ s.server.pc = .recv .len := by
            rcases hwaits with hpc' | hpc' | ⟨hpc', _⟩ | ⟨_, hnil⟩
            · exact Or.inl hpc'
            · exact Or.inr (Or.inl hpc')
            · exact Or.inr (Or.inr hpc')
            · rw [hrest] at hnil
              cases hnil
          refine Or.inl ⟨next, rest', rfl, rfl, hserved, ?_, ?_, hlog⟩
          · rcases hpc' with hpc' | hpc' | hpc' <;> simp only [ServerAt, hpc'] <;> exact hup
          · rcases hpc' with hpc' | hpc' | hpc' <;> simp only [ClientAt, hpc', serverSent] <;>
              exact hdown
  | clientClose hpc htodo' =>
      rw [htodo] at htodo'
      cases htodo'
  | serverTop hpc hrounds' =>
      simp only [Served, hpc] at hserved
      refine Or.inl ⟨htodo, hserved, hsent, hup, Or.inr (Or.inr (Or.inl ⟨rfl, ?_⟩)), hclient,
        hprinted⟩
      rintro rfl
      rw [hserved.2] at hrounds'
      cases hrounds'
  | serverRecv hpc hrecv =>
      -- the server waits for the first byte of the next message, and the client has not closed
      rcases hwaits with hpc' | hpc' | ⟨hpc', _⟩ | ⟨hpc', _⟩ <;> rw [hpc] at hpc'
      · cases hpc'
      · cases hpc'
      · cases hpc'
        rw [hup] at hrecv
        cases hrecv with
        | lenClosed hclosed => exact absurd hclosed hopen
      · cases hpc'
  | serverFormat hpc _ | serverSendLen hpc | serverSendBody hpc =>
      rcases hwaits with h | h | ⟨h, _⟩ | ⟨h, _⟩ <;> rw [hpc] at h <;> cases h
  | serverPrint hpc hbuf hrounds =>
      exact Or.inl ⟨htodo, hserved.print hpc hbuf hrounds, hsent, hup, Or.inr (Or.inl rfl), hclient,
        hprinted⟩
  | serverClose hpc hrounds' =>
      simp only [Served, hpc] at hserved
      have hnil : rest = [] := List.length_eq_zero_iff.mp (hserved.2.symm.trans hrounds')
      exact Or.inl ⟨htodo, hserved, hsent, hup, Or.inr (Or.inr (Or.inr ⟨rfl, hnil⟩)), hclient,
        hprinted⟩

/-- **Step**, when all is said: the last line is printed, and the two ends close. -/
lemma Over.step (h : Over msgs s) (hstep : SessionStep p s s') : Over msgs s' := by
  rcases h with ⟨htodo, hserved, hup, hdown, hclient, hserver, hprinted⟩
  cases hstep with
  | clientClose _ _ => exact ⟨htodo, hserved, hup, hdown, Or.inr rfl, hserver, hprinted⟩
  | serverClose hpc _ =>
      simp only [Served, hpc] at hserved
      exact ⟨htodo, hserved, hup, hdown, hclient, Or.inr (Or.inr rfl), hprinted⟩
  | serverPrint hpc hbuf hrounds =>
      exact ⟨htodo, hserved.print hpc hbuf hrounds, hup, hdown, hclient, Or.inr (Or.inl rfl),
        hprinted⟩
  | clientSendLen _ htodo' | clientSendBody _ htodo' | clientPrint _ htodo' _ =>
      rw [htodo] at htodo'
      cases htodo'
  | serverTop hpc hrounds' =>
      simp only [Served, hpc] at hserved
      rw [hserved.2] at hrounds'
      cases hrounds'
  | clientRecv hpc _ => rcases hclient with h | h <;> rw [hpc] at h <;> cases h
  | serverRecv hpc _ | serverFormat hpc _ | serverSendLen hpc | serverSendBody hpc =>
      rcases hserver with h | h | h <;> rw [hpc] at h <;> cases h

/-- The start of a session. -/
lemma phase_init (msgs : List CStr) :
    Phase msgs ⟨⟨.top, msgs, none, []⟩, ⟨.top, msgs.length, none, []⟩, [], []⟩ := by
  cases msgs with
  | nil => exact .ended ⟨rfl, ⟨rfl, rfl⟩, rfl, rfl, Or.inl rfl, Or.inr (Or.inl rfl), rfl⟩
  | cons msg rest =>
      have hmsgs : msg :: rest = [] ++ msg :: rest := rfl
      exact .asking hmsgs ⟨rfl, ⟨rfl, rfl⟩, rfl, rfl, rfl⟩

/-- **Step.** -/
lemma Phase.step (h : Phase msgs s) (hfits : ∀ msg ∈ msgs, msg.strlen ≤ 56)
    (hstep : SessionStep p s s') : Phase msgs s' := by
  cases h with
  | @asking past msg rest hmsgs h =>
      rcases h.step (hfits msg (by simp [hmsgs])) hstep with h' | h'
      · exact .asking hmsgs h'
      · exact .answering hmsgs h'
  | @answering past msg rest hmsgs h =>
      rcases h.step (hfits msg (by simp [hmsgs])) hstep with h' | ⟨next, rest', rfl, h'⟩ | ⟨rfl, h'⟩
      · exact .answering hmsgs h'
      · exact .asking (by rw [hmsgs, List.append_assoc, List.singleton_append]) h'
      · exact .ended (hmsgs ▸ h')
  | ended h => exact .ended (h.step hstep)

/-- **Run.** -/
lemma phase_of_reachable (hfits : ∀ msg ∈ msgs, msg.strlen ≤ 56)
    (h : Reachable (session msgs) s) : Phase msgs s := by
  refine h.invariant ?_ fun p s s' hphase hstep => hphase.step hfits hstep
  rintro s rfl
  exact phase_init msgs

/-! ## The end -/

/-- Both processes have ended. -/
def Finished (s : Session) : Prop := s.client.pc = .closed ∧ s.server.pc = .closed

/-- A line that is left to print can be printed. -/
lemma Served.exists_print {left : ℕ} (h : Served past left s.server) (hpc : s.server.pc = .print) :
    ∃ p s', SessionStep p s s' := by
  simp only [Served, hpc] at h
  obtain ⟨_, _, _, hbuf, _, hrounds⟩ := h
  exact ⟨_, _, .serverPrint hpc hbuf hrounds⟩

/-- While the server works on the message somebody can move. -/
lemma Asking.exists_step (h : Asking past msg rest s) (hfits : msg.strlen ≤ 56) :
    ∃ p s', SessionStep p s s' := by
  rcases h with ⟨htodo, hserved, hserver, hclient, _⟩
  have hmsg : msg.strlen < bufSize := lt_of_le_of_lt hfits (by decide)
  cases hc : s.client.pc with
  | top => exact ⟨_, _, .clientSendLen hc htodo⟩
  | sendBody => exact ⟨_, _, .clientSendBody hc htodo⟩
  | closed => simp only [ClientAt, hc] at hclient
  | recv cpc =>
      -- the client has sent everything and waits, so that the server has something to do
      rw [hc] at hserver
      cases hs : s.server.pc with
      | top =>
          simp only [Served, hs] at hserved
          exact ⟨_, _, .serverTop hs hserved.2⟩
      | recv spc =>
          simp only [ServerAt, hs] at hserver
          by_cases hret : spc = .returned
          · subst hret
            exact ⟨_, _, .serverFormat hs hserver.2.2⟩
          · rcases Took.exists_step (s.client.pc = .closed) hserver rfl hmsg hret with
              ⟨_, _, _, hrecv⟩
            exact ⟨_, _, .serverRecv hs hrecv⟩
      | sendLen e => exact ⟨_, _, .serverSendLen hs⟩
      | sendBody e => exact ⟨_, _, .serverSendBody hs⟩
      | print => exact hserved.exists_print hs
      | closed => simp only [ServerAt, hs] at hserver

/-- While the answer is on its way the client can move. -/
lemma Answering.exists_step (h : Answering past msg rest s) (hfits : msg.strlen ≤ 56) :
    ∃ p s', SessionStep p s s' := by
  rcases h with ⟨htodo, _, _, _, _, hclient, _⟩
  cases hc : s.client.pc with
  | top => exact ⟨_, _, .clientSendLen hc htodo⟩
  | sendBody => exact ⟨_, _, .clientSendBody hc htodo⟩
  | closed => simp only [ClientAt, hc] at hclient
  | recv cpc =>
      simp only [ClientAt, hc] at hclient
      by_cases hret : cpc = .returned
      · subst hret
        exact ⟨_, _, .clientPrint hc htodo hclient.2.2⟩
      · rcases Took.exists_step (s.server.pc = .closed) hclient rfl
          (formatEcho_of_fits hfits).2 hret with ⟨_, _, _, hrecv⟩
        exact ⟨_, _, .clientRecv hc hrecv⟩

/-- **Nobody waits for ever.** -/
lemma Phase.exists_step (h : Phase msgs s) (hfits : ∀ msg ∈ msgs, msg.strlen ≤ 56)
    (hfin : ¬ Finished s) : ∃ p s', SessionStep p s s' := by
  cases h with
  | asking hmsgs h => exact h.exists_step (hfits _ (by simp [hmsgs]))
  | answering hmsgs h => exact h.exists_step (hfits _ (by simp [hmsgs]))
  | ended h =>
      rcases h.client with hc | hc
      · exact ⟨_, _, .clientClose hc h.todo⟩
      · have hserved := h.served
        rcases h.server with hs | hs | hs
        · exact hserved.exists_print hs
        · simp only [Served, hs] at hserved
          exact ⟨_, _, .serverClose hs hserved.2⟩
        · exact absurd ⟨hc, hs⟩ hfin

/-- What a call of `recv_msg` may still take, and its return. -/
def RecvPc.rank : RecvPc → ℕ
  | .len => 300
  | .body n got => 1 + (n - got.length)
  | .returned => 0

/-- The rest of an iteration, in steps, at most. -/
def ClientPc.rank : ClientPc → ℕ
  | .top => 302
  | .sendBody => 301
  | .recv pc => pc.rank
  | .closed => 0

def ServerPc.rank : ServerPc → ℕ
  | .top => 305
  | .recv pc => 4 + pc.rank
  | .sendLen _ => 3
  | .sendBody _ => 2
  | .print => 1
  | .closed => 0

/-- The steps to the end of the session, at most. -/
def Session.rank (s : Session) : ℕ :=
  303 * s.client.todo.length + s.client.pc.rank + (306 * s.server.rounds + s.server.pc.rank)

lemma RecvStep.rank_lt (h : RecvStep closed pc buf stream pc' buf' stream') :
    pc'.rank < pc.rank := by
  cases h with
  | @len _ n rest =>
      have hlt := UInt8.toNat_lt
        (if n.toNat ≥ bufSize then UInt8.ofNat ((bufSize + (sizeMod - 1)) % sizeMod) else n)
      simp only [RecvPc.rank, List.length_nil]
      omega
  | lenClosed _ => simp only [RecvPc.rank]; omega
  | body hmore hsome hasked =>
      have hpos := List.length_pos_iff.mpr hsome
      simp only [RecvPc.rank, List.length_append]
      omega
  | bodyClosed _ _ => simp only [RecvPc.rank]; omega
  | done _ => simp only [RecvPc.rank]; omega

lemma SessionStep.rank_lt (h : SessionStep p s s') : s'.rank < s.rank := by
  cases h with
  | clientSendLen hpc _ => simp only [Session.rank, hpc, ClientPc.rank]; omega
  | clientSendBody hpc _ => simp only [Session.rank, hpc, ClientPc.rank, RecvPc.rank]; omega
  | clientRecv hpc hrecv =>
      have hlt := hrecv.rank_lt
      simp only [Session.rank, hpc, ClientPc.rank]
      omega
  | clientPrint hpc htodo _ =>
      simp only [Session.rank, hpc, htodo, ClientPc.rank, RecvPc.rank, List.length_cons]
      omega
  | clientClose hpc _ => simp only [Session.rank, hpc, ClientPc.rank]; omega
  | serverTop hpc _ => simp only [Session.rank, hpc, ServerPc.rank, RecvPc.rank]; omega
  | serverRecv hpc hrecv =>
      have hlt := hrecv.rank_lt
      simp only [Session.rank, hpc, ServerPc.rank]
      omega
  | serverFormat hpc _ => simp only [Session.rank, hpc, ServerPc.rank, RecvPc.rank]; omega
  | serverSendLen hpc => simp only [Session.rank, hpc, ServerPc.rank]; omega
  | serverSendBody hpc => simp only [Session.rank, hpc, ServerPc.rank]; omega
  | serverPrint hpc _ hrounds => simp only [Session.rank, hpc, hrounds, ServerPc.rank]; omega
  | serverClose hpc _ => simp only [Session.rank, hpc, ServerPc.rank]; omega

end

/-! ## The session -/

/-- What the server has printed of the messages it has answered. -/
lemma Served.log {left : ℕ} {server : Server} (h : Served past left server) :
    server.log = past ∨ ∃ msg, past = server.log ++ [msg] := by
  rcases server with ⟨pc, rounds, buf, log⟩
  cases pc with
  | print =>
      obtain ⟨before, msg, rfl, _, rfl, _⟩ := h
      exact Or.inr ⟨msg, rfl⟩
  | top | recv | sendLen | sendBody | closed => exact Or.inl h.1

/-- `j` messages printed by the server, when it has answered `past`. -/
lemma Served.take {left : ℕ} {server : Server} (h : Served past left server)
    (hmsgs : msgs = past ++ rest) :
    ∃ j, server.log = msgs.take j ∧ j ≤ past.length ∧ past.length ≤ j + 1 := by
  rcases h.log with hlog | ⟨msg, hlog⟩
  · exact ⟨past.length, by rw [hlog, hmsgs, List.take_left], le_refl _, Nat.le_succ _⟩
  · refine ⟨server.log.length, ?_, ?_, ?_⟩
    · rw [hmsgs, hlog, List.append_assoc, List.take_left]
    · rw [hlog, List.length_append]
      exact Nat.le_add_right _ _
    · rw [hlog, List.length_append, List.length_singleton]

/-- **What is printed is right at any time.**  The client has printed the first messages, each with
the prefix and the message itself as its answer; the server has printed the first messages as well,
and neither of the two is ahead of the other by more than one. -/
theorem echo_session_correct (msgs : List CStr) (hfits : ∀ msg ∈ msgs, msg.strlen ≤ 56)
    (s : Session) (h : Reachable (session msgs) s) :
    ∃ k j, k ≤ msgs.length ∧ j ≤ msgs.length ∧ k ≤ j + 1 ∧ j ≤ k + 1
      ∧ s.client.log = (msgs.take k).map (fun msg => (msg, echoPrefix.append msg))
      ∧ s.server.log = msgs.take j := by
  have hexchange : ∀ past : List CStr, past ⊆ msgs →
      past.map exchange = past.map (fun msg => (msg, echoPrefix.append msg)) := by
    intro past hpast
    refine List.map_congr_left fun msg hmsg => ?_
    rw [exchange, (formatEcho_of_fits (hfits msg (hpast hmsg))).1]
  cases phase_of_reachable hfits h with
  | @asking past msg rest hmsgs h =>
      obtain ⟨j, hlog, hle, hge⟩ := h.served.take hmsgs
      have hlen := congrArg List.length hmsgs
      rw [List.length_append] at hlen
      refine ⟨past.length, j, by omega, by omega, hge, by omega, ?_, hlog⟩
      rw [hmsgs, List.take_left, h.printed, ← hexchange past (by simp [hmsgs])]
  | @answering past msg rest hmsgs h =>
      have hmsgs' : msgs = (past ++ [msg]) ++ rest := by simp [hmsgs]
      obtain ⟨j, hlog, hle, hge⟩ := h.served.take hmsgs'
      have hlen := congrArg List.length hmsgs'
      rw [List.length_append] at hlen
      rw [List.length_append, List.length_singleton] at hle hge hlen
      refine ⟨past.length, j, by omega, by omega, by omega, hle, ?_, hlog⟩
      rw [hmsgs, List.take_left, h.printed, ← hexchange past (by simp [hmsgs])]
  | ended h =>
      obtain ⟨j, hlog, hle, hge⟩ := h.served.take (List.append_nil msgs).symm
      refine ⟨msgs.length, j, le_refl _, hle, hge, by omega, ?_, hlog⟩
      rw [List.take_length, h.printed, hexchange msgs (List.Subset.refl _)]

/-- `"a"`. -/
def letterA : CStr := ⟨[97], by decide +kernel⟩

/-- The bytes of its answer. -/
def answerA : List UInt8 := [91, 101, 99, 104, 111, 93, 32, 97]

lemma reachable_step {msgs : List CStr} {p : Party} {s s' : Session}
    (h : Reachable (session msgs) s) (hstep : SessionStep p s s') : Reachable (session msgs) s' :=
  h.step p hstep

/-- The client has printed its line, and the server has not. -/
theorem echo_session_correct_ahead :
    ∃ s, Reachable (session [letterA]) s ∧ s.client.log.length = 1 ∧ s.server.log = []
      ∧ ∃ k j, k ≤ 1 ∧ j ≤ 1 ∧ k ≤ j + 1 ∧ j ≤ k + 1
        ∧ s.client.log = ([letterA].take k).map (fun msg => (msg, echoPrefix.append msg))
        ∧ s.server.log = [letterA].take j := by
  have h₀ : Reachable (session [letterA])
      ⟨⟨.top, [letterA], none, []⟩, ⟨.top, 1, none, []⟩, [], []⟩ := .init rfl
  have h₁ := reachable_step h₀ (.clientSendLen rfl rfl)
  have h₂ := reachable_step h₁ (.clientSendBody rfl rfl)
  have h₃ := reachable_step h₂ (.serverTop rfl rfl)
  have h₄ := reachable_step h₃ (.serverRecv rfl (@RecvStep.len _ none 1 [97]))
  have h₅ := reachable_step h₄ (.serverRecv rfl
    (@RecvStep.body _ none 1 [] [97] [] (by decide) (by decide) (by decide)))
  have h₆ := reachable_step h₅ (.serverRecv rfl (@RecvStep.done _ none 1 [97] [] (by decide)))
  have h₇ := reachable_step h₆ (.serverFormat rfl rfl)
  have h₈ := reachable_step h₇ (.serverSendLen rfl)
  have h₉ := reachable_step h₈ (.serverSendBody rfl)
  have h₁₀ := reachable_step h₉ (.clientRecv rfl (@RecvStep.len _ none 8 answerA))
  have h₁₁ := reachable_step h₁₀ (.clientRecv rfl
    (@RecvStep.body _ none 8 [] answerA [] (by decide) (by decide) (by decide)))
  have h₁₂ := reachable_step h₁₁ (.clientRecv rfl (@RecvStep.done _ none 8 answerA [] (by decide)))
  have h₁₃ := reachable_step h₁₂ (.clientPrint rfl rfl rfl)
  exact ⟨_, h₁₃, rfl, rfl, echo_session_correct [letterA] (by simp [letterA, CStr.strlen]) _ h₁₃⟩

/-- **The session ends, and ends well.**  No run has more than a bounded number of steps, and a
session in which nobody can move is one in which both processes have ended, after every message
was answered, with nothing left in the streams. -/
theorem echo_session_ends (msgs : List CStr) (hfits : ∀ msg ∈ msgs, msg.strlen ≤ 56) :
    (∀ tr s, Trace (session msgs) tr s → tr.length ≤ 609 * msgs.length + 607)
    ∧ ∀ s, Reachable (session msgs) s → Stuck (session msgs) s →
        Finished s ∧ s.up = [] ∧ s.down = [] ∧ s.server.log = msgs
          ∧ s.client.log = msgs.map (fun msg => (msg, echoPrefix.append msg)) := by
  constructor
  · intro tr s h
    rcases h.length_le_measure (μ := Session.rank) fun _ _ _ _ hstep => hstep.rank_lt with
      ⟨s₀, rfl, hle⟩
    simp only [Session.rank, ClientPc.rank, ServerPc.rank] at hle
    omega
  · intro s h hstuck
    have hphase := phase_of_reachable hfits h
    have hfin : Finished s := by
      by_contra hfin
      rcases hphase.exists_step hfits hfin with ⟨p, s', hstep⟩
      exact hstuck p s' hstep
    have hover : Over msgs s := by
      cases hphase with
      | asking hmsgs h =>
          have hclient := h.client
          simp only [ClientAt, hfin.1] at hclient
      | answering hmsgs h =>
          have hclient := h.client
          simp only [ClientAt, hfin.1] at hclient
      | ended h => exact h
    have hserved := hover.served
    simp only [Served, hfin.2] at hserved
    refine ⟨hfin, hover.up, hover.down, hserved.1, ?_⟩
    rw [hover.printed]
    refine List.map_congr_left fun msg hmsg => ?_
    rw [exchange, (formatEcho_of_fits (hfits msg hmsg)).1]

/-- The three messages of the source. -/
theorem echo_session_ends_demo :
    (∀ tr s, Trace (session clientMsgs) tr s → tr.length ≤ 609 * clientMsgs.length + 607)
    ∧ ∀ s, Reachable (session clientMsgs) s → Stuck (session clientMsgs) s →
        Finished s ∧ s.up = [] ∧ s.down = [] ∧ s.server.log = clientMsgs
          ∧ s.client.log = clientMsgs.map (fun msg => (msg, echoPrefix.append msg)) :=
  echo_session_ends clientMsgs (by simp [clientMsgs, CStr.strlen])

end CExercises.Framing
