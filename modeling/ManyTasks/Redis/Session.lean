import ManyTasks.Redis.Client
import ManyTasks.Redis.Counters

/-!
# A client and its server

One client makes calls, one after the other, on a connection that a handler of the server serves.
The connection is two streams of bytes, and client and handler move in any order: `Session` is the
state of the two of them, `Session.Step` a step of either.

What the calls should do is said without any of this: `Link.outcome` makes the call on the storage
itself, and once such a call has thrown every later one finds the connection lost.
`session_correct` says that the session does the same, whatever the order of steps: whenever the
client is between two calls its results and the storage are those of the direct calls and nothing
is left on either stream, and every session comes to the end of its calls.

`InCall` says where client and handler can be during a call: the request is on its way, the reply
is on its way, or the connection is lost.  Every step within a call makes its measure smaller.
-/

set_option autoImplicit false

namespace ManyTasks
namespace Redis

open Lib (Prog)
open Lib.Prog

/-! ## The session -/

/-- A client, the handler of its connection and the two streams between them. -/
structure Session where
  /-- The calls the client has not begun. -/
  calls : List Command
  /-- The call it is in. -/
  current : Option (Io Unit Reply)
  /-- What its calls have returned or thrown. -/
  results : List (Except Exc Reply)
  /-- What the handler still has to do; `none` once it has left its loop and closed the
  connection. -/
  handler : Option (Io SimpleStorage Unit)
  toServer : Bytes
  toClient : Bytes
  storage : SimpleStorage

/-- The connection has just been accepted. -/
def Session.start (st : SimpleStorage) (calls : List Command) : Session :=
  ⟨calls, none, [], some serveOnce, [], [], st⟩

/-- One step of the client or of the handler. -/
inductive Session.Step : Session → Session → Prop where
  /-- The next call begins. -/
  | call {s : Session} {command : Command} {calls : List Command} (hidle : s.current = none)
      (hcalls : s.calls = command :: calls) :
      Session.Step s { s with calls := calls, current := some (call command) }
  /-- The client moves. -/
  | client {s : Session} {p p' : Io Unit Reply} {inp out : Bytes} (hp : s.current = some p)
      (hstep : Prog.Step (s.handler = none) p () s.toClient p' () inp out) :
      Session.Step s
        { s with current := some p', toClient := inp, toServer := s.toServer ++ out }
  /-- The call returns or throws. -/
  | finish {s : Session} {res : Except Exc Reply} (hp : s.current = some (lift res)) :
      Session.Step s { s with current := none, results := s.results ++ [res] }
  /-- The handler moves. -/
  | server {s : Session} {p p' : Io SimpleStorage Unit} {st : SimpleStorage} {inp out : Bytes}
      (hp : s.handler = some p) (hstep : Prog.Step False p s.storage s.toServer p' st inp out) :
      Session.Step s
        { s with
          handler := settle p'
          storage := st
          toServer := inp
          toClient := s.toClient ++ out }

/-! ## Direct calls -/

/-- A storage, and whether the connection to it still stands. -/
structure Link where
  storage : SimpleStorage
  connected : Bool

/-- The direct call of the storage.  If it throws, the storage stays as it is and the connection is
lost, for this call and all later ones. -/
def Link.outcome (l : Link) (command : Command) : Except Exc Reply × Link :=
  if l.connected then
    match (command.exec l.storage).1 with
    | .ok r => (.ok r, ⟨(command.exec l.storage).2, true⟩)
    | .error _ => (.error lostConnection, ⟨l.storage, false⟩)
  else (.error lostConnection, l)

/-- The direct calls, one after the other. -/
def Link.outcomes (l : Link) : List Command → List (Except Exc Reply) × Link
  | [] => ([], l)
  | command :: commands =>
    ((l.outcome command).1 :: ((l.outcome command).2.outcomes commands).1,
      ((l.outcome command).2.outcomes commands).2)

theorem Link.outcomes_append (l : Link) (commands : List Command) (command : Command) :
    l.outcomes (commands ++ [command]) =
      ((l.outcomes commands).1 ++ [((l.outcomes commands).2.outcome command).1],
        ((l.outcomes commands).2.outcome command).2) := by
  induction commands generalizing l with
  | nil => rfl
  | cons head commands ih =>
    rw [List.cons_append, outcomes, ih]
    rfl

theorem Link.outcome_of_ok {l : Link} {command : Command} {r : Reply} (hl : l.connected = true)
    (h : (command.exec l.storage).1 = .ok r) :
    l.outcome command = (.ok r, ⟨(command.exec l.storage).2, true⟩) := by
  rw [outcome, if_pos hl, h]

theorem Link.outcome_of_error {l : Link} {command : Command} {e : StorageError}
    (hl : l.connected = true) (h : (command.exec l.storage).1 = .error e) :
    l.outcome command = (.error lostConnection, ⟨l.storage, false⟩) := by
  rw [outcome, if_pos hl, h]

theorem Link.outcome_of_not_connected {l : Link} (command : Command) (hl : l.connected = false) :
    l.outcome command = (.error lostConnection, ⟨l.storage, false⟩) := by
  rcases l with ⟨storage, connected⟩
  cases hl
  rfl

/-- A command that fails leaves the storage as it is. -/
theorem Command.exec_of_error {command : Command} {st : SimpleStorage} {e : StorageError}
    (h : (command.exec st).1 = .error e) : (command.exec st).2 = st := by
  have hchange {key : Bytes} {delta : Int64}
      (h : (st.change key delta).1.map Reply.int = .error e) : (st.change key delta).2 = st := by
    rcases hres : (st.change key delta).1 with e' | n
    · exact SimpleStorage.change_of_error hres
    · rw [hres] at h
      cases h
  rcases command with key | ⟨key, value⟩ | key | key
  · cases h
  · cases h
  · exact hchange h
  · exact hchange h

/-- The strings of the storage stay short. -/
theorem Link.fits_outcome {l : Link} (h : l.storage.Fits) {command : Command}
    (hc : command.Fits) : (l.outcome command).2.storage.Fits := by
  rw [outcome]
  split
  · split
    · exact h.exec hc
    · exact h
  · exact h

theorem Link.fits_outcomes {l : Link} (h : l.storage.Fits) {commands : List Command}
    (hc : ∀ command ∈ commands, command.Fits) : (l.outcomes commands).2.storage.Fits := by
  induction commands generalizing l with
  | nil => exact h
  | cons command commands ih =>
    exact ih (fits_outcome h (hc command (by simp))) fun c hmem ↦ hc c (by simp [hmem])

/-! ## Where client and handler are -/

/-- Between two calls. -/
structure Idle (l : Link) (s : Session) : Prop where
  current : s.current = none
  toClient : s.toClient = []
  storage : s.storage = l.storage
  served : l.connected = true → s.handler = some serveOnce ∧ s.toServer = []
  lost : l.connected = false → s.handler = none

/-- During a call, with a bound on the number of steps it still takes. -/
inductive InCall (command : Command) (l : Link) : ℕ → Session → Prop where
  /-- The client has `w` of the request to write, and the handler to read `w` after what is on the
  stream. -/
  | sending {s : Session} (w : Bytes) (p : Io SimpleStorage Command)
      (hcurrent : s.current = some (do writeAll w; receive command))
      (hhandler : s.handler = some (p >>= processCommand)) (hreader : Reader p)
      (hrun : ∀ more, p.run s.storage (s.toServer ++ (w ++ more)) =
        ⟨.ok command, l.storage, more, []⟩)
      (hclient : s.toClient = []) (hl : l.connected = true) :
      InCall command l (s.toServer.length + 2 * w.length +
        2 * (replyBytes (command.exec l.storage).1).length + 3) s
  /-- The handler has `out` of the reply to write, and the client to read it after what is on the
  stream. -/
  | answering {s : Session} (out : Bytes) (q : Io Unit Reply) (r : Reply)
      (hexec : (command.exec l.storage).1 = .ok r) (hcurrent : s.current = some q)
      (hreader : Reader q) (hhandler : s.handler = settle (writeAll out))
      (hrun : ∀ more, q.run () (s.toClient ++ (out ++ more)) = ⟨.ok r, (), more, []⟩)
      (hserver : s.toServer = []) (hstorage : s.storage = (command.exec l.storage).2)
      (hl : l.connected = true) :
      InCall command l (s.toClient.length + 2 * out.length + 1) s
  /-- The handler is gone, and the client does not know. -/
  | lost {s : Session} (w : Bytes)
      (hcurrent : s.current = some (do writeAll w; receive command))
      (hhandler : s.handler = none) (hclient : s.toClient = []) (hstorage : s.storage = l.storage)
      (hfails : l.outcome command = (.error lostConnection, ⟨l.storage, false⟩)) :
      InCall command l (w.length + 1) s
  /-- The client has seen the end of the stream. -/
  | raised {s : Session} (hcurrent : s.current = some (raise lostConnection))
      (hhandler : s.handler = none) (hclient : s.toClient = []) (hstorage : s.storage = l.storage)
      (hfails : l.outcome command = (.error lostConnection, ⟨l.storage, false⟩)) :
      InCall command l 0 s

/-- A call begins. -/
theorem inCall_begin {l : Link} {s : Session} {command : Command} (h : Idle l s)
    (hfits : command.Fits) (calls : List Command) :
    ∃ n, InCall command l n { s with calls := calls, current := some (call command) } := by
  rcases hl : l.connected with _ | _
  · refine ⟨_, .lost (request command) ?_ (h.lost hl) h.toClient h.storage ?_⟩
    · exact congrArg some (call_eq command)
    · exact Link.outcome_of_not_connected command hl
  · obtain ⟨hhandler, hserver⟩ := h.served hl
    refine ⟨_, .sending (request command) readCommand ?_ hhandler reader_readCommand ?_ h.toClient
      hl⟩
    · exact congrArg some (call_eq command)
    · intro more
      change readCommand.run s.storage (s.toServer ++ _) = _
      rw [hserver, h.storage]
      exact reads_readCommand hfits more l.storage

/-! ## Steps within a call -/

/-- The client writes. -/
theorem step_writing {closed : Prop} {b : UInt8} {w inp inp' out : Bytes} {q p' : Io Unit Reply}
    (h : Prog.Step closed (do writeAll (b :: w); q) () inp p' () inp' out) :
    p' = (do writeAll w; q) ∧ inp' = inp ∧ out = [b] := by
  cases h
  exact ⟨rfl, rfl, rfl⟩

/-- The client waits for a reply. -/
theorem step_receive {closed : Prop} {command : Command} {inp out : Bytes} {p' : Io Unit Reply}
    (h : Prog.Step closed (receive command) () [] p' () inp out) :
    closed ∧ p' = raise lostConnection ∧ inp = [] ∧ out = [] := by
  obtain ⟨next, hnext, hnone⟩ := receive_eq (σ := Unit) command
  rw [hnext] at h
  cases h with
  | eof _ _ hclosed => exact ⟨hclosed, hnone, rfl, rfl⟩

/-- A client that has not read its reply is not done. -/
theorem writing_ne_lift (w : Bytes) (command : Command) (res : Except Exc Reply) :
    (do writeAll w; receive command : Io Unit Reply) ≠ lift res := by
  rcases w with _ | ⟨b, w⟩
  · obtain ⟨next, hnext, -⟩ := receive_eq (σ := Unit) command
    change receive command ≠ lift res
    rw [hnext]
    rcases res with e | r
    · exact fun h ↦ nomatch h
    · exact fun h ↦ nomatch h
  · rcases res with e | r
    · exact fun h ↦ nomatch h
    · exact fun h ↦ nomatch h

/-- What a step within a call comes to: the call goes on with fewer steps to do, or it is over with
the outcome of the direct call. -/
def CallStep (command : Command) (l : Link) (n : ℕ) (s s' : Session) : Prop :=
  s'.calls = s.calls ∧
    ((s'.results = s.results ∧ ∃ n' < n, InCall command l n' s') ∨
      (s'.results = s.results ++ [(l.outcome command).1] ∧ Idle (l.outcome command).2 s'))

/-- The handler carries out the command. -/
theorem callStep_exec {command : Command} {l : Link} {n : ℕ} {s : Session}
    (hcurrent : s.current = some (receive command)) (hclient : s.toClient = [])
    (hserver : s.toServer = []) (hl : l.connected = true) (hfits : l.storage.Fits)
    (hn : 2 * (replyBytes (command.exec l.storage).1).length + 2 ≤ n) :
    CallStep command l n s
      { s with
        handler := settle (sendReply (command.exec l.storage).1)
        storage := (command.exec l.storage).2
        toServer := s.toServer
        toClient := s.toClient ++ [] } := by
  refine ⟨rfl, .inl ⟨rfl, ?_⟩⟩
  rcases hexec : (command.exec l.storage).1 with e | r
  · refine ⟨_, ?_, .lost [] hcurrent rfl ?_ (Command.exec_of_error hexec)
      (Link.outcome_of_error hl hexec)⟩
    · simp only [List.length_nil]
      omega
    · rw [hclient]
      rfl
  · refine ⟨_, ?_, .answering r.bytes (receive command) r hexec hcurrent (reader_receive command)
      rfl ?_ hserver rfl hl⟩
    · simp only [hclient, hexec, replyBytes, List.append_nil, List.length_nil] at hn ⊢
      omega
    · intro more
      simp only [hclient, List.append_nil, List.nil_append]
      exact reads_receive hfits hexec more ()

/-- The request is on its way, and the handler moves. -/
theorem callStep_reading {command : Command} {l : Link} {s : Session} {w : Bytes}
    {p : Io SimpleStorage Command} (hcurrent : s.current = some (do writeAll w; receive command))
    (hreader : Reader p)
    (hrun : ∀ more, p.run s.storage (s.toServer ++ (w ++ more)) =
      ⟨.ok command, l.storage, more, []⟩)
    (hclient : s.toClient = []) (hl : l.connected = true) (hfits : l.storage.Fits)
    {p' : Io SimpleStorage Unit} {st : SimpleStorage} {inp out : Bytes}
    (hstep : Prog.Step False (p >>= processCommand) s.storage s.toServer p' st inp out) :
    CallStep command l (s.toServer.length + 2 * w.length +
        2 * (replyBytes (command.exec l.storage).1).length + 3) s
      { s with
        handler := settle p'
        storage := st
        toServer := inp
        toClient := s.toClient ++ out } := by
  rcases step_bind hstep with ⟨p₁, hstep₁, rfl⟩ | ⟨command', rfl, hstep₁⟩
  · -- one byte of the request is read
    obtain ⟨rfl, rfl, hreader₁, -⟩ := hreader.step hstep₁
    have hrun₁ (more : Bytes) : p₁.run s.storage (inp ++ (w ++ more)) =
        ⟨.ok command, l.storage, more, []⟩ := by
      rw [← hrun more, run_of_step hstep₁ fun h ↦ h.elim]
      rfl
    have hraise (e : Exc) : p₁ ≠ raise e := by
      rintro rfl
      exact nomatch congrArg Outcome.result (hrun₁ [])
    have hlen := hreader.length_lt_of_step hstep₁ id
    refine ⟨rfl, .inl ⟨rfl, _, ?_, .sending w p₁ hcurrent (settle_bind hraise) hreader₁ hrun₁ ?_
      hl⟩⟩
    · dsimp only
      omega
    · rw [hclient]
      rfl
  · -- the request has been read to its end
    obtain ⟨rfl, rfl, rfl, rfl⟩ := step_processCommand hstep₁
    have hend := hrun []
    rw [List.append_nil] at hend
    obtain ⟨hserver, rfl⟩ := List.append_eq_nil_iff.1 (congrArg Outcome.rest hend)
    have hcommand := Except.ok.inj (congrArg Outcome.result hend)
    have hstorage := congrArg Outcome.state hend
    simp only [run] at hcommand hstorage
    rw [hcommand, hstorage]
    refine callStep_exec hcurrent hclient hserver hl hfits ?_
    omega

/-- The reply is on its way, and the handler moves. -/
theorem callStep_writing {command : Command} {l : Link} {s : Session} {out : Bytes}
    {q : Io Unit Reply} {r : Reply} (hexec : (command.exec l.storage).1 = .ok r)
    (hcurrent : s.current = some q) (hreader : Reader q)
    (hhandler : s.handler = settle (writeAll out))
    (hrun : ∀ more, q.run () (s.toClient ++ (out ++ more)) = ⟨.ok r, (), more, []⟩)
    (hserver : s.toServer = []) (hstorage : s.storage = (command.exec l.storage).2)
    (hl : l.connected = true) {p p' : Io SimpleStorage Unit} {st : SimpleStorage} {inp out' : Bytes}
    (hp : s.handler = some p)
    (hstep : Prog.Step False p s.storage s.toServer p' st inp out') :
    CallStep command l (s.toClient.length + 2 * out.length + 1) s
      { s with
        handler := settle p'
        storage := st
        toServer := inp
        toClient := s.toClient ++ out' } := by
  rw [hp] at hhandler
  rcases out with _ | ⟨b, out⟩
  · -- the handler waits for the next command
    obtain rfl := Option.some.inj hhandler
    rw [hserver] at hstep
    cases hstep with | eof _ _ h => exact h.elim
  · obtain rfl := Option.some.inj hhandler
    cases hstep
    refine ⟨rfl, .inl ⟨rfl, _, ?_, .answering out q r hexec hcurrent hreader rfl ?_ hserver
      hstorage hl⟩⟩
    · simp only [List.length_append, List.length_cons, List.length_nil]
      omega
    · intro more
      rw [← hrun more]
      simp

/-- The reply is on its way, and the client moves. -/
theorem callStep_receiving {command : Command} {l : Link} {s : Session} {out : Bytes}
    {q : Io Unit Reply} {r : Reply} (hexec : (command.exec l.storage).1 = .ok r)
    (hreader : Reader q) (hhandler : s.handler = settle (writeAll out))
    (hrun : ∀ more, q.run () (s.toClient ++ (out ++ more)) = ⟨.ok r, (), more, []⟩)
    (hserver : s.toServer = []) (hstorage : s.storage = (command.exec l.storage).2)
    (hl : l.connected = true) {q' : Io Unit Reply} {inp out' : Bytes}
    (hstep : Prog.Step (s.handler = none) q () s.toClient q' () inp out') :
    CallStep command l (s.toClient.length + 2 * out.length + 1) s
      { s with current := some q', toClient := inp, toServer := s.toServer ++ out' } := by
  have hopen : s.handler ≠ none := by
    rw [hhandler]
    rcases out with _ | ⟨b, out⟩
    · exact Option.some_ne_none _
    · exact Option.some_ne_none _
  have hlen := hreader.length_lt_of_step hstep hopen
  obtain ⟨-, rfl, hreader', -⟩ := hreader.step hstep
  refine ⟨rfl, .inl ⟨rfl, _, ?_, .answering out q' r hexec rfl hreader' hhandler ?_ ?_ hstorage
    hl⟩⟩
  · dsimp only
    omega
  · intro more
    rw [← hrun more, run_of_step hstep fun h ↦ absurd h hopen]
    rfl
  · rw [hserver]
    rfl

/-- The reply has been read to its end. -/
theorem callStep_finish {command : Command} {l : Link} {s : Session} {out : Bytes}
    {q : Io Unit Reply} {r : Reply} (hexec : (command.exec l.storage).1 = .ok r)
    (hhandler : s.handler = settle (writeAll out))
    (hrun : ∀ more, q.run () (s.toClient ++ (out ++ more)) = ⟨.ok r, (), more, []⟩)
    (hserver : s.toServer = []) (hstorage : s.storage = (command.exec l.storage).2)
    (hl : l.connected = true) {res : Except Exc Reply} (hq : q = lift res) (n : ℕ) :
    CallStep command l n s { s with current := none, results := s.results ++ [res] } := by
  have hend := hrun []
  rw [List.append_nil, hq] at hend
  rcases res with e | r'
  · exact nomatch congrArg Outcome.result hend
  obtain ⟨hclient, rfl⟩ := List.append_eq_nil_iff.1 (congrArg Outcome.rest hend)
  obtain rfl := Except.ok.inj (congrArg Outcome.result hend)
  refine ⟨rfl, .inr ⟨?_, ?_⟩⟩
  · rw [Link.outcome_of_ok hl hexec]
  · rw [Link.outcome_of_ok hl hexec]
    exact ⟨rfl, hclient, hstorage, fun _ ↦ ⟨hhandler, hserver⟩, fun h ↦ nomatch h⟩

/-- **One step of a call.** -/
theorem InCall.step {command : Command} {l : Link} {n : ℕ} {s s' : Session}
    (h : InCall command l n s) (hfits : l.storage.Fits) (hstep : Session.Step s s') :
    CallStep command l n s s' := by
  cases h with
  | sending w p hcurrent hhandler hreader hrun hclient hl =>
    cases hstep with
    | call hidle => rw [hcurrent] at hidle; cases hidle
    | client hp hstep =>
      rw [hcurrent] at hp
      obtain rfl := Option.some.inj hp
      rcases w with _ | ⟨b, w⟩
      · rw [hclient] at hstep
        obtain ⟨hnone, -⟩ := step_receive hstep
        rw [hhandler] at hnone
        cases hnone
      · obtain ⟨rfl, rfl, rfl⟩ := step_writing hstep
        refine ⟨rfl, .inl ⟨rfl, _, ?_, .sending w p rfl hhandler hreader ?_ hclient hl⟩⟩
        · simp only [List.length_append, List.length_cons, List.length_nil]
          omega
        · intro more
          rw [← hrun more]
          simp
    | finish hp =>
      rw [hcurrent] at hp
      exact absurd (Option.some.inj hp) (writing_ne_lift _ _ _)
    | server hp hstep =>
      rw [hhandler] at hp
      obtain rfl := Option.some.inj hp
      exact callStep_reading hcurrent hreader hrun hclient hl hfits hstep
  | answering out q r hexec hcurrent hreader hhandler hrun hserver hstorage hl =>
    cases hstep with
    | call hidle => rw [hcurrent] at hidle; cases hidle
    | client hp hstep =>
      rw [hcurrent] at hp
      obtain rfl := Option.some.inj hp
      exact callStep_receiving hexec hreader hhandler hrun hserver hstorage hl hstep
    | finish hp =>
      rw [hcurrent] at hp
      exact callStep_finish hexec hhandler hrun hserver hstorage hl (Option.some.inj hp) _
    | server hp hstep =>
      exact callStep_writing hexec hcurrent hreader hhandler hrun hserver hstorage hl hp hstep
  | lost w hcurrent hhandler hclient hstorage hfails =>
    cases hstep with
    | call hidle => rw [hcurrent] at hidle; cases hidle
    | client hp hstep =>
      rw [hcurrent] at hp
      obtain rfl := Option.some.inj hp
      rcases w with _ | ⟨b, w⟩
      · rw [hclient] at hstep
        obtain ⟨-, rfl, rfl, -⟩ := step_receive hstep
        exact ⟨rfl, .inl ⟨rfl, 0, Nat.succ_pos _, .raised rfl hhandler rfl hstorage hfails⟩⟩
      · obtain ⟨rfl, rfl, rfl⟩ := step_writing hstep
        exact ⟨rfl, .inl ⟨rfl, _, Nat.lt_succ_self _, .lost w rfl hhandler hclient hstorage hfails⟩⟩
    | finish hp =>
      rw [hcurrent] at hp
      exact absurd (Option.some.inj hp) (writing_ne_lift _ _ _)
    | server hp => rw [hhandler] at hp; cases hp
  | raised hcurrent hhandler hclient hstorage hfails =>
    cases hstep with
    | call hidle => rw [hcurrent] at hidle; cases hidle
    | client hp hstep =>
      rw [hcurrent] at hp
      obtain rfl := Option.some.inj hp
      cases hstep
    | finish hp =>
      rename_i res
      rw [hcurrent] at hp
      rcases res with e | r
      · cases hp
        refine ⟨rfl, .inr ⟨?_, ?_⟩⟩
        · rw [hfails]
        · rw [hfails]
          exact ⟨rfl, hclient, hstorage, (fun h ↦ nomatch h), fun _ ↦ hhandler⟩
      · cases hp
    | server hp => rw [hhandler] at hp; cases hp

/-- No call gets stuck. -/
theorem InCall.exists_step {command : Command} {l : Link} {n : ℕ} {s : Session}
    (h : InCall command l n s) : ∃ s', Session.Step s s' := by
  cases h with
  | sending w p hcurrent hhandler hreader hrun hclient hl =>
    rcases w with _ | ⟨b, w⟩
    · rcases Prog.exists_step False hrun with ⟨rfl, -⟩ | ⟨p', st, inp, out, hstep⟩
      · exact ⟨_, .server hhandler (processCommand_step False command _ _)⟩
      · exact ⟨_, .server hhandler (hstep.bind processCommand)⟩
    · exact ⟨_, .client hcurrent (.write _ _ _ _)⟩
  | answering out q r hexec hcurrent hreader hhandler hrun =>
    rcases out with _ | ⟨b, out⟩
    · rcases Prog.exists_step (s.handler = none) hrun with ⟨rfl, -⟩ | ⟨q', u, inp, out, hstep⟩
      · have hdone : s.current = some (lift (.ok r)) := hcurrent
        exact ⟨_, .finish hdone⟩
      · exact ⟨_, .client hcurrent hstep⟩
    · exact ⟨_, .server hhandler (.write _ _ _ _)⟩
  | lost w hcurrent hhandler hclient =>
    rcases w with _ | ⟨b, w⟩
    · obtain ⟨next, hnext, -⟩ := receive_eq (σ := Unit) command
      have hcurrent' : s.current = some (read next) := hcurrent.trans (congrArg some hnext)
      have heof : Prog.Step (s.handler = none) (read next) () s.toClient (next none) () [] [] := by
        rw [hclient]
        exact .eof _ _ hhandler
      exact ⟨_, .client hcurrent' heof⟩
    · exact ⟨_, .client hcurrent (.write _ _ _ _)⟩
  | raised hcurrent =>
    have hdone : s.current = some (lift (.error lostConnection)) := hcurrent
    exact ⟨_, .finish hdone⟩

/-! ## Whole sessions -/

/-- The session is in its `calls`: those in `done` are over, with the results of the direct
calls. -/
def Session.Inv (st : SimpleStorage) (calls : List Command) (s : Session) : Prop :=
  ∃ done, s.results = ((⟨st, true⟩ : Link).outcomes done).1 ∧
    (Idle ((⟨st, true⟩ : Link).outcomes done).2 s ∧ calls = done ++ s.calls ∨
      ∃ command n, InCall command ((⟨st, true⟩ : Link).outcomes done).2 n s ∧
        calls = done ++ command :: s.calls)

theorem Session.inv_start (st : SimpleStorage) (calls : List Command) :
    Session.Inv st calls (Session.start st calls) :=
  ⟨[], rfl, .inl ⟨⟨rfl, rfl, rfl, fun _ ↦ ⟨rfl, rfl⟩, (fun h ↦ nomatch h)⟩, rfl⟩⟩

/-- Between two calls only the next call can begin. -/
theorem Idle.step {l : Link} {s s' : Session} (h : Idle l s) (hstep : Session.Step s s') :
    ∃ command calls, s.calls = command :: calls ∧
      s' = { s with calls := calls, current := some (call command) } := by
  cases hstep with
  | call _ hcalls => exact ⟨_, _, hcalls, rfl⟩
  | client hp => rw [h.current] at hp; cases hp
  | finish hp => rw [h.current] at hp; cases hp
  | server hp hstep =>
    rcases hl : l.connected with _ | _
    · rw [h.lost hl] at hp
      cases hp
    · obtain ⟨hhandler, hserver⟩ := h.served hl
      rw [hhandler] at hp
      obtain rfl := Option.some.inj hp
      rw [hserver] at hstep
      cases hstep with | eof _ _ hfalse => exact hfalse.elim

theorem Session.inv_of_step {st : SimpleStorage} {calls : List Command} (hst : st.Fits)
    (hcalls : ∀ command ∈ calls, command.Fits) {s s' : Session} (h : Session.Inv st calls s)
    (hstep : Session.Step s s') : Session.Inv st calls s' := by
  obtain ⟨done, hresults, ⟨hidle, rfl⟩ | ⟨command, n, hcall, rfl⟩⟩ := h
  · obtain ⟨command, calls', hnext, rfl⟩ := hidle.step hstep
    have hfits : command.Fits := hcalls command (by simp [hnext])
    obtain ⟨n, hcall⟩ := inCall_begin hidle hfits calls'
    exact ⟨done, hresults, .inr ⟨command, n, hcall, by rw [hnext]⟩⟩
  · have hdone : ∀ c ∈ done, c.Fits := fun c hc ↦ hcalls c (by simp [hc])
    have hfits : ((⟨st, true⟩ : Link).outcomes done).2.storage.Fits := Link.fits_outcomes hst hdone
    obtain ⟨hrest, ⟨hres, n', -, hcall'⟩ | ⟨hres, hidle⟩⟩ := hcall.step hfits hstep
    · exact ⟨done, hres.trans hresults, .inr ⟨command, n', hcall', by rw [hrest]⟩⟩
    · refine ⟨done ++ [command], ?_, .inl ⟨?_, ?_⟩⟩
      · rw [Link.outcomes_append, hres, hresults]
      · rw [Link.outcomes_append]
        exact hidle
      · rw [hrest, List.append_assoc]
        rfl

/-- The client has made all its calls. -/
def Session.Finished (s : Session) : Prop := s.calls = [] ∧ s.current = none

/-- Every call ends, by induction on the bound on its steps. -/
theorem InCall.ends {command : Command} {l : Link} {n : ℕ} {s : Session}
    (h : InCall command l n s) (hfits : l.storage.Fits) :
    Lib.Inevitable Session.Step
      (fun s' ↦ s'.calls = s.calls ∧ Idle (l.outcome command).2 s') s := by
  induction n using Nat.strong_induction_on generalizing s with
  | _ n ih =>
    refine .later h.exists_step fun s' hstep ↦ ?_
    obtain ⟨hcalls, ⟨-, n', hlt, h'⟩ | ⟨-, hidle⟩⟩ := h.step hfits hstep
    · rw [← hcalls]
      exact ih n' hlt h'
    · exact .now ⟨hcalls, hidle⟩

/-- Every session ends, by induction on the calls. -/
theorem Idle.ends {l : Link} {s : Session} {calls : List Command} (h : Idle l s)
    (hs : s.calls = calls) (hfits : l.storage.Fits) (hcalls : ∀ command ∈ calls, command.Fits) :
    Lib.Inevitable Session.Step Session.Finished s := by
  induction calls generalizing l s with
  | nil => exact .now ⟨hs, h.current⟩
  | cons command calls ih =>
    refine .later ⟨_, .call h.current hs⟩ fun s' hstep ↦ ?_
    obtain ⟨command', calls', hs', rfl⟩ := h.step hstep
    obtain ⟨rfl, rfl⟩ := List.cons.inj (hs.symm.trans hs')
    have hcommand := hcalls command (by simp)
    obtain ⟨n, hcall⟩ := inCall_begin h hcommand calls
    refine (hcall.ends hfits).trans fun s'' hs'' ↦ ?_
    exact ih hs''.2 hs''.1 (Link.fits_outcome hfits hcommand) fun c hc ↦ hcalls c (by simp [hc])

/-- **A client over the server is the storage itself.**  Let the strings of the calls and of the
storage fit in a reader's buffer.  Whatever the order of steps, whenever the client is between two
calls, the calls made have returned or thrown what the direct calls do, the storage is the one they
leave, and as long as none has thrown the handler waits for the next command and both streams are
empty.  And every session comes to the end of its calls. -/
theorem session_correct (st : SimpleStorage) (calls : List Command) (hst : st.Fits)
    (hcalls : ∀ command ∈ calls, command.Fits) :
    (∀ s, Relation.ReflTransGen Session.Step (Session.start st calls) s → s.current = none →
      ∃ done, calls = done ++ s.calls ∧
        s.results = ((⟨st, true⟩ : Link).outcomes done).1 ∧
        s.storage = ((⟨st, true⟩ : Link).outcomes done).2.storage ∧
        (((⟨st, true⟩ : Link).outcomes done).2.connected = true →
          s.toServer = [] ∧ s.toClient = [])) ∧
    Lib.Inevitable Session.Step Session.Finished (Session.start st calls) := by
  constructor
  · intro s hrun hcurrent
    obtain ⟨done, hresults, ⟨hidle, hdone⟩ | ⟨command, n, hcall, -⟩⟩ := Lib.invariant_of_step hrun
      (Session.inv_start st calls) fun _ _ ↦ Session.inv_of_step hst hcalls
    · exact ⟨done, hdone, hresults, hidle.storage, fun hl ↦ ⟨(hidle.served hl).2, hidle.toClient⟩⟩
    · exfalso
      cases hcall with
      | sending w p h => rw [h] at hcurrent; cases hcurrent
      | answering out q r _ h => rw [h] at hcurrent; cases hcurrent
      | lost w h => rw [h] at hcurrent; cases hcurrent
      | raised h => rw [h] at hcurrent; cases hcurrent
  · have hidle : Idle ⟨st, true⟩ (Session.start st calls) :=
      ⟨rfl, rfl, rfl, fun _ ↦ ⟨rfl, rfl⟩, (fun h ↦ nomatch h)⟩
    exact hidle.ends rfl hst hcalls

/-- A session on an empty storage: a value with a line break, and an `INCR` of it that throws. -/
theorem session_correct_incr_string :
    let calls := [Command.set [107] [13, 10], .get [107], .incr [107], .get [107]]
    SimpleStorage.empty.Fits ∧ (∀ command ∈ calls, command.Fits) ∧
    ((⟨SimpleStorage.empty, true⟩ : Link).outcomes calls).1 =
      [.ok .done, .ok (.value (some [13, 10])), .error lostConnection, .error lostConnection] ∧
    Lib.Inevitable Session.Step Session.Finished (Session.start SimpleStorage.empty calls) := by
  intro calls
  have hst : SimpleStorage.empty.Fits := fun key v h ↦ nomatch h
  have hcalls : ∀ command ∈ calls, command.Fits := by
    simp [calls, Command.Fits, FitsBuffer, maxSize]
  exact ⟨hst, hcalls, by decide +kernel, (session_correct _ calls hst hcalls).2⟩

end Redis
end ManyTasks
