import ManyTasks.Lib.Transition
import ManyTasks.Redis.Server
import Mathlib.Data.List.Infix
import Mathlib.Logic.Function.Basic

/-!
# Many connections

The server runs one handler for each connection, all of them on one storage.  `World` is the state
of the server with all its connections, and `World.Step` everything that can happen next: a byte
arrives, a peer closes its end, or one handler takes one step: one byte read, one byte written or
one access to the storage.  A handler that has nothing to read waits, and the others go on.

`serves_of_reachable` says what the clients get to see of this.  In every state that can be reached
there is a log, an order of commands of all connections, such that the storage is what executing
the log one command after the other leaves, and each connection has been served as the log says
(`Serves`): its commands in the log are the first ones on its stream, in their order, none after a
failing one, and the bytes sent are those of their results.  Once the handler has nothing more to
do, the log has all the valid commands of the stream.

The invariant behind it is `ConnInv`: a handler is in one of four places, and in each the rest of
its program says which part of the stream is still to be parsed.
-/

set_option autoImplicit false

namespace ManyTasks
namespace Redis

open Lib (Prog)
open Lib.Prog

/-! ## The machine -/

/-- A connection as the server has it. -/
structure Conn where
  /-- Everything that has arrived. -/
  received : Bytes
  /-- What of it the handler has not read. -/
  inbox : Bytes
  /-- The peer has closed its end, and nothing more will arrive. -/
  closed : Bool
  /-- What the handler still has to do; `none` once it has left its loop. -/
  handler : Option (Io SimpleStorage Unit)
  /-- Everything written to the peer. -/
  sent : Bytes

/-- A connection that has just been accepted. -/
def Conn.fresh : Conn := ⟨[], [], false, some serveOnce, []⟩

/-- The connection after its handler has come to `p`, leaving `inp` unread and writing `out`. -/
def Conn.resume (c : Conn) (p : Io SimpleStorage Unit) (inp out : Bytes) : Conn :=
  { c with inbox := inp, handler := settle p, sent := c.sent ++ out }

/-- The server and its connections. -/
structure World (ι : Type) where
  storage : SimpleStorage
  conns : ι → Conn

variable {ι : Type} [DecidableEq ι]

/-- Every connection is new. -/
def World.init (st : SimpleStorage) : World ι := ⟨st, fun _ ↦ Conn.fresh⟩

/-- One step of the handler of `i`. -/
inductive World.Handles (i : ι) : World ι → World ι → Prop where
  | mk (w : World ι) {p p' : Io SimpleStorage Unit} {st : SimpleStorage} {inp out : Bytes}
      (hp : (w.conns i).handler = some p)
      (hstep : Prog.Step ((w.conns i).closed = true) p w.storage (w.conns i).inbox p' st inp out) :
      World.Handles i w ⟨st, Function.update w.conns i ((w.conns i).resume p' inp out)⟩

/-- One step of the server or of a peer. -/
inductive World.Step : World ι → World ι → Prop where
  | arrive (w : World ι) (i : ι) (b : UInt8) (hopen : (w.conns i).closed = false) :
      World.Step w { w with conns := Function.update w.conns i { w.conns i with
        received := (w.conns i).received ++ [b]
        inbox := (w.conns i).inbox ++ [b] } }
  | close (w : World ι) (i : ι) :
      World.Step w { w with conns := Function.update w.conns i { w.conns i with closed := true } }
  | handle {w w' : World ι} (i : ι) (h : World.Handles i w w') : World.Step w w'

/-! ## The commands of a stream -/

/-- `ReadCommand` on a whole stream. -/
def parseOne (stream : Bytes) : Prog.Outcome UInt8 SimpleStorage Exc Command :=
  readCommand.run SimpleStorage.empty stream

/-- `ReadCommand` reads at least a byte if it returns. -/
theorem length_rest_lt {stream : Bytes} {command : Command}
    (h : (parseOne stream).result = .ok command) :
    (parseOne stream).rest.length < stream.length := by
  obtain ⟨next, hnext⟩ : ∃ next, (readCommand : Io SimpleStorage Command) = read next := ⟨_, rfl⟩
  have hstrict := (reader_readCommand : Reader (readCommand : Io SimpleStorage Command)).strict
  rw [parseOne, hnext] at h ⊢
  exact (hnext ▸ hstrict).length_rest_lt h

/-- The commands of the longest prefix of a stream that consists of valid commands, and what
follows that prefix. -/
def parseAll (stream : Bytes) : List Command × Bytes :=
  match h : (parseOne stream).result with
  | .ok command =>
    have := length_rest_lt h
    (command :: (parseAll (parseOne stream).rest).1, (parseAll (parseOne stream).rest).2)
  | .error _ => ([], stream)
termination_by stream.length

/-- `ReadCommand` throws on the stream, without looking further. -/
def Malformed (stream : Bytes) : Prop :=
  ∃ e rest, ∀ more, parseOne (stream ++ more) = ⟨.error e, SimpleStorage.empty, rest ++ more, []⟩

theorem parseAll_of_ok {stream : Bytes} {command : Command}
    (h : (parseOne stream).result = .ok command) : parseAll stream =
      (command :: (parseAll (parseOne stream).rest).1, (parseAll (parseOne stream).rest).2) := by
  rw [parseAll]
  split
  · rename_i command' h'
    rw [h] at h'
    cases h'
    rfl
  · rename_i e h'
    rw [h] at h'
    cases h'

theorem parseAll_of_error {stream : Bytes} {e : Exc} (h : (parseOne stream).result = .error e) :
    parseAll stream = ([], stream) := by
  rw [parseAll]
  split
  · rename_i command' h'
    rw [h] at h'
    cases h'
  · rfl

/-! ## Executing a log -/

/-- A command that was executed, with its result. -/
abbrev Entry := Command × Except StorageError Reply

/-- Execute the commands of a log one after the other: the results, and the storage it leaves. -/
def replay (st : SimpleStorage) : List (ι × Command) → List (ι × Entry) × SimpleStorage
  | [] => ([], st)
  | (i, command) :: log =>
    ((i, command, (command.exec st).1) :: (replay (command.exec st).2 log).1,
      (replay (command.exec st).2 log).2)

/-- The entries of one connection. -/
def entriesOf (i : ι) (entries : List (ι × Entry)) : List Entry :=
  (entries.filter fun e ↦ e.1 = i).map Prod.snd

/-- What is written for all of them. -/
def replies (entries : List Entry) : Bytes := entries.flatMap fun e ↦ replyBytes e.2

/-- No command failed. -/
def AllOk (entries : List Entry) : Prop := ∀ e ∈ entries, ∃ r, e.2 = .ok r

/-- The last command failed, and no other. -/
def LastFailed (entries : List Entry) : Prop :=
  ∃ before command e, entries = before ++ [(command, .error e)] ∧ AllOk before

omit [DecidableEq ι] in
theorem replay_append (st : SimpleStorage) (log : List (ι × Command)) (i : ι) (command : Command) :
    replay st (log ++ [(i, command)]) =
      ((replay st log).1 ++ [(i, command, (command.exec (replay st log).2).1)],
        (command.exec (replay st log).2).2) := by
  induction log generalizing st with
  | nil => rfl
  | cons head log ih =>
    rw [List.cons_append, replay, ih]
    rfl

theorem entriesOf_append_self (i : ι) (entries : List (ι × Entry)) (e : Entry) :
    entriesOf i (entries ++ [(i, e)]) = entriesOf i entries ++ [e] := by
  simp [entriesOf]

theorem entriesOf_append_of_ne {i j : ι} (h : j ≠ i) (entries : List (ι × Entry)) (e : Entry) :
    entriesOf i (entries ++ [(j, e)]) = entriesOf i entries := by
  simp [entriesOf, h]

theorem replies_append (entries entries' : List Entry) :
    replies (entries ++ entries') = replies entries ++ replies entries' :=
  List.flatMap_append

/-! ## Where a handler is -/

/-- `more` can still arrive after what has arrived. -/
def Conn.CanArrive (c : Conn) (more : Bytes) : Prop := c.closed = true → more = []

/-- The commands of `entries` are the first ones on the stream, and `left` is what is left of the
stream after them; whatever arrives now goes to its end. -/
def Conn.Executed (c : Conn) (entries : List Entry) (left : Bytes) : Prop :=
  ∀ more, c.CanArrive more → parseAll (c.received ++ more) =
    (entries.map Prod.fst ++ (parseAll (left ++ more)).1, (parseAll (left ++ more)).2)

/-- The four places a handler can be in, after it has executed the commands of `entries`. -/
inductive ConnInv (c : Conn) (entries : List Entry) : Prop where
  /-- Reading a command, of which it has read `cur`. -/
  | reading (p : Io SimpleStorage Command) (cur : Bytes)
      (hhandler : c.handler = some (p >>= processCommand)) (hreader : Reader p)
      (hraise : ∀ e, p ≠ raise e)
      (hrun : ∀ more, c.CanArrive more → parseOne (cur ++ (c.inbox ++ more)) =
        p.run SimpleStorage.empty (c.inbox ++ more))
      (hok : AllOk entries) (hsent : c.sent = replies entries)
      (hexec : c.Executed entries (cur ++ c.inbox))
  /-- Writing a reply, of which `out` is left. -/
  | writing (out : Bytes) (hhandler : c.handler = some (writeAll out)) (hout : out ≠ [])
      (hok : AllOk entries) (hsent : c.sent ++ out = replies entries)
      (hexec : c.Executed entries c.inbox)
  /-- Stopped by the storage. -/
  | failed (left : Bytes) (hhandler : c.handler = none) (hfailed : LastFailed entries)
      (hsent : c.sent = replies entries) (hexec : c.Executed entries left)
  /-- Stopped by what it read. -/
  | stopped (left : Bytes) (hhandler : c.handler = none) (hok : AllOk entries)
      (hsent : c.sent = replies entries) (hexec : c.Executed entries left)
      (hleft : Malformed left ∨ c.closed = true ∧ ∃ e, (parseOne left).result = .error e)

theorem connInv_fresh : ConnInv Conn.fresh [] := by
  refine .reading readCommand [] rfl reader_readCommand ?_ (fun _ _ ↦ rfl) ?_ rfl ?_
  · intro e h
    cases h
  · intro e he
    cases he
  · intro more _
    rfl

/-! ## What can happen to a connection -/

/-- A byte arrives. -/
theorem ConnInv.arrive {c : Conn} {entries : List Entry} (h : ConnInv c entries)
    (hopen : c.closed = false) (b : UInt8) :
    ConnInv { c with received := c.received ++ [b], inbox := c.inbox ++ [b] } entries := by
  have hcan (more : Bytes) : c.CanArrive more := fun hc ↦ absurd (hopen.symm.trans hc) (by simp)
  have hexec' {left : Bytes} (hexec : c.Executed entries left) :
      Conn.Executed { c with received := c.received ++ [b], inbox := c.inbox ++ [b] } entries
        (left ++ [b]) := by
    intro more _
    rw [List.append_assoc, List.append_assoc]
    exact hexec ([b] ++ more) (hcan _)
  cases h with
  | reading p cur hhandler hreader hraise hrun hok hsent hexec =>
    refine .reading p cur hhandler hreader hraise (fun more _ ↦ ?_) hok hsent ?_
    · rw [List.append_assoc]
      exact hrun ([b] ++ more) (hcan _)
    · rw [← List.append_assoc]
      exact hexec' hexec
  | writing out hhandler hout hok hsent hexec =>
    exact .writing out hhandler hout hok hsent (hexec' hexec)
  | failed left hhandler hfailed hsent hexec =>
    exact .failed (left ++ [b]) hhandler hfailed hsent (hexec' hexec)
  | stopped left hhandler hok hsent hexec hleft =>
    refine .stopped (left ++ [b]) hhandler hok hsent (hexec' hexec) ?_
    rcases hleft with ⟨e, rest, hmal⟩ | ⟨hclosed, -⟩
    · refine .inl ⟨e, rest ++ [b], fun more ↦ ?_⟩
      rw [List.append_assoc, List.append_assoc]
      exact hmal ([b] ++ more)
    · exact absurd (hopen.symm.trans hclosed) (by simp)

/-- The peer closes its end: less can arrive than before. -/
theorem ConnInv.close {c : Conn} {entries : List Entry} (h : ConnInv c entries) :
    ConnInv { c with closed := true } entries := by
  have hcan {more : Bytes} (hmore : Conn.CanArrive { c with closed := true } more) :
      c.CanArrive more := fun _ ↦ hmore rfl
  have hexec' {left : Bytes} (hexec : c.Executed entries left) :
      Conn.Executed { c with closed := true } entries left :=
    fun more hmore ↦ hexec more (hcan hmore)
  cases h with
  | reading p cur hhandler hreader hraise hrun hok hsent hexec =>
    exact .reading p cur hhandler hreader hraise (fun more hmore ↦ hrun more (hcan hmore)) hok
      hsent (hexec' hexec)
  | writing out hhandler hout hok hsent hexec =>
    exact .writing out hhandler hout hok hsent (hexec' hexec)
  | failed left hhandler hfailed hsent hexec =>
    exact .failed left hhandler hfailed hsent (hexec' hexec)
  | stopped left hhandler hok hsent hexec hleft =>
    exact .stopped left hhandler hok hsent (hexec' hexec) (hleft.imp_right fun h ↦ ⟨rfl, h.2⟩)

/-- The handler has read more of a command. -/
theorem connInv_read {c : Conn} {entries : List Entry} {p p' : Io SimpleStorage Command}
    {cur inp : Bytes} (hreader : Reader p)
    (hrun : ∀ more, c.CanArrive more →
      parseOne (cur ++ (c.inbox ++ more)) = p.run SimpleStorage.empty (c.inbox ++ more))
    (hok : AllOk entries) (hsent : c.sent = replies entries)
    (hexec : c.Executed entries (cur ++ c.inbox))
    (hstep : Prog.Step (c.closed = true) p SimpleStorage.empty c.inbox p' SimpleStorage.empty inp
      []) : ConnInv (c.resume (p' >>= processCommand) inp []) entries := by
  have hrun' (more : Bytes) (hmore : c.CanArrive more) :
      parseOne (cur ++ (c.inbox ++ more)) = p'.run SimpleStorage.empty (inp ++ more) := by
    rw [hrun more hmore, run_of_step hstep hmore, Outcome.prepend_nil]
  obtain ⟨taken, htaken⟩ := suffix_of_step hstep
  have hsent' : c.sent ++ [] = replies entries := by rw [List.append_nil, hsent]
  by_cases hraise : ∃ e, p' = raise e
  · obtain ⟨e, rfl⟩ := hraise
    refine .stopped (cur ++ c.inbox) rfl hok hsent' hexec ?_
    rcases hclosed : c.closed with _ | _
    · refine .inl ⟨e, inp, fun more ↦ ?_⟩
      rw [List.append_assoc]
      exact hrun' more fun h ↦ absurd (hclosed.symm.trans h) (by simp)
    · refine .inr ⟨hclosed, e, ?_⟩
      have hend := hrun' [] fun _ ↦ rfl
      rw [List.append_nil] at hend
      rw [hend]
      rfl
  · have hne (e : Exc) : p' ≠ raise e := fun h ↦ hraise ⟨e, h⟩
    refine .reading p' (cur ++ taken) (settle_bind hne) (hreader.step hstep).2.2.1 hne ?_ hok
      hsent' ?_
    · intro more hmore
      change parseOne (cur ++ taken ++ (inp ++ more)) = p'.run SimpleStorage.empty (inp ++ more)
      rw [← hrun' more hmore, htaken, List.append_assoc, List.append_assoc]
    · rw [htaken, ← List.append_assoc] at hexec
      exact hexec

/-- The handler has carried out a command. -/
theorem connInv_exec {c : Conn} {entries : List Entry} {command : Command} {cur : Bytes}
    (hrun : ∀ more, c.CanArrive more → parseOne (cur ++ (c.inbox ++ more)) =
      ⟨.ok command, SimpleStorage.empty, c.inbox ++ more, []⟩)
    (hok : AllOk entries) (hsent : c.sent = replies entries)
    (hexec : c.Executed entries (cur ++ c.inbox)) (res : Except StorageError Reply) :
    ConnInv (c.resume (sendReply res) c.inbox []) (entries ++ [(command, res)]) := by
  have hexec' : c.Executed (entries ++ [(command, res)]) c.inbox := by
    intro more hmore
    have hone := hrun more hmore
    rw [hexec more hmore, List.append_assoc, parseAll_of_ok (congrArg Outcome.result hone), hone]
    simp
  have hsent' : c.sent ++ [] = replies entries := by rw [List.append_nil, hsent]
  rcases res with e | r
  · refine .failed c.inbox rfl ⟨entries, command, e, rfl, hok⟩ ?_ hexec'
    rw [replies_append]
    exact hsent'.trans (List.append_nil _).symm
  · refine .writing r.bytes (settle_writeAll r.bytes_ne_nil) r.bytes_ne_nil ?_ ?_ hexec'
    · intro e he
      rcases List.mem_append.1 he with he | he
      · exact hok e he
      · exact ⟨r, congrArg Prod.snd (List.mem_singleton.1 he)⟩
    · change c.sent ++ [] ++ r.bytes = _
      rw [hsent', replies_append]
      simp [replies, replyBytes]

/-- The handler has written a byte of a reply. -/
theorem connInv_write {c : Conn} {entries : List Entry} {b : UInt8} {out : Bytes}
    (hok : AllOk entries) (hsent : c.sent ++ b :: out = replies entries)
    (hexec : c.Executed entries c.inbox) :
    ConnInv (c.resume (writeAll out) c.inbox [b]) entries := by
  have hsent' : c.sent ++ [b] ++ out = replies entries := by rw [← hsent]; simp
  by_cases hout : out = []
  · subst hout
    rw [List.append_nil] at hsent'
    exact .reading readCommand [] rfl reader_readCommand (fun e h ↦ nomatch h)
      (fun _ _ ↦ rfl) hok hsent' hexec
  · exact .writing out (settle_writeAll hout) hout hok hsent' hexec

/-- **A step of a handler** executes at most one command, on the storage as it is then. -/
theorem ConnInv.handle {c : Conn} {entries : List Entry} (h : ConnInv c entries)
    {p p' : Io SimpleStorage Unit} {st st' : SimpleStorage} {inp out : Bytes}
    (hp : c.handler = some p)
    (hstep : Prog.Step (c.closed = true) p st c.inbox p' st' inp out) :
    (st' = st ∧ ConnInv (c.resume p' inp out) entries) ∨
      ∃ command : Command, st' = (command.exec st).2 ∧
        ConnInv (c.resume p' inp out) (entries ++ [(command, (command.exec st).1)]) := by
  cases h with
  | reading p₁ cur hhandler hreader hraise hrun hok hsent hexec =>
    rw [hhandler] at hp
    obtain rfl := Option.some.inj hp
    rcases step_bind hstep with ⟨p₁', hstep₁, rfl⟩ | ⟨command, rfl, hstep₁⟩
    · obtain ⟨rfl, rfl, -, hstep₂⟩ := hreader.step hstep₁
      exact .inl ⟨rfl, connInv_read hreader hrun hok hsent hexec (hstep₂ _)⟩
    · obtain ⟨rfl, rfl, rfl, rfl⟩ := step_processCommand hstep₁
      exact .inr ⟨command, rfl, connInv_exec hrun hok hsent hexec _⟩
  | writing out₁ hhandler hout hok hsent hexec =>
    rw [hhandler] at hp
    obtain rfl := Option.some.inj hp
    rcases out₁ with _ | ⟨b, out₁⟩
    · exact absurd rfl hout
    · cases hstep
      exact .inl ⟨rfl, connInv_write hok hsent hexec⟩
  | failed left hhandler => rw [hhandler] at hp; cases hp
  | stopped left hhandler => rw [hhandler] at hp; cases hp

/-! ## Runs of the server -/

/-- The storage and every connection are as after executing one log. -/
def World.Inv (st : SimpleStorage) (w : World ι) : Prop :=
  ∃ log, w.storage = (replay st log).2 ∧
    ∀ i, ConnInv (w.conns i) (entriesOf i (replay st log).1)

/-- Connections other than `i` have no part in what happens to `i`. -/
theorem connInv_update {conns : ι → Conn} {entries : ι → List Entry} {i : ι} {c : Conn}
    (h : ∀ j, ConnInv (conns j) (entries j)) (entries' : ι → List Entry)
    (hc : ConnInv c (entries' i)) (hother : ∀ j, j ≠ i → entries' j = entries j) (j : ι) :
    ConnInv (Function.update conns i c j) (entries' j) := by
  by_cases hj : j = i
  · subst hj
    rw [Function.update_self]
    exact hc
  · rw [Function.update_of_ne hj, hother j hj]
    exact h j

theorem World.inv_init (st : SimpleStorage) : World.Inv st (World.init st : World ι) :=
  ⟨[], rfl, fun _ ↦ connInv_fresh⟩

theorem World.inv_of_step {st : SimpleStorage} {w w' : World ι} (h : World.Inv st w)
    (hstep : World.Step w w') : World.Inv st w' := by
  obtain ⟨log, hstorage, hconns⟩ := h
  cases hstep with
  | arrive i b hopen =>
    exact ⟨log, hstorage, connInv_update hconns _ ((hconns i).arrive hopen b) fun _ _ ↦ rfl⟩
  | close i => exact ⟨log, hstorage, connInv_update hconns _ (hconns i).close fun _ _ ↦ rfl⟩
  | handle i hmove =>
    cases hmove with | mk hp hstep =>
    rcases (hconns i).handle hp hstep with ⟨rfl, hc⟩ | ⟨command, hst, hc⟩
    · exact ⟨log, hstorage, connInv_update hconns _ hc fun _ _ ↦ rfl⟩
    · refine ⟨log ++ [(i, command)], ?_, ?_⟩
      · rw [replay_append, ← hstorage]
        exact hst
      · rw [replay_append, ← hstorage]
        refine connInv_update hconns (fun j ↦ entriesOf j _) ?_ fun j hj ↦ ?_
        · rw [entriesOf_append_self]
          exact hc
        · exact entriesOf_append_of_ne (Ne.symm hj) _ _

/-! ## What a connection gets -/

/-- The handler cannot move until something arrives or the peer closes its end. -/
def Conn.Quiet (c : Conn) (st : SimpleStorage) : Prop :=
  ∀ p p' st' inp out, c.handler = some p → ¬ Prog.Step (c.closed = true) p st c.inbox p' st' inp out

/-- The connection has been served as `entries` says. -/
structure Serves (c : Conn) (st : SimpleStorage) (entries : List Entry) : Prop where
  /-- The commands are the first valid ones of the stream. -/
  commands : entries.map Prod.fst <+: (parseAll c.received).1
  /-- None was executed after one that failed. -/
  results : AllOk entries ∨ LastFailed entries
  /-- The bytes sent are those of the results, up to what is still to be written. -/
  sent : c.sent <+: replies entries
  /-- The handler stopped because of a command that failed, or because what follows the valid
  commands on its own stream is malformed or cut off. -/
  stopped : c.handler = none → LastFailed entries ∨
    entries.map Prod.fst = (parseAll c.received).1 ∧
      (Malformed (parseAll c.received).2 ∨ c.closed = true)
  /-- A handler that cannot move has sent all of its replies, and has executed all valid commands
  of the stream up to the first that failed; it has stopped if there was such a one, if what
  follows them is malformed or if the stream is at its end. -/
  quiet : c.Quiet st → c.sent = replies entries ∧
    (LastFailed entries ∧ c.handler = none ∨
      AllOk entries ∧ entries.map Prod.fst = (parseAll c.received).1 ∧
        (Malformed (parseAll c.received).2 ∨ c.closed = true → c.handler = none))

theorem Conn.Executed.parseAll_received {c : Conn} {entries : List Entry} {left : Bytes}
    (h : c.Executed entries left) : parseAll c.received =
      (entries.map Prod.fst ++ (parseAll left).1, (parseAll left).2) := by
  have hnow := h [] fun _ ↦ rfl
  rwa [List.append_nil, List.append_nil] at hnow

theorem Malformed.parseAll {stream : Bytes} (h : Malformed stream) :
    parseAll stream = ([], stream) := by
  obtain ⟨e, rest, hmal⟩ := h
  have hone := hmal []
  rw [List.append_nil] at hone
  exact parseAll_of_error (congrArg Outcome.result hone)

/-- A handler that waits in the middle of a command has read neither a whole command nor a
malformed one. -/
theorem waiting {cur : Bytes} {next : Option UInt8 → Io SimpleStorage Command}
    (h : ∀ more, parseOne (cur ++ more) = (read next).run SimpleStorage.empty more) :
    parseAll cur = ([], cur) ∧ ¬ Malformed cur := by
  -- one more byte would be read, so it cannot be left over
  have hrest (rest : Bytes) : (parseOne (cur ++ [0])).rest ≠ rest ++ [0] := by
    intro heq
    have hle := length_rest_le (next (some 0)) SimpleStorage.empty []
    rw [h] at heq
    change ((next (some 0)).run SimpleStorage.empty []).rest = _ at heq
    rw [heq, List.length_append] at hle
    exact absurd hle (by simp)
  constructor
  · rcases hres : (parseOne cur).result with e | command
    · exact parseAll_of_error hres
    · have hrun : parseOne cur = ⟨.ok command, SimpleStorage.empty, (parseOne cur).rest, []⟩ := by
        rw [← hres]
        exact reader_readCommand.readOnly.run_eq _ _ _
      have happend := reader_readCommand.strict.run_append hrun [0]
      exact absurd (congrArg Outcome.rest happend) (hrest _)
  · rintro ⟨e, rest, hmal⟩
    exact hrest rest (congrArg Outcome.rest (hmal [0]))

/-- A handler in the middle of a command that cannot move is waiting for the next byte. -/
theorem Conn.Quiet.reading {c : Conn} {st : SimpleStorage} {p : Io SimpleStorage Command}
    (hquiet : c.Quiet st) (hhandler : c.handler = some (p >>= processCommand))
    (hreader : Reader p) (hraise : ∀ e, p ≠ raise e) :
    (∃ next, p = read next) ∧ c.inbox = [] ∧ c.closed = false := by
  rcases p with command | e | next | ⟨b, next⟩ | ⟨update, next⟩
  · rw [show (ret command >>= processCommand) = processCommand command from rfl,
      processCommand_eq] at hhandler
    exact absurd (.atomic _ _ _ _) (hquiet _ _ _ _ _ hhandler)
  · exact absurd rfl (hraise e)
  · have hinbox : c.inbox = [] := by
      rcases hinbox : c.inbox with _ | ⟨b, inbox⟩
      · rfl
      · have hno := hquiet _ ((next (some b)).bind processCommand) st inbox [] hhandler
        rw [hinbox] at hno
        exact absurd (.read _ _ _ _) hno
    refine ⟨⟨next, rfl⟩, hinbox, ?_⟩
    rcases hclosed : c.closed with _ | _
    · rfl
    · have hno := hquiet _ ((next none).bind processCommand) st [] [] hhandler
      rw [hinbox] at hno
      exact absurd (.eof _ _ hclosed) hno
  · exact hreader.readOnly.elim
  · exact hreader.readOnly.elim

/-! ## Handlers come to rest -/

/-- The handler of `i` cannot move. -/
def World.QuietAt (i : ι) (w : World ι) : Prop := (w.conns i).Quiet w.storage

/-- The handler of `i` cannot move for ever. -/
def World.Rests (i : ι) (w : World ι) : Prop :=
  Lib.Inevitable (World.Handles i) (World.QuietAt i) w

theorem World.rests_of_none {i : ι} {w : World ι} (h : (w.conns i).handler = none) : w.Rests i :=
  .now fun p p' st inp out hp ↦ by rw [h] at hp; cases hp

theorem World.rests_of_handles {i : ι} {w : World ι}
    (h : ∀ w', World.Handles i w w' → w'.Rests i) : w.Rests i := by
  by_cases hcan : ∃ w', World.Handles i w w'
  · exact .later hcan h
  · exact .now fun p p' st inp out hp hstep ↦ hcan ⟨_, .mk w hp hstep⟩

/-- What a step of the handler of `i` does to the connection. -/
theorem World.Handles.resume {i : ι} {w w' : World ι} {p : Io SimpleStorage Unit}
    (h : World.Handles i w w') (hhandler : (w.conns i).handler = some p) : ∃ p' st inp out,
      Prog.Step ((w.conns i).closed = true) p w.storage (w.conns i).inbox p' st inp out ∧
        w'.conns i = (w.conns i).resume p' inp out := by
  cases h with | mk hp hstep =>
  rw [hhandler] at hp
  obtain rfl := Option.some.inj hp
  exact ⟨_, _, _, _, hstep, Function.update_self _ _ _⟩

theorem World.exists_connInv_of_handles {i : ι} {w w' : World ι}
    (h : ∃ entries, ConnInv (w.conns i) entries) (hmove : World.Handles i w w') :
    ∃ entries, ConnInv (w'.conns i) entries := by
  obtain ⟨entries, h⟩ := h
  cases hmove with | mk hp hstep =>
  simp only [Function.update_self]
  rcases h.handle hp hstep with ⟨-, h'⟩ | ⟨command, -, h'⟩
  · exact ⟨_, h'⟩
  · exact ⟨_, h'⟩

/-- At the end of the stream a handler can only go on throwing. -/
theorem World.rests_of_throws {i : ι} {p : Io SimpleStorage Command} (hreader : Reader p)
    (hthrows : p.Throws) {w : World ι} (hinbox : (w.conns i).inbox = [])
    (hhandler : (w.conns i).handler = settle (p >>= processCommand)) : w.Rests i := by
  induction p generalizing w with
  | ret command => exact hthrows.elim
  | raise e => exact rests_of_none hhandler
  | read next ih =>
    refine rests_of_handles fun w' hmove ↦ ?_
    obtain ⟨p', st, inp, out, hstep, hconn⟩ := hmove.resume hhandler
    rw [hinbox] at hstep
    cases hstep
    refine ih none ⟨hreader.readOnly none, hreader.strict.1 none⟩ (hthrows none) ?_ ?_
    · rw [hconn]; rfl
    · rw [hconn]; rfl
  | write b next => exact hreader.readOnly.elim
  | atomic update next => exact hreader.readOnly.elim

/-- A handler that reads comes to rest if it does with less to read. -/
theorem World.rests_of_reading {i : ι} {w : World ι}
    {next : Option UInt8 → Io SimpleStorage Command} (hreader : Reader (read next))
    (hhandler : (w.conns i).handler = some (read next >>= processCommand))
    (ih : ∀ w' : World ι, World.Handles i w w' →
      (w'.conns i).inbox.length < (w.conns i).inbox.length → w'.Rests i) : w.Rests i := by
  refine rests_of_handles fun w' hmove ↦ ?_
  obtain ⟨p', st, inp, out, hstep, hconn⟩ := hmove.resume hhandler
  generalize hinbox : (w.conns i).inbox = inbox at hstep
  cases hstep with
  | read =>
    refine ih w' hmove ?_
    rw [hconn, hinbox]
    exact Nat.lt_succ_self _
  | eof =>
    have hreader' : Reader (next none) := ⟨hreader.readOnly none, hreader.strict.1 none⟩
    refine rests_of_throws hreader' hreader.strict.2 ?_ ?_
    · rw [hconn]; rfl
    · rw [hconn]; rfl

/-- After a reply the handler reads again. -/
theorem World.rests_of_writing {i : ι} {out : Bytes} {w : World ι}
    (h : ∃ entries, ConnInv (w.conns i) entries)
    (hhandler : (w.conns i).handler = settle (writeAll out))
    (hread : ∀ w' : World ι, (∃ entries, ConnInv (w'.conns i) entries) →
      (w'.conns i).handler = some serveOnce → (w'.conns i).inbox = (w.conns i).inbox →
        w'.Rests i) : w.Rests i := by
  induction out generalizing w with
  | nil => exact hread w h hhandler rfl
  | cons b out ih =>
    refine rests_of_handles fun w' hmove ↦ ?_
    have h' := exists_connInv_of_handles h hmove
    obtain ⟨p', st, inp, out', hstep, hconn⟩ := hmove.resume hhandler
    cases hstep
    refine ih h' (by rw [hconn]; rfl) fun w'' h'' hserve hinbox ↦ hread w'' h'' hserve ?_
    rw [hinbox, hconn]
    rfl

/-- **Handlers come to rest.**  Without new bytes a handler moves only finitely often. -/
theorem World.rests_of_connInv {i : ι} {w : World ι}
    (h : ∃ entries, ConnInv (w.conns i) entries) : w.Rests i := by
  induction hn : (w.conns i).inbox.length using Nat.strong_induction_on generalizing w with
  | _ n ih =>
    -- a handler that has something to read ends up with less to read
    have hreading (w' : World ι) (next) (h' : ∃ entries, ConnInv (w'.conns i) entries)
        (hlen : (w'.conns i).inbox.length = n) (hreader : Reader (read next))
        (hhandler : (w'.conns i).handler = some (read next >>= processCommand)) : w'.Rests i :=
      rests_of_reading hreader hhandler fun w'' hmove hlt ↦
        ih _ (hlen ▸ hlt) (exists_connInv_of_handles h' hmove) rfl
    have hwriting (w' : World ι) (out : Bytes) (h' : ∃ entries, ConnInv (w'.conns i) entries)
        (hlen : (w'.conns i).inbox.length = n)
        (hhandler : (w'.conns i).handler = settle (writeAll out)) : w'.Rests i :=
      rests_of_writing h' hhandler fun w'' h'' hserve hinbox ↦
        hreading w'' _ h'' (hinbox ▸ hlen) reader_readCommand hserve
    have hinv := h
    obtain ⟨entries, h⟩ := h
    cases h with
    | reading p cur hhandler hreader hraise =>
      rcases p with command | e | next | ⟨b, next⟩ | ⟨update, next⟩
      · refine rests_of_handles fun w' hmove ↦ ?_
        have h' := exists_connInv_of_handles hinv hmove
        obtain ⟨p', st, inp, out, hstep, hconn⟩ := hmove.resume hhandler
        obtain ⟨rfl, rfl, rfl, rfl⟩ := step_processCommand hstep
        rcases hexec : (command.exec w.storage).1 with e | r
        · refine rests_of_none ?_
          rw [hconn, hexec]
          rfl
        · rw [hexec] at hconn
          exact hwriting w' r.bytes h' (by rw [hconn]; exact hn) (by rw [hconn]; rfl)
      · exact absurd rfl (hraise e)
      · exact hreading w next hinv hn hreader hhandler
      · exact hreader.readOnly.elim
      · exact hreader.readOnly.elim
    | writing out hhandler hout =>
      exact hwriting w out hinv hn (by rw [hhandler, settle_writeAll hout])
    | failed left hhandler => exact rests_of_none hhandler
    | stopped left hhandler => exact rests_of_none hhandler

/-- The invariant gives what a client gets to see. -/
theorem ConnInv.serves {c : Conn} {entries : List Entry} (h : ConnInv c entries)
    (st : SimpleStorage) : Serves c st entries := by
  cases h with
  | reading p cur hhandler hreader hraise hrun hok hsent hexec =>
    have hparse := hexec.parseAll_received
    refine ⟨by rw [hparse]; exact List.prefix_append _ _, .inl hok, by rw [hsent], ?_, ?_⟩
    · intro hnone
      rw [hhandler] at hnone
      cases hnone
    · intro hquiet
      obtain ⟨⟨next, rfl⟩, hinbox, hclosed⟩ := hquiet.reading hhandler hreader hraise
      have hcan (more : Bytes) : c.CanArrive more := fun hc ↦ by rw [hclosed] at hc; cases hc
      rw [hinbox] at hrun hparse
      obtain ⟨hall, hmal⟩ := waiting fun more ↦ hrun more (hcan more)
      rw [List.append_nil, hall, List.append_nil] at hparse
      refine ⟨hsent, .inr ⟨hok, by rw [hparse], ?_⟩⟩
      rw [hparse, hclosed]
      rintro (hm | hc)
      · exact absurd hm hmal
      · cases hc
  | writing out hhandler hout hok hsent hexec =>
    refine ⟨by rw [hexec.parseAll_received]; exact List.prefix_append _ _, .inl hok,
      ⟨out, hsent⟩, ?_, ?_⟩
    · intro hnone
      rw [hhandler] at hnone
      cases hnone
    · intro hquiet
      rcases out with _ | ⟨b, out⟩
      · exact absurd rfl hout
      · exact absurd (.write _ _ _ _) (hquiet _ _ _ _ _ hhandler)
  | failed left hhandler hfailed hsent hexec =>
    refine ⟨by rw [hexec.parseAll_received]; exact List.prefix_append _ _, .inr hfailed,
      by rw [hsent], fun _ ↦ .inl hfailed, fun _ ↦ ⟨hsent, .inl ⟨hfailed, hhandler⟩⟩⟩
  | stopped left hhandler hok hsent hexec hleft =>
    have hparse := hexec.parseAll_received
    have hall : parseAll left = ([], left) := by
      rcases hleft with hmal | ⟨-, e, he⟩
      · exact hmal.parseAll
      · exact parseAll_of_error he
    rw [hall, List.append_nil] at hparse
    refine ⟨by rw [hparse], .inl hok, by rw [hsent], fun _ ↦ .inr ?_, fun _ ↦ ?_⟩
    · rw [hparse]
      exact ⟨rfl, hleft.imp_right And.left⟩
    · exact ⟨hsent, .inr ⟨hok, by rw [hparse], fun _ ↦ hhandler⟩⟩

/-- **Many connections, one storage.**  In every state the server can reach, whatever arrives on
its connections and in whatever order handlers move, the storage is the result of executing some
log of commands one after the other, every connection has been served as the log says, and every
handler comes to rest if nothing more arrives. -/
theorem serves_of_reachable (st : SimpleStorage) (w : World ι)
    (hrun : Relation.ReflTransGen World.Step (World.init st) w) :
    (∃ log : List (ι × Command), w.storage = (replay st log).2 ∧
      ∀ i, Serves (w.conns i) w.storage (entriesOf i (replay st log).1)) ∧
    ∀ i, w.Rests i := by
  have hinv := Lib.invariant_of_step hrun (World.inv_init st) fun _ _ ↦ World.inv_of_step
  obtain ⟨log, hstorage, hconns⟩ := hinv
  exact ⟨⟨log, hstorage, fun i ↦ (hconns i).serves w.storage⟩,
    fun i ↦ World.rests_of_connInv ⟨_, hconns i⟩⟩

/-- The byte `x` stops the handler that reads it, and no other. -/
theorem serves_of_reachable_malformed : ∃ w : World Bool,
    Relation.ReflTransGen World.Step (World.init SimpleStorage.empty) w ∧
    (w.conns true).handler.isNone ∧ (w.conns false).handler.isSome ∧
    (∃ log : List (Bool × Command), w.storage = (replay SimpleStorage.empty log).2 ∧
      ∀ i, Serves (w.conns i) w.storage (entriesOf i (replay SimpleStorage.empty log).1)) ∧
    ∀ i, w.Rests i := by
  let w : World Bool := ⟨SimpleStorage.empty, Function.update (fun _ ↦ Conn.fresh) true
    { Conn.fresh with received := [120], inbox := [120] }⟩
  have harrive : World.Step (World.init SimpleStorage.empty) w :=
    World.Step.arrive (World.init SimpleStorage.empty) true 120 rfl
  have hread : World.Handles true w _ := .mk w rfl (.read _ SimpleStorage.empty 120 [])
  have hrun := (Relation.ReflTransGen.single harrive).tail (.handle true hread)
  exact ⟨_, hrun, rfl, rfl, serves_of_reachable _ _ hrun⟩

end Redis
end ManyTasks
