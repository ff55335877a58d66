import ManyTasks.Lib.Atomic
import ManyTasks.Redis.Session

/-!
# Many clients of one server

Each client has a connection of its own, a handler of the server serves it, and all handlers work on
one storage.  Clients and handlers move in any order, a byte or an access to the storage at a time,
and a client begins a call whenever it is between two.

To the clients this is one storage on which each call takes effect at one moment between its
beginning and its end (`cluster_linearizable`).  The moment is the access to the storage by the
handler; for a call on a connection that has been lost it is when the client sees the end of the
stream.

`Line.At` says where a client and its handler can be.  What other clients do to the storage changes
nothing of it, because neither reading a command nor writing a reply looks at the storage.
-/

set_option autoImplicit false

namespace ManyTasks
namespace Redis

open Function (update update_self update_of_ne update_eq_self)
open Lib (Atomic Label Linearizable Prog Progress Trace)
open Lib.Prog

/-! ## The machine -/

/-- A client, the handler of its connection and the two streams between them. -/
structure Line where
  /-- The number of calls that the client has made. -/
  made : ℕ
  /-- The call it is in. -/
  current : Option (Io Unit Reply)
  /-- What the handler still has to do; `none` once it has left its loop and closed the
  connection. -/
  handler : Option (Io SimpleStorage Unit)
  toServer : Bytes
  toClient : Bytes

/-- The connection has just been accepted. -/
def Line.start : Line := ⟨0, none, some serveOnce, [], []⟩

/-- The storage, and the clients. -/
structure Cluster (ι : Type) where
  storage : SimpleStorage
  lines : ι → Line

variable {ι : Type}

/-- All connections have just been accepted. -/
def Cluster.init (st : SimpleStorage) : Cluster ι := ⟨st, fun _ ↦ Line.start⟩

variable [DecidableEq ι]

/-- Client and handler of a connection have moved. -/
def Cluster.put (w : Cluster ι) (i : ι) (line : Line) : Cluster ι :=
  { w with lines := update w.lines i line }

/-- One step of a client or of a handler.  A call is known by its client and its number. -/
inductive Cluster.Step : Cluster ι → Label (ι × ℕ) (ι × Command) (Except Exc Reply) → Cluster ι →
    Prop where
  /-- A call begins, with strings that fit in a reader's buffer. -/
  | call {w} (i : ι) (command : Command) (hfits : command.Fits)
      (hidle : (w.lines i).current = none) :
      Step w (.call (i, (w.lines i).made) (i, command))
        (w.put i { w.lines i with current := some (call command) })
  /-- The client moves. -/
  | client {w} (i : ι) {p p' : Io Unit Reply} {inp out : Bytes} (hp : (w.lines i).current = some p)
      (hstep : Prog.Step ((w.lines i).handler = none) p () (w.lines i).toClient p' () inp out) :
      Step w .tau (w.put i
        { w.lines i with
          current := some p', toClient := inp, toServer := (w.lines i).toServer ++ out })
  /-- The call returns or throws. -/
  | finish {w} (i : ι) {res : Except Exc Reply} (hp : (w.lines i).current = some (lift res)) :
      Step w (.ret (i, (w.lines i).made) res)
        (w.put i { w.lines i with current := none, made := (w.lines i).made + 1 })
  /-- The handler moves. -/
  | server {w} (i : ι) {p p' : Io SimpleStorage Unit} {st : SimpleStorage} {inp out : Bytes}
      (hp : (w.lines i).handler = some p)
      (hstep : Prog.Step False p w.storage (w.lines i).toServer p' st inp out) :
      Step w .tau ((Cluster.mk st w.lines).put i
        { w.lines i with
          handler := settle p', toServer := inp, toClient := (w.lines i).toClient ++ out })

/-- A storage, and which connections to it still stand. -/
abbrev Shared (ι : Type) := SimpleStorage × (ι → Bool)

/-- The direct call of the storage by one of the clients. -/
def Cluster.apply (a : Shared ι) (op : ι × Command) : Except Exc Reply × Shared ι :=
  let (res, l) := (Link.mk a.1 (a.2 op.1)).outcome op.2
  (res, l.storage, update a.2 op.1 l.connected)

theorem Cluster.apply_of_ok {a : Shared ι} {i : ι} {command : Command} {r : Reply}
    (hi : a.2 i = true) (h : (command.exec a.1).1 = .ok r) :
    Cluster.apply a (i, command) = (.ok r, (command.exec a.1).2, update a.2 i true) := by
  rw [apply, Link.outcome_of_ok hi h]

theorem Cluster.apply_of_error {a : Shared ι} {i : ι} {command : Command} {e : StorageError}
    (hi : a.2 i = true) (h : (command.exec a.1).1 = .error e) :
    Cluster.apply a (i, command) = (.error lostConnection, a.1, update a.2 i false) := by
  rw [apply, Link.outcome_of_error hi h]

theorem Cluster.apply_of_lost {a : Shared ι} {i : ι} (command : Command) (hi : a.2 i = false) :
    Cluster.apply a (i, command) = (.error lostConnection, a.1, update a.2 i false) := by
  rw [apply, Link.outcome_of_not_connected command hi]

/-! ## Where a client and its handler are -/

/-- What a client is in the middle of, whether its connection stands, and how far its call has
come. -/
inductive Line.At (i : ι) (line : Line) : Bool → Progress (ι × Command) (Except Exc Reply) →
    Prop where
  | idle (hcurrent : line.current = none) (hhandler : line.handler = some serveOnce)
      (hserver : line.toServer = []) (hclient : line.toClient = []) : At i line true .idle
  | idleLost (hcurrent : line.current = none) (hhandler : line.handler = none)
      (hclient : line.toClient = []) :
      At i line false .idle
  /-- The client has `w` of the request to write, and the handler to read `w` after what is on the
  stream. -/
  | sending (command : Command) (w : Bytes) (p : Io SimpleStorage Command) (hfits : command.Fits)
      (hcurrent : line.current = some (do writeAll w; receive command))
      (hhandler : line.handler = some (p >>= processCommand)) (hreader : Reader p)
      (hrun : ∀ more, p.run SimpleStorage.empty (line.toServer ++ (w ++ more)) =
        ⟨.ok command, SimpleStorage.empty, more, []⟩)
      (hclient : line.toClient = []) : At i line true (.called (i, command))
  /-- The handler has `out` of the reply to write, and the client to read it after what is on the
  stream. -/
  | answering (command : Command) (out : Bytes) (q : Io Unit Reply) (r : Reply)
      (hcurrent : line.current = some q) (hreader : Reader q)
        (hhandler : line.handler = settle (writeAll out))
      (hrun : ∀ more, q.run () (line.toClient ++ (out ++ more)) = ⟨.ok r, (), more, []⟩)
      (hserver : line.toServer = []) : At i line true (.done (i, command) (.ok r))
  /-- The handler is gone, in this call or before it, and the client does not know. -/
  | lost (command : Command) (w : Bytes) {p : Progress (ι × Command) (Except Exc Reply)}
      (hcurrent : line.current = some (do writeAll w; receive command))
        (hhandler : line.handler = none)
      (hclient : line.toClient = [])
      (hp : p = .called (i, command) ∨ p = .done (i, command) (.error lostConnection)) :
        At i line false p
  /-- The client has seen the end of the stream. -/
  | raised (command : Command) (hcurrent : line.current = some (raise lostConnection))
      (hhandler : line.handler = none) (hclient : line.toClient = []) :
      At i line false (.done (i, command) (.error lostConnection))

/-- The storage is the one that the calls have made so far, and every client is where its call
is. -/
structure Linked (w : Cluster ι) (o : Atomic (ι × ℕ) (ι × Command) (Except Exc Reply) (Shared ι)) :
    Prop where
  storage : o.state.1 = w.storage
  fits : w.storage.Fits
  line : ∀ i, (w.lines i).At i (o.state.2 i) (o.calls (i, (w.lines i).made))
  later : ∀ i n, (w.lines i).made < n → o.calls (i, n) = .idle

omit [DecidableEq ι] in
theorem linked_init {st : SimpleStorage} (hst : st.Fits) :
    Linked (Cluster.init st : Cluster ι) (.init (st, fun _ ↦ true)) where
  storage := rfl
  fits := hst
  line _ := .idle rfl rfl rfl rfl
  later _ _ _ := rfl

section Steps

variable {w : Cluster ι} {o : Atomic (ι × ℕ) (ι × Command) (Except Exc Reply) (Shared ι)} {i : ι}
  {connected : Bool} {progress : Progress (ι × Command) (Except Exc Reply)}

/-- One client gets on with its call, and the others stay where they are. -/
theorem Linked.put (h : Linked w o) {st : SimpleStorage} (hst : st.Fits) (line : Line)
    (hmade : line.made = (w.lines i).made) (hat : line.At i connected progress) :
    Linked ((Cluster.mk st w.lines).put i line)
      ⟨(st, update o.state.2 i connected), update o.calls (i, (w.lines i).made) progress⟩ where
  storage := rfl
  fits := hst
  line j := by
    by_cases hj : j = i
    · subst hj
      simpa only [Cluster.put, update_self, hmade] using hat
    · have hne : (j, (w.lines j).made) ≠ (i, (w.lines i).made) :=
        fun heq ↦ hj (congrArg Prod.fst heq)
      simpa only [Cluster.put, update_of_ne hj, update_of_ne hne] using h.line j
  later j n hn := by
    by_cases hj : j = i
    · subst hj
      simp only [Cluster.put, update_self, hmade] at hn
      have hne : (j, n) ≠ (j, (w.lines j).made) := fun heq ↦ hn.ne' (congrArg Prod.snd heq)
      simpa only [update_of_ne hne] using h.later j n hn
    · have hne : (j, n) ≠ (i, (w.lines i).made) := fun heq ↦ hj (congrArg Prod.fst heq)
      simp only [Cluster.put, update_of_ne hj] at hn
      simpa only [update_of_ne hne] using h.later j n hn

/-- One client moves, and its call takes no effect. -/
theorem Linked.quiet (h : Linked w o) {line : Line} (hmade : line.made = (w.lines i).made)
    (hat : line.At i (o.state.2 i) (o.calls (i, (w.lines i).made))) :
    Linked (w.put i line) o := by
  have hput := h.put h.fits line hmade hat
  have hw : Cluster.mk o.state.1 w.lines = w := by rw [h.storage]
  rw [update_eq_self, update_eq_self, ← h.storage, hw] at hput
  exact hput

/-- The call of a client takes effect. -/
theorem Linked.effect (h : Linked w o) (op : ι × Command) (line : Line) (hop : op.1 = i)
    (hcalled : o.calls (i, (w.lines i).made) = .called op)
    (hmade : line.made = (w.lines i).made)
    (hfits : (Cluster.apply o.state op).2.1.Fits)
    (hat : line.At i ((Cluster.apply o.state op).2.2 i) (.done op (Cluster.apply o.state op).1)) :
    ∃ o', Atomic.Step Cluster.apply o .tau o' ∧
      Linked ((Cluster.mk (Cluster.apply o.state op).2.1 w.lines).put i line) o' := by
  refine ⟨_, .effect _ _ hcalled, ?_⟩
  have hput := h.put hfits line hmade hat
  have hstate : (Cluster.apply o.state op).2 = ((Cluster.apply o.state op).2.1,
      update o.state.2 i ((Cluster.apply o.state op).2.2 i)) := by
    subst hop
    simp only [Cluster.apply, update_self]
  rw [hstate]
  exact hput

/-- The handler is reading a request. -/
theorem Linked.reading (h : Linked w o) {command : Command} {u : Bytes}
    {p : Io SimpleStorage Command} (hcalled : o.calls (i, (w.lines i).made) = .called (i, command))
    (hi : o.state.2 i = true)
    (hcurrent : (w.lines i).current = some (do writeAll u; receive command)) (hreader : Reader p)
    (hrun : ∀ more, p.run SimpleStorage.empty ((w.lines i).toServer ++ (u ++ more)) =
      ⟨.ok command, SimpleStorage.empty, more, []⟩)
    (hclient : (w.lines i).toClient = []) (hfits : command.Fits)
    {p' : Io SimpleStorage Unit} {st : SimpleStorage} {inp out : Bytes}
    (hstep : Prog.Step False (p >>= processCommand) w.storage (w.lines i).toServer p' st inp out) :
    ∃ o', Atomic.Step Cluster.apply o .tau o' ∧ Linked ((Cluster.mk st w.lines).put i
      { w.lines i with
        handler := settle p', toServer := inp, toClient := (w.lines i).toClient ++ out }) o' := by
  rcases step_bind hstep with ⟨p₁, hstep₁, rfl⟩ | ⟨command', rfl, hstep₁⟩
  · -- one byte of the request is read
    obtain ⟨rfl, rfl, hreader₁, hany⟩ := hreader.step hstep₁
    have hrun₁ (more : Bytes) : p₁.run SimpleStorage.empty (inp ++ (u ++ more)) =
        ⟨.ok command, SimpleStorage.empty, more, []⟩ := by
      rw [← hrun more, run_of_step (hany _) fun h ↦ h.elim]
      rfl
    have hraise (e : Exc) : p₁ ≠ raise e := by
      rintro rfl
      cases congrArg Outcome.result (hrun₁ [])
    refine ⟨o, .stutter, h.quiet rfl ?_⟩
    rw [hi, hcalled]
    refine .sending command u p₁ hfits hcurrent (settle_bind hraise) hreader₁ hrun₁ ?_
    rw [hclient]
    rfl
  · -- the request has been read to its end
    obtain ⟨rfl, rfl, rfl, rfl⟩ := step_processCommand hstep₁
    have hend := hrun []
    rw [List.append_nil] at hend
    obtain ⟨hserver, rfl⟩ := List.append_eq_nil_iff.1 (congrArg Outcome.rest hend)
    obtain rfl := Except.ok.inj (congrArg Outcome.result hend)
    have hstorage := h.storage
    rcases hexec : (command'.exec w.storage).1 with e | r
    · have happly : Cluster.apply o.state (i, command') =
          (.error lostConnection, w.storage, update o.state.2 i false) := by
        rw [← hstorage] at hexec ⊢
        exact Cluster.apply_of_error hi hexec
      have heffect := h.effect (i, command') { w.lines i with handler := none, toClient := [] }
        rfl hcalled rfl
      rw [happly] at heffect
      rw [Command.exec_of_error hexec, hclient]
      refine heffect h.fits ?_
      simp only [update_self]
      exact .lost command' [] hcurrent rfl rfl (.inr rfl)
    · have happly : Cluster.apply o.state (i, command') =
          (.ok r, (command'.exec w.storage).2, update o.state.2 i true) := by
        rw [← hstorage] at hexec ⊢
        exact Cluster.apply_of_ok hi hexec
      have heffect := h.effect (i, command')
        { w.lines i with handler := settle (writeAll r.bytes), toClient := [] } rfl hcalled rfl
      rw [happly] at heffect
      rw [hclient]
      refine heffect (h.fits.exec hfits) ?_
      simp only [update_self]
      refine .answering command' r.bytes (receive command') r hcurrent
        (reader_receive command') rfl ?_ hserver
      exact fun more ↦ reads_receive h.fits hexec more ()

/-- **A step of a handler.** -/
theorem Linked.server (h : Linked w o) {p p' : Io SimpleStorage Unit} {st : SimpleStorage}
    {inp out : Bytes} (hp : (w.lines i).handler = some p)
    (hstep : Prog.Step False p w.storage (w.lines i).toServer p' st inp out) :
    ∃ o', Atomic.Step Cluster.apply o .tau o' ∧ Linked ((Cluster.mk st w.lines).put i
      { w.lines i with
        handler := settle p', toServer := inp, toClient := (w.lines i).toClient ++ out }) o' := by
  have hat := h.line i
  generalize hi : o.state.2 i = connected at hat
  generalize hcalls : o.calls (i, (w.lines i).made) = progress at hat
  cases hat with
  | idle hcurrent hhandler hserver hclient =>
    -- the handler waits for the next command
    obtain rfl := Option.some.inj (hhandler.symm.trans hp)
    rw [hserver] at hstep
    cases hstep with | eof _ _ hfalse => exact hfalse.elim
  | idleLost hcurrent hhandler => simp [hhandler] at hp
  | sending command u q hfits hcurrent hhandler hreader hrun hclient =>
    obtain rfl := Option.some.inj (hhandler.symm.trans hp)
    exact h.reading hcalls hi hcurrent hreader hrun hclient hfits hstep
  | answering command out' q r hcurrent hreader hhandler hrun hserver =>
    rcases out' with _ | ⟨b, out'⟩
    · obtain rfl := Option.some.inj (hhandler.symm.trans hp)
      rw [hserver] at hstep
      cases hstep with | eof _ _ hfalse => exact hfalse.elim
    · obtain rfl := Option.some.inj (hhandler.symm.trans hp)
      cases hstep
      refine ⟨o, .stutter, h.quiet rfl ?_⟩
      rw [hi, hcalls]
      refine .answering command out' q r hcurrent hreader rfl ?_ hserver
      intro more
      rw [← hrun more]
      simp
  | lost command u hcurrent hhandler => simp [hhandler] at hp
  | raised command hcurrent hhandler => simp [hhandler] at hp

/-- The client sees the end of the stream: its call takes effect now, if it has not before. -/
theorem Linked.eof (h : Linked w o) {command : Command} (hi : o.state.2 i = false)
    (hcalls : o.calls (i, (w.lines i).made) = .called (i, command) ∨
      o.calls (i, (w.lines i).made) = .done (i, command) (.error lostConnection)) {line : Line}
    (hmade : line.made = (w.lines i).made)
    (hat : line.At i false (.done (i, command) (.error lostConnection))) :
    ∃ o', Atomic.Step Cluster.apply o .tau o' ∧ Linked (w.put i line) o' := by
  rcases hcalls with hcalled | hdone
  · have happly : Cluster.apply o.state (i, command) =
        (.error lostConnection, w.storage, update o.state.2 i false) := by
      rw [← h.storage]
      exact Cluster.apply_of_lost command hi
    have heffect := h.effect (i, command) line rfl hcalled hmade
    rw [happly] at heffect
    refine heffect h.fits ?_
    simp only [update_self]
    exact hat
  · refine ⟨o, .stutter, h.quiet hmade ?_⟩
    rw [hi, hdone]
    exact hat

/-- **A step of a client within a call.** -/
theorem Linked.client (h : Linked w o) {p p' : Io Unit Reply} {inp out : Bytes}
    (hp : (w.lines i).current = some p)
    (hstep : Prog.Step ((w.lines i).handler = none) p () (w.lines i).toClient p' () inp out) :
    ∃ o', Atomic.Step Cluster.apply o .tau o' ∧ Linked (w.put i
      { w.lines i with
        current := some p', toClient := inp, toServer := (w.lines i).toServer ++ out }) o' := by
  have hat := h.line i
  generalize hi : o.state.2 i = connected at hat
  generalize hcalls : o.calls (i, (w.lines i).made) = progress at hat
  cases hat with
  | idle hcurrent => simp [hcurrent] at hp
  | idleLost hcurrent => simp [hcurrent] at hp
  | sending command u q hfits hcurrent hhandler hreader hrun hclient =>
    obtain rfl := Option.some.inj (hcurrent.symm.trans hp)
    rcases u with _ | ⟨b, u⟩
    · -- the request is written, and the handler has not answered yet
      rw [hclient] at hstep
      obtain ⟨hnone, -⟩ := step_receive hstep
      simp [hhandler] at hnone
    · obtain ⟨rfl, rfl, rfl⟩ := step_writing hstep
      refine ⟨o, .stutter, h.quiet rfl ?_⟩
      rw [hi, hcalls]
      refine .sending command u q hfits rfl hhandler hreader (fun more ↦ ?_) hclient
      rw [← hrun more]
      simp
  | answering command out' q r hcurrent hreader hhandler hrun hserver =>
    obtain rfl := Option.some.inj (hcurrent.symm.trans hp)
    have hopen : (w.lines i).handler ≠ none := by
      rw [hhandler]
      rcases out' with _ | ⟨b, out'⟩
      · exact Option.some_ne_none _
      · exact Option.some_ne_none _
    obtain ⟨-, rfl, hreader', -⟩ := hreader.step hstep
    refine ⟨o, .stutter, h.quiet rfl ?_⟩
    rw [hi, hcalls]
    refine .answering command out' p' r rfl hreader' hhandler (fun more ↦ ?_) ?_
    · rw [← hrun more, run_of_step hstep fun hnone ↦ absurd hnone hopen]
      rfl
    · rw [hserver]
      rfl
  | lost command u hcurrent hhandler hclient hprogress =>
    obtain rfl := Option.some.inj (hcurrent.symm.trans hp)
    rcases u with _ | ⟨b, u⟩
    · rw [hclient] at hstep
      obtain ⟨-, rfl, rfl, -⟩ := step_receive hstep
      rw [← hcalls] at hprogress
      exact h.eof hi hprogress rfl (.raised command rfl hhandler rfl)
    · obtain ⟨rfl, rfl, rfl⟩ := step_writing hstep
      refine ⟨o, .stutter, h.quiet rfl ?_⟩
      rw [hi, hcalls]
      exact .lost command u rfl hhandler hclient hprogress
  | raised command hcurrent =>
    obtain rfl := Option.some.inj (hcurrent.symm.trans hp)
    cases hstep

omit [DecidableEq ι] in
/-- A call that comes to its end has taken effect, with what it returns or throws. -/
theorem Linked.finished (h : Linked w o) {res : Except Exc Reply}
    (hp : (w.lines i).current = some (lift res)) (made : ℕ) :
    ∃ op, o.calls (i, (w.lines i).made) = .done op res ∧
      Line.At i { w.lines i with current := none, made := made } (o.state.2 i) .idle := by
  have hat := h.line i
  generalize o.state.2 i = connected at hat
  generalize o.calls (i, (w.lines i).made) = progress at hat
  cases hat with
  | idle hcurrent => simp [hcurrent] at hp
  | idleLost hcurrent => simp [hcurrent] at hp
  | sending command u q hfits hcurrent =>
    exact absurd (Option.some.inj (hcurrent.symm.trans hp)) (writing_ne_lift _ _ _)
  | answering command out q r hcurrent hreader hhandler hrun hserver =>
    obtain rfl := Option.some.inj (hcurrent.symm.trans hp)
    have hend := hrun []
    rw [List.append_nil] at hend
    rcases res with e | r'
    · cases congrArg Outcome.result hend
    · obtain ⟨hclient, rfl⟩ := List.append_eq_nil_iff.1 (congrArg Outcome.rest hend)
      obtain rfl := Except.ok.inj (congrArg Outcome.result hend)
      exact ⟨_, rfl, .idle rfl hhandler hserver hclient⟩
  | lost command u hcurrent =>
    exact absurd (Option.some.inj (hcurrent.symm.trans hp)) (writing_ne_lift _ _ _)
  | raised command hcurrent hhandler hclient =>
    have hraise := Option.some.inj (hcurrent.symm.trans hp)
    rcases res with e | r
    · cases hraise
      exact ⟨_, rfl, .idleLost rfl hhandler hclient⟩
    · cases hraise

omit [DecidableEq ι] in
/-- A client between two calls. -/
theorem Linked.idle (h : Linked w o) (hidle : (w.lines i).current = none) (command : Command)
    (hfits : command.Fits) : o.calls (i, (w.lines i).made) = .idle ∧
      Line.At i { w.lines i with current := some (call command) } (o.state.2 i)
        (.called (i, command)) := by
  have hat := h.line i
  generalize o.state.2 i = connected at hat
  generalize o.calls (i, (w.lines i).made) = progress at hat
  cases hat with
  | idle hcurrent hhandler hserver hclient =>
    refine ⟨rfl, .sending command (request command) readCommand hfits
      (congrArg some (call_eq command)) hhandler reader_readCommand (fun more ↦ ?_) hclient⟩
    change readCommand.run SimpleStorage.empty ((w.lines i).toServer ++ _) = _
    rw [hserver]
    exact reads_readCommand hfits more _
  | idleLost hcurrent hhandler hclient =>
    exact ⟨rfl, .lost command (request command) (congrArg some (call_eq command)) hhandler hclient
      (.inl rfl)⟩
  | sending _ _ _ _ hcurrent => simp [hcurrent] at hidle
  | answering _ _ _ _ hcurrent => simp [hcurrent] at hidle
  | lost _ _ hcurrent => simp [hcurrent] at hidle
  | raised _ hcurrent => simp [hcurrent] at hidle

/-- A call that has begun can go on. -/
theorem Linked.exists_step (h : Linked w o) (hi : (w.lines i).current ≠ none) :
    ∃ l w', Cluster.Step w l w' ∧ ∀ j, j ≠ i → w'.lines j = w.lines j := by
  have hother (u : Cluster ι) (hu : u.lines = w.lines) (line : Line) (j : ι) (hj : j ≠ i) :
      (u.put i line).lines j = w.lines j := by
    rw [← hu]
    exact update_of_ne hj _ _
  have hat := h.line i
  generalize o.state.2 i = connected at hat
  generalize o.calls (i, (w.lines i).made) = progress at hat
  cases hat with
  | idle hcurrent => exact absurd hcurrent hi
  | idleLost hcurrent => exact absurd hcurrent hi
  | sending command u p hfits hcurrent hhandler hreader hrun =>
    rcases u with _ | ⟨b, u⟩
    · rcases Prog.exists_step False hrun with ⟨rfl, -⟩ | ⟨p', st, inp, out, hstep⟩
      · exact ⟨_, _, .server i hhandler (processCommand_step False command _ _), hother _ rfl _⟩
      · obtain ⟨-, -, -, hany⟩ := hreader.step hstep
        exact ⟨_, _, .server i hhandler ((hany w.storage).bind processCommand), hother _ rfl _⟩
    · exact ⟨_, _, .client i hcurrent (.write _ _ _ _), hother _ rfl _⟩
  | answering command out q r hcurrent hreader hhandler hrun =>
    rcases out with _ | ⟨b, out⟩
    · rcases Prog.exists_step ((w.lines i).handler = none) hrun with ⟨rfl, -⟩ |
        ⟨q', u, inp, out, hstep⟩
      · have hdone : (w.lines i).current = some (lift (.ok r)) := hcurrent
        exact ⟨_, _, .finish i hdone, hother _ rfl _⟩
      · exact ⟨_, _, .client i hcurrent hstep, hother _ rfl _⟩
    · exact ⟨_, _, .server i hhandler (.write _ _ _ _), hother _ rfl _⟩
  | lost command u hcurrent hhandler hclient =>
    rcases u with _ | ⟨b, u⟩
    · obtain ⟨next, hnext, -⟩ := receive_eq (σ := Unit) command
      have hcurrent' : (w.lines i).current = some (read next) :=
        hcurrent.trans (congrArg some hnext)
      have heof : Prog.Step ((w.lines i).handler = none) (read next) () (w.lines i).toClient
          (next none) () [] [] := by
        rw [hclient]
        exact .eof _ _ hhandler
      exact ⟨_, _, .client i hcurrent' heof, hother _ rfl _⟩
    · exact ⟨_, _, .client i hcurrent (.write _ _ _ _), hother _ rfl _⟩
  | raised command hcurrent =>
    have hdone : (w.lines i).current = some (lift (.error lostConnection)) := hcurrent
    exact ⟨_, _, .finish i hdone, hother _ rfl _⟩

end Steps

/-- **One step.**  Whatever happens, the storage and the calls can do the same. -/
theorem Linked.step {w w' : Cluster ι} {l : Label (ι × ℕ) (ι × Command) (Except Exc Reply)}
    {o : Atomic (ι × ℕ) (ι × Command) (Except Exc Reply) (Shared ι)} (h : Linked w o)
    (hstep : Cluster.Step w l w') : ∃ o', Atomic.Step Cluster.apply o l o' ∧ Linked w' o' := by
  cases hstep with
  | call i command hfits hidle =>
    obtain ⟨hcalls, hat⟩ := h.idle hidle command hfits
    refine ⟨_, .call _ _ hcalls, ?_⟩
    have hput := h.put h.fits { w.lines i with current := some (call command) } rfl hat
    have hw : Cluster.mk o.state.1 w.lines = w := by rw [h.storage]
    rw [update_eq_self, ← h.storage, hw] at hput
    exact hput
  | client i hp hstep => exact h.client hp hstep
  | server i hp hstep => exact h.server hp hstep
  | @finish i res hp =>
    obtain ⟨op, hcalls, hat⟩ := h.finished hp ((w.lines i).made + 1)
    refine ⟨_, .ret _ op _ hcalls, h.storage, h.fits, fun j ↦ ?_, fun j n hn ↦ ?_⟩
    · by_cases hj : j = i
      · subst hj
        have hne : (j, (w.lines j).made + 1) ≠ (j, (w.lines j).made) := by simp
        simp only [Cluster.put, update_self, update_of_ne hne, h.later j _ (Nat.lt_succ_self _)]
        exact hat
      · have hne : (j, (w.lines j).made) ≠ (i, (w.lines i).made) :=
          fun heq ↦ hj (congrArg Prod.fst heq)
        simpa only [Cluster.put, update_of_ne hj, update_of_ne hne] using h.line j
    · by_cases hj : j = i
      · subst hj
        simp only [Cluster.put, update_self] at hn
        have hne : (j, n) ≠ (j, (w.lines j).made) := by
          simp only [ne_eq, Prod.mk.injEq, true_and]
          omega
        simpa only [update_of_ne hne] using h.later j n (by omega)
      · have hne : (j, n) ≠ (i, (w.lines i).made) := fun heq ↦ hj (congrArg Prod.fst heq)
        simp only [Cluster.put, update_of_ne hj] at hn
        simpa only [update_of_ne hne] using h.later j n hn

/-- **The server is one storage to all its clients.**  If the strings of the storage fit in a
reader's buffer, then whatever the clients see of it, when their calls begin and what they return or
throw, can be seen of a storage on which each call takes effect at one moment in between, and which
has lost the connection of a client from the first call on that fails.  And no call waits for
another one: its client or its handler can move. -/
theorem cluster_linearizable {st : SimpleStorage} (hst : st.Fits) :
    Linearizable (Cluster.apply (ι := ι)) Cluster.Step (Cluster.init st) (st, fun _ ↦ true) ∧
    ∀ h w, Trace Cluster.Step (Cluster.init st) h w → ∀ i : ι, (w.lines i).current ≠ none →
      ∃ l w', Cluster.Step w l w' ∧ ∀ j, j ≠ i → w'.lines j = w.lines j := by
  have hlinked {h w} (hrun : Trace Cluster.Step (Cluster.init st : Cluster ι) h w) :=
    hrun.simulation (linked_init hst) fun _ _ _ _ hlinked hstep ↦ hlinked.step hstep
  constructor
  · intro h w hrun
    obtain ⟨h', o, hrun', hlabels, -⟩ := hlinked hrun
    exact ⟨h', o, hrun', hlabels⟩
  · intro h w hrun i hi
    obtain ⟨-, o, -, -, hw⟩ := hlinked hrun
    exact hw.exists_step hi

/-- Two clients of an empty storage. -/
theorem cluster_linearizable_two :
    Linearizable (Cluster.apply (ι := Bool)) Cluster.Step (Cluster.init SimpleStorage.empty)
      (SimpleStorage.empty, fun _ ↦ true) := by
  have hst : SimpleStorage.empty.Fits := by
    intro key v h
    cases h
  exact (cluster_linearizable hst).1

end Redis
end ManyTasks
