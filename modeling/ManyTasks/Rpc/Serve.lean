import ManyTasks.Lib.Transition
import ManyTasks.Rpc.Errors

/-!
# The loop of the server

`Serve` accepts a connection, does what is in the `try` block, or in the `catch` block when that
throws, and accepts the next one.  An exception of the `catch` block leaves the loop, and nothing
goes on after a null pointer has been dereferenced.  The answers are any: pieces of any bytes, the
end of the stream, exceptions.

A step is harmless (`Harmless`) if it is not an exception in the `catch` block, and what has been
read on the connection is not a request for a missing method of a registered service.  `survives` is
about the runs whose steps are all harmless.
-/

set_option autoImplicit false

namespace ManyTasks
namespace Rpc

open Io Lib Lib.Proc

variable {P : Protobuf}

/-- What is left of the work on a connection. -/
abbrev Work (P : Protobuf) : Type :=
  ConnProc UInt8 Exception (ServerRes (P := P)) (Except Exception Unit)

/-- An operation that the server asks for. -/
abbrev Asked (P : Protobuf) : Type := ConnOp UInt8 (ServerOp P)

abbrev Answer (op : Asked P) : Type := ConnRes Exception (ServerRes (P := P)) op

/-- What has been asked on a connection, and the answers. -/
abbrev Log (P : Protobuf) : Type := List (Event (Asked P) Answer)

/-- What an answer adds to the bytes that have been read. -/
def input : Event (Asked P) Answer → Bytes
  | ⟨.read _, .ok piece⟩ => piece
  | _ => []

/-- The bytes that have been read. -/
def Log.bytes (log : Log P) : Bytes := log.flatMap input

inductive Block where
  | tryBlock
  | catchBlock
deriving DecidableEq, Repr

/-- Where `Serve` is. -/
inductive Place (P : Protobuf) where
  | accepting
  | inside (block : Block) (work : Work P)
  /-- An exception has left the loop. -/
  | escaped (e : Exception)
  /-- A null pointer has been dereferenced. -/
  | crashed

structure Serving (P : Protobuf) where
  /-- The connections that are finished. -/
  finished : List (Log P)
  /-- The last connection, if it is not finished. -/
  current : Log P
  place : Place P

/-- The answers there are. -/
inductive Possible : (op : Asked P) → Answer op → Prop
  | read {size : ℕ} {piece : Bytes} (hle : piece.length ≤ size) : Possible (.read size) (.ok piece)
  | readThrows {size : ℕ} (e : Exception) : Possible (.read size) (.error e)
  | write {buf : Bytes} (r : Except Exception Unit) : Possible (.write buf) r
  | closeWrite (r : Except Exception Unit) : Possible .closeWrite r
  | callMethod {service : ServiceDescriptor P} {method : MethodDescriptor P}
      {request : P.Message method.input_type}
        (r : Except Exception (P.Message method.output_type)) :
      Possible (.ext (.callMethod service method request)) r

inductive Label (P : Protobuf) where
  | accept
  | answer (op : Asked P) (r : Answer op)
  /-- A null pointer is dereferenced. -/
  | crash
  /-- The end of a block. -/
  | leave

variable (server : SimpleRpcServer P) (o : ByteOrder)

inductive Step : Serving P → Label P → Serving P → Prop
  | accept {finished : List (Log P)} {log : Log P} :
      Step ⟨finished, log, .accepting⟩ .accept
        ⟨finished, [], .inside .tryBlock (server.serveRequest o).run⟩
  | answer {finished : List (Log P)} {log : Log P} {block : Block} {op : Asked P}
      {next : Answer op → Work P} {r : Answer op}
      (h : Possible op r) :
      Step ⟨finished, log, .inside block (act op next)⟩ (.answer op r)
        ⟨finished, log ++ [⟨op, r⟩], .inside block (next r)⟩
  | crash {finished : List (Log P)} {log : Log P} {block : Block} {next : Empty → Work P} :
      Step ⟨finished, log, .inside block (act (.ext .nullMethod) next)⟩ .crash
        ⟨finished, log, .crashed⟩
  | finish {finished : List (Log P)} {log : Log P} {block : Block} :
      Step ⟨finished, log, .inside block (ret (.ok ()))⟩ .leave ⟨finished ++ [log], [], .accepting⟩
  | handle {finished : List (Log P)} {log : Log P} {e : Exception} :
      Step ⟨finished, log, .inside .tryBlock (ret (.error e))⟩ .leave
        ⟨finished, log, .inside .catchBlock (SimpleRpcServer.answerError P o).run⟩
  | escape {finished : List (Log P)} {log : Log P} {e : Exception} :
      Step ⟨finished, log, .inside .catchBlock (ret (.error e))⟩ .leave ⟨finished, log, .escaped e⟩

/-- Before the first connection. -/
def start : Serving P := ⟨[], [], .accepting⟩

/-! ## What is not survived -/

/-- An operation of the connection has thrown. -/
inductive Threw : (op : Asked P) → Answer op → Prop
  | read {size : ℕ} (e : Exception) : Threw (.read size) (.error e)
  | write {buf : Bytes} (e : Exception) : Threw (.write buf) (.error e)
  | closeWrite (e : Exception) : Threw .closeWrite (.error e)

/-- A complete request for a missing method of a registered service. -/
def MissingMethod (bytes : Bytes) : Prop :=
  ∃ header body service, header.length < 2 ^ 32 ∧ body.length < 2 ^ 32 ∧ bytes = frame o header body
    ∧ NamesMethod server header service none

/-- This answer does no harm in this block, after this. -/
def HarmlessIn (block : Block) (log : Log P) (op : Asked P)
    (r : Answer op) : Prop :=
  (block = .catchBlock → ¬ Threw op r) ∧ ¬ MissingMethod server o (Log.bytes (log ++ [⟨op, r⟩]))

/-- No operation throws in the `catch` block, and no missing method is called. -/
def Harmless (s : Serving P) : Label P → Prop
  | .answer op r => ∀ block work, s.place = .inside block work →
      HarmlessIn server o block s.current op r
  | _ => True

/-- A step that is harmless. -/
def HarmlessStep (s s' : Serving P) : Prop := ∃ l, Step server o s l s' ∧ Harmless server o s l

/-! ## One block -/

/-- The answers that do no harm, with what has been asked before as the state. -/
def Met (block : Block) (log : Log P) (op : Asked P) (r : Answer op)
    (log' : Log P) : Prop :=
  Possible op r ∧ HarmlessIn server o block log op r ∧ log' = log ++ [⟨op, r⟩]

/-- What has been read is no request for a missing method. -/
def Clean (log : Log P) : Prop := ¬ MissingMethod server o log.bytes

variable {server o} {log : Log P}

theorem Log.bytes_snoc (log : Log P) (e : Event (Asked P) Answer) :
    Log.bytes (log ++ [e]) = log.bytes ++ input e := by
  rw [bytes, List.flatMap_append, List.flatMap_singleton, bytes]

theorem clean_nil : Clean server o [] := by
  rintro ⟨header, body, _, _, _, hframe, _⟩
  have hlen := congrArg List.length hframe
  rw [length_frame, Log.bytes, List.flatMap_nil, List.length_nil] at hlen
  omega

/-- Every operation but one has a harmless answer. -/
theorem exists_met (block : Block) {op : Asked P} (hop : op ≠ .ext .nullMethod)
    (hblock : ∀ size, op = .read size → block = .tryBlock) (hlog : Clean server o log) :
    ∃ r log', Met server o block log op r log' := by
  obtain ⟨r, hpossible, hthrew, hinput⟩ : ∃ r, Possible op r ∧ (block = .catchBlock → ¬ Threw op r)
      ∧ input (P := P) ⟨op, r⟩ = [] := by
    rcases op with size | buf | _ | ⟨service, method, request⟩ | _
    · refine ⟨_, .readThrows .eofException, fun hb ↦ ?_, rfl⟩
      exact absurd ((hblock size rfl).symm.trans hb) (by decide)
    · exact ⟨_, .write (.ok ()), fun _ ↦ nofun, rfl⟩
    · exact ⟨_, .closeWrite (.ok ()), fun _ ↦ nofun, rfl⟩
    · exact ⟨_, .callMethod (.error .eofException), fun _ ↦ nofun, rfl⟩
    · exact absurd rfl hop
  refine ⟨r, _, hpossible, ⟨hthrew, ?_⟩, rfl⟩
  rw [Log.bytes_snoc, hinput, List.append_nil]
  exact hlog

theorem Met.clean {block : Block} {op : Asked P} {r : Answer op}
    {log' : Log P} (h : Met server o block log op r log') : Clean server o log' := by
  obtain ⟨_, hharmless, rfl⟩ := h
  exact hharmless.2

/-- In the `try` block an operation may have any answer. -/
theorem ends_ask_clean {op : Asked P} (hop : op ≠ .ext .nullMethod) (hlog : Clean server o log) :
    Ends (Met server o .tryBlock) (fun _ log' ↦ Clean server o log') (ask op) log :=
  ⟨exists_met .tryBlock hop (fun _ _ ↦ rfl) hlog, fun _ _ h ↦ h.clean⟩

/-- `ReadFull` reads what it wants, or throws. -/
theorem ends_readFull_clean {size : ℕ} {Q : Except Exception Bytes → Log P → Prop}
    (hlog : Clean server o log)
    (hok : ∀ bytes log', bytes.length = size → log'.bytes = log.bytes ++ bytes →
      Clean server o log' →
      Q (.ok bytes) log')
    (herror : ∀ e log', Clean server o log' → Q (.error e) log') :
    Ends (Met server o .tryBlock) Q
      (ConnM.readFull .eofException size : ConnM Exception (ServerRes (P := P)) Bytes).run log := by
  induction size using Nat.strong_induction_on generalizing log Q with
  | _ size ih =>
    by_cases hzero : size = 0
    · subst hzero
      rw [ConnM.readFull_zero]
      exact hok [] log rfl (List.append_nil _).symm hlog
    rw [ConnM.readFull_of_ne hzero, ExceptT.run_bind, ends_bind]
    refine ⟨exists_met .tryBlock nofun (fun _ _ ↦ rfl) hlog, fun r log' h ↦ ?_⟩
    have hclean := h.clean
    obtain ⟨hpossible, _, rfl⟩ := h
    cases hpossible with
    | readThrows e => exact herror e _ hclean
    | @read _ piece hle =>
      change Ends _ Q (ExceptT.run (if piece = [] then throw .eofException else _)) _
      split
      · exact herror _ _ hclean
      · rename_i hne
        have hpos : 0 < piece.length := List.length_pos_of_ne_nil hne
        rw [ExceptT.run_bind, ends_bind]
        refine ih (size - piece.length) (by omega) hclean (fun bytes log' hlen hbytes hlog' ↦ ?_)
          herror
        refine hok (piece ++ bytes) log' ?_ ?_ hlog'
        · rw [List.length_append]
          omega
        · rw [hbytes, Log.bytes_snoc, List.append_assoc]
          rfl

/-- What has been read for a header and a body is their frame. -/
theorem eq_frame {sizes header body : Bytes} (hsizes : sizes.length = 8)
    (hheader : header.length = (FixedHeader.ofBytes o sizes).header_size.toNat)
    (hbody : body.length = (FixedHeader.ofBytes o sizes).body_size.toNat) :
    sizes ++ header ++ body = frame o header body := by
  have hnew : FixedHeader.new header.length body.length = FixedHeader.ofBytes o sizes := by
    rw [FixedHeader.new, hheader, hbody, UInt32.ofNat_toNat, UInt32.ofNat_toNat]
  rw [frame, hnew, FixedHeader.bytes_ofBytes o hsizes]

/-- The `try` block writes what the call returned. -/
theorem ends_writeResponse_clean {d : P.Descriptor} (response : P.Message d)
    (hlog : Clean server o log) :
    Ends (Met server o .tryBlock) (fun _ log' ↦ Clean server o log')
      (SimpleRpcServer.writeResponse o response).run
      log := by
  refine ends_bind_of_kept (ends_ask_clean nofun hlog) fun _ log hlog ↦ ?_
  refine ends_bind_of_kept (ends_ask_clean nofun hlog) fun _ log hlog ↦ ?_
  refine ends_bind_of_kept (ends_ask_clean nofun hlog) fun _ log hlog ↦ ?_
  exact ends_ask_clean nofun hlog

/-- After the header has been parsed no null pointer is dereferenced. -/
theorem ends_serveMessage_clean {sizes header : Bytes} (hsizes : sizes.length = 8)
    (hheader : header.length = (FixedHeader.ofBytes o sizes).header_size.toNat)
    (hbytes : log.bytes = sizes ++ header) (hparse : (P.requestHeader.parse header).1 = true)
    (hlog : Clean server o log) :
    Ends (Met server o .tryBlock) (fun _ log' ↦ Clean server o log')
      (server.serveMessage o (P.requestHeader.parse header).2
        (FixedHeader.ofBytes o sizes).body_size).run log := by
  rw [SimpleRpcServer.serveMessage, SimpleRpcServer.at']
  rcases hservice : server.find (P.requestHeader.parse header).2.service with _ | service
  · exact hlog
  dsimp only
  rw [pure_bind, ExceptT.run_bind, ends_bind]
  refine ends_readFull_clean hlog (fun body log' hlen hbody hlog' ↦ ?_) fun _ _ hlog' ↦ hlog'
  rcases hmethod : service.findMethodByName (P.requestHeader.parse header).2.method with _ | method
  · -- all that has been read is a request for a missing method
    refine absurd ⟨header, body, service, ?_, ?_, ?_, ⟨hparse, hservice⟩, hmethod⟩ hlog'
    · rw [hheader]
      exact UInt32.toNat_lt _
    · rw [hlen]
      exact UInt32.toNat_lt _
    · rw [hbody, hbytes, eq_frame hsizes hheader hlen]
  · dsimp only
    rw [deref, pure_bind]
    exact ends_bind_of_kept (ends_ask_clean (by simp) hlog') fun response _ hlog' ↦
      ends_writeResponse_clean response hlog'

/-- The `try` block comes to its end, whatever it is answered. -/
theorem ends_serveRequest_clean :
    Ends (Met server o .tryBlock) (fun _ log' ↦ Clean server o log') (server.serveRequest o).run
      [] := by
  rw [SimpleRpcServer.serveRequest, ExceptT.run_bind, ends_bind, ExceptT.run_map, map_eq_pure_bind,
    ends_bind]
  refine ends_readFull_clean clean_nil (fun sizes log hsizes hbytes hlog ↦ ?_) fun _ _ hlog ↦ hlog
  rw [ends_pure]
  dsimp only [Except.map]
  rw [ExceptT.run_bind, ends_bind]
  refine ends_readFull_clean hlog (fun header log' hheader hbytes' hlog' ↦ ?_) fun _ _ hlog' ↦ hlog'
  dsimp only
  split
  · exact hlog'
  · rename_i hparse
    rw [hbytes] at hbytes'
    exact ends_serveMessage_clean hsizes hheader hbytes' (Bool.eq_true_of_not_eq_false hparse) hlog'

/-- In the `catch` block a write does not throw. -/
theorem ends_write_clean {Q : Except Exception Unit → Log P → Prop} {buf : Bytes}
    {f : Unit → ConnM Exception (ServerRes (P := P)) Unit} (hlog : Clean server o log)
    (hf : ∀ log', Clean server o log' → Ends (Met server o .catchBlock) Q (f ()).run log') :
    Ends (Met server o .catchBlock) Q (ConnProc.write buf >>= f).run log := by
  rw [ExceptT.run_bind, ends_bind]
  refine ⟨exists_met .catchBlock nofun nofun hlog, fun r log' h ↦ ?_⟩
  rcases r with e | u
  · exact absurd (.write e) (h.2.1.1 rfl)
  · exact hf log' h.clean

/-- The `catch` block comes to its end, and nothing is thrown. -/
theorem ends_answerError_clean (hlog : Clean server o log) :
    Ends (Met server o .catchBlock) (fun r _ ↦ r = .ok ()) (SimpleRpcServer.answerError P o).run
      log := by
  refine ends_write_clean hlog fun log hlog ↦ ?_
  refine ends_write_clean hlog fun log hlog ↦ ?_
  refine ⟨exists_met .catchBlock nofun nofun hlog, fun r log' h ↦ ?_⟩
  rcases r with e | u
  · exact absurd (.closeWrite e) (h.2.1.1 rfl)
  · rfl

/-! ## The loop -/

/-- What is true at the end of a block. -/
def Good (server : SimpleRpcServer P) (o : ByteOrder) : Block → Except Exception Unit → Log P → Prop
  | .tryBlock, _, log => Clean server o log
  | .catchBlock, r, _ => r = .ok ()

variable (server o) in
/-- The work on the connection comes to its end. -/
def Inv (s : Serving P) : Prop :=
  match s.place with
  | .accepting => True
  | .inside block work => Ends (Met server o block) (Good server o block) work s.current
  | .escaped _ => False
  | .crashed => False

theorem Inv.step {s s' : Serving P} {l : Label P} (hinv : Inv server o s) (h : Step server o s l s')
    (hharmless : Harmless server o s l) : Inv server o s' := by
  cases h with
  | accept => exact ends_serveRequest_clean
  | answer h => exact hinv.2 _ _ ⟨h, hharmless _ _ rfl, rfl⟩
  | crash =>
    obtain ⟨⟨r, _, _⟩, _⟩ := hinv
    exact r.elim
  | finish => trivial
  | handle => exact ends_answerError_clean hinv
  | escape => cases hinv

/-- A connection more is finished, which went on as it had begun, and the next one is accepted. -/
def GoesOn (s s' : Serving P) : Prop :=
  s'.place = .accepting ∧ ∃ log, s'.finished = s.finished ++ [s.current ++ log]

/-- The work on a connection comes to its end. -/
theorem inevitable_inside (s₀ : Serving P) {block : Block} {work : Work P} {log : Log P}
    (more : Log P)
    (hlog : log = s₀.current ++ more) (hcatch : block = .tryBlock → ∀ log more, Clean server o log →
      log = s₀.current ++ more → Inevitable (HarmlessStep server o) (GoesOn s₀)
        ⟨s₀.finished, log, .inside .catchBlock (SimpleRpcServer.answerError P o).run⟩)
    (h : Ends (Met server o block) (Good server o block) work log) :
    Inevitable (HarmlessStep server o) (GoesOn s₀) ⟨s₀.finished, log, .inside block work⟩ := by
  induction work generalizing log more with
  | ret r =>
    rcases r with e | u
    · cases block with
      | tryBlock =>
        refine .later ⟨_, .leave, .handle, trivial⟩ ?_
        rintro s' ⟨l, hs, _⟩
        cases hs with
        | handle => exact hcatch rfl log more h hlog
      | catchBlock => cases h
    · refine .later ⟨_, .leave, .finish, trivial⟩ ?_
      rintro s' ⟨l, hs, _⟩
      cases hs with
      | finish => exact .now ⟨rfl, more, congrArg (fun l ↦ s₀.finished ++ [l]) hlog⟩
  | act op next ih =>
    obtain ⟨⟨r, log', hmet⟩, hnext⟩ := h
    refine .later ⟨_, .answer op r, .answer hmet.1, ?_⟩ ?_
    · rintro _ _ heq
      cases heq
      exact hmet.2.1
    · rintro s' ⟨l, hs, hharmless⟩
      cases hs with
      | @answer _ _ _ _ _ r hpossible =>
        refine ih r (more ++ [⟨op, r⟩]) ?_ (hnext _ _ ⟨hpossible, hharmless _ _ rfl, rfl⟩)
        rw [hlog, List.append_assoc]
      | crash => exact r.elim

theorem Inv.goesOn {s : Serving P} (hinv : Inv server o s) {block : Block} {work : Work P}
    (hplace : s.place = .inside block work) : Inevitable (HarmlessStep server o) (GoesOn s) s := by
  obtain ⟨finished, current, place⟩ := s
  obtain rfl : place = .inside block work := hplace
  refine inevitable_inside ⟨finished, current, .inside block work⟩ [] (List.append_nil _).symm
    (fun _ log more hlog heq ↦ ?_) hinv
  exact inevitable_inside _ more heq nofun (ends_answerError_clean hlog)

/-! ## One connection and the others -/

namespace Serving

/-- All connections. -/
def logs (s : Serving P) : List (Log P) := s.finished ++ [s.current]

variable (server o) in
/-- Each connection has come where `serveOne` comes to with these answers. -/
def Served (s : Serving P) : Prop :=
  (∀ log ∈ s.finished, Path (server.serveOne o).run log (ret (.ok ())))
    ∧ match s.place with
      | .accepting => s.current = []
      | .inside .tryBlock work => Path (server.serveOne o).run s.current
          (tryCatch (ExceptT.mk work) fun _ ↦ SimpleRpcServer.answerError P o).run
      | .inside .catchBlock work => Path (server.serveOne o).run s.current work
      | .escaped e => Path (server.serveOne o).run s.current (ret (.error e))
      | .crashed => ∃ work, Path (server.serveOne o).run s.current work

end Serving

theorem Serving.Served.step {s s' : Serving P} {l : Label P} (hs : s.Served server o)
    (h : Step server o s l s') :
    s'.Served server o := by
  obtain ⟨hfinished, hcurrent⟩ := hs
  cases h with
  | accept => exact ⟨hfinished, .nil⟩
  | @answer _ log block op next r _ =>
    refine ⟨hfinished, ?_⟩
    cases block with
    | tryBlock => exact hcurrent.snoc_tryCatch r
    | catchBlock => exact Path.snoc hcurrent r
  | @crash _ _ block next =>
    refine ⟨hfinished, ?_⟩
    cases block with
    | tryBlock => exact ⟨_, hcurrent⟩
    | catchBlock => exact ⟨_, hcurrent⟩
  | @finish _ log block =>
    refine ⟨fun log' hlog' ↦ ?_, rfl⟩
    obtain hlog' | hlog' := List.mem_append.1 hlog'
    · exact hfinished log' hlog'
    · rw [List.mem_singleton.1 hlog']
      cases block with
      | tryBlock => exact hcurrent
      | catchBlock => exact hcurrent
  | handle => exact ⟨hfinished, hcurrent⟩
  | escape => exact ⟨hfinished, hcurrent⟩

theorem Serving.served {h : List (Serving P × Label P)} {s : Serving P}
    (hrun : Trace (Step server o) start h s) :
    s.Served server o := by
  refine hrun.invariant (I := fun _ s ↦ s.Served server o) ⟨nofun, rfl⟩ ?_
  exact fun _ _ _ _ hs hstep ↦ hs.step hstep

theorem Serving.Served.path {s : Serving P} (hs : s.Served server o) {log : Log P}
    (hlog : log ∈ s.logs) :
    ∃ work, Path (server.serveOne o).run log work := by
  obtain ⟨hfinished, hcurrent⟩ := hs
  obtain hlog | hlog := List.mem_append.1 hlog
  · exact ⟨_, hfinished log hlog⟩
  rw [List.mem_singleton.1 hlog]
  obtain ⟨finished, current, _ | ⟨_ | _, work⟩ | e | _⟩ := s
  · obtain rfl : current = [] := hcurrent
    exact ⟨_, .nil⟩
  · exact ⟨_, hcurrent⟩
  · exact ⟨_, hcurrent⟩
  · exact ⟨_, hcurrent⟩
  · exact hcurrent

/-- What is asked next on a connection depends on what has been answered on this one. -/
def Independent (s s' : Serving P) : Prop :=
  ∀ answered op r more op' r' more', answered ++ ⟨op, r⟩ :: more ∈ s.logs →
    answered ++ ⟨op', r'⟩ :: more' ∈ s'.logs →
    op = op'

theorem Serving.Served.independent {s s' : Serving P} (hs : s.Served server o)
    (hs' : s'.Served server o) :
    Independent s s' := by
  intro answered op r more op' r' more' hlog hlog'
  obtain ⟨work, hpath⟩ := hs.path hlog
  obtain ⟨work', hpath'⟩ := hs'.path hlog'
  exact hpath.op_unique hpath'

/-! ## All connections -/

variable (server o) in
/-- The loop survives. -/
structure Survives (s : Serving P) : Prop where
  not_escaped (e : Exception) : s.place ≠ .escaped e
  not_crashed : s.place ≠ .crashed
  goesOn {block : Block} {work : Work P} (h : s.place = .inside block work) :
    Inevitable (HarmlessStep server o) (GoesOn s) s
  served : ∀ log ∈ s.finished, Path (server.serveOne o).run log (ret (.ok ()))

theorem Inv.survives_of_served {s : Serving P} (hinv : Inv server o s) (hs : s.Served server o) :
    Survives server o s where
  not_escaped e h := by rwa [Inv, h] at hinv
  not_crashed h := by rwa [Inv, h] at hinv
  goesOn := hinv.goesOn
  served := hs.1

/-- **The server survives its clients**, in all runs whose steps are harmless.  And in all runs, if
two connections, of one run or of two, have been given the same answers, they are asked the same
next. -/
theorem survives {h : List (Serving P × Label P)} {s : Serving P}
    (hrun : Trace (Step server o) start h s)
    (hharmless : ∀ x ∈ h, Harmless server o x.1 x.2) :
    Survives server o s ∧ ∀ h' s', Trace (Step server o) start h' s' → Independent s s' := by
  have hinv : Inv server o s :=
    hrun.invariant_of_forall hharmless trivial fun _ _ _ hinv hstep hC ↦ hinv.step hstep hC
  have hs := Serving.served hrun
  exact ⟨hinv.survives_of_served hs, fun h' s' hrun' ↦ hs.independent (Serving.served hrun')⟩

/-- A write that throws is the last of the operations. -/
theorem path_write {buf : Bytes} {f : Unit → ConnM Exception (ServerRes (P := P)) Unit}
    {work : Work P}
    (hpath : Path (ConnProc.write buf >>= f).run log work) {op : Asked P}
    {r : Answer op} (hmem : ⟨op, r⟩ ∈ log) (hthrew : Threw op r) :
    (∃ e, work = ret (.error e)) ∨ ∃ log', Path (f ()).run log' work ∧ ⟨op, r⟩ ∈ log' := by
  obtain rfl | ⟨r₁, log', rfl, hrest⟩ := hpath.act_inv
  · cases hmem
  rcases r₁ with e | u
  · exact Or.inl ⟨e, hrest.ret_inv.2⟩
  · refine Or.inr ⟨log', hrest, ?_⟩
    obtain heq | hmem := List.mem_cons.1 hmem
    · cases heq
      cases hthrew
    · exact hmem

/-- The condition is needed: what an operation of the `catch` block throws leaves the block. -/
theorem eq_error_of_threw {work : Work P}
    (hpath : Path (SimpleRpcServer.answerError P o).run log work)
    {op : Asked P} {r : Answer op} (hmem : ⟨op, r⟩ ∈ log)
    (hthrew : Threw op r) : ∃ e, work = ret (.error e) := by
  obtain h | ⟨log₁, hpath₁, hmem₁⟩ := path_write hpath hmem hthrew
  · exact h
  obtain h | ⟨log₂, hpath₂, hmem₂⟩ := path_write hpath₁ hmem₁ hthrew
  · exact h
  obtain rfl | ⟨r₁, log₃, rfl, hpath₃⟩ := hpath₂.act_inv
  · cases hmem₂
  obtain ⟨rfl, rfl⟩ := hpath₃.ret_inv
  cases List.mem_singleton.1 hmem₂
  cases hthrew with
  | closeWrite e => exact ⟨e, rfl⟩

/-! ## A connection that is reset -/

theorem exists_serveRequest_run (server : SimpleRpcServer P) (o : ByteOrder) :
    ∃ next, (server.serveRequest o).run = act (.read 8) next
      ∧ ∀ e, next (.error e) = ret (.error e) := by
  rw [SimpleRpcServer.serveRequest, ConnM.readFull_of_ne (by decide)]
  exact ⟨_, rfl, fun _ ↦ rfl⟩

/-- The first read throws. -/
theorem exists_trace_reset (server : SimpleRpcServer P) (o : ByteOrder) (e : Exception) :
    ∃ h, Trace (Step server o) start h
      ⟨[], [⟨.read 8, .error e⟩], .inside .tryBlock (ret (.error e))⟩
      ∧ ∀ x ∈ h, Harmless server o x.1 x.2 := by
  obtain ⟨next, hrun, hnext⟩ := exists_serveRequest_run server o
  have hread : Step server o ⟨[], [], .inside .tryBlock (act (.read 8) next)⟩
    (.answer (.read 8) (.error e))
      ⟨[], [⟨.read 8, .error e⟩], .inside .tryBlock (ret (.error e))⟩ :=
        hnext e ▸ .answer (.readThrows e)
  have haccept :
    Step server o start .accept ⟨[], [], .inside .tryBlock (server.serveRequest o).run⟩ := .accept
  refine ⟨_, (Trace.nil.snoc haccept).snoc (hrun ▸ hread), ?_⟩
  rintro x hx
  obtain rfl | rfl := List.mem_pair.1 hx
  · trivial
  · rintro block work heq
    cases heq
    exact ⟨nofun, clean_nil⟩

theorem survives_reset :
    Survives Wire.testServer .little
      ⟨[], [⟨.read 8, .error (.other 104)⟩], .inside .tryBlock (ret (.error (.other 104)))⟩ := by
  obtain ⟨h, hrun, hharmless⟩ := exists_trace_reset Wire.testServer .little (.other 104)
  exact (survives hrun hharmless).1

/-- When the connection has been reset, the answer cannot be written. -/
theorem not_survives_write :
    ¬ ∀ h s, Trace (Step Wire.testServer .little) start h s →
      Survives Wire.testServer .little s := by
  intro hall
  obtain ⟨h, hrun, _⟩ := exists_trace_reset Wire.testServer .little (.other 104)
  obtain ⟨next, hnext, hthrow⟩ : ∃ next, (SimpleRpcServer.answerError Wire.protobuf .little).run
      = act (.write ((FixedHeader.new (errorHeader Wire.protobuf).length 0).bytes .little)) next
        ∧ next (.error (.other 32)) = ret (.error (.other 32)) := ⟨_, rfl, rfl⟩
  have hwrite := hnext ▸ hrun.snoc .handle
  have hescape := hthrow ▸ hwrite.snoc (.answer (.write (.error (.other 32))))
  exact (hall _ _ (hescape.snoc .escape)).not_escaped _ rfl

end Rpc
end ManyTasks
