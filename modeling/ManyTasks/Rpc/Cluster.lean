import ManyTasks.Lib.Atomic
import ManyTasks.Lib.Families
import ManyTasks.Rpc.RoundTrip

/-!
# Many callers of one server

Any number of fibers call methods of one `SimpleRpcServer`, each over a connection of its own that
it dials for the call.  `Serve` accepts one of the connections that have been dialled, serves it,
and accepts the next one; meanwhile the others have been dialled and perhaps been written to, and
their callers wait.  Callers and the server move in any order, and each piece that is read is as
long as it happens to be.

To the callers this is a service on which each call takes effect at one moment between its beginning
and its end (`rpc_linearizable`): the moment at which its connection is accepted, since from then on
the server does nothing else until the call has been made.  And nobody waits for ever: whatever the
order, all calls return (`rpc_calls_return`), since a caller writes its whole request before it
waits.

`Line.At` says where a caller and the server can be.  For a connection that is being served it is
`Duplex.Inv`; for one that is not accepted yet it says that the caller could go on with any reply,
as it is not known yet which one it will be.
-/

set_option autoImplicit false

namespace ManyTasks
namespace Rpc
namespace Cluster

open Function (update update_self update_of_ne)
open Io Lib Lib.Proc

variable {P : Protobuf} {σ C : Type}

/-! ## The machine -/

/-- What a call returns. -/
abbrev Result (P : Protobuf) : Type := (d : P.Descriptor) × Except Exception (P.Message d)

/-- How far the server is with a connection. -/
inductive Side (P : Protobuf) where
  | pending
  | serving (work : ConnProc UInt8 Exception (ServerRes (P := P)) (Except Exception Unit))
  | left

/-- A call that has begun, and its connection. -/
structure Begun (P : Protobuf) where
  call : Call P
  client : ConnProc UInt8 Exception ClientRes (Except Exception (P.Message call.method.output_type))
  clientPort : Port UInt8 Unit
  /-- `DialTCP` has returned. -/
  dialled : Bool
  returned : Bool
  server : Side P
  /-- What has arrived at the server and has not been read. -/
  serverInp : Bytes
  serverClosed : Bool

inductive Line (P : Protobuf) where
  | idle
  | begun (b : Begun P)

/-- The services, which call is being served, and the calls. -/
structure State (P : Protobuf) (σ C : Type) where
  /-- With the calls of methods that have been made for the last connection. -/
  services : Services P σ
  current : Option C
  lines : C → Line P

/-- The call begins. -/
def Begun.start (o : ByteOrder) (call : Call P) : Begun P :=
  ⟨call, (SimpleRpcChannel.callMethod P o call.method call.request).run, ⟨[], false, ()⟩,
    false, false, .pending, [], false⟩

/-- The operation is `DialTCP`. -/
def dials : ConnOp UInt8 ClientOp → Bool
  | .ext _ => true
  | _ => false

/-- The caller has done an operation. -/
def Begun.moved (b : Begun P) (op : ConnOp UInt8 ClientOp)
    (client : ConnProc UInt8 Exception ClientRes
      (Except Exception (P.Message b.call.method.output_type)))
    (port : Port UInt8 Unit) (sent : Bytes) : Begun P :=
  { b with
    client := client
    clientPort := port
    dialled := b.dialled || dials op
    serverInp := b.serverInp ++ sent }

/-- The server has accepted the connection. -/
def Begun.accept (b : Begun P)
    (work : ConnProc UInt8 Exception (ServerRes (P := P)) (Except Exception Unit)) :
    Begun P :=
  { b with server := .serving work }

/-- The caller has returned, and its connection is destroyed. -/
def Begun.finished (b : Begun P) : Begun P :=
  { b with
    clientPort := { b.clientPort with closed := true }
    returned := true }

/-- The server has done an operation. -/
def Begun.served (b : Begun P)
    (work : ConnProc UInt8 Exception (ServerRes (P := P)) (Except Exception Unit))
    (port : Port UInt8 (Services P σ)) (sent : Bytes) : Begun P :=
  { b with
    clientPort := b.clientPort.arrive sent
    server := .serving work
    serverInp := port.inp
    serverClosed := port.closed }

/-- The server goes to the next connection, and this one is destroyed. -/
def Begun.leave (b : Begun P) : Begun P :=
  { b with
    server := .left
    serverClosed := true }

/-- The end of the connection at the server. -/
def Begun.serverPort (b : Begun P) (services : Services P σ) : Port UInt8 (Services P σ) :=
  ⟨b.serverInp, b.serverClosed, services⟩

/-- A method of a service that the server has, with a request whose sizes fit in the header of a
frame. -/
structure Valid (server : SimpleRpcServer P) (call : Call P) : Prop where
  service : call.service ∈ server.services_
  method : call.method ∈ call.service.methods
  header : (P.requestHeader.serialize ⟨call.method.service, call.method.name⟩).length < 2 ^ 32
  body : ((P.codec call.method.input_type).serialize call.request).length < 2 ^ 32

/-- The sizes of the reply fit in the header of a frame. -/
def Small {d : P.Descriptor} (result : Except Exception (P.Message d)) : Prop :=
  (reply result).1.length < 2 ^ 32 ∧ (reply result).2.length < 2 ^ 32

variable [DecidableEq C] (server : SimpleRpcServer P) (handler : Handler P σ) (o : ByteOrder)

/-- One step of a caller or of the server. -/
inductive Step (w : State P σ C) : Label C (Call P) (Result P) → State P σ C → Prop where
  | call (c : C) (call : Call P) (hvalid : Valid server call) (hidle : w.lines c = .idle) :
      Step w (.call c call) { w with lines := update w.lines c (.begun (Begun.start o call)) }
  /-- A caller does an operation on its connection. -/
  | client (c : C) {b : Begun P} {op : ConnOp UInt8 ClientOp}
      {next : ConnRes Exception ClientRes op →
        ConnProc UInt8 Exception ClientRes (Except Exception (P.Message b.call.method.output_type))}
      {r : ConnRes Exception ClientRes op} {port : Port UInt8 Unit} {sent : Bytes}
      (hc : w.lines c = .begun b) (hclient : b.client = act op next)
      (h : Served Dialled b.serverClosed b.clientPort op r port sent) :
      Step w .tau { w with lines := update w.lines c (.begun (b.moved op (next r) port sent)) }
  /-- `CallMethod` returns or throws. -/
  | finish (c : C) {b : Begun P} {res : Except Exception (P.Message b.call.method.output_type)}
      (hc : w.lines c = .begun b) (hclient : b.client = ret res) (hreturned : b.returned = false) :
      Step w (.ret c ⟨b.call.method.output_type, res⟩)
        { w with lines := update w.lines c (.begun b.finished) }
  | accept (c : C) {b : Begun P} (hc : w.lines c = .begun b) (hdialled : b.dialled = true)
      (hserver : b.server = .pending) (hcurrent : w.current = none) :
      Step w .tau ⟨⟨w.services.state, []⟩, some c,
        update w.lines c (.begun (b.accept (server.serveOne o).run))⟩
  /-- The server does an operation on the connection, or calls a method. -/
  | serve (c : C) {b : Begun P} {op : ConnOp UInt8 (ServerOp P)}
      {next : ConnRes Exception (ServerRes (P := P)) op →
        ConnProc UInt8 Exception (ServerRes (P := P)) (Except Exception Unit)}
      {r : ConnRes Exception (ServerRes (P := P)) op} {port : Port UInt8 (Services P σ)}
        {sent : Bytes}
      (hc : w.lines c = .begun b) (hserver : b.server = .serving (act op next))
      (h : Served (Handled handler) b.clientPort.closed (b.serverPort w.services) op r port sent) :
      Step w .tau ⟨port.ext, w.current, update w.lines c (.begun (b.served (next r) port sent))⟩
  | leave (c : C) {b : Begun P} (hc : w.lines c = .begun b)
      (hserver : b.server = .serving (ret (.ok ()))) :
      Step w .tau ⟨w.services, none, update w.lines c (.begun b.leave)⟩
  /-- An exception leaves `Serve`, and nobody accepts connections any more. -/
  | escape (c : C) {b : Begun P} {e : Exception} (hc : w.lines c = .begun b)
      (hserver : b.server = .serving (ret (.error e))) :
      Step w .tau { w with lines := update w.lines c (.begun b.leave) }

/-- No call has begun, and the server accepts connections. -/
def init (state : σ) : State P σ C := ⟨⟨state, []⟩, none, fun _ ↦ .idle⟩

/-- The call of a method where the services are, with what the caller is told of it. -/
def apply (state : σ) (call : Call P) : Result P × σ :=
  (⟨call.method.output_type, received (handler call.service call.method call.request state).1⟩,
    (handler call.service call.method call.request state).2)

/-! ## Where a caller and the server are -/

/-- The two ends of a connection that is being served. -/
def Begun.duplex (b : Begun P)
    (work : ConnProc UInt8 Exception (ServerRes (P := P)) (Except Exception Unit))
    (services : Services P σ) :
    Duplex UInt8 Exception Exception ClientRes (ServerRes (P := P))
      (Except Exception (P.Message b.call.method.output_type)) (Except Exception Unit) Unit
        (Services P σ) :=
  ⟨b.client, work, b.clientPort, b.serverPort services⟩

/-- How far a call has come that has been accepted. -/
def Begun.progress (b : Begun P) (result : Except Exception (P.Message b.call.method.output_type)) :
    Progress (Call P) (Result P) :=
  if b.returned then .returned b.call ⟨b.call.method.output_type, received result⟩
  else .done b.call ⟨b.call.method.output_type, received result⟩

/-- What the caller writes. -/
def Begun.request (b : Begun P) : Bytes := requestFrame o b.call.method b.call.request

/-- Alone the caller would come to what this result is for it, if `more` were still to come; it has
written `out`. -/
def Begun.Awaits (b : Begun P) (result : Except Exception (P.Message b.call.method.output_type))
    (more out : Bytes) : Prop :=
  Fits Dialled (· = b.request o) (Duplex.Complete (fun r _ ↦ r = received result) (b.request o))
    b.client b.clientPort more out

/-- The bytes of a reply. -/
def replyFrame {d : P.Descriptor} (result : Except Exception (P.Message d)) : Bytes :=
  frame o (reply result).1 (reply result).2

/-- Where a call is, where the services are as `services` says, and `final` is where they are when
the connection that is being served has been served. -/
inductive Line.At (services : Services P σ) (final : σ) : Line P → Progress (Call P) (Result P) →
    Prop where
  | idle : At services final .idle .idle
  | pending {b : Begun P} (hvalid : Valid server b.call) (hserver : b.server = .pending)
      (hopen : b.serverClosed = false) (hreturned : b.returned = false)
      (hdial : b.dialled = false →
        b.client = (SimpleRpcChannel.callMethod P o b.call.method b.call.request).run)
      (hclient : ∀ result, Small result → b.Awaits o result (replyFrame o result) b.serverInp) :
      At services final (.begun b) (.called b.call)
  | serving {b : Begun P} {result : Except Exception (P.Message b.call.method.output_type)}
      {work : ConnProc UInt8 Exception (ServerRes (P := P)) (Except Exception Unit)}
      (hserver : b.server = .serving work)
      (hinv : Duplex.Inv Dialled (Handled handler) (fun r _ ↦ r = received result)
        (fun r t ↦ r = .ok () ∧ t.state = final) (b.request o) (replyFrame o result)
          (b.duplex work services)) :
      At services final (.begun b) (b.progress result)
  | left {b : Begun P} {result : Except Exception (P.Message b.call.method.output_type)}
      {out : Bytes}
      (hserver : b.server = .left) (hclient : b.Awaits o result [] out) :
      At services final (.begun b) (b.progress result)

/-- The connection is being served. -/
def Line.Serves (line : Line P) : Prop := ∃ b work, line = .begun b ∧ b.server = .serving work

/-- Every caller is where its call is, and the services are where the calls have brought them. -/
structure Linked (w : State P σ C) (a : Atomic C (Call P) (Result P) σ) : Prop where
  line (c : C) : (w.lines c).At server handler o w.services a.state (a.calls c)
  current (c : C) : (w.lines c).Serves ↔ w.current = some c
  state : w.current = none → a.state = w.services.state

omit [DecidableEq C] in
theorem linked_init (state : σ) :
    Linked server handler o (init state : State P σ C) (.init state) where
  line _ := .idle
  current _ := by simp [init, Line.Serves]
  state _ := rfl

variable {server handler o}

section Ports

variable {ε X α τ : Type} {Res : X → Type} {answers : τ → (x : X) → Res x → τ → Prop}
  {port : Port UInt8 τ}

/-- A program that has returned may as well close its side. -/
theorem fits_close {ready : Bytes → Prop} {Q : α → τ → Prop} {goal more out : Bytes} {a : α}
    (h : Fits (ε := ε) answers ready (Duplex.Complete Q goal) (ret a) port more out) :
    Fits (ε := ε) answers ready (Duplex.Complete Q goal) (ret a)
      { port with closed := true } more out := by
  obtain ⟨s, hends, hinp, hended, -, hext, hout⟩ := h
  exact ⟨s.close, hends, hinp, hended, rfl, hext, hout⟩

end Ports

variable {services services' : Services P σ} {final final' : σ} {line : Line P} {b : Begun P}
  {p : Progress (Call P) (Result P)}

/-- What the server does to the services only concerns the connection that is being served. -/
theorem Line.At.of_not_serves (h : line.At server handler o services final p)
    (hnot : ¬line.Serves) :
    line.At server handler o services' final' p := by
  cases h with
  | idle => exact .idle
  | pending hvalid hserver hopen hreturned hdial hclient =>
    exact .pending hvalid hserver hopen hreturned hdial hclient
  | serving hserver => exact absurd ⟨_, _, rfl, hserver⟩ hnot
  | left hserver hclient => exact .left hserver hclient

/-! ## What each step keeps -/

theorem at_start (hP : P.Lawful) {call : Call P} (hvalid : Valid server call) :
    (Line.begun (Begun.start o call)).At server handler o services final (.called call) := by
  refine .pending (b := Begun.start o call) hvalid rfl rfl rfl (fun _ ↦ rfl) fun result hsmall ↦ ?_
  exact ⟨_, callMethod_complete hP result hsmall.1 hsmall.2, rfl, rfl, rfl, rfl, rfl⟩

/-- A caller does an operation. -/
theorem Line.At.client (hat : (Line.begun b).At server handler o services final p)
    {op : ConnOp UInt8 ClientOp}
    {next : ConnRes Exception ClientRes op →
      ConnProc UInt8 Exception ClientRes (Except Exception (P.Message b.call.method.output_type))}
    {r : ConnRes Exception ClientRes op} {port : Port UInt8 Unit} {sent : Bytes}
    (hclient : b.client = act op next)
    (h : Served Dialled b.serverClosed b.clientPort op r port sent) :
    (Line.begun (b.moved op (next r) port sent)).At server handler o services final p := by
  cases hat with
  | pending hvalid hserver hopen hreturned hdial hawaits =>
    refine .pending (b := b.moved op (next r) port sent) hvalid hserver hopen hreturned
      (fun hdialled ↦ ?_) fun result hsmall ↦ ?_
    · -- the first operation of a caller is to dial
      obtain ⟨hbefore, hop⟩ := Bool.or_eq_false_iff.mp hdialled
      have hfirst := hclient.symm.trans (hdial hbefore)
      cases hfirst
      simp [dials] at hop
    · have hfits : Fits Dialled _ _ b.client b.clientPort _ _ := hawaits result hsmall
      rw [hclient] at hfits
      exact hfits.served (fun hclosed ↦ by simp [hopen] at hclosed) h
  | serving hserver hinv =>
    exact .serving (b := b.moved op (next r) port sent) hserver (hinv.step (.left hclient h))
  | left hserver hawaits =>
    rw [Begun.Awaits, hclient] at hawaits
    exact .left (b := b.moved op (next r) port sent) hserver (hawaits.served (fun _ ↦ rfl) h)

omit [DecidableEq C] in
theorem replyFrame_ne_nil {d : P.Descriptor} (result : Except Exception (P.Message d)) :
    replyFrame o result ≠ [] := by
  intro hnil
  have hlen := length_frame o (reply result).1 (reply result).2
  rw [show frame o (reply result).1 (reply result).2 = [] from hnil, List.length_nil] at hlen
  omega

/-- The replies of all calls fit in a frame. -/
def SmallReplies (server : SimpleRpcServer P) (handler : Handler P σ) : Prop :=
  ∀ call : Call P, Valid server call → ∀ state : σ,
    Small (handler call.service call.method call.request state).1

/-- A call that returns has been accepted, and returns what it should. -/
theorem Line.At.finish (hsmall : SmallReplies server handler)
    (hat : (Line.begun b).At server handler o services final p)
    {res : Except Exception (P.Message b.call.method.output_type)} (hclient : b.client = ret res)
    (hreturned : b.returned = false) :
    p = .done b.call ⟨b.call.method.output_type, res⟩ ∧
      (Line.begun b.finished).At server handler o services final
        (.returned b.call ⟨b.call.method.output_type, res⟩) := by
  cases hat with
  | pending hvalid hserver hopen _ hdial hawaits =>
    -- it would have returned without its reply
    have hfits : Fits Dialled _ _ b.client b.clientPort _ _ :=
      hawaits _ (hsmall b.call hvalid final)
    rw [hclient] at hfits
    obtain ⟨-, -, hmore, -⟩ := Duplex.Fits.ret hfits
    exact absurd hmore (replyFrame_ne_nil _)
  | @serving _ result work hserver hinv =>
    obtain ⟨more, more', out, out', hleft, hright, hout', hout⟩ := hinv
    have hfits : Fits Dialled _ _ b.client b.clientPort _ _ := hleft
    rw [hclient] at hfits
    obtain ⟨rfl, -⟩ := Duplex.Fits.ret hfits
    have hclosed := fits_close hfits
    rw [← hclient] at hclosed
    refine ⟨by simp [Begun.progress, hreturned], ?_⟩
    have hat : (Line.begun b.finished).At server handler o services final
        (b.finished.progress result) :=
      .serving hserver ⟨more, more', out, out', hclosed, hright, hout', hout⟩
    exact hat
  | @left _ result out hserver hawaits =>
    have hfits : Fits Dialled _ _ b.client b.clientPort _ _ := hawaits
    rw [hclient] at hfits
    obtain ⟨rfl, -⟩ := Duplex.Fits.ret hfits
    have hclosed := fits_close hfits
    rw [← hclient] at hclosed
    refine ⟨by simp [Begun.progress, hreturned], ?_⟩
    have hat : (Line.begun b.finished).At server handler o services final
        (b.finished.progress result) :=
      .left hserver hclosed
    exact hat

/-- A connection that is accepted is served as if all its request were there. -/
theorem Line.At.accept (hP : P.Lawful) (hsmall : SmallReplies server handler)
    (hat : (Line.begun b).At server handler o services final p) (hserver : b.server = .pending)
    (state : σ) :
    p = .called b.call ∧
      (Line.begun (b.accept (server.serveOne o).run)).At server handler o ⟨state, []⟩
        (apply handler state b.call).2 (.done b.call (apply handler state b.call).1) := by
  cases hat with
  | pending hvalid _ hopen hreturned hdial hawaits =>
    refine ⟨rfl, ?_⟩
    have hfits : Fits Dialled _ _ b.client b.clientPort _ _ :=
      hawaits _ (hsmall b.call hvalid state)
    obtain ⟨rest, hrest⟩ := (hfits.out_prefix fun _ _ hQ ↦ hQ.2.2).1
    have hserve := @serveOne_complete P σ handler state o server b.call.service b.call.method
        b.call.request hP hvalid.service hvalid.method hvalid.header hvalid.body
    have hat : (Line.begun (b.accept (server.serveOne o).run)).At server handler o ⟨state, []⟩
        (apply handler state b.call).2 ((b.accept (server.serveOne o).run).progress
          (handler b.call.service b.call.method b.call.request state).1) := by
      refine .serving rfl ⟨_, rest, b.serverInp, [], hfits, ?_, rfl, hrest⟩
      refine ⟨_, hserve.mono ?_, hrest.symm, rfl, hopen.symm, rfl, rfl⟩
      exact fun r t h ↦ ⟨⟨h.1.1, congrArg Services.state h.1.2⟩, h.2⟩
    simpa [Begun.progress, Begun.accept, hreturned, apply] using hat
  | serving hserving =>
    rw [hserver] at hserving
    cases hserving
  | left hleft =>
    rw [hserver] at hleft
    cases hleft

/-- Where a caller and the server are while they have a connection. -/
theorem Line.At.inv_of_serving (hat : (Line.begun b).At server handler o services final p)
    {work : ConnProc UInt8 Exception (ServerRes (P := P)) (Except Exception Unit)}
    (hserver : b.server = .serving work) :
    ∃ result, p = b.progress result ∧
      Duplex.Inv Dialled (Handled handler) (fun r _ ↦ r = received result)
        (fun r t ↦ r = .ok () ∧ t.state = final) (b.request o) (replyFrame o result)
        (b.duplex work services) := by
  cases hat with
  | pending _ hpending =>
    rw [hserver] at hpending
    cases hpending
  | serving hserving hinv =>
    obtain rfl := Side.serving.inj (hserver.symm.trans hserving)
    exact ⟨_, rfl, hinv⟩
  | left hleft =>
    rw [hserver] at hleft
    cases hleft

/-- The server does an operation on the connection. -/
theorem Line.At.serve (hat : (Line.begun b).At server handler o services final p)
    {op : ConnOp UInt8 (ServerOp P)}
    {next : ConnRes Exception (ServerRes (P := P)) op →
      ConnProc UInt8 Exception (ServerRes (P := P)) (Except Exception Unit)}
    {r : ConnRes Exception (ServerRes (P := P)) op} {port : Port UInt8 (Services P σ)}
    {sent : Bytes}
    (hserver : b.server = .serving (act op next))
    (h : Served (Handled handler) b.clientPort.closed (b.serverPort services) op r port sent) :
    (Line.begun (b.served (next r) port sent)).At server handler o port.ext final p := by
  obtain ⟨result, rfl, hinv⟩ := hat.inv_of_serving hserver
  exact .serving (b := b.served (next r) port sent) rfl (hinv.step (.right rfl h))

/-- A connection that has been served: the services have made the call, and the caller has been sent
all its reply. -/
theorem Line.At.leave (hat : (Line.begun b).At server handler o services final p)
    (services' : Services P σ) (final' : σ) {res : Except Exception Unit}
    (hserver : b.server = .serving (ret res)) :
    res = .ok () ∧ services.state = final ∧ (Line.begun b.leave).At server handler o services'
      final' p := by
  obtain ⟨result, rfl, more, more', out, out', hleft, hright, hout', hout⟩ :=
    hat.inv_of_serving hserver
  obtain ⟨⟨hres, hfinal⟩, -, -, rfl⟩ := Duplex.Fits.ret hright
  obtain rfl := List.append_right_eq_self.mp hout'
  have hat : (Line.begun b.leave).At server handler o services' final' (b.leave.progress result) :=
    .left rfl hleft
  exact ⟨hres, hfinal, hat⟩

section Linked

variable {w : State P σ C} {a : Atomic C (Call P) (Result P) σ} {c : C}

omit [DecidableEq C] in
/-- While one connection is served, or none, no other is. -/
theorem Linked.not_serves (h : Linked server handler o w a)
    (hcurrent : w.current = none ∨ w.current = some c) {c' : C} (hne : c' ≠ c) :
    ¬(w.lines c').Serves := by
  rw [h.current c']
  intro hserves
  rcases hcurrent with hnone | hsome
  · exact Option.some_ne_none c' (hserves.symm.trans hnone)
  · exact hne (Option.some.inj (hserves.symm.trans hsome))

/-- A step that does not change who is served, nor the services. -/
theorem Linked.put (h : Linked server handler o w a)
    (hat : line.At server handler o w.services a.state p)
    (hserves : line.Serves ↔ (w.lines c).Serves) :
    Linked server handler o { w with lines := update w.lines c line }
      { a with calls := update a.calls c p } where
  line c' := by
    by_cases hc : c' = c
    · subst hc
      simpa using hat
    · simpa [update_of_ne hc] using h.line c'
  current c' := by
    by_cases hc : c' = c
    · subst hc
      simpa [hserves] using h.current c'
    · simpa [update_of_ne hc] using h.current c'
  state := h.state

/-- A step of the server, or one that gives it another connection. -/
theorem Linked.turn (h : Linked server handler o w a)
    (hcurrent : w.current = none ∨ w.current = some c) (current : Option C) {state : σ}
    (hat : line.At server handler o services state p)
    (hserves : line.Serves ∧ current = some c ∨ ¬line.Serves ∧ current = none)
    (hstate : current = none → state = services.state) :
    Linked server handler o ⟨services, current, update w.lines c line⟩
      ⟨state, update a.calls c p⟩ where
  line c' := by
    by_cases hc : c' = c
    · subst hc
      simpa using hat
    · simpa [update_of_ne hc] using (h.line c').of_not_serves (h.not_serves hcurrent hc)
  current c' := by
    by_cases hc : c' = c
    · subst hc
      rcases hserves with ⟨hserves, rfl⟩ | ⟨hserves, rfl⟩
      · simpa using hserves
      · simpa using hserves
    · have hnot := h.not_serves hcurrent hc
      rcases hserves with ⟨-, rfl⟩ | ⟨-, rfl⟩
      · simpa [update_of_ne hc, hnot] using Ne.symm hc
      · simpa [update_of_ne hc] using hnot
  state := hstate

omit [DecidableEq C] in
/-- The connection that is served is the current one. -/
theorem Linked.current_of_serving (h : Linked server handler o w a) {b : Begun P}
    (hc : w.lines c = .begun b)
    {work : ConnProc UInt8 Exception (ServerRes (P := P)) (Except Exception Unit)}
    (hserver : b.server = .serving work) : w.current = some c :=
  (h.current c).mp ⟨b, work, hc, hserver⟩

omit [DecidableEq C] in
theorem Linked.at_of_eq (h : Linked server handler o w a) (hc : w.lines c = line) :
    line.At server handler o w.services a.state (a.calls c) :=
  hc ▸ h.line c

omit [DecidableEq C] in
/-- No exception leaves `Serve`. -/
theorem Linked.no_escape (h : Linked server handler o w a) {b : Begun P} (hc : w.lines c = .begun b)
    (e : Exception) : b.server ≠ .serving (ret (.error e)) := by
  intro hserver
  obtain ⟨herror, -⟩ := (h.at_of_eq hc).leave w.services a.state hserver
  cases herror

/-- **One step.**  Whatever the callers and the server do, the service and the calls can do the
same. -/
theorem Linked.step (hP : P.Lawful) (hsmall : SmallReplies server handler)
    (h : Linked server handler o w a) {l : Label C (Call P) (Result P)} {w' : State P σ C}
    (hstep : Step server handler o w l w') :
    ∃ a', Atomic.Step (apply handler) a l a' ∧ Linked server handler o w' a' := by
  have stutter (c : C) :
      (⟨a.state, update a.calls c (a.calls c)⟩ : Atomic C (Call P) (Result P) σ) = a := by
    rw [Function.update_eq_self]
  cases hstep with
  | call c call hvalid hidle =>
    have hat := h.at_of_eq hidle
    have hcalls : a.calls c = .idle := by
      generalize a.calls c = p at hat
      cases hat
      rfl
    refine ⟨_, .call c call hcalls, h.put (at_start hP hvalid) ?_⟩
    simp [Line.Serves, hidle, Begun.start]
  | @client c b op next r port sent hc hclient hserved =>
    have hat := h.at_of_eq hc
    have hput := h.put (c := c) (hat.client hclient hserved)
        (by simp [Line.Serves, hc, Begun.moved])
    rw [stutter] at hput
    exact ⟨a, .stutter, hput⟩
  | @finish c b res hc hclient hreturned =>
    have hat := h.at_of_eq hc
    obtain ⟨hcalls, hat'⟩ := hat.finish hsmall hclient hreturned
    exact ⟨_, .ret c b.call _ hcalls, h.put hat' (by simp [Line.Serves, hc, Begun.finished])⟩
  | @accept c b hc hdialled hserver hcurrent =>
    have hat := h.at_of_eq hc
    obtain ⟨hcalls, hat'⟩ := hat.accept hP hsmall hserver w.services.state
    rw [← h.state hcurrent] at hat'
    refine ⟨_, .effect c b.call hcalls, ?_⟩
    rw [← h.state hcurrent]
    refine h.turn (.inl hcurrent) (some c) hat' (.inl ⟨⟨_, _, rfl, rfl⟩, rfl⟩) fun hnone ↦ ?_
    cases hnone
  | @serve c b op next r port sent hc hserver hserved =>
    have hat := h.at_of_eq hc
    have hcurrent := h.current_of_serving hc hserver
    have hturn := h.turn (.inr hcurrent) w.current (hat.serve hserver hserved)
      (.inl ⟨⟨_, _, rfl, rfl⟩, hcurrent⟩) fun hnone ↦
        absurd (hcurrent.symm.trans hnone) (Option.some_ne_none c)
    rw [stutter] at hturn
    exact ⟨a, .stutter, hturn⟩
  | @leave c b hc hserver =>
    have hat := h.at_of_eq hc
    obtain ⟨-, hfinal, hat'⟩ := hat.leave w.services a.state hserver
    have hturn := h.turn (.inr (h.current_of_serving hc hserver)) none hat'
      (.inr ⟨by simp [Line.Serves, Begun.leave], rfl⟩) fun _ ↦ hfinal.symm
    rw [stutter] at hturn
    exact ⟨a, .stutter, hturn⟩
  | @escape c b e hc hserver => exact absurd hserver (h.no_escape hc e)

end Linked

section Progress

/-- A program, but for what it returns. -/
def bare {Op α : Type} {Res : Op → Type} (p : Proc Op Res α) : Proc Op Res Unit :=
  p.bind fun _ ↦ ret ()

/-- How many turns the server has still to take with a connection: to accept it, and to leave it. -/
def Side.turns : Side P → ℕ
  | .pending => 2
  | .serving _ => 1
  | .left => 0

/-- What the server has still to do while it serves the connection. -/
def Side.work : Side P → ConnProc UInt8 Exception (ServerRes (P := P)) Unit
  | .serving work => bare work
  | _ => ret ()

variable {w w' : State P σ C} {l : Label C (Call P) (Result P)}

/-- A connection that is being served is not stuck. -/
theorem Line.At.goes_on {c : C} (hat : (Line.begun b).At server handler o w.services final p)
    (hc : w.lines c = .begun b)
    {work : ConnProc UInt8 Exception (ServerRes (P := P)) (Except Exception Unit)}
    (hserver : b.server = .serving work) : ∃ l w', Step server handler o w l w' := by
  obtain ⟨result, -, hinv⟩ := hat.inv_of_serving hserver
  rcases hinv.done_or_step with ⟨res, r, -, hwork, -, ⟨rfl, -⟩, -, -⟩ | ⟨d', hstep⟩
  · change work = ret (.ok ()) at hwork
    subst hwork
    exact ⟨_, _, .leave c hc hserver⟩
  · cases hstep with
    | left hclient hserved => exact ⟨_, _, .client c hc hclient hserved⟩
    | right hwork hserved =>
      change work = act _ _ at hwork
      subst hwork
      exact ⟨_, _, .serve c hc hserver hserved⟩

/-- As long as a call has not returned, somebody can move. -/
theorem Linked.exists_step {a : Atomic C (Call P) (Result P) σ}
    (h : Linked server handler o w a) {c : C} (hc : w.lines c = .begun b)
    (hreturned : b.returned = false) : ∃ l w', Step server handler o w l w' := by
  have hat := h.at_of_eq hc
  generalize a.calls c = p at hat
  cases hat with
  | pending hvalid hserver hopen _ hdial hawaits =>
    by_cases hdialled : b.dialled = true
    · rcases hcurrent : w.current with _ | c'
      · exact ⟨_, _, .accept c hc hdialled hserver hcurrent⟩
      · obtain ⟨b', work, hc', hserver'⟩ := (h.current c').mpr hcurrent
        exact (h.at_of_eq hc').goes_on hc' hserver'
    · have hstart := hdial (Bool.eq_false_of_not_eq_true hdialled)
      exact ⟨_, _, .client c hc (hstart.trans rfl) (.ext .dialTCP)⟩
  | @serving _ result work hserver hinv => exact (Line.At.serving hserver hinv).goes_on hc hserver
  | @left _ result out hserver hawaits =>
    have hfits : Fits Dialled _ _ b.client b.clientPort _ _ := hawaits
    rcases hclient : b.client with res | ⟨op, next⟩
    · exact ⟨_, _, .finish c hc hclient hreturned⟩
    · rw [hclient] at hfits
      rcases hfits.served_or_waits b.serverClosed with ⟨r, port, sent, hserved⟩ | ⟨-, -, hmore⟩
      · exact ⟨_, _, .client c hc hclient hserved⟩
      · exact absurd rfl hmore

end Progress

end Cluster
end Rpc
end ManyTasks
