import ManyTasks.Rpc.Transport

/-!
# What the parties do alone

The client and the server, each with all that it will be sent before it: what they write, what they
return, and which calls the server makes.  `Handled` answers the calls by a `Handler` with a state,
and remembers them.
-/

set_option autoImplicit false

namespace ManyTasks
namespace Rpc

open Io Lib Lib.Proc

variable {P : Protobuf} {σ : Type}

/-- A call of a service. -/
structure Call (P : Protobuf) where
  service : ServiceDescriptor P
  method : MethodDescriptor P
  request : P.Message method.input_type

/-- The services: what a call returns, and how it changes their state. -/
abbrev Handler (P : Protobuf) (σ : Type) : Type :=
  ServiceDescriptor P → (method : MethodDescriptor P) → P.Message method.input_type → σ →
    Except Exception (P.Message method.output_type) × σ

/-- The state of the services, and the calls that have been made. -/
structure Services (P : Protobuf) (σ : Type) where
  state : σ
  calls : List (Call P)

/-- A call has been made. -/
def Services.called (handler : Handler P σ) (s : Services P σ) (c : Call P) : Services P σ :=
  ⟨(handler c.service c.method c.request s.state).2, s.calls ++ [c]⟩

/-- The services answer.  A null pointer has no answer. -/
inductive Handled (handler : Handler P σ) (s : Services P σ) :
    (op : ServerOp P) → ServerRes op → Services P σ → Prop
  | callMethod (service : ServiceDescriptor P) (method : MethodDescriptor P)
      (request : P.Message method.input_type) :
      Handled handler s (.callMethod service method request)
        (handler service method request s.state).1
        (s.called handler ⟨service, method, request⟩)

/-- The server can be reached. -/
inductive Dialled : Unit → (op : ClientOp) → ClientRes op → Unit → Prop
  | dialTCP : Dialled () .dialTCP (.ok ()) ()

/-! ## Reading a frame -/

section Frame

variable {X : Type} {Res : X → Type} {answers : σ → (x : X) → Res x → σ → Prop}
    {ready : Bytes → Prop}
  {o : ByteOrder} {s : Solo UInt8 σ}

theorem yields_readFixedHeader {h : FixedHeader} {rest : Bytes} (hready : ready s.out)
    (hinp : s.inp = h.bytes o ++ rest) :
    Yields (Alone answers ready)
      (FixedHeader.ofBytes o <$> ConnM.readFull Exception.eofException 8 :
        ConnM Exception Res FixedHeader).run s
      (.ok h) (s.skip 8) := by
  have hlen := FixedHeader.length_bytes o h
  have hread : Yields (Alone answers ready)
    (ConnM.readFull Exception.eofException 8 : ConnM Exception Res Bytes).run
      s (.ok (h.bytes o)) (s.skip 8) := hlen ▸ yields_readFull_append hinp hready rfl
  rw [Yields, ExceptT.run_map, map_eq_pure_bind, ends_bind, hread.ends_iff, ends_pure]
  exact ⟨congrArg Except.ok (FixedHeader.ofBytes_bytes o h), rfl⟩

theorem length_frame (o : ByteOrder) (header body : Bytes) :
    (frame o header body).length = 8 + header.length + body.length := by
  rw [frame, List.length_append, List.length_append, FixedHeader.length_bytes]

/-- After the sizes there is the header. -/
theorem inp_skip_eight {header body more : Bytes} (hinp : s.inp = frame o header body ++ more) :
    (s.skip 8).inp = header ++ (body ++ more) := by
  rw [Solo.inp_skip, hinp, frame, List.append_assoc, List.append_assoc]
  exact List.drop_left' (FixedHeader.length_bytes o _)

/-- A frame has been written. -/
def sendFrame (o : ByteOrder) (header body : Bytes) (s : Solo UInt8 σ) : Solo UInt8 σ :=
  ((s.send ((FixedHeader.new header.length body.length).bytes o)).send header).send body

theorem out_sendFrame (o : ByteOrder) (header body : Bytes) (s : Solo UInt8 σ) :
    (sendFrame o header body s).out = s.out ++ frame o header body := by
  simp only [sendFrame, Solo.out_send, frame, List.append_assoc]

/-- What follows three writes of a frame. -/
theorem ends_writeFrame {ε α : Type} {answers : σ → (x : X) → Res x → σ → Prop}
    {Q : Except ε α → Solo UInt8 σ → Prop} {header body : Bytes} {p : ConnM ε Res α}
    (hopen : s.closed = false) :
    Ends (Alone answers ready) Q (do
        ConnProc.write ((FixedHeader.new header.length body.length).bytes o)
        ConnProc.write header
        ConnProc.write body
        p).run s ↔ Ends (Alone answers ready) Q p.run (sendFrame o header body s) := by
  rw [ends_write, ends_write, ends_write, sendFrame] <;> exact hopen

end Frame

/-! ## The server -/

section Server

variable {handler : Handler P σ} {ready : Bytes → Prop} {o : ByteOrder} {server : SimpleRpcServer P}
  {s : Solo UInt8 (Services P σ)} {Q : Except Exception Unit → Solo UInt8 (Services P σ) → Prop}

theorem yields_callMethod (service : ServiceDescriptor P) (method : MethodDescriptor P)
    (request : P.Message method.input_type) :
    Yields (Alone (Handled handler) ready) (callMethod service method request).run s
      (handler service method request s.ext.state).1
      { s with ext := s.ext.called handler ⟨service, method, request⟩ } := by
  refine yields_ask (.ext (.callMethod service method request)) fun r s' h ↦ ?_
  cases h with
  | ext h =>
    cases h
    exact ⟨rfl, rfl⟩

theorem not_ends_nullMethod {f : MethodDescriptor P → ConnM Exception (ServerRes (P := P)) Unit} :
    ¬ Ends (Alone (Handled handler) ready) Q (deref none >>= f).run s := by
  rintro ⟨⟨r, _, _⟩, _⟩
  exact r.elim

/-- The `try` block reads the header, and goes on if it can be parsed. -/
theorem ends_serveRequest {header body more : Bytes} (hready : ready s.out)
    (hheader : header.length < 2 ^ 32)
    (hinp : s.inp = frame o header body ++ more) :
    Ends (Alone (Handled handler) ready) Q (server.serveRequest o).run s ↔
      if (P.requestHeader.parse header).1 = false then
        Q (.error (.runtime_error "invalid msg")) ((s.skip 8).skip header.length)
      else Ends (Alone (Handled handler) ready) Q
        (server.serveMessage o (P.requestHeader.parse header).2 (UInt32.ofNat body.length)).run
        ((s.skip 8).skip header.length) := by
  have hframe : s.inp = (FixedHeader.new header.length body.length).bytes o
    ++ (header ++ (body ++ more)) := by
    rw [hinp, frame, List.append_assoc, List.append_assoc]
  rw [SimpleRpcServer.serveRequest, (yields_readFixedHeader hready hframe).bind,
    (yields_readFull_append (inp_skip_eight hinp) hready
      (FixedHeader.toNat_header_size hheader _)).bind]
  dsimp only
  split
  · exact Iff.rfl
  · exact Iff.rfl

/-- After the header has been parsed: there is no such service, the method is a null pointer, or it
is called. -/
theorem ends_serveMessage {header : RequestHeader} {body more : Bytes} (hinp : s.inp = body ++ more)
    (hready : ready s.out) (hbody : body.length < 2 ^ 32) :
    Ends (Alone (Handled handler) ready) Q
      (server.serveMessage o header (UInt32.ofNat body.length)).run s ↔
      match server.find header.service with
      | none => Q (.error .out_of_range) s
      | some service => match service.findMethodByName header.method with
        | none => False
        | some method => Ends (Alone (Handled handler) ready) Q
            (callMethod service method ((P.codec method.input_type).parse body).2 >>=
              SimpleRpcServer.writeResponse o).run (s.skip body.length) := by
  have hsize : (UInt32.ofNat body.length).toNat = body.length := FixedHeader.toNat_body_size 0 hbody
  rw [SimpleRpcServer.serveMessage, SimpleRpcServer.at']
  rcases server.find header.service with _ | service
  · exact Iff.rfl
  dsimp only
  rw [pure_bind, (yields_readFull_append hinp hready hsize).bind]
  rcases service.findMethodByName header.method with _ | method
  · exact iff_of_false not_ends_nullMethod id
  · rw [deref, pure_bind]

variable (handler ready o) in
theorem yields_writeResponse {d : P.Descriptor} (response : P.Message d)
    (hopen : s.closed = false) :
    Yields (Alone (Handled handler) ready) (SimpleRpcServer.writeResponse o response).run s (.ok ())
      (sendFrame o (P.responseHeader.serialize ⟨none⟩) ((P.codec d).serialize response)
        s).close := by
  rw [Yields, SimpleRpcServer.writeResponse, ends_writeFrame hopen]
  exact yields_closeWrite

/-- The header that is written when something goes wrong. -/
def errorHeader (P : Protobuf) : Bytes := P.responseHeader.serialize ⟨some ⟨"Server error"⟩⟩

variable (handler ready o) in
theorem exists_answerError (hopen : s.closed = false) : ∃ t : Solo UInt8 (Services P σ),
    Yields (Alone (Handled handler) ready) (SimpleRpcServer.answerError P o).run s (.ok ()) t
      ∧ t.inp = s.inp ∧ t.out = s.out ++ frame o (errorHeader P) [] ∧ t.ext = s.ext := by
  refine ⟨((s.send ((FixedHeader.new (errorHeader P).length 0).bytes o)).send
    (errorHeader P)).close, ?_, rfl,
    ?_, rfl⟩
  · rw [Yields, SimpleRpcServer.answerError, ends_write, ends_write]
    · exact yields_closeWrite
    · exact hopen
    · exact hopen
  · simp only [Solo.out_close, Solo.out_send, frame, List.append_nil, List.append_assoc]
    rfl

/-- What the server writes for what a call returns: the header and the body. -/
def reply {d : P.Descriptor} : Except Exception (P.Message d) → Bytes × Bytes
  | .ok response => (P.responseHeader.serialize ⟨none⟩, (P.codec d).serialize response)
  | .error _ => (errorHeader P, [])

section Request

variable {header body more : Bytes} (hinp : s.inp = frame o header body ++ more)
    (hready : ready s.out)
  (hopen : s.closed = false) (hheader : header.length < 2 ^ 32) (hbody : body.length < 2 ^ 32)
include hinp hready hheader

/-- `Serve` reads the header, then its message, then something is written. -/
theorem ends_serveOne :
    Ends (Alone (Handled handler) ready) Q (server.serveOne o).run s ↔
      if (P.requestHeader.parse header).1 = false then
        Ends (Alone (Handled handler) ready) Q (SimpleRpcServer.answerError P o).run
          ((s.skip 8).skip header.length)
      else Ends (Alone (Handled handler) ready)
        (caught Q fun _ s' ↦
          Ends (Alone (Handled handler) ready) Q (SimpleRpcServer.answerError P o).run s')
        (server.serveMessage o (P.requestHeader.parse header).2 (UInt32.ofNat body.length)).run
        ((s.skip 8).skip header.length) := by
  rw [SimpleRpcServer.serveOne, ends_tryCatch, ends_serveRequest hready hheader hinp]
  exact Iff.rfl

include hbody

/-- No answer is written where there is a service, and a null pointer for the method. -/
theorem not_ends_serveOne {service : ServiceDescriptor P}
    (hparse : (P.requestHeader.parse header).1 = true)
    (hservice : server.find (P.requestHeader.parse header).2.service = some service)
    (hmethod : service.findMethodByName (P.requestHeader.parse header).2.method = none) :
    ¬ Ends (Alone (Handled handler) ready) Q (server.serveOne o).run s := by
  rw [ends_serveOne hinp hready hheader, if_neg (by rw [hparse]; decide),
    ends_serveMessage (Solo.inp_skip_append (inp_skip_eight hinp) rfl) hready hbody, hservice]
  dsimp only
  rw [hmethod]
  exact id

include hopen

variable (handler ready) in
/-- A header that cannot be parsed, or names no service, is answered with an error. -/
theorem exists_serveOne_of_bad (hbad : (P.requestHeader.parse header).1 = false
      ∨ server.find (P.requestHeader.parse header).2.service = none) :
    ∃ t : Solo UInt8 (Services P σ), Yields (Alone (Handled handler) ready) (server.serveOne o).run
      s (.ok ()) t
      ∧ t.out = s.out ++ frame o (errorHeader P) [] ∧ t.ext = s.ext := by
  obtain ⟨t, ht, _, hout, hext⟩ := exists_answerError handler ready o
    (s := (s.skip 8).skip header.length) hopen
  refine ⟨t, ?_, hout, hext⟩
  rw [Yields, ends_serveOne hinp hready hheader]
  split
  · exact ht
  · rename_i hparse
    rw [ends_serveMessage (Solo.inp_skip_append (inp_skip_eight hinp) rfl) hready hbody,
      hbad.resolve_left hparse]
    exact ht

variable (handler ready) in
/-- A header that can be parsed, and names a service and one of its methods, is answered by what the
call returns. -/
theorem exists_serveOne_of_call {service : ServiceDescriptor P} {method : MethodDescriptor P}
    (hparse : (P.requestHeader.parse header).1 = true)
    (hservice : server.find (P.requestHeader.parse header).2.service = some service)
    (hmethod : service.findMethodByName (P.requestHeader.parse header).2.method = some method) :
    ∃ t : Solo UInt8 (Services P σ),
      Yields (Alone (Handled handler) ready) (server.serveOne o).run s (.ok ()) t ∧ t.inp = more
        ∧ t.out = s.out ++ frame o
          (reply (handler service method ((P.codec method.input_type).parse body).2
            s.ext.state).1).1
          (reply (handler service method ((P.codec method.input_type).parse body).2
            s.ext.state).1).2
        ∧ t.ext = s.ext.called handler
          ⟨service, method, ((P.codec method.input_type).parse body).2⟩ := by
  have hmessage := Solo.inp_skip_append (inp_skip_eight hinp) rfl
  have hrest := Solo.inp_skip_append hmessage rfl
  simp only [Yields, ends_serveOne hinp hready hheader, hparse, Bool.true_eq_false, if_false,
    ends_serveMessage hmessage hready hbody, hservice, hmethod]
  obtain ⟨s₁, hs₁⟩ : ∃ s₁, s₁ = { ((s.skip 8).skip header.length).skip body.length with
    ext := s.ext.called handler ⟨service, method, ((P.codec method.input_type).parse body).2⟩ } :=
      ⟨_, rfl⟩
  have hopen₁ : s₁.closed = false := by rw [hs₁]; exact hopen
  have hcall : Yields (Alone (Handled handler) ready)
      (callMethod service method ((P.codec method.input_type).parse body).2).run
      (((s.skip 8).skip header.length).skip body.length)
      (handler service method ((P.codec method.input_type).parse body).2 s.ext.state).1 s₁ :=
    hs₁ ▸ yields_callMethod service method ((P.codec method.input_type).parse body).2
  rcases hresult : (handler service method ((P.codec method.input_type).parse body).2 s.ext.state).1
    with e | response
  · rw [hresult] at hcall
    obtain ⟨t, ht, hinp, hout, hext⟩ := exists_answerError handler ready o
      hopen₁
    refine ⟨t, hcall.bind_error.2 ht, hinp.trans ?_, hout.trans ?_, hext.trans ?_⟩
    · rw [hs₁]
      exact hrest
    · rw [hs₁]
      rfl
    · rw [hs₁]
  · rw [hresult] at hcall
    have hwrite := yields_writeResponse handler ready o response hopen₁
    refine ⟨_, hcall.bind.2 (hwrite.ends_iff.2 ⟨rfl, rfl⟩), ?_, ?_, ?_⟩
    · rw [hs₁]
      exact hrest
    · rw [Solo.out_close, out_sendFrame, hs₁]
      rfl
    · rw [hs₁]
      rfl

end Request

end Server

end Rpc
end ManyTasks
