import ManyTasks.Rpc.Wire

/-!
# A call and its answer

A client makes a call of a method that the server has, over a connection on which the two move in
any order and each piece that is read is as long as it happens to be.  Alone, the client writes its
request and then reads a frame (`ends_callMethod`), and the server reads the request and then writes
a frame; so together they come to the end of both (`round_trip`).
-/

set_option autoImplicit false

namespace ManyTasks
namespace Rpc

open Io Lib Lib.Proc

variable {P : Protobuf} {σ : Type}

/-! ## The client -/

section Client

variable {ready : Bytes → Prop} {o : ByteOrder} {method : MethodDescriptor P}
    {request : P.Message method.input_type}
  {s : Solo UInt8 Unit}

theorem yields_dialTCP : Yields (Alone Dialled ready) dialTCP.run s (.ok ()) s := by
  refine yields_ask (.ext .dialTCP) fun r s' h ↦ ?_
  cases h with
  | ext h =>
    cases h
    exact ⟨rfl, rfl⟩

variable (o) in
/-- What the client writes. -/
def requestFrame (method : MethodDescriptor P) (request : P.Message method.input_type) : Bytes :=
  frame o (P.requestHeader.serialize ⟨method.service, method.name⟩)
    ((P.codec method.input_type).serialize request)

/-- The client writes its request and then reads a frame. -/
theorem ends_callMethod
    {Q : Except Exception (P.Message method.output_type) → Solo UInt8 Unit → Prop}
    {header body more : Bytes} {t : Solo UInt8 Unit} (hopen : s.closed = false)
    (ht : t = sendFrame o (P.requestHeader.serialize ⟨method.service, method.name⟩)
      ((P.codec method.input_type).serialize request) s)
    (hready : ready t.out) (hinp : s.inp = frame o header body ++ more)
    (hheader : header.length < 2 ^ 32) (hbody : body.length < 2 ^ 32) :
    Ends (Alone Dialled ready) Q (SimpleRpcChannel.callMethod P o method request).run s ↔
      match (P.responseHeader.parse header).2.rpc_error with
      | some _ => Q (.error (.rpcCallError "Connection error")) ((t.skip 8).skip header.length)
      | none => Q (.ok ((P.codec method.output_type).parse body).2)
          (((t.skip 8).skip header.length).skip body.length) := by
  have hinp' : t.inp = frame o header body ++ more := by rw [ht]; exact hinp
  have hframe : t.inp = (FixedHeader.new header.length body.length).bytes o
    ++ (header ++ (body ++ more)) := by
    rw [hinp', frame, List.append_assoc, List.append_assoc]
  have hmessage := inp_skip_eight hinp'
  rw [SimpleRpcChannel.callMethod, ends_tryCatch, yields_dialTCP.bind]
  dsimp only
  rw [ends_writeFrame hopen, ← ht, (yields_readFixedHeader hready hframe).bind,
    (yields_readFull_append hmessage hready (FixedHeader.toNat_header_size hheader _)).bind]
  rcases (P.responseHeader.parse header).2.rpc_error with _ | rpc_error
  · dsimp only
    rw [(yields_readFull_append (Solo.inp_skip_append hmessage rfl) hready
      (FixedHeader.toNat_body_size _ hbody)).bind]
    exact Iff.rfl
  · exact Iff.rfl

/-- What the client does with what the call returned: it throws an error of its own. -/
def received {d : P.Descriptor} : Except Exception (P.Message d) → Except Exception (P.Message d)
  | .ok response => .ok response
  | .error _ => .error (.rpcCallError "Connection error")

/-- Alone, the client writes the request before it reads, and reads the whole reply. -/
theorem callMethod_complete (hP : P.Lawful)
    (result : Except Exception (P.Message method.output_type))
    (hheader : (reply result).1.length < 2 ^ 32) (hbody : (reply result).2.length < 2 ^ 32) :
    Ends (Alone Dialled (· = requestFrame o method request))
      (Duplex.Complete (fun r _ ↦ r = received result) (requestFrame o method request))
      (SimpleRpcChannel.callMethod P o method request).run
      ⟨frame o (reply result).1 (reply result).2, false, 0, [], false, ()⟩ := by
  have hout := out_sendFrame o (P.requestHeader.serialize ⟨method.service, method.name⟩)
    ((P.codec method.input_type).serialize request)
    (⟨frame o (reply result).1 (reply result).2, false, 0, [], false, ()⟩ : Solo UInt8 Unit)
  have hinp := (List.append_nil (frame o (reply result).1 (reply result).2)).symm
  rw [ends_callMethod rfl rfl hout hinp hheader hbody]
  have hframe : (sendFrame o (P.requestHeader.serialize ⟨method.service, method.name⟩)
      ((P.codec method.input_type).serialize request)
      (⟨frame o (reply result).1 (reply result).2, false, 0, [], false, ()⟩ : Solo UInt8 Unit)).inp
        = frame o (reply result).1 (reply result).2 ++ [] := hinp
  have hmessage := Solo.inp_skip_append (inp_skip_eight hframe) rfl
  cases result with
  | ok response =>
    have hparse := hP.responseHeader ⟨none⟩
    have hmsg := hP.codec method.output_type response
    rw [reply] at hmessage ⊢
    dsimp only at hmessage ⊢
    rw [hparse]
    dsimp only
    rw [hmsg]
    exact ⟨rfl, Solo.inp_skip_append hmessage rfl, hout⟩
  | error e =>
    have hparse := hP.responseHeader ⟨some ⟨"Server error"⟩⟩
    rw [reply] at hmessage ⊢
    dsimp only at hmessage ⊢
    rw [errorHeader, hparse]
    exact ⟨rfl, hmessage, hout⟩

end Client

/-! ## The server -/

/-- Where keys are different, a search finds what has the key. -/
theorem find?_of_nodup {α β : Type} [DecidableEq β] {f : α → β} {l : List α}
    (hnodup : (l.map f).Nodup) {a : α}
    (ha : a ∈ l) : l.find? (fun b ↦ decide (f b = f a)) = some a := by
  induction l with
  | nil => cases ha
  | cons b l ih =>
    rw [List.map_cons, List.nodup_cons] at hnodup
    obtain rfl | ha := List.mem_cons.1 ha
    · exact List.find?_cons_of_pos (decide_eq_true rfl)
    · have hne : f b ≠ f a := fun heq ↦ hnodup.1 (heq ▸ List.mem_map_of_mem ha)
      rw [List.find?_cons_of_neg (by simpa using hne), ih hnodup.2 ha]

section Server

variable {handler : Handler P σ} {state : σ} {o : ByteOrder} {server : SimpleRpcServer P}
  {service : ServiceDescriptor P} {method : MethodDescriptor P}
    {request : P.Message method.input_type}

/-- Alone, the server reads the whole request, makes the call and writes the reply. -/
theorem serveOne_complete (hP : P.Lawful) (hservice : service ∈ server.services_)
    (hmethod : method ∈ service.methods)
    (hheader : (P.requestHeader.serialize ⟨method.service, method.name⟩).length < 2 ^ 32)
    (hbody : ((P.codec method.input_type).serialize request).length < 2 ^ 32) :
    Ends (Alone (Handled handler) fun _ ↦ True)
      (Duplex.Complete
        (fun r t ↦ r = .ok ()
          ∧ t = ⟨(handler service method request state).2, [⟨service, method, request⟩]⟩)
        (frame o (reply (handler service method request state).1).1
          (reply (handler service method request state).1).2))
      (server.serveOne o).run
      ⟨requestFrame o method request, false, 0, [], false, ⟨state, []⟩⟩ := by
  have hparse := hP.requestHeader ⟨method.service, method.name⟩
  have hmessage := hP.codec method.input_type request
  have hfind : server.find method.service = some service := by
    rw [service.service_eq method hmethod]
    exact find?_of_nodup server.nodup hservice
  have hfind' : service.findMethodByName method.name = some method :=
    find?_of_nodup service.nodup hmethod
  obtain ⟨t, ht, hinp, hout, hext⟩ := exists_serveOne_of_call handler (fun _ ↦ True)
    (s := ⟨requestFrame o method request, false, 0, [], false, ⟨state, []⟩⟩)
    (List.append_nil _).symm trivial rfl
    hheader hbody (by rw [hparse]) (by rw [hparse]; exact hfind) (by rw [hparse]; exact hfind')
  rw [hmessage] at hout hext
  exact ht.ends_iff.2 ⟨⟨rfl, hext⟩, hinp, hout⟩

/-- **A call comes back.**  The server makes one call, of that service and that method with that
request, and the client returns what it returned, or throws if it threw; each of the two has read
exactly what the other one wrote.  This is so on every schedule, and however the streams are cut. -/
theorem round_trip (hP : P.Lawful) (handler : Handler P σ) (state : σ) (o : ByteOrder)
    (server : SimpleRpcServer P)
    (hservice : service ∈ server.services_) (hmethod : method ∈ service.methods)
    (request : P.Message method.input_type)
    (hheader : (P.requestHeader.serialize ⟨method.service, method.name⟩).length < 2 ^ 32)
    (hbody : ((P.codec method.input_type).serialize request).length < 2 ^ 32)
    (hheader' : (reply (handler service method request state).1).1.length < 2 ^ 32)
    (hbody' : (reply (handler service method request state).1).2.length < 2 ^ 32) :
    Inevitable (Duplex.Step Dialled (Handled handler))
      (Duplex.Done (fun r _ ↦ r = received (handler service method request state).1)
        fun r t ↦ r = .ok ()
          ∧ t = ⟨(handler service method request state).2, [⟨service, method, request⟩]⟩)
      ⟨(SimpleRpcChannel.callMethod P o method request).run, (server.serveOne o).run,
        ⟨[], false, ()⟩,
        ⟨[], false, ⟨state, []⟩⟩⟩ :=
  Duplex.inevitable (callMethod_complete hP _ hheader' hbody')
    (serveOne_complete hP hservice hmethod hheader hbody)

end Server

theorem round_trip_search :
    Inevitable (Duplex.Step Dialled (Handled Wire.echo))
      (Duplex.Done (fun r _ ↦ r = .ok "test")
        fun r t ↦ r = .ok () ∧ t = ⟨(), [⟨Wire.testService, Wire.search, "test"⟩]⟩)
      ⟨(SimpleRpcChannel.callMethod Wire.protobuf .little Wire.search "test").run,
        (Wire.testServer.serveOne .little).run, ⟨[], false, ()⟩, ⟨[], false, ⟨(), []⟩⟩⟩ :=
  round_trip Wire.protobuf_lawful Wire.echo () .little Wire.testServer List.mem_cons_self
    List.mem_cons_self "test"
    ((Wire.length_requestHeader_le _).trans_lt (by decide))
    ((Wire.length_stringMessage_le _).trans_lt (by decide))
    (by decide) ((Wire.length_stringMessage_le _).trans_lt (by decide))

end Rpc
end ManyTasks
