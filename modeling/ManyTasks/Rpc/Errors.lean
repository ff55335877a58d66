import ManyTasks.Rpc.Wire

/-!
# Bad requests

A request is bad if its header cannot be parsed, names no registered service or none of its methods,
if its body cannot be parsed, or if the handler throws.  It is to be answered with an error, and the
handler is to see parsed requests only.

The server does so, but for two kinds of requests to a registered service (`Unhandled`).  The null
pointer for a missing method is dereferenced, and what `ParseFromString` returns for the body is not
looked at.
-/

set_option autoImplicit false

namespace ManyTasks
namespace Rpc

open Io Lib Lib.Proc

variable {P : Protobuf} {σ : Type}

/-- The header can be parsed, and names this service. -/
def NamesService (server : SimpleRpcServer P) (header : Bytes) (service : ServiceDescriptor P) :
    Prop :=
  (P.requestHeader.parse header).1 = true
    ∧ server.find (P.requestHeader.parse header).2.service = some service

/-- The header can be parsed, and names this service and this method of it, or a missing one. -/
def NamesMethod (server : SimpleRpcServer P) (header : Bytes) (service : ServiceDescriptor P)
    (method : Option (MethodDescriptor P)) : Prop :=
  NamesService server header service
    ∧ service.findMethodByName (P.requestHeader.parse header).2.method = method

/-- The requests that are to be answered with an error. -/
inductive BadRequest (server : SimpleRpcServer P) (handler : Handler P σ) (state : σ)
    (header body : Bytes) : Prop
  | header (h : (P.requestHeader.parse header).1 = false)
  | service (hparse : (P.requestHeader.parse header).1 = true)
      (h : server.find (P.requestHeader.parse header).2.service = none)
  | method {service : ServiceDescriptor P} (h : NamesMethod server header service none)
  | body {service : ServiceDescriptor P} {method : MethodDescriptor P}
      (hmethod : NamesMethod server header service (some method))
      (h : ((P.codec method.input_type).parse body).1 = false)
  | handler {service : ServiceDescriptor P} {method : MethodDescriptor P}
      (hmethod : NamesMethod server header service (some method))
      (hbody : ((P.codec method.input_type).parse body).1 = true) {e : Exception}
      (h : (handler service method ((P.codec method.input_type).parse body).2 state).1 = .error e)

/-- The requests that the server does not expect: the method is missing, or the body cannot be
parsed. -/
inductive Unhandled (server : SimpleRpcServer P) (header body : Bytes) : Prop
  | method {service : ServiceDescriptor P} (h : NamesMethod server header service none)
  | body {service : ServiceDescriptor P} {method : MethodDescriptor P}
      (hmethod : NamesMethod server header service (some method))
      (h : ((P.codec method.input_type).parse body).1 = false)

/-- The request has arrived, and perhaps more. -/
def arrived (o : ByteOrder) (header body more : Bytes) (ended : Bool) (state : σ) :
    Solo UInt8 (Services P σ) :=
  ⟨frame o header body ++ more, ended, 0, [], false, ⟨state, []⟩⟩

/-- One frame with an error has been written, and only parsed requests have been handled. -/
def ErrorSent (o : ByteOrder) (body : Bytes) (s : Solo UInt8 (Services P σ)) : Prop :=
  (∃ header error, header.length < 2 ^ 32 ∧ P.responseHeader.parse header = (true, ⟨some error⟩)
      ∧ s.out = frame o header [])
    ∧ ∀ call ∈ s.ext.calls, (P.codec call.method.input_type).parse body = (true, call.request)

/-- `Serve` is done with the connection, and an error has been sent.  No null pointer has been
dereferenced, since there is no answer to that. -/
def Answered (server : SimpleRpcServer P) (o : ByteOrder) (handler : Handler P σ) (state : σ)
    (header body more : Bytes) (ended : Bool) : Prop :=
  Ends (Alone (Handled handler) fun _ ↦ True) (fun r s ↦ r = .ok () ∧ ErrorSent o body s)
    (server.serveOne o).run
    (arrived o header body more ended state)

variable {server : SimpleRpcServer P} {o : ByteOrder} {handler : Handler P σ} {state : σ}
    {header body : Bytes}
  {service : ServiceDescriptor P}

/-- A header names one service and one method. -/
theorem NamesMethod.unique {service' : ServiceDescriptor P}
    {method method' : Option (MethodDescriptor P)}
    (h : NamesMethod server header service method)
    (h' : NamesMethod server header service' method') :
    service = service' ∧ method = method' := by
  obtain rfl : service = service' := Option.some.inj (h.1.2.symm.trans h'.1.2)
  exact ⟨rfl, h.2.symm.trans h'.2⟩

/-- What a request to a method that is there must not be. -/
theorem not_unhandled {method : MethodDescriptor P}
    (hmethod : NamesMethod server header service (some method))
    (hbody : ((P.codec method.input_type).parse body).1 = true) :
    ¬ Unhandled server header body := by
  intro h
  cases h with
  | method h => exact Option.some_ne_none _ (hmethod.unique h).2
  | body h hfalse =>
    obtain rfl := Option.some.inj (hmethod.unique h).2
    rw [hbody] at hfalse
    cases hfalse

theorem errorSent_of_out (hP : P.Lawful) (herror : (errorHeader P).length < 2 ^ 32)
    {s : Solo UInt8 (Services P σ)} (hout : s.out = frame o (errorHeader P) [])
    (hcalls : ∀ call ∈ s.ext.calls, (P.codec call.method.input_type).parse body
      = (true, call.request)) :
    ErrorSent o body s :=
  ⟨⟨errorHeader P, _, herror, hP.responseHeader _, hout⟩, hcalls⟩

section Complete

variable (hheader : header.length < 2 ^ 32) (hbody : body.length < 2 ^ 32) (more : Bytes)
    (ended : Bool)
include hheader hbody

/-- A header that cannot be parsed, or names no service, is answered. -/
theorem answered_of_bad (hP : P.Lawful) (herror : (errorHeader P).length < 2 ^ 32)
    (hbad : (P.requestHeader.parse header).1 = false
      ∨ server.find (P.requestHeader.parse header).2.service = none) :
    Answered server o handler state header body more ended := by
  obtain ⟨t, ht, hout, hext⟩ := exists_serveOne_of_bad handler (fun _ ↦ True)
    (s := arrived o header body more ended state) rfl trivial rfl hheader hbody hbad
  refine ht.ends_iff.2 ⟨rfl, errorSent_of_out hP herror hout fun call hcall ↦ ?_⟩
  rw [hext] at hcall
  cases hcall

/-- A request to a method that is there is answered when its body can be parsed and the handler
throws. -/
theorem answered_of_throws (hP : P.Lawful) (herror : (errorHeader P).length < 2 ^ 32)
    {method : MethodDescriptor P}
    (hmethod : NamesMethod server header service (some method))
    (hparse : ((P.codec method.input_type).parse body).1 = true) {e : Exception}
    (hthrows : (handler service method ((P.codec method.input_type).parse body).2 state).1
      = .error e) :
    Answered server o handler state header body more ended := by
  obtain ⟨t, ht, _, hout, hext⟩ := exists_serveOne_of_call handler (fun _ ↦ True)
    (s := arrived o header body more ended state) rfl trivial rfl hheader hbody hmethod.1.1
    hmethod.1.2 hmethod.2
  have hreply : (handler service method ((P.codec method.input_type).parse body).2
      (arrived (P := P) o header body more ended state).ext.state).1 = .error e := hthrows
  rw [hreply] at hout
  refine ht.ends_iff.2 ⟨rfl, errorSent_of_out hP herror hout fun call hcall ↦ ?_⟩
  rw [hext] at hcall
  rw [List.mem_singleton.1 hcall]
  exact Prod.ext hparse rfl

/-- A request whose body cannot be parsed is handled. -/
theorem not_answered_of_body {method : MethodDescriptor P}
    (hmethod : NamesMethod server header service (some method))
    (hparse : ((P.codec method.input_type).parse body).1 = false) :
    ¬ Answered server o handler state header body more ended := by
  obtain ⟨t, ht, _, _, hext⟩ := exists_serveOne_of_call handler (fun _ ↦ True)
    (s := arrived o header body more ended state) rfl trivial rfl hheader hbody hmethod.1.1
    hmethod.1.2 hmethod.2
  intro h
  have hcall := (ht.ends_iff.1 h).2.2 ⟨service, method, ((P.codec method.input_type).parse body).2⟩
    (hext ▸ List.mem_singleton_self _)
  rw [hcall] at hparse
  cases hparse

/-- **Bad requests are answered with an error**, unless they go to a registered service and either
its method is missing or the body cannot be parsed. -/
theorem answered_iff (hP : P.Lawful) (herror : (errorHeader P).length < 2 ^ 32)
    (hbad : BadRequest server handler state header body) :
    Answered server o handler state header body more ended ↔ ¬ Unhandled server header body := by
  cases hbad with
  | header h =>
    refine iff_of_true (answered_of_bad hheader hbody more ended hP herror (Or.inl h)) ?_
    rintro (h' | h')
    · exact Bool.false_ne_true (h.symm.trans h'.1.1)
    · exact Bool.false_ne_true (h.symm.trans h'.1.1)
  | service _ h =>
    refine iff_of_true (answered_of_bad hheader hbody more ended hP herror (Or.inr h)) ?_
    rintro (h' | h')
    · exact Option.some_ne_none _ (h'.1.2.symm.trans h)
    · exact Option.some_ne_none _ (h'.1.2.symm.trans h)
  | method h =>
    refine iff_of_false ?_ (not_not.2 (.method h))
    exact not_ends_serveOne rfl trivial hheader hbody h.1.1 h.1.2 h.2
  | body hmethod h =>
    exact iff_of_false (not_answered_of_body hheader hbody more ended hmethod h)
      (not_not.2 (.body hmethod h))
  | handler hmethod hparse h =>
    exact iff_of_true (answered_of_throws hheader hbody more ended hP herror hmethod hparse h)
      (not_unhandled hmethod hparse)

end Complete

/-! ## Requests to `TestService` -/

theorem length_headerOf_lt {method : String} (hmethod : method.utf8ByteSize ≤ 1000) :
    (Wire.headerOf method).length < 2 ^ 32 := by
  have hle := Wire.length_requestHeader_le ⟨"cactus.TestService", method⟩
  have hservice : "cactus.TestService".utf8ByteSize = 18 := by decide
  rw [Wire.headerOf]
  dsimp only at hle
  omega

theorem namesService_headerOf (method : String) :
    NamesService Wire.testServer (Wire.headerOf method) Wire.testService := by
  have hparse : Wire.protobuf.requestHeader.parse (Wire.headerOf method)
    = (true, ⟨"cactus.TestService", method⟩) :=
    Wire.requestHeader_lawful ⟨"cactus.TestService", method⟩
  rw [NamesService, hparse]
  exact ⟨rfl, rfl⟩

theorem namesMethod_headerOf (method : String) :
    NamesMethod Wire.testServer (Wire.headerOf method) Wire.testService
      (Wire.testService.findMethodByName method) := by
  have hparse : Wire.protobuf.requestHeader.parse (Wire.headerOf method)
    = (true, ⟨"cactus.TestService", method⟩) :=
    Wire.requestHeader_lawful ⟨"cactus.TestService", method⟩
  refine ⟨namesService_headerOf method, ?_⟩
  rw [hparse]

theorem answered_iff_throws :
    Answered Wire.testServer .little (fun _ _ _ _ ↦ (.error (.runtime_error "pong"), ())) ()
      (Wire.headerOf "Search") [] [] false :=
  (answered_iff (length_headerOf_lt (by decide)) (by decide) [] false Wire.protobuf_lawful
    ((Wire.length_errorHeader_le _).trans_lt (by decide))
    (.handler (namesMethod_headerOf "Search") (by decide) rfl)).2
    (not_unhandled (namesMethod_headerOf "Search") (by decide))

/-- There is no method `Absent`, and a request cannot be parsed that is the byte 255. -/
theorem not_answered_absent_invalid :
    (BadRequest Wire.testServer Wire.echo () (Wire.headerOf "Absent") []
        ∧ ¬ Answered Wire.testServer .little Wire.echo () (Wire.headerOf "Absent") [] [] true)
      ∧ BadRequest Wire.testServer Wire.echo () (Wire.headerOf "Search") [255]
        ∧ ¬ Answered Wire.testServer .little Wire.echo () (Wire.headerOf "Search") [255]
          [] true := by
  have habsent := namesMethod_headerOf "Absent"
  have hsearch := namesMethod_headerOf "Search"
  refine ⟨⟨.method habsent, ?_⟩, .body hsearch (by decide), ?_⟩
  · exact not_ends_serveOne rfl trivial (length_headerOf_lt (by decide)) (by decide) habsent.1.1
      habsent.1.2 habsent.2
  · exact not_answered_of_body (length_headerOf_lt (by decide)) (by decide) [] true hsearch
      (by decide)

end Rpc
end ManyTasks
