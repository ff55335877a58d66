import ManyTasks.Rpc.RoundTrip

/-!
# What the client makes of a reply

A reply is a frame: the header of it says that there has been an error, or the body of it is the
response.  `CallMethod` is to return the response, to throw the error with its text, and to throw
in every other case (`Faithful`).

It misreads two kinds of replies (`Misread`).  The error of the server is thrown inside of the `try`
block, and the handler throws another one in its place; and what `ParseFromString` returns is not
looked at.
-/

set_option autoImplicit false

namespace ManyTasks
namespace Rpc

open Io Lib Lib.Proc

variable {P : Protobuf} {o : ByteOrder} {method : MethodDescriptor P}

/-! ## Replies -/

/-- The bytes begin with two sizes and a header of the first one. -/
def Framed (o : ByteOrder) (bytes : Bytes) (sizes : FixedHeader) (header rest : Bytes) : Prop :=
  bytes = sizes.bytes o ++ (header ++ rest) ∧ header.length = sizes.header_size.toNat

/-- The bytes begin with a frame. -/
def Complete (o : ByteOrder) (bytes header body : Bytes) : Prop :=
  ∃ sizes more, Framed o bytes sizes header (body ++ more)
    ∧ body.length = sizes.body_size.toNat

/-- The reply says that there has been an error. -/
def CarriesError (P : Protobuf) (o : ByteOrder) (bytes : Bytes) (message : String) : Prop :=
  ∃ sizes header rest, Framed o bytes sizes header rest
    ∧ P.responseHeader.parse header = (true, ⟨some ⟨message⟩⟩)

/-- The reply is a response. -/
def CarriesResponse (o : ByteOrder) (method : MethodDescriptor P) (bytes : Bytes)
    (response : P.Message method.output_type) : Prop :=
  ∃ header body, Complete o bytes header body ∧ P.responseHeader.parse header = (true, ⟨none⟩)
    ∧ (P.codec method.output_type).parse body = (true, response)

/-- **What the client is to do with a reply.** -/
structure Faithful (o : ByteOrder) (method : MethodDescriptor P) (bytes : Bytes)
    (r : Except Exception (P.Message method.output_type)) : Prop where
  response (response : P.Message method.output_type) :
    r = .ok response ↔ CarriesResponse o method bytes response
  error {message : String} (h : CarriesError P o bytes message) :
    r = .error (.rpcCallError message)
  otherwise (h : ∀ response, ¬ CarriesResponse o method bytes response) :
    ∃ message, r = .error (.rpcCallError message)

/-- The replies that the client does not expect: an error with a text of its own, and a frame whose
header or body cannot be parsed, if no error is left in the header. -/
inductive Misread (o : ByteOrder) (method : MethodDescriptor P) (bytes : Bytes) : Prop
  | error {message : String} (h : CarriesError P o bytes message)
      (hne : message ≠ "Connection error")
  | parse {header body : Bytes} (h : Complete o bytes header body)
      (hnone : (P.responseHeader.parse header).2.rpc_error = none)
      (hparse : (P.responseHeader.parse header).1 = false
        ∨ ((P.codec method.output_type).parse body).1 = false)

variable {bytes header header' body body' rest rest' : Bytes} {sizes sizes' : FixedHeader}

/-- There is one way to read sizes and a header. -/
theorem Framed.unique (h : Framed o bytes sizes header rest)
    (h' : Framed o bytes sizes' header' rest') :
    sizes = sizes' ∧ header = header' ∧ rest = rest' := by
  obtain ⟨heq, hlen⟩ := h
  obtain ⟨heq', hlen'⟩ := h'
  obtain ⟨hsizes, hrest⟩ := List.append_inj (heq.symm.trans heq')
    ((FixedHeader.length_bytes o _).trans (FixedHeader.length_bytes o _).symm)
  have hsame : sizes = sizes' := by
    rw [← FixedHeader.ofBytes_bytes o sizes, hsizes, FixedHeader.ofBytes_bytes]
  subst hsame
  exact ⟨rfl, List.append_inj hrest (hlen.trans hlen'.symm)⟩

theorem Complete.of_framed (hframed : Framed o bytes sizes header rest)
    (h : Complete o bytes header' body') :
    header' = header ∧ body'.length = sizes.body_size.toNat ∧ body' <+: rest := by
  obtain ⟨sizes', more, hframed', hlen⟩ := h
  obtain ⟨rfl, rfl, rfl⟩ := hframed'.unique hframed
  exact ⟨rfl, hlen, List.prefix_append _ _⟩

/-- What the client has to do is decided by the first header. -/
theorem CarriesError.of_framed {message : String} (hframed : Framed o bytes sizes header rest)
    (h : CarriesError P o bytes message) :
    P.responseHeader.parse header = (true, ⟨some ⟨message⟩⟩) := by
  obtain ⟨sizes', header', rest', hframed', hparse⟩ := h
  obtain ⟨-, rfl, -⟩ := hframed'.unique hframed
  exact hparse

/-! ## Reading them -/

/-- The end of the `try` block of `CallMethod`, from the first read on. -/
def readResponse (P : Protobuf) (o : ByteOrder) (method : MethodDescriptor P) :
    ConnM Exception ClientRes (P.Message method.output_type) := do
  let response_header ← FixedHeader.ofBytes o <$> ConnM.readFull .eofException 8
  let serialized_response_header ← ConnM.readFull .eofException response_header.header_size.toNat
  match (P.responseHeader.parse serialized_response_header).2.rpc_error with
  | some rpc_error => throw (.rpcCallError rpc_error.message)
  | none => do
    let serialized_response_body ← ConnM.readFull .eofException response_header.body_size.toNat
    return ((P.codec method.output_type).parse serialized_response_body).2

/-- How a reply is read. -/
inductive Read (o : ByteOrder) (method : MethodDescriptor P) (s : Solo UInt8 Unit) : Prop
  | short {t : Solo UInt8 Unit} (h : ∀ sizes header rest, ¬ Framed o s.inp sizes header rest)
      (hrun : Yields (Alone Dialled fun _ ↦ True) (readResponse P o method).run s
        (.error .eofException) t)
  | error {sizes : FixedHeader} {header rest : Bytes} {rpc_error : RpcError}
      {t : Solo UInt8 Unit} (h : Framed o s.inp sizes header rest)
      (hsome : (P.responseHeader.parse header).2.rpc_error = some rpc_error)
      (hrun : Yields (Alone Dialled fun _ ↦ True) (readResponse P o method).run s
        (.error (.rpcCallError rpc_error.message)) t)
  | cut {sizes : FixedHeader} {header rest : Bytes} {t : Solo UInt8 Unit}
      (h : Framed o s.inp sizes header rest) (hshort : rest.length < sizes.body_size.toNat)
      (hnone : (P.responseHeader.parse header).2.rpc_error = none)
      (hrun : Yields (Alone Dialled fun _ ↦ True) (readResponse P o method).run s
        (.error .eofException) t)
  | complete {sizes : FixedHeader} {header body more : Bytes} {t : Solo UInt8 Unit}
      (h : Framed o s.inp sizes header (body ++ more))
      (hlen : body.length = sizes.body_size.toNat)
      (hnone : (P.responseHeader.parse header).2.rpc_error = none)
      (hrun : Yields (Alone Dialled fun _ ↦ True) (readResponse P o method).run s
        (.ok ((P.codec method.output_type).parse body).2) t)

variable {s : Solo UInt8 Unit}

theorem yields_readFull_short {size : ℕ} (hinp : s.inp = rest) (hlen : rest.length < size)
    (hended : s.ended = true) :
    Yields (Alone Dialled fun _ ↦ True)
      (ConnM.readFull Exception.eofException size : ConnM Exception ClientRes Bytes).run s
      (.error .eofException) (s.skip s.inp.length) :=
  yields_readFull_eof trivial (hinp.symm ▸ hlen) hended

/-- The sizes and the header have been read. -/
theorem read_of_framed (hframed : Framed o s.inp sizes header rest) (hended : s.ended = true) :
    Read o method s := by
  obtain ⟨hinp, hheader⟩ := hframed
  have hsizes : Yields (Alone Dialled fun _ ↦ True) (FixedHeader.ofBytes o <$>
      ConnM.readFull Exception.eofException 8 : ConnM Exception ClientRes FixedHeader).run s
      (.ok sizes) (s.skip 8) := yields_readFixedHeader trivial hinp
  have hinp₁ : (s.skip 8).inp = header ++ rest :=
    Solo.inp_skip_append hinp (FixedHeader.length_bytes o _)
  have hread : Yields (Alone Dialled fun _ ↦ True)
      (ConnM.readFull Exception.eofException sizes.header_size.toNat :
        ConnM Exception ClientRes Bytes).run (s.skip 8) (.ok header)
      ((s.skip 8).skip header.length) := yields_readFull_append hinp₁ trivial hheader.symm
  have hinp₂ : ((s.skip 8).skip header.length).inp = rest := Solo.inp_skip_append hinp₁ rfl
  have hbind {r : Except Exception (P.Message method.output_type)} {t : Solo UInt8 Unit}
      (h : Yields (Alone Dialled fun _ ↦ True)
        (match (P.responseHeader.parse header).2.rpc_error with
          | some rpc_error => throw (.rpcCallError rpc_error.message)
          | none => do
            let serialized_response_body ← ConnM.readFull .eofException sizes.body_size.toNat
            return ((P.codec method.output_type).parse serialized_response_body).2 :
          ConnM Exception ClientRes (P.Message method.output_type)).run
        ((s.skip 8).skip header.length) r t) :
      Yields (Alone Dialled fun _ ↦ True) (readResponse P o method).run s r t := by
    rw [Yields, readResponse, hsizes.bind, hread.bind]
    exact h
  rcases hparse : (P.responseHeader.parse header).2.rpc_error with _ | rpc_error
  · rw [hparse] at hbind
    by_cases hshort : rest.length < sizes.body_size.toNat
    · have hbody := yields_readFull_short hinp₂ hshort hended
      exact .cut ⟨hinp, hheader⟩ hshort hparse (hbind (hbody.bind_error.2 ⟨rfl, rfl⟩))
    obtain ⟨body, more, rfl, hlen⟩ :
        ∃ body more, rest = body ++ more ∧ body.length = sizes.body_size.toNat :=
      ⟨_, _, (List.take_append_drop _ rest).symm, List.length_take_of_le (not_lt.1 hshort)⟩
    have hbody : Yields (Alone Dialled fun _ ↦ True)
        (ConnM.readFull Exception.eofException sizes.body_size.toNat :
          ConnM Exception ClientRes Bytes).run _ (.ok body) _ :=
      yields_readFull_append hinp₂ trivial hlen.symm
    exact .complete ⟨hinp, hheader⟩ hlen hparse (hbind (hbody.bind.2 ⟨rfl, rfl⟩))
  · rw [hparse] at hbind
    exact .error ⟨hinp, hheader⟩ hparse (hbind ⟨rfl, rfl⟩)

/-- Every reply is read in one of these ways. -/
theorem read_cases (hended : s.ended = true) : Read o method s := by
  by_cases hshort : s.inp.length < 8
  · have hsizes := (yields_readFull_short rfl hshort hended).map (FixedHeader.ofBytes o)
    refine .short ?_ (hsizes.bind_error.2 ⟨rfl, rfl⟩)
    rintro sizes header rest ⟨hinp, -⟩
    rw [hinp, List.length_append, FixedHeader.length_bytes] at hshort
    omega
  have hlen : (s.inp.take 8).length = 8 := List.length_take_of_le (not_lt.1 hshort)
  obtain ⟨sizes, rest, hinp⟩ : ∃ sizes : FixedHeader, ∃ rest, s.inp = sizes.bytes o ++ rest := by
    refine ⟨.ofBytes o (s.inp.take 8), s.inp.drop 8, ?_⟩
    rw [FixedHeader.bytes_ofBytes o hlen, List.take_append_drop]
  have hsizes : Yields (Alone Dialled fun _ ↦ True) (FixedHeader.ofBytes o <$>
      ConnM.readFull Exception.eofException 8 : ConnM Exception ClientRes FixedHeader).run s
      (.ok sizes) (s.skip 8) := yields_readFixedHeader trivial hinp
  have hinp₁ : (s.skip 8).inp = rest := Solo.inp_skip_append hinp (FixedHeader.length_bytes o _)
  by_cases hshort' : rest.length < sizes.header_size.toNat
  · have hread := yields_readFull_short hinp₁ hshort' hended
    refine .short ?_ (hsizes.bind.2 (hread.bind_error.2 ⟨rfl, rfl⟩))
    rintro sizes' header rest' ⟨hinp', hheader⟩
    obtain ⟨hsame, rfl⟩ := List.append_inj (hinp.symm.trans hinp')
      ((FixedHeader.length_bytes o _).trans (FixedHeader.length_bytes o _).symm)
    rw [← FixedHeader.ofBytes_bytes o sizes, hsame, FixedHeader.ofBytes_bytes,
      List.length_append] at hshort'
    omega
  · have hframed : Framed o s.inp sizes (rest.take sizes.header_size.toNat)
        (rest.drop sizes.header_size.toNat) := by
      refine ⟨?_, List.length_take_of_le (not_lt.1 hshort')⟩
      rw [List.take_append_drop, hinp]
    exact read_of_framed hframed hended

/-- The client writes its request, reads a reply, and throws an error of its own if anything
throws. -/
theorem ends_callMethod_readResponse {request : P.Message method.input_type}
    {Q : Except Exception (P.Message method.output_type) → Solo UInt8 Unit → Prop}
    {ready : Bytes → Prop} (hopen : s.closed = false) :
    Ends (Alone Dialled ready) Q (SimpleRpcChannel.callMethod P o method request).run s ↔
      Ends (Alone Dialled ready)
        (caught Q fun _ s' ↦ Q (.error (.rpcCallError "Connection error")) s')
        (readResponse P o method).run
        (sendFrame o (P.requestHeader.serialize ⟨method.service, method.name⟩)
          ((P.codec method.input_type).serialize request) s) := by
  rw [SimpleRpcChannel.callMethod, ends_tryCatch, yields_dialTCP.bind]
  dsimp only
  rw [ends_writeFrame hopen]
  exact Iff.rfl

section Faithful

variable {r : Except Exception (P.Message method.output_type)}

theorem not_carriesResponse_of_some {rpc_error : RpcError}
    (hframed : Framed o bytes sizes header rest)
    (hsome : (P.responseHeader.parse header).2.rpc_error = some rpc_error)
    (response : P.Message method.output_type) : ¬ CarriesResponse o method bytes response := by
  rintro ⟨header', body, hcomplete, hparse, -⟩
  rw [(hcomplete.of_framed hframed).1] at hparse
  rw [hparse] at hsome
  cases hsome

/-- A reply without a whole frame is an error, if it does not carry one. -/
theorem faithful_of_not_complete (herror : ∀ message, ¬ CarriesError P o bytes message)
    (hcomplete : ∀ header body, ¬ Complete o bytes header body) :
    Faithful o method bytes (.error (.rpcCallError "Connection error")) where
  response response := by
    refine iff_of_false nofun ?_
    rintro ⟨header, body, h, -⟩
    exact hcomplete header body h
  error h := absurd h (herror _)
  otherwise _ := ⟨_, rfl⟩

theorem not_misread_of_not_complete (herror : ∀ message, ¬ CarriesError P o bytes message)
    (hcomplete : ∀ header body, ¬ Complete o bytes header body) :
    ¬ Misread o method bytes := by
  rintro (⟨h, -⟩ | ⟨h, -⟩)
  · exact herror _ h
  · exact hcomplete _ _ h

theorem not_carriesError_of_none (hframed : Framed o bytes sizes header rest)
    (hnone : (P.responseHeader.parse header).2.rpc_error = none) (message : String) :
    ¬ CarriesError P o bytes message := by
  intro h
  rw [h.of_framed hframed] at hnone
  cases hnone

/-- The text of an error is the one that the client throws, or it is lost. -/
theorem faithful_iff_of_some {rpc_error : RpcError} (hframed : Framed o bytes sizes header rest)
    (hsome : (P.responseHeader.parse header).2.rpc_error = some rpc_error) :
    Faithful o method bytes (.error (.rpcCallError "Connection error"))
      ↔ ¬ Misread o method bytes := by
  constructor
  · rintro hfaithful (⟨h, hne⟩ | ⟨h, hnone, -⟩)
    · cases hfaithful.error h
      exact hne rfl
    · rw [(h.of_framed hframed).1, hsome] at hnone
      cases hnone
  · intro h
    have hresponse (response : P.Message method.output_type) :=
      not_carriesResponse_of_some hframed hsome response
    refine ⟨fun response ↦ iff_of_false nofun (hresponse response), fun {message} herror ↦ ?_,
      fun _ ↦ ⟨_, rfl⟩⟩
    by_contra hne
    exact h (.error herror fun heq ↦ hne (congrArg _ (congrArg _ heq.symm)))

/-- A frame without an error is taken for a response. -/
theorem faithful_iff_of_none {more : Bytes} (hframed : Framed o bytes sizes header (body ++ more))
    (hlen : body.length = sizes.body_size.toNat)
    (hnone : (P.responseHeader.parse header).2.rpc_error = none) :
    Faithful o method bytes (.ok ((P.codec method.output_type).parse body).2)
      ↔ ¬ Misread o method bytes := by
  have hcomplete : Complete o bytes header body := ⟨sizes, more, hframed, hlen⟩
  have hbody {header' body' : Bytes} (h : Complete o bytes header' body') :
      header' = header ∧ body' = body := by
    obtain ⟨heq, hlen', hprefix⟩ := h.of_framed hframed
    refine ⟨heq, ?_⟩
    rw [List.prefix_iff_eq_take.1 hprefix, hlen', ← hlen, List.take_left]
  constructor
  · rintro hfaithful (⟨h, -⟩ | ⟨h, -, hparse⟩)
    · exact not_carriesError_of_none hframed hnone _ h
    · obtain ⟨rfl, rfl⟩ := hbody h
      obtain ⟨header', body', h', hheader, hbody'⟩ := (hfaithful.response _).1 rfl
      obtain ⟨rfl, rfl⟩ := hbody h'
      rw [hheader, hbody'] at hparse
      exact hparse.elim nofun nofun
  · intro h
    have hheader : P.responseHeader.parse header = (true, ⟨none⟩) := by
      refine Prod.ext ?_ (congrArg ResponseHeader.mk hnone)
      by_contra hfalse
      exact h (.parse hcomplete hnone (Or.inl (Bool.eq_false_iff.2 hfalse)))
    have hparse : ((P.codec method.output_type).parse body).1 = true := by
      by_contra hfalse
      exact h (.parse hcomplete hnone (Or.inr (Bool.eq_false_iff.2 hfalse)))
    have hresponse : CarriesResponse o method bytes
        ((P.codec method.output_type).parse body).2 :=
      ⟨header, body, hcomplete, hheader, Prod.ext hparse rfl⟩
    refine ⟨fun response ↦ ⟨?_, ?_⟩, fun {message} herror ↦ ?_, fun hnot ↦ ?_⟩
    · intro hok
      exact Except.ok.inj hok ▸ hresponse
    · rintro ⟨header', body', h', -, hbody'⟩
      obtain ⟨rfl, rfl⟩ := hbody h'
      rw [hbody']
    · exact absurd herror (not_carriesError_of_none hframed hnone message)
    · exact absurd hresponse (hnot _)

/-- The client comes to one result, and it is the right one unless the reply is misread. -/
theorem exists_result (o : ByteOrder) (method : MethodDescriptor P)
    (request : P.Message method.input_type) (bytes : Bytes) :
    ∃ r, (Faithful o method bytes r ↔ ¬ Misread o method bytes)
      ∧ ∀ Q : Except Exception (P.Message method.output_type) → Prop,
        Ends (Alone Dialled fun _ ↦ True) (fun r _ ↦ Q r)
          (SimpleRpcChannel.callMethod P o method request).run ⟨bytes, true, 0, [], false, ()⟩
            ↔ Q r := by
  have hcases : Read o method (sendFrame o
      (P.requestHeader.serialize ⟨method.service, method.name⟩)
      ((P.codec method.input_type).serialize request) ⟨bytes, true, 0, [], false, ()⟩) :=
    read_cases rfl
  obtain ⟨h, hrun⟩ | ⟨hframed, hsome, hrun⟩ | ⟨hframed, hshort, hnone, hrun⟩
    | ⟨hframed, hlen, hnone, hrun⟩ := hcases
  · have herror (message : String) : ¬ CarriesError P o bytes message := by
      rintro ⟨sizes, header, rest, hframed, -⟩
      exact h sizes header rest hframed
    have hcomplete (header body : Bytes) : ¬ Complete o bytes header body := by
      rintro ⟨sizes, more, hframed, -⟩
      exact h sizes header _ hframed
    refine ⟨.error (.rpcCallError "Connection error"), ?_, fun Q ↦ ?_⟩
    · exact iff_of_true (faithful_of_not_complete herror hcomplete)
        (not_misread_of_not_complete herror hcomplete)
    · rw [ends_callMethod_readResponse rfl, hrun.ends_iff]
      exact Iff.rfl
  · refine ⟨.error (.rpcCallError "Connection error"), faithful_iff_of_some hframed hsome,
      fun Q ↦ ?_⟩
    rw [ends_callMethod_readResponse rfl, hrun.ends_iff]
    exact Iff.rfl
  · have hcomplete (header body : Bytes) : ¬ Complete o bytes header body := by
      intro h
      obtain ⟨-, hlen, hprefix⟩ := h.of_framed hframed
      exact absurd (hlen ▸ hprefix.length_le) (not_le.2 hshort)
    have herror := not_carriesError_of_none hframed hnone
    refine ⟨.error (.rpcCallError "Connection error"), ?_, fun Q ↦ ?_⟩
    · exact iff_of_true (faithful_of_not_complete herror hcomplete)
        (not_misread_of_not_complete herror hcomplete)
    · rw [ends_callMethod_readResponse rfl, hrun.ends_iff]
      exact Iff.rfl
  · refine ⟨_, faithful_iff_of_none hframed hlen hnone, fun Q ↦ ?_⟩
    rw [ends_callMethod_readResponse rfl, hrun.ends_iff]
    exact Iff.rfl

/-- **Replies are read faithfully**, unless they carry an error with a text of its own, or cannot be
parsed. -/
theorem callMethod_faithful_iff (P : Protobuf) (o : ByteOrder) (method : MethodDescriptor P)
    (request : P.Message method.input_type) (bytes : Bytes) :
    Ends (Alone Dialled fun _ ↦ True) (fun r _ ↦ Faithful o method bytes r)
        (SimpleRpcChannel.callMethod P o method request).run ⟨bytes, true, 0, [], false, ()⟩
      ↔ ¬ Misread o method bytes := by
  obtain ⟨r, hr, hends⟩ := exists_result o method request bytes
  rw [hends, hr]

/-- What `Serve` answers when something goes wrong. -/
def serverError : Bytes := frame .little (errorHeader Wire.protobuf) []

/-- The error that `Serve` answers with is thrown as an error of the connection. -/
theorem not_faithful_serverError :
    ¬ Ends (Alone Dialled fun _ ↦ True) (fun r _ ↦ Faithful .little Wire.search serverError r)
      (SimpleRpcChannel.callMethod Wire.protobuf .little Wire.search "test").run
      ⟨serverError, true, 0, [], false, ()⟩ := by
  have hlen : (errorHeader Wire.protobuf).length < 2 ^ 32 :=
    (Wire.length_errorHeader_le _).trans_lt (by decide)
  have hframed : Framed .little serverError (.new (errorHeader Wire.protobuf).length 0)
      (errorHeader Wire.protobuf) [] :=
    ⟨List.append_assoc _ _ _, (FixedHeader.toNat_header_size hlen 0).symm⟩
  have herror : CarriesError Wire.protobuf .little serverError "Server error" :=
    ⟨_, _, _, hframed, Wire.responseHeader_lawful _⟩
  obtain ⟨r, hr, hends⟩ := exists_result .little Wire.search "test" serverError
  rw [hends, hr]
  exact not_not.2 (.error herror (by decide))

end Faithful

end Rpc
end ManyTasks
