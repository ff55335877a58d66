import ManyTasks.Io.Connection
import ManyTasks.Lib.Endian

/-!
# The transport

`SimpleRpcChannel` and `SimpleRpcServer` exchange frames: the sizes of a header and of a body, the
header and the body.  Headers and messages are protobuf messages, and protobuf is a parameter.
`ParseFromString` also leaves something in the message when it fails.

* The client throws an `RpcCallError` whatever goes wrong.
* The server serves one connection after the other; `serveOne` is what it does with one.
  `services_.at` throws when there is no such service, `FindMethodByName` returns a null pointer
  when there is no such method.  A null pointer is dereferenced by an operation that has no answer.
-/

set_option autoImplicit false

namespace ManyTasks
namespace Rpc

open Io Lib Lib.Proc

/-! ## Protobuf -/

structure RequestHeader where
  service : String
  method : String
deriving DecidableEq, Repr

structure RpcError where
  message : String
deriving DecidableEq, Repr

structure ResponseHeader where
  rpc_error : Option RpcError
deriving DecidableEq, Repr

/-- A type of messages. -/
structure Codec (M : Type) where
  /-- `SerializeAsString`. -/
  serialize : M → Bytes
  /-- `ParseFromString`: what it returns, and what is in the message then. -/
  parse : Bytes → Bool × M

/-- Parsing undoes serializing. -/
def Codec.Lawful {M : Type} (c : Codec M) : Prop := ∀ m, c.parse (c.serialize m) = (true, m)

/-- The types of messages there are, with the two of `rpc.proto`. -/
structure Protobuf where
  Descriptor : Type
  Message : Descriptor → Type
  codec : (d : Descriptor) → Codec (Message d)
  requestHeader : Codec RequestHeader
  responseHeader : Codec ResponseHeader

/-- Parsing undoes serializing, for every type of messages. -/
structure Protobuf.Lawful (P : Protobuf) : Prop where
  codec (d : P.Descriptor) : (P.codec d).Lawful
  requestHeader : P.requestHeader.Lawful
  responseHeader : P.responseHeader.Lawful

structure MethodDescriptor (P : Protobuf) where
  name : String
  /-- `service()->full_name()`. -/
  service : String
  input_type : P.Descriptor
  output_type : P.Descriptor

structure ServiceDescriptor (P : Protobuf) where
  full_name : String
  methods : List (MethodDescriptor P)
  service_eq : ∀ method ∈ methods, method.service = full_name
  nodup : (methods.map MethodDescriptor.name).Nodup

/-- `FindMethodByName`; `none` is the null pointer. -/
def ServiceDescriptor.findMethodByName {P : Protobuf} (service : ServiceDescriptor P)
    (name : String) :
    Option (MethodDescriptor P) :=
  service.methods.find? (·.name = name)

/-! ## Frames -/

structure FixedHeader where
  header_size : UInt32
  body_size : UInt32
deriving DecidableEq, Repr

namespace FixedHeader

/-- The sizes are cut to 32 bits. -/
def new (header_size body_size : ℕ) : FixedHeader :=
  ⟨UInt32.ofNat header_size, UInt32.ofNat body_size⟩

/-- The memory of a header. -/
def bytes (o : ByteOrder) (h : FixedHeader) : Bytes :=
  o.encode 4 h.header_size.toNat ++ o.encode 4 h.body_size.toNat

/-- The header in this memory. -/
def ofBytes (o : ByteOrder) (bytes : Bytes) : FixedHeader :=
  ⟨UInt32.ofNat (o.decode (bytes.take 4)), UInt32.ofNat (o.decode (bytes.drop 4))⟩

theorem length_bytes (o : ByteOrder) (h : FixedHeader) : (h.bytes o).length = 8 := by
  rw [bytes, List.length_append, ByteOrder.length_encode, ByteOrder.length_encode]

theorem ofBytes_bytes (o : ByteOrder) (h : FixedHeader) : ofBytes o (h.bytes o) = h := by
  have hback (n : UInt32) : UInt32.ofNat (o.decode (o.encode 4 n.toNat)) = n := by
    have hlt : n.toNat < 256 ^ 4 := n.toNat_lt
    rw [ByteOrder.decode_encode, Nat.mod_eq_of_lt hlt, UInt32.ofNat_toNat]
  have htake : (h.bytes o).take 4 = o.encode 4 h.header_size.toNat :=
    List.take_left' (ByteOrder.length_encode o 4 _)
  have hdrop : (h.bytes o).drop 4 = o.encode 4 h.body_size.toNat :=
    List.drop_left' (ByteOrder.length_encode o 4 _)
  rw [ofBytes, htake, hdrop, hback, hback]

theorem bytes_ofBytes (o : ByteOrder) {bytes : Bytes} (hlen : bytes.length = 8) :
    (ofBytes o bytes).bytes o = bytes := by
  have hback {bs : Bytes} (hbs : bs.length = 4) :
      o.encode 4 (UInt32.ofNat (o.decode bs)).toNat = bs := by
    have hlt : o.decode bs < 2 ^ 32 := by
      have hlt := o.decode_lt bs
      rwa [hbs] at hlt
    have hencode := o.encode_decode bs
    rw [hbs] at hencode
    rw [UInt32.toNat_ofNat', Nat.mod_eq_of_lt hlt, hencode]
  have htake : (bytes.take 4).length = 4 := by rw [List.length_take, hlen]; rfl
  have hdrop : (bytes.drop 4).length = 4 := by rw [List.length_drop, hlen]
  rw [FixedHeader.bytes, ofBytes]
  dsimp only
  rw [hback htake, hback hdrop, List.take_append_drop]

theorem toNat_header_size {header_size : ℕ} (h : header_size < 2 ^ 32) (body_size : ℕ) :
    (new header_size body_size).header_size.toNat = header_size := by
  rw [new, UInt32.toNat_ofNat', Nat.mod_eq_of_lt h]

theorem toNat_body_size (header_size : ℕ) {body_size : ℕ} (h : body_size < 2 ^ 32) :
    (new header_size body_size).body_size.toNat = body_size := by
  rw [new, UInt32.toNat_ofNat', Nat.mod_eq_of_lt h]

end FixedHeader

/-- What is written for a header and a body. -/
def frame (o : ByteOrder) (header body : Bytes) : Bytes :=
  (FixedHeader.new header.length body.length).bytes o ++ header ++ body

inductive Exception where
  | eofException
  | runtime_error (what : String)
  | out_of_range
  | rpcCallError (error : String)
  /-- What else a handler or the system throws. -/
  | other (error : ℕ)
deriving DecidableEq, Repr

/-! ## The client -/

/-- What the client asks for, besides its connection. -/
inductive ClientOp where
  | dialTCP

def ClientRes : ClientOp → Type
  | .dialTCP => Except Exception Unit

def dialTCP : ConnM Exception ClientRes Unit := ExceptT.mk (ConnProc.ext .dialTCP)

/-- `SimpleRpcChannel::CallMethod`; it returns what is in `response` then. -/
def SimpleRpcChannel.callMethod (P : Protobuf) (o : ByteOrder) (method : MethodDescriptor P)
    (request : P.Message method.input_type) :
    ConnM Exception ClientRes (P.Message method.output_type) :=
  tryCatch
    (do
      dialTCP
      let serialized_request_header := P.requestHeader.serialize ⟨method.service, method.name⟩
      let serialized_request_body := (P.codec method.input_type).serialize request
      let request_header :=
        FixedHeader.new serialized_request_header.length serialized_request_body.length
      ConnProc.write (request_header.bytes o)
      ConnProc.write serialized_request_header
      ConnProc.write serialized_request_body
      let response_header ← FixedHeader.ofBytes o <$> ConnM.readFull .eofException 8
      let serialized_response_header ←
        ConnM.readFull .eofException response_header.header_size.toNat
      let response_header_msg := (P.responseHeader.parse serialized_response_header).2
      match response_header_msg.rpc_error with
      | some rpc_error => throw (.rpcCallError rpc_error.message)
      | none => do
        let serialized_response_body ← ConnM.readFull .eofException response_header.body_size.toNat
        return ((P.codec method.output_type).parse serialized_response_body).2)
    fun _ ↦ throw (.rpcCallError "Connection error")

/-! ## The server -/

/-- What the server asks for, besides its connection. -/
inductive ServerOp (P : Protobuf) where
  /-- `service->CallMethod`. -/
  | callMethod (service : ServiceDescriptor P) (method : MethodDescriptor P)
      (request : P.Message method.input_type)
  /-- A null pointer is dereferenced. -/
  | nullMethod

def ServerRes {P : Protobuf} : ServerOp P → Type
  | .callMethod _ method _ => Except Exception (P.Message method.output_type)
  | .nullMethod => Empty

variable {P : Protobuf}

def callMethod (service : ServiceDescriptor P) (method : MethodDescriptor P)
    (request : P.Message method.input_type) :
    ConnM Exception (ServerRes (P := P)) (P.Message method.output_type) :=
  ExceptT.mk (ConnProc.ext (ServerOp.callMethod service method request))

/-- A pointer to a method is dereferenced. -/
def deref : Option (MethodDescriptor P) → ConnM Exception (ServerRes (P := P)) (MethodDescriptor P)
  | some method => pure method
  | none => ExceptT.lift (ConnProc.ext .nullMethod >>= Empty.elim)

structure SimpleRpcServer (P : Protobuf) where
  services_ : List (ServiceDescriptor P)
  nodup : (services_.map ServiceDescriptor.full_name).Nodup

namespace SimpleRpcServer

/-- `Register`. -/
def register (server : SimpleRpcServer P) (service : ServiceDescriptor P) :
    Except Exception (SimpleRpcServer P) :=
  if h : service.full_name ∈ server.services_.map ServiceDescriptor.full_name then
    throw (.runtime_error "Service already registered")
  else pure ⟨service :: server.services_, List.nodup_cons.2 ⟨h, server.nodup⟩⟩

/-- `services_.find`. -/
def find (server : SimpleRpcServer P) (name : String) : Option (ServiceDescriptor P) :=
  server.services_.find? (·.full_name = name)

/-- `services_.at`. -/
def at' (server : SimpleRpcServer P) (name : String) :
    ConnM Exception (ServerRes (P := P)) (ServiceDescriptor P) :=
  match server.find name with
  | some service => pure service
  | none => throw .out_of_range

/-- The end of the `try` block, from `SerializeAsString` on. -/
def writeResponse (o : ByteOrder) {d : P.Descriptor} (response : P.Message d) :
    ConnM Exception (ServerRes (P := P)) Unit := do
  let serialized_response_header := P.responseHeader.serialize ⟨none⟩
  let serialized_response_body := (P.codec d).serialize response
  let response_header :=
    FixedHeader.new serialized_response_header.length serialized_response_body.length
  ConnProc.write (response_header.bytes o)
  ConnProc.write serialized_response_header
  ConnProc.write serialized_response_body
  ConnProc.closeWrite

/-- The `try` block, after the header has been parsed. -/
def serveMessage (server : SimpleRpcServer P) (o : ByteOrder) (request_header_msg : RequestHeader)
    (body_size : UInt32) : ConnM Exception (ServerRes (P := P)) Unit := do
  let service ← server.at' request_header_msg.service
  let serialized_request_body ← ConnM.readFull .eofException body_size.toNat
  let method ← deref (service.findMethodByName request_header_msg.method)
  let request := ((P.codec method.input_type).parse serialized_request_body).2
  let response ← callMethod service method request
  writeResponse o response

/-- The `try` block of `Serve`. -/
def serveRequest (server : SimpleRpcServer P) (o : ByteOrder) :
    ConnM Exception (ServerRes (P := P)) Unit := do
  let request_header ← FixedHeader.ofBytes o <$> ConnM.readFull .eofException 8
  let serialized_request_header ← ConnM.readFull .eofException request_header.header_size.toNat
  let parsed := P.requestHeader.parse serialized_request_header
  if parsed.1 = false then throw (.runtime_error "invalid msg")
  else server.serveMessage o parsed.2 request_header.body_size

/-- The `catch` block of `Serve`. -/
def answerError (P : Protobuf) (o : ByteOrder) : ConnM Exception (ServerRes (P := P)) Unit := do
  let serialized_response_header := P.responseHeader.serialize ⟨some ⟨"Server error"⟩⟩
  let response_header := FixedHeader.new serialized_response_header.length 0
  ConnProc.write (response_header.bytes o)
  ConnProc.write serialized_response_header
  ConnProc.closeWrite

/-- What `Serve` does with a connection. -/
def serveOne (server : SimpleRpcServer P) (o : ByteOrder) :
    ConnM Exception (ServerRes (P := P)) Unit :=
  tryCatch (server.serveRequest o) fun _ ↦ answerError P o

end SimpleRpcServer

end Rpc
end ManyTasks
