import ManyTasks.Lib.Wire
import ManyTasks.Rpc.Exchange

/-!
# Messages on the wire

Protobuf for the messages of `rpc.proto` and for messages that are one string, as those of
`TestService.Search` are.  Parsing undoes serializing (`protobuf_lawful`).
-/

set_option autoImplicit false

namespace ManyTasks
namespace Rpc

open Io Lib

namespace Wire

/-- The fields of bytes of a message. -/
abbrev Fields : Type := List (ℕ × Bytes)

/-- A string; the empty one is not written. -/
def stringField (number : ℕ) (s : String) : Fields :=
  if s = "" then [] else [(number, s.toByteArray.data.toList)]

/-- The last field with this number. -/
def last (number : ℕ) (fs : Fields) : Option Bytes :=
  ((fs.filter (·.1 = number)).getLast?).map Prod.snd

def getString (number : ℕ) (fs : Fields) : Option String :=
  match last number fs with
  | none => some ""
  | some bytes => String.fromUTF8? ⟨bytes.toArray⟩

/-- Messages that are written as fields; what cannot be read is left empty. -/
def codec {M : Type} (toFields : M → Fields) (ofFields : Fields → Option M) (empty : M) :
    Codec M where
  serialize m := (toFields m).flatMap fun f ↦ Lib.Wire.delimited f.1 f.2
  parse bytes := match (Lib.Wire.fields bytes.length bytes).bind ofFields with
    | some m => (true, m)
    | none => (false, empty)

theorem codec_lawful {M : Type} {toFields : M → Fields} {ofFields : Fields → Option M} {empty : M}
    (hnumber : ∀ m, ∀ f ∈ toFields m, f.1 ≠ 0) (hread : ∀ m, ofFields (toFields m) = some m) :
    (codec toFields ofFields empty).Lawful := by
  intro m
  have hfields := Lib.Wire.fields_flatMap (hnumber m) (Lib.Wire.length_le_flatMap (toFields m))
  simp only [codec, hfields, Option.bind_some, hread]

theorem getString_bytes {number : ℕ} {fs : Fields} {s : String}
    (h : last number fs = some s.toByteArray.data.toList) : getString number fs = some s := by
  rw [getString, h]
  exact dif_pos s.isValidUTF8

theorem number_of_mem_stringField {number : ℕ} {s : String} {f : ℕ × Bytes}
    (h : f ∈ stringField number s) :
    f.1 = number := by
  rw [stringField] at h
  split at h
  · cases h
  · rw [List.mem_singleton.1 h]

/-- The last field with this number is the string, if it has been written. -/
theorem last_stringField (number : ℕ) (s : String) {fs : Fields} (hfs : ∀ f ∈ fs, f.1 ≠ number) :
    last number (stringField number s ++ fs)
      = if s = "" then none else some s.toByteArray.data.toList := by
  have hnone : fs.filter (·.1 = number) = [] :=
    List.filter_eq_nil_iff.2 fun f hf ↦ by simpa using hfs f hf
  rw [last, List.filter_append, hnone, List.append_nil, stringField]
  split
  · rfl
  · rw [List.filter_singleton, decide_eq_true rfl]
    rfl

theorem getString_stringField (number : ℕ) (s : String) {fs : Fields}
    (hfs : ∀ f ∈ fs, f.1 ≠ number) :
    getString number (stringField number s ++ fs) = some s := by
  have hlast := last_stringField number s hfs
  by_cases hs : s = ""
  · rw [if_pos hs] at hlast
    rw [getString, hlast, hs]
  · rw [if_neg hs] at hlast
    exact getString_bytes hlast

/-- A field with another number does not matter. -/
theorem getString_stringField_append {number number' : ℕ} (hne : number' ≠ number) (s : String)
    (fs : Fields) :
    getString number (stringField number' s ++ fs) = getString number fs := by
  have hnone : (stringField number' s).filter (·.1 = number) = [] :=
    List.filter_eq_nil_iff.2 fun f hf ↦ by simpa [number_of_mem_stringField hf] using hne
  rw [getString, getString, last, last, List.filter_append, hnone, List.nil_append]

theorem length_stringField_le (number : ℕ) (s : String) :
    ((stringField number s).flatMap fun f ↦ Lib.Wire.delimited f.1 f.2).length
      ≤ 2 * s.utf8ByteSize + (8 * number + 4) := by
  rw [stringField]
  split
  · exact Nat.zero_le _
  · rw [List.flatMap_singleton]
    exact Lib.Wire.length_delimited_le number _

/-! ## The messages -/

/-- A message that is one string: `TestRequest`, `TestResponse`, `RpcError`. -/
def stringMessage : Codec String := codec (stringField 1) (getString 1) ""

def requestHeader : Codec RequestHeader :=
  codec (fun h ↦ stringField 1 h.service ++ stringField 2 h.method)
    (fun fs ↦ (getString 1 fs).bind fun service ↦
      (getString 2 fs).map fun method ↦ ⟨service, method⟩) ⟨"", ""⟩

def responseHeader : Codec ResponseHeader :=
  codec (fun h ↦ match h.rpc_error with
      | none => []
      | some rpc_error => [(1, stringMessage.serialize rpc_error.message)])
    (fun fs ↦ match last 1 fs with
      | none => some ⟨none⟩
      | some bytes =>
        if (stringMessage.parse bytes).1 then some ⟨some ⟨(stringMessage.parse bytes).2⟩⟩ else none)
    ⟨none⟩

theorem stringMessage_lawful : stringMessage.Lawful := by
  refine codec_lawful (fun s f hf ↦ ?_) fun s ↦ ?_
  · rw [number_of_mem_stringField hf]
    decide
  · rw [← List.append_nil (stringField 1 s)]
    exact getString_stringField 1 s nofun

theorem requestHeader_lawful : requestHeader.Lawful := by
  refine codec_lawful (fun h f hf ↦ ?_) fun h ↦ ?_
  · obtain hf | hf := List.mem_append.1 hf
    · rw [number_of_mem_stringField hf]
      decide
    · rw [number_of_mem_stringField hf]
      decide
  · have hservice : getString 1 (stringField 1 h.service ++ stringField 2 h.method)
      = some h.service :=
      getString_stringField 1 h.service fun f hf ↦ by
        rw [number_of_mem_stringField hf]
        decide
    have hmethod : getString 2 (stringField 1 h.service ++ stringField 2 h.method)
      = some h.method := by
      rw [getString_stringField_append (by decide), ← List.append_nil (stringField 2 h.method)]
      exact getString_stringField 2 h.method nofun
    rw [hservice, hmethod]
    rfl

theorem responseHeader_lawful : responseHeader.Lawful := by
  refine codec_lawful (fun h f hf ↦ ?_) fun h ↦ ?_
  · rcases h with ⟨_ | rpc_error⟩
    · cases hf
    · rw [List.mem_singleton.1 hf]
      exact Nat.one_ne_zero
  · rcases h with ⟨_ | rpc_error⟩
    · rfl
    · have hmessage := stringMessage_lawful rpc_error.message
      dsimp only
      rw [show last 1 [(1, stringMessage.serialize rpc_error.message)]
        = some (stringMessage.serialize rpc_error.message) from rfl]
      dsimp only
      rw [hmessage]
      rfl

theorem length_stringMessage_le (s : String) :
    (stringMessage.serialize s).length ≤ 2 * s.utf8ByteSize + 12 :=
  length_stringField_le 1 s

theorem length_requestHeader_le (h : RequestHeader) :
    (requestHeader.serialize h).length
      ≤ 2 * (h.service.utf8ByteSize + h.method.utf8ByteSize) + 32 := by
  have hservice := length_stringField_le 1 h.service
  have hmethod := length_stringField_le 2 h.method
  rw [requestHeader, codec]
  dsimp only
  rw [List.flatMap_append, List.length_append]
  omega

theorem length_errorHeader_le (error : RpcError) :
    (responseHeader.serialize ⟨some error⟩).length ≤ 4 * error.message.utf8ByteSize + 36 := by
  have hmessage := length_stringMessage_le error.message
  have hfield := Lib.Wire.length_delimited_le 1 (stringMessage.serialize error.message)
  rw [responseHeader, codec]
  dsimp only
  rw [List.flatMap_singleton]
  dsimp only
  omega

/-- The types of messages of `TestService.Search`. -/
inductive Descriptor where
  | testRequest
  | testResponse

/-- Messages of one string. -/
def protobuf : Protobuf where
  Descriptor := Descriptor
  Message _ := String
  codec _ := stringMessage
  requestHeader := requestHeader
  responseHeader := responseHeader

theorem protobuf_lawful : protobuf.Lawful where
  codec _ := stringMessage_lawful
  requestHeader := requestHeader_lawful
  responseHeader := responseHeader_lawful

/-- `TestService.Search`. -/
def search : MethodDescriptor protobuf where
  name := "Search"
  service := "cactus.TestService"
  input_type := .testRequest
  output_type := .testResponse

/-- `TestService`, as far as its messages are strings. -/
def testService : ServiceDescriptor protobuf where
  full_name := "cactus.TestService"
  methods := [search]
  service_eq _ h := List.mem_singleton.1 h ▸ rfl
  nodup := List.nodup_singleton _

def testServer : SimpleRpcServer protobuf where
  services_ := [testService]
  nodup := List.nodup_singleton _

/-- The header of a call of this method of `TestService`. -/
def headerOf (method : String) : Bytes := requestHeader.serialize ⟨"cactus.TestService", method⟩

/-- The result is the query. -/
def echo : Handler protobuf Unit := fun _ _ query _ ↦ (.ok query, ())

end Wire

end Rpc
end ManyTasks
