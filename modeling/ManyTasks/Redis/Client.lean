import ManyTasks.Lib.Transition
import ManyTasks.Redis.Server

/-!
# The client

A call of the client writes the command as an array of bulk strings and then reads one reply.
`call_eq` has it in this form: the bytes `request`, then the reader `receive`.

The server reads back the command that was sent (`reads_readCommand`), and the client the reply
that the server sends for it (`reads_receive`).
-/

set_option autoImplicit false

namespace ManyTasks
namespace Redis

open Lib (Prog)
open Lib.Prog

variable {σ : Type}

/-! ## `Client` -/

namespace Client

/-- `commands_map_`. -/
def commandsMap : ECommands → Bytes
  | .GET => ascii "GET"
  | .SET => ascii "SET"
  | .INCR => ascii "INCR"
  | .DECR => ascii "DECR"

/-- What every call does with a reply of another type than it expects. -/
def wrongReply {α : Type} (resp_type : ERespType) : Io σ α := do
  if resp_type = .Error then
    let error ← readError
    throw (.redisError error)
  else throw (.redisError (ascii "Wrong answer type"))

/-- The reply to a `GET`. -/
def receiveGet : Io σ (Option Bytes) := do
  let resp_type ← readType
  if resp_type = .BulkString then readBulkString
  else wrongReply resp_type

/-- The reply to a `SET`. -/
def receiveSet : Io σ Unit := do
  let resp_type ← readType
  if resp_type = .BulkString then
    let resp ← readBulkString
    if resp ≠ some (ascii "OK") then throw (.redisError (ascii "Unsuccessful SET"))
    else return ()
  else wrongReply resp_type

/-- The reply to an `INCR` or a `DECR`. -/
def receiveInt : Io σ Int64 := do
  let resp_type ← readType
  if resp_type = .Int then readInt
  else wrongReply resp_type

/-- `Client::Get`. -/
def get (key : Bytes) : Io σ (Option Bytes) := do
  startArray 2
  writeBulkString (commandsMap .GET)
  writeBulkString key
  receiveGet

/-- `Client::Set`. -/
def set (key value : Bytes) : Io σ Unit := do
  startArray 3
  writeBulkString (commandsMap .SET)
  writeBulkString key
  writeBulkString value
  receiveSet

/-- `Client::Increment`. -/
def increment (key : Bytes) : Io σ Int64 := do
  startArray 2
  writeBulkString (commandsMap .INCR)
  writeBulkString key
  receiveInt

/-- `Client::Decrement`. -/
def decrement (key : Bytes) : Io σ Int64 := do
  startArray 2
  writeBulkString (commandsMap .DECR)
  writeBulkString key
  receiveInt

end Client

/-! ## A call as a request and a reply -/

/-- The call of the client for a command. -/
def call : Command → Io σ Reply
  | .get key => do return .value (← Client.get key)
  | .set key value => do
    Client.set key value
    return .done
  | .incr key => do return .int (← Client.increment key)
  | .decr key => do return .int (← Client.decrement key)

/-- The head of an array on the wire. -/
def arrayBytes (n : ℕ) : Bytes := respTypeToChar .Array :: (Lib.printInt n ++ [13, 10])

/-- A command on the wire. -/
def request : Command → Bytes
  | .get key => arrayBytes 2 ++ (bulkBytes (ascii "GET") ++ bulkBytes key)
  | .set key value =>
    arrayBytes 3 ++ (bulkBytes (ascii "SET") ++ (bulkBytes key ++ bulkBytes value))
  | .incr key => arrayBytes 2 ++ (bulkBytes (ascii "INCR") ++ bulkBytes key)
  | .decr key => arrayBytes 2 ++ (bulkBytes (ascii "DECR") ++ bulkBytes key)

/-- What a call does once the request is written. -/
def receive : Command → Io σ Reply
  | .get _ => do return .value (← Client.receiveGet)
  | .set _ _ => do
    Client.receiveSet
    return .done
  | .incr _ => do return .int (← Client.receiveInt)
  | .decr _ => do return .int (← Client.receiveInt)

theorem startArray_eq (n : ℕ) : (startArray n : Io σ Unit) = writeAll (arrayBytes n) := by
  rw [startArray, finishMessageField, ← writeAll_append, ← writeAll_append]
  rfl

theorem call_eq (command : Command) : (call command : Io σ Reply) = (do
    writeAll (request command)
    receive command) := by
  rcases command with key | ⟨key, value⟩ | key | key
  · simp only [call, Client.get, startArray_eq, writeBulkString_eq, request, writeAll_append,
      bind_assoc]
    rfl
  · simp only [call, Client.set, startArray_eq, writeBulkString_eq, request, writeAll_append,
      bind_assoc]
    rfl
  · simp only [call, Client.increment, startArray_eq, writeBulkString_eq, request,
      writeAll_append, bind_assoc]
    rfl
  · simp only [call, Client.decrement, startArray_eq, writeBulkString_eq, request,
      writeAll_append, bind_assoc]
    rfl

/-! ## The server reads the command that was sent -/

/-- The strings of a command fit in the reader's buffer. -/
def Command.Fits : Command → Prop
  | .get key => FitsBuffer key
  | .set key value => FitsBuffer key ∧ FitsBuffer value
  | .incr key => FitsBuffer key
  | .decr key => FitsBuffer key

theorem reads_bulkBytes {s : Bytes} (hs : FitsBuffer s) (rest : Bytes) :
    ∃ mid, bulkBytes s ++ rest = respTypeToChar .BulkString :: mid ∧
      Reads (readBulkString : Io σ (Option Bytes)) mid (some s) rest := by
  refine ⟨_, ?_, reads_readBulkString hs rest⟩
  simp [bulkBytes]

theorem reads_readArg {s : Bytes} (hs : FitsBuffer s) (rest : Bytes) :
    Reads (readArg : Io σ Bytes) (bulkBytes s ++ rest) s rest := by
  obtain ⟨mid, hmid, hreads⟩ := reads_bulkBytes hs rest
  rw [hmid]
  refine (reads_readType _ _).bind ?_
  rw [if_neg (by decide)]
  exact hreads.bind (Reads.pure s rest)

theorem reads_readName {name : Bytes} {type : ECommands} {command_len : UInt64}
    (hname : FitsBuffer name) (htype : commands.lookup name = some type)
    (hlen : ¬ (((type = .GET ∨ type = .INCR ∨ type = .DECR) ∧ command_len ≠ 2) ∨
      (type = .SET ∧ command_len ≠ 3))) (rest : Bytes) :
    Reads (readName command_len : Io σ ECommands) (bulkBytes name ++ rest) type rest := by
  obtain ⟨mid, hmid, hreads⟩ := reads_bulkBytes hname rest
  rw [hmid]
  refine (reads_readType _ _).bind ?_
  rw [if_neg (by decide)]
  refine hreads.bind ?_
  simp only [htype]
  rw [if_neg hlen]
  exact Reads.pure type rest

theorem reads_readArrayHead (n : ℕ) (hn : n < 2 ^ 63) (rest : Bytes) :
    ∃ mid, arrayBytes n ++ rest = respTypeToChar .Array :: mid ∧
      Reads (readArrayLength : Io σ Int64) mid (Int64.ofInt n) rest := by
  refine ⟨_, ?_, reads_readArrayLength (by simp only [Lib.FitsInt64]; omega) (by omega) rest⟩
  simp [arrayBytes]

/-- A command of two strings. -/
theorem reads_readCommand_two {name key : Bytes} {type : ECommands} (hname : FitsBuffer name)
    (htype : commands.lookup name = some type) (hset : type ≠ .SET) (hkey : FitsBuffer key)
    (rest : Bytes) : Reads (readCommand : Io σ Command)
      (arrayBytes 2 ++ (bulkBytes name ++ bulkBytes key) ++ rest) (Command.make key [] type)
      rest := by
  rw [List.append_assoc, List.append_assoc]
  obtain ⟨mid, hmid, hreads⟩ := reads_readArrayHead 2 (by norm_num) (bulkBytes name ++
    (bulkBytes key ++ rest))
  rw [hmid]
  refine (reads_readType _ _).bind ?_
  rw [if_neg (by decide)]
  refine hreads.bind ?_
  dsimp only
  rw [if_neg (by decide)]
  refine (reads_readName hname htype ?_ _).bind ((reads_readArg hkey _).bind ?_)
  · rintro (⟨-, h⟩ | ⟨h, -⟩)
    · exact h (by decide)
    · exact hset h
  · rw [if_neg (by decide)]
    exact Reads.pure _ rest

/-- **The server reads the command that was sent**, and nothing after it. -/
theorem reads_readCommand {command : Command} (h : command.Fits) (rest : Bytes) :
    Reads (readCommand : Io σ Command) (request command ++ rest) command rest := by
  have hname (s : Bytes) (hs : s.length ≤ 4) : FitsBuffer s := by
    simp only [FitsBuffer, maxSize]
    omega
  rcases command with key | ⟨key, value⟩ | key | key
  · have htype : commands.lookup (ascii "GET") = some .GET := by decide
    exact reads_readCommand_two (hname _ (by decide)) htype (by decide) h rest
  · simp only [request, List.append_assoc]
    obtain ⟨mid, hmid, hreads⟩ := reads_readArrayHead 3 (by norm_num) (bulkBytes (ascii "SET") ++
      (bulkBytes key ++ (bulkBytes value ++ rest)))
    rw [hmid]
    refine (reads_readType _ _).bind ?_
    rw [if_neg (by decide)]
    refine hreads.bind ?_
    dsimp only
    rw [if_neg (by decide)]
    have htype : commands.lookup (ascii "SET") = some .SET := by decide
    refine (reads_readName (hname _ (by decide)) htype (by decide) _).bind ?_
    refine (reads_readArg h.1 _).bind ?_
    rw [if_pos (by decide)]
    exact (reads_readArg h.2 _).bind (Reads.pure _ rest)
  · have htype : commands.lookup (ascii "INCR") = some .INCR := by decide
    exact reads_readCommand_two (hname _ (by decide)) htype (by decide) h rest
  · have htype : commands.lookup (ascii "DECR") = some .DECR := by decide
    exact reads_readCommand_two (hname _ (by decide)) htype (by decide) h rest

/-! ## The client reads the reply that was sent -/

/-- The strings of a storage fit in the reader's buffer. -/
def SimpleStorage.Fits (st : SimpleStorage) : Prop := ∀ key v, st.get key = some v → FitsBuffer v

theorem fitsBuffer_printInt (n : Int64) : FitsBuffer (Lib.printInt n.toInt) := by
  have hline := (isLine_printInt (Lib.fitsInt64_toInt n)).1
  simp only [FitsBuffer, maxSize]
  omega

theorem SimpleStorage.Fits.insert {st : SimpleStorage} (h : st.Fits) (key : Bytes) {v : Value}
    (hv : FitsBuffer v.text) : (st.insert key v).Fits := by
  intro key' v' hget
  by_cases hkey : key' = key
  · subst hkey
    rw [SimpleStorage.get_insert_self] at hget
    exact Option.some.inj hget ▸ hv
  · rw [SimpleStorage.get_insert_of_ne _ _ hkey] at hget
    exact h key' v' hget

theorem SimpleStorage.Fits.changeInt {st : SimpleStorage} (h : st.Fits) (key : Bytes)
    (int_value delta : Int64) : (st.changeInt key int_value delta).2.Fits := by
  rw [SimpleStorage.changeInt]
  split
  · exact h
  · exact h.insert key (fitsBuffer_printInt _)

theorem SimpleStorage.Fits.change {st : SimpleStorage} (h : st.Fits) (key : Bytes)
    (delta : Int64) : (st.change key delta).2.Fits := by
  rw [SimpleStorage.change]
  split
  · exact h
  · exact h.changeInt key _ delta
  · have hzero : FitsBuffer (Value.int 0).text := fitsBuffer_printInt 0
    exact (h.insert key hzero).changeInt key 0 delta

/-- Executing a command keeps the strings short. -/
theorem SimpleStorage.Fits.exec {st : SimpleStorage} (h : st.Fits) {command : Command}
    (hc : command.Fits) : (command.exec st).2.Fits := by
  rcases command with key | ⟨key, value⟩ | key | key
  · exact h
  · refine h.insert key ?_
    by_cases hint : Lib.IsIntText value
    · obtain ⟨n, -, hparse⟩ := SimpleStorage.parse_of_isIntText hint
      rw [hparse]
      exact fitsBuffer_printInt n
    · rw [SimpleStorage.parse_of_not_isIntText hint]
      exact hc.2
  · exact h.change key 1
  · exact h.change key (-1)

theorem reads_receiveInt (n : Int64) (rest : Bytes) : Reads (Client.receiveInt : Io σ Int64)
    ((Reply.int n).bytes ++ rest) n rest := by
  simp only [Reply.bytes, List.cons_append, List.append_assoc]
  refine (reads_readType _ _).bind ?_
  rw [if_pos rfl]
  exact reads_readInt n rest

/-- **The client reads the reply that was sent**, and nothing after it. -/
theorem reads_receive {command : Command} {st : SimpleStorage} (hst : st.Fits) {r : Reply}
    (h : (command.exec st).1 = .ok r) (rest : Bytes) :
    Reads (receive command : Io σ Reply) (r.bytes ++ rest) r rest := by
  have hint {key : Bytes} {delta : Int64} (h : (st.change key delta).1.map Reply.int = .ok r) :
      Reads (do return .int (← Client.receiveInt) : Io σ Reply) (r.bytes ++ rest) r rest := by
    rcases hchange : (st.change key delta).1 with e | n
    · rw [hchange] at h
      cases h
    · rw [hchange] at h
      cases h
      exact (reads_receiveInt n rest).bind (Reads.pure _ rest)
  rcases command with key | ⟨key, value⟩ | key | key
  · cases h
    rcases hget : st.get key with _ | v
    · simp only [Reply.bytes, List.cons_append, List.append_assoc]
      refine ((reads_readType _ _).bind ?_).bind (Reads.pure _ rest)
      rw [if_pos rfl]
      exact reads_readBulkString_null rest
    · obtain ⟨mid, hmid, hreads⟩ := reads_bulkBytes (hst key v hget) rest
      simp only [Reply.bytes]
      rw [hmid]
      refine ((reads_readType _ _).bind ?_).bind (Reads.pure _ rest)
      rw [if_pos rfl]
      exact hreads
  · cases h
    have hok : FitsBuffer (ascii "OK") := by rw [FitsBuffer]; decide
    obtain ⟨mid, hmid, hreads⟩ := reads_bulkBytes hok rest
    have hset : Reads (Client.receiveSet : Io σ Unit) (respTypeToChar .BulkString :: mid) ()
        rest := by
      refine (reads_readType _ _).bind ?_
      rw [if_pos rfl]
      refine hreads.bind ?_
      rw [if_neg (by simp)]
      exact Reads.pure () rest
    simp only [Reply.bytes]
    rw [hmid]
    exact hset.bind (Reads.pure _ rest)
  · exact hint h
  · exact hint h

theorem reader_receive (command : Command) : Reader (receive command : Io σ Reply) := by
  have hwrong (α : Type) (resp_type : ERespType) :
      Reader (Client.wrongReply resp_type : Io σ α) :=
    ((reader_readBasicString.rethrow _).bind fun _ ↦ reader_throw _).ite (reader_throw _)
  have hint : Reader (do return .int (← Client.receiveInt) : Io σ Reply) := by
    refine (reader_readType.bind fun type ↦ Reader.ite ?_ (hwrong _ _)).bind fun _ ↦ reader_pure _
    refine Reader.rethrow (reader_readStoll.bind fun _ ↦ ?_) _
    exact (reader_throw _).ite (reader_pure _)
  rcases command with key | ⟨key, value⟩ | key | key
  · refine (reader_readType.bind fun type ↦ ?_).bind fun _ ↦ reader_pure _
    exact reader_readBulkString.ite (hwrong _ _)
  · refine (reader_readType.bind fun type ↦ Reader.ite ?_ (hwrong _ _)).bind fun _ ↦ reader_pure _
    exact reader_readBulkString.bind fun resp ↦ (reader_throw _).ite (reader_pure _)
  · exact hint
  · exact hint

/-- What every call throws when the server has closed the connection. -/
def lostConnection : Exc := .redisError (ascii "Error parsing simple string")

/-- At the end of the stream, a client that waits for a reply throws. -/
theorem receive_eq (command : Command) : ∃ next, (receive command : Io σ Reply) = read next ∧
    next none = raise lostConnection := by
  rcases command with key | ⟨key, value⟩ | key | key
  all_goals exact ⟨_, rfl, rfl⟩

end Redis
end ManyTasks
