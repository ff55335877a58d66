import ManyTasks.Redis.Codec

/-!
# The server

`ReadCommand` takes a command off a connection, `ProcessCommand` carries it out on the storage and
writes the reply, and the handler of a connection does one after the other until something throws.

The handler touches the storage in one place only, between the last byte it reads of a command and
the first byte it writes of the reply.  Two facts make that precise: `readCommand` is a reader
(`reader_readCommand`), and `processCommand` is one access to the storage by `Command.exec`
followed by writing the bytes of the reply (`processCommand_eq`).  `Command.exec` is what the
command means: the call of the storage, and what that call returns.
-/

set_option autoImplicit false

namespace ManyTasks
namespace Redis

open Lib (Prog)
open Lib.Prog

variable {σ : Type}

/-! ## Commands -/

/-- `ECommands`. -/
inductive ECommands where
  | GET
  | SET
  | INCR
  | DECR
deriving DecidableEq, Repr

/-- `commands_`. -/
def commands : List (Bytes × ECommands) :=
  [(ascii "GET", .GET), (ascii "SET", .SET), (ascii "INCR", .INCR), (ascii "DECR", .DECR)]

/-- `Command` and the classes derived from it. -/
inductive Command where
  | get (key : Bytes)
  | set (key value : Bytes)
  | incr (key : Bytes)
  | decr (key : Bytes)
deriving DecidableEq, Repr

/-- The end of `ReadCommand`: the object for a type. -/
def Command.make (key value : Bytes) : ECommands → Command
  | .GET => .get key
  | .SET => .set key value
  | .INCR => .incr key
  | .DECR => .decr key

/-! ## `ReadCommand` -/

/-- The turn of the loop with `i == 0`: the name, and whether the command has the length that goes
with it. -/
def readName (command_len : UInt64) : Io σ ECommands := do
  if (← readType) ≠ .BulkString then throw (.redisError (ascii "Wrong command format"))
  match ← readBulkString with
  | none => throw (.redisError (ascii "Wrong command name"))
  | some command_name =>
    match commands.lookup command_name with
    | none => throw (.redisError (ascii "Wrong command name"))
    | some command_type =>
      if ((command_type = .GET ∨ command_type = .INCR ∨ command_type = .DECR) ∧ command_len ≠ 2) ∨
          (command_type = .SET ∧ command_len ≠ 3) then
        throw (.redisError (ascii "Wrong command format"))
      return command_type

/-- The turns with `i == 1` and `i == 2`: the key and the value, with the same messages. -/
def readArg : Io σ Bytes := do
  if (← readType) ≠ .BulkString then throw (.redisError (ascii "Wrong command format"))
  match ← readBulkString with
  | none => throw (.redisError (ascii "Command null key"))
  | some arg => return arg

/-- `ReadCommand`.  The length of the array is converted to `size_t`. -/
def readCommand : Io σ Command := do
  if (← readType) ≠ .Array then throw (.redisError (ascii "Wrong command format"))
  let command_len := (← readArrayLength).toUInt64
  if command_len < 2 ∨ command_len > 3 then throw (.redisError (ascii "Unknown command"))
  let command_type ← readName command_len
  let command_key ← readArg
  let command_value ← if command_len = 3 then readArg else pure []
  return Command.make command_key command_value command_type

/-! ## `ProcessCommand` and the handler -/

/-- `storage_->Change(key, delta)` by the handler. -/
def changeStorage (key : Bytes) (delta : Int64) : Io SimpleStorage Int64 :=
  access fun st ↦ ((st.change key delta).1.mapError .storage, (st.change key delta).2)

/-- `ProcessCommand`.  The result of `Change` goes through an `ino64_t`, which is unsigned. -/
def processCommand : Command → Io SimpleStorage Unit
  | .get key => do
    match ← access fun st ↦ (.ok (st.get key), st) with
    | some value => writeBulkString value
    | none => writeNullBulkString
  | .set key value => do
    access fun st ↦ (.ok (), st.set key value)
    writeBulkString (ascii "OK")
  | .incr key => do
    let new_value ← changeStorage key 1
    writeInt new_value.toUInt64.toInt64
  | .decr key => do
    let new_value ← changeStorage key (-1)
    writeInt new_value.toUInt64.toInt64

/-- The body of the loop of a handler. -/
def serveOnce : Io SimpleStorage Unit := do
  let command ← readCommand
  processCommand command

/-- What the loop of a handler does next: start over after a command, stop after an exception
(`none`), go on otherwise. -/
def settle : Io SimpleStorage Unit → Option (Io SimpleStorage Unit)
  | .ret () => some serveOnce
  | .raise _ => none
  | p => some p

/-! ## What a command means -/

/-- What a call of the storage returns. -/
inductive Reply where
  | value (v : Option Bytes)
  | done
  | int (n : Int64)
deriving DecidableEq, Repr

/-- The call of the storage that a command stands for. -/
def Command.exec : Command → SimpleStorage → Except StorageError Reply × SimpleStorage
  | .get key, st => (.ok (.value (st.get key)), st)
  | .set key value, st => (.ok .done, st.set key value)
  | .incr key, st => ((st.change key 1).1.map .int, (st.change key 1).2)
  | .decr key, st => ((st.change key (-1)).1.map .int, (st.change key (-1)).2)

/-- A bulk string on the wire. -/
def bulkBytes (s : Bytes) : Bytes :=
  respTypeToChar .BulkString :: (Lib.printInt s.length ++ ([13, 10] ++ (s ++ [13, 10])))

/-- A reply on the wire. -/
def Reply.bytes : Reply → Bytes
  | .value (some v) => bulkBytes v
  | .value none => respTypeToChar .BulkString :: (ascii "-1" ++ [13, 10])
  | .done => bulkBytes (ascii "OK")
  | .int n => respTypeToChar .Int :: (Lib.printInt n.toInt ++ [13, 10])

/-- What is written for a result: nothing if the command failed. -/
def replyBytes : Except StorageError Reply → Bytes
  | .ok r => r.bytes
  | .error _ => []

theorem Reply.bytes_ne_nil (r : Reply) : r.bytes ≠ [] := by
  rcases r with (_ | v) | _ | n
  all_goals exact List.cons_ne_nil _ _

/-! ## Reading a command touches nothing -/

theorem reader_lineLoop (buf : LineBuf) : Reader (lineLoop buf : Io σ LineBuf) := by
  induction hn : 2 ^ 16 - buf.line.length using Nat.strong_induction_on generalizing buf with
  | _ n ih =>
    rw [lineLoop]
    refine (reader_readOne _).bind fun b ↦ (reader_pure _).ite ((reader_throw _).ite ?_)
    split
    · exact reader_throw _
    · rename_i buf' hpush
      have hlen := LineBuf.length_of_push hpush
      exact ih (2 ^ 16 - buf'.line.length) (by omega) buf' rfl

theorem reader_readBasicString : Reader (readBasicString : Io σ Bytes) :=
  (reader_lineLoop _).bind fun _ ↦ (reader_readOne _).bind fun _ ↦
    (reader_throw _).ite (reader_pure _)

theorem reader_readType : Reader (readType : Io σ ERespType) :=
  ((reader_readOne _).bind fun _ ↦ reader_lift _).rethrow _

theorem reader_readStoll : Reader (readStoll : Io σ (Bytes × Int64 × ℕ)) :=
  reader_readBasicString.bind fun _ ↦ (reader_lift _).bind fun _ ↦ reader_pure _

theorem reader_readLength : Reader (readLength : Io σ Int64) :=
  reader_readStoll.bind fun _ ↦ (reader_throw _).ite (reader_pure _)

theorem reader_readArrayLength : Reader (readArrayLength : Io σ Int64) :=
  reader_readLength.rethrow _

theorem reader_readBulkString : Reader (readBulkString : Io σ (Option Bytes)) := by
  refine Reader.rethrow (reader_readLength.bind fun length ↦ (reader_pure _).ite ?_) _
  dsimp only
  refine (reader_throw _).ite ((reader_readFull _ _).bind fun buf ↦ ?_)
  exact (reader_throw _).ite (reader_pure _)

theorem reader_readName (command_len : UInt64) :
    Reader (readName command_len : Io σ ECommands) := by
  refine reader_readType.bind fun type ↦ (reader_throw _).ite ?_
  refine reader_readBulkString.bind fun name ↦ ?_
  rcases name with _ | command_name
  · exact reader_throw _
  · change Reader (match commands.lookup command_name with | none => _ | some command_type => _)
    split
    · exact reader_throw _
    · exact (reader_throw _).ite (reader_pure _)

theorem reader_readArg : Reader (readArg : Io σ Bytes) := by
  refine reader_readType.bind fun type ↦ (reader_throw _).ite ?_
  refine reader_readBulkString.bind fun arg ↦ ?_
  rcases arg with _ | arg
  · exact reader_throw _
  · exact reader_pure _

theorem reader_readCommand : Reader (readCommand : Io σ Command) := by
  refine reader_readType.bind fun type ↦ (reader_throw _).ite ?_
  refine reader_readArrayLength.bind fun command_len ↦ ?_
  dsimp only
  refine (reader_throw _).ite ?_
  refine (reader_readName _).bind fun command_type ↦ reader_readArg.bind fun command_key ↦ ?_
  exact (reader_readArg.bind fun _ ↦ reader_pure _).ite (reader_pure _)

/-! ## Processing a command touches the storage once -/

theorem writeBulkString_eq (s : Bytes) :
    (writeBulkString s : Io σ Unit) = writeAll (bulkBytes s) := by
  rw [writeBulkString, finishMessageField, ← writeAll_append, ← writeAll_append, ← writeAll_append,
    ← writeAll_append]
  rfl

theorem writeNullBulkString_eq : (writeNullBulkString : Io σ Unit) =
    writeAll (respTypeToChar .BulkString :: (ascii "-1" ++ [13, 10])) := by
  rw [writeNullBulkString, finishMessageField, ← writeAll_append, ← writeAll_append]
  rfl

theorem writeInt_eq (n : Int64) : (writeInt n : Io σ Unit) =
    writeAll (respTypeToChar .Int :: (Lib.printInt n.toInt ++ [13, 10])) := by
  rw [writeInt, finishMessageField, ← writeAll_append, ← writeAll_append]
  rfl

/-- What the handler does with the result of a call of the storage. -/
def sendReply : Except StorageError Reply → Io SimpleStorage Unit
  | .ok r => writeAll r.bytes
  | .error e => raise (.storage e)

/-- `ProcessCommand` is the call of the storage and then the bytes of what it returned. -/
theorem processCommand_eq (command : Command) :
    processCommand command =
      atomic (fun st ↦ (command.exec st).2) fun st ↦ sendReply (command.exec st).1 := by
  have hchange (key : Bytes) (delta : Int64) : (do
      let new_value ← changeStorage key delta
      writeInt new_value.toUInt64.toInt64) = atomic (fun st ↦ (st.change key delta).2) fun st ↦
        sendReply ((st.change key delta).1.map Reply.int) := by
    refine congrArg (atomic _) (funext fun st ↦ ?_)
    dsimp only
    rcases (st.change key delta).1 with e | n
    · rfl
    · change writeInt n.toUInt64.toInt64 = _
      rw [writeInt_eq, Int64.toInt64_toUInt64]
      rfl
  rcases command with key | ⟨key, value⟩ | key | key
  · refine congrArg (atomic _) (funext fun st ↦ ?_)
    dsimp only [Command.exec]
    rcases st.get key with _ | value
    · exact writeNullBulkString_eq
    · exact writeBulkString_eq value
  · refine congrArg (atomic _) (funext fun st ↦ ?_)
    exact writeBulkString_eq _
  · exact hchange key 1
  · exact hchange key (-1)

theorem processCommand_step (closed : Prop) (command : Command) (st : SimpleStorage)
    (inp : Bytes) : Prog.Step closed (processCommand command) st inp
      (sendReply (command.exec st).1) (command.exec st).2 inp [] := by
  rw [processCommand_eq]
  exact .atomic _ _ _ _

theorem step_processCommand {closed : Prop} {command : Command} {p : Io SimpleStorage Unit}
    {st st' : SimpleStorage} {inp inp' out : Bytes}
    (h : Prog.Step closed (processCommand command) st inp p st' inp' out) :
    p = sendReply (command.exec st).1 ∧ st' = (command.exec st).2 ∧ inp' = inp ∧ out = [] := by
  rw [processCommand_eq] at h
  cases h
  exact ⟨rfl, rfl, rfl, rfl⟩

/-- A handler in the middle of a command goes on. -/
theorem settle_bind {p : Io SimpleStorage Command} (h : ∀ e, p ≠ raise e) :
    settle (p >>= processCommand) = some (p >>= processCommand) := by
  rcases p with command | e | next | ⟨b, next⟩ | ⟨update, next⟩
  · change settle (processCommand command) = some (processCommand command)
    rw [processCommand_eq]
    rfl
  · exact absurd rfl (h e)
  all_goals rfl

theorem settle_writeAll {out : Bytes} (h : out ≠ []) :
    settle (writeAll out) = some (writeAll out) := by
  rcases out with _ | ⟨b, out⟩
  · exact absurd rfl h
  · rfl

end Redis
end ManyTasks
