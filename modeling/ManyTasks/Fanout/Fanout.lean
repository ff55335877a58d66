import ManyTasks.Lib.Determinacy
import ManyTasks.Socks.Protocol

/-!
# Fanout

`Fanout` gets tokens from a server, sends each of them to a server of its own, adds up what these
answer, sends the sum to the first server and returns what this one says then.  The tokens are
sent by the fibers of a `WaitGroup`, one for each token.

The model is all that takes part: the fiber that has called `Fanout` (`Main`), the fibers of the
group (`Fiber`) and the servers, which are any programs.  They move in any order, one byte at a
time.  It begins when the first `DialTCP` has returned.

Where a fiber of the group ends with an exception, `Wait` throws it.  Of several such fibers the
model does not know the first one, it takes any of them.
-/

set_option autoImplicit false

namespace ManyTasks
namespace Fanout

open Lib Io Socks

inductive Exception where
  | eofException
  /-- A `std::vector` is made too long. -/
  | lengthError
  /-- `DialTCP` has failed. -/
  | systemError
deriving DecidableEq, Repr

/-- A function that works on a connection. -/
abbrev ConnProg (α : Type) : Type := Prog UInt8 Unit Exception α

/-- What is at the other end. -/
abbrev Server : Type := Prog UInt8 Unit Unit Unit

/-- The memory of a number. -/
def word (o : ByteOrder) (n : UInt64) : Bytes := o.encode 8 n.toNat

/-- The number with this memory. -/
def ofWord (o : ByteOrder) (bytes : Bytes) : UInt64 := UInt64.ofNat (o.decode bytes)

/-- The numbers of a vector with this memory. -/
def ofWords (o : ByteOrder) : ℕ → Bytes → List UInt64
  | 0, _ => []
  | n + 1, bytes => ofWord o (bytes.take 8) :: ofWords o n (bytes.drop 8)

/-! ## The functions -/

/-- `GetTokens`.  A vector of numbers of eight bytes cannot have `2 ^ 60` of them. -/
def getTokens (o : ByteOrder) : ConnProg (List UInt64) := do
  let tokens_size ← ofWord o <$> Prog.readFull .eofException 8
  if 2 ^ 60 ≤ tokens_size.toNat then throw .lengthError
  else ofWords o tokens_size.toNat <$> Prog.readFull .eofException (8 * tokens_size.toNat)

/-- `cur_address`. -/
def partAddress (o : ByteOrder) (address : SocketAddress) (i : ℕ) : SocketAddress :=
  { address with sin_port := htons o (UInt16.ofNat ((address.getPort o).toNat + i + 1)) }

/-- A fiber of `GetSecret`, when it has dialled. -/
def getPart (o : ByteOrder) (token : UInt64) : ConnProg UInt64 := do
  Prog.writeAll (word o token)
  ofWord o <$> Prog.readFull .eofException 8

/-- `std::reduce` of `secret_parts` from `0ul` on. -/
def reduce (secret_parts : List UInt64) : UInt64 := secret_parts.foldl (· + ·) 0

/-! ## The fibers of the group -/

/-- A fiber of the group; what it returns is what it has put into `secret_parts`. -/
inductive Fiber where
  | dials (address : SocketAddress) (token : UInt64)
  | talks (link : Link UInt8 Exception Unit UInt64 Unit)
  | failed (e : Exception)

/-- What a fiber has ended with. -/
def Fiber.result : Fiber → Option (Except Exception UInt64)
  | .dials _ _ => none
  | .talks ⟨.ret part, _, _, _⟩ => some (.ok part)
  | .talks ⟨.raise e, _, _, _⟩ => some (.error e)
  | .talks _ => none
  | .failed e => some (.error e)

section Step

variable (o : ByteOrder) (world : SocketAddress → Option Server)

/-- A fiber of the group or its server moves. -/
inductive Fiber.Step : Fiber → Fiber → Prop where
  | dial {address : SocketAddress} {token : UInt64} {server : Server}
      (h : world address = some server) :
      Step (.dials address token) (.talks ⟨getPart o token, server, [], []⟩)
  | refuse {address : SocketAddress} {token : UInt64} (h : world address = none) :
      Step (.dials address token) (.failed .systemError)
  | talk {d d' : Link UInt8 Exception Unit UInt64 Unit} (h : Link.Step d d') :
      Step (.talks d) (.talks d')

/-! ## The fiber that has called `Fanout` -/

/-- Where `Fanout` is. -/
inductive Main where
  | getsTokens (p : ConnProg (List UInt64))
  /-- It is about to spawn fiber `i`. -/
  | spawns (tokens : List UInt64) (i : ℕ)
  /-- In `Wait`. -/
  | waits
  | sends (p : ConnProg Unit)
  /-- In `ReadAllToString`. -/
  | reads (flag : Bytes)
  | returned (flag : Bytes)
  | thrown (e : Exception)

/-- It has returned or thrown, and the connection is closed. -/
def Main.Ended : Main → Prop
  | .returned _ => True
  | .thrown _ => True
  | _ => False

/-- `Fanout` moves, where the fibers of the group have ended with `results` and `closed` says that
the server has ended.  It may write, and it may spawn a fiber. -/
inductive Main.Step (address : SocketAddress) (closed : Prop)
    (results : List (Option (Except Exception UInt64))) :
    Main → Bytes → Main → Bytes → Bytes → List Fiber → Prop where
  | getTokens {p p' : ConnProg (List UInt64)} {inp inp' out : Bytes}
      (h : Prog.Step closed p () inp p' () inp' out) :
      Step address closed results (.getsTokens p) inp (.getsTokens p') inp' out []
  | gotTokens {tokens : List UInt64} {inp : Bytes} :
      Step address closed results (.getsTokens (.ret tokens)) inp (.spawns tokens 0) inp [] []
  | noTokens {e : Exception} {inp : Bytes} :
      Step address closed results (.getsTokens (.raise e)) inp (.thrown e) inp [] []
  | spawn {tokens : List UInt64} {i : ℕ} {token : UInt64} {inp : Bytes}
      (h : tokens[i]? = some token) :
      Step address closed results (.spawns tokens i) inp (.spawns tokens (i + 1)) inp []
        [.dials (partAddress o address i) token]
  | spawned {tokens : List UInt64} {i : ℕ} {inp : Bytes} (h : tokens[i]? = none) :
      Step address closed results (.spawns tokens i) inp .waits inp [] []
  | waited {parts : List UInt64} {inp : Bytes}
      (h : results = parts.map fun part ↦ some (.ok part)) :
      Step address closed results .waits inp
        (.sends (Prog.writeAll (word o (reduce parts)))) inp [] []
  | waitThrows {e : Exception} {inp : Bytes} (h : some (.error e) ∈ results) :
      Step address closed results .waits inp (.thrown e) inp [] []
  | send {p p' : ConnProg Unit} {inp inp' out : Bytes}
      (h : Prog.Step closed p () inp p' () inp' out) :
      Step address closed results (.sends p) inp (.sends p') inp' out []
  | sent {inp : Bytes} : Step address closed results (.sends (.ret ())) inp (.reads []) inp [] []
  | read {flag inp : Bytes} {b : UInt8} :
      Step address closed results (.reads flag) (b :: inp) (.reads (flag ++ [b])) inp [] []
  | eof {flag : Bytes} (h : closed) :
      Step address closed results (.reads flag) [] (.returned flag) [] [] []

/-! ## All together -/

structure State where
  main : Main
  /-- The server that has the tokens. -/
  server : Server
  toMain : Bytes
  toServer : Bytes
  fibers : List Fiber

/-- The results of the fibers that have ended. -/
def State.results (s : State) : List (Option (Except Exception UInt64)) := s.fibers.map Fiber.result

/-- `Fanout` or its server moves, or one of the others. -/
inductive Step (address : SocketAddress) (s : State) : State → Prop where
  | main {m : Main} {inp out : Bytes} {new : List Fiber}
      (h : Main.Step o address s.server.Ended s.results s.main s.toMain m inp out new) :
      Step address s ⟨m, s.server, inp, s.toServer ++ out, s.fibers ++ new⟩
  | server {q : Server} {inp out : Bytes}
      (h : Prog.Step s.main.Ended s.server () s.toServer q () inp out) :
      Step address s ⟨s.main, q, s.toMain ++ out, inp, s.fibers⟩
  | fiber {i : ℕ} {f f' : Fiber} (hi : s.fibers[i]? = some f) (h : Fiber.Step o world f f') :
      Step address s ⟨s.main, s.server, s.toMain, s.toServer, s.fibers.set i f'⟩

end Step

/-- `DialTCP` has returned. -/
def start (o : ByteOrder) (server : Server) : State :=
  ⟨.getsTokens (getTokens o), server, [], [], []⟩

end Fanout
end ManyTasks
