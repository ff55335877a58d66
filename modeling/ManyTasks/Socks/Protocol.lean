import ManyTasks.Io.Connection
import ManyTasks.Lib.Endian

/-!
# SOCKS4

`Sock4Connect` and `DialProxyChain` are a client of the protocol, `ReadUserName` and `MakeConn` a
server.  A request is the version, the command, the port, the address, and the name of a user up to
a zero byte; a reply is eight bytes, the first two of which are 0 and 90 if the server has
connected.

An address and a port lie in the memory in network byte order, whatever the byte order of the
machine is.  `MakeConn` is modelled up to where it forwards what the two connections send.
-/

set_option autoImplicit false

namespace ManyTasks
namespace Socks

open Io Lib Lib.Proc

/-! ## Addresses -/

/-- The number whose memory is that of `port` on a machine with the byte order of the network. -/
def htons (o : ByteOrder) (port : UInt16) : UInt16 :=
  UInt16.ofNat (o.decode (ByteOrder.big.encode 2 port.toNat))

def ntohs (o : ByteOrder) (port : UInt16) : UInt16 :=
  UInt16.ofNat (ByteOrder.big.decode (o.encode 2 port.toNat))

/-- A `SocketAddress` that is not empty: `s_addr` and `sin_port` of its `sockaddr_in`. -/
structure SocketAddress where
  ip : UInt32
  sin_port : UInt16
deriving DecidableEq, Repr

namespace SocketAddress

def new (o : ByteOrder) (ip : UInt32) (port : UInt16) : SocketAddress := ⟨ip, htons o port⟩

def getPort (o : ByteOrder) (a : SocketAddress) : UInt16 := ntohs o a.sin_port

def getIp (a : SocketAddress) : UInt32 := a.ip

end SocketAddress

inductive Exception where
  | eofException
  /-- `std::exception`. -/
  | exception
  | runtime_error (what : String)
  /-- What else the system throws. -/
  | other (error : ℕ)
deriving DecidableEq, Repr

/-- What is asked besides the connection: another one. -/
inductive DialOp where
  | dialTCP (address : SocketAddress)
deriving DecidableEq, Repr

def DialRes : DialOp → Type
  | .dialTCP _ => Except Exception Unit

/-- A connection is known by the address that has been dialled. -/
def dialTCP (address : SocketAddress) : ConnM Exception DialRes SocketAddress := do
  ExceptT.mk (ConnProc.ext (.dialTCP address))
  return address

section Conn

variable {X : Type} {Res : X → Type}

/-- `ReadFull` into an `u_char`. -/
def readChar : ConnM Exception Res UInt8 := (·.headD 0) <$> ConnM.readFull .eofException 1

/-- `ReadFull` into an `uint16_t`. -/
def readUInt16 (o : ByteOrder) : ConnM Exception Res UInt16 :=
  (fun bytes ↦ UInt16.ofNat (o.decode bytes)) <$> ConnM.readFull .eofException 2

/-- `ReadFull` into an `uint32_t`. -/
def readUInt32 (o : ByteOrder) : ConnM Exception Res UInt32 :=
  (fun bytes ↦ UInt32.ofNat (o.decode bytes)) <$> ConnM.readFull .eofException 4

/-! ## The client -/

/-- The end of `Sock4Connect`. -/
def readReply (o : ByteOrder) : ConnM Exception Res Unit := do
  let vn ← readChar
  if vn ≠ 0 then throw .exception
  else do
    let cd ← readChar
    if cd ≠ 90 then throw .exception
    else do
      discard (readUInt16 o)
      discard (readUInt32 o)

def sock4Connect (o : ByteOrder) (endpoint : SocketAddress) (user : Bytes) :
    ConnM Exception Res Unit := do
  ConnProc.write [4]
  ConnProc.write [1]
  let port := htons o (endpoint.getPort o)
  ConnProc.write (o.encode 2 port.toNat)
  let ip := endpoint.getIp
  ConnProc.write (o.encode 4 ip.toNat)
  ConnProc.write user
  ConnProc.write [0]
  readReply o

end Conn

structure Proxy where
  proxy_address : SocketAddress
  username : Bytes
deriving DecidableEq, Repr

/-- The loop of `DialProxyChain` from `i` on, and the call after it. -/
def connectFrom (o : ByteOrder) (proxies : List Proxy) (endpoint : SocketAddress) (i : ℕ)
    (hpos : 0 < i)
    (hi : i ≤ proxies.length) : ConnM Exception DialRes Unit :=
  if h : i < proxies.length then do
    sock4Connect o proxies[i].proxy_address proxies[i - 1].username
    connectFrom o proxies endpoint (i + 1) (Nat.succ_pos i) h
  else
    sock4Connect o endpoint proxies[i - 1].username
termination_by proxies.length - i

/-- `DialProxyChain`; `none` is `nullptr`. -/
def dialProxyChain (o : ByteOrder) (proxies : List Proxy) (endpoint : SocketAddress) :
    ConnM Exception DialRes (Option SocketAddress) :=
  tryCatch
    (if h : proxies = [] then some <$> dialTCP endpoint
    else do
      have hlen := List.length_pos_of_ne_nil h
      let conn ← dialTCP proxies[0].proxy_address
      connectFrom o proxies endpoint 1 Nat.one_pos hlen
      return some conn)
    fun _ ↦ return none

/-! ## The server -/

/-- One byte of a user name. -/
def readNameChar : ConnM Exception DialRes UInt8 := do
  let piece ← ConnProc.read 1
  match piece with
  | [] => throw .eofException
  | c :: _ => return c

/-- The loop of `ReadUserName`, where so many bytes fit after the next one.  It returns the last
byte. -/
def readName : ℕ → ConnM Exception DialRes UInt8
  | 0 => readNameChar
  | room + 1 => do
    let c ← readNameChar
    if c ≠ 0 then readName room else return c

/-- `ReadUserName`, with 257 bytes. -/
def readUserName : ConnM Exception DialRes Unit := do
  let last ← readName 256
  if last ≠ 0 then throw (.runtime_error "Wrong user name") else return

/-- A reply, as `MakeConn` writes it. -/
def writeReply (o : ByteOrder) (cd : UInt8) : ConnM Exception DialRes Unit := do
  ConnProc.write [0]
  ConnProc.write [cd]
  ConnProc.write (o.encode 2 0)
  ConnProc.write (o.encode 4 0)

/-- The `try` block of `MakeConn`; it returns `proxy_conn`. -/
def connectRequest (o : ByteOrder) : ConnM Exception DialRes SocketAddress := do
  let vn ← readChar
  if vn ≠ 4 then throw (.runtime_error "Wrong request")
  else do
    let cd ← readChar
    if cd ≠ 1 then throw (.runtime_error "Wrong request")
    else do
      let port ← readUInt16 o
      let ip ← readUInt32 o
      readUserName
      let endpoint := SocketAddress.new o ip (htons o port)
      dialTCP endpoint

/-- Where `MakeConn` has come to. -/
inductive Made where
  | returned
  /-- It forwards data; `none` is a null pointer. -/
  | forwards (proxy_conn : Option SocketAddress)
deriving DecidableEq, Repr

/-- The blocks of `MakeConn`: `none` where it returns, or `proxy_conn`. -/
def connectOrAnswer (o : ByteOrder) : ConnM Exception DialRes (Option (Option SocketAddress)) :=
  tryCatch (do
      let proxy_conn ← connectRequest o
      return some (some proxy_conn))
    fun e ↦ match e with
      | .eofException => return none
      | _ => do
        writeReply o 91
        ConnProc.closeWrite
        return some none

/-- `MakeConn`.  After an error has been answered it goes on as after a success. -/
def makeConn (o : ByteOrder) : ConnM Exception DialRes Made := do
  match ← connectOrAnswer o with
  | none => return .returned
  | some proxy_conn =>
    writeReply o 90
    return .forwards proxy_conn

end Socks
end ManyTasks
