import ManyTasks.Socks.Protocol

/-!
# The client and the server agree

What `Sock4Connect` writes is a request that `MakeConn` understands, and what `MakeConn` writes then
is a reply that `Sock4Connect` accepts.  The two machines may have different byte orders: addresses
are compared by their memory (`SocketAddress.memory`), which is in network byte order on both.
-/

set_option autoImplicit false

namespace ManyTasks
namespace Socks

open Io Lib Lib.Proc

/-! ## Byte orders -/

theorem htons_eq_ntohs (o : ByteOrder) (port : UInt16) : htons o port = ntohs o port := by
  cases o <;> rfl

theorem toNat_ofNat_decode {o : ByteOrder} {bytes : Bytes} (hlen : bytes.length = 2) :
    (UInt16.ofNat (o.decode bytes)).toNat = o.decode bytes := by
  have hlt := o.decode_lt bytes
  rw [hlen] at hlt
  exact UInt16.toNat_ofNat'.trans (Nat.mod_eq_of_lt hlt)

/-- A port in network byte order has the memory of the port on a machine with that byte order. -/
theorem encode_htons (o : ByteOrder) (port : UInt16) :
    o.encode 2 (htons o port).toNat = ByteOrder.big.encode 2 port.toNat := by
  have hlen : (ByteOrder.big.encode 2 port.toNat).length = 2 := ByteOrder.length_encode _ _ _
  have hencode := o.encode_decode (ByteOrder.big.encode 2 port.toNat)
  rw [hlen] at hencode
  rw [htons, toNat_ofNat_decode hlen, hencode]

theorem ntohs_htons (o : ByteOrder) (port : UInt16) : ntohs o (htons o port) = port := by
  have hlt : port.toNat < 256 ^ 2 := port.toNat_lt
  rw [ntohs, encode_htons, ByteOrder.decode_encode, Nat.mod_eq_of_lt hlt, UInt16.ofNat_toNat]

theorem htons_ntohs (o : ByteOrder) (port : UInt16) : htons o (ntohs o port) = port := by
  rw [← htons_eq_ntohs, htons_eq_ntohs, ntohs_htons]

/-- `s_addr` and `sin_port` in the memory, the port first. -/
def SocketAddress.memory (o : ByteOrder) (a : SocketAddress) : Bytes :=
  o.encode 2 a.sin_port.toNat ++ o.encode 4 a.ip.toNat

/-- The numbers that have been read have the memory that has been read. -/
theorem memory_new {o : ByteOrder} {port ip : Bytes} (hport : port.length = 2)
    (hip : ip.length = 4) :
    (SocketAddress.new o (UInt32.ofNat (o.decode ip))
      (htons o (UInt16.ofNat (o.decode port)))).memory o
      = port ++ ip := by
  have hencode_port := o.encode_decode port
  have hencode_ip := o.encode_decode ip
  have hlt := o.decode_lt ip
  rw [hport] at hencode_port
  rw [hip] at hencode_ip hlt
  rw [SocketAddress.memory, SocketAddress.new]
  dsimp only
  have htoNat : (UInt32.ofNat (o.decode ip)).toNat = o.decode ip :=
    UInt32.toNat_ofNat'.trans (Nat.mod_eq_of_lt hlt)
  rw [htons_eq_ntohs, ntohs_htons, toNat_ofNat_decode hport, hencode_port, htoNat, hencode_ip]

/-- Addresses with the same memory are the same. -/
theorem SocketAddress.memory_injective (o : ByteOrder) :
    Function.Injective (SocketAddress.memory o) := by
  intro a a' h
  obtain ⟨hport, hip⟩ :=
    List.append_inj h (by rw [ByteOrder.length_encode, ByteOrder.length_encode])
  have hport' := congrArg o.decode hport
  have hip' := congrArg o.decode hip
  have hlt (port : UInt16) : port.toNat < 256 ^ 2 := port.toNat_lt
  have hlt' (ip : UInt32) : ip.toNat < 256 ^ 4 := ip.toNat_lt
  rw [ByteOrder.decode_encode, ByteOrder.decode_encode, Nat.mod_eq_of_lt (hlt _),
    Nat.mod_eq_of_lt (hlt _)] at hport'
  rw [ByteOrder.decode_encode, ByteOrder.decode_encode, Nat.mod_eq_of_lt (hlt' _),
    Nat.mod_eq_of_lt (hlt' _)] at hip'
  cases a
  cases a'
  exact congrArg₂ SocketAddress.mk (UInt32.toNat_inj.1 hip') (UInt16.toNat_inj.1 hport')

/-! ## Reading and writing -/

section Conn

variable {X σ : Type} {Res : X → Type} {answers : σ → (x : X) → Res x → σ → Prop}
    {ready : Bytes → Prop}
  {s : Solo UInt8 σ} {rest : Bytes}

theorem yields_readChar {c : UInt8} (hinp : s.inp = c :: rest) (hready : ready s.out) :
    Yields (Alone answers ready) (readChar : ConnM Exception Res UInt8).run s (.ok c)
      (s.skip 1) := by
  have hcut : s.inp = [c] ++ rest := hinp
  exact (yields_readFull_append hcut hready rfl).map (·.headD 0)

theorem yields_readChar_eof (hinp : s.inp = []) (hready : ready s.out) (hended : s.ended = true) :
    Yields (Alone answers ready) (readChar : ConnM Exception Res UInt8).run s
      (.error .eofException) (s.skip s.inp.length) :=
  (yields_readFull_eof hready (by rw [hinp]; exact Nat.one_pos) hended).map _

theorem yields_readUInt16 {o : ByteOrder} {bytes : Bytes} (hinp : s.inp = bytes ++ rest)
    (hready : ready s.out)
    (hlen : bytes.length = 2) :
    Yields (Alone answers ready) (readUInt16 o : ConnM Exception Res UInt16).run s
      (.ok (UInt16.ofNat (o.decode bytes))) (s.skip 2) :=
  hlen ▸ (yields_readFull_append hinp hready hlen.symm).map _

theorem yields_readUInt32 {o : ByteOrder} {bytes : Bytes} (hinp : s.inp = bytes ++ rest)
    (hready : ready s.out)
    (hlen : bytes.length = 4) :
    Yields (Alone answers ready) (readUInt32 o : ConnM Exception Res UInt32).run s
      (.ok (UInt32.ofNat (o.decode bytes))) (s.skip 4) :=
  hlen ▸ (yields_readFull_append hinp hready hlen.symm).map _

/-- What `Sock4Connect` writes. -/
def request (o : ByteOrder) (endpoint : SocketAddress) (user : Bytes) : List Bytes :=
  [[4], [1], o.encode 2 endpoint.sin_port.toNat, o.encode 4 endpoint.ip.toNat, user, [0]]

/-- `Sock4Connect` writes a request and then reads a reply. -/
theorem ends_sock4Connect {Q : Except Exception Unit → Solo UInt8 σ → Prop} (o : ByteOrder)
    (endpoint : SocketAddress)
    (user : Bytes) (hopen : s.closed = false) :
    Ends (Alone answers ready) Q (sock4Connect o endpoint user : ConnM Exception Res Unit).run s ↔
      Ends (Alone answers ready) Q (readReply o : ConnM Exception Res Unit).run
        (s.sendAll (request o endpoint user)) := by
  have hport : htons o (endpoint.getPort o) = endpoint.sin_port := htons_ntohs o _
  rw [sock4Connect, ends_write, ends_write, ends_write, ends_write, ends_write, ends_write, hport]
  · simp only [request, Solo.sendAll_cons, Solo.sendAll_nil, SocketAddress.getIp]
  all_goals exact hopen

/-- A good reply is accepted. -/
theorem yields_readReply {o : ByteOrder} {port ip : Bytes}
    (hinp : s.inp = 0 :: 90 :: (port ++ (ip ++ rest)))
    (hready : ready s.out) (hport : port.length = 2) (hip : ip.length = 4) :
    Yields (Alone answers ready) (readReply o : ConnM Exception Res Unit).run s (.ok ())
      (s.skip 8) := by
  have hinp₁ : (s.skip 1).inp = 90 :: (port ++ (ip ++ rest)) :=
    Solo.inp_skip_cons hinp
  have hinp₂ : ((s.skip 1).skip 1).inp = port ++ (ip ++ rest) :=
    Solo.inp_skip_cons hinp₁
  have hinp₃ : (((s.skip 1).skip 1).skip 2).inp = ip ++ rest :=
    Solo.inp_skip_append hinp₂ hport
  have hskip : (((s.skip 1).skip 1).skip 2).skip 4 = s.skip 8 := by simp only [Solo.skip_skip]
  have hport' : Yields (Alone answers ready) (discard (readUInt16 o) : ConnM Exception Res Unit).run
      ((s.skip 1).skip 1) (.ok ()) (((s.skip 1).skip 1).skip 2) :=
    (yields_readUInt16 hinp₂ hready hport).map _
  have hip' : Yields (Alone answers ready) (discard (readUInt32 o) : ConnM Exception Res Unit).run
      (((s.skip 1).skip 1).skip 2) (.ok ()) (s.skip 8) :=
    hskip ▸ (yields_readUInt32 hinp₃ hready hip).map _
  rw [Yields, readReply, (yields_readChar hinp hready).bind, if_neg (not_not.2 rfl),
    (yields_readChar hinp₁ hready).bind, if_neg (not_not.2 rfl), hport'.bind]
  exact hip'

end Conn

/-! ## The server -/

/-- Connections are dialled, with this outcome for each address, and remembered. -/
inductive Dials (outcome : SocketAddress → Except Exception Unit) (dialled : List SocketAddress) :
    (op : DialOp) → DialRes op → List SocketAddress → Prop
  | dialTCP (address : SocketAddress) :
      Dials outcome dialled (.dialTCP address) (outcome address) (dialled ++ [address])

/-- Every address can be reached. -/
def reachable : SocketAddress → Except Exception Unit := fun _ ↦ .ok ()

section Server

variable {outcome : SocketAddress → Except Exception Unit} {ready : Bytes → Prop}
  {s : Solo UInt8 (List SocketAddress)} {rest : Bytes}

theorem yields_dialTCP (address : SocketAddress) :
    Yields (Alone (Dials outcome) ready) (dialTCP address).run s
      ((outcome address).map fun _ ↦ address)
      { s with ext := s.ext ++ [address] } := by
  have hask : Yields (Alone (Dials outcome) ready)
      (ConnProc.ext (.dialTCP address) : ConnProc UInt8 Exception DialRes
        (DialRes (.dialTCP address))) s
      (outcome address) { s with ext := s.ext ++ [address] } := by
    refine yields_ask (.ext (.dialTCP address)) fun r s' h ↦ ?_
    cases h with
    | ext h =>
      cases h
      exact ⟨rfl, rfl⟩
  rw [Yields, dialTCP, ExceptT.run_bind, ends_bind]
  refine hask.ends_iff.2 ?_
  rcases outcome address with e | u
  · exact ⟨rfl, rfl⟩
  · exact ⟨rfl, rfl⟩

theorem yields_readNameChar {c : UInt8} (hinp : s.inp = c :: rest) (hready : ready s.out) :
    Yields (Alone (Dials outcome) ready) readNameChar.run s (.ok c) (s.skip 1) := by
  have hread : Yields (Alone (Dials outcome) ready)
    (ConnProc.read 1 : ConnM Exception DialRes Bytes).run s (.ok [c])
      (s.skip 1) := by
    have hcut : s.inp = [c] ++ rest := hinp
    refine yields_ask (.read hready hcut (Nat.le_refl 1) (Or.inl (List.cons_ne_nil _ _)))
      fun r s' h ↦ ?_
    cases h with
    | @read _ piece rest' _ hinp' hle hne =>
      obtain ⟨d, rfl⟩ := List.length_eq_one_iff.1
        (Nat.le_antisymm hle (List.length_pos_of_ne_nil (hne.resolve_right Nat.one_ne_zero)))
      obtain ⟨rfl, -⟩ := List.cons.inj (hinp.symm.trans hinp')
      exact ⟨rfl, rfl⟩
    | eof _ hinp' => cases hinp.symm.trans hinp'
  exact hread.bind.2 (yields_pure _ _)

/-- A name that is not too long is read up to its zero byte. -/
theorem yields_readName {user : Bytes} {room : ℕ} (hinp : s.inp = user ++ 0 :: rest)
    (hready : ready s.out)
    (hzero : 0 ∉ user) (hroom : user.length ≤ room) :
    Yields (Alone (Dials outcome) ready) (readName room).run s (.ok 0)
      (s.skip (user.length + 1)) := by
  induction room generalizing user s with
  | zero =>
    obtain rfl := List.eq_nil_of_length_eq_zero (Nat.le_zero.1 hroom)
    exact yields_readNameChar hinp hready
  | succ room ih =>
    cases user with
    | nil =>
      rw [Yields, readName, (yields_readNameChar hinp hready).bind, if_neg (not_not.2 rfl)]
      exact yields_pure _ _
    | cons c user =>
      obtain ⟨hc, hzero⟩ := not_or.1 (List.mem_cons.not.1 hzero)
      have hinp' : (s.skip 1).inp = user ++ 0 :: rest := Solo.inp_skip_cons hinp
      have hrest := ih hinp' hready hzero (Nat.le_of_succ_le_succ hroom)
      rw [Solo.skip_skip, Nat.add_comm] at hrest
      rw [Yields, readName, (yields_readNameChar hinp hready).bind, if_pos (Ne.symm hc)]
      exact hrest

theorem yields_readUserName {user : Bytes} (hinp : s.inp = user ++ 0 :: rest) (hready : ready s.out)
    (hzero : 0 ∉ user) (hlen : user.length ≤ 256) :
    Yields (Alone (Dials outcome) ready) readUserName.run s (.ok ())
      (s.skip (user.length + 1)) := by
  rw [Yields, readUserName, (yields_readName hinp hready hzero hlen).bind, if_neg (not_not.2 rfl)]
  exact yields_pure _ _

/-- The address that lies at the beginning of the request is dialled. -/
theorem yields_connectRequest {o : ByteOrder} {port ip user : Bytes}
    (hinp : s.inp = 4 :: 1 :: (port ++ (ip ++ (user ++ 0 :: rest)))) (hready : ready s.out)
    (hport : port.length = 2)
    (hip : ip.length = 4) (hzero : 0 ∉ user) (hlen : user.length ≤ 256) {address : SocketAddress}
    (haddress : address
      = .new o (UInt32.ofNat (o.decode ip)) (htons o (UInt16.ofNat (o.decode port)))) :
    Yields (Alone (Dials outcome) ready) (connectRequest o).run s
      ((outcome address).map fun _ ↦ address)
      { s.skip (user.length + 9) with ext := s.ext ++ [address] } := by
  have hinp₁ : (s.skip 1).inp = 1 :: (port ++ (ip ++ (user ++ 0 :: rest))) :=
    Solo.inp_skip_cons hinp
  have hinp₂ : ((s.skip 1).skip 1).inp = port ++ (ip ++ (user ++ 0 :: rest)) :=
    Solo.inp_skip_cons hinp₁
  have hinp₃ : (((s.skip 1).skip 1).skip 2).inp = ip ++ (user ++ 0 :: rest) :=
    Solo.inp_skip_append hinp₂ hport
  have hinp₄ : ((((s.skip 1).skip 1).skip 2).skip 4).inp = user ++ 0 :: rest :=
    Solo.inp_skip_append hinp₃ hip
  have hskip : ((((s.skip 1).skip 1).skip 2).skip 4).skip (user.length + 1)
      = s.skip (user.length + 9) := by
    rw [Solo.skip_skip, Solo.skip_skip, Solo.skip_skip, Solo.skip_skip]
    exact congrArg (fun n ↦ s.skip n) (by omega)
  rw [Yields, connectRequest, (yields_readChar hinp hready).bind, if_neg (not_not.2 rfl),
    (yields_readChar hinp₁ hready).bind, if_neg (not_not.2 rfl),
    (yields_readUInt16 hinp₂ hready hport).bind,
    (yields_readUInt32 hinp₃ hready hip).bind, (yields_readUserName hinp₄ hready hzero hlen).bind,
    hskip, ← haddress]
  exact yields_dialTCP address

/-- What `MakeConn` writes for a reply. -/
def reply (o : ByteOrder) (cd : UInt8) : List Bytes := [[0], [cd], o.encode 2 0, o.encode 4 0]

theorem yields_writeReply {o : ByteOrder} (cd : UInt8) (hopen : s.closed = false) :
    Yields (Alone (Dials outcome) ready) (writeReply o cd).run s (.ok ())
      (s.sendAll (reply o cd)) := by
  rw [Yields, writeReply, ends_write, ends_write, ends_write]
  · simp only [reply, Solo.sendAll_cons, Solo.sendAll_nil]
    exact yields_write hopen
  all_goals exact hopen

/-- After a request for an address that can be reached, data is forwarded. -/
theorem yields_makeConn {o : ByteOrder} {port ip user : Bytes}
    (hinp : s.inp = 4 :: 1 :: (port ++ (ip ++ (user ++ 0 :: rest)))) (hready : ready s.out)
    (hport : port.length = 2)
    (hip : ip.length = 4) (hzero : 0 ∉ user) (hlen : user.length ≤ 256) (hopen : s.closed = false)
    {address : SocketAddress}
    (haddress : address
      = .new o (UInt32.ofNat (o.decode ip)) (htons o (UInt16.ofNat (o.decode port))))
    {t : Solo UInt8 (List SocketAddress)}
    (ht : t = { s.skip (user.length + 9) with ext := s.ext ++ [address] }) :
    Yields (Alone (Dials reachable) ready) (makeConn o).run s (.ok (.forwards (some address)))
      (t.sendAll (reply o 90)) := by
  have hrequest : Yields (Alone (Dials reachable) ready) (connectRequest o).run s (.ok address) t :=
    ht ▸ yields_connectRequest hinp hready hport hip hzero hlen haddress
  have hblocks : Yields (Alone (Dials reachable) ready) (connectOrAnswer o).run s
    (.ok (some (some address))) t := by
    rw [Yields, connectOrAnswer, ends_tryCatch, hrequest.bind]
    exact ⟨rfl, rfl⟩
  have hopen' : t.closed = false := by rw [ht]; exact hopen
  rw [Yields, makeConn, hblocks.bind]
  dsimp only
  rw [(yields_writeReply 90 hopen').bind]
  exact ⟨rfl, rfl⟩

end Server

/-! ## Together -/

section Together

variable (o o' : ByteOrder) {endpoint : SocketAddress} {user : Bytes}

variable (endpoint user) in
/-- Alone, the client writes a request before it reads, and accepts a reply.  It does not read what
comes after. -/
theorem ends_sock4Connect_reply (more : Bytes) (ended : Bool) :
    Ends (Alone (Dials reachable) (· = (request o endpoint user).flatten))
      (fun r t ↦ (r = .ok () ∧ t.ext = []) ∧ t.inp = more
        ∧ t.out = (request o endpoint user).flatten)
      (sock4Connect o endpoint user).run
      ⟨(reply o' 90).flatten ++ more, ended, 0, [], false, []⟩ := by
  have hout := Solo.out_sendAll (request o endpoint user)
    (⟨(reply o' 90).flatten ++ more, ended, 0, [], false, []⟩ : Solo UInt8 (List SocketAddress))
  have hinp :
    (reply o' 90).flatten ++ more = 0 :: 90 :: (o'.encode 2 0 ++ (o'.encode 4 0 ++ more)) := by
    simp only [reply, List.flatten_cons, List.flatten_nil, List.append_assoc, List.cons_append,
      List.nil_append]
  have hread : Yields (Alone (Dials reachable) (· = (request o endpoint user).flatten))
      (readReply o : ConnM Exception DialRes Unit).run _ (.ok ()) _ :=
    yields_readReply hinp hout (ByteOrder.length_encode _ _ _) (ByteOrder.length_encode _ _ _)
  rw [ends_sock4Connect o endpoint user rfl, hread.ends_iff]
  refine ⟨⟨rfl, rfl⟩, ?_, hout⟩
  exact List.drop_left' (by cases o' <;> rfl)

variable (endpoint) in
/-- Alone, the server reads a request, dials its address and writes a reply.  It does not read what
comes after. -/
theorem ends_makeConn_request (hzero : 0 ∉ user) (hlen : user.length ≤ 256) (more : Bytes)
    (ended : Bool) :
    Ends (Alone (Dials reachable) fun _ ↦ True)
      (fun r t ↦
        (∃ address, address.memory o' = endpoint.memory o ∧ r = .ok (.forwards (some address))
        ∧ t.ext = [address]) ∧ t.inp = more ∧ t.out = (reply o' 90).flatten)
      (makeConn o').run ⟨(request o endpoint user).flatten ++ more, ended, 0, [], false, []⟩ := by
  have hport : (o.encode 2 endpoint.sin_port.toNat).length = 2 := ByteOrder.length_encode _ _ _
  have hip : (o.encode 4 endpoint.ip.toNat).length = 4 := ByteOrder.length_encode _ _ _
  have hinp : (request o endpoint user).flatten ++ more
    = 4 :: 1 :: (o.encode 2 endpoint.sin_port.toNat
      ++ (o.encode 4 endpoint.ip.toNat ++ (user ++ 0 :: more))) := by
    simp only [request, List.flatten_cons, List.flatten_nil, List.append_assoc, List.cons_append,
      List.nil_append]
  have hlength : (request o endpoint user).flatten.length = user.length + 9 := by
    simp only [request, List.flatten_cons, List.flatten_nil, List.length_append,
      List.length_singleton, hport, hip,
      List.length_nil]
    omega
  obtain ⟨address, haddress⟩ : ∃ address, address = SocketAddress.new o'
    (UInt32.ofNat (o'.decode (o.encode 4 endpoint.ip.toNat)))
    (htons o' (UInt16.ofNat (o'.decode (o.encode 2 endpoint.sin_port.toNat)))) := ⟨_, rfl⟩
  have hmake : Yields (Alone (Dials reachable) fun _ ↦ True) (makeConn o').run
      ⟨(request o endpoint user).flatten ++ more, ended, 0, [], false, []⟩
        (.ok (.forwards (some address))) _ :=
    yields_makeConn hinp trivial hport hip hzero hlen rfl haddress rfl
  refine hmake.ends_iff.2 ⟨⟨address, haddress ▸ memory_new hport hip, rfl, rfl⟩, ?_,
    Solo.out_sendAll _ _⟩
  exact List.drop_left' hlength

/-- **The server understands the client, and the client the server.**  The server dials the
endpoint, the client returns, and each has read exactly what the other one wrote. -/
theorem connect_inevitable (hzero : 0 ∉ user) (hlen : user.length ≤ 256) :
    Inevitable (Duplex.Step (Dials reachable) (Dials reachable))
      (Duplex.Done (fun r t ↦ r = .ok () ∧ t = []) fun r t ↦ ∃ address,
        address.memory o' = endpoint.memory o ∧ r = .ok (.forwards (some address)) ∧ t = [address])
      ⟨(sock4Connect o endpoint user).run, (makeConn o').run, ⟨[], false, []⟩,
        ⟨[], false, []⟩⟩ := by
  have hclient := ends_sock4Connect_reply o o' endpoint user [] false
  have hserver := ends_makeConn_request o o' endpoint hzero hlen [] false
  rw [List.append_nil] at hclient hserver
  exact Duplex.inevitable hclient hserver

end Together

end Socks
end ManyTasks
