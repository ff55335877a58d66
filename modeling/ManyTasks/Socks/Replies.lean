import ManyTasks.Socks.Agreement

/-!
# One reply to a request

`MakeConn` is to answer every request that does not end early with one reply: 90 if it is good and
its address can be reached, and 91 otherwise.  It does so when the request is good
(`ends_makeConn_of_granted`), and after any other one only if the connection throws: the handler of
`MakeConn` writes its reply, closes the stream, and does not return, so that the reply for a success
comes next (`ends_makeConn_iff`).

`Client` is a client whose connection may throw when the stream is closed, and may throw or not when
something is written after that.
-/

set_option autoImplicit false

namespace ManyTasks
namespace Socks

open Io Lib Lib.Proc

/-! ## Requests -/

/-- The bytes begin with a good request for this address. -/
def Complete (o : ByteOrder) (bytes : Bytes) (address : SocketAddress) : Prop :=
  ∃ port ip user rest, bytes = 4 :: 1 :: (port ++ (ip ++ (user ++ 0 :: rest))) ∧ port.length = 2
    ∧ ip.length = 4 ∧ 0 ∉ user ∧ user.length ≤ 256
    ∧ address = .new o (UInt32.ofNat (o.decode ip)) (htons o (UInt16.ofNat (o.decode port)))

/-- The bytes are the beginning of a good request, and do not contain all of it. -/
def EndsEarly (o : ByteOrder) (bytes : Bytes) : Prop :=
  (∀ address, ¬ Complete o bytes address) ∧ ∃ more address, Complete o (bytes ++ more) address

/-- No good request begins with these bytes. -/
def Wrong (o : ByteOrder) (bytes : Bytes) : Prop :=
  ∀ more address, ¬ Complete o (bytes ++ more) address

variable {o : ByteOrder} {bytes : Bytes}

theorem Wrong.not_endsEarly (h : Wrong o bytes) : ¬ EndsEarly o bytes := by
  rintro ⟨-, more, address, hcomplete⟩
  exact h more address hcomplete

theorem Wrong.not_complete (h : Wrong o bytes) (address : SocketAddress) :
    ¬ Complete o bytes address := by
  intro hcomplete
  refine h [] address ?_
  rwa [List.append_nil]

theorem wrong_of_vn {vn : UInt8} (hvn : vn ≠ 4) (rest : Bytes) : Wrong o (vn :: rest) := by
  rintro more address ⟨port, ip, user, rest', heq, -⟩
  exact hvn (List.cons.inj heq).1

theorem wrong_of_cd {cd : UInt8} (hcd : cd ≠ 1) (rest : Bytes) : Wrong o (4 :: cd :: rest) := by
  rintro more address ⟨port, ip, user, rest', heq, -⟩
  exact hcd (List.cons.inj (List.cons.inj heq).2).1

/-- What follows a port and an address is where the name is. -/
theorem name_eq {port ip name port' ip' name' : Bytes} (hport : port.length = 2)
    (hip : ip.length = 4) (hport' : port'.length = 2) (hip' : ip'.length = 4)
    (h : 4 :: 1 :: (port ++ (ip ++ name)) = 4 :: 1 :: (port' ++ (ip' ++ name'))) :
    name = name' := by
  have hrest := (List.cons.inj (List.cons.inj h).2).2
  obtain ⟨-, hrest⟩ := List.append_inj hrest (hport.trans hport'.symm)
  exact (List.append_inj hrest (hip.trans hip'.symm)).2

/-- A request has one address. -/
theorem Complete.unique {address address' : SocketAddress} (h : Complete o bytes address)
    (h' : Complete o bytes address') : address = address' := by
  obtain ⟨port, ip, user, rest, rfl, hport, hip, -, -, rfl⟩ := h
  obtain ⟨port', ip', user', rest', heq, hport', hip', -, -, rfl⟩ := h'
  have hrest := (List.cons.inj (List.cons.inj heq).2).2
  obtain ⟨hport_eq, hrest⟩ := List.append_inj hrest (hport.trans hport'.symm)
  obtain ⟨hip_eq, -⟩ := List.append_inj hrest (hip.trans hip'.symm)
  rw [hport_eq, hip_eq]

/-- A name has to end within 257 bytes. -/
theorem wrong_of_name {port ip user rest : Bytes} {c : UInt8} (hport : port.length = 2)
    (hip : ip.length = 4) (hzero : 0 ∉ user) (hlen : user.length = 256) (hc : c ≠ 0) :
    Wrong o (4 :: 1 :: (port ++ (ip ++ (user ++ c :: rest)))) := by
  rintro more address ⟨port', ip', user', rest', heq, hport', hip', -, hlen', -⟩
  have hshift : 4 :: 1 :: (port ++ (ip ++ (user ++ c :: rest))) ++ more
      = 4 :: 1 :: (port ++ (ip ++ (user ++ c :: (rest ++ more)))) := by
    simp only [List.cons_append, List.append_assoc]
  have hname := name_eq hport hip hport' hip' (hshift.symm.trans heq)
  -- The zero byte is where the first 257 bytes are.
  have hget : (user ++ c :: (rest ++ more))[user'.length]? = some 0 := by
    rw [hname, List.getElem?_append_right (Nat.le_refl _), Nat.sub_self]
    rfl
  obtain hlt | heq' := Nat.lt_or_eq_of_le hlen'
  · rw [List.getElem?_append_left (by omega)] at hget
    exact hzero (List.mem_of_getElem? hget)
  · rw [List.getElem?_append_right (by omega), heq', hlen] at hget
    exact hc (Option.some.inj hget)

/-- A good request is longer than its beginnings. -/
theorem endsEarly_of_short (more : Bytes) {address : SocketAddress} (hlen : bytes.length < 9)
    (h : Complete o (bytes ++ more) address) : EndsEarly o bytes := by
  refine ⟨?_, more, address, h⟩
  rintro address' ⟨port, ip, user, rest, rfl, hport, hip, -⟩
  simp only [List.length_cons, List.length_append, hport, hip] at hlen
  omega

theorem endsEarly_of_name {port ip user : Bytes} (hport : port.length = 2) (hip : ip.length = 4)
    (hzero : 0 ∉ user) (hlen : user.length ≤ 256) :
    EndsEarly o (4 :: 1 :: (port ++ (ip ++ user))) := by
  refine ⟨?_, [0], _, port, ip, user, [], ?_, hport, hip, hzero, hlen, rfl⟩
  · rintro address ⟨port', ip', user', rest', heq, hport', hip', -⟩
    refine hzero (name_eq hport hip hport' hip' heq ▸ ?_)
    exact List.mem_append_right _ List.mem_cons_self
  · simp only [List.cons_append, List.append_assoc]

/-- The beginnings of a request up to the name. -/
theorem endsEarly_of_head {head : Bytes} (hhead : head.length < 6) :
    EndsEarly o (4 :: 1 :: head) := by
  have hfull : (head ++ List.replicate (6 - head.length) 0).length = 6 := by
    rw [List.length_append, List.length_replicate]
    omega
  refine endsEarly_of_short (List.replicate (6 - head.length) 0 ++ [0]) ?_
    ⟨(head ++ List.replicate (6 - head.length) 0).take 2,
      (head ++ List.replicate (6 - head.length) 0).drop 2, [], [], ?_, ?_, ?_, List.not_mem_nil,
      Nat.zero_le _, rfl⟩
  · rw [List.length_cons, List.length_cons]
    omega
  · rw [List.nil_append, ← List.append_assoc (List.take _ _), List.take_append_drop]
    simp only [List.cons_append, List.append_assoc]
  · rw [List.length_take, hfull]
    rfl
  · rw [List.length_drop, hfull]

/-- The bytes of a good request for the address 0. -/
theorem complete_zero :
    Complete o [4, 1, 0, 0, 0, 0, 0, 0, 0]
      (.new o (UInt32.ofNat (o.decode [0, 0, 0, 0])) (htons o (UInt16.ofNat (o.decode [0, 0])))) :=
  ⟨[0, 0], [0, 0, 0, 0], [], [], rfl, rfl, rfl, List.not_mem_nil, Nat.zero_le _, rfl⟩

theorem endsEarly_nil : EndsEarly o [] :=
  endsEarly_of_short [4, 1, 0, 0, 0, 0, 0, 0, 0] (by decide) complete_zero

theorem endsEarly_vn : EndsEarly o [4] :=
  endsEarly_of_short [1, 0, 0, 0, 0, 0, 0, 0] (by decide) complete_zero

/-! ## What the server makes of them -/

/-- What dialling an address comes to, if the system has these errors.  `DialTCP` throws no
`EOFException`. -/
def dialling (errors : SocketAddress → Option ℕ) (address : SocketAddress) :
    Except Exception Unit :=
  match errors address with
  | none => .ok ()
  | some error => .error (.other error)

section Server

variable {outcome : SocketAddress → Except Exception Unit} {ready : Bytes → Prop}
  {s : Solo UInt8 (List SocketAddress)} {rest : Bytes}

theorem yields_readUInt16_eof (hready : ready s.out) (hlen : s.inp.length < 2)
    (hended : s.ended = true) :
    Yields (Alone (Dials outcome) ready) (readUInt16 o).run s (.error .eofException)
      (s.skip s.inp.length) :=
  (yields_readFull_eof hready hlen hended).map _

theorem yields_readUInt32_eof (hready : ready s.out) (hlen : s.inp.length < 4)
    (hended : s.ended = true) :
    Yields (Alone (Dials outcome) ready) (readUInt32 o).run s (.error .eofException)
      (s.skip s.inp.length) :=
  (yields_readFull_eof hready hlen hended).map _

theorem yields_readNameChar_eof (hinp : s.inp = []) (hready : ready s.out)
    (hended : s.ended = true) :
    Yields (Alone (Dials outcome) ready) readNameChar.run s (.error .eofException) s := by
  have hread : Yields (Alone (Dials outcome) ready)
      (ConnProc.read 1 : ConnM Exception DialRes Bytes).run s (.ok []) s := by
    refine yields_ask (.eof hready hinp hended) fun r s' h ↦ ?_
    cases h with
    | read _ hinp' hle hne =>
      obtain ⟨rfl, -⟩ := List.append_eq_nil_iff.1 (hinp'.symm.trans hinp)
      exact absurd rfl (hne.resolve_right Nat.one_ne_zero)
    | eof => exact ⟨rfl, rfl⟩
  exact hread.bind.2 ⟨rfl, rfl⟩

/-- The loop of `ReadUserName` on a name that has not ended when the stream does. -/
theorem yields_readName_eof {user : Bytes} {room : ℕ} (hinp : s.inp = user) (hready : ready s.out)
    (hended : s.ended = true) (hzero : 0 ∉ user) (hroom : user.length ≤ room) :
    Yields (Alone (Dials outcome) ready) (readName room).run s (.error .eofException)
      (s.skip user.length) := by
  induction user generalizing room s with
  | nil =>
    have hskip : s.skip 0 = s := rfl
    rw [List.length_nil, hskip]
    cases room with
    | zero => exact yields_readNameChar_eof hinp hready hended
    | succ room => exact (yields_readNameChar_eof hinp hready hended).bind_error.2 ⟨rfl, rfl⟩
  | cons c user ih =>
    obtain ⟨hc, hzero⟩ := not_or.1 (List.mem_cons.not.1 hzero)
    obtain ⟨room, rfl⟩ := Nat.exists_eq_add_of_le' (Nat.le_trans (Nat.le_add_left 1 _) hroom)
    have hrest := @ih (s.skip 1) room (Solo.inp_skip_cons hinp) hready hended hzero
      (Nat.le_of_succ_le_succ hroom)
    rw [Solo.skip_skip, Nat.add_comm] at hrest
    rw [Yields, readName, (yields_readNameChar hinp hready).bind, if_pos (Ne.symm hc)]
    exact hrest

/-- The loop of `ReadUserName` on a name that is too long. -/
theorem yields_readName_full {user : Bytes} {c : UInt8} {room : ℕ}
    (hinp : s.inp = user ++ c :: rest) (hready : ready s.out) (hzero : 0 ∉ user)
    (hroom : user.length = room) :
    Yields (Alone (Dials outcome) ready) (readName room).run s (.ok c) (s.skip (room + 1)) := by
  induction user generalizing room s with
  | nil =>
    subst hroom
    exact yields_readNameChar hinp hready
  | cons d user ih =>
    subst hroom
    obtain ⟨hd, hzero⟩ := not_or.1 (List.mem_cons.not.1 hzero)
    have hrest := @ih (s.skip 1) _ (Solo.inp_skip_cons hinp) hready hzero rfl
    rw [Solo.skip_skip, Nat.add_comm] at hrest
    rw [Yields, List.length_cons, readName, (yields_readNameChar hinp hready).bind,
      if_pos (Ne.symm hd)]
    exact hrest

/-- A list up to its first zero byte, if it has one among its first ones. -/
theorem name_cases (name : Bytes) (room : ℕ) :
    (∃ user rest, name = user ++ 0 :: rest ∧ 0 ∉ user ∧ user.length ≤ room)
      ∨ (0 ∉ name ∧ name.length ≤ room)
      ∨ ∃ user c rest, name = user ++ c :: rest ∧ 0 ∉ user ∧ user.length = room ∧ c ≠ 0 := by
  induction name generalizing room with
  | nil => exact Or.inr (Or.inl ⟨List.not_mem_nil, Nat.zero_le _⟩)
  | cons c name ih =>
    by_cases hc : c = 0
    · subst hc
      exact Or.inl ⟨[], name, rfl, List.not_mem_nil, Nat.zero_le _⟩
    have hcons {l : Bytes} (hl : 0 ∉ l) : 0 ∉ c :: l := by
      rw [List.mem_cons, not_or]
      exact ⟨Ne.symm hc, hl⟩
    obtain _ | room := room
    · exact Or.inr (Or.inr ⟨[], c, name, rfl, List.not_mem_nil, rfl, hc⟩)
    obtain ⟨user, rest, rfl, hzero, hle⟩ | ⟨hzero, hle⟩ | ⟨user, d, rest, rfl, hzero, heq, hd⟩ :=
      ih room
    · exact Or.inl ⟨c :: user, rest, rfl, hcons hzero, Nat.succ_le_succ hle⟩
    · exact Or.inr (Or.inl ⟨hcons hzero, Nat.succ_le_succ hle⟩)
    · exact Or.inr (Or.inr ⟨c :: user, d, rest, rfl, hcons hzero, congrArg (· + 1) heq, hd⟩)

/-- Nothing has been written, and the stream has not been closed. -/
def Silent (s t : Solo UInt8 (List SocketAddress)) : Prop := t.out = s.out ∧ t.closed = s.closed

/-- What the `try` block of `MakeConn` comes to, on all that a client can send. -/
inductive Request (outcome : SocketAddress → Except Exception Unit) (ready : Bytes → Prop)
    (o : ByteOrder) (s : Solo UInt8 (List SocketAddress)) : Prop
  | complete {address : SocketAddress} {t : Solo UInt8 (List SocketAddress)}
      (h : Complete o s.inp address)
      (hrun : Yields (Alone (Dials outcome) ready) (connectRequest o).run s
        ((outcome address).map fun _ ↦ address) t)
      (hsilent : Silent s t)
  | early {t : Solo UInt8 (List SocketAddress)} (h : EndsEarly o s.inp)
      (hrun : Yields (Alone (Dials outcome) ready) (connectRequest o).run s
        (.error .eofException) t)
      (hsilent : Silent s t)
  | wrong {what : String} {t : Solo UInt8 (List SocketAddress)} (h : Wrong o s.inp)
      (hrun : Yields (Alone (Dials outcome) ready) (connectRequest o).run s
        (.error (.runtime_error what)) t)
      (hsilent : Silent s t)

/-- The first two bytes of a request. -/
theorem bind_head {t : Solo UInt8 (List SocketAddress)} {r : Except Exception SocketAddress}
    (hinp : s.inp = 4 :: 1 :: rest) (hready : ready s.out)
    (h : Yields (Alone (Dials outcome) ready) (do
        let port ← readUInt16 o
        let ip ← readUInt32 o
        readUserName
        dialTCP (SocketAddress.new o ip (htons o port)) :
          ConnM Exception DialRes SocketAddress).run ((s.skip 1).skip 1) r t) :
    Yields (Alone (Dials outcome) ready) (connectRequest o).run s r t := by
  have hinp₁ : (s.skip 1).inp = 1 :: rest := Solo.inp_skip_cons hinp
  rw [Yields, connectRequest, (yields_readChar hinp hready).bind, if_neg (not_not.2 rfl),
    (yields_readChar hinp₁ hready).bind, if_neg (not_not.2 rfl)]
  exact h

/-- The name at the end of a request. -/
theorem request_of_name {port ip name : Bytes}
    (hinp : s.inp = 4 :: 1 :: (port ++ (ip ++ name))) (hready : ready s.out)
    (hended : s.ended = true) (hport : port.length = 2) (hip : ip.length = 4) :
    Request outcome ready o s := by
  have hinp₂ : ((s.skip 1).skip 1).inp = port ++ (ip ++ name) :=
    Solo.inp_skip_cons (Solo.inp_skip_cons hinp)
  have hinp₃ : (((s.skip 1).skip 1).skip 2).inp = ip ++ name :=
    Solo.inp_skip_append hinp₂ hport
  have hinp₄ : ((((s.skip 1).skip 1).skip 2).skip 4).inp = name :=
    Solo.inp_skip_append hinp₃ hip
  have hname {e : Exception} {t : Solo UInt8 (List SocketAddress)}
      (h : Yields (Alone (Dials outcome) ready) readUserName.run
        ((((s.skip 1).skip 1).skip 2).skip 4) (.error e) t) :
      Yields (Alone (Dials outcome) ready) (connectRequest o).run s (.error e) t :=
    bind_head hinp hready ((yields_readUInt16 hinp₂ hready hport).bind.2
      ((yields_readUInt32 hinp₃ hready hip).bind.2 (h.bind_error.2 ⟨rfl, rfl⟩)))
  obtain ⟨user, rest, rfl, hzero, hle⟩ | ⟨hzero, hle⟩ | ⟨user, c, rest, rfl, hzero, heq, hc⟩ :=
    name_cases name 256
  · exact .complete ⟨port, ip, user, rest, hinp, hport, hip, hzero, hle, rfl⟩
      (yields_connectRequest hinp hready hport hip hzero hle rfl) ⟨rfl, rfl⟩
  · have hread : Yields (Alone (Dials outcome) ready) (readName 256).run _
        (.error .eofException) _ := yields_readName_eof hinp₄ hready hended hzero hle
    exact .early (hinp ▸ endsEarly_of_name hport hip hzero hle)
      (hname (hread.bind_error.2 ⟨rfl, rfl⟩)) ⟨rfl, rfl⟩
  · have hread : Yields (Alone (Dials outcome) ready) (readName 256).run _ (.ok c) _ :=
      yields_readName_full hinp₄ hready hzero heq
    have hlong : Yields (Alone (Dials outcome) ready) readUserName.run
        ((((s.skip 1).skip 1).skip 2).skip 4) (.error (.runtime_error "Wrong user name"))
        (((((s.skip 1).skip 1).skip 2).skip 4).skip 257) := by
      rw [Yields, readUserName, hread.bind, if_pos hc]
      exact ⟨rfl, rfl⟩
    exact .wrong (hinp ▸ wrong_of_name hport hip hzero heq hc) (hname hlong) ⟨rfl, rfl⟩

/-- A request after its first two bytes. -/
theorem request_of_head (hinp : s.inp = 4 :: 1 :: rest) (hready : ready s.out)
    (hended : s.ended = true) : Request outcome ready o s := by
  have hinp₂ : ((s.skip 1).skip 1).inp = rest := Solo.inp_skip_cons (Solo.inp_skip_cons hinp)
  by_cases hshort : rest.length < 2
  · have hread : Yields (Alone (Dials outcome) ready) (readUInt16 o).run ((s.skip 1).skip 1)
        (.error .eofException) (((s.skip 1).skip 1).skip ((s.skip 1).skip 1).inp.length) :=
      yields_readUInt16_eof hready (hinp₂.symm ▸ hshort) hended
    exact .early (hinp ▸ endsEarly_of_head (by omega))
      (bind_head hinp hready (hread.bind_error.2 ⟨rfl, rfl⟩)) ⟨rfl, rfl⟩
  obtain ⟨port, rest, rfl, hport⟩ : ∃ port rest', rest = port ++ rest' ∧ port.length = 2 :=
    ⟨_, _, (List.take_append_drop 2 rest).symm, List.length_take_of_le (by omega)⟩
  have hinp₃ : (((s.skip 1).skip 1).skip 2).inp = rest := Solo.inp_skip_append hinp₂ hport
  by_cases hshort : rest.length < 4
  · have hhead : (port ++ rest).length < 6 := by
      rw [List.length_append]
      omega
    have hread : Yields (Alone (Dials outcome) ready) (readUInt32 o).run
        (((s.skip 1).skip 1).skip 2) (.error .eofException)
        ((((s.skip 1).skip 1).skip 2).skip (((s.skip 1).skip 1).skip 2).inp.length) :=
      yields_readUInt32_eof hready (hinp₃.symm ▸ hshort) hended
    exact .early (hinp ▸ endsEarly_of_head hhead)
      (bind_head hinp hready ((yields_readUInt16 hinp₂ hready hport).bind.2
        (hread.bind_error.2 ⟨rfl, rfl⟩))) ⟨rfl, rfl⟩
  obtain ⟨ip, name, rfl, hip⟩ : ∃ ip name, rest = ip ++ name ∧ ip.length = 4 :=
    ⟨_, _, (List.take_append_drop 4 rest).symm, List.length_take_of_le (by omega)⟩
  exact request_of_name hinp hready hended hport hip

/-- Every request is complete, or ends early, or is wrong. -/
theorem request_cases (hready : ready s.out) (hended : s.ended = true) :
    Request outcome ready o s := by
  rcases hinp : s.inp with _ | ⟨vn, rest⟩
  · have hread : Yields (Alone (Dials outcome) ready) readChar.run s
        (.error .eofException) (s.skip s.inp.length) := yields_readChar_eof hinp hready hended
    exact .early (hinp ▸ endsEarly_nil) (hread.bind_error.2 ⟨rfl, rfl⟩) ⟨rfl, rfl⟩
  have hvn' : Yields (Alone (Dials outcome) ready) readChar.run s (.ok vn) (s.skip 1) :=
    yields_readChar hinp hready
  by_cases hvn : vn = 4
  swap
  · have hrun : Yields (Alone (Dials outcome) ready) (connectRequest o).run s
        (.error (.runtime_error "Wrong request")) (s.skip 1) := by
      rw [Yields, connectRequest, hvn'.bind, if_pos hvn]
      exact ⟨rfl, rfl⟩
    exact .wrong (hinp ▸ wrong_of_vn hvn rest) hrun ⟨rfl, rfl⟩
  subst hvn
  have hinp₁ : (s.skip 1).inp = rest := Solo.inp_skip_cons hinp
  rcases rest with _ | ⟨cd, rest⟩
  · have hread : Yields (Alone (Dials outcome) ready) readChar.run (s.skip 1)
        (.error .eofException) ((s.skip 1).skip (s.skip 1).inp.length) :=
      yields_readChar_eof hinp₁ hready hended
    have hrun : Yields (Alone (Dials outcome) ready) (connectRequest o).run s
        (.error .eofException) ((s.skip 1).skip (s.skip 1).inp.length) := by
      rw [Yields, connectRequest, hvn'.bind, if_neg (not_not.2 rfl), hread.bind_error]
      exact ⟨rfl, rfl⟩
    exact .early (hinp ▸ endsEarly_vn) hrun ⟨rfl, rfl⟩
  by_cases hcd : cd = 1
  swap
  · have hrun : Yields (Alone (Dials outcome) ready) (connectRequest o).run s
        (.error (.runtime_error "Wrong request")) ((s.skip 1).skip 1) := by
      rw [Yields, connectRequest, hvn'.bind, if_neg (not_not.2 rfl),
        (yields_readChar hinp₁ hready).bind, if_pos hcd]
      exact ⟨rfl, rfl⟩
    exact .wrong (hinp ▸ wrong_of_cd hcd rest) hrun ⟨rfl, rfl⟩
  subst hcd
  exact request_of_head hinp hready hended

end Server

/-! ## The client's connection -/

/-- What an `IConn` does after a reply that has been written in full. -/
structure IConn where
  closeWrite : Except Exception Unit
  /-- A `Write` after `CloseWrite`, when this has been written. -/
  lateWrite : Bytes → Except Exception Unit

/-- A client alone with `MakeConn`. -/
inductive Client (conn : IConn) (outcome : SocketAddress → Except Exception Unit)
    (s : Solo UInt8 (List SocketAddress)) :
    (op : ConnOp UInt8 DialOp) → ConnRes Exception DialRes op →
      Solo UInt8 (List SocketAddress) → Prop
  | open {op : ConnOp UInt8 DialOp} {r : ConnRes Exception DialRes op}
      {s' : Solo UInt8 (List SocketAddress)} (hopen : s.closed = false) (hop : op ≠ .closeWrite)
      (h : Alone (Dials outcome) (fun _ ↦ True) s op r s') : Client conn outcome s op r s'
  | closeWrite : Client conn outcome s .closeWrite conn.closeWrite s.close
  | lateWrite {buf : Bytes} (hclosed : s.closed = true) (h : conn.lateWrite s.out = .ok ()) :
      Client conn outcome s (.write buf) (.ok ()) (s.send buf)
  | lateError {buf : Bytes} {e : Exception} (hclosed : s.closed = true)
      (h : conn.lateWrite s.out = .error e) : Client conn outcome s (.write buf) (.error e) s

/-- **What a client is to see.**  Of a request that ends early there is no answer, and of any other
one there is one; and data is forwarded only if there is a connection to forward it to. -/
structure Replied (o : ByteOrder) (outcome : SocketAddress → Except Exception Unit) (bytes : Bytes)
    (r : Except Exception Made) (s : Solo UInt8 (List SocketAddress)) : Prop where
  silent (h : EndsEarly o bytes) : s.out = []
  granted {address : SocketAddress} (h : Complete o bytes address)
    (hdial : outcome address = .ok ()) :
    s.out = [0, 90, 0, 0, 0, 0, 0, 0]
  refused (h : ¬ EndsEarly o bytes)
    (hdial : ∀ address, Complete o bytes address → outcome address ≠ .ok ()) :
    s.out = [0, 91, 0, 0, 0, 0, 0, 0]
  proxied {proxy_conn : Option SocketAddress} (h : r = .ok (.forwards proxy_conn)) :
    proxy_conn ≠ none

section MakeConn

variable {conn : IConn} {outcome : SocketAddress → Except Exception Unit}
  {s t : Solo UInt8 (List SocketAddress)}

/-- What leaves the stream open does not notice what the connection does after that. -/
theorem yields_client {α : Type} {p : ConnProc UInt8 Exception DialRes α} {a : α}
    (h : Yields (Alone (Dials outcome) fun _ ↦ True) p s a t) (hs : s.closed = false)
    (ht : t.closed = false) : Yields (Client conn outcome) p s a t := by
  refine ends_of_open h hs ?_ fun u op r u' hopen hop ↦ ⟨fun hclient ↦ ?_, .open hopen hop⟩
  · rintro _ _ ⟨rfl, rfl⟩
    exact ht
  · cases hclient with
    | «open» _ _ halone => exact halone
    | closeWrite => exact absurd rfl hop
    | lateWrite hclosed => exact absurd (hclosed.symm.trans hopen) (by decide)
    | lateError hclosed => exact absurd (hclosed.symm.trans hopen) (by decide)

/-- What follows a write after the stream has been closed. -/
theorem ends_lateWrite {γ : Type} {Q : Except Exception γ → Solo UInt8 (List SocketAddress) → Prop}
    {f : Unit → ConnM Exception DialRes γ} {buf : Bytes} (hclosed : s.closed = true) :
    Ends (Client conn outcome) Q (ConnProc.write buf >>= f).run s ↔
      match conn.lateWrite s.out with
      | .ok () => Ends (Client conn outcome) Q (f ()).run (s.send buf)
      | .error e => Q (.error e) s := by
  rcases hlate : conn.lateWrite s.out with e | ⟨⟩
  · have hwrite : Yields (Client conn outcome)
        (ConnProc.write buf : ConnM Exception DialRes Unit).run s (.error e) s := by
      refine yields_ask (.lateError hclosed hlate) fun r s' h ↦ ?_
      cases h with
      | «open» hopen => exact absurd (hclosed.symm.trans hopen) (by decide)
      | lateWrite _ hok => cases hlate.symm.trans hok
      | lateError _ herror =>
        cases hlate.symm.trans herror
        exact ⟨rfl, rfl⟩
    exact hwrite.bind_error
  · have hwrite : Yields (Client conn outcome)
        (ConnProc.write buf : ConnM Exception DialRes Unit).run s (.ok ()) (s.send buf) := by
      refine yields_ask (.lateWrite hclosed hlate) fun r s' h ↦ ?_
      cases h with
      | «open» hopen => exact absurd (hclosed.symm.trans hopen) (by decide)
      | lateWrite => exact ⟨rfl, rfl⟩
      | lateError _ herror => cases hlate.symm.trans herror
    exact hwrite.bind

/-- What follows when the stream is closed. -/
theorem ends_closeWrite {γ : Type}
    {Q : Except Exception γ → Solo UInt8 (List SocketAddress) → Prop}
    {f : Unit → ConnM Exception DialRes γ} :
    Ends (Client conn outcome) Q (ConnProc.closeWrite >>= f).run s ↔
      match conn.closeWrite with
      | .ok () => Ends (Client conn outcome) Q (f ()).run s.close
      | .error e => Q (.error e) s.close := by
  have hclose : Yields (Client conn outcome)
      (ConnProc.closeWrite : ConnM Exception DialRes Unit).run s conn.closeWrite s.close := by
    refine yields_ask .closeWrite fun r s' h ↦ ?_
    cases h with
    | «open» _ hop => exact absurd rfl hop
    | closeWrite => exact ⟨rfl, rfl⟩
  rcases hresult : conn.closeWrite with e | ⟨⟩
  · rw [hresult] at hclose
    exact hclose.bind_error
  · rw [hresult] at hclose
    exact hclose.bind

/-- What has been written stays written. -/
theorem exists_end_client {α : Type} {Q : α → Solo UInt8 (List SocketAddress) → Prop}
    {p : ConnProc UInt8 Exception DialRes α} (h : Ends (Client conn outcome) Q p s) :
    ∃ a s', Q a s' ∧ s.out <+: s'.out := by
  induction p generalizing s with
  | ret a => exact ⟨a, s, h, List.prefix_rfl⟩
  | act op next ih =>
    obtain ⟨⟨r, s₁, hr⟩, hnext⟩ := h
    obtain ⟨a, s', hQ, hstart⟩ := ih r (hnext r s₁ hr)
    refine ⟨a, s', hQ, ?_⟩
    have hout : s.out <+: s₁.out := by
      cases hr with
      | «open» _ _ halone =>
        cases halone with
        | write => exact Solo.out_send _ s ▸ List.prefix_append _ _
        | _ => exact List.prefix_rfl
      | closeWrite => exact List.prefix_rfl
      | lateWrite => exact Solo.out_send _ s ▸ List.prefix_append _ _
      | lateError => exact List.prefix_rfl
    exact hout.trans hstart

theorem flatten_reply (o : ByteOrder) (cd : UInt8) :
    (reply o cd).flatten = [0, cd, 0, 0, 0, 0, 0, 0] := by
  cases o <;> rfl

theorem yields_writeReply_client (cd : UInt8) (hopen : s.closed = false) :
    Yields (Client conn outcome) (writeReply o cd).run s (.ok ()) (s.sendAll (reply o cd)) :=
  yields_client (yields_writeReply cd hopen) hopen hopen

/-- After an error the reply 91 is written, and then the reply 90. -/
theorem ends_makeConn_of_error {e : Exception}
    {Q : Except Exception Made → Solo UInt8 (List SocketAddress) → Prop}
    (hrun : Yields (Alone (Dials outcome) fun _ ↦ True) (connectRequest o).run s (.error e) t)
    (he : e ≠ .eofException) (hs : s.closed = false) (ht : t.closed = false) :
    Ends (Client conn outcome) Q (makeConn o).run s ↔
      match conn.closeWrite with
      | .ok () => Ends (Client conn outcome) Q
          (writeReply o 90 >>= fun _ ↦ pure (.forwards none)).run (t.sendAll (reply o 91)).close
      | .error e => Q (.error e) (t.sendAll (reply o 91)).close := by
  have hrequest : Yields (Client conn outcome) (connectRequest o).run s (.error e) t :=
    yields_client hrun hs ht
  have hanswer := @yields_writeReply_client o conn outcome t 91 ht
  rw [makeConn, connectOrAnswer, ExceptT.run_bind, ends_bind, ends_tryCatch,
    hrequest.bind_error, caught]
  rcases e with _ | _ | what | error
  · exact absurd rfl he
  all_goals
    dsimp only
    rw [hanswer.bind, ends_closeWrite]
    rcases conn.closeWrite with e | ⟨⟩
    · exact Iff.rfl
    · exact Iff.rfl

/-- The connection throws after the reply 91: when the stream is closed, or at the next write. -/
def Drops (conn : IConn) : Prop :=
  (∃ e, conn.closeWrite = .error e) ∨ ∃ e, conn.lateWrite [0, 91, 0, 0, 0, 0, 0, 0] = .error e

/-- A client that has been accepted, with all that it will send. -/
def accepted (bytes : Bytes) : Solo UInt8 (List SocketAddress) := ⟨bytes, true, 0, [], false, []⟩

theorem replied_of_early {r : Except Exception Made} (h : EndsEarly o bytes) (hout : s.out = [])
    (hr : ∀ proxy_conn, r ≠ .ok (.forwards proxy_conn)) : Replied o outcome bytes r s where
  silent _ := hout
  granted hcomplete _ := absurd hcomplete (h.1 _)
  refused hearly _ := absurd h hearly
  proxied hforwards := absurd hforwards (hr _)

theorem replied_of_granted {address : SocketAddress} (h : Complete o bytes address)
    (hdial : outcome address = .ok ()) (hout : s.out = [0, 90, 0, 0, 0, 0, 0, 0]) :
    Replied o outcome bytes (.ok (.forwards (some address))) s where
  silent hearly := absurd h (hearly.1 _)
  granted _ _ := hout
  refused _ hrefused := absurd hdial (hrefused address h)
  proxied hforwards := by
    cases hforwards
    exact Option.some_ne_none address

theorem replied_of_refused {r : Except Exception Made} (h : ¬ EndsEarly o bytes)
    (hdial : ∀ address, Complete o bytes address → outcome address ≠ .ok ())
    (hout : s.out = [0, 91, 0, 0, 0, 0, 0, 0])
    (hr : ∀ proxy_conn, r ≠ .ok (.forwards proxy_conn)) : Replied o outcome bytes r s where
  silent hearly := absurd hearly h
  granted hcomplete hok := absurd hok (hdial _ hcomplete)
  refused _ _ := hout
  proxied hforwards := absurd hforwards (hr _)

/-- A good request is answered, and its data is forwarded to the connection that has been
dialled. -/
theorem ends_makeConn_of_granted {address : SocketAddress} (h : Complete o bytes address)
    (hdial : outcome address = .ok ())
    (hrun : Yields (Alone (Dials outcome) fun _ ↦ True) (connectRequest o).run (accepted bytes)
      ((outcome address).map fun _ ↦ address) t) (hsilent : Silent (accepted bytes) t) :
    Ends (Client conn outcome) (Replied o outcome bytes) (makeConn o).run (accepted bytes) := by
  rw [hdial] at hrun
  have hrequest : Yields (Client conn outcome) (connectRequest o).run (accepted bytes)
      (.ok address) t := yields_client hrun rfl hsilent.2
  have hblocks : Yields (Client conn outcome) (connectOrAnswer o).run (accepted bytes)
      (.ok (some (some address))) t := by
    rw [Yields, connectOrAnswer, ends_tryCatch, hrequest.bind]
    exact ⟨rfl, rfl⟩
  rw [makeConn, hblocks.bind]
  dsimp only
  rw [(yields_writeReply_client 90 hsilent.2).bind]
  refine replied_of_granted h hdial ?_
  rw [Solo.out_sendAll, flatten_reply, hsilent.1]
  rfl

/-- What a request that is refused sees: one reply if the connection throws, and two otherwise. -/
theorem ends_makeConn_of_refused {e : Exception} (h : ¬ EndsEarly o bytes)
    (hdial : ∀ address, Complete o bytes address → outcome address ≠ .ok ())
    (hrun : Yields (Alone (Dials outcome) fun _ ↦ True) (connectRequest o).run (accepted bytes)
      (.error e) t) (he : e ≠ .eofException) (hsilent : Silent (accepted bytes) t) :
    Ends (Client conn outcome) (Replied o outcome bytes) (makeConn o).run (accepted bytes)
      ↔ Drops conn := by
  have hout : (t.sendAll (reply o 91)).close.out = [0, 91, 0, 0, 0, 0, 0, 0] := by
    rw [Solo.out_close, Solo.out_sendAll, flatten_reply, hsilent.1]
    rfl
  rw [ends_makeConn_of_error hrun he rfl hsilent.2]
  rcases hclose : conn.closeWrite with e' | ⟨⟩
  · exact iff_of_true (replied_of_refused h hdial hout nofun) (Or.inl ⟨e', hclose⟩)
  dsimp only
  rw [writeReply, bind_assoc, ends_lateWrite rfl, hout]
  rcases hlate : conn.lateWrite [0, 91, 0, 0, 0, 0, 0, 0] with e' | ⟨⟩
  · exact iff_of_true (replied_of_refused h hdial hout nofun) (Or.inr ⟨e', hlate⟩)
  refine iff_of_false (fun hends ↦ ?_) ?_
  · obtain ⟨r, s', hreplied, hprefix⟩ := exists_end_client hends
    have hle := hprefix.length_le
    rw [hreplied.refused h hdial, Solo.out_send, hout] at hle
    exact absurd hle (by decide)
  · rintro (⟨e', herror⟩ | ⟨e', herror⟩)
    · cases hclose.symm.trans herror
    · cases hlate.symm.trans herror

end MakeConn

/-- **One reply to a request, if it is not refused.**  A request that is refused sees one reply only
if the connection throws when the stream is closed, or at the write after that. -/
theorem ends_makeConn_iff (o : ByteOrder) (errors : SocketAddress → Option ℕ) (conn : IConn)
    (bytes : Bytes) :
    Ends (Client conn (dialling errors)) (Replied o (dialling errors) bytes) (makeConn o).run
        (accepted bytes)
      ↔ EndsEarly o bytes ∨ (∃ address, Complete o bytes address ∧ errors address = none)
        ∨ Drops conn := by
  have hcases : Request (dialling errors) (fun _ ↦ True) o (accepted bytes) :=
    request_cases trivial rfl
  obtain ⟨hcomplete, hrun, hsilent⟩ | ⟨hearly, hrun, hsilent⟩ | ⟨hwrong, hrun, hsilent⟩ := hcases
  · rename_i address t
    have hearly : ¬ EndsEarly o bytes := fun hearly ↦ hearly.1 address hcomplete
    rcases hdial : errors address with _ | error
    · have hok : dialling errors address = .ok () := by rw [dialling, hdial]
      exact iff_of_true (ends_makeConn_of_granted hcomplete hok hrun hsilent)
        (Or.inr (Or.inl ⟨address, hcomplete, hdial⟩))
    · have herror : dialling errors address = .error (.other error) := by rw [dialling, hdial]
      have hrefused (address' : SocketAddress) (h : Complete o bytes address') :
          dialling errors address' ≠ .ok () := by
        rw [← hcomplete.unique h, herror]
        simp
      rw [herror] at hrun
      rw [ends_makeConn_of_refused hearly hrefused hrun (by simp) hsilent]
      refine ⟨fun h ↦ Or.inr (Or.inr h), ?_⟩
      rintro (h | ⟨address', h, hnone⟩ | h)
      · exact absurd h hearly
      · rw [← hcomplete.unique h, hdial] at hnone
        cases hnone
      · exact h
  · rename_i t
    refine iff_of_true ?_ (Or.inl hearly)
    have hblocks : Yields (Client conn (dialling errors)) (connectOrAnswer o).run (accepted bytes)
        (.ok none) t := by
      rw [Yields, connectOrAnswer, ends_tryCatch,
        (yields_client hrun rfl hsilent.2).bind_error]
      exact ⟨rfl, rfl⟩
    rw [makeConn, hblocks.bind]
    exact replied_of_early hearly hsilent.1 (by simp)
  · have hwrong : Wrong o bytes := hwrong
    have hrefused (address : SocketAddress) (h : Complete o bytes address) :
        dialling errors address ≠ .ok () := absurd h (hwrong.not_complete address)
    rw [ends_makeConn_of_refused hwrong.not_endsEarly hrefused hrun (by simp) hsilent]
    refine ⟨fun h ↦ Or.inr (Or.inr h), ?_⟩
    rintro (h | ⟨address, h, -⟩ | h)
    · exact absurd h hwrong.not_endsEarly
    · exact absurd h (hwrong.not_complete address)
    · exact h

/-- A client of version 5 that writes on is sent two replies, and then the null pointer is
dereferenced. -/
theorem not_replied_version :
    ¬ Ends (Client ⟨.ok (), fun _ ↦ .ok ()⟩ (dialling fun _ ↦ none))
      (Replied .little (dialling fun _ ↦ none) [5, 1, 0, 80, 127, 0, 0, 1, 0])
      (makeConn .little).run (accepted [5, 1, 0, 80, 127, 0, 0, 1, 0]) := by
  have hwrong : Wrong .little [5, 1, 0, 80, 127, 0, 0, 1, 0] := wrong_of_vn (by decide) _
  have hvn : Yields (Alone (Dials (dialling fun _ ↦ none)) fun _ ↦ True) readChar.run
      (accepted [5, 1, 0, 80, 127, 0, 0, 1, 0]) (.ok 5) _ := yields_readChar rfl trivial
  have hrun : Yields (Alone (Dials (dialling fun _ ↦ none)) fun _ ↦ True)
      (connectRequest .little).run (accepted [5, 1, 0, 80, 127, 0, 0, 1, 0])
      (.error (.runtime_error "Wrong request"))
      ((accepted [5, 1, 0, 80, 127, 0, 0, 1, 0]).skip 1) := by
    rw [Yields, connectRequest, hvn.bind, if_pos (by decide)]
    exact ⟨rfl, rfl⟩
  rw [ends_makeConn_of_refused hwrong.not_endsEarly
    (fun address h ↦ absurd h (hwrong.not_complete address)) hrun (by simp) ⟨rfl, rfl⟩]
  rintro (⟨e, h⟩ | ⟨e, h⟩)
  · cases h
  · cases h

end Socks
end ManyTasks
