import ManyTasks.Socks.Agreement

/-!
# Chains of proxies

`DialProxyChain` dials the first proxy and asks for the next one, over and over on the same
connection.  The requests are the addresses after the first one, each with the name of the user at
the proxy before it (`requests`).  A request is written when the replies to those before it have
been read and are good, which is after eight bytes for each of them (`numbered`).
-/

set_option autoImplicit false

namespace ManyTasks
namespace Socks

open Io Lib Lib.Proc

/-- A reply begins with 0 and 90, and has eight bytes. -/
def GoodReply (bytes : Bytes) : Prop := 8 ≤ bytes.length ∧ bytes.take 2 = [0, 90]

instance (bytes : Bytes) : Decidable (GoodReply bytes) := inferInstanceAs (Decidable (_ ∧ _))

/-- How many replies are good before the first one that is not, at most so many. -/
def goodReplies : ℕ → Bytes → ℕ
  | 0, _ => 0
  | n + 1, bytes => if GoodReply bytes then goodReplies n (bytes.drop 8) + 1 else 0

/-- What is asked of each proxy: the address after it, and the name of the user there. -/
def requests (proxies : List Proxy) (endpoint : SocketAddress) : List (SocketAddress × Bytes) :=
  (proxies.tail.map Proxy.proxy_address ++ [endpoint]).zip (proxies.map Proxy.username)

/-- What has been written for these requests, each with how much had been read before: eight bytes
more each time. -/
def numbered (o : ByteOrder) : ℕ → List (SocketAddress × Bytes) → List (ℕ × Bytes)
  | _, [] => []
  | taken, r :: rs =>
    (request o r.1 r.2).map (fun piece ↦ (taken, piece)) ++ numbered o (taken + 8) rs

/-! ## One reply -/

section Reply

variable {X σ : Type} {Res : X → Type} {answers : σ → (x : X) → Res x → σ → Prop} {s : Solo UInt8 σ}

theorem yields_readReply_good {o : ByteOrder} (hgood : GoodReply s.inp) :
    Yields (Alone answers fun _ ↦ True) (readReply o : ConnM Exception Res Unit).run s (.ok ())
      (s.skip 8) := by
  obtain ⟨hlen, htake⟩ := hgood
  have hinp : s.inp = 0 :: 90 :: ((s.inp.drop 2).take 2 ++ (((s.inp.drop 2).drop 2).take 4
      ++ ((s.inp.drop 2).drop 2).drop 4)) := by
    rw [List.take_append_drop, List.take_append_drop]
    exact (List.take_append_drop 2 s.inp).symm.trans (congrArg (· ++ s.inp.drop 2) htake)
  refine yields_readReply hinp trivial ?_ ?_
  · rw [List.length_take, List.length_drop]
    omega
  · rw [List.length_take, List.length_drop, List.length_drop]
    omega

/-- The end of a reply that is too short. -/
theorem ends_readRest_short {o : ByteOrder} (hended : s.ended = true) (hshort : s.inp.length < 6) :
    Ends (Alone answers fun _ ↦ True)
      (fun r t ↦ (∃ e, r = .error e) ∧ t.sent = s.sent ∧ t.ext = s.ext)
      (do discard (readUInt16 o); discard (readUInt32 o) : ConnM Exception Res Unit).run s := by
  by_cases hport : s.inp.length < 2
  · have hthrow : Yields (Alone answers fun _ ↦ True)
        (discard (readUInt16 o) : ConnM Exception Res Unit).run s (.error .eofException) _ :=
      ((yields_readFull_eof trivial hport hended).map _).map _
    rw [hthrow.bind_error]
    exact ⟨⟨_, rfl⟩, rfl, rfl⟩
  · have hcut : s.inp = s.inp.take 2 ++ s.inp.drop 2 := (List.take_append_drop 2 s.inp).symm
    have hread : Yields (Alone answers fun _ ↦ True)
        (discard (readUInt16 o) : ConnM Exception Res Unit).run s (.ok ()) (s.skip 2) :=
      (yields_readUInt16 hcut trivial (by rw [List.length_take]; omega)).map _
    have hip : (s.skip 2).inp.length < 4 := by
      rw [Solo.inp_skip, List.length_drop]
      omega
    have hthrow : Yields (Alone answers fun _ ↦ True)
        (discard (readUInt32 o) : ConnM Exception Res Unit).run (s.skip 2)
        (.error .eofException) _ :=
      ((yields_readFull_eof trivial hip hended).map _).map _
    rw [hread.bind, hthrow.ends_iff]
    exact ⟨⟨_, rfl⟩, rfl, rfl⟩

/-- A bad reply is not accepted, and nothing is written. -/
theorem ends_readReply_bad {o : ByteOrder} (hended : s.ended = true) (hbad : ¬ GoodReply s.inp) :
    Ends (Alone answers fun _ ↦ True)
      (fun r t ↦ (∃ e, r = .error e) ∧ t.sent = s.sent ∧ t.ext = s.ext)
      (readReply o : ConnM Exception Res Unit).run s := by
  rw [readReply]
  rcases hinp : s.inp with _ | ⟨vn, rest⟩
  · rw [(yields_readChar_eof hinp trivial hended).bind_error]
    exact ⟨⟨_, rfl⟩, rfl, rfl⟩
  rw [(yields_readChar hinp trivial).bind]
  split
  · exact ⟨⟨_, rfl⟩, rfl, rfl⟩
  rename_i hvn
  have hinp₁ : (s.skip 1).inp = rest := Solo.inp_skip_cons hinp
  rcases rest with _ | ⟨cd, rest⟩
  · rw [(yields_readChar_eof hinp₁ trivial hended).bind_error]
    exact ⟨⟨_, rfl⟩, rfl, rfl⟩
  rw [(yields_readChar hinp₁ trivial).bind]
  split
  · exact ⟨⟨_, rfl⟩, rfl, rfl⟩
  rename_i hcd
  have hinp₂ : ((s.skip 1).skip 1).inp = rest := Solo.inp_skip_cons hinp₁
  -- it begins as a good reply does, so it is too short
  have hlen : rest.length < 6 := by
    by_contra hge
    refine hbad ⟨?_, ?_⟩
    · rw [hinp, List.length_cons, List.length_cons]
      omega
    · rw [hinp, not_not.1 hvn, not_not.1 hcd]
      rfl
  exact ends_readRest_short (s := (s.skip 1).skip 1) hended (by rwa [hinp₂])

end Reply

/-! ## All requests -/

/-- The requests, one after the other. -/
def connectAll (o : ByteOrder) : List (SocketAddress × Bytes) → ConnM Exception DialRes Unit
  | [] => pure ()
  | r :: rs => do
    sock4Connect o r.1 r.2
    connectAll o rs

theorem length_requests (proxies : List Proxy) (endpoint : SocketAddress) :
    (requests proxies endpoint).length = proxies.length := by
  cases proxies with
  | nil => rfl
  | cons p ps => simp [requests]

/-- The request to a proxy is for the one after it. -/
theorem requests_of_lt {proxies : List Proxy} {endpoint : SocketAddress} {j : ℕ}
    (hj : j + 1 < proxies.length) :
    (requests proxies endpoint)[j]? = some (proxies[j + 1].proxy_address, proxies[j].username) := by
  have hlen : j < proxies.tail.length := by
    rw [List.length_tail]
    omega
  have haddress : (proxies.tail.map Proxy.proxy_address ++ [endpoint])[j]?
    = some proxies[j + 1].proxy_address := by
    rw [List.getElem?_append_left (by rwa [List.length_map]), List.getElem?_map, List.getElem?_tail,
      List.getElem?_eq_getElem hj, Option.map_some]
  have huser : (proxies.map Proxy.username)[j]? = some proxies[j].username := by
    rw [List.getElem?_map, List.getElem?_eq_getElem (Nat.lt_of_succ_lt hj), Option.map_some]
  exact List.getElem?_zip_eq_some.2 ⟨haddress, huser⟩

/-- The request to the last proxy is for the endpoint. -/
theorem requests_of_last {proxies : List Proxy} {endpoint : SocketAddress} {j : ℕ}
    (hj : j < proxies.length)
    (hlast : j + 1 = proxies.length) :
    (requests proxies endpoint)[j]? = some (endpoint, proxies[j].username) := by
  have hlen : (proxies.tail.map Proxy.proxy_address).length = j := by
    rw [List.length_map, List.length_tail]
    omega
  have haddress : (proxies.tail.map Proxy.proxy_address ++ [endpoint])[j]? = some endpoint := by
    rw [← hlen, List.getElem?_concat_length]
  have huser : (proxies.map Proxy.username)[j]? = some proxies[j].username := by
    rw [List.getElem?_map, List.getElem?_eq_getElem hj, Option.map_some]
  exact List.getElem?_zip_eq_some.2 ⟨haddress, huser⟩

/-- The loop of `DialProxyChain` goes through the requests. -/
theorem connectFrom_eq (o : ByteOrder) (proxies : List Proxy) (endpoint : SocketAddress) (j : ℕ)
    (hj : j + 1 ≤ proxies.length) :
    connectFrom o proxies endpoint (j + 1) (Nat.succ_pos j) hj
      = connectAll o ((requests proxies endpoint).drop j) := by
  induction hn : proxies.length - j generalizing j with
  | zero => omega
  | succ n ih =>
    rw [connectFrom, List.drop_eq_getElem?_toList_append]
    split
    · rename_i hlt
      rw [requests_of_lt hlt, ih (j + 1) hlt (by omega)]
      rfl
    · rename_i hge
      have hlast : j + 1 = proxies.length := by omega
      have hnil : (requests proxies endpoint).drop (j + 1) = [] :=
        List.drop_eq_nil_of_le (by rw [length_requests, hlast])
      rw [requests_of_last hj hlast, hnil]
      exact (bind_pure_unit).symm

section Chain

variable {outcome : SocketAddress → Except Exception Unit} {s : Solo UInt8 (List SocketAddress)}

/-- Requests are written as long as the replies are good; if one is not, there is an error. -/
theorem ends_connectAll (o : ByteOrder) (rs : List (SocketAddress × Bytes))
    (hended : s.ended = true)
    (hopen : s.closed = false) :
    Ends (Alone (Dials outcome) fun _ ↦ True)
      (fun r t ↦ (r = .ok () ↔ goodReplies rs.length s.inp = rs.length)
        ∧ t.sent = s.sent ++ numbered o s.taken (rs.take (goodReplies rs.length s.inp + 1))
        ∧ t.ext = s.ext)
      (connectAll o rs).run s := by
  induction rs generalizing s with
  | nil => exact ⟨iff_of_true rfl rfl, (List.append_nil _).symm, rfl⟩
  | cons r rs ih =>
    rw [connectAll, ExceptT.run_bind, ends_bind, ends_sock4Connect o r.1 r.2 hopen]
    by_cases hgood : GoodReply s.inp
    · have hreply : Yields (Alone (Dials outcome) fun _ ↦ True)
        (readReply o : ConnM Exception DialRes Unit).run
          (s.sendAll (request o r.1 r.2)) (.ok ()) ((s.sendAll (request o r.1 r.2)).skip 8) :=
        yields_readReply_good hgood
      refine hreply.ends_iff.2 ?_
      refine (ih (s := (s.sendAll (request o r.1 r.2)).skip 8) hended hopen).mono ?_
      rintro c t ⟨hresult, hsent, hext⟩
      rw [List.length_cons, goodReplies, if_pos hgood]
      refine ⟨hresult.trans Nat.add_right_cancel_iff.symm, ?_, hext⟩
      rw [hsent, List.take_succ_cons, numbered, ← List.append_assoc]
      rfl
    · refine (ends_readReply_bad (s := s.sendAll (request o r.1 r.2)) hended hgood).mono ?_
      rintro c t ⟨⟨e, rfl⟩, hsent, hext⟩
      rw [List.length_cons, goodReplies, if_neg hgood]
      refine ⟨iff_of_false nofun (Nat.succ_ne_zero _).symm, ?_, hext⟩
      rw [hsent, List.take_succ_cons, List.take_zero, numbered, numbered, List.append_nil]
      rfl

/-- The address that is dialled. -/
def firstHop (proxies : List Proxy) (endpoint : SocketAddress) : SocketAddress :=
  (proxies.head?.map Proxy.proxy_address).getD endpoint

/-- What is known when `DialProxyChain` has returned.  It has dialled one address.  If that could be
reached, it has written the first request, and each other one after as many good replies as there
are requests before it; and there is a connection if there are as many good replies as requests. -/
def Dialled (o : ByteOrder) (proxies : List Proxy) (endpoint : SocketAddress) (inp : Bytes)
    (outcome : SocketAddress → Except Exception Unit) (r : Except Exception (Option SocketAddress))
    (t : Solo UInt8 (List SocketAddress)) : Prop :=
  t.ext = [firstHop proxies endpoint] ∧ match outcome (firstHop proxies endpoint) with
    | .error _ => r = .ok none ∧ t.sent = []
    | .ok () =>
      r = .ok (if goodReplies proxies.length inp = proxies.length then
          some (firstHop proxies endpoint) else none)
        ∧ t.sent = numbered o 0
          ((requests proxies endpoint).take (goodReplies proxies.length inp + 1))

variable {o : ByteOrder} {proxies : List Proxy} {endpoint : SocketAddress} {inp : Bytes}
  {r : Except Exception (Option SocketAddress)} {t : Solo UInt8 (List SocketAddress)}

theorem dialled_of_error {e : Exception} (hout : outcome (firstHop proxies endpoint) = .error e)
    (hext : t.ext = [firstHop proxies endpoint]) (hresult : r = .ok none) (hsent : t.sent = []) :
    Dialled o proxies endpoint inp outcome r t := by
  rw [Dialled, hout]
  exact ⟨hext, hresult, hsent⟩

theorem dialled_of_ok (hout : outcome (firstHop proxies endpoint) = .ok ())
    (hext : t.ext = [firstHop proxies endpoint])
    (hresult : r = .ok (if goodReplies proxies.length inp = proxies.length then
      some (firstHop proxies endpoint) else none))
    (hsent : t.sent = numbered o 0
      ((requests proxies endpoint).take (goodReplies proxies.length inp + 1))) :
    Dialled o proxies endpoint inp outcome r t := by
  rw [Dialled, hout]
  exact ⟨hext, hresult, hsent⟩

theorem ends_dialProxyChain (o : ByteOrder) (proxies : List Proxy) (endpoint : SocketAddress)
    (inp : Bytes)
    (outcome : SocketAddress → Except Exception Unit) :
    Ends (Alone (Dials outcome) fun _ ↦ True) (Dialled o proxies endpoint inp outcome)
      (dialProxyChain o proxies endpoint).run ⟨inp, true, 0, [], false, []⟩ := by
  have hdial : Yields (Alone (Dials outcome) fun _ ↦ True) (dialTCP (firstHop proxies endpoint)).run
      ⟨inp, true, 0, [], false, []⟩ _ ⟨inp, true, 0, [], false, [firstHop proxies endpoint]⟩ :=
        yields_dialTCP _
  rw [dialProxyChain, ends_tryCatch]
  cases proxies with
  | nil =>
    rw [dif_pos rfl]
    refine (hdial.map some).ends_iff.2 ?_
    rcases hout : outcome (firstHop [] endpoint) with e | u
    · exact dialled_of_error hout rfl rfl rfl
    · exact dialled_of_ok hout rfl rfl rfl
  | cons p ps =>
    rw [dif_neg (List.cons_ne_nil p ps), ExceptT.run_bind, ends_bind]
    refine hdial.ends_iff.2 ?_
    rcases hout : outcome (firstHop (p :: ps) endpoint) with e | u
    · exact dialled_of_error hout rfl rfl rfl
    · dsimp only [Except.map]
      rw [ExceptT.run_bind, ends_bind, connectFrom_eq o (p :: ps) endpoint 0]
      refine (ends_connectAll o (requests (p :: ps) endpoint) rfl rfl).mono ?_
      rintro (e | u) t ⟨hresult, hsent, hext⟩
      · rw [length_requests] at hresult hsent
        have hbad : goodReplies (p :: ps).length inp ≠ (p :: ps).length :=
          fun h ↦ nomatch hresult.2 h
        exact dialled_of_ok hout hext (by rw [if_neg hbad]) hsent
      · rw [length_requests] at hresult hsent
        exact dialled_of_ok hout hext (by rw [if_pos (hresult.1 rfl)]) hsent

end Chain

/-- **SOCKS4.**  For all endpoints and all names of users that are not too long, the server dials
the endpoint that the client asks for, the client accepts the reply, and each reads exactly what the
other one writes; also when more is sent afterwards.  And for all chains and all replies, the
requests and the result are as `Dialled` says. -/
theorem agree_and_chain :
    (∀ (o o' : ByteOrder) (endpoint : SocketAddress) (user : Bytes), 0 ∉ user → user.length ≤ 256 →
      Inevitable (Duplex.Step (Dials reachable) (Dials reachable))
          (Duplex.Done (fun r t ↦ r = .ok () ∧ t = []) fun r t ↦ ∃ address,
            address.memory o' = endpoint.memory o ∧ r = .ok (.forwards (some address))
              ∧ t = [address])
          ⟨(sock4Connect o endpoint user).run, (makeConn o').run, ⟨[], false, []⟩, ⟨[], false, []⟩⟩
        ∧ ∀ more ended, Ends (Alone (Dials reachable) fun _ ↦ True)
            (fun r t ↦
              (∃ address, address.memory o' = endpoint.memory o ∧ r = .ok (.forwards (some address))
              ∧ t.ext = [address]) ∧ t.inp = more ∧ t.out = (reply o' 90).flatten)
            (makeConn o').run ⟨(request o endpoint user).flatten ++ more, ended, 0, [], false, []⟩
          ∧ Ends (Alone (Dials reachable) (· = (request o endpoint user).flatten))
            (fun r t ↦ (r = .ok () ∧ t.ext = []) ∧ t.inp = more
              ∧ t.out = (request o endpoint user).flatten)
            (sock4Connect o endpoint user).run
            ⟨(reply o' 90).flatten ++ more, ended, 0, [], false, []⟩)
      ∧ ∀ (o : ByteOrder) (proxies : List Proxy) (endpoint : SocketAddress) (inp : Bytes)
          (outcome : SocketAddress → Except Exception Unit),
        Ends (Alone (Dials outcome) fun _ ↦ True) (Dialled o proxies endpoint inp outcome)
          (dialProxyChain o proxies endpoint).run ⟨inp, true, 0, [], false, []⟩ := by
  refine ⟨fun o o' endpoint user hzero hlen ↦ ?_, ends_dialProxyChain⟩
  refine ⟨connect_inevitable o o' hzero hlen, fun more ended ↦ ?_⟩
  exact ⟨ends_makeConn_request o o' endpoint hzero hlen more ended,
    ends_sock4Connect_reply o o' endpoint user more ended⟩

/-- The endpoint 1.2.3.4:80 and the user `prime`, between machines of different byte orders. -/
theorem agree_prime :
    Inevitable (Duplex.Step (Dials reachable) (Dials reachable))
      (Duplex.Done (fun r t ↦ r = .ok () ∧ t = []) fun r t ↦ ∃ address : SocketAddress,
        address.memory .big = SocketAddress.memory .little ⟨67305985, 20480⟩
          ∧ r = .ok (.forwards (some address)) ∧ t = [address])
      ⟨(sock4Connect .little ⟨67305985, 20480⟩ [112, 114, 105, 109, 101]).run, (makeConn .big).run,
        ⟨[], false, []⟩,
        ⟨[], false, []⟩⟩ :=
  (agree_and_chain.1 .little .big ⟨67305985, 20480⟩ [112, 114, 105, 109, 101] (by decide)
    (by decide)).1

end Socks
end ManyTasks
