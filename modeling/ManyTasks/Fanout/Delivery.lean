import ManyTasks.Fanout.Fanout
import Mathlib.Data.List.Forall2

/-!
# What `Fanout` returns

The order in which the fibers and the servers move does not matter: `State.diamond` says that of two
steps each can still be taken after the other, unless two fibers of the group have ended with
different exceptions.  So it is enough to look at one run, in which each program does all it can
before the next one moves (`run_all`), and the result is that of every run.

The servers are any programs that come to their end in such a conversation: the first one
`Announces` the tokens and answers their sum with the flag, the others `Reveal` a part for a token.
-/

set_option autoImplicit false

namespace ManyTasks
namespace Fanout

open Lib Io Socks Relation

variable {o : ByteOrder} {world : SocketAddress → Option Server} {address : SocketAddress}

/-! ## Numbers in memory -/

theorem length_word (o : ByteOrder) (n : UInt64) : (word o n).length = 8 :=
  o.length_encode 8 n.toNat

theorem ofWord_word (o : ByteOrder) (n : UInt64) : ofWord o (word o n) = n := by
  have hlt : n.toNat < 256 ^ 8 := n.toNat_lt
  rw [ofWord, word, ByteOrder.decode_encode, Nat.mod_eq_of_lt hlt, UInt64.ofNat_toNat]

/-- The memory of a vector of numbers. -/
def words (o : ByteOrder) (ns : List UInt64) : Bytes := ns.flatMap (word o)

theorem words_cons (o : ByteOrder) (n : UInt64) (ns : List UInt64) :
    words o (n :: ns) = word o n ++ words o ns :=
  List.flatMap_cons

theorem length_words (o : ByteOrder) (ns : List UInt64) : (words o ns).length = 8 * ns.length := by
  induction ns with
  | nil => simp [words]
  | cons n ns ih =>
    rw [words_cons, List.length_append, length_word, ih, List.length_cons]
    omega

theorem ofWords_words (o : ByteOrder) (ns : List UInt64) :
    ofWords o ns.length (words o ns) = ns := by
  induction ns with
  | nil => simp [ofWords]
  | cons n ns ih =>
    have htake : (word o n ++ words o ns).take 8 = word o n := List.take_left' (length_word o n)
    have hdrop : (word o n ++ words o ns).drop 8 = words o ns := List.drop_left' (length_word o n)
    rw [words_cons, List.length_cons, ofWords, htake, hdrop, ofWord_word, ih]

/-! ## Each program alone -/

/-- What `GetTokens` reads. -/
def announcement (o : ByteOrder) (tokens : List UInt64) : Bytes :=
  word o (UInt64.ofNat tokens.length) ++ words o tokens

theorem reads_word {ε : Type} (eof : ε) (n : UInt64) (rest : Bytes) :
    Prog.Reads (ofWord o <$> Prog.readFull eof 8 : Prog UInt8 Unit ε UInt64) (word o n ++ rest) n
      rest := by
  have hread : Prog.Reads (Prog.readFull eof 8 : Prog UInt8 Unit ε Bytes) (word o n ++ rest)
      (word o n) rest := by
    have hreads := Prog.reads_readFull (σ := Unit) eof (word o n) rest
    rwa [length_word] at hreads
  rw [map_eq_pure_bind]
  refine hread.bind ?_
  rw [ofWord_word]
  exact .pure n rest

theorem steps_getTokens {tokens : List UInt64} (hlen : tokens.length < 2 ^ 60) :
    Prog.Steps (getTokens o) (announcement o tokens) (.ret tokens) [] [] := by
  have hsize : (UInt64.ofNat tokens.length).toNat = tokens.length := by
    rw [UInt64.toNat_ofNat']
    omega
  refine Prog.steps_of_reads fun rest ↦ ?_
  rw [announcement, List.append_assoc]
  refine (reads_word _ _ _).bind ?_
  rw [hsize, if_neg hlen.not_ge, map_eq_pure_bind, ← length_words o tokens]
  refine (Prog.reads_readFull _ _ rest).bind ?_
  rw [ofWords_words]
  exact .pure tokens rest

theorem steps_getPart (token : UInt64) :
    Prog.Steps (getPart o token) [] (ofWord o <$> Prog.readFull .eofException 8) []
      (word o token) :=
  (Prog.steps_of_writes (Prog.writes_writeAll (word o token))).bind _

theorem steps_partRead (part : UInt64) :
    Prog.Steps (ofWord o <$> Prog.readFull .eofException 8 : ConnProg UInt64) (word o part)
      (.ret part) [] [] :=
  Prog.steps_of_reads (reads_word _ part)

/-- The server sends the tokens, waits for the sum of the parts and sends the flag. -/
def Announces (o : ByteOrder) (server : Server) (tokens : List UInt64) (secret : UInt64)
    (flag : Bytes) : Prop :=
  ∃ waiting, Prog.Steps server [] waiting [] (announcement o tokens) ∧
    Prog.Steps waiting (word o secret) (.ret ()) [] flag

/-- The server waits for the token and sends the part. -/
def Reveals (o : ByteOrder) (server : Server) (token part : UInt64) : Prop :=
  Prog.Steps server (word o token) (.ret ()) [] (word o part)

/-! ## One fiber of the group -/

theorem Fiber.diamond (f : Fiber) : Diamond (Fiber.Step o world) f := by
  intro a b ha hb
  cases ha with
  | dial h =>
    cases hb with
    | dial h' => exact .inl (by rw [Option.some.inj (h.symm.trans h')])
    | refuse h' => simp [h] at h'
  | refuse h =>
    cases hb with
    | dial h' => simp [h] at h'
    | refuse _ => exact .inl (by rw [])
  | talk h =>
    cases hb with
    | talk h' =>
      rcases Link.diamond _ _ _ h h' with rfl | ⟨c, hc, hc'⟩
      · exact .inl (by rw [])
      · exact .inr ⟨.talks c, .talk hc, .talk hc'⟩

/-- A fiber that has ended stays as it is; only its server still moves. -/
theorem Fiber.Step.result {f f' : Fiber} {r : Except Exception UInt64}
    (h : Fiber.Step o world f f') (hr : f.result = some r) : f'.result = some r := by
  cases h with
  | dial => simp [Fiber.result] at hr
  | refuse => simp [Fiber.result] at hr
  | @talk d d' h =>
    obtain ⟨p, q, toLeft, toRight⟩ := d
    cases h with
    | left h =>
      cases p with
      | ret part => exact absurd trivial h.not_ended
      | raise e => exact absurd trivial h.not_ended
      | read next => simp [Fiber.result] at hr
      | write b next => simp [Fiber.result] at hr
      | atomic update next => simp [Fiber.result] at hr
    | right h =>
      cases p with
      | ret part => exact hr
      | raise e => exact hr
      | read next => simp [Fiber.result] at hr
      | write b next => simp [Fiber.result] at hr
      | atomic update next => simp [Fiber.result] at hr

/-- A fiber that has got its part, and its server has ended too. -/
def Fiber.ended (part : UInt64) : Fiber := .talks ⟨.ret part, .ret (), [], []⟩

theorem Fiber.not_step_ended (part : UInt64) (f : Fiber) : ¬Fiber.Step o world (ended part) f := by
  intro h
  cases h with
  | talk h => exact Link.not_step_of_ended (d := ⟨.ret part, .ret (), [], []⟩) trivial trivial _ h

/-- The conversation of a fiber with its server. -/
theorem Fiber.run {partAddress : SocketAddress} {token part : UInt64} {server : Server}
    (hserver : world partAddress = some server) (hreveals : Reveals o server token part) :
    ReflTransGen (Fiber.Step o world) (.dials partAddress token) (ended part) := by
  have htalk : ReflTransGen Link.Step ⟨getPart o token, server, [], []⟩
      ⟨.ret part, .ret (), [], []⟩ :=
    ((Link.left_steps (steps_getPart token) server []).trans
      (Link.right_steps hreveals _ [])).trans (Link.left_steps (steps_partRead part) _ [])
  exact .head (.dial hserver) (htalk.lift Fiber.talks fun _ _ h ↦ .talk h)

/-! ## Steps of `Fanout` -/

section Main

variable {closed closed' : Prop} {results : List (Option (Except Exception UInt64))}
  {m m' m'' : Main} {inp inp' inp'' out out' : Bytes} {new new' : List Fiber}

theorem Main.Step.not_ended (h : Main.Step o address closed results m inp m' inp' out new) :
    ¬m.Ended := by
  cases h <;> exact id

/-- Before the end of the stream, what arrives later does not matter. -/
theorem Main.Step.arrive (h : Main.Step o address closed results m inp m' inp' out new)
    (hopen : ¬closed) (more : Bytes) :
    Main.Step o address closed' results m (inp ++ more) m' (inp' ++ more) out new := by
  cases h with
  | getTokens h => exact .getTokens (h.arrive hopen more)
  | gotTokens => exact .gotTokens
  | noTokens => exact .noTokens
  | spawn h => exact .spawn h
  | spawned h => exact .spawned h
  | waited h => exact .waited h
  | waitThrows h => exact .waitThrows h
  | send h => exact .send (h.arrive hopen more)
  | sent => exact .sent
  | read => exact .read
  | eof h => exact absurd h hopen

/-- Unless fibers have ended with exceptions, `Fanout` has only one step. -/
theorem Main.Step.unique (h : Main.Step o address closed results m inp m' inp' out new)
    (h' : Main.Step o address closed results m inp m'' inp'' out' new')
    (hnone : ∀ e, some (.error e) ∉ results) :
    m' = m'' ∧ inp' = inp'' ∧ out = out' ∧ new = new' := by
  cases h with
  | getTokens h =>
    cases h' with
    | getTokens h' =>
      obtain ⟨rfl, rfl, rfl⟩ := h.unique h'
      simp
    | gotTokens => exact absurd trivial h.not_ended
    | noTokens => exact absurd trivial h.not_ended
  | gotTokens =>
    cases h' with
    | getTokens h' => exact absurd trivial h'.not_ended
    | gotTokens => simp
  | noTokens =>
    cases h' with
    | getTokens h' => exact absurd trivial h'.not_ended
    | noTokens => simp
  | spawn h =>
    cases h' with
    | spawn h' => simp [Option.some.inj (h.symm.trans h')]
    | spawned h' => simp [h] at h'
  | spawned h =>
    cases h' with
    | spawn h' => simp [h] at h'
    | spawned h' => simp
  | @waited parts _ h =>
    cases h' with
    | @waited parts' _ h' =>
      have hparts : parts = parts' :=
        (List.map_injective_iff.mpr fun _ _ h ↦ by simpa using h) (h.symm.trans h')
      simp [hparts]
    | waitThrows h' => exact absurd h' (hnone _)
  | waitThrows h => exact absurd h (hnone _)
  | send h =>
    cases h' with
    | send h' =>
      obtain ⟨rfl, rfl, rfl⟩ := h.unique h'
      simp
    | sent => exact absurd trivial h.not_ended
  | sent =>
    cases h' with
    | send h' => exact absurd trivial h'.not_ended
    | sent => simp
  | read =>
    cases h' with
    | read => simp
  | eof h =>
    cases h' with
    | eof h' => simp

/-- What else the fibers come to does not matter either. -/
theorem Main.Step.of_results {results' : List (Option (Except Exception UInt64))}
    (h : Main.Step o address closed results m inp m' inp' out new)
    (hnone : ∀ e, some (.error e) ∉ results)
    (hsame : ∀ parts : List UInt64, results = parts.map (fun part ↦ some (.ok part)) →
      results' = results) :
    Main.Step o address closed results' m inp m' inp' out new := by
  cases h with
  | getTokens h => exact .getTokens h
  | gotTokens => exact .gotTokens
  | noTokens => exact .noTokens
  | spawn h => exact .spawn h
  | spawned h => exact .spawned h
  | waited h => exact .waited ((hsame _ h).trans h)
  | waitThrows h => exact absurd h (hnone _)
  | send h => exact .send h
  | sent => exact .sent
  | read => exact .read
  | eof h => exact .eof h

end Main

/-! ## Every order -/

/-- A fiber that has moved has still ended as it had. -/
theorem results_set {fibers : List Fiber} {i : ℕ} {f f' : Fiber} (hi : fibers[i]? = some f)
    (h : Fiber.Step o world f f') {parts : List UInt64}
    (hparts : fibers.map Fiber.result = parts.map fun part ↦ some (.ok part)) :
    (fibers.set i f').map Fiber.result = fibers.map Fiber.result := by
  have hf : (fibers.map Fiber.result)[i]? = some f.result := by
    rw [List.getElem?_map, hi, Option.map_some]
  obtain ⟨part, -, hpart⟩ : ∃ part, parts[i]? = some part ∧ some (.ok part) = f.result := by
    rwa [hparts, List.getElem?_map, Option.map_eq_some_iff] at hf
  have hf' : f'.result = f.result := (h.result hpart.symm).trans hpart
  obtain ⟨hlt, hget⟩ := List.getElem?_eq_some_iff.mp hf
  rw [List.map_set, hf', ← hget]
  exact List.set_getElem_self hlt

/-- **The order does not matter**, as long as no fiber of the group has thrown. -/
theorem State.diamond {s : State} (hnone : ∀ e, some (.error e) ∉ s.results) :
    Diamond (Step o world address) s := by
  intro a b ha hb
  have hmain_server {m : Main} {q : Server} {inp inp' out out' : Bytes} {new : List Fiber}
      (h : Main.Step o address s.server.Ended s.results s.main s.toMain m inp out new)
      (h' : Prog.Step s.main.Ended s.server () s.toServer q () inp' out') :
      ∃ c, Step o world address ⟨m, s.server, inp, s.toServer ++ out, s.fibers ++ new⟩ c ∧
        Step o world address ⟨s.main, q, s.toMain ++ out', inp', s.fibers⟩ c :=
    ⟨_, .server (h'.arrive h.not_ended _), .main (h.arrive h'.not_ended _)⟩
  have hmain_fiber {m : Main} {inp out : Bytes} {new : List Fiber} {i : ℕ} {f f' : Fiber}
      (h : Main.Step o address s.server.Ended s.results s.main s.toMain m inp out new)
      (hi : s.fibers[i]? = some f) (h' : Fiber.Step o world f f') :
      ∃ c, Step o world address ⟨m, s.server, inp, s.toServer ++ out, s.fibers ++ new⟩ c ∧
        Step o world address ⟨s.main, s.server, s.toMain, s.toServer, s.fibers.set i f'⟩ c := by
    obtain ⟨hlt, -⟩ := List.getElem?_eq_some_iff.mp hi
    refine ⟨⟨m, s.server, inp, s.toServer ++ out, s.fibers.set i f' ++ new⟩, ?_, ?_⟩
    · rw [← List.set_append_left _ _ hlt]
      exact .fiber ((List.getElem?_append_left hlt).trans hi) h'
    · exact .main (h.of_results hnone fun parts hparts ↦ results_set hi h' hparts)
  cases ha with
  | main h =>
    cases hb with
    | main h' =>
      obtain ⟨rfl, rfl, rfl, rfl⟩ := h.unique h' hnone
      exact .inl (by rw [])
    | server h' => exact .inr (hmain_server h h')
    | fiber hi h' => exact .inr (hmain_fiber h hi h')
  | server h =>
    cases hb with
    | main h' =>
      obtain ⟨c, hc, hc'⟩ := hmain_server h' h
      exact .inr ⟨c, hc', hc⟩
    | server h' =>
      obtain ⟨rfl, rfl, rfl⟩ := h.unique h'
      exact .inl (by rw [])
    | fiber hi h' => exact .inr ⟨_, .fiber hi h', .server h⟩
  | @fiber i f f' hi h =>
    cases hb with
    | main h' =>
      obtain ⟨c, hc, hc'⟩ := hmain_fiber h' hi h
      exact .inr ⟨c, hc', hc⟩
    | server h' => exact .inr ⟨_, .server h', .fiber hi h⟩
    | @fiber j g g' hj h' =>
      by_cases hij : i = j
      · subst hij
        obtain rfl := Option.some.inj (hi.symm.trans hj)
        obtain ⟨hlt, -⟩ := List.getElem?_eq_some_iff.mp hi
        rcases Fiber.diamond f f' g' h h' with rfl | ⟨c, hc, hc'⟩
        · exact .inl (by rw [])
        · have hset (g : Fiber) : (s.fibers.set i g).set i c = s.fibers.set i c := List.set_set g
          refine .inr ⟨⟨s.main, s.server, s.toMain, s.toServer, s.fibers.set i c⟩, ?_, ?_⟩
          · rw [← hset f']
            exact .fiber (List.getElem?_set_self hlt) hc
          · rw [← hset g']
            exact .fiber (List.getElem?_set_self hlt) hc'
      · refine .inr ⟨⟨s.main, s.server, s.toMain, s.toServer, (s.fibers.set i f').set j g'⟩, ?_, ?_⟩
        · exact .fiber ((List.getElem?_set_ne hij).trans hj) h'
        · rw [List.set_comm _ _ hij]
          exact .fiber ((List.getElem?_set_ne (Ne.symm hij)).trans hi) h

/-! ## One run -/

section Run

variable {s : State} {main : Main} {server server' : Server} {toMain toServer inp inp' out : Bytes}
  {fibers fibers' : List Fiber}

/-- What `Fanout` does alone while it reads or writes. -/
theorem main_steps {α : Type} {at_ : ConnProg α → Main}
    (hat : ∀ {closed : Prop} {results p p' inp inp' out}, Prog.Step closed p () inp p' () inp' out →
      Main.Step o address closed results (at_ p) inp (at_ p') inp' out []) {p p' : ConnProg α}
    (h : p.Steps inp p' inp' out) :
    ReflTransGen (Step o world address) ⟨at_ p, server, inp, toServer, fibers⟩
      ⟨at_ p', server, inp', toServer ++ out, fibers⟩ := by
  induction h generalizing toServer with
  | refl p inp => exact (List.append_nil toServer).symm ▸ .refl
  | head hstep _ ih =>
    have hfirst : Step o world address ⟨at_ _, server, _, toServer, fibers⟩
        ⟨_, server, _, toServer ++ _, fibers ++ []⟩ := .main (hat hstep.of_open)
    rw [List.append_nil] at hfirst
    rw [← List.append_assoc]
    exact .head hfirst ih

/-- A step of `Fanout` that writes nothing and spawns nothing. -/
theorem main_step {m : Main}
    (h : Main.Step o address server.Ended (fibers.map Fiber.result) main inp m inp' [] []) :
    Step o world address ⟨main, server, inp, toServer, fibers⟩
      ⟨m, server, inp', toServer, fibers⟩ := by
  have hstep : Step o world address ⟨main, server, inp, toServer, fibers⟩
    ⟨m, server, inp', toServer ++ [], fibers ++ []⟩ := .main h
  rwa [List.append_nil, List.append_nil] at hstep

/-- What the first server does alone. -/
theorem server_steps (h : Prog.Steps server inp server' inp' out) :
    ReflTransGen (Step o world address) ⟨main, server, toMain, inp, fibers⟩
      ⟨main, server', toMain ++ out, inp', fibers⟩ := by
  induction h generalizing toMain with
  | refl server inp => exact (List.append_nil toMain).symm ▸ .refl
  | head hstep _ ih =>
    rw [← List.append_assoc]
    exact .head (.server hstep.of_open) ih

/-- The fibers that are spawned for these tokens, of which the first one is token `i`. -/
def spawnedFrom (o : ByteOrder) (address : SocketAddress) : ℕ → List UInt64 → List Fiber
  | _, [] => []
  | i, token :: tokens =>
    .dials (partAddress o address i) token :: spawnedFrom o address (i + 1) tokens

theorem spawn_steps {tokens rest : List UInt64} {i : ℕ} (hrest : tokens.drop i = rest) :
    ReflTransGen (Step o world address) ⟨.spawns tokens i, server, toMain, toServer, fibers⟩
      ⟨.waits, server, toMain, toServer, fibers ++ spawnedFrom o address i rest⟩ := by
  have hnext : tokens[i]? = rest.head? := by rw [← hrest, List.head?_drop]
  induction rest generalizing i fibers with
  | nil =>
    rw [spawnedFrom, List.append_nil]
    exact .single (main_step (.spawned hnext))
  | cons token rest ih =>
    have hspawn : Step o world address ⟨.spawns tokens i, server, toMain, toServer, fibers⟩
        ⟨.spawns tokens (i + 1), server, toMain, toServer ++ [],
          fibers ++ [.dials (partAddress o address i) token]⟩ := .main (.spawn hnext)
    rw [List.append_nil] at hspawn
    have hdrop : tokens.drop (i + 1) = rest := by
      rw [← List.drop_drop, hrest, List.drop_one, List.tail_cons]
    rw [spawnedFrom, List.append_cons]
    exact .head hspawn (ih hdrop (by rw [← hdrop, List.head?_drop]))

/-- What one fiber of the group and its server do alone. -/
theorem fiber_steps {before after : List Fiber} {f f' : Fiber}
    (h : ReflTransGen (Fiber.Step o world) f f') :
    ReflTransGen (Step o world address) ⟨main, server, toMain, toServer, before ++ f :: after⟩
      ⟨main, server, toMain, toServer, before ++ f' :: after⟩ := by
  refine h.lift (fun f ↦ (⟨main, server, toMain, toServer, before ++ f :: after⟩ : State))
    fun f f' hstep ↦ ?_
  have hf : (before ++ f :: after)[before.length]? = some f := by simp
  have hset : (before ++ f :: after).set before.length f' = before ++ f' :: after := by simp
  change Step o world address _ ⟨main, server, toMain, toServer, before ++ f' :: after⟩
  rw [← hset]
  exact .fiber hf hstep

/-- All fibers of the group, one after the other. -/
theorem group_steps {before : List Fiber}
    (h : List.Forall₂ (ReflTransGen (Fiber.Step o world)) fibers fibers') :
    ReflTransGen (Step o world address) ⟨main, server, toMain, toServer, before ++ fibers⟩
      ⟨main, server, toMain, toServer, before ++ fibers'⟩ := by
  induction h generalizing before with
  | nil => exact .refl
  | @cons f f' fibers fibers' hf _ ih =>
    have hrest := @ih (before ++ [f'])
    rw [List.append_assoc, List.append_assoc] at hrest
    exact (fiber_steps hf).trans hrest

theorem read_steps {flag : Bytes} :
    ReflTransGen (Step o world address) ⟨.reads flag, server, inp, toServer, fibers⟩
      ⟨.reads (flag ++ inp), server, [], toServer, fibers⟩ := by
  induction inp generalizing flag with
  | nil => exact (List.append_nil flag).symm ▸ .refl
  | cons b inp ih =>
    rw [List.append_cons]
    exact .head (main_step .read) ih

end Run

/-- At the address that is meant for token `i` there is a server that reveals this part for it. -/
def Answers (o : ByteOrder) (world : SocketAddress → Option Server)
    (address : SocketAddress) (i : ℕ) (token part : UInt64) : Prop :=
  ∃ server, world (partAddress o address i) = some server ∧ Reveals o server token part

theorem forall₂_ended {tokens parts : List UInt64} {i : ℕ} (hlen : parts.length = tokens.length)
    (hparts : ∀ j token part, tokens[j]? = some token → parts[j]? = some part →
      Answers o world address (i + j) token part) :
    List.Forall₂ (ReflTransGen (Fiber.Step o world)) (spawnedFrom o address i tokens)
      (parts.map Fiber.ended) := by
  induction tokens generalizing parts i with
  | nil => simp [List.length_eq_zero_iff.mp hlen, spawnedFrom]
  | cons token tokens ih =>
    obtain ⟨part, parts, rfl⟩ := List.exists_cons_of_length_eq_add_one hlen
    refine .cons ?_ (ih (Nat.succ.inj hlen) fun j token' part' htoken hpart ↦ ?_)
    · obtain ⟨server, hserver, hreveals⟩ := hparts 0 token part rfl rfl
      exact Fiber.run hserver hreveals
    · have hanswers := hparts (j + 1) token' part' htoken hpart
      rwa [Nat.add_right_comm, Nat.add_assoc]

/-- The end of all. -/
def finished (flag : Bytes) (parts : List UInt64) : State :=
  ⟨.returned flag, .ret (), [], [], parts.map Fiber.ended⟩

theorem results_finished (flag : Bytes) (parts : List UInt64) :
    (finished flag parts).results = parts.map fun part ↦ some (.ok part) := by
  rw [State.results, finished, List.map_map]
  exact List.map_congr_left fun part _ ↦ by simp [Fiber.ended, Fiber.result]

theorem not_step_finished (flag : Bytes) (parts : List UInt64) (s : State) :
    ¬Step o world address (finished flag parts) s := by
  intro h
  cases h with
  | main h => exact h.not_ended trivial
  | server h => exact h.not_ended trivial
  | @fiber i f _ hi h =>
    obtain ⟨part, -, rfl⟩ := Option.map_eq_some_iff.mp (List.getElem?_map.symm.trans hi)
    exact Fiber.not_step_ended part _ h

/-- The run in which each program does all it can before the next one moves. -/
theorem run_all {server : Server} {tokens parts : List UInt64} {flag : Bytes}
    (htokens : tokens.length < 2 ^ 60) (hlen : parts.length = tokens.length)
    (hserver : Announces o server tokens (reduce parts) flag)
    (hparts : ∀ i token part, tokens[i]? = some token → parts[i]? = some part →
      Answers o world address i token part) :
    ReflTransGen (Step o world address) (start o server) (finished flag parts) := by
  obtain ⟨waiting, hannounce, hanswer⟩ := hserver
  have hgot : ReflTransGen (Step o world address) (start o server)
      ⟨.spawns tokens 0, waiting, [], [], []⟩ :=
    ((server_steps hannounce).trans (main_steps .getTokens (steps_getTokens htokens))).tail
      (main_step .gotTokens)
  have hended : List.Forall₂ (ReflTransGen (Fiber.Step o world)) (spawnedFrom o address 0 tokens)
      (parts.map Fiber.ended) :=
    forall₂_ended hlen fun i token part htoken hpart ↦ by
      rw [Nat.zero_add]
      exact hparts i token part htoken hpart
  have hwaits : ReflTransGen (Step o world address) ⟨.spawns tokens 0, waiting, [], [], []⟩
      ⟨.waits, waiting, [], [], parts.map Fiber.ended⟩ :=
    (spawn_steps rfl).trans (group_steps hended)
  have hwaited : Step o world address ⟨.waits, waiting, [], [], parts.map Fiber.ended⟩
      ⟨.sends (Prog.writeAll (word o (reduce parts))), waiting, [], [], parts.map Fiber.ended⟩ :=
    main_step (.waited (results_finished flag parts))
  have hsent : ReflTransGen (Step o world address)
      ⟨.sends (Prog.writeAll (word o (reduce parts))), waiting, [], [], parts.map Fiber.ended⟩
      ⟨.reads [], waiting, [], word o (reduce parts), parts.map Fiber.ended⟩ :=
    (main_steps .send (Prog.steps_of_writes (Prog.writes_writeAll _))).tail (main_step .sent)
  have hflag : ReflTransGen (Step o world address)
      ⟨.reads [], waiting, [], word o (reduce parts), parts.map Fiber.ended⟩
        (finished flag parts) :=
    ((server_steps hanswer).trans read_steps).tail (main_step (.eof trivial))
  exact ((hgot.trans hwaits).tail hwaited).trans (hsent.trans hflag)

/-! ## Every run -/

/-- Who reaches the end has not seen a fiber throw. -/
theorem results_of_reaches {s : State} {flag : Bytes} {parts : List UInt64}
    (h : ReflTransGen (Step o world address) s (finished flag parts)) (e : Exception) :
    some (.error e) ∉ s.results := by
  induction h using ReflTransGen.head_induction_on with
  | refl =>
    rw [results_finished]
    simp
  | @head s s' hstep _ ih =>
    intro hthrown
    obtain ⟨f, hf, hresult⟩ := List.mem_map.mp hthrown
    refine ih (List.mem_map.mpr ?_)
    cases hstep with
    | main => exact ⟨f, List.mem_append_left _ hf, hresult⟩
    | server => exact ⟨f, hf, hresult⟩
    | @fiber i g g' hi h =>
      obtain ⟨j, hj⟩ := List.mem_iff_getElem?.mp hf
      by_cases hij : i = j
      · subst hij
        obtain rfl := Option.some.inj (hi.symm.trans hj)
        obtain ⟨hlt, -⟩ := List.getElem?_eq_some_iff.mp hi
        exact ⟨g', List.mem_iff_getElem?.mpr ⟨i, List.getElem?_set_self hlt⟩, h.result hresult⟩
      · exact ⟨f, List.mem_iff_getElem?.mpr ⟨j, (List.getElem?_set_ne hij).trans hj⟩, hresult⟩

/-- **`Fanout` returns the flag.**  The first server announces fewer than `2 ^ 60` tokens, and gives
the flag for the sum of the parts modulo `2 ^ 64`; the server at the port that is `i + 1` behind the
first one's, modulo `2 ^ 16`, reveals part `i` for token `i`.  Then in whatever order the fibers and
the servers move, and however the streams are cut, `Fanout` returns the flag, and each fiber of the
group and each server has come to its end with everything read. -/
theorem fanout_returns (o : ByteOrder) (world : SocketAddress → Option Server)
    (address : SocketAddress) (server : Server) (tokens parts : List UInt64) (flag : Bytes)
    (htokens : tokens.length < 2 ^ 60)
    (hlen : parts.length = tokens.length) (hserver : Announces o server tokens (reduce parts) flag)
    (hparts : ∀ i token part, tokens[i]? = some token → parts[i]? = some part →
      Answers o world address i token part) :
    Inevitable (Step o world address) (· = finished flag parts) (start o server) :=
  .of_diamond (fun _ h ↦ State.diamond (results_of_reaches h)) (not_step_finished flag parts)
    (run_all htokens hlen hserver hparts)

/-! ## The servers of the tests -/

/-- The server with the tokens: it says something only when the answer is the sum of the parts. -/
def master (o : ByteOrder) (tokens parts : List UInt64) (flag : Bytes) : Server := do
  Prog.writeAll (announcement o tokens)
  let answer ← ofWord o <$> Prog.readFull () 8
  if answer = reduce parts then Prog.writeAll flag else return

/-- A server with a part. -/
def partServer (o : ByteOrder) (token part : UInt64) : Server := do
  let data ← ofWord o <$> Prog.readFull () 8
  if data = token then Prog.writeAll (word o part) else return

/-- A server that has got the right number answers. -/
theorem steps_answer (n : UInt64) (out : Bytes) :
    Prog.Steps (do
        let answer ← ofWord o <$> Prog.readFull () 8
        if answer = n then Prog.writeAll out else return : Server)
      (word o n) (.ret ()) [] out := by
  refine Prog.steps_of_run fun more ↦ ?_
  rw [Prog.run_bind_ok (reads_word () n more ()), if_pos rfl, Prog.writes_writeAll out () more]
  exact Prog.Outcome.prepend_nil _

theorem announces_master (o : ByteOrder) (tokens parts : List UInt64) (flag : Bytes) :
    Announces o (master o tokens parts flag) tokens (reduce parts) flag :=
  ⟨_, (Prog.steps_of_writes (Prog.writes_writeAll _)).bind _, steps_answer (reduce parts) flag⟩

theorem reveals_partServer (o : ByteOrder) (token part : UInt64) :
    Reveals o (partServer o token part) token part :=
  steps_answer token (word o part)

/-- The servers of the second test, at their ports. -/
def testWorld (o : ByteOrder) (address : SocketAddress) : SocketAddress → Option Server := fun a ↦
  if a = partAddress o address 0 then some (partServer o 1 10)
  else if a = partAddress o address 1 then some (partServer o 2 15)
  else if a = partAddress o address 2 then some (partServer o 3 20)
  else none

theorem fanout_returns_three :
    Inevitable (Step .little (testWorld .little ⟨16777343, 48180⟩) ⟨16777343, 48180⟩)
      (· = finished "sum is 45".toUTF8.toList [10, 15, 20])
      (start .little (master .little [1, 2, 3] [10, 15, 20] "sum is 45".toUTF8.toList)) := by
  refine fanout_returns _ _ _ _ [1, 2, 3] [10, 15, 20] _ (by decide) rfl
    (announces_master _ _ _ _) ?_
  intro i token part htoken hpart
  rcases i with _ | _ | _ | i
  · obtain rfl := Option.some.inj htoken
    obtain rfl := Option.some.inj hpart
    exact ⟨_, if_pos rfl, reveals_partServer .little 1 10⟩
  · obtain rfl := Option.some.inj htoken
    obtain rfl := Option.some.inj hpart
    exact ⟨_, (if_neg (by decide)).trans (if_pos rfl), reveals_partServer .little 2 15⟩
  · obtain rfl := Option.some.inj htoken
    obtain rfl := Option.some.inj hpart
    exact ⟨_, (if_neg (by decide)).trans ((if_neg (by decide)).trans (if_pos rfl)),
      reveals_partServer .little 3 20⟩
  · simp at htoken

end Fanout
end ManyTasks
