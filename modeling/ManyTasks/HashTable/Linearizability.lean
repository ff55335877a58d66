import ManyTasks.HashTable.Locks

/-!
# What is seen of the hash map

What is seen from outside is when calls begin and what they return.  All of it can be seen of a
finite map as well, on which every call takes effect at one moment (`hash_map_linearizable`).  A
call that does not change the map takes effect when it looks at the list of its key, and `Size` when
it reads `size_`.  A call that does takes effect when it changes `size_`, which is after it has
changed the list; so `Size` returns the number of keys, and the lists are ahead of the map by what
has been put in and taken out, and not been counted (`Agrees`).  Nobody else sees it, since it is
still behind the mutex.

No two calls access a list at the same time, and nobody looks at the lists or at their number while
they are cleared or moved (`RaceFree`).
-/

set_option autoImplicit false

namespace ManyTasks
namespace HashTable

open Function (update update_self update_of_ne)
open Lib (Label Trace Progress Atomic)

variable {C K V : Type} [LinearOrder K] {hasher_ : K → ℕ}

/-! ## What is seen -/

omit [LinearOrder K] in
/-- How far a call is, from outside. -/
def Place.progress : Place K V → Progress (Request K V) (Res V)
  | .idle => .idle
  | .sizing => .called .size
  | .waiting q | .holding q | .counting q => .called (.keyed q)
  | .lockingAll .clear _ | .zeroing => .called .clear
  | .unlockingAll .clear _ => .done .clear .void
  | .measuring q res | .unlocking q res _ | .deciding q res | .lockingAll (.rehash q res) _
  | .unlockingAll (.rehash q res) _ | .releasing q res => .done (.keyed q) res
  | .returning r res => .done r res
  | .returned r res => .returned r res

/-- What a call does to the finite map. -/
def Request.op : Request K V → Op K V
  | .keyed (.insert key value) => .insert key value
  | .keyed (.erase key) => .erase key
  | .keyed (.find key) => .find key
  | .keyed (.value key) => .value key
  | .clear => .clear
  | .size => .size

/-- No two calls access a list at the same time, and while one has all of them nobody else looks at
a list or at their number. -/
structure RaceFree (hasher_ : K → ℕ) (s : State C K V) : Prop where
  lists {c d : C} {q r : Keyed K V} : s.places c = .holding q → s.places d = .holding r →
    hasher_ q.key % s.table_.length = hasher_ r.key % s.table_.length → c = d
  all {c d : C} {task : Task K V} : s.places c = .lockingAll task s.mutexes_ → c ≠ d →
    (∀ q, s.places d ≠ .holding q) ∧ (∀ q res, s.places d ≠ .measuring q res) ∧
      ∀ task', s.places d ≠ .lockingAll task' s.mutexes_

/-! ## The lists and the map -/

/-- The table as it is, with all that is in it counted. -/
def State.map (s : State C K V) : Map K V :=
  ⟨s.table_, s.mutexes_, s.table_.flatten.length, false, 0, 0, 0⟩

/-- The call has changed the list, and not the map. -/
def Keyed.Pending : Keyed K V → (Finmap fun _ : K ↦ V) → (Finmap fun _ : K ↦ V) → Prop
  | .insert key v, m, a => m.lookup key = some v ∧ a.lookup key = none
  | .erase key, m, a => m.lookup key = none ∧ (a.lookup key).isSome
  | _, _, _ => False

/-- The lists hold `m`, and the map is `a`. -/
structure Agrees (s : State C K V) (m a : Finmap fun _ : K ↦ V) : Prop where
  pending {c : C} {q : Keyed K V} : s.places c = .counting q → q.Pending m a
  cleared {c : C} : s.places c = .zeroing → m = ∅
  same {key : K} : (∀ c, s.places c ≠ .zeroing) → (∀ c q, s.places c = .counting q → q.key ≠ key) →
    m.lookup key = a.lookup key

/-- The state stands for the finite map and the calls. -/
structure Stands (hasher_ : K → ℕ) (s : State C K V)
    (o : Atomic C (Request K V) (Res V) (Finmap fun _ : K ↦ V)) : Prop where
  inv : Inv hasher_ s
  calls (c : C) : o.calls c = (s.places c).progress
  size : s.size_ = o.state.keys.card
  table : ∃ m, Holds hasher_ s.map m ∧ Agrees s m o.state

/-! ## Finite maps -/

section

variable {m a : Finmap fun _ : K ↦ V} {key : K}

theorem card_keys_insert (h : a.lookup key = none) (v : V) :
    (a.insert key v).keys.card = a.keys.card + 1 := by
  have hkeys : (a.insert key v).keys = Insert.insert key a.keys := by
    ext key'
    rw [Finset.mem_insert, Finmap.mem_keys, Finmap.mem_insert, Finmap.mem_keys]
  have hnew : key ∉ a.keys := by rwa [Finmap.mem_keys, ← Finmap.lookup_eq_none]
  rw [hkeys, Finset.card_insert_of_notMem hnew]

theorem card_keys_erase (h : (a.lookup key).isSome) :
    (a.erase key).keys.card = a.keys.card - 1 := by
  have hold : key ∈ a.keys := by rwa [Finmap.mem_keys, ← Finmap.lookup_isSome]
  rw [Finmap.keys_erase, Finset.card_erase_of_mem hold]

theorem erase_of_lookup_eq_none (h : a.lookup key = none) : a.erase key = a := by
  refine Finmap.ext_lookup fun key' ↦ ?_
  by_cases hkey : key' = key
  · rw [hkey, Finmap.lookup_erase, h]
  · exact Finmap.lookup_erase_ne hkey

end

/-! ## The lists -/

section

variable [Inhabited V] {s : State C K V} {m : Finmap fun _ : K ↦ V}

omit [Inhabited V] in
/-- How many entries there are is not counted here. -/
theorem Holds.stored {x : Map K V} (h : Holds hasher_ x m) (htable : s.table_ = x.table_)
    (hmutexes : s.mutexes_ = x.mutexes_) : Holds hasher_ s.map m :=
  h.of_eq htable (by rw [h.size, ← htable]; rfl) hmutexes

/-- The list is changed, and the change is still to be counted, or it is not, and the call has its
result. -/
theorem Holds.access (h : Holds hasher_ s.map m) (q : Keyed K V) :
    ∃ m', Holds hasher_ { s with table_ := (q.access hasher_ s.table_).1 }.map m' ∧
      (∀ key, key ≠ q.key → m'.lookup key = m.lookup key) ∧
      ((q.access hasher_ s.table_).2 = .counting q ∧
          (∀ a, a.lookup q.key = m.lookup q.key → q.Pending m' a) ∨
        m' = m ∧ ∃ res, ((q.access hasher_ s.table_).2 = .measuring q res ∨
            (q.access hasher_ s.table_).2 = .unlocking q res false) ∧
          ∀ a, a.lookup q.key = m.lookup q.key → Spec.act a (Request.keyed q).op = (res, a)) := by
  cases q with
  | insert key v =>
    rcases hins : insertIntoList (hasher_ key % s.table_.length) (key, v) s.table_ with ⟨b, t⟩
    simp only [Keyed.access, Keyed.key, hins]
    cases hlookup : m.lookup key with
    | none =>
      obtain ⟨hres, hholds⟩ := h.insert_new key hlookup v
      simp only [HashTable.insert, State.map, hins] at hres hholds
      subst hres
      refine ⟨_, hholds.stored rfl rfl, fun _ hne ↦ Finmap.lookup_insert_of_ne m hne,
        .inl ⟨rfl, ?_⟩⟩
      exact fun a ha ↦ ⟨Finmap.lookup_insert m, ha⟩
    | some v' =>
      obtain ⟨hres, hholds⟩ := h.insert_old key hlookup v
      simp only [HashTable.insert, State.map, hins] at hres hholds
      subst hres
      refine ⟨m, hholds.stored rfl rfl, fun _ _ ↦ rfl,
        .inr ⟨rfl, .bool false, .inl rfl, fun a ha ↦ ?_⟩⟩
      simp [Request.op, Spec.act, ha]
  | erase key =>
    rcases hdel : eraseFromList (hasher_ key % s.table_.length) key s.table_ with ⟨b, t⟩
    simp only [Keyed.access, Keyed.key, hdel]
    cases hlookup : m.lookup key with
    | none =>
      obtain ⟨hres, hholds⟩ := h.erase_new key hlookup
      rw [erase_of_lookup_eq_none hlookup] at hholds
      obtain rfl : b = false := by
        cases b with
        | false => rfl
        | true => simp [eraseKey, State.map, hdel] at hres
      simp only [eraseKey, State.map, hdel] at hholds
      refine ⟨m, hholds.stored rfl rfl, fun _ _ ↦ rfl,
        .inr ⟨rfl, .bool false, .inr rfl, fun a ha ↦ ?_⟩⟩
      simp [Request.op, Spec.act, ha, erase_of_lookup_eq_none ha]
    | some v' =>
      obtain ⟨hres, hholds⟩ := h.erase_old key hlookup
      obtain rfl : b = true := by
        cases b with
        | false => simp [eraseKey, State.map, hdel] at hres
        | true => rfl
      simp only [eraseKey, State.map, hdel] at hholds
      refine ⟨_, hholds.stored rfl rfl, fun _ hne ↦ Finmap.lookup_erase_ne hne,
        .inl ⟨rfl, fun a ha ↦ ?_⟩⟩
      exact ⟨Finmap.lookup_erase key m, by simp [ha]⟩
  | find key | value key =>
    have hfind := h.findInList key
    simp only [State.map] at hfind
    simp only [Keyed.access, Keyed.key, hfind]
    cases hlookup : m.lookup key with
    | none =>
      refine ⟨m, h, fun _ _ ↦ rfl, .inr ⟨rfl, _, .inr rfl, fun a ha ↦ ?_⟩⟩
      simp [Request.op, Spec.act, ha]
    | some v =>
      refine ⟨m, h, fun _ _ ↦ rfl, .inr ⟨rfl, _, .inr rfl, fun a ha ↦ ?_⟩⟩
      simp [Request.op, Spec.act, ha]

end

/-! ## The lists and the map, step by step -/

section

variable [DecidableEq C] {s s' : State C K V} {m a : Finmap fun _ : K ↦ V} {c : C} {p : Place K V}

omit [LinearOrder K] [DecidableEq C] in
/-- Who has the mutex of a key is the only one that may not have counted a change at this key. -/
theorem Inv.counting (h : Inv hasher_ s) {k : K}
    (hc : (s.places c).Owns hasher_ s.mutexes_ (hasher_ k % s.mutexes_)) :
    (∀ d, s.places d = .zeroing → d = c) ∧ ∀ d r, s.places d = .counting r → r.key = k → d = c := by
  refine ⟨fun d hd ↦ h.unique ?_ hc, fun d r hd hkey ↦ h.unique ?_ hc⟩
  · rw [hd]
    exact Nat.mod_lt _ h.pos
  · rw [hd, Place.Owns, hkey]

omit [DecidableEq C] in
theorem Keyed.Pending.congr {q : Keyed K V} {m' a' : Finmap fun _ : K ↦ V} (h : q.Pending m a)
    (hm : m'.lookup q.key = m.lookup q.key) (ha : a'.lookup q.key = a.lookup q.key) :
    q.Pending m' a' := by
  cases q with
  | insert key v => exact ⟨hm.trans h.1, ha.trans h.2⟩
  | erase key => exact ⟨hm.trans h.1, by rw [← h.2]; exact congrArg Option.isSome ha⟩
  | find | value => exact h

/-- A step between places where nothing is left to be counted. -/
theorem Agrees.keep (h : Agrees s m a) (hplaces : s'.places = update s.places c p)
    (hc : (∀ q, s.places c ≠ .counting q) ∧ s.places c ≠ .zeroing)
    (hp : (∀ q, p ≠ .counting q) ∧ p ≠ .zeroing) : Agrees s' m a := by
  have hold {d : C} {q : Keyed K V} : s'.places d = .counting q ↔ s.places d = .counting q := by
    rw [hplaces]
    by_cases hd : d = c
    · rw [hd, update_self]
      exact ⟨fun heq ↦ absurd heq (hp.1 q), fun heq ↦ absurd heq (hc.1 q)⟩
    · rw [update_of_ne hd]
  have hzero {d : C} : s'.places d = .zeroing ↔ s.places d = .zeroing := by
    rw [hplaces]
    by_cases hd : d = c
    · rw [hd, update_self]
      exact ⟨fun heq ↦ absurd heq hp.2, fun heq ↦ absurd heq hc.2⟩
    · rw [update_of_ne hd]
  refine ⟨fun hd ↦ h.pending (hold.mp hd), fun hd ↦ h.cleared (hzero.mp hd), fun hnot hkey ↦ ?_⟩
  exact h.same (fun d hd ↦ hnot d (hzero.mpr hd)) fun d q hd ↦ hkey d q (hold.mpr hd)

/-- Who has the mutex of a key changes its list, or the map. -/
theorem Agrees.put (h : Agrees s m a) (hinv : Inv hasher_ s) {k : K}
    (howns : (s.places c).Owns hasher_ s.mutexes_ (hasher_ k % s.mutexes_))
    (hc : s.places c ≠ .zeroing ∧ ∀ q, s.places c = .counting q → q.key = k)
    (hplaces : s'.places = update s.places c p) {m' a' : Finmap fun _ : K ↦ V}
    (hm : ∀ key, key ≠ k → m'.lookup key = m.lookup key)
    (ha : ∀ key, key ≠ k → a'.lookup key = a.lookup key)
    (hp : p ≠ .zeroing ∧ ∀ q, p = .counting q → q.key = k ∧ q.Pending m' a')
    (hsame : (∀ q, p ≠ .counting q) → m'.lookup k = a'.lookup k) : Agrees s' m' a' := by
  obtain ⟨hzero, hcounting⟩ := hinv.counting howns
  refine ⟨fun {d q} hd ↦ ?_, fun {d} hd ↦ ?_, fun {key} hnot hkey ↦ ?_⟩
  · rw [hplaces] at hd
    by_cases hdc : d = c
    · rw [hdc, update_self] at hd
      exact (hp.2 q hd).2
    · rw [update_of_ne hdc] at hd
      have hne : q.key ≠ k := fun hq ↦ hdc (hcounting d q hd hq)
      exact (h.pending hd).congr (hm _ hne) (ha _ hne)
  · rw [hplaces] at hd
    by_cases hdc : d = c
    · rw [hdc, update_self] at hd
      exact absurd hd hp.1
    · rw [update_of_ne hdc] at hd
      exact absurd (hzero d hd) hdc
  · by_cases hk : key = k
    · subst hk
      refine hsame fun q hq ↦ ?_
      refine hkey c q ?_ (hp.2 q hq).1
      rw [hplaces, update_self, hq]
    · rw [hm key hk, ha key hk]
      refine h.same (fun d hd ↦ ?_) fun d q hd ↦ ?_
      · exact hc.1 (hzero d hd ▸ hd)
      · by_cases hdc : d = c
        · subst hdc
          rw [hc.2 q hd]
          exact Ne.symm hk
        · refine hkey d q ?_
          rw [hplaces, update_of_ne hdc, hd]

/-- Who has all mutexes leaves nobody whose change is not counted. -/
theorem Inv.agrees (h : Inv hasher_ s)
    (hc : ∀ i, i < s.mutexes_ → (s.places c).Owns hasher_ s.mutexes_ i)
    (hplaces : s'.places = update s.places c p) (hp : ∀ q, p ≠ .counting q)
    (hmap : p = .zeroing ∧ m = ∅ ∨ p ≠ .zeroing ∧ m = a) : Agrees s' m a := by
  have hother {d : C} (hd : d ≠ c) : (∀ q, s.places d ≠ .counting q) ∧ s.places d ≠ .zeroing := by
    refine ⟨fun q hq ↦ hd (h.unique ?_ (hc _ (Nat.mod_lt (hasher_ q.key) h.pos))),
      fun hz ↦ hd (h.unique ?_ (hc 0 h.pos))⟩
    · rw [hq, Place.Owns]
    · rw [hz]
      exact h.pos
  refine ⟨fun {d q} hd ↦ ?_, fun {d} hd ↦ ?_, fun {key} hnot _ ↦ ?_⟩
  · rw [hplaces] at hd
    by_cases hdc : d = c
    · rw [hdc, update_self] at hd
      exact absurd hd (hp q)
    · rw [update_of_ne hdc] at hd
      exact absurd hd ((hother hdc).1 q)
  · rw [hplaces] at hd
    by_cases hdc : d = c
    · rw [hdc, update_self] at hd
      exact (hmap.resolve_right fun hright ↦ hright.1 hd).2
    · rw [update_of_ne hdc] at hd
      exact absurd hd (hother hdc).2
  · rcases hmap with ⟨rfl, -⟩ | ⟨-, rfl⟩
    · exact absurd (hplaces ▸ update_self ..) (hnot c)
    · rfl

end

/-! ## The simulation -/

section

variable [DecidableEq C] [Inhabited V] {s s' : State C K V} {c : C} {p : Place K V}
  {o : Atomic C (Request K V) (Res V) (Finmap fun _ : K ↦ V)}

omit [Inhabited V] in
/-- A call goes on, and the map may be changed. -/
theorem Stands.move (h : Stands hasher_ s o) (hinv : Inv hasher_ s')
    (hplaces : s'.places = update s.places c p) {a : Finmap fun _ : K ↦ V}
    (hsize : s'.size_ = a.keys.card) (htable : ∃ m, Holds hasher_ s'.map m ∧ Agrees s' m a) :
    Stands hasher_ s' ⟨a, update o.calls c p.progress⟩ := by
  refine ⟨hinv, fun d ↦ ?_, hsize, htable⟩
  show update o.calls c p.progress d = (s'.places d).progress
  rw [hplaces]
  by_cases hd : d = c
  · rw [hd, update_self, update_self]
  · rw [update_of_ne hd, update_of_ne hd]
    exact h.calls d

omit [Inhabited V] in
/-- A call goes on, and nothing is seen of it. -/
theorem Stands.quiet (h : Stands hasher_ s o) (hinv : Inv hasher_ s')
    (hplaces : s'.places = update s.places c p) (hp : p.progress = (s.places c).progress)
    (hsize : s'.size_ = s.size_) (htable : ∃ m, Holds hasher_ s'.map m ∧ Agrees s' m o.state) :
    Stands hasher_ s' o := by
  have hmove := h.move hinv hplaces (hsize.trans h.size) htable
  rw [hp, ← h.calls c, Function.update_eq_self] at hmove
  exact hmove

/-- A call takes effect. -/
theorem Stands.effect (h : Stands hasher_ s o) (hinv : Inv hasher_ s') {r : Request K V}
    {res : Res V} {a : Finmap fun _ : K ↦ V} (hcall : (s.places c).progress = .called r)
    (hact : Spec.act o.state r.op = (res, a)) (hplaces : s'.places = update s.places c p)
    (hp : p.progress = .done r res) (hsize : s'.size_ = a.keys.card)
    (htable : ∃ m, Holds hasher_ s'.map m ∧ Agrees s' m a) :
    ∃ o', Atomic.Step (fun m (r : Request K V) ↦ Spec.act m r.op) o .tau o' ∧
      Stands hasher_ s' o' := by
  refine ⟨_, .effect c r ((h.calls c).trans hcall), ?_⟩
  have hmove := h.move hinv hplaces hsize htable
  rw [hp] at hmove
  rw [hact]
  exact hmove

omit [Inhabited V] in
/-- The mutexes, `is_rehashing_` and the place of one call are changed, and nothing else. -/
theorem Stands.keep (h : Stands hasher_ s o) (hplaces : s'.places = update s.places c p)
    (hc : (∀ q, s.places c ≠ .counting q) ∧ s.places c ≠ .zeroing)
    (hp : (∀ q, p ≠ .counting q) ∧ p ≠ .zeroing) (htable : s'.table_ = s.table_)
    (hmutexes : s'.mutexes_ = s.mutexes_) : ∃ m, Holds hasher_ s'.map m ∧ Agrees s' m o.state := by
  obtain ⟨m, hholds, hagrees⟩ := h.table
  exact ⟨m, hholds.stored htable hmutexes, hagrees.keep hplaces hc hp⟩

/-- The list of a key is accessed. -/
theorem Stands.access (h : Stands hasher_ s o) {q : Keyed K V} (hc : s.places c = .holding q)
    (hs' : s' = { s with table_ := (q.access hasher_ s.table_).1 }.go c
      (q.access hasher_ s.table_).2)
    (hinv : Inv hasher_ s') :
    ∃ o', Atomic.Step (fun m (r : Request K V) ↦ Spec.act m r.op) o .tau o' ∧
      Stands hasher_ s' o' := by
  obtain ⟨m, hholds, hagrees⟩ := h.table
  obtain ⟨m', hholds', hother, haccess⟩ := hholds.access q
  have howns : (s.places c).Owns hasher_ s.mutexes_ (hasher_ q.key % s.mutexes_) := by
    rw [hc, Place.Owns]
  have hlookup : o.state.lookup q.key = m.lookup q.key := by
    obtain ⟨hzero, hcounting⟩ := h.inv.counting howns
    refine (hagrees.same (fun d hd ↦ ?_) fun d r hd hr ↦ ?_).symm
    · rw [hzero d hd, hc] at hd
      cases hd
    · rw [hcounting d r hd hr, hc] at hd
      cases hd
  subst hs'
  rcases haccess with ⟨hp, hpending⟩ | ⟨rfl, res, hp, hact⟩
  · rw [hp] at hinv ⊢
    refine ⟨o, .stutter, h.quiet hinv rfl (by rw [hc]; rfl) rfl ⟨m', hholds'.stored rfl rfl, ?_⟩⟩
    refine hagrees.put h.inv howns (by simp [hc]) rfl hother (fun _ _ ↦ rfl)
      ⟨by simp, fun r hr ↦ ?_⟩
      fun hne ↦ absurd rfl (hne q)
    obtain rfl := Place.counting.inj hr
    exact ⟨rfl, hpending _ hlookup⟩
  · have hdone : (q.access hasher_ s.table_).2.progress = .done (.keyed q) res := by
      rcases hp with hp | hp
      · rw [hp, Place.progress]
      · rw [hp, Place.progress]
    have hquiet : (∀ r, (q.access hasher_ s.table_).2 ≠ .counting r) ∧
        (q.access hasher_ s.table_).2 ≠ .zeroing := by
      rcases hp with hp | hp
      · simp [hp]
      · simp [hp]
    exact h.effect hinv (by rw [hc, Place.progress]) (hact _ hlookup) rfl hdone h.size
      ⟨m', hholds'.stored rfl rfl, hagrees.keep rfl (by simp [hc]) hquiet⟩

/-- A change is counted. -/
theorem Stands.count (h : Stands hasher_ s o) {q : Keyed K V} (hc : s.places c = .counting q)
    (hs' : s' = { s with size_ := (q.count s.size_).1 }.go c (q.count s.size_).2)
    (hinv : Inv hasher_ s') :
    ∃ o', Atomic.Step (fun m (r : Request K V) ↦ Spec.act m r.op) o .tau o' ∧
      Stands hasher_ s' o' := by
  obtain ⟨m, hholds, hagrees⟩ := h.table
  have howns : (s.places c).Owns hasher_ s.mutexes_ (hasher_ q.key % s.mutexes_) := by
    rw [hc, Place.Owns]
  have hold : s.places c ≠ .zeroing ∧ ∀ r, s.places c = .counting r → r.key = q.key := by
    refine ⟨by simp [hc], fun r hr ↦ ?_⟩
    rw [hc] at hr
    rw [Place.counting.inj hr]
  have hpending := hagrees.pending hc
  subst hs'
  cases q with
  | insert key v =>
    obtain ⟨hlist, hnew⟩ := hpending
    refine h.effect hinv (r := .keyed (.insert key v)) (a := o.state.insert key v)
      (by rw [hc, Place.progress]) (by simp [Request.op, Spec.act, hnew]) rfl rfl ?_
      ⟨m, hholds.stored rfl rfl, hagrees.put h.inv howns hold rfl (fun _ _ ↦ rfl) ?_
        (by simp [Keyed.count]) ?_⟩
    · rw [card_keys_insert hnew, ← h.size]
      rfl
    · exact fun _ hne ↦ Finmap.lookup_insert_of_ne o.state hne
    · intro _
      rw [Keyed.key, hlist, Finmap.lookup_insert]
  | erase key =>
    obtain ⟨hlist, hthere⟩ := hpending
    refine h.effect hinv (r := .keyed (.erase key)) (a := o.state.erase key)
      (by rw [hc, Place.progress]) (by simp [Request.op, Spec.act, hthere]) rfl rfl ?_
      ⟨m, hholds.stored rfl rfl, hagrees.put h.inv howns hold rfl (fun _ _ ↦ rfl) ?_
        (by simp [Keyed.count]) ?_⟩
    · rw [card_keys_erase hthere, ← h.size]
      rfl
    · exact fun _ hne ↦ Finmap.lookup_erase_ne hne
    · intro _
      rw [Keyed.key, hlist, Finmap.lookup_erase]
  | find | value => exact absurd hpending id

omit [Inhabited V] in
/-- All lists are cleared, or moved. -/
theorem Stands.work (h : Stands hasher_ s o) {task : Task K V}
    (hc : s.places c = .lockingAll task s.mutexes_)
    (hs' : s' = { s with table_ := (task.work hasher_ s.table_ s.mutexes_).1 }.go c
      (task.work hasher_ s.table_ s.mutexes_).2)
    (hinv : Inv hasher_ s') : Stands hasher_ s' o := by
  obtain ⟨m, hholds, hagrees⟩ := h.table
  subst hs'
  cases task with
  | clear =>
    have hall (i : ℕ) (hi : i < s.mutexes_) : (s.places c).Owns hasher_ s.mutexes_ i := by
      rw [hc]
      exact hi
    exact h.quiet hinv rfl (by rw [hc]; rfl) rfl
      ⟨∅, hholds.clear.stored rfl rfl, h.inv.agrees hall rfl (by simp [Task.work])
        (.inl ⟨rfl, rfl⟩)⟩
  | rehash q res =>
    exact h.quiet hinv rfl (by rw [hc]; rfl) rfl
      ⟨m, (hholds.rehash 0 0).stored rfl rfl, hagrees.keep rfl (by simp [hc]) (by simp [Task.work])⟩

/-- **One step.**  Whatever is seen of the hash map can be seen of the finite map. -/
theorem Stands.step (h : Stands hasher_ s o) {l : Label C (Request K V) (Res V)}
    (hstep : State.Step hasher_ s l s') :
    ∃ o', Atomic.Step (fun m (r : Request K V) ↦ Spec.act m r.op) o l o' ∧
      Stands hasher_ s' o' := by
  have hinv := h.inv.step hstep
  cases hstep with
  | call c r hc =>
    refine ⟨_, .call c r (by rw [h.calls, hc, Place.progress]), ?_⟩
    cases r with
    | keyed | clear | size =>
      exact h.move hinv rfl h.size (h.keep rfl (by simp [hc]) (by simp [Request.start]) rfl rfl)
  | size c hc =>
    refine h.effect (r := .size) hinv (by rw [hc, Place.progress]) rfl rfl ?_ h.size
      (h.keep rfl (by simp [hc]) (by simp) rfl rfl)
    rw [Place.progress, h.size]
  | access c q hc => exact h.access hc rfl hinv
  | count c q hc => exact h.count hc rfl hinv
  | unlock c q res need_rehash hc =>
    have hp : (∀ r, q.unlocked res need_rehash ≠ .counting r) ∧
        q.unlocked res need_rehash ≠ .zeroing := by
      unfold Keyed.unlocked
      split <;> simp
    refine ⟨o, .stutter, h.quiet hinv rfl ?_ rfl (h.keep rfl (by simp [hc]) hp rfl rfl)⟩
    rw [hc]
    unfold Keyed.unlocked
    split <;> rfl
  | testAndSet c q res hc =>
    have hp : (∀ r, q.testAndSet res s.is_rehashing_ ≠ .counting r) ∧
        q.testAndSet res s.is_rehashing_ ≠ .zeroing := by
      unfold Keyed.testAndSet
      split <;> simp
    refine ⟨o, .stutter, h.quiet hinv rfl ?_ rfl (h.keep rfl (by simp [hc]) hp rfl rfl)⟩
    rw [hc]
    unfold Keyed.testAndSet
    split <;> rfl
  | work c task hc => exact ⟨o, .stutter, h.work hc rfl hinv⟩
  | zero c hc =>
    obtain ⟨m, hholds, hagrees⟩ := h.table
    obtain rfl := hagrees.cleared hc
    have hall (i : ℕ) (hi : i < s.mutexes_) : (s.places c).Owns hasher_ s.mutexes_ i := by
      rw [hc]
      exact hi
    exact h.effect (r := .clear) hinv (by rw [hc, Place.progress]) rfl rfl rfl rfl
      ⟨∅, hholds.stored rfl rfl, h.inv.agrees hall rfl (by simp) (.inr ⟨by simp, rfl⟩)⟩
  | leave c task hc =>
    refine ⟨o, .stutter, ?_⟩
    cases task with
    | clear | rehash =>
      exact h.quiet hinv rfl (by rw [hc]; rfl) rfl
        (h.keep rfl (by simp [hc]) (by simp [Task.leave]) rfl rfl)
  | lockNext c task i hc | unlockLast c task i hc =>
    refine ⟨o, .stutter, ?_⟩
    cases task with
    | clear | rehash =>
      exact h.quiet hinv rfl (by rw [hc]; rfl) rfl (h.keep rfl (by simp [hc]) (by simp) rfl rfl)
  | lock c q hc | measure c q res hc | release c q res hc =>
    exact ⟨o, .stutter, h.quiet hinv rfl (by rw [hc]; rfl) rfl
      (h.keep rfl (by simp [hc]) (by simp) rfl rfl)⟩
  | ret c r res hc =>
    exact ⟨_, .ret c r res (by rw [h.calls, hc, Place.progress]),
      h.move hinv rfl h.size (h.keep rfl (by simp [hc]) (by simp) rfl rfl)⟩

omit [Inhabited V] [DecidableEq C] in
theorem Stands.raceFree (h : Stands hasher_ s o) : RaceFree hasher_ s := by
  obtain ⟨m, hholds, -⟩ := h.table
  refine ⟨fun {c d q r} hc hd hlist ↦ ?_, fun {c d task} hc hne ↦ ?_⟩
  · -- the mutex of a key is that of its list
    have hlocks : s.mutexes_ ∣ s.table_.length := hholds.locks
    have hmutex : hasher_ q.key % s.mutexes_ = hasher_ r.key % s.mutexes_ := by
      rw [← Nat.mod_mod_of_dvd _ hlocks, hlist, Nat.mod_mod_of_dvd _ hlocks]
    refine h.inv.unique (i := hasher_ q.key % s.mutexes_) ?_ ?_
    · rw [hc, Place.Owns]
    · rw [hd, Place.Owns, hmutex]
  · refine ⟨fun q hd ↦ ?_, fun q res hd ↦ ?_, fun task' hd ↦ ?_⟩
    · exact hne (h.inv.alone hc (i := hasher_ q.key % s.mutexes_) (by rw [hd, Place.Owns]))
    · exact hne (h.inv.alone hc (i := hasher_ q.key % s.mutexes_) (by rw [hd, Place.Owns]))
    · exact hne (h.inv.alone hc (i := 0) (by rw [hd]; exact h.inv.pos))

end

/-- **The hash map is linearizable.**  Whatever is seen of any number of calls, each of which takes
its mutexes one by one and changes the list and `size_` one after the other, can be seen of a finite
map on which every call takes effect at one moment between its beginning and its end, for all hints
of the constructor that do not overflow.  This includes `Size`, which takes no mutex, and `Clear`
and the second half of `Insert`, which may meet each other and any other call on their way through
the mutexes.  The accesses to the lists do not race. -/
theorem hash_map_linearizable [DecidableEq C] [Inhabited V]
    {expected_size expected_threads_count : ℤ}
    (hhints : Hinted expected_size expected_threads_count) (overflow : ℤ → ℤ) :
    Lib.Linearizable (fun m (r : Request K V) ↦ Spec.act m r.op) (State.Step hasher_)
        (.init C K V (initialSize overflow expected_size expected_threads_count)) ∅ ∧
      ∀ h s, Trace (State.Step hasher_)
          (.init C K V (initialSize overflow expected_size expected_threads_count)) h s →
        RaceFree hasher_ s := by
  have hpos := (hhints.initialSize overflow).1
  have hinit : Stands hasher_
      (.init C K V (initialSize overflow expected_size expected_threads_count)) (.init ∅) := by
    refine ⟨inv_init hpos, fun _ ↦ rfl, rfl, ∅, ?_, ?_⟩
    · exact (holds_init (by omega)).stored rfl rfl
    · exact ⟨by simp [State.init], by simp [State.init], fun _ _ ↦ rfl⟩
  have hstep (s : State C K V) (l : Label C (Request K V) (Res V)) (s' : State C K V)
      (o : Atomic C (Request K V) (Res V) (Finmap fun _ : K ↦ V)) (hs : Stands hasher_ s o)
      (hstep : State.Step hasher_ s l s') := hs.step hstep
  refine ⟨fun h s hrun ↦ ?_, fun h s hrun ↦ ?_⟩
  · obtain ⟨h', o, hrun', hlabels, -⟩ := hrun.simulation hinit hstep
    exact ⟨h', o, hrun', hlabels⟩
  · obtain ⟨_, _, -, -, hstands⟩ := hrun.simulation hinit hstep
    exact hstands.raceFree

/-- A map with any number of calls, and the hints the default constructor has. -/
theorem hash_map_linearizable_default :
    Lib.Linearizable (fun m (r : Request ℕ ℕ) ↦ Spec.act m r.op) (State.Step fun n ↦ n)
        (.init ℕ ℕ ℕ (initialSize (Lib.wrap 32) kUndefinedSize 8)) ∅ ∧
      ∀ h s, Trace (State.Step fun n ↦ n)
          (.init ℕ ℕ ℕ (initialSize (Lib.wrap 32) kUndefinedSize 8)) h s →
        RaceFree (fun n ↦ n) s :=
  hash_map_linearizable ⟨.inl ⟨rfl, by decide⟩, by decide, by decide⟩ (Lib.wrap 32)

end HashTable
end ManyTasks
