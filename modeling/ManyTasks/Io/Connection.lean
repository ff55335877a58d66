import ManyTasks.Io.Reader
import ManyTasks.Lib.Duplex

/-!
# Programs on an `IConn`

A connection of bytes, `ReadFull` on it, and what `ReadFull` comes to for a program alone: the bytes
that it wants, however they are cut, or `EOFException` after all that is left.
-/

set_option autoImplicit false

namespace ManyTasks
namespace Io

open Lib Lib.Proc

/-- A function that works on a connection and may throw. -/
abbrev ConnM (ε : Type) {X : Type} (Res : X → Type) : Type → Type :=
  ExceptT ε (ConnProc UInt8 ε Res)

variable {ε X σ : Type} {Res : X → Type}

/-- `IReader::ReadFull` of a connection. -/
def ConnM.readFull (eof : ε) (size : ℕ) : ConnM ε Res Bytes := Io.readFull eof ConnProc.read size

variable {answers : σ → (x : X) → Res x → σ → Prop} {ready : Bytes → Prop} {eof : ε}

theorem ConnM.readFull_zero : (ConnM.readFull eof 0 : ConnM ε Res Bytes) = pure [] := by
  rw [readFull, Io.readFull, dif_pos rfl]

theorem ConnM.readFull_of_ne {size : ℕ} (hsize : size ≠ 0) :
    (ConnM.readFull eof size : ConnM ε Res Bytes) = ConnProc.read size >>= fun piece ↦
      if piece = [] then throw eof
      else ConnM.readFull eof (size - piece.length) >>= fun pieces ↦ pure (piece ++ pieces) := by
  rw [readFull, Io.readFull, dif_neg hsize]
  rfl

/-- The first piece of a `ReadFull`, and the rest of it. -/
theorem ends_readFull {size : ℕ} {s : Solo UInt8 σ} {Q : Except ε Bytes → Solo UInt8 σ → Prop}
    (hsize : size ≠ 0)
    (hready : ready s.out) (hsome : s.inp ≠ [] ∨ s.ended = true)
    (hpiece : ∀ piece rest, s.inp = piece ++ rest → piece ≠ [] → piece.length ≤ size →
      Ends (Alone answers ready) (fun r s' ↦ Q (r.map (piece ++ ·)) s')
        (ConnM.readFull eof (size - piece.length) : ConnM ε Res Bytes).run (s.skip piece.length))
    (heof : s.inp = [] → s.ended = true → Q (.error eof) s) :
    Ends (Alone answers ready) Q (ConnM.readFull eof size : ConnM ε Res Bytes).run s := by
  rw [ConnM.readFull_of_ne hsize, ExceptT.run_bind, ends_bind]
  refine ⟨?_, fun r s' hr ↦ ?_⟩
  · rcases hinp : s.inp with _ | ⟨b, bs⟩
    · exact ⟨_, _, .eof hready hinp (hsome.resolve_left (not_not.2 hinp))⟩
    · have hcut : s.inp = [b] ++ bs := hinp
      exact ⟨_, _,
        .read hready hcut (Nat.one_le_iff_ne_zero.2 hsize) (Or.inl (List.cons_ne_nil _ _))⟩
  · cases hr with
    | @read _ piece rest _ hinp hle hne =>
      have hne : piece ≠ [] := hne.resolve_right hsize
      change Ends _ Q (ExceptT.run (if piece = [] then throw eof else _)) _
      rw [if_neg hne, ExceptT.run_bind, ends_bind]
      refine (hpiece piece rest hinp hne hle).mono ?_
      rintro (e | pieces) s' h
      · exact h
      · exact h
    | eof _ hinp hended => exact heof hinp hended

/-- `ReadFull` reads what it wants, if there is so much. -/
theorem yields_readFull {size : ℕ} {s : Solo UInt8 σ} (hready : ready s.out)
    (hsize : size ≤ s.inp.length) :
    Yields (Alone answers ready) (ConnM.readFull eof size : ConnM ε Res Bytes).run s
      (.ok (s.inp.take size))
      (s.skip size) := by
  induction size using Nat.strong_induction_on generalizing s with
  | _ size ih =>
    by_cases hzero : size = 0
    · subst hzero
      rw [ConnM.readFull_zero]
      exact yields_pure _ _
    have hne : s.inp ≠ [] := List.ne_nil_of_length_pos (by omega)
    refine ends_readFull hzero hready (Or.inl hne) (fun piece rest hinp hpiece hle ↦ ?_) fun hnil ↦
      absurd hnil hne
    have hpos : 0 < piece.length := List.length_pos_of_ne_nil hpiece
    have hrest : (s.skip piece.length).inp = rest := Solo.inp_skip_append hinp rfl
    have hlen : size - piece.length ≤ (s.skip piece.length).inp.length := by
      rw [hinp, List.length_append] at hsize
      rw [hrest]
      omega
    refine (@ih (size - piece.length) (by omega) (s.skip piece.length) hready hlen).mono ?_
    rintro _ _ ⟨rfl, rfl⟩
    refine ⟨?_, ?_⟩
    · rw [hrest, hinp, List.take_append, List.take_of_length_le hle]
      rfl
    · rw [Solo.skip_skip, Nat.add_sub_cancel' hle]

theorem yields_readFull_append {size : ℕ} {bytes rest : Bytes} {s : Solo UInt8 σ}
    (hinp : s.inp = bytes ++ rest) (hready : ready s.out) (hsize : size = bytes.length) :
    Yields (Alone answers ready) (ConnM.readFull eof size : ConnM ε Res Bytes).run s (.ok bytes)
      (s.skip bytes.length) := by
  subst hsize
  have hle : bytes.length ≤ s.inp.length := by
    rw [hinp, List.length_append]
    exact Nat.le_add_right _ _
  have htake : s.inp.take bytes.length = bytes := by rw [hinp, List.take_left]
  have hread :
    Yields (Alone answers ready) (ConnM.readFull eof bytes.length : ConnM ε Res Bytes).run s
      (.ok (s.inp.take bytes.length)) (s.skip bytes.length) := yields_readFull hready hle
  rwa [htake] at hread

/-- If there is not so much, and the stream ends, it reads all and throws. -/
theorem yields_readFull_eof {size : ℕ} {s : Solo UInt8 σ} (hready : ready s.out)
    (hsize : s.inp.length < size)
    (hended : s.ended = true) :
    Yields (Alone answers ready) (ConnM.readFull eof size : ConnM ε Res Bytes).run s (.error eof)
      (s.skip s.inp.length) := by
  induction size using Nat.strong_induction_on generalizing s with
  | _ size ih =>
    refine ends_readFull (by omega) hready (Or.inr hended) (fun piece rest hinp hpiece hle ↦ ?_)
      fun hnil _ ↦ ?_
    · have hpos : 0 < piece.length := List.length_pos_of_ne_nil hpiece
      have hrest : (s.skip piece.length).inp = rest := Solo.inp_skip_append hinp rfl
      have hlen : (s.skip piece.length).inp.length < size - piece.length := by
        rw [hinp, List.length_append] at hsize
        rw [hrest]
        omega
      refine (@ih (size - piece.length) (by omega) (s.skip piece.length) hready hlen hended).mono ?_
      rintro _ _ ⟨rfl, rfl⟩
      refine ⟨rfl, ?_⟩
      rw [Solo.skip_skip, hrest, hinp, List.length_append]
    · rw [hnil]
      exact ⟨rfl, rfl⟩

end Io
end ManyTasks
