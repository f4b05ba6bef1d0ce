import Oin17.Ws.Incoming

namespace Oin17.Ws
open Fragments Memory Run

/-- The size check of `recvfrag`. -/
def Passes (uc : Uconn) (f : Frag UInt8) : Prop := (uc.fo + f.1.length + f.2) % 2 ^ 64 ≤ maxmsglen

/-- No byte is written outside of `fb`, and a whole message is not too long for `mbuf`. -/
structure Contained (uc : Uconn) (f : Frag UInt8) : Prop where
  copy : ∀ i, uc.fo ≤ i → i < uc.fo + f.1.length → i < maxmsglen
  nul : f.2 = 0 → (uc.append f.1).fo < maxmsglen
  mbuf : f.2 = 0 → (uc.append f.1).message.length ≤ maxmsglen

/-- A fragment for a uconn, or a change that leaves its offset alone. -/
inductive Arrival where
  | frag (f : Frag UInt8)
  | elsewhere (t : State)

def Arrival.frag? : Arrival → Option (Frag UInt8)
  | .frag f => some f
  | .elsewhere _ => none

/-- A fragment that is refused ends the connection. -/
def arrive (c : Conn) (s : State) : Arrival → Option State
  | .frag f => (recvfrag s c f.1 f.2).bind fun (r, t) => if r = 0 then some t else none
  | .elsewhere t => if (t.uconns c).fo = (s.uconns c).fo then some t else none

/-- What came of the message that is not complete. -/
def unfinished (es : List Arrival) : List UInt8 := (assemble (es.filterMap Arrival.frag?)).2

section
variable {c : Conn} {s t : State} {es : List Arrival} {f : Frag UInt8}

/-- `k` bytes of a message are in the buffer. -/
def Buffered (c : Conn) (s : State) (k : Nat) : Prop := (s.uconns c).fo = k ∧ k ≤ maxmsglen

theorem recvfrag_room (h : recvfrag s c buf r = some (0, t)) :
    (s.uconns c).fo + buf.length ≤ maxmsglen := by
  rw [recvfrag] at h
  split at h
  · cases h
  split at h
  · cases h
  · omega

theorem Buffered.arrive {seen : List (Frag UInt8)} {e : Arrival}
    (h : Buffered c s (assemble seen).2.length) (hs : arrive c s e = some t) :
    Buffered c t (assemble (seen ++ e.frag?.toList)).2.length := by
  obtain ⟨hfo, hle⟩ := h
  cases e with
  | elsewhere u =>
    rw [Ws.arrive] at hs
    split at hs
    · next hu =>
      obtain rfl := Option.some.inj hs
      rw [Arrival.frag?, Option.toList_none, List.append_nil]
      exact ⟨hu.trans hfo, hle⟩
    · cases hs
  | frag f =>
    obtain ⟨⟨r, u⟩, hrecv, hu⟩ := Option.bind_eq_some_iff.mp hs
    dsimp only at hu
    split at hu
    · next hr =>
      obtain rfl := Option.some.inj hu
      subst hr
      have hroom := recvfrag_room hrecv
      rw [hfo] at hroom
      rw [Arrival.frag?, Option.toList_some, assemble_snoc, feed]
      rcases recvfrag_some hrecv with ⟨h0, -⟩ | ⟨hr, -, rfl⟩ | ⟨hr, -, m, p₁, iq, p₂, -, -, rfl⟩
      · cases h0
      · rw [if_neg hr]
        simpa [Buffered, updConn_self, Uconn.append, hfo] using hroom
      · rw [if_pos hr]
        refine ⟨?_, Nat.zero_le _⟩
        simp [reportread, State.trigger, updConn_self]
    · cases hu

theorem buffered_run (hfo : (s.uconns c).fo = 0) (hrun : exec (arrive c) s es = some t) :
    Buffered c t (unfinished es).length := by
  have hall : ∀ seen, Buffered c s (assemble seen).2.length →
      Buffered c t (assemble (seen ++ es.filterMap Arrival.frag?)).2.length := by
    clear hfo
    induction es generalizing s with
    | nil =>
      intro seen h
      obtain rfl := Option.some.inj hrun
      simpa using h
    | cons e es ih =>
      intro seen h
      obtain ⟨u, hu, hrun⟩ := Option.bind_eq_some_iff.mp hrun
      have := ih hrun _ (h.arrive hu)
      cases he : e.frag? <;> simpa [he] using this
  simpa [unfinished] using hall [] ⟨hfo, Nat.zero_le _⟩

/-- Of the fragments that pass the check, those are contained that do not make a
whole message as long as the buffer, which leaves no room for its NUL, and that
fit the buffer also where the sum of the check wraps. -/
theorem fragment_contained_iff (hfo : (s.uconns c).fo = 0) (hrun : exec (arrive c) s es = some t)
    (hpass : Passes (t.uconns c) f) :
    Contained (t.uconns c) f ↔ (f.2 = 0 → (unfinished es ++ f.1).length ≠ maxmsglen) ∧
      (2 ^ 64 ≤ (unfinished es ++ f.1).length + f.2 →
        (unfinished es ++ f.1).length ≤ maxmsglen) := by
  obtain ⟨hbuf, hle⟩ := buffered_run hfo hrun
  have hlen : (unfinished es ++ f.1).length = (t.uconns c).fo + f.1.length := by
    rw [List.length_append, hbuf]
  have hmessage : ((t.uconns c).append f.1).message.length = (t.uconns c).fo + f.1.length + 1 := by
    simp [Uconn.message, Uconn.append]
  rw [Passes] at hpass
  rw [hlen]
  constructor
  · intro h
    have hcopy : (t.uconns c).fo + f.1.length ≤ maxmsglen := by
      by_contra hover
      have := h.copy maxmsglen (by omega) (by omega)
      omega
    refine ⟨fun h0 heq => ?_, fun _ => hcopy⟩
    have := h.nul h0
    simp only [Uconn.append] at this
    omega
  · rintro ⟨hnul, hwrap⟩
    have hcopy : (t.uconns c).fo + f.1.length ≤ maxmsglen := by
      by_cases hbig : 2 ^ 64 ≤ (t.uconns c).fo + f.1.length + f.2
      · exact hwrap hbig
      · rw [Nat.mod_eq_of_lt (not_le.mp hbig)] at hpass
        omega
    refine ⟨fun i _ hi => by omega, fun h0 => ?_, fun h0 => ?_⟩
    · have := hnul h0
      simp only [Uconn.append]
      omega
    · have := hnul h0
      omega

end

/-- The end of a message of three bytes, in the first uconn. -/
theorem fragment_contained_three :
    Contained ((initWs.updConn 0 fun uc => uc.append [97, 98]).uconns 0) ([99], 0) ↔
      ((0 : Nat) = 0 → (unfinished [.frag ([97, 98], 1)] ++ [99]).length ≠ maxmsglen) ∧
        (2 ^ 64 ≤ (unfinished [.frag ([97, 98], 1)] ++ [99]).length + 0 →
          (unfinished [.frag ([97, 98], 1)] ++ [99]).length ≤ maxmsglen) :=
  fragment_contained_iff (c := 0) (s := initWs) (f := ([99], 0)) rfl rfl (by unfold Passes; decide)

/-- A message of exactly `maxmsglen` bytes passes the check, its NUL does not fit
`fb`, and `mbuf` panics. -/
theorem fragment_not_contained :
    Passes (initWs.uconns 0) (List.replicate 1024 97, 0) ∧
      ¬ Contained (initWs.uconns 0) (List.replicate 1024 97, 0) ∧
      mbuf initWs.pool ((initWs.uconns 0).append (List.replicate 1024 97)).message = none := by
  have hlen : (List.replicate 1024 97 : List UInt8).length = maxmsglen := List.length_replicate
  generalize (List.replicate 1024 97 : List UInt8) = m at hlen
  have hfo : (initWs.uconns 0).fo = 0 := rfl
  refine ⟨?_, fun h => ?_, ?_⟩
  · simp only [Passes, hfo, hlen]
    decide
  · have hnul := h.nul rfl
    simp only [Uconn.append, hfo, hlen] at hnul
    exact absurd hnul (by decide)
  · rw [mbuf, if_pos]
    simp only [Uconn.message, Uconn.append, load_length, hfo, hlen]
    decide

end Oin17.Ws
