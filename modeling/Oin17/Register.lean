import Oin17.Lib.Cint
import Oin17.Ws.Model

namespace Oin17.Register
open Cint Memory Run Ws

/-- Where `register_wallet` is: in one of its two waits, or returned. -/
inductive Pc where
  | wait1 | wait2
  | done (r : Int)
  deriving DecidableEq

inductive Call where
  | connect
  | close (sk : Int)
  | register (sk : Int)
  | recv (sk : Int)
  deriving DecidableEq

structure Reg where
  pc : Pc
  sk : Int
  b : Buf
  /-- The calls made so far. -/
  calls : List Call

/-- What `uevent` gives at a wait. -/
inductive Wake where
  | event (ident : UInt64) (fflags : Nat)
  | timeout
  | failed

/-- The results of the calls that a wait is followed by. -/
structure Results where
  conn : Int
  /-- Whether the new socket is registered for. -/
  watched : Bool
  register : Int
  recv : Int
  /-- `b` after `ca_recv`. -/
  b : Buf

def Reg.call (s : Reg) (c : Call) : Reg := { s with calls := s.calls ++ [c] }

/-- `L_QUIT`. -/
def Reg.quit (s : Reg) (r : Int) : Reg := { s.call (.close s.sk) with pc := .done r }

/-- From `L_TRY` up to the wait. -/
def attempt (s : Reg) (c : Results) : Reg :=
  let s := s.call .connect
  if c.conn < 0 then { s with sk := c.conn, pc := .done (-1) }
  else
    let s := { s with sk := c.conn }
    if c.watched = false then s.quit (-1) else { s with pc := .wait1 }

/-- `L_RETRY`. -/
def retry (s : Reg) (c : Results) : Reg := attempt (s.call (.close s.sk)) c

/-- What follows the wait at `L_WAIT1`. -/
def wait1 (s : Reg) (c : Results) : Wake → Reg
  | .event ident fflags =>
    if s.sk ≠ toInt ident.toNat then s
    else if qnoteClosed &&& fflags ≠ 0 then retry s c
    else
      let s := s.call (.register s.sk)
      if c.register ≠ 0 then retry s c else { s with pc := .wait2 }
  | .timeout => s.quit (-1)
  | .failed => s.quit (-1)

/-- What is done about a response. -/
def respond (s : Reg) : Reg :=
  let b := cstr s.b maxmsglen
  if bytes "wallet_id" <:+: b then s.quit 0
  else if bytes "already registered" <:+: b then s.quit 0
  else if bytes "invalid signature" <:+: b then s.quit (-1)
  else s.quit (-1)

/-- What follows the wait at `L_WAIT2`. The drop is looked for in `ident`. -/
def wait2 (s : Reg) (c : Results) : Wake → Reg
  | .event ident _ =>
    if s.sk ≠ toInt ident.toNat then s
    else if qnoteClosed &&& ident.toNat ≠ 0 then retry s c
    else
      let s := { s.call (.recv s.sk) with b := c.b }
      if c.recv < 0 then retry s c else respond s
  | .timeout => retry s c
  | .failed => s.quit (-1)

/-- From a wait up to the next one. -/
def step (s : Reg) (e : Wake × Results) : Option Reg :=
  match s.pc with
  | .wait1 => some (wait1 s e.2 e.1)
  | .wait2 => some (wait2 s e.2 e.1)
  | .done _ => none

/-- `register_wallet` up to the first wait, with what `b` holds. -/
def start (uq : Int) (b : Buf) (c : Results) : Reg :=
  let s : Reg := { pc := .done (-1), sk := 0, b := b, calls := [] }
  if uq < 0 then s else attempt s c

/-- The calls that connect, send and register for events succeed. -/
def Succeeds (c : Results) : Prop :=
  0 ≤ c.conn ∧ c.conn < maxuconns ∧ c.watched = true ∧ c.register = 0

def Reconnects (s t : Reg) (c : Results) : Prop :=
  t.calls = s.calls ++ [.close s.sk, .connect] ∧ t.pc = .wait1 ∧ t.sk = c.conn

/-- A response that tells of the wallet ends the registration. -/
def Reads (s t : Reg) (c : Results) : Prop :=
  (∃ rest, t.calls = s.calls ++ .recv s.sk :: rest) ∧
  (0 ≤ c.recv → bytes "wallet_id" <:+: cstr c.b maxmsglen ∨
    bytes "already registered" <:+: cstr c.b maxmsglen → t.pc = .done 0)

/-- An event for the socket, at the second wait. -/
def Answered (s : Reg) (e : Wake × Results) (fflags : Nat) : Prop :=
  s.pc = .wait2 ∧ ∃ ident, e.1 = .event ident fflags ∧ s.sk = toInt ident.toNat

/-- Such an event means a drop if its flags say so, and a response otherwise. -/
def Answers (s : Reg) (e : Wake × Results) : Prop :=
  ∀ fflags, Answered s e fflags → ∃ t, step s e = some t ∧
    if qnoteClosed &&& fflags ≠ 0 then Reconnects s t e.2 else Reads s t e.2

/-- The socket of an event is odd exactly when the event is a drop. -/
def Agrees (s : Reg) (e : Wake × Results) : Prop :=
  ∀ fflags, Answered s e fflags → (qnoteClosed &&& fflags ≠ 0 ↔ s.sk % 2 = 1)

theorem closed_ident (ident : Nat) : qnoteClosed &&& ident ≠ 0 ↔ toInt ident % 2 = 1 := by
  rw [qnoteClosed, Nat.one_and_eq_mod_two]
  unfold toInt
  omega

theorem retry_eq (hc : Succeeds c) (s : Reg) : retry s c =
    { s with pc := .wait1, sk := c.conn, calls := s.calls ++ [.close s.sk, .connect] } := by
  obtain ⟨hconn, -, hw, -⟩ := hc
  simp [retry, attempt, Reg.call, Int.not_lt.mpr hconn, hw]

theorem retry_reconnects (hc : Succeeds c) (s : Reg) : Reconnects s (retry s c) c := by
  rw [retry_eq hc]
  exact ⟨rfl, rfl, rfl⟩

theorem quit_calls (s : Reg) (r : Int) : (s.quit r).calls = s.calls ++ [.close s.sk] := rfl

theorem respond_calls (s : Reg) : (respond s).calls = s.calls ++ [.close s.sk] := by
  unfold respond
  dsimp only
  split_ifs <;> exact quit_calls s _

theorem respond_told (h : bytes "wallet_id" <:+: cstr s.b maxmsglen ∨
    bytes "already registered" <:+: cstr s.b maxmsglen) : (respond s).pc = .done 0 := by
  unfold respond
  dsimp only
  by_cases hw : bytes "wallet_id" <:+: cstr s.b maxmsglen
  · rw [if_pos hw]
    rfl
  · rw [if_neg hw, if_pos (h.resolve_left hw)]
    rfl

/-- An event of an odd socket reconnects, whatever it tells. -/
theorem wait2_odd (hs : s.sk = toInt ident.toNat) (ho : s.sk % 2 = 1) (c : Results)
    (fflags : Nat) : wait2 s c (.event ident fflags) = retry s c := by
  rw [wait2, if_neg (not_not_intro hs), if_pos ((closed_ident _).mpr (hs ▸ ho))]

theorem wait2_even (hs : s.sk = toInt ident.toNat) (he : ¬ s.sk % 2 = 1) (hc : Succeeds c)
    (fflags : Nat) : Reads s (wait2 s c (.event ident fflags)) c := by
  have hident : ¬ qnoteClosed &&& ident.toNat ≠ 0 := fun h => he (hs ▸ (closed_ident _).mp h)
  rw [wait2, if_neg (not_not_intro hs), if_neg hident]
  dsimp only
  by_cases hr : c.recv < 0
  · rw [if_pos hr, retry_eq hc]
    exact ⟨⟨_, List.append_assoc _ _ _⟩, fun h0 => absurd h0 (Int.not_le.mpr hr)⟩
  · rw [if_neg hr]
    refine ⟨⟨[.close s.sk], ?_⟩, fun _ htold => respond_told htold⟩
    rw [respond_calls]
    exact List.append_assoc _ _ _

/-- Reading begins with a call that reconnecting does not make. -/
theorem not_both (hr : Reconnects s t c) : ¬ Reads s t c := by
  rintro ⟨⟨rest, hcalls⟩, -⟩
  rw [hr.1] at hcalls
  have := List.append_cancel_left hcalls
  simp at this

theorem answers_iff (hc : Succeeds e.2) : Answers s e ↔ Agrees s e := by
  refine forall₂_congr fun fflags ha => ?_
  obtain ⟨hp, ident, he, hs⟩ := ha
  have hstep : step s e = some (wait2 s e.2 (.event ident fflags)) := by
    rw [step, hp, he]
  by_cases ho : s.sk % 2 = 1
  · have hre := retry_reconnects hc s
    rw [← wait2_odd hs ho e.2 fflags] at hre
    by_cases hclosed : qnoteClosed &&& fflags ≠ 0
    · exact iff_of_true ⟨_, hstep, by rwa [if_pos hclosed]⟩ (iff_of_true hclosed ho)
    · refine iff_of_false ?_ fun h => hclosed (h.mpr ho)
      rintro ⟨t, ht, hreads⟩
      obtain rfl := Option.some.inj (hstep.symm.trans ht)
      rw [if_neg hclosed] at hreads
      exact not_both hre hreads
  · have hre := wait2_even hs ho hc fflags
    by_cases hclosed : qnoteClosed &&& fflags ≠ 0
    · refine iff_of_false ?_ fun h => ho (h.mp hclosed)
      rintro ⟨t, ht, hrec⟩
      obtain rfl := Option.some.inj (hstep.symm.trans ht)
      rw [if_pos hclosed] at hrec
      exact not_both hrec hre
    · exact iff_of_true ⟨_, hstep, by rwa [if_neg hclosed]⟩ (iff_of_false hclosed ho)

/-- The registration follows the flags of its events in the runs in which they
happen to agree with the number of the socket. -/
theorem register_answers_iff (uq : Int) (b : Buf) (c : Results) (es : List (Wake × Results))
    (hs : ∀ e ∈ es, Succeeds e.2) :
    Steps step Answers (start uq b c) es ↔ Steps step Agrees (start uq b c) es :=
  steps_congr (fun _ => True) (fun e => Succeeds e.2) Answers Agrees (fun _ _ _ _ _ _ => trivial)
    (fun _ _ _ _ he _ => answers_iff he) trivial hs

/-- The calls succeed, with the socket `sk`. Nothing is there to be read from a
connection that was dropped, and `b` stays as it was. -/
def granted (sk : Int) (b : Buf) : Results :=
  { conn := sk, watched := true, register := 0, recv := 0, b := b }

def zeros : Buf := fun _ => 0

/-- A socket of number 1, established and then dropped. -/
theorem register_answers_iff_dropped :
    Steps step Answers (start 0 zeros (granted 1 zeros))
        [(.event 1 qnoteConn, granted 1 zeros), (.event 1 qnoteClosed, granted 2 zeros)] ↔
      Steps step Agrees (start 0 zeros (granted 1 zeros))
        [(.event 1 qnoteConn, granted 1 zeros), (.event 1 qnoteClosed, granted 2 zeros)] :=
  register_answers_iff 0 _ _ _ (by simp [Succeeds, granted])

/-- The text `wallet_id` in zeroed memory. -/
def walletId : Buf := fun i => (bytes "wallet_id").getD i 0

/-- The first socket has the number 0: its drop is read from, and the stale buffer
ends the registration. The next one has the number 1: its response is not read. -/
theorem register_wrong_field :
    (exec step (start 0 zeros (granted 0 zeros))
        [(.event 0 qnoteConn, granted 0 zeros), (.event 0 qnoteClosed, granted 1 zeros)]).map
      (fun s => (s.pc, s.calls)) =
        some (.done (-1), [.connect, .register 0, .recv 0, .close 0]) ∧
    (exec step (start 0 zeros (granted 1 zeros))
        [(.event 1 qnoteConn, granted 1 zeros), (.event 1 qnoteRead, granted 2 walletId)]).map
      (fun s => (s.pc, s.calls)) =
        some (.wait1, [.connect, .register 1, .close 1, .connect]) ∧
    ¬ Steps step Answers (start 0 zeros (granted 0 zeros))
        [(.event 0 qnoteConn, granted 0 zeros),
          (.event 0 qnoteClosed, granted 1 zeros)] := by
  refine ⟨by decide +kernel, by decide +kernel, fun h => ?_⟩
  have hsecond := ((steps_cons_iff rfl).mp h).2
  have hans := ((steps_cons_iff rfl).mp hsecond).1
  rw [answers_iff (by simp [Succeeds, granted])] at hans
  exact absurd (hans qnoteClosed ⟨rfl, 0, rfl, rfl⟩) (by decide)

end Oin17.Register
