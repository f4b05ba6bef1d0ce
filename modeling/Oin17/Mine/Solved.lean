import Oin17.Mine.Passes

namespace Oin17.Mine
open Chals Memory Run Ws

/-- `mine` at its first wait, on a socket `sk`. -/
def begun (uq sk : Int) (b : Buf) : Miner :=
  { initMining uq with sk := sk, conned := false, b := b }

section
variable {ω : Type} {ca : Authority ω} {jsmn : Jsmn} {s t : Miner × ω} {ev : Uevent × Calls}

/-- `solved` says that a solution of the challenge was sent since the last reset. -/
def Answered (s : Miner × ω) : Prop :=
  s.1.mchl.solved ≠ 0 → ∃ n, .submit s.1.mchl.chal.id n true ∈ sinceReset s.1.log

/-- The first solution of a challenge comes while the socket is connected, and is sent. -/
def Submits (ca : Authority ω) (s : Miner × ω) : Uevent × Calls → Prop
  | (.solvr ident data, _) => ident = s.1.mchl.chal.id → s.1.mchl.solved = 0 →
      s.1.conned = true ∧ ∀ r w, ca.submit s.2 s.1.sk data = some (r, w) → r = 0
  | _ => True

structure Consistent (s : Miner × ω) : Prop where
  answered : Answered s
  clear : s.1.mchl.solved = 0 → sinceReset s.1.log = []

theorem begun_consistent (uq sk : Int) (b : Buf) (w : ω) : Consistent (begun uq sk b, w) :=
  ⟨fun h => absurd rfl h, fun _ => rfl⟩

theorem Consistent.step (h : Consistent s) (hs : mine ca jsmn s ev = some t)
    (hg : Submits ca s ev) : Consistent t := by
  obtain ⟨m, w⟩ := s
  obtain ⟨ev, c⟩ := ev
  obtain ⟨hans, hclear⟩ := h
  rcases mine_some hs with hpass | ⟨ident, fflags, chal, rfl, hr⟩
  rotate_left
  · obtain ⟨-, hsolved, hlog⟩ := replacechal_reset hr
    exact ⟨fun h => absurd hsolved h, fun _ => hlog⟩
  cases hpass with
  | quiet hm hl hev => exact ⟨by rw [Answered, hm, hl]; exact hans, by rw [hm, hl]; exact hclear⟩
  | error hm hl =>
    refine ⟨fun hsolved => absurd ?_ hsolved, fun _ => ?_⟩
    · rw [hm]
    · rw [hl, sinceReset_reset]
  | @sent data r w' h0 hc hsub hm hl =>
    -- the solution was sent, so it is among the submissions since the reset
    obtain rfl := (hg rfl h0).2 r w' hsub
    refine ⟨fun _ => ⟨data, ?_⟩, fun hsolved => ?_⟩
    · rw [hl, hm, sinceReset_submit]
      exact List.mem_cons_self
    · rw [hm] at hsolved
      cases hsolved
  | delayed h0 hc hm hl =>
    rw [(hg rfl h0).1] at hc
    cases hc

/-- A solution that is not sent is marked as found all the same. -/
theorem Consistent.silenced (h : Consistent s) (hs : mine ca jsmn s ev = some t)
    (hg : ¬ Submits ca s ev) : ¬ Answered t := by
  obtain ⟨m, w⟩ := s
  obtain ⟨ev, c⟩ := ev
  obtain ⟨-, hclear⟩ := h
  rcases mine_some hs with hpass | ⟨ident, fflags, chal, rfl, hr⟩
  rotate_left
  · exact absurd trivial hg
  cases hpass with
  | quiet hm hl hev =>
    cases ev with
    | solvr ident data => exact absurd (fun hid h0 => absurd h0 (hev ident data rfl hid)) hg
    | _ => exact absurd trivial hg
  | error hm hl => exact absurd trivial hg
  | @sent data r w' h0 hc hsub hm hl =>
    have hr : r ≠ 0 := by
      rintro rfl
      refine hg fun _ _ => ⟨hc, fun r w hr => ?_⟩
      rw [hsub] at hr
      exact (Prod.mk.inj (Option.some.inj hr)).1.symm
    intro hans
    obtain ⟨n, hn⟩ := hans (by rw [hm]; exact Nat.one_ne_zero)
    rw [hl, hm, sinceReset_submit, hclear h0, List.mem_singleton] at hn
    injection hn with _ _ hok
    exact hr (of_decide_eq_true hok.symm)
  | delayed h0 hc hm hl =>
    intro hans
    obtain ⟨n, hn⟩ := hans (by rw [hm]; exact Nat.one_ne_zero)
    rw [hl, hclear h0] at hn
    cases hn

/-- `solved` is set before it is known whether the solution can be sent, so it
stands for a submission exactly in the runs where each first solution is sent. -/
theorem answered_iff (ca : Authority ω) (jsmn : Jsmn) (uq sk : Int) (b : Buf) (w : ω)
    (evs : List (Uevent × Calls)) :
    Always (mine ca jsmn) Answered (begun uq sk b, w) evs ↔
      Steps (mine ca jsmn) (Submits ca) (begun uq sk b, w) evs :=
  always_iff_steps Consistent Answered (Submits ca) (fun _ _ _ h hs hg => h.step hs hg)
    (fun _ h => h.answered) (fun _ _ _ h hs hg => h.silenced hs hg)
    (begun_consistent uq sk b w) evs

end

/-- An authority whose calls succeed, and which always responds with `msg`. -/
def responding (msg : List UInt8) : Authority Unit where
  connect _ _ := some (0, ())
  close _ _ := some ()
  curchal _ _ := some (0, ())
  submit _ _ _ := some (0, ())
  recv _ _ b := some (msg.length, store b 0 msg, ())

/-- A challenge, as the server sends it. -/
def challenge (id : Char) : List UInt8 :=
  bytes "\x7b\"challenge_id\":" ++ [UInt8.ofNat id.toNat] ++
    bytes ",\"last_solution_hash\":\"\"\x7d"

def response (id : Char) : List UInt8 := challenge id ++ [0]

/-- Its tokens. -/
def responseToks : Jsmn := fun _ => some
  [⟨.object, 0, 41⟩, ⟨.string, 2, 14⟩, ⟨.primitive, 16, 17⟩, ⟨.string, 19, 37⟩, ⟨.string, 40, 40⟩]

def someCalls : Calls where
  chal := Chal.zero
  k _ := 0
  v _ := 0
  added := true
  starts i := i
  registered := true

/-- The socket is closed before the first solution comes. -/
def closedFirst : List (Uevent × Calls) :=
  [(.wsock 0 qnoteConn, someCalls), (.wsock 0 qnoteRead, someCalls),
    (.wsock 0 qnoteClosed, someCalls), (.solvr 5 30000000, someCalls)]

theorem closed_first_silences :
    (Run.exec (mine (responding (response '5')) responseToks) (begun 0 0 fun _ => 0, ())
      closedFirst).map (fun s =>
        (s.1.mchl.chal.id, s.1.mchl.solved, s.1.conned, sinceReset s.1.log)) =
      some (5, 1, false, []) ∧
    ¬ Always (mine (responding (response '5')) responseToks) Answered
      (begun 0 0 fun _ => 0, ()) closedFirst := by
  have hend : (Run.exec (mine (responding (response '5')) responseToks) (begun 0 0 fun _ => 0, ())
      closedFirst).map (fun s => (s.1.mchl.chal.id, s.1.mchl.solved, s.1.conned,
        sinceReset s.1.log)) = some (5, 1, false, []) := by decide +kernel
  refine ⟨hend, fun h => ?_⟩
  obtain ⟨t, ht, hview⟩ := Option.map_eq_some_iff.mp hend
  obtain ⟨-, hview⟩ := Prod.mk.inj hview
  obtain ⟨hsolved, hview⟩ := Prod.mk.inj hview
  obtain ⟨-, hlog⟩ := Prod.mk.inj hview
  obtain ⟨n, hn⟩ := h.last ht (by rw [hsolved]; exact Nat.one_ne_zero)
  rw [hlog] at hn
  cases hn

end Oin17.Mine
