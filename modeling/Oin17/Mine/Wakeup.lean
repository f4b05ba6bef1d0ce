import Oin17.Mine.Central
import Oin17.Mine.Solved

namespace Oin17.Mine
open Ca Chals Memory Run Ws

/-- The miner and the connections, with the event of the socket. -/
structure System where
  ws : State
  m : Miner
  /-- The flags of the event pending for the socket, if there is one. -/
  pending : Nat
  /-- The event being handled, unless the loop is blocked in `uevent`. -/
  ev : Option Uevent

/-- There is one event for the socket, whose flags are ORed or replaced. Others
are not registered for. That they are ORed is what is assumed of the queue and what
QNOTE_FFOR asks for, but the uqueue that comes with the code replaces those that are pending. -/
def note (uq sk : Int) (pending : Nat) (t : Trigger) : Nat :=
  if t.uq = uq ∧ t.ident = sk then
    if t.ffcopy then t.fflags else pending ||| t.fflags
  else pending

inductive Happening where
  | callback (k : Nat) (rs : Reason)
  | deliver (ev : Uevent)
  | handle (ok : Bool) (c : Calls)

/-- Delivering the event of the socket clears it. Those of the solvers and of
dropped sockets may come at any time. -/
def deliver (s : System) : Uevent → Option System
  | .wsock ident fflags =>
    if ident = s.m.sk then
      if s.pending = fflags ∧ fflags ≠ 0 then
        some { s with pending := 0, ev := some (.wsock ident fflags) }
      else none
    else some { s with ev := some (.wsock ident fflags) }
  | ev => some { s with ev := some ev }

/-- A new socket has no event pending. -/
def Next.pending (p : Nat) : Next → Nat
  | .restart _ => 0
  | _ => p

def System.step (wallet : List UInt8) (jsmn : Jsmn) (s : System) : Happening → Option System
  | .callback k rs => (callback s.ws k rs).map fun ws =>
      { s with
        ws := ws
        pending := (ws.triggers.drop s.ws.triggers.length).foldl (note s.m.uq s.m.sk) s.pending }
  | .deliver ev => if s.ev.isSome then none else deliver s ev
  | .handle ok c => do
    let ev ← s.ev
    let (n, ws) ← Mine.handle (central wallet ok) jsmn s.ws s.m c ev
    let (m, ws) ← follow (central wallet ok) ws c n
    pure { ws := ws, m := m, pending := n.pending s.pending, ev := none }

/-- Where the loop blocks with no event pending for the socket, no message is left. -/
def AllRead (s : System) : Prop :=
  s.ev = none → s.pending = 0 → ∀ c : Conn, s.m.sk = c.val → (s.ws.uconns c).iq = none

/-- What a pass over an event of the socket may find in its queue, where nothing
has come since: one message when it reads, and none when the socket is connected. -/
def Fits (s : System) (fflags : Nat) : Prop :=
  ∀ c : Conn, s.m.sk = c.val →
    if qnoteConn &&& fflags ≠ 0 then (s.ws.uconns c).iq = none
    else ∀ m, (s.ws.uconns c).iq = some m → (s.ws.pool.mbufs m).next = none

def OneMessage (s : System) : Happening → Prop
  | .handle _ _ => ∀ fflags, s.ev = some (.wsock s.m.sk fflags) → qnoteClosed &&& fflags = 0 →
      s.pending = 0 → Fits s fflags
  | _ => True

/-- The socket is a uconn that reports to the miner. -/
def Reports (ws : State) (m : Miner) (c : Conn) : Prop :=
  m.sk = c.val ∧ (ws.uconns c).id = c.val ∧ (ws.uconns c).uq = m.uq

structure Woken (s : System) : Prop where
  sound : ∃ q, Sound s.ws q
  valid : ∃ c, Reports s.ws s.m c
  woken : (∀ fflags, s.ev ≠ some (.wsock s.m.sk fflags)) → s.pending = 0 →
    ∀ c : Conn, s.m.sk = c.val → (s.ws.uconns c).iq = none

theorem Woken.allRead (h : Woken s) : AllRead s :=
  fun hev hp => h.woken (fun fflags he => by rw [hev] at he; cases he) hp

section Callbacks
variable {s t : State}

/-- An event stays pending until it is delivered. -/
theorem notes_zero {uq sk : Int} {p : Nat} {ts : List Trigger} (hts : ∀ x ∈ ts, x.fflags ≠ 0)
    (h : ts.foldl (note uq sk) p = 0) : p = 0 ∧ ∀ x ∈ ts, ¬ (x.uq = uq ∧ x.ident = sk) := by
  induction ts generalizing p with
  | nil => exact ⟨h, by simp⟩
  | cons x ts ih =>
    rw [List.forall_mem_cons] at hts
    obtain ⟨hnote, hrest⟩ := ih hts.2 h
    have hx : ¬ (x.uq = uq ∧ x.ident = sk) := by
      intro hx
      rw [note, if_pos hx] at hnote
      split at hnote
      · exact hts.1 hnote
      · exact hts.1 ((Nat.or_eq_zero_iff.mp hnote).2)
    rw [note, if_neg hx] at hnote
    exact ⟨hnote, List.forall_mem_cons.mpr ⟨hx, hrest⟩⟩

theorem leave_triggers (s : State) (k : Nat) (rs : Reason) (r : Int) :
    (leave s k rs r).triggers = s.triggers := by
  cases rs <;> simp only [leave] <;> split <;> rfl

/-- What a callback does to its own uconn, with what it triggers: a message only
comes with an event. -/
structure Triggers (s t : State) (c : Conn) (new : List Trigger) : Prop where
  id : (t.uconns c).id = (s.uconns c).id
  uq : (t.uconns c).uq = (s.uconns c).uq
  triggers : t.triggers = s.triggers ++ new
  fflags : ∀ x ∈ new, x.fflags ≠ 0
  incoming : (t.uconns c).ws = none ∨ (t.uconns c).iq = (s.uconns c).iq ∨
    ∃ x ∈ new, x.uq = (s.uconns c).uq ∧ x.ident = (s.uconns c).id

theorem handler_triggers (h : lwsHandler s k c rs = some (r, t)) : ∃ new, Triggers s t c new := by
  have hnone : ∀ {f : Uconn → Uconn} {p : Pool}, (∀ uc, (f uc).id = uc.id ∧ (f uc).uq = uc.uq ∧
      ((f uc).ws = none ∨ (f uc).iq = uc.iq)) →
      Triggers s ({ s with pool := p }.updConn c f) c [] := by
    intro f p hf
    obtain ⟨hid, huq, hiq⟩ := hf (s.uconns c)
    refine ⟨?_, ?_, (List.append_nil _).symm, by simp, ?_⟩
    · rw [updConn_self]
      exact hid
    · rw [updConn_self]
      exact huq
    · rw [updConn_self]
      exact hiq.imp_right Or.inl
  cases handler_cases h with
  | same => exact ⟨[], rfl, rfl, (List.append_nil _).symm, by simp, Or.inr (Or.inl rfl)⟩
  | reported he => exact ⟨[_], rfl, rfl, rfl, by simpa using he.2.2, Or.inr (Or.inl rfl)⟩
  | requested he =>
    have hself : ∀ f : Uconn → Uconn, ((s.updWsi k Wsi.request).updConn c f).uconns c =
        f (s.uconns c) := fun f => updConn_self c f
    refine ⟨[_], ?_, ?_, rfl, by simpa using he.2.2, Or.inr (Or.inl ?_)⟩ <;>
      rw [State.trigger, hself]
  | appended => exact ⟨[], hnone (p := s.pool) fun uc => ⟨rfl, rfl, Or.inr rfl⟩⟩
  | queued _ _ he =>
    refine ⟨[_], ?_, ?_, rfl, by simpa using he.2.2,
      Or.inr (Or.inr ⟨_, List.mem_singleton_self _, he.1, he.2.1⟩)⟩ <;>
      rw [State.trigger, updConn_self] <;> rfl
  | relayed => exact ⟨[], hnone fun uc => ⟨rfl, rfl, Or.inr rfl⟩⟩
  | destroyed => exact ⟨[], hnone fun uc => ⟨rfl, rfl, Or.inl rfl⟩⟩

/-- What a callback does to any uconn. -/
theorem callback_triggers (h : callback s k rs = some t) (c : Conn) :
    ∃ new, Triggers s t c new := by
  obtain ⟨w, r, s', hw, -, hs', rfl⟩ := callback_some h
  obtain ⟨new, hnew⟩ := handler_triggers hs'
  have huc := leave_uconns s' k rs r
  have htr := leave_triggers s' k rs r
  by_cases hc : c = w.user
  · subst hc
    obtain ⟨hid, huq, htriggers, hff, hin⟩ := hnew
    exact ⟨new, by rw [huc]; exact hid, by rw [huc]; exact huq, htr.trans htriggers, hff,
      by rw [huc]; exact hin⟩
  · have hsame := (callback_local h hw).uconns c hc
    exact ⟨new, by rw [hsame], by rw [hsame], htr.trans hnew.triggers, hnew.fflags,
      Or.inr (Or.inl (by rw [hsame]))⟩

end Callbacks

section Steps
variable {s t : System} {wallet : List UInt8} {jsmn : Jsmn}

theorem Reports.unique (h : Reports ws m c) (hd : m.sk = d.val) : d = c := by
  have := h.1.symm.trans hd
  exact Fin.ext (Int.ofNat.inj this).symm

theorem Woken.callback (h : Woken s) (hs : s.step wallet jsmn (.callback k rs) = some t) :
    Woken t := by
  obtain ⟨ws, hws, rfl⟩ := Option.map_eq_some_iff.mp hs
  obtain ⟨q, hq⟩ := h.sound
  obtain ⟨c, hc⟩ := h.valid
  obtain ⟨q', hq', -⟩ := hq.callback hws
  obtain ⟨new, hnew⟩ := callback_triggers hws c
  refine ⟨⟨q', hq'⟩, ⟨c, hc.1, hnew.id.trans hc.2.1, hnew.uq.trans hc.2.2⟩, fun hev hp d hd => ?_⟩
  obtain rfl := hc.unique hd
  dsimp only at hp ⊢
  rw [hnew.triggers, List.drop_left] at hp
  obtain ⟨hp, hnone⟩ := notes_zero hnew.fflags hp
  rcases hnew.incoming with hdead | hsame | ⟨x, hx, huq, hid⟩
  · exact hq'.dead d hdead
  · rw [hsame]
    exact h.woken hev hp d hd
  · exact absurd ⟨huq.trans hc.2.2, hid.trans (hc.2.1.trans hd.symm)⟩ (hnone x hx)

theorem Woken.deliver (h : Woken s) (hs : s.step wallet jsmn (.deliver ev) = some t) : Woken t := by
  simp only [System.step] at hs
  split at hs
  · cases hs
  · next hev =>
    have hwait : ∀ fflags, s.ev ≠ some (.wsock s.m.sk fflags) := by
      intro fflags he
      rw [he] at hev
      exact hev rfl
    cases ev with
    | wsock ident fflags =>
      simp only [Mine.deliver] at hs
      split at hs
      · next hid =>
        split at hs
        · obtain rfl := Option.some.inj hs
          exact ⟨h.sound, h.valid, fun hev' => absurd (by rw [hid]) (hev' fflags)⟩
        · cases hs
      · obtain rfl := Option.some.inj hs
        exact ⟨h.sound, h.valid, fun _ => h.woken hwait⟩
    | solvr ident data =>
      obtain rfl := Option.some.inj hs
      exact ⟨h.sound, h.valid, fun _ => h.woken hwait⟩
    | other =>
      obtain rfl := Option.some.inj hs
      exact ⟨h.sound, h.valid, fun _ => h.woken hwait⟩

/-- The uconns report as before, and their incoming queues are the same. -/
def Kept (ws ws' : State) : Prop := ∀ c, (ws'.uconns c).id = (ws.uconns c).id ∧
  (ws'.uconns c).uq = (ws.uconns c).uq ∧ (ws'.uconns c).iq = (ws.uconns c).iq

/-- Sending a command does not disturb what is received. -/
theorem sendreturn_sound (h : Sound ws q) (hne : buf ≠ [])
    (hs : Ca.sendreturn ws sk buf = some (r, ws')) :
    (∃ q', Sound ws' q') ∧ Kept ws ws' ∧ (uconnIsvalid ws sk ≠ none → r = 0) := by
  obtain ⟨⟨n, t⟩, hn, hs⟩ := Option.map_eq_some_iff.mp hs
  obtain ⟨rfl, rfl⟩ := Prod.mk.inj hs
  obtain ⟨q', hq', -⟩ := h.send hn fun he => absurd he hne
  refine ⟨⟨q', hq'⟩, fun c => ?_, fun hv => ?_⟩
  · rcases wsSend_some hn with ⟨-, rfl⟩ | ⟨d, m, p₁, oq, p₂, k, w, -, -, -, -, -, rfl⟩
    · exact ⟨rfl, rfl, rfl⟩
    · rw [updWsi_uconns]
      refine ⟨?_, ?_, ?_⟩
      · apply updConn_keep Uconn.id
        exact fun _ => rfl
      · apply updConn_keep Uconn.uq
        exact fun _ => rfl
      · apply updConn_keep Uconn.iq
        exact fun _ => rfl
  · rw [wsSend_result hn hv]
    exact if_neg fun hlen => hlen rfl

theorem start_sound (h : Sound ws q)
    (hs : Mine.start (central wallet ok) ws m c = some (m', ws')) :
    (∃ q', Sound ws' q') ∧ ∃ d, Reports ws' m' d ∧ (ws'.uconns d).iq = none := by
  obtain ⟨⟨sk, t⟩, ht, hs⟩ := Option.bind_eq_some_iff.mp hs
  dsimp only at hs
  split at hs
  · cases hs
  next hsk =>
  obtain ⟨rfl, rfl⟩ := Prod.mk.inj (Option.some.inj hs)
  have hconn : wsConnect ws m.uq ok = (sk, t) := Option.some.inj ht
  have hsound := h.connect m.uq ok
  have hpos : 0 ≤ (wsConnect ws m.uq ok).1 := by
    rw [hconn]
    exact not_lt.mp (not_or.mp hsk).1
  obtain ⟨d, hd, hnew⟩ := wsConnect_some hpos
  rw [hconn] at hsound hnew
  obtain ⟨rfl, rfl⟩ := Prod.mk.inj hnew
  refine ⟨⟨q, hsound⟩, d, ⟨rfl, ?_, ?_⟩, ?_⟩ <;>
    rw [openWsi_uconns, updConn_self, updConn_self] <;> rfl

theorem restart_sound (h : Sound ws q)
    (hf : follow (central wallet ok) ws c (.restart m) = some (m', ws')) :
    (∃ q', Sound ws' q') ∧ ∃ d, Reports ws' m' d ∧ (ws'.uconns d).iq = none := by
  have hstart : Mine.start (central wallet ok) (wsClose ws m.sk) m c = some (m', ws') := hf
  exact start_sound (h.close m.sk) hstart

theorem Reports.isvalid (h : Reports ws m d) : uconnIsvalid ws m.sk = some d := by
  rw [h.1]
  exact uconnIsvalid_self h.2.1

/-- Reading takes the head of the queue, and leaves nothing when it is the last. -/
theorem recv_sound (h : Sound ws q) (hd : Reports ws m d)
    (hr : caRecv ws m.sk b maxmsglen = (l, b', ws')) :
    (∃ q', Sound ws' q') ∧ 0 ≤ l ∧ Reports ws' m d ∧
      ((ws'.uconns d).iq = none ↔
        ∀ x, (ws.uconns d).iq = some x → (ws.pool.mbufs x).next = none) := by
  have hsound : ∃ q', Sound (wsRecv ws m.sk maxmsglen).state q' := by
    rcases h.recv_cases m.sk maxmsglen with ⟨-, -, hq⟩ | ⟨c, x, t, -, -, -, -, -, hq⟩
    · exact ⟨q, hq⟩
    · exact ⟨_, hq⟩
  have hrecv : wsRecv ws m.sk maxmsglen =
      { r := (mbufp ws.pool (ws.uconns d).iq maxmsglen).r,
        buf := (mbufp ws.pool (ws.uconns d).iq maxmsglen).buf,
        state := { ws with pool := (mbufp ws.pool (ws.uconns d).iq maxmsglen).pool }.updConn d
          fun uc => { uc with iq := (mbufp ws.pool (ws.uconns d).iq maxmsglen).mb } } := by
    rw [wsRecv, hd.isvalid]
  obtain ⟨rfl, hstate⟩ := Prod.mk.inj hr
  obtain ⟨-, rfl⟩ := Prod.mk.inj hstate
  refine ⟨hsound, ?_⟩
  rw [hrecv]
  dsimp only
  rw [Reports, updConn_self]
  cases hiq : (ws.uconns d).iq with
  | none => exact ⟨Int.le_refl _, hd, by simp [mbufp]⟩
  | some x =>
    have hlen : ¬ maxmsglen < (ws.pool.mbufs x).len := not_lt.mpr (h.bounded x)
    simp only [mbufp, if_neg hlen]
    exact ⟨Int.natCast_nonneg _, hd, by simp⟩

theorem Kept.reports (h : Kept ws ws') (hd : Reports ws m d) : Reports ws' m d :=
  ⟨hd.1, (h d).1.trans hd.2.1, (h d).2.1.trans hd.2.2⟩

theorem submit_sound (h : Sound ws q) (hs : caSubmit wallet ws sk n = some (r, ws')) :
    (∃ q', Sound ws' q') ∧ Kept ws ws' := by
  unfold caSubmit sendcmd at hs
  split at hs
  · obtain ⟨-, rfl⟩ := Prod.mk.inj (Option.some.inj hs)
    exact ⟨⟨q, h⟩, fun _ => ⟨rfl, rfl, rfl⟩⟩
  · obtain ⟨hsound, hkept, -⟩ := sendreturn_sound h (cmd_ne _ _) hs
    exact ⟨hsound, hkept⟩

/-- A solution leaves what was received alone. -/
theorem solution_sound (h : Sound ws q)
    (hs : Mine.solution (central wallet ok) ws m ident data = some (n, ws')) :
    (∃ q', Sound ws' q') ∧ Kept ws ws' ∧
      ∃ m' : Miner, n = .wait m' ∧ m'.sk = m.sk ∧ m'.uq = m.uq := by
  have hsame : ∀ m' : Miner, m'.sk = m.sk → m'.uq = m.uq → some (Next.wait m', ws) = some (n, ws') →
      (∃ q', Sound ws' q') ∧ Kept ws ws' ∧
        ∃ m' : Miner, n = .wait m' ∧ m'.sk = m.sk ∧ m'.uq = m.uq := by
    intro m' hsk huq he
    obtain ⟨rfl, rfl⟩ := Prod.mk.inj (Option.some.inj he)
    exact ⟨⟨q, h⟩, fun _ => ⟨rfl, rfl, rfl⟩, m', rfl, hsk, huq⟩
  unfold Mine.solution at hs
  split at hs
  · exact hsame _ rfl rfl hs
  split at hs
  · exact hsame _ rfl rfl hs
  dsimp only at hs
  split at hs
  · obtain ⟨⟨r, u⟩, hr, hs⟩ := Option.map_eq_some_iff.mp hs
    obtain ⟨⟨x, v⟩, hx, hr⟩ := Option.map_eq_some_iff.mp hr
    obtain ⟨-, rfl⟩ := Prod.mk.inj hr
    obtain ⟨rfl, rfl⟩ := Prod.mk.inj hs
    obtain ⟨hsound, hkept⟩ := submit_sound h hx
    exact ⟨hsound, hkept, _, rfl, rfl, rfl⟩
  · exact hsame { m with mchl := { m.mchl with solved := 1 } } rfl rfl hs

/-- What a pass of the loop leaves of the messages of the socket. -/
inductive Left (s t : System) (d : Conn) : Prop where
  | restarted (hev : s.ev = some (.wsock s.m.sk fflags)) (hf : qnoteClosed &&& fflags ≠ 0)
      (hiq : (t.ws.uconns d).iq = none)
  | other (hev : ∀ fflags, s.ev ≠ some (.wsock s.m.sk fflags)) (hsk : s.m.sk = d.val)
      (hp : t.pending = s.pending) (hiq : (t.ws.uconns d).iq = (s.ws.uconns d).iq)
  | socket (hev : s.ev = some (.wsock s.m.sk fflags)) (hf : qnoteClosed &&& fflags = 0)
      (hp : t.pending = s.pending) (hiq : (t.ws.uconns d).iq = none ↔ Fits s fflags)

theorem Reports.fits (h : Reports s.ws s.m d) : Fits s fflags ↔
    if qnoteConn &&& fflags ≠ 0 then (s.ws.uconns d).iq = none
    else ∀ m, (s.ws.uconns d).iq = some m → (s.ws.pool.mbufs m).next = none := by
  refine ⟨fun hf => hf d h.1, fun hf c hc => ?_⟩
  obtain rfl := h.unique hc
  exact hf

theorem Woken.handled (h : Woken s) (hs : s.step wallet jsmn (.handle ok c) = some t) :
    (∃ q, Sound t.ws q) ∧ t.ev = none ∧ ∃ d, Reports t.ws t.m d ∧ Left s t d := by
  obtain ⟨ev, hev, hs⟩ := Option.bind_eq_some_iff.mp hs
  obtain ⟨⟨n, ws⟩, hn, hs⟩ := Option.bind_eq_some_iff.mp hs
  obtain ⟨⟨m, ws'⟩, hf, hs⟩ := Option.bind_eq_some_iff.mp hs
  obtain rfl := Option.some.inj hs
  obtain ⟨q, hq⟩ := h.sound
  obtain ⟨d, hd⟩ := h.valid
  have hstay : ∀ m₁ chal, m₁.sk = s.m.sk → m₁.uq = s.m.uq → (n = .wait m₁ ∨ n = .replace m₁ chal) →
      Reports ws s.m d → Reports ws' m d ∧ ws' = ws ∧ n.pending s.pending = s.pending := by
    intro m₁ chal hsk huq hn' hr
    obtain ⟨hsk', huq', rfl⟩ := follow_stay hf hn'
    refine ⟨⟨(hsk'.trans hsk).trans hr.1, hr.2.1, hr.2.2.trans (huq'.trans huq).symm⟩, rfl, ?_⟩
    rcases hn' with rfl | rfl <;> rfl
  cases handle_some hn with
  | ignored hid =>
    obtain ⟨hr, rfl, hp⟩ := hstay _ Chal.zero rfl rfl (Or.inl rfl) hd
    refine ⟨⟨q, hq⟩, rfl, d, hr, .other (fun fflags he => ?_) hd.1 hp rfl⟩
    rw [hev] at he
    cases he
    exact hid rfl
  | closed hfl =>
    obtain ⟨hsound, e, he, hiq⟩ := restart_sound hq hf
    exact ⟨hsound, rfl, e, he, .restarted hev hfl hiq⟩
  | conn hfl hc hcur =>
    obtain ⟨⟨q', hq'⟩, hkept, hr0⟩ := sendreturn_sound hq (cmd_ne _ _) hcur
    obtain rfl := hr0 (by rw [hd.isvalid]; exact Option.some_ne_none _)
    obtain ⟨hr, rfl, hp⟩ := hstay { s.m with conned := true } Chal.zero rfl rfl
      (Or.inl (by simp)) (hkept.reports hd)
    refine ⟨⟨q', hq'⟩, rfl, d, hr, .socket hev hfl hp ?_⟩
    rw [hd.fits, if_pos hc]
    dsimp only
    rw [(hkept d).2.2]
  | unread hfl hc hrecv hl =>
    obtain ⟨-, hpos, -⟩ := recv_sound hq hd (Option.some.inj hrecv)
    omega
  | read hfl hc hrecv hl hresp =>
    obtain ⟨⟨q', hq'⟩, -, hrep, hiq⟩ := recv_sound hq hd (Option.some.inj hrecv)
    rcases respond_stay hresp with rfl | ⟨m₁, chal, hn', hsk, huq⟩
    · cases hf
    obtain ⟨hr, rfl, hp⟩ := hstay m₁ chal hsk huq hn' hrep
    refine ⟨⟨q', hq'⟩, rfl, d, hr, .socket hev hfl hp ?_⟩
    rw [hd.fits, if_neg (not_not.mpr hc)]
    exact hiq
  | solvr hsol =>
    obtain ⟨⟨q', hq'⟩, hkept, m₁, rfl, hsk, huq⟩ := solution_sound hq hsol
    obtain ⟨hr, rfl, hp⟩ := hstay _ Chal.zero hsk huq (Or.inl rfl) (hkept.reports hd)
    refine ⟨⟨q', hq'⟩, rfl, d, hr, .other (fun fflags he => ?_) hd.1 hp (hkept d).2.2⟩
    rw [hev] at he
    cases he
  | other =>
    obtain ⟨hr, rfl, hp⟩ := hstay _ Chal.zero rfl rfl (Or.inl rfl) hd
    refine ⟨⟨q, hq⟩, rfl, d, hr, .other (fun fflags he => ?_) hd.1 hp rfl⟩
    rw [hev] at he
    cases he

theorem Woken.handle (h : Woken s) (hs : s.step wallet jsmn (.handle ok c) = some t)
    (hg : OneMessage s (.handle ok c)) : Woken t := by
  obtain ⟨hsound, -, d, hd, hleft⟩ := h.handled hs
  refine ⟨hsound, ⟨d, hd⟩, fun _ hp e he => ?_⟩
  obtain rfl := hd.unique he
  cases hleft with
  | restarted _ _ hiq => exact hiq
  | other hev hsk hp' hiq =>
    rw [hiq]
    exact h.woken hev (hp'.symm.trans hp) _ hsk
  | socket hev hf hp' hiq => exact hiq.mpr (hg _ hev hf (hp'.symm.trans hp))

theorem Woken.step (h : Woken s) (hs : s.step wallet jsmn e = some t) (hg : OneMessage s e) :
    Woken t := by
  cases e with
  | callback k rs => exact h.callback hs
  | deliver ev => exact h.deliver hs
  | handle ok c => exact h.handle hs hg

/-- What is behind the message that is read, or behind the connection, stays. -/
theorem Woken.lags (h : Woken s) (hs : s.step wallet jsmn e = some t) (hg : ¬ OneMessage s e) :
    ¬ AllRead t := by
  cases e with
  | handle ok c =>
    obtain ⟨-, hev, d, hd, hleft⟩ := h.handled hs
    simp only [OneMessage, not_forall] at hg
    obtain ⟨fflags, hsock, hfl, hp, hfit⟩ := hg
    intro hall
    cases hleft with
    | restarted hev' hf' hiq =>
      rw [hsock] at hev'
      cases hev'
      exact hf' hfl
    | other hev' => exact hev' fflags hsock
    | socket hev' hf' hp' hiq =>
      rw [hsock] at hev'
      cases hev'
      exact hfit (hiq.mp (hall hev (hp'.trans hp) d hd.1))
  | _ => exact absurd trivial hg

/-- The loop at its first wait, on a socket that was just opened. -/
theorem started_woken (h : Sound ws₀ q)
    (hs : Mine.start (central wallet ok) ws₀ m₀ c = some (m, ws)) :
    Woken { ws := ws, m := m, pending := 0, ev := none } := by
  obtain ⟨hsound, d, hd, hiq⟩ := start_sound h hs
  refine ⟨hsound, ⟨d, hd⟩, fun _ _ e he => ?_⟩
  obtain rfl := hd.unique he
  exact hiq

end Steps

/-- A pass reads one message, and none where the socket was just connected: no
message is left unread exactly in the runs where each pass finds no more than
that, or where more have come since. -/
theorem all_read_iff {wallet : List UInt8} {jsmn : Jsmn} {ok : Bool} {es₀ : List Event}
    {ws₀ ws : State} {m₀ m : Miner} {c : Calls} (hws : Run.exec Ws.step initWs es₀ = some ws₀)
    (hsend : ∀ id, Event.send id [] ∉ es₀)
    (hstart : start (central wallet ok) ws₀ m₀ c = some (m, ws)) (es : List Happening) :
    Always (System.step wallet jsmn) AllRead { ws := ws, m := m, pending := 0, ev := none } es ↔
      Steps (System.step wallet jsmn) OneMessage { ws := ws, m := m, pending := 0, ev := none }
        es := by
  obtain ⟨q, hq⟩ := sound_run hws hsend
  exact always_iff_steps Woken AllRead OneMessage (fun _ _ _ h hs hg => h.step hs hg)
    (fun _ h => h.allRead) (fun _ _ _ h hs hg => h.lags hs hg) (started_woken hq hstart) es

/-- The socket is connected, and a message comes. -/
theorem all_read_message : ∃ m ws,
    start (central [] true) initWs (begun 0 0 fun _ => 0) someCalls = some (m, ws) ∧
      Always (System.step [] responseToks) AllRead { ws := ws, m := m, pending := 0, ev := none }
        [.callback 0 .established, .callback 0 (.receive (challenge '5') 0)] := by
  have hsome : (start (central [] true) initWs (begun 0 0 fun _ => 0) someCalls).isSome := by
    decide +kernel
  obtain ⟨⟨m, ws⟩, hstart⟩ := Option.isSome_iff_exists.mp hsome
  refine ⟨m, ws, hstart,
    (all_read_iff (show Run.exec Ws.step initWs [] = _ from rfl) (by simp) hstart _).mpr ?_⟩
  exact fun t _ => ⟨trivial, fun u _ => ⟨trivial, trivial⟩⟩

/-- Two challenges come before the loop wakes up. -/
def twoArrivals : List Happening :=
  [.callback 0 .established, .deliver (.wsock 0 qnoteConn), .handle true someCalls,
    .callback 0 (.receive (challenge '5') 0), .callback 0 (.receive (challenge '6') 0),
    .deliver (.wsock 0 qnoteRead), .handle true someCalls]

theorem two_arrivals_lag : ∃ m ws,
    start (central [] true) initWs (begun 0 0 fun _ => 0) someCalls = some (m, ws) ∧
      (Run.exec (System.step [] responseToks) { ws := ws, m := m, pending := 0, ev := none }
        twoArrivals).map (fun s => (s.ev.isNone, s.pending, s.m.sk, s.m.mchl.chal.id,
          (s.ws.uconns 0).iq.isSome)) = some (true, 0, 0, 5, true) ∧
      ¬ Always (System.step [] responseToks) AllRead { ws := ws, m := m, pending := 0, ev := none }
        twoArrivals := by
  have hrun : ((start (central [] true) initWs (begun 0 0 fun _ => 0) someCalls).bind fun (m, ws) =>
      (Run.exec (System.step [] responseToks) { ws := ws, m := m, pending := 0, ev := none }
        twoArrivals).map (fun s => (s.ev.isNone, s.pending, s.m.sk, s.m.mchl.chal.id,
          (s.ws.uconns 0).iq.isSome))) = some (true, 0, 0, 5, true) := by decide +kernel
  obtain ⟨⟨m, ws⟩, hstart, hend⟩ := Option.bind_eq_some_iff.mp hrun
  refine ⟨m, ws, hstart, hend, fun h => ?_⟩
  obtain ⟨t, ht, hview⟩ := Option.map_eq_some_iff.mp hend
  obtain ⟨hev, hview⟩ := Prod.mk.inj hview
  obtain ⟨hp, hview⟩ := Prod.mk.inj hview
  obtain ⟨hsk, hview⟩ := Prod.mk.inj hview
  have hiq := h.last ht (Option.isNone_iff_eq_none.mp hev) hp 0 hsk
  rw [hiq] at hview
  exact absurd (Prod.mk.inj hview).2 (by decide)

end Oin17.Mine
