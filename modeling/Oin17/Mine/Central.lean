import Oin17.Mine.Found
import Oin17.Ws.Incoming

namespace Oin17.Ca
open Memory Ws

/-- `SENDRETURN`. -/
def sendreturn (s : State) (sk : Int) (buf : List UInt8) : Option (Int × State) :=
  (wsSend s sk buf).map fun (r, s) => (if (buf.length : Int) ≠ r then -1 else 0, s)

/-- `__sendcmd`, once the command is formatted. -/
def sendcmd (s : State) (sk : Int) (b : List UInt8) : Option (Int × State) :=
  if maxmsglen ≤ b.length then some (-1, s) else sendreturn s sk b

/-- `MAKE_CMDFMT`. -/
def cmd (c a : List UInt8) : List UInt8 :=
  bytes "\x7b\"command\":\"" ++ c ++ bytes "\",\"args\":\x7b" ++ a ++ bytes "\x7d\x7d"

def curchalCmd : List UInt8 := cmd (bytes "get_current_challenge") []

def submitCmd (wallet : List UInt8) (non : UInt64) : List UInt8 :=
  cmd (bytes "submission") (bytes "\"wallet_id\":\"" ++ wallet ++ bytes "\",\"nonce\":" ++
    bytes non.toNat.repr)

def caCurchal (s : State) (sk : Int) : Option (Int × State) := sendreturn s sk curchalCmd

def caSubmit (wallet : List UInt8) (s : State) (sk : Int) (non : UInt64) : Option (Int × State) :=
  sendcmd s sk (submitCmd wallet non)

/-- The message is copied into `b`. -/
def caRecv (s : State) (sk : Int) (b : Buf) (len : Nat) : Int × Buf × State :=
  let r := wsRecv s sk len
  (r.r, store b 0 r.buf, r.state)

/-- `ok` tells whether libwebsockets gives a connection. -/
def caConnect (s : State) (uq : Int) (ok : Bool) : Int × State := wsConnect s uq ok

def caClose (s : State) (sk : Int) : State := wsClose s sk

end Oin17.Ca

namespace Oin17.Mine
open Ca Chals Memory Run Ws

/-- The central authority behind the connections. `ok` tells whether
libwebsockets gives one. -/
def central (wallet : List UInt8) (ok : Bool) : Authority State where
  connect s uq := some (caConnect s uq ok)
  close s sk := some (caClose s sk)
  curchal := caCurchal
  submit := caSubmit wallet
  recv s sk b := some (caRecv s sk b maxmsglen)

/-- What the calls of `mine` leave as it is. -/
structure Authority.Keeps {ω : Type} (ca : Authority ω) (I : ω → Prop) : Prop where
  connect : I w → ca.connect w uq = some (r, v) → I v
  close : I w → ca.close w sk = some v → I v
  curchal : I w → ca.curchal w sk = some (r, v) → I v
  submit : I w → ca.submit w sk n = some (r, v) → I v
  recv : I w → ca.recv w sk b = some (r, b', v) → I v

section Calls
variable {ω : Type} {ca : Authority ω} {I : ω → Prop} {jsmn : Jsmn} {w v : ω} {m m' : Miner}

theorem Authority.Keeps.start (h : ca.Keeps I) (hw : I w)
    (hs : start ca w m c = some (m', v)) : I v := by
  obtain ⟨⟨sk, u⟩, hu, hs⟩ := Option.bind_eq_some_iff.mp hs
  dsimp only at hs
  split at hs
  · cases hs
  · obtain ⟨-, rfl⟩ := Prod.mk.inj (Option.some.inj hs)
    exact h.connect hw hu

theorem Authority.Keeps.follow (h : ca.Keeps I) (hw : I w)
    (hs : follow ca w c n = some (m', v)) : I v := by
  cases n with
  | wait m =>
    obtain ⟨-, rfl⟩ := Prod.mk.inj (Option.some.inj hs)
    exact hw
  | restart m =>
    obtain ⟨u, hu, hs⟩ := Option.bind_eq_some_iff.mp hs
    exact h.start (h.close hw hu) hs
  | replace m chal =>
    obtain ⟨⟨r, g⟩, -, hs⟩ := Option.bind_eq_some_iff.mp hs
    dsimp only at hs
    split at hs
    · cases hs
    · obtain ⟨-, rfl⟩ := Prod.mk.inj (Option.some.inj hs)
      exact hw
  | quit => cases hs

theorem Authority.Keeps.solution (h : ca.Keeps I) (hw : I w)
    (hs : solution ca w m ident data = some (n, v)) : I v := by
  unfold Mine.solution at hs
  split at hs
  · obtain ⟨-, rfl⟩ := Prod.mk.inj (Option.some.inj hs)
    exact hw
  split at hs
  · obtain ⟨-, rfl⟩ := Prod.mk.inj (Option.some.inj hs)
    exact hw
  dsimp only at hs
  split at hs
  · obtain ⟨⟨r, u⟩, hr, hs⟩ := Option.map_eq_some_iff.mp hs
    obtain ⟨⟨x, u⟩, hx, hr⟩ := Option.map_eq_some_iff.mp hr
    obtain ⟨-, rfl⟩ := Prod.mk.inj hr
    obtain ⟨-, rfl⟩ := Prod.mk.inj hs
    exact h.submit hw hx
  · obtain ⟨-, rfl⟩ := Prod.mk.inj (Option.some.inj hs)
    exact hw

theorem Authority.Keeps.handle (h : ca.Keeps I) (hw : I w)
    (hs : handle ca jsmn w m c ev = some (n, v)) : I v := by
  cases handle_some hs with
  | ignored | closed | other => exact hw
  | conn _ _ hq => exact h.curchal hw hq
  | unread _ _ hr _ | read _ _ hr _ _ => exact h.recv hw hr
  | solvr hs => exact h.solution hw hs

theorem Crew.main_keeps {s s' : Crew ω} (h : ca.Keeps I) (hw : I s.w)
    (hs : s.main ca jsmn ev c = some s') : I s'.w := by
  unfold Crew.main at hs
  split at hs
  swap
  · cases hs
  obtain ⟨⟨n, u⟩, hn, hs⟩ := Option.bind_eq_some_iff.mp hs
  have hu := h.handle hw hn
  have hfollow : (Mine.follow ca u c n).map (fun r => { s with w := r.2, m := r.1 }) = some s' →
      I s'.w := by
    intro hs
    obtain ⟨⟨m', v⟩, hf, rfl⟩ := Option.map_eq_some_iff.mp hs
    exact h.follow hu hf
  cases n with
  | wait m | restart m | quit => exact hfollow hs
  | replace m chal =>
    obtain rfl := Option.some.inj hs
    exact hu

theorem Crew.work_miner {s s' : Crew ω} (hs : s.work t a = some s') : s'.m = s.m ∧ s'.w = s.w := by
  unfold Crew.work at hs
  split at hs
  · cases hs
    exact ⟨rfl, rfl⟩
  · split at hs
    · cases hs
    · split at hs
      · cases hs
        exact ⟨rfl, rfl⟩
      · cases hs
  · cases hs
    exact ⟨rfl, rfl⟩
  · cases hs
    exact ⟨rfl, rfl⟩
  · cases hs
    exact ⟨rfl, rfl⟩
  · cases hs
    exact ⟨rfl, rfl⟩
  · cases hs

/-- Only a pass of the loop of `mine` calls the authority. -/
theorem Crew.step_keeps {s s' : Crew ω} (h : ca.Keeps I) (hw : I s.w)
    (hs : s.step ca jsmn a = some s') : I s'.w := by
  unfold Crew.step at hs
  split at hs
  · exact Crew.main_keeps h hw hs
  · unfold Crew.drop at hs
    split at hs
    · split at hs <;> exact Option.some.inj hs ▸ hw
    · split at hs
      · exact Option.some.inj hs ▸ hw
      · cases hs
  · unfold Crew.stopped at hs
    split at hs
    · cases hs
    · exact Option.some.inj hs ▸ hw
  · unfold Crew.start at hs
    split at hs
    · obtain ⟨g, -, hs⟩ := Option.bind_eq_some_iff.mp hs
      split at hs
      · split at hs
        · cases hs
        · exact Option.some.inj hs ▸ hw
      · split at hs
        · cases hs
        · exact Option.some.inj hs ▸ hw
    · exact Option.some.inj hs ▸ hw
  · unfold Crew.started at hs
    split at hs
    · exact Option.some.inj hs ▸ hw
    · cases hs
  · rw [(Crew.work_miner hs).2]
    exact hw
  · cases hs

end Calls

/-- An authority that notes the nonces `ca_submit` is called with, and whether it succeeds. -/
def Authority.noted {ω : Type} (ca : Authority ω) : Authority (ω × List (UInt64 × Bool)) where
  connect s uq := (ca.connect s.1 uq).map fun (r, w) => (r, w, s.2)
  close s sk := (ca.close s.1 sk).map fun w => (w, s.2)
  curchal s sk := (ca.curchal s.1 sk).map fun (r, w) => (r, w, s.2)
  submit s sk n := (ca.submit s.1 sk n).map fun (r, w) => (r, w, s.2 ++ [(n, decide (r = 0))])
  recv s sk b := (ca.recv s.1 sk b).map fun (r, b, w) => (r, b, w, s.2)

def Mark.nonce : Mark → Option (UInt64 × Bool)
  | .reset => none
  | .submit _ n ok => some (n, ok)

/-- The log has the calls of `ca_submit`. -/
def Logged {ω : Type} (m : Miner) (s : ω × List (UInt64 × Bool)) : Prop := m.log.filterMap Mark.nonce = s.2

/-- How `mine` goes on, it does with such a log. -/
def Next.Logged {ω : Type} (s : ω × List (UInt64 × Bool)) : Next → Prop
  | .wait m | .restart m | .replace m _ => Mine.Logged m s
  | .quit => True

section Log
variable {ω : Type} {ca : Authority ω} {jsmn : Jsmn} {w v : ω × List (UInt64 × Bool)} {m m' : Miner} {c : Calls}

theorem Logged.reset (h : m.log.filterMap Mark.nonce = l) :
    (m.log ++ [Mark.reset]).filterMap Mark.nonce = l := by
  rw [List.filterMap_append]
  exact (List.append_nil _).trans h

theorem Logged.solution (h : Logged m w)
    (hs : solution ca.noted w m ident data = some (.wait m', v)) : Logged m' v := by
  unfold Mine.solution at hs
  split at hs
  · cases hs
    exact h
  split at hs
  · cases hs
    exact h
  dsimp only at hs
  split at hs
  · obtain ⟨⟨r, u⟩, hr, hs⟩ := Option.map_eq_some_iff.mp hs
    obtain ⟨⟨x, u⟩, hx, hr⟩ := Option.map_eq_some_iff.mp hr
    obtain ⟨⟨y, u⟩, -, hy⟩ := Option.map_eq_some_iff.mp hx
    cases hy
    cases hr
    cases hs
    have hlog : m.log.filterMap Mark.nonce = w.2 := h
    simp [Logged, Mark.nonce, hlog]
  · cases hs
    exact h

theorem Logged.start (h : Logged m w) (hs : start ca.noted w m c = some (m', v)) :
    Logged m' v := by
  obtain ⟨⟨sk, u⟩, hu, hs⟩ := Option.bind_eq_some_iff.mp hs
  obtain ⟨⟨r, x⟩, -, hx⟩ := Option.map_eq_some_iff.mp hu
  cases hx
  dsimp only at hs
  split at hs
  · cases hs
  · cases hs
    exact h

theorem Logged.handle (h : Logged m w) (hs : handle ca.noted jsmn w m c ev = some (n, v)) :
    n.Logged v := by
  cases handle_some hs with
  | ignored | closed | other => exact h
  | conn _ _ hq =>
    obtain ⟨⟨r, u⟩, -, hu⟩ := Option.map_eq_some_iff.mp hq
    cases hu
    split <;> exact h
  | unread _ _ hr _ =>
    obtain ⟨⟨r, b, u⟩, -, hu⟩ := Option.map_eq_some_iff.mp hr
    cases hu
    exact h
  | read _ _ hr _ hn =>
    obtain ⟨⟨r, b, u⟩, -, hu⟩ := Option.map_eq_some_iff.mp hr
    cases hu
    rcases respond_some hn with rfl | rfl | ⟨chal, rfl⟩ | rfl
    · exact h
    · trivial
    · exact h
    · exact Logged.reset h
  | solvr hs =>
    obtain ⟨m', rfl, -⟩ := solution_some hs
    exact h.solution hs

theorem Logged.follow (h : Logged m w) (hf : follow ca.noted w c (.restart m) = some (m', v)) :
    Logged m' v := by
  obtain ⟨u, hu, hf⟩ := Option.bind_eq_some_iff.mp hf
  obtain ⟨x, -, rfl⟩ := Option.map_eq_some_iff.mp hu
  have hx : Logged m (x, w.2) := h
  exact hx.start hf

variable {s s' : Crew (ω × List (UInt64 × Bool))}

theorem Logged.step (h : Logged s.m s.w) (hs : s.step ca.noted jsmn a = some s') :
    Logged s'.m s'.w := by
  unfold Crew.step at hs
  split at hs
  · unfold Crew.main at hs
    split at hs
    swap
    · cases hs
    obtain ⟨⟨n, u⟩, hn, hs⟩ := Option.bind_eq_some_iff.mp hs
    have hlog := h.handle hn
    cases n with
    | wait m =>
      cases hs
      exact hlog
    | restart m =>
      obtain ⟨⟨m', v⟩, hf, rfl⟩ := Option.map_eq_some_iff.mp hs
      exact Logged.follow hlog hf
    | replace m chal =>
      cases hs
      exact hlog
    | quit => cases hs
  · unfold Crew.drop at hs
    split at hs
    · split at hs
      · cases hs
        exact h
      · cases hs
        exact (congrArg (List.filterMap Mark.nonce) (dropSlv_frame _ _).1).trans h
    · split at hs
      · cases hs
        exact h
      · cases hs
  · unfold Crew.stopped at hs
    split at hs
    · cases hs
    · cases hs
      exact (congrArg (List.filterMap Mark.nonce) (dropSlv_frame _ _).1).trans h
  · unfold Crew.start at hs
    split at hs
    · obtain ⟨g, hg, hs⟩ := Option.bind_eq_some_iff.mp hs
      have hlog : g.log.filterMap Mark.nonce = s.w.2 := by
        rw [(solverStart_frame hg).2.1]
        exact Logged.reset h
      split at hs
      · split at hs
        · cases hs
        · cases hs
          exact hlog
      · split at hs
        · cases hs
        · cases hs
          exact hlog
    · cases hs
      exact h
  · unfold Crew.started at hs
    split at hs
    · cases hs
      exact h
    · cases hs
  · obtain ⟨hm, hw⟩ := Crew.work_miner hs
    rw [hm, hw]
    exact h
  · cases hs

/-- What the log has is what `ca_submit` is called with, in every run. -/
theorem log_submits (ca : Authority ω) (jsmn : Jsmn) (w : ω) (uq sk : Int) (b : Buf)
    (busy : Nat → Bool) (as : List Act) :
    Always (Crew.step ca.noted jsmn) (fun s => Logged s.m s.w)
      (Crew.init (w, []) (begun uq sk b) busy) as := by
  have hinit : Logged (begun uq sk b) (w, []) := rfl
  apply always_inv (fun s : Crew (ω × List (UInt64 × Bool)) => Logged s.m s.w)
  · exact fun _ _ _ h hs => Logged.step h hs
  · exact fun _ h => h
  · exact hinit

end Log

section Queued
variable {P : List UInt8 → Prop} {s t : State} {wallet : List UInt8} {ok : Bool}

theorem cmd_ne (c a : List UInt8) : cmd c a ≠ [] :=
  List.append_ne_nil_of_right_ne_nil _ (by decide)

theorem sendreturn_holding (h : Holding P s) (hne : buf ≠ [])
    (hs : sendreturn s sk buf = some (r, t)) : Holding P t := by
  obtain ⟨⟨n, u⟩, hu, hs⟩ := Option.map_eq_some_iff.mp hs
  obtain ⟨-, rfl⟩ := Prod.mk.inj hs
  exact h.step (e := .send sk buf) (Option.map_eq_some_iff.mpr ⟨_, hu, rfl⟩)
    (fun he => absurd he hne) trivial

/-- The calls do not touch what waits to be read, but for what they read. -/
theorem central_holding : (central wallet ok).Keeps (Holding P) where
  connect {w uq r v} h hs := by
    obtain ⟨-, rfl⟩ := Prod.mk.inj (Option.some.inj hs)
    exact h.step (e := .connect uq ok) rfl trivial trivial
  close {w sk v} h hs := by
    obtain rfl := Option.some.inj hs
    exact h.step (e := .close sk) rfl trivial trivial
  curchal h hs := sendreturn_holding h (cmd_ne _ _) hs
  submit {w sk n r v} h hs := by
    have hs : caSubmit wallet w sk n = some (r, v) := hs
    unfold caSubmit sendcmd at hs
    split at hs
    · obtain ⟨-, rfl⟩ := Prod.mk.inj (Option.some.inj hs)
      exact h
    · exact sendreturn_holding h (cmd_ne _ _) hs
  recv {w sk b r b' v} h hs := by
    have hv : v = (wsRecv w sk maxmsglen).state :=
      ((Prod.mk.inj (Prod.mk.inj (Option.some.inj hs)).2).2).symm
    rw [hv]
    exact h.step (e := .recv sk maxmsglen) rfl trivial trivial

end Queued

end Oin17.Mine
