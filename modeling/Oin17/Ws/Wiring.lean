import Oin17.Ws.Model

namespace Oin17.Ws
open Links Loop Memory

/-- The uconns and the connections of libwebsockets point at each other. -/
structure Wired (s : State) : Prop where
  live : ∀ h w, s.wsis h = some w → (s.uconns w.user).ws = some h
  conn : ∀ c h, (s.uconns c).ws = some h → ∃ w, s.wsis h = some w ∧ w.user = c
  fresh : ∀ h, s.nwsis ≤ h → s.wsis h = none

/-- Every message fits the buffers it is popped into. -/
def Bounded (p : Pool) : Prop := ∀ m, (p.mbufs m).len ≤ maxmsglen

theorem wired_init : Wired initWs :=
  ⟨by simp [initWs], by simp [initWs], by simp [initWs]⟩

theorem bounded_init : Bounded initWs.pool := by
  intro m
  exact Nat.zero_le _

section Frame
variable {s t : State}

@[simp] theorem updConn_wsis (c : Conn) (f : Uconn → Uconn) : (s.updConn c f).wsis = s.wsis := rfl
@[simp] theorem updConn_pool (c : Conn) (f : Uconn → Uconn) : (s.updConn c f).pool = s.pool := rfl
@[simp] theorem updWsi_uconns (h : Nat) (f : Wsi → Wsi) : (s.updWsi h f).uconns = s.uconns := rfl
@[simp] theorem updWsi_pool (h : Nat) (f : Wsi → Wsi) : (s.updWsi h f).pool = s.pool := rfl

theorem updConn_self (c : Conn) (f : Uconn → Uconn) : (s.updConn c f).uconns c = f (s.uconns c) :=
  Function.update_self ..

theorem updConn_ne {c d : Conn} (hd : d ≠ c) (f : Uconn → Uconn) :
    (s.updConn c f).uconns d = s.uconns d :=
  Function.update_of_ne hd ..

/-- What the update keeps of a uconn. -/
theorem updConn_keep {α : Type} {f : Uconn → Uconn} (g : Uconn → α) (hf : ∀ uc, g (f uc) = g uc)
    (c d : Conn) : g ((s.updConn c f).uconns d) = g (s.uconns d) := by
  by_cases hd : d = c
  · rw [hd, updConn_self, hf]
  · rw [updConn_ne hd]

theorem updWsi_self (h : Nat) (f : Wsi → Wsi) : (s.updWsi h f).wsis h = (s.wsis h).map f :=
  Function.update_self ..

theorem updWsi_ne {h k : Nat} (hk : k ≠ h) (f : Wsi → Wsi) : (s.updWsi h f).wsis k = s.wsis k :=
  Function.update_of_ne hk ..

theorem updWsi_some {h k : Nat} {f : Wsi → Wsi} (hw : (s.updWsi h f).wsis k = some w) :
    ∃ v, s.wsis k = some v ∧ w = if k = h then f v else v := by
  by_cases hk : k = h
  · subst hk
    rw [updWsi_self, Option.map_eq_some_iff] at hw
    obtain ⟨v, hv, rfl⟩ := hw
    exact ⟨v, hv, by simp⟩
  · rw [updWsi_ne hk] at hw
    exact ⟨w, hw, by simp [hk]⟩

/-- Wiring is about the pointers alone. -/
theorem Wired.congr (h : Wired s) (hc : ∀ c, (t.uconns c).ws = (s.uconns c).ws)
    (hw : ∀ k, (t.wsis k).map Wsi.user = (s.wsis k).map Wsi.user) (hn : t.nwsis = s.nwsis) :
    Wired t := by
  have hback : ∀ {a b : State}, (∀ k, (a.wsis k).map Wsi.user = (b.wsis k).map Wsi.user) →
      ∀ {k w}, a.wsis k = some w → ∃ v, b.wsis k = some v ∧ v.user = w.user := by
    intro a b hab k w hk
    have := hab k
    rw [hk, Option.map_some, eq_comm, Option.map_eq_some_iff] at this
    exact this
  refine ⟨fun k w hk => ?_, fun c k hk => ?_, fun k hk => ?_⟩
  · obtain ⟨v, hv, hu⟩ := hback hw hk
    rw [hc, ← hu]
    exact h.live k v hv
  · rw [hc] at hk
    obtain ⟨v, hv, rfl⟩ := h.conn c k hk
    obtain ⟨w, hw', hu⟩ := hback (fun k => (hw k).symm) hv
    exact ⟨w, hw', hu⟩
  · have := hw k
    rw [h.fresh k (hn ▸ hk)] at this
    simpa using this

theorem Wired.updConn (h : Wired s) {f : Uconn → Uconn} (hf : ∀ uc, (f uc).ws = uc.ws) (c : Conn) :
    Wired (s.updConn c f) :=
  h.congr (updConn_keep Uconn.ws hf c) (fun _ => rfl) rfl

theorem Wired.setPool (h : Wired s) (p : Pool) : Wired { s with pool := p } :=
  h.congr (fun _ => rfl) (fun _ => rfl) rfl

theorem Wired.trigger (h : Wired s) (e : Trigger) : Wired (s.trigger e) :=
  h.congr (fun _ => rfl) (fun _ => rfl) rfl

theorem Wired.updWsi (h : Wired s) {f : Wsi → Wsi} (hf : ∀ w, (f w).user = w.user) (k : Nat) :
    Wired (s.updWsi k f) := by
  refine h.congr (fun _ => rfl) (fun j => ?_) rfl
  by_cases hj : j = k
  · subst hj
    rw [updWsi_self]
    cases s.wsis j <;> simp [hf]
  · rw [updWsi_ne hj]

end Frame

section Calls
variable {s t : State} {id : Int}

theorem uconnIsvalid_some (h : uconnIsvalid s id = some c) : (s.uconns c).id = id ∧ id = c.val := by
  unfold uconnIsvalid at h
  split at h
  · next hid =>
    simp only at h
    split at h
    · next he =>
      obtain rfl := Option.some.inj h
      exact ⟨he, by simp; omega⟩
    · cases h
  · cases h

theorem uconnIsvalid_self (h : (s.uconns c).id = c.val) : uconnIsvalid s c.val = some c := by
  have hlt : (c.val : Int) < 16 := by exact_mod_cast c.isLt
  simp [uconnIsvalid, h, hlt]

/-- What `ws_send` does when it accepts the message. -/
theorem wsSend_some (h : wsSend s id buf = some (r, t)) :
    uconnIsvalid s id = none ∧ t = s ∨
      ∃ c m p₁ oq p₂ k w, uconnIsvalid s id = some c ∧ mbuf s.pool buf = some (m, p₁) ∧
        mbufq p₁ (s.uconns c).oq m = some (oq, p₂) ∧ (s.uconns c).ws = some k ∧ s.wsis k = some w ∧
        t = ({ s with pool := p₂ }.updConn c fun uc =>
            { uc with oq := oq, st := uc.st ||| sSendreq }).updWsi k Wsi.request := by
  unfold wsSend at h
  cases hv : uconnIsvalid s id with
  | none =>
    simp only [hv, Option.some.injEq, Prod.mk.injEq] at h
    exact Or.inl ⟨rfl, h.2.symm⟩
  | some c =>
    simp only [hv, Option.bind_eq_bind, Option.bind_eq_some_iff] at h
    obtain ⟨⟨m, p₁⟩, hm, ⟨oq, p₂⟩, hq, s', hs', h⟩ := h
    unfold callbackOnWritable at hs'
    simp only [Option.bind_eq_bind, Option.bind_eq_some_iff] at hs'
    obtain ⟨k, hk, w, hw, hs'⟩ := hs'
    rw [updConn_self] at hk
    obtain rfl := Option.some.inj hs'
    obtain ⟨-, rfl⟩ := Prod.mk.inj (Option.some.inj h)
    exact Or.inr ⟨c, m, p₁, oq, p₂, k, w, rfl, hm, hq, hk, hw, rfl⟩

theorem wsSend_result (h : wsSend s id buf = some (r, t)) (hv : uconnIsvalid s id ≠ none) :
    r = buf.length := by
  obtain ⟨c, hc⟩ := Option.ne_none_iff_exists'.mp hv
  unfold wsSend at h
  simp only [hc, Option.bind_eq_bind, Option.bind_eq_some_iff] at h
  obtain ⟨_, -, _, -, _, -, h⟩ := h
  exact (Prod.mk.inj (Option.some.inj h)).1.symm

/-- What `recvfrag` does with a fragment: it is refused, kept, or the last one. -/
theorem recvfrag_some (h : recvfrag s c buf n = some (r, t)) :
    r = -1 ∧ t = s ∨
      n ≠ 0 ∧ r = 0 ∧ t = s.updConn c (fun uc => uc.append buf) ∨
      n = 0 ∧ r = 0 ∧ ∃ m p₁ iq p₂, mbuf s.pool ((s.uconns c).append buf).message = some (m, p₁) ∧
        mbufq p₁ (s.uconns c).iq m = some (iq, p₂) ∧
        t = reportread ({ s with pool := p₂ }.updConn c fun uc => { uc.append buf with
          fb := Function.update (uc.append buf).fb (uc.append buf).fo 0, iq := iq, fo := 0 }) c := by
  unfold recvfrag at h
  split at h
  · obtain ⟨rfl, rfl⟩ := Prod.mk.inj (Option.some.inj h)
    exact Or.inl ⟨rfl, rfl⟩
  split at h
  · cases h
  simp only at h
  split at h
  · next hn =>
    obtain ⟨rfl, rfl⟩ := Prod.mk.inj (Option.some.inj h)
    exact Or.inr (Or.inl ⟨hn, rfl, rfl⟩)
  · next hn =>
    obtain ⟨u, hu, h⟩ := Option.map_eq_some_iff.mp h
    obtain ⟨rfl, rfl⟩ := Prod.mk.inj h
    unfold queueFrags at hu
    simp only [Option.bind_eq_bind, Option.bind_eq_some_iff, updConn_self] at hu
    obtain ⟨⟨m, p₁⟩, hm, ⟨iq, p₂⟩, hq, hu⟩ := hu
    obtain rfl := Option.some.inj hu
    refine Or.inr (Or.inr ⟨by omega, rfl, m, p₁, iq, p₂, hm, hq, ?_⟩)
    simp only [State.updConn, Function.update_self, Function.update_idem]

/-- A fragment of a message that fits the buffer is not refused. -/
theorem recvfrag_fits (h : (s.uconns c).fo + buf.length + n ≤ maxmsglen) :
    recvfrag s c buf n = if n ≠ 0 then some (0, s.updConn c fun uc => uc.append buf)
      else (queueFrags (s.updConn c fun uc => uc.append buf) c).map
        fun s => (0, reportread s c) := by
  unfold maxmsglen at h
  unfold recvfrag maxmsglen
  rw [if_neg (by omega), if_neg (by omega)]

theorem recvfrag_accepts (h : (s.uconns c).fo + buf.length + n ≤ maxmsglen)
    (hs : recvfrag s c buf n = some (r, t)) : r = 0 := by
  rw [recvfrag_fits h] at hs
  split at hs
  · exact (Prod.mk.inj (Option.some.inj hs)).1.symm
  · obtain ⟨u, -, hu⟩ := Option.map_eq_some_iff.mp hs
    exact (Prod.mk.inj hu).1.symm

theorem relayca_cases (s : State) (c : Conn) (n : Int) :
    (relayca s c n).2 = s ∨
      (relayca s c n).2 = { s with pool := (mbufp s.pool (s.uconns c).oq 1024).pool }.updConn c
        fun uc => { uc with oq := (mbufp s.pool (s.uconns c).oq 1024).mb } := by
  unfold relayca
  simp only
  split
  · exact Or.inl rfl
  · split
    · exact Or.inr rfl
    · exact Or.inr rfl

/-- A callback finds its connection and hands the state to the handler. -/
theorem callback_some (h : callback s k rs = some t) :
    ∃ w r s', s.wsis k = some w ∧ rs.Enabled w ∧
      lwsHandler (s.updWsi k fun w => rs.enter w) k w.user rs = some (r, s') ∧
      t = leave s' k rs r := by
  unfold callback at h
  simp only [Option.bind_eq_bind, Option.bind_eq_some_iff] at h
  obtain ⟨w, hw, h⟩ := h
  split at h
  · next hen =>
    obtain ⟨⟨r, s'⟩, hs', h⟩ := Option.bind_eq_some_iff.mp h
    exact ⟨w, r, s', hw, hen, hs', (Option.some.inj h).symm⟩
  · cases h

theorem callbackOnWritable_some (h : callbackOnWritable s ws = some t) :
    ∃ k w, ws = some k ∧ s.wsis k = some w ∧ t = s.updWsi k Wsi.request := by
  unfold callbackOnWritable at h
  simp only [Option.bind_eq_bind, Option.bind_eq_some_iff] at h
  obtain ⟨k, hk, w, hw, h⟩ := h
  exact ⟨k, w, hk, hw, (Option.some.inj h).symm⟩

theorem requestDeferred_some (h : requestDeferred s k c = some t) :
    (s.uconns c).st &&& sSendreq = 0 ∧ t = s ∨
      ∃ w, (s.uconns c).st &&& sSendreq ≠ 0 ∧ s.wsis k = some w ∧
        t = (s.updWsi k Wsi.request).updConn c fun uc =>
          { uc with st := uc.st - (uc.st &&& sSendreq) } := by
  unfold requestDeferred at h
  split at h
  · next hst =>
    obtain ⟨u, hu, rfl⟩ := Option.map_eq_some_iff.mp h
    obtain ⟨j, w, hj, hw, rfl⟩ := callbackOnWritable_some hu
    obtain rfl := Option.some.inj hj
    exact Or.inr ⟨w, hst, hw, rfl⟩
  · next hst => exact Or.inl ⟨not_not.mp hst, (Option.some.inj h).symm⟩

/-- An event that tells something of a uconn. -/
def Trigger.Of (e : Trigger) (uc : Uconn) : Prop :=
  e.uq = uc.uq ∧ e.ident = uc.id ∧ e.fflags ≠ 0

/-- What the handler of a callback makes of the state. -/
inductive Handled (s : State) (k : Nat) (c : Conn) : Reason → State → Prop where
  | same : Handled s k c rs s
  | reported (he : e.Of (s.uconns c)) : Handled s k c rs (s.trigger e)
  | requested (he : e.Of (s.uconns c)) : Handled s k c .established
      (((s.updWsi k Wsi.request).updConn c fun uc =>
        { uc with st := uc.st - (uc.st &&& sSendreq) }).trigger e)
  | appended : Handled s k c (.receive buf n) (s.updConn c fun uc => uc.append buf)
  | queued (hm : mbuf s.pool ((s.uconns c).append buf).message = some (m, p₁))
      (hq : mbufq p₁ (s.uconns c).iq m = some (iq, p₂)) (he : e.Of (s.uconns c)) :
      Handled s k c (.receive buf n) (({ s with pool := p₂ }.updConn c fun uc =>
        { uc.append buf with
          fb := Function.update (uc.append buf).fb (uc.append buf).fo 0
          iq := iq
          fo := 0 }).trigger e)
  | relayed : Handled s k c (.writeable n)
      ({ s with pool := (mbufp s.pool (s.uconns c).oq 1024).pool }.updConn c fun uc =>
        { uc with oq := (mbufp s.pool (s.uconns c).oq 1024).mb })
  | destroyed (h₁ : flush s.pool (s.uconns c).iq = some (iq₁, p₁))
      (h₂ : flush p₁ iq₁ = some (iq₂, p₂)) : Handled s k c .wsiDestroy
        ({ s with pool := p₂ }.updConn c fun uc => { uc with iq := iq₂, ws := none })

theorem handler_cases (hs : lwsHandler s k c rs = some (r, t)) : Handled s k c rs t := by
  cases rs with
  | connectionError | closed =>
    obtain ⟨-, rfl⟩ := Prod.mk.inj (Option.some.inj hs)
    exact .reported ⟨rfl, rfl, by simp [qnoteClosed]⟩
  | established =>
    obtain ⟨s', hs', hs⟩ := Option.map_eq_some_iff.mp hs
    obtain ⟨-, rfl⟩ := Prod.mk.inj hs
    rcases requestDeferred_some hs' with ⟨-, rfl⟩ | ⟨w, -, -, rfl⟩
    · exact .reported ⟨rfl, rfl, by simp [qnoteConn]⟩
    · exact .requested ⟨by rw [updConn_self]; rfl, by rw [updConn_self]; rfl, by simp [qnoteConn]⟩
  | receive buf n =>
    rcases recvfrag_some hs with ⟨-, rfl⟩ | ⟨-, -, rfl⟩ | ⟨-, -, m, p₁, iq, p₂, hm, hq, rfl⟩
    · exact .same
    · exact .appended
    · exact .queued hm hq ⟨by rw [updConn_self]; rfl, by rw [updConn_self]; rfl,
        by simp [qnoteRead]⟩
  | writeable n =>
    obtain rfl : t = (relayca s c n).2 := (congrArg Prod.snd (Option.some.inj hs)).symm
    rcases relayca_cases s c n with he | he <;> rw [he]
    · exact .same
    · exact .relayed
  | wsiDestroy =>
    simp only [lwsHandler, Option.bind_eq_bind, Option.bind_eq_some_iff] at hs
    obtain ⟨⟨iq₁, p₁⟩, h₁, ⟨iq₂, p₂⟩, h₂, hs⟩ := hs
    obtain ⟨-, rfl⟩ := Prod.mk.inj (Option.some.inj hs)
    exact .destroyed h₁ h₂
  | peerInitiatedClose =>
    obtain ⟨-, rfl⟩ := Prod.mk.inj (Option.some.inj hs)
    exact .same

end Calls

section Wiring
variable {s t : State} {id : Int} {c : Conn}

theorem request_user (w : Wsi) : w.request.user = w.user := by
  unfold Wsi.request
  split <;> rfl

theorem enter_user (rs : Reason) (w : Wsi) : (rs.enter w).user = w.user := by
  cases rs <;> rfl

theorem newuconn_some (h : newuconn s uq = some (c, t)) :
    (s.uconns c).ws = none ∧ t = s.updConn c fun uc => uc.take c uq := by
  unfold newuconn at h
  split at h
  · cases h
  · next d hd =>
    obtain ⟨rfl, rfl⟩ := Prod.mk.inj (Option.some.inj h)
    have hfree := List.find?_some hd
    simp only [Bool.and_eq_true, Option.isNone_iff_eq_none] at hfree
    exact ⟨hfree.1, rfl⟩

/-- `ws_connect` changes nothing, or only a uconn without a connection. -/
theorem wsConnect_cases (s : State) (uq : Int) (ok : Bool) :
    (wsConnect s uq ok).2 = s ∨ ∃ c, (s.uconns c).ws = none ∧
      ((wsConnect s uq ok).2 = deluconn (s.updConn c fun uc => uc.take c uq) c ∨
        (wsConnect s uq ok).2 = (s.updConn c fun uc => uc.take c uq).openWsi c) := by
  unfold wsConnect
  split
  · exact Or.inl rfl
  · next c s' hc =>
    obtain ⟨hfree, rfl⟩ := newuconn_some hc
    refine Or.inr ⟨c, hfree, ?_⟩
    cases ok
    · exact Or.inl rfl
    · exact Or.inr rfl

/-- A connection that `ws_connect` gives is on a uconn that had none. -/
theorem wsConnect_some (h : 0 ≤ (wsConnect s uq ok).1) :
    ∃ c, (s.uconns c).ws = none ∧
      wsConnect s uq ok = ((c.val : Int), (s.updConn c fun uc => uc.take c uq).openWsi c) := by
  have hneg : ¬ (0 : Int) ≤ -1 := by decide
  unfold wsConnect at h ⊢
  split at h
  · exact absurd h hneg
  · next c s' hc =>
    obtain ⟨hfree, rfl⟩ := newuconn_some hc
    cases ok
    · exact absurd h hneg
    · exact ⟨c, hfree, by simp⟩

theorem openWsi_some (h : (s.openWsi c).wsis k = some w) :
    w = { user := c, phase := .connecting, pending := false } ∨
      k ≠ s.nwsis ∧ s.wsis k = some w := by
  by_cases hk : k = s.nwsis
  · subst hk
    simp only [State.openWsi, Function.update_self, Option.some.injEq] at h
    exact Or.inl h.symm
  · simp only [State.openWsi, Function.update_of_ne hk] at h
    exact Or.inr ⟨hk, h⟩

theorem openWsi_uconns (s : State) (c : Conn) :
    (s.openWsi c).uconns = (s.updConn c fun uc => { uc with ws := some s.nwsis }).uconns := rfl

theorem Wired.user_live (h : Wired s) (hw : s.wsis k = some w) (hc : (s.uconns c).ws = none) :
    w.user ≠ c := by
  rintro rfl
  rw [h.live k w hw] at hc
  cases hc

/-- Two connections are of two uconns. -/
theorem Wired.user_ne (h : Wired s) (hk : s.wsis k = some w) (hj : s.wsis j = some v)
    (hjk : j ≠ k) : v.user ≠ w.user := by
  intro he
  have := h.live j v hj
  rw [he, h.live k w hk] at this
  exact hjk (Option.some.inj this).symm

theorem Wired.take (h : Wired s) (hc : (s.uconns c).ws = none) (uq : Int) :
    Wired (s.updConn c fun uc => uc.take c uq) := by
  refine h.congr (fun d => ?_) (fun _ => rfl) rfl
  by_cases hd : d = c
  · rw [hd, updConn_self, hc]
    rfl
  · rw [updConn_ne hd]

theorem Wired.openWsi (h : Wired s) (hc : (s.uconns c).ws = none) : Wired (s.openWsi c) := by
  have hfresh : ∀ k w, s.wsis k = some w → k ≠ s.nwsis := by
    rintro k w hk rfl
    rw [h.fresh _ (Nat.le_refl _)] at hk
    cases hk
  refine ⟨fun k w hk => ?_, fun d k hk => ?_, fun k hk => ?_⟩
  · by_cases hkn : k = s.nwsis
    · subst hkn
      simp only [State.openWsi, Function.update_self, Option.some.injEq] at hk ⊢
      subst hk
      simp
    · simp only [State.openWsi, Function.update_of_ne hkn] at hk ⊢
      rw [Function.update_of_ne (h.user_live hk hc)]
      exact h.live k w hk
  · by_cases hdc : d = c
    · subst hdc
      simp only [State.openWsi, Function.update_self, Option.some.injEq] at hk ⊢
      subst hk
      exact ⟨_, Function.update_self .., rfl⟩
    · simp only [State.openWsi, Function.update_of_ne hdc] at hk ⊢
      obtain ⟨w, hw, hu⟩ := h.conn d k hk
      exact ⟨w, by rw [Function.update_of_ne (hfresh k w hw), hw], hu⟩
  · change s.nwsis + 1 ≤ k at hk
    have hkn : k ≠ s.nwsis := by omega
    simp only [State.openWsi, Function.update_of_ne hkn]
    exact h.fresh k (by omega)

theorem Wired.connect (h : Wired s) (uq : Int) (ok : Bool) : Wired (wsConnect s uq ok).2 := by
  rcases wsConnect_cases s uq ok with he | ⟨c, hc, he | he⟩ <;> rw [he]
  · exact h
  · exact (h.take hc uq).updConn (f := fun uc => { uc with id := -1 }) (fun _ => rfl) c
  · exact (h.take hc uq).openWsi (by rw [updConn_self]; rfl)

theorem Wired.close (h : Wired s) (id : Int) : Wired (wsClose s id) := by
  unfold wsClose
  split
  · exact h
  · exact h.updConn (f := fun uc => { uc with id := -1 }) (fun _ => rfl) _

theorem Wired.send (h : Wired s) (hs : wsSend s id buf = some (r, t)) : Wired t := by
  rcases wsSend_some hs with ⟨-, rfl⟩ | ⟨c, m, p₁, oq, p₂, k, w, -, -, -, -, -, rfl⟩
  · exact h
  · exact ((h.setPool p₂).updConn (f := fun uc => { uc with oq := oq, st := uc.st ||| sSendreq })
      (fun _ => rfl) c).updWsi request_user k

theorem Wired.recv (h : Wired s) (id : Int) (len : Nat) : Wired (wsRecv s id len).state := by
  unfold wsRecv
  split
  · exact h
  · next c _ =>
    exact (h.setPool _).updConn (f := fun uc =>
      { uc with iq := (mbufp s.pool (s.uconns c).iq len).mb }) (fun _ => rfl) c

/-- A callback other than WSI_DESTROY leaves the pointers alone. -/
theorem Wired.handler (h : Wired s) (hd : rs ≠ .wsiDestroy)
    (hs : lwsHandler s k c rs = some (r, t)) : Wired t := by
  cases handler_cases hs with
  | same => exact h
  | reported => exact h.trigger _
  | requested =>
    exact ((h.updWsi request_user k).updConn (f := fun uc =>
      { uc with st := uc.st - (uc.st &&& sSendreq) }) (fun _ => rfl) c).trigger _
  | appended => exact h.updConn (f := fun uc => uc.append _) (fun _ => rfl) c
  | @queued buf _ _ iq p₂ =>
    exact ((h.setPool p₂).updConn (f := fun uc => { uc.append buf with
      fb := Function.update (uc.append buf).fb (uc.append buf).fo 0, iq := iq, fo := 0 })
      (fun _ => rfl) c).trigger _
  | relayed =>
    exact (h.setPool _).updConn (f := fun uc =>
      { uc with oq := (mbufp s.pool (s.uconns c).oq 1024).mb }) (fun _ => rfl) c
  | destroyed => exact absurd rfl hd

theorem Wired.destroy (h : Wired s) (hw : s.wsis k = some w)
    (hs : lwsHandler s k w.user .wsiDestroy = some (r, t)) : Wired (leave t k .wsiDestroy r) := by
  simp only [lwsHandler, Option.bind_eq_bind, Option.bind_eq_some_iff] at hs
  obtain ⟨⟨iq₁, p₁⟩, -, ⟨iq₂, p₂⟩, -, hs⟩ := hs
  obtain ⟨-, rfl⟩ := Prod.mk.inj (Option.some.inj hs)
  refine ⟨fun j v hj => ?_, fun c j hj => ?_, fun j hj => ?_⟩
  · have hjk : j ≠ k := by
      rintro rfl
      simp [leave] at hj
    simp only [leave, Function.update_of_ne hjk, updConn_wsis] at hj
    simp only [leave, updConn_ne (h.user_ne hw hj hjk)]
    exact h.live j v hj
  · have hcu : c ≠ w.user := by
      rintro rfl
      simp [leave, updConn_self] at hj
    simp only [leave, updConn_ne hcu] at hj
    obtain ⟨v, hv, rfl⟩ := h.conn c j hj
    have hjk : j ≠ k := by
      rintro rfl
      rw [hv] at hw
      exact hcu (congrArg Wsi.user (Option.some.inj hw))
    exact ⟨v, by simpa [leave, Function.update_of_ne hjk] using hv, rfl⟩
  · by_cases hjk : j = k
    · simp [leave, hjk]
    · simp only [leave, Function.update_of_ne hjk, updConn_wsis]
      exact h.fresh j hj

/-- What follows every reason but WSI_DESTROY. -/
theorem leave_other (hd : rs ≠ .wsiDestroy) (s : State) (k : Nat) (r : Int) :
    leave s k rs r = if r ≠ 0 then s.updWsi k fun w => { w with phase := .closing } else s := by
  cases rs <;> first | exact absurd rfl hd | rfl

theorem leave_zero (s : State) (k : Nat) (rs : Reason) (hd : rs ≠ .wsiDestroy) :
    leave s k rs 0 = s :=
  leave_other hd s k 0

theorem Wired.leave (h : Wired s) (hd : rs ≠ .wsiDestroy) (k : Nat) (r : Int) :
    Wired (Ws.leave s k rs r) := by
  rw [leave_other hd]
  split
  · exact h.updWsi (f := fun w => { w with phase := .closing }) (fun _ => rfl) k
  · exact h

theorem Wired.callback (h : Wired s) (hs : Ws.callback s k rs = some t) : Wired t := by
  obtain ⟨w, r, s', hw, -, hs', rfl⟩ := callback_some hs
  have henter := h.updWsi (enter_user rs) k
  by_cases hd : rs = .wsiDestroy
  · subst hd
    have hw' : (s.updWsi k fun w => Reason.enter w .wsiDestroy).wsis k = some w := by
      rw [updWsi_self, hw]
      rfl
    exact henter.destroy hw' hs'
  · exact (henter.handler hd hs').leave hd k r

theorem Wired.step (h : Wired s) (hs : step s e = some t) : Wired t := by
  cases e with
  | connect uq ok => exact Option.some.inj hs ▸ h.connect uq ok
  | close id => exact Option.some.inj hs ▸ h.close id
  | send id buf =>
    obtain ⟨⟨r, u⟩, hu, rfl⟩ := Option.map_eq_some_iff.mp hs
    exact h.send hu
  | recv id len => exact Option.some.inj hs ▸ h.recv id len
  | callback k rs => exact h.callback hs

end Wiring

/-- Only connection `k` and uconn `c` may have changed. -/
structure Local (k : Nat) (c : Conn) (s t : State) : Prop where
  wsis : ∀ j, j ≠ k → t.wsis j = s.wsis j
  uconns : ∀ d, d ≠ c → t.uconns d = s.uconns d

section Local
variable {s t u : State} {k : Nat} {c : Conn}

theorem Local.refl (k : Nat) (c : Conn) (s : State) : Local k c s s :=
  ⟨fun _ _ => rfl, fun _ _ => rfl⟩

theorem Local.updConn (h : Local k c s t) (f : Uconn → Uconn) : Local k c s (t.updConn c f) :=
  ⟨h.wsis, fun d hd => by rw [updConn_ne hd, h.uconns d hd]⟩

theorem Local.updWsi (h : Local k c s t) (f : Wsi → Wsi) : Local k c s (t.updWsi k f) :=
  ⟨fun j hj => by rw [updWsi_ne hj, h.wsis j hj], h.uconns⟩

theorem Local.setPool (h : Local k c s t) (p : Pool) : Local k c s { t with pool := p } :=
  ⟨h.wsis, h.uconns⟩

theorem Local.trigger (h : Local k c s t) (e : Trigger) : Local k c s (t.trigger e) :=
  ⟨h.wsis, h.uconns⟩

theorem Local.handler (h : Local k c s t) (hs : lwsHandler t k c rs = some (r, u)) :
    Local k c s u := by
  cases handler_cases hs with
  | same => exact h
  | reported => exact h.trigger _
  | requested => exact ((h.updWsi _).updConn _).trigger _
  | appended => exact h.updConn _
  | queued => exact ((h.setPool _).updConn _).trigger _
  | relayed => exact (h.setPool _).updConn _
  | destroyed => exact (h.setPool _).updConn _

/-- A callback touches its connection and the uconn of that connection only. -/
theorem callback_local (hs : callback s k rs = some t) (hw : s.wsis k = some w) :
    Local k w.user s t := by
  obtain ⟨v, r, s', hv, -, hs', rfl⟩ := callback_some hs
  obtain rfl : v = w := Option.some.inj (hv.symm.trans hw)
  have h := ((Local.refl k v.user s).updWsi fun w => rs.enter w).handler hs'
  cases rs with
  | wsiDestroy =>
    exact ⟨fun j hj => (Function.update_of_ne hj ..).trans (h.wsis j hj), h.uconns⟩
  | _ =>
    simp only [leave]
    split
    · exact h.updWsi _
    · exact h

end Local

section Bound
variable {p : Pool}

theorem Bounded.upd (h : Bounded p) (hf : (f (p.mbufs m)).len ≤ maxmsglen) :
    Bounded (p.upd m f) := by
  intro x
  by_cases hx : x = m
  · subst hx
    simpa [Pool.upd] using hf
  · simpa [Pool.upd, hx] using h x

theorem Bounded.mbuf (h : Bounded p) (hm : Ws.mbuf p buf = some (m, p')) : Bounded p' := by
  obtain ⟨-, hl, rfl⟩ := mbuf_some hm
  have hp : Bounded { p with i := m } := h
  exact hp.upd hl

theorem Bounded.mbufq (h : Bounded p) (hq : Ws.mbufq p mb el = some (r, p')) : Bounded p' := by
  cases mb with
  | none =>
    obtain ⟨-, rfl⟩ := Prod.mk.inj (Option.some.inj hq)
    exact h
  | some m =>
    obtain ⟨l, -, hl⟩ := Option.map_eq_some_iff.mp hq
    obtain ⟨-, rfl⟩ := Prod.mk.inj hl
    exact h.upd (h l)

theorem Bounded.mbufp (h : Bounded p) (mb : Option Slot) (plen : Nat) :
    Bounded (Ws.mbufp p mb plen).pool := by
  unfold Ws.mbufp
  split
  · exact h
  · split
    · exact h
    · exact h.upd (f := fun m => { m with len := 0 }) (Nat.zero_le _)

theorem Bounded.flush (h : Bounded p) (hf : Ws.flush p mb = some (r, p')) : Bounded p' := by
  refine run_partial (fun s => Bounded s.2) (fun r => Bounded r.2) ?_ ?_ (s := (mb, p)) h hf
  · rintro ⟨mb, p⟩ t hs hb
    simp only [flushBody] at hb
    split at hb
    · obtain rfl := Sum.inl.inj (Option.some.inj hb)
      exact Bounded.mbufp hs mb 1024
    · cases hb
  · rintro ⟨mb, p⟩ t hs hb
    simp only [flushBody] at hb
    split at hb
    · cases hb
    · obtain rfl := Sum.inr.inj (Option.some.inj hb)
      exact Bounded.mbufp hs mb 1024

end Bound

theorem leave_uconns (s : State) (k : Nat) (rs : Reason) (r : Int) :
    (leave s k rs r).uconns = s.uconns := by
  cases rs <;> simp only [leave] <;> split <;> rfl

theorem leave_pool (s : State) (k : Nat) (rs : Reason) (r : Int) :
    (leave s k rs r).pool = s.pool := by
  cases rs <;> simp only [leave] <;> split <;> rfl

theorem Bounded.handler {s t : State} (h : Bounded s.pool)
    (hs : lwsHandler s k c rs = some (r, t)) : Bounded t.pool := by
  cases handler_cases hs with
  | same | reported | requested | appended => exact h
  | queued hm hq => exact (h.mbuf hm).mbufq hq
  | relayed => exact h.mbufp _ _
  | destroyed h₁ h₂ => exact (h.flush h₁).flush h₂

theorem Bounded.step {s t : State} (h : Bounded s.pool) (hs : step s e = some t) :
    Bounded t.pool := by
  cases e with
  | connect uq ok =>
    obtain rfl := Option.some.inj hs
    rcases wsConnect_cases s uq ok with he | ⟨c, -, he | he⟩ <;> rw [he] <;> exact h
  | close id =>
    obtain rfl := Option.some.inj hs
    unfold wsClose
    split <;> exact h
  | send id buf =>
    obtain ⟨⟨r, u⟩, hu, rfl⟩ := Option.map_eq_some_iff.mp hs
    rcases wsSend_some hu with ⟨-, rfl⟩ | ⟨c, m, p₁, oq, p₂, k, w, -, hm, hq, -, -, rfl⟩
    · exact h
    · exact (h.mbuf hm).mbufq hq
  | recv id len =>
    obtain rfl := Option.some.inj hs
    unfold wsRecv
    split
    · exact h
    · exact h.mbufp _ _
  | callback k rs =>
    obtain ⟨w, r, s', -, -, hs', rfl⟩ := callback_some hs
    rw [leave_pool]
    exact Bounded.handler (s := s.updWsi k fun w => rs.enter w) h hs'

end Oin17.Ws
