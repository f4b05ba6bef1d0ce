import Oin17.Ws.Wiring

namespace Oin17.Ws
open Links Loop Memory

inductive Dir where
  | incoming | outgoing
  deriving DecidableEq

def Uconn.queue (uc : Uconn) : Dir → Option Slot
  | .incoming => uc.iq
  | .outgoing => uc.oq

/-- The queues of the connections that are not destroyed. -/
def heads (s : State) (k : Conn × Dir) : Option Slot :=
  if (s.uconns k.1).ws.isSome then (s.uconns k.1).queue k.2 else none

/-- The queues of the live connections are apart, and hold the mbufs `q`. -/
structure Sound (s : State) (q : Conn × Dir → List Slot) : Prop extends Wired s where
  bounded : Bounded s.pool
  queues : Queues s.pool (heads s) q
  dead : ∀ c, (s.uconns c).ws = none → (s.uconns c).iq = none

theorem sound_init : Sound initWs fun _ => [] :=
  ⟨wired_init, bounded_init, ⟨fun _ => .nil, by simp, by simp⟩, fun _ _ => rfl⟩

section Heads
variable {s t : State} {c : Conn} {d : Dir}

theorem heads_live (h : (s.uconns c).ws = some k) (d : Dir) :
    heads s (c, d) = (s.uconns c).queue d := by
  simp [heads, h]

theorem queue_incoming_only {uc uc' : Uconn} (h : uc'.oq = uc.oq) (e : Dir) (he : e ≠ .incoming) :
    uc'.queue e = uc.queue e := by
  cases e with
  | incoming => exact absurd rfl he
  | outgoing => exact h

theorem queue_outgoing_only {uc uc' : Uconn} (h : uc'.iq = uc.iq) (e : Dir) (he : e ≠ .outgoing) :
    uc'.queue e = uc.queue e := by
  cases e with
  | incoming => exact h
  | outgoing => exact absurd rfl he

theorem heads_dead (h : (s.uconns c).ws = none) (d : Dir) : heads s (c, d) = none := by
  simp [heads, h]

theorem heads_congr (hws : ∀ c, (t.uconns c).ws = (s.uconns c).ws)
    (hq : ∀ c d, (s.uconns c).ws ≠ none → (t.uconns c).queue d = (s.uconns c).queue d) :
    heads t = heads s := by
  funext ⟨c, d⟩
  cases h : (s.uconns c).ws with
  | none => rw [heads_dead h, heads_dead (by rw [hws, h])]
  | some k => rw [heads_live h, heads_live (by rw [hws, h]), hq c d (by simp [h])]

/-- One queue of a live connection gets a new head. -/
theorem heads_update (hc : (s.uconns c).ws = some k) (hu : t.uconns = Function.update s.uconns c uc)
    (hws : uc.ws = (s.uconns c).ws) (hr : uc.queue d = r)
    (hq : ∀ e, e ≠ d → uc.queue e = (s.uconns c).queue e) :
    heads t = Function.update (heads s) (c, d) r := by
  funext ⟨c', d'⟩
  by_cases hcc : c' = c
  · subst hcc
    have hlive : (t.uconns c').ws = some k := by
      rw [hu, Function.update_self, hws, hc]
    rw [heads_live hlive, hu, Function.update_self]
    by_cases hd : d' = d
    · rw [hd, Function.update_self, hr]
    · rw [Function.update_of_ne (by simpa using hd), heads_live hc, hq d' hd]
  · rw [Function.update_of_ne (by simp [hcc])]
    simp only [heads, hu, Function.update_of_ne hcc]

end Heads

/-- The uconn of a connection. -/
def State.user (s : State) (k : Nat) : Option Conn := (s.wsis k).map Wsi.user

/-- What one step does to the queues and the pool. -/
inductive Effect (s t : State) (q q' : Conn × Dir → List Slot) : Event → Prop where
  | quiet (hp : t.pool = s.pool) (hq : q' = q) : Effect s t q q' e
  | send {id : Int} (hc : uconnIsvalid s id = some c) (hm : Enqueued s.pool t.pool buf m)
      (hn : ∀ k, m ∉ q k) (hq : q' = Function.update q (c, .outgoing) (q (c, .outgoing) ++ [m])) :
      Effect s t q q' (.send id buf)
  | receive (hw : s.user k = some c)
      (hm : Enqueued s.pool t.pool ((s.uconns c).append frag).message m) (hn : ∀ k, m ∉ q k)
      (hq : q' = Function.update q (c, .incoming) (q (c, .incoming) ++ [m])) :
      Effect s t q q' (.callback k (.receive frag 0))
  | recv {id : Int} (hc : uconnIsvalid s id = some c) (hk : q (c, .incoming) = m :: l)
      (hp : t.pool = s.pool.upd m fun m => { m with len := 0 })
      (hq : q' = Function.update q (c, .incoming) l) : Effect s t q q' (.recv id len)
  | relay (hw : s.user k = some c) (hk : q (c, .outgoing) = m :: l)
      (hp : t.pool = s.pool.upd m fun m => { m with len := 0 })
      (hq : q' = Function.update q (c, .outgoing) l) :
      Effect s t q q' (.callback k (.writeable n))
  | destroy (hw : s.user k = some c) (hi : ∀ m ∈ q (c, .incoming), t.pool.Free m)
      (ho : ∀ m, m ∉ q (c, .incoming) → t.pool.mbufs m = s.pool.mbufs m)
      (hq : q' = Function.update (Function.update q (c, .incoming) []) (c, .outgoing) []) :
      Effect s t q q' (.callback k .wsiDestroy)

theorem Effect.congr {s t s₀ t₀ : State} (h : Effect s t q q' (.callback k rs))
    (hs : s₀.pool = s.pool) (ht : t₀.pool = t.pool) (hu : s₀.user k = s.user k)
    (huc : s₀.uconns = s.uconns) : Effect s₀ t₀ q q' (.callback k rs) := by
  cases h with
  | quiet hp hq => exact .quiet (by rw [ht, hp, hs]) hq
  | receive hw hm hn hq => exact .receive (hu.trans hw) (by rwa [hs, ht, huc]) hn hq
  | relay hw hk hp hq => exact .relay (hu.trans hw) hk (by rw [ht, hp, hs]) hq
  | destroy hw hi ho hq =>
    exact .destroy (hu.trans hw) (by rwa [ht]) (by rwa [hs, ht]) hq

/-- A queue that a step leaves as it is keeps its messages. -/
theorem Effect.kept {s t : State} (h : Effect s t q q' e) (hs : Sound s q) (hx : q' x = q x) :
    ∀ m ∈ q x, t.pool.text m = s.pool.text m := by
  intro m hm
  -- the head that a queue loses is in no other queue
  have hpop : ∀ {y m' l}, q y = m' :: l → q' = Function.update q y l → m ≠ m' := by
    rintro y m' l hy rfl rfl
    by_cases hxy : x = y
    · rw [hxy, Function.update_self, hy] at hx
      exact absurd hx.symm (List.cons_ne_self m l)
    · exact hs.queues.apart x y hxy m hm (hy ▸ List.mem_cons_self)
  cases h with
  | quiet hp => rw [hp]
  | send _ henq hnew | receive _ henq hnew =>
    refine (henq.others m ?_).2
    rintro rfl
    exact hnew x hm
  | recv _ hy hp hq | relay _ hy hp hq =>
    rw [hp]
    simp [Pool.text, Pool.upd, hpop hy hq]
  | @destroy k c _ _ ho hq =>
    have hin : m ∉ q (c, .incoming) := by
      intro hmem
      by_cases hxc : x = (c, .incoming)
      · rw [hq, hxc, Function.update_of_ne (by simp), Function.update_self] at hx
        rw [← hx] at hmem
        cases hmem
      · exact hs.queues.apart x _ hxc m hm hmem
    rw [Pool.text, ho m hin, Pool.text]

section Steps
variable {s t : State} {q : Conn × Dir → List Slot} {id : Int}

theorem Sound.quiet (h : Sound s q) (hw : Wired t) (hp : t.pool = s.pool)
    (hh : heads t = heads s) (hd : ∀ c, (t.uconns c).ws = none → (t.uconns c).iq = none) :
    Sound t q :=
  ⟨hw, by rw [hp]; exact h.bounded, by rw [hp, hh]; exact h.queues, hd⟩

theorem Sound.connect (h : Sound s q) (uq : Int) (ok : Bool) : Sound (wsConnect s uq ok).2 q := by
  have hw := h.toWired.connect uq ok
  rcases wsConnect_cases s uq ok with he | ⟨c, hc, he | he⟩ <;> rw [he] at hw ⊢
  · exact h
  · refine h.quiet hw rfl ?_ fun c' hc' => ?_
    · refine heads_congr (fun c' => ?_) fun c' d hl => ?_
      · by_cases hcc : c' = c
        · rw [hcc, deluconn, updConn_self, updConn_self, hc]
          rfl
        · rw [deluconn, updConn_ne hcc, updConn_ne hcc]
      · have hcc : c' ≠ c := fun he => hl (he ▸ hc)
        rw [deluconn, updConn_ne hcc, updConn_ne hcc]
    · by_cases hcc : c' = c
      · rw [hcc, deluconn, updConn_self, updConn_self]
        rfl
      · rw [deluconn, updConn_ne hcc, updConn_ne hcc] at hc' ⊢
        exact h.dead c' hc'
  · refine h.quiet hw rfl ?_ fun c' hc' => ?_
    · -- a new connection has empty queues
      funext ⟨c', d⟩
      by_cases hcc : c' = c
      · subst hcc
        rw [heads_dead hc, heads_live (by rw [openWsi_uconns, updConn_self])]
        rw [openWsi_uconns, updConn_self, updConn_self]
        cases d <;> rfl
      · simp only [heads, openWsi_uconns, updConn_ne hcc]
    · have hcc : c' ≠ c := by
        rintro rfl
        rw [openWsi_uconns, updConn_self] at hc'
        cases hc'
      rw [openWsi_uconns, updConn_ne hcc, updConn_ne hcc] at hc' ⊢
      exact h.dead c' hc'

theorem Sound.close (h : Sound s q) (id : Int) : Sound (wsClose s id) q := by
  have hw := h.toWired.close id
  unfold wsClose at hw ⊢
  cases hv : uconnIsvalid s id with
  | none => exact h
  | some c =>
    rw [hv] at hw
    have hkeep : ∀ c', ((deluconn s c).uconns c').ws = (s.uconns c').ws ∧
        ∀ d, ((deluconn s c).uconns c').queue d = (s.uconns c').queue d := by
      intro c'
      constructor
      · apply updConn_keep Uconn.ws
        exact fun _ => rfl
      · intro d
        apply updConn_keep (Uconn.queue · d)
        exact fun _ => by cases d <;> rfl
    refine h.quiet hw rfl (heads_congr (fun c' => (hkeep c').1) fun c' d _ => (hkeep c').2 d) ?_
    intro c' hc'
    rw [(hkeep c').1] at hc'
    exact ((hkeep c').2 .incoming).trans (h.dead c' hc')

/-- Changing one queue of a live connection. -/
theorem Sound.requeue (h : Sound s q) (hc : (s.uconns c).ws = some k)
    (hu : t.uconns = Function.update s.uconns c uc) (hws : uc.ws = (s.uconns c).ws)
    (hr : uc.queue d = r) (hq : ∀ e, e ≠ d → uc.queue e = (s.uconns c).queue e)
    (hw : Wired t) (hb : Bounded t.pool)
    (hqueues : Queues t.pool (Function.update (heads s) (c, d) r) q') : Sound t q' := by
  refine ⟨hw, hb, by rwa [heads_update hc hu hws hr hq], fun c' hc' => ?_⟩
  by_cases hcc : c' = c
  · rw [hcc, hu, Function.update_self, hws, hc] at hc'
    cases hc'
  · rw [hu, Function.update_of_ne hcc] at hc' ⊢
    exact h.dead c' hc'

/-- A uconn changes, but neither its queues nor the pool do. -/
theorem Sound.keep (h : Sound s q) (hc : (s.uconns c).ws = some k)
    (hu : t.uconns = Function.update s.uconns c uc) (hws : uc.ws = (s.uconns c).ws)
    (hq : ∀ e, uc.queue e = (s.uconns c).queue e) (hp : t.pool = s.pool) (hw : Wired t) :
    Sound t q := by
  have hb : Bounded t.pool := by
    rw [hp]
    exact h.bounded
  refine h.requeue (d := .incoming) hc hu hws (hq _) (fun e _ => hq e) hw hb ?_
  rw [hp, ← heads_live hc, Function.update_eq_self]
  exact h.queues

/-- Queuing a message that is not empty on a queue of a live connection. -/
theorem Sound.push (h : Sound s q) (uc : Uconn) (hc : (s.uconns c).ws = some k) (hbuf : buf ≠ [])
    (hm : mbuf s.pool buf = some (m, p₁)) (hm' : mbufq p₁ ((s.uconns c).queue d) m = some (r, p₂))
    (hp : t.pool = p₂)
    (hu : t.uconns = Function.update s.uconns c uc) (hws : uc.ws = (s.uconns c).ws)
    (hr : uc.queue d = r) (hq : ∀ e, e ≠ d → uc.queue e = (s.uconns c).queue e)
    (hw : Wired t) (hb : Bounded t.pool) :
    Enqueued s.pool t.pool buf m ∧ (∀ k', m ∉ q k') ∧
      Sound t (Function.update q (c, d) (q (c, d) ++ [m])) := by
  obtain ⟨r', p', hr', henq, hnew, hqueues⟩ := h.queues.enqueue hbuf hm (c, d)
  rw [heads_live hc, hm'] at hr'
  obtain ⟨rfl, rfl⟩ := Prod.mk.inj (Option.some.inj hr')
  subst hp
  exact ⟨henq, hnew, h.requeue hc hu hws hr hq hw hb hqueues⟩

/-- A message that `ws_send` accepts is queued on the uconn of its id. -/
theorem Sound.sent (h : Sound s q) (hs : wsSend s id buf = some (r, t))
    (hc : uconnIsvalid s id = some c) (hbuf : buf ≠ []) :
    ∃ m, Enqueued s.pool t.pool buf m ∧ (∀ k, m ∉ q k) ∧
      Sound t (Function.update q (c, .outgoing) (q (c, .outgoing) ++ [m])) := by
  have hb : Bounded t.pool := h.bounded.step (e := .send id buf) (by rw [step, hs]; rfl)
  have hw := h.toWired.send hs
  rcases wsSend_some hs with ⟨hn, -⟩ | ⟨d, m, p₁, oq, p₂, k, w, hv, hm, hr, hk, -, ht⟩
  · rw [hn] at hc
    cases hc
  · obtain rfl : d = c := Option.some.inj (hv.symm.trans hc)
    exact ⟨m, h.push (d := .outgoing) (t := t)
      { s.uconns d with oq := oq, st := (s.uconns d).st ||| sSendreq } hk hbuf hm hr
      (by rw [ht]; rfl) (by rw [ht]; rfl) rfl rfl (queue_outgoing_only rfl) hw hb⟩

theorem Sound.send (h : Sound s q) (hs : wsSend s id buf = some (r, t))
    (hne : buf = [] → uconnIsvalid s id = none) :
    ∃ q', Sound t q' ∧ Effect s t q q' (.send id buf) := by
  cases hc : uconnIsvalid s id with
  | none =>
    rcases wsSend_some hs with ⟨-, rfl⟩ | ⟨c, m, p₁, oq, p₂, k, w, hv, -⟩
    · exact ⟨q, h, .quiet rfl rfl⟩
    · rw [hc] at hv
      cases hv
  | some c =>
    have hbuf : buf ≠ [] := by
      intro he
      rw [hne he] at hc
      cases hc
    obtain ⟨m, henq, hnew, hsound⟩ := h.sent hs hc hbuf
    exact ⟨_, hsound, .send hc henq hnew rfl⟩

/-- A pop of a queue of a live connection: nothing is there, the buffer is too
small, or the head is popped. -/
theorem Sound.popped (h : Sound s q) (uc : Uconn) (hc : (s.uconns c).ws = some k)
    (hr : mbufp s.pool ((s.uconns c).queue d) plen = r) (hp : t.pool = r.pool)
    (hu : t.uconns = Function.update s.uconns c uc) (hws : uc.ws = (s.uconns c).ws)
    (hmb : uc.queue d = r.mb) (hq : ∀ e, e ≠ d → uc.queue e = (s.uconns c).queue e) (hw : Wired t)
    (hb : Bounded t.pool) :
    r.r ≤ 0 ∧ t.pool = s.pool ∧ Sound t q ∨
      ∃ m l, q (c, d) = m :: l ∧ r.r = (s.pool.mbufs m).len ∧ r.buf = s.pool.text m ∧
        t.pool = s.pool.upd m (fun m => { m with len := 0 }) ∧
        Sound t (Function.update q (c, d) l) := by
  have hidle : r.pool = s.pool → r.mb = (s.uconns c).queue d → t.pool = s.pool ∧ Sound t q := by
    intro hp' hm
    refine ⟨hp.trans hp', h.keep hc hu hws (fun e => ?_) (hp.trans hp') hw⟩
    by_cases he : e = d
    · rw [he, hmb, hm]
    · exact hq e he
  cases hk : q (c, d) with
  | nil =>
    have hnil := h.queues.mbufp_nil hk plen
    rw [heads_live hc] at hnil
    have hhead : (s.uconns c).queue d = none := by
      rw [← heads_live hc]
      exact (h.queues.chain (c, d)).nil_iff.mpr hk
    rw [hnil] at hr
    subst hr
    exact Or.inl ⟨Int.le_refl _, hidle rfl hhead.symm⟩
  | cons m l =>
    have hhead : (s.uconns c).queue d = some m := by
      rw [← heads_live hc, (h.queues.chain (c, d)).head, hk]
      rfl
    by_cases hlen : plen < (s.pool.mbufs m).len
    · rw [hhead, mbufp, if_pos hlen] at hr
      subst hr
      exact Or.inl ⟨(by decide : (-1 : Int) ≤ 0), hidle rfl hhead.symm⟩
    · obtain ⟨mb, hpop, hqueues⟩ := h.queues.dequeue hk (not_lt.mp hlen)
      rw [heads_live hc, hr] at hpop
      subst hpop
      exact Or.inr ⟨m, l, rfl, rfl, rfl, hp, h.requeue hc hu hws hmb hq hw hb (by rwa [hp])⟩

/-- `ws_recv` returns nothing, or the head of the incoming queue. -/
theorem Sound.recv_cases (h : Sound s q) (id : Int) (len : Nat) :
    (wsRecv s id len).r ≤ 0 ∧ (wsRecv s id len).state.pool = s.pool ∧
        Sound (wsRecv s id len).state q ∨
      ∃ c m l, uconnIsvalid s id = some c ∧ q (c, .incoming) = m :: l ∧
        (wsRecv s id len).r = (s.pool.mbufs m).len ∧ (wsRecv s id len).buf = s.pool.text m ∧
        (wsRecv s id len).state.pool = s.pool.upd m (fun m => { m with len := 0 }) ∧
        Sound (wsRecv s id len).state (Function.update q (c, .incoming) l) := by
  have hw := h.toWired.recv id len
  have hb : Bounded (wsRecv s id len).state.pool := h.bounded.step (e := .recv id len) rfl
  unfold wsRecv at hw hb ⊢
  cases hv : uconnIsvalid s id with
  | none => exact Or.inl ⟨(by decide : (-1 : Int) ≤ 0), rfl, h⟩
  | some c =>
    simp only [hv] at hw hb ⊢
    cases hc : (s.uconns c).ws with
    | none =>
      -- a destroyed connection has no incoming queue left
      have hiq := h.dead c hc
      have hsame : s.updConn c (fun uc => { uc with iq := none }) = s := by
        have hself : { s.uconns c with iq := none } = s.uconns c := by rw [← hiq]
        simp only [State.updConn, hself, Function.update_eq_self]
      simp only [hiq, mbufp]
      rw [hsame]
      exact Or.inl ⟨Int.le_refl _, rfl, h⟩
    | some k =>
      rcases h.popped (d := .incoming) (t := { s with
          pool := (mbufp s.pool (s.uconns c).iq len).pool }.updConn c fun uc =>
            { uc with iq := (mbufp s.pool (s.uconns c).iq len).mb })
          { s.uconns c with iq := (mbufp s.pool (s.uconns c).iq len).mb } hc rfl rfl rfl rfl rfl
          (queue_incoming_only rfl) hw hb with
        hidle | ⟨m, l, hk, hr, hbuf, hp, hsound⟩
      · exact Or.inl hidle
      · exact Or.inr ⟨c, m, l, rfl, hk, hr, hbuf, hp, hsound⟩

theorem Sound.updWsi (h : Sound s q) (f : Wsi → Wsi) (hf : ∀ w, (f w).user = w.user) (k : Nat) :
    Sound (s.updWsi k f) q :=
  h.quiet (h.toWired.updWsi hf k) rfl rfl h.dead

theorem Sound.leave (h : Sound s q) (hd : rs ≠ .wsiDestroy) (k : Nat) (r : Int) :
    Sound (Ws.leave s k rs r) q := by
  rw [leave_other hd]
  split
  · exact h.updWsi (fun w => { w with phase := .closing }) (fun _ => rfl) k
  · exact h

theorem message_ne (uc : Uconn) : uc.message ≠ [] := by
  intro he
  have := congrArg List.length he
  simp [Uconn.message] at this

/-- The last fragment queues the message. -/
theorem Sound.received (h : Sound s q) (hc : (s.uconns c).ws = some k)
    (hs : recvfrag s c buf 0 = some (0, t)) :
    ∃ m, Enqueued s.pool t.pool ((s.uconns c).append buf).message m ∧ (∀ k, m ∉ q k) ∧
      Sound t (Function.update q (c, .incoming) (q (c, .incoming) ++ [m])) ∧
      (t.uconns c).fo = 0 := by
  have hs' : lwsHandler s k c (.receive buf 0) = some (0, t) := hs
  have hw := h.toWired.handler (by simp) hs'
  have hb := Bounded.handler h.bounded hs'
  rcases recvfrag_some hs with ⟨h0, -⟩ | ⟨h0, -⟩ | ⟨-, -, m, p₁, iq, p₂, hm, hr, ht⟩
  · cases h0
  · exact absurd rfl h0
  · obtain ⟨henq, hnew, hsound⟩ := h.push (d := .incoming) (t := t)
      { (s.uconns c).append buf with
        fb := Function.update ((s.uconns c).append buf).fb ((s.uconns c).append buf).fo 0
        iq := iq, fo := 0 } hc (message_ne _) hm hr
      (by rw [ht]; rfl) (by rw [ht]; rfl) rfl rfl
      (queue_incoming_only rfl) hw hb
    refine ⟨m, henq, hnew, hsound, ?_⟩
    rw [ht, reportread, State.trigger, updConn_self]

/-- WRITEABLE pops the head of the outgoing queue. -/
theorem Sound.relayed (h : Sound s q) (hk : s.wsis k = some w) (n : Int) :
    q (w.user, .outgoing) = [] ∧ (relayca s w.user n).2.pool = s.pool ∧
        Sound (relayca s w.user n).2 q ∨
      ∃ m l, q (w.user, .outgoing) = m :: l ∧
        (relayca s w.user n).2.pool = s.pool.upd m (fun m => { m with len := 0 }) ∧
        Sound (relayca s w.user n).2 (Function.update q (w.user, .outgoing) l) := by
  have hc := h.live k w hk
  have hs : lwsHandler s k w.user (.writeable n) = some (relayca s w.user n) := rfl
  have hw := h.toWired.handler (by simp) hs
  have hb := Bounded.handler h.bounded hs
  have hlen : 0 ≤ (mbufp s.pool (s.uconns w.user).oq 1024).r ∧
      ((mbufp s.pool (s.uconns w.user).oq 1024).r ≤ 0 → q (w.user, .outgoing) = []) := by
    cases hq : q (w.user, .outgoing) with
    | nil =>
      have hnil := h.queues.mbufp_nil hq 1024
      rw [heads_live hc] at hnil
      have hr : mbufp s.pool (s.uconns w.user).oq 1024 = _ := hnil
      rw [hr]
      exact ⟨Int.le_refl _, fun _ => rfl⟩
    | cons m l =>
      obtain ⟨mb, hpop, -⟩ := h.queues.dequeue hq (h.bounded m)
      rw [heads_live hc] at hpop
      have hr : mbufp s.pool (s.uconns w.user).oq 1024 = _ := hpop
      have hpos := h.queues.used (w.user, .outgoing) m (hq ▸ List.mem_cons_self)
      rw [hr]
      refine ⟨Int.natCast_nonneg _, fun hle => ?_⟩
      exact absurd (Int.natCast_nonpos_iff.mp hle) hpos
  have hstate : (relayca s w.user n).2 = { s with
      pool := (mbufp s.pool (s.uconns w.user).oq 1024).pool }.updConn w.user fun uc =>
        { uc with oq := (mbufp s.pool (s.uconns w.user).oq 1024).mb } := by
    unfold relayca
    simp only [if_neg (not_lt.mpr hlen.1)]
    split <;> rfl
  rcases h.popped (d := .outgoing) (t := (relayca s w.user n).2)
      { s.uconns w.user with oq := (mbufp s.pool (s.uconns w.user).oq 1024).mb }
      hc (Eq.refl (mbufp s.pool (s.uconns w.user).oq 1024)) (by rw [hstate]; rfl)
      (by rw [hstate]; rfl) rfl rfl (queue_outgoing_only rfl) hw hb with
    ⟨hr, hp, hsound⟩ | ⟨m, l, hl, -, -, hp, hsound⟩
  · exact Or.inl ⟨hlen.2 hr, hp, hsound⟩
  · exact Or.inr ⟨m, l, hl, hp, hsound⟩

theorem Sound.handler (h : Sound s q) (hk : s.wsis k = some w) (hd : rs ≠ .wsiDestroy)
    (hs : lwsHandler s k w.user rs = some (r, t)) :
    ∃ q', Sound t q' ∧ Effect s t q q' (.callback k rs) := by
  have hw := h.toWired.handler hd hs
  have hb := Bounded.handler h.bounded hs
  have hc := h.live k w hk
  have huser : s.user k = some w.user := by rw [State.user, hk, Option.map_some]
  cases rs with
  | connectionError | closed =>
    obtain ⟨-, rfl⟩ := Prod.mk.inj (Option.some.inj hs)
    exact ⟨q, h.quiet hw rfl rfl h.dead, .quiet rfl rfl⟩
  | peerInitiatedClose =>
    obtain ⟨-, rfl⟩ := Prod.mk.inj (Option.some.inj hs)
    exact ⟨q, h, .quiet rfl rfl⟩
  | established =>
    obtain ⟨u, hu, hs⟩ := Option.map_eq_some_iff.mp hs
    obtain ⟨-, rfl⟩ := Prod.mk.inj hs
    rcases requestDeferred_some hu with ⟨-, rfl⟩ | ⟨v, -, -, rfl⟩
    · exact ⟨q, h.quiet hw rfl rfl h.dead, .quiet rfl rfl⟩
    · exact ⟨q, h.keep hc rfl rfl (fun e => by cases e <;> rfl) rfl hw, .quiet rfl rfl⟩
  | receive buf n =>
    rcases recvfrag_some hs with ⟨-, rfl⟩ | ⟨-, -, rfl⟩ | ⟨rfl, rfl, -⟩
    · exact ⟨q, h, .quiet rfl rfl⟩
    · exact ⟨q, h.keep hc rfl rfl (fun e => by cases e <;> rfl) rfl hw, .quiet rfl rfl⟩
    · obtain ⟨m, henq, hnew, hsound, -⟩ := h.received hc hs
      exact ⟨_, hsound, .receive huser henq hnew rfl⟩
  | writeable n =>
    obtain rfl : t = (relayca s w.user n).2 := (congrArg Prod.snd (Option.some.inj hs)).symm
    rcases h.relayed hk n with ⟨-, hp, hsound⟩ | ⟨m, l, hl, hp, hsound⟩
    · exact ⟨q, hsound, .quiet hp rfl⟩
    · exact ⟨_, hsound, .relay huser hl hp rfl⟩
  | wsiDestroy => exact absurd rfl hd

/-- WSI_DESTROY frees the incoming messages. The outgoing ones are not freed,
and no queue leads to them any more. -/
theorem Sound.destroy (h : Sound s q) (hk : s.wsis k = some w)
    (hs : lwsHandler s k w.user .wsiDestroy = some (r, t)) :
    Sound (Ws.leave t k .wsiDestroy r)
        (Function.update (Function.update q (w.user, .incoming) []) (w.user, .outgoing) []) ∧
      (∀ m ∈ q (w.user, .incoming), t.pool.Free m) ∧
      ∀ m, m ∉ q (w.user, .incoming) → t.pool.mbufs m = s.pool.mbufs m := by
  have hw := h.toWired.destroy hk hs
  have hb := Bounded.handler h.bounded hs
  have hc := h.live k w hk
  have hlen : ∀ m ∈ q (w.user, .incoming), (s.pool.mbufs m).len ≤ 1024 := fun m _ => h.bounded m
  obtain ⟨p₁, hflush, hq₁, hfree, hkeep⟩ := h.queues.flush (w.user, .incoming) hlen
  rw [heads_live hc] at hflush
  obtain ⟨p₂, hflush₂, hq₂, -, hkeep₂⟩ := hq₁.flush (w.user, .incoming)
    (by rw [Function.update_self]; simp)
  rw [Function.update_self] at hflush₂ hkeep₂
  rw [Function.update_idem, Function.update_idem] at hq₂
  have hp₂ : ∀ m, p₂.mbufs m = p₁.mbufs m := fun m => hkeep₂ m (by simp)
  have ht : t = { s with pool := p₂ }.updConn w.user fun uc =>
      { uc with iq := none, ws := none } := by
    have hflush' : flush s.pool (s.uconns w.user).iq = some (none, p₁) := hflush
    simp only [lwsHandler, hflush', Option.bind_eq_bind, Option.bind_some, hflush₂] at hs
    exact (Prod.mk.inj (Option.some.inj hs)).2.symm
  subst ht
  refine ⟨⟨hw, hb, ?_, fun c hc' => ?_⟩, ?_, ?_⟩
  · have hheads : heads (Ws.leave ({ s with pool := p₂ }.updConn w.user fun uc =>
        { uc with iq := none, ws := none }) k .wsiDestroy r) = Function.update
          (Function.update (heads s) (w.user, .incoming) none) (w.user, .outgoing) none := by
      funext x
      obtain ⟨c, d⟩ := x
      by_cases hcw : c = w.user
      · subst hcw
        rw [heads_dead (by simp [Ws.leave, updConn_self])]
        cases d
        · rw [Function.update_of_ne (by simp), Function.update_self]
        · rw [Function.update_self]
      · rw [Function.update_of_ne (by simp [hcw]), Function.update_of_ne (by simp [hcw])]
        simp only [heads, Ws.leave, updConn_ne hcw]
    rw [hheads]
    exact hq₂.forget (w.user, .outgoing)
  · by_cases hcw : c = w.user
    · subst hcw
      simp [Ws.leave, updConn_self]
    · simp only [Ws.leave, updConn_ne hcw] at hc' ⊢
      exact h.dead c hc'
  · intro m hm
    have hf := hfree m hm
    rw [Pool.Free, ← hp₂ m] at hf
    exact hf
  · exact fun m hm => (hp₂ m).trans (hkeep m hm)

theorem enter_user_some (hw : s.wsis k = some w) (rs : Reason) :
    (s.updWsi k fun w => rs.enter w).wsis k = some (rs.enter w) ∧
      s.user k = (s.updWsi k fun w => rs.enter w).user k := by
  have hwsi : (s.updWsi k fun w => rs.enter w).wsis k = some (rs.enter w) := by
    rw [updWsi_self, hw, Option.map_some]
  refine ⟨hwsi, ?_⟩
  rw [State.user, State.user, hwsi, hw, Option.map_some, Option.map_some, enter_user]

theorem Sound.destroyed (h : Sound s q) (hs : Ws.callback s k .wsiDestroy = some t)
    (hw : s.wsis k = some w) :
    Sound t (Function.update (Function.update q (w.user, .incoming) []) (w.user, .outgoing) []) ∧
      (∀ m ∈ q (w.user, .incoming), t.pool.Free m) ∧
      ∀ m, m ∉ q (w.user, .incoming) → t.pool.mbufs m = s.pool.mbufs m := by
  obtain ⟨v, r, s', hv, -, hs', rfl⟩ := callback_some hs
  obtain rfl : v = w := Option.some.inj (hv.symm.trans hw)
  exact (h.updWsi _ (enter_user .wsiDestroy) k).destroy (enter_user_some hw .wsiDestroy).1 hs'

theorem Sound.callback (h : Sound s q) (hs : Ws.callback s k rs = some t) :
    ∃ q', Sound t q' ∧ Effect s t q q' (.callback k rs) := by
  obtain ⟨w, r, s', hw, -, hs', ht⟩ := callback_some hs
  obtain ⟨hwsi, huser⟩ := enter_user_some hw rs
  by_cases hd : rs = .wsiDestroy
  · subst hd
    obtain ⟨hsound, hfree, hkeep⟩ := h.destroyed hs hw
    exact ⟨_, hsound, .destroy (by rw [State.user, hw, Option.map_some]) hfree hkeep rfl⟩
  · rw [← enter_user rs w] at hs'
    obtain ⟨q', hsound, heff⟩ := (h.updWsi _ (enter_user rs) k).handler hwsi hd hs'
    rw [ht]
    exact ⟨q', hsound.leave hd k r, heff.congr rfl (leave_pool s' k rs r) huser rfl⟩

/-- No empty message is accepted. -/
def NonemptySend (s : State) : Event → Prop
  | .send id buf => buf = [] → uconnIsvalid s id = none
  | _ => True

/-- A step that accepts no empty message keeps the queues apart. -/
theorem Sound.step (h : Sound s q) (hs : Ws.step s e = some t) (hne : NonemptySend s e) :
    ∃ q', Sound t q' ∧ Effect s t q q' e := by
  cases e with
  | connect uq ok =>
    obtain rfl := Option.some.inj hs
    have hp : (wsConnect s uq ok).2.pool = s.pool := by
      rcases wsConnect_cases s uq ok with he | ⟨c, -, he | he⟩ <;> rw [he] <;> rfl
    exact ⟨q, h.connect uq ok, .quiet hp rfl⟩
  | close id =>
    obtain rfl := Option.some.inj hs
    have hp : (wsClose s id).pool = s.pool := by
      unfold wsClose
      split <;> rfl
    exact ⟨q, h.close id, .quiet hp rfl⟩
  | send id buf =>
    obtain ⟨⟨r, u⟩, hu, rfl⟩ := Option.map_eq_some_iff.mp hs
    exact h.send hu hne
  | recv id len =>
    obtain rfl := Option.some.inj hs
    rcases h.recv_cases id len with ⟨-, hp, hsound⟩ | ⟨c, m, l, hv, hk, -, -, hp, hsound⟩
    · exact ⟨q, hsound, .quiet hp rfl⟩
    · exact ⟨_, hsound, .recv hv hk hp rfl⟩
  | callback k rs => exact h.callback hs

end Steps

end Oin17.Ws
