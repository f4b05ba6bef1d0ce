import Oin17.Lib.Fragments
import Oin17.Ws.Sound

namespace Oin17.Ws
open Fragments Links Memory Run

/-- The fragment an event brings for connection `k`. -/
def Event.frag (k : Nat) : Event → Option (Frag UInt8)
  | .callback j (.receive buf r) => if j = k then some (buf, r) else none
  | _ => none

def fragsOf (k : Nat) (es : List Event) : List (Frag UInt8) := es.filterMap (Event.frag k)

/-- What a successful `ws_recv` on uconn `c` returns. -/
def output (c : Conn) (s : State) : Event → List (List UInt8)
  | .recv id len => if id = c.val ∧ 0 < (wsRecv s id len).r then [(wsRecv s id len).buf] else []
  | _ => []

def delivered (c : Conn) : State → List Event → List (List UInt8)
  | _, [] => []
  | s, e :: es => output c s e ++ match step s e with
    | none => []
    | some t => delivered c t es

def State.phase (s : State) (k : Nat) : Option Phase := (s.wsis k).map Wsi.phase

/-- A message with the NUL that `__recvfrag` puts behind it. -/
def terminated (m : List UInt8) : List UInt8 := m ++ [0]

/-- Uconn `c` of connection `k` has taken in the fragments `seen` and handed
out the messages `out`. -/
structure Reading (k : Nat) (c : Conn) (s : State) (q : Conn × Dir → List Slot)
    (seen : List (Frag UInt8)) (out : List (List UInt8)) : Prop extends Sound s q where
  user : s.user k = some c
  queued : out ++ (q (c, .incoming)).map s.pool.text = (assemble seen).1.map terminated
  buffered : load (s.uconns c).fb 0 (s.uconns c).fo = (assemble seen).2

section Frame
variable {s t : State} {q q' : Conn × Dir → List Slot} {id : Int}

theorem user_some (h : s.user k = some c) : ∃ w, s.wsis k = some w ∧ w.user = c :=
  Option.map_eq_some_iff.mp h

theorem Wired.user_ws (h : Wired s) (hu : s.user k = some c) : (s.uconns c).ws = some k := by
  obtain ⟨w, hw, rfl⟩ := user_some hu
  exact h.live k w hw

/-- Only its own callbacks touch the fragments buffer of a live connection. -/
theorem updConn_frag {f : Uconn → Uconn} (hf : ∀ uc, (f uc).fb = uc.fb ∧ (f uc).fo = uc.fo)
    (c d : Conn) : ((s.updConn d f).uconns c).fb = (s.uconns c).fb ∧
      ((s.updConn d f).uconns c).fo = (s.uconns c).fo :=
  ⟨updConn_keep Uconn.fb (fun uc => (hf uc).1) d c, updConn_keep Uconn.fo (fun uc => (hf uc).2) d c⟩

theorem handler_frag (hs : lwsHandler s k c rs = some (r, t))
    (hr : ∀ buf n, rs ≠ .receive buf n) :
    (t.uconns c).fb = (s.uconns c).fb ∧ (t.uconns c).fo = (s.uconns c).fo := by
  cases handler_cases hs with
  | same | reported => exact ⟨rfl, rfl⟩
  | requested =>
    exact updConn_frag (f := fun uc => { uc with st := uc.st - (uc.st &&& sSendreq) })
      (s := s.updWsi k Wsi.request) (fun _ => ⟨rfl, rfl⟩) c c
  | appended | queued => exact absurd rfl (hr _ _)
  | relayed =>
    exact updConn_frag (f := fun uc => { uc with oq := (mbufp s.pool (s.uconns c).oq 1024).mb })
      (s := { s with pool := (mbufp s.pool (s.uconns c).oq 1024).pool }) (fun _ => ⟨rfl, rfl⟩) c c
  | @destroyed _ _ iq₂ p₂ =>
    exact updConn_frag (f := fun uc => { uc with iq := iq₂, ws := none })
      (s := { s with pool := p₂ }) (fun _ => ⟨rfl, rfl⟩) c c

theorem updWsi_user {f : Wsi → Wsi} (hf : ∀ w, (f w).user = w.user) (j k : Nat) :
    (s.updWsi j f).user k = s.user k := by
  by_cases hk : k = j
  · subst hk
    rw [State.user, State.user, updWsi_self, Option.map_map]
    exact congrArg (Option.map · _) (funext hf)
  · rw [State.user, State.user, updWsi_ne hk]

theorem handler_user (hs : lwsHandler s j c rs = some (r, t)) (k : Nat) :
    t.user k = s.user k := by
  cases handler_cases hs with
  | requested => exact updWsi_user request_user j k
  | _ => rfl

/-- A live connection stays where it is until it is destroyed. -/
theorem step_user (h : Wired s) (hs : step s e = some t) (hu : s.user k = some c)
    (hd : e ≠ .callback k .wsiDestroy) : t.user k = some c := by
  rw [← hu]
  cases e with
  | connect uq ok =>
    obtain rfl := Option.some.inj hs
    rcases wsConnect_cases s uq ok with he | ⟨d, -, he | he⟩ <;> rw [he]
    · rfl
    · have hk : k ≠ s.nwsis := by
        rintro rfl
        rw [State.user, h.fresh _ (Nat.le_refl _)] at hu
        cases hu
      exact congrArg (Option.map Wsi.user) (Function.update_of_ne hk ..)
  | close id =>
    obtain rfl := Option.some.inj hs
    unfold wsClose
    split <;> rfl
  | send id buf =>
    obtain ⟨⟨r, u⟩, hu', rfl⟩ := Option.map_eq_some_iff.mp hs
    rcases wsSend_some hu' with ⟨-, rfl⟩ | ⟨d, m, p₁, oq, p₂, j, w, -, -, -, -, -, rfl⟩
    · rfl
    · exact updWsi_user request_user j k
  | recv id len =>
    obtain rfl := Option.some.inj hs
    unfold wsRecv
    split <;> rfl
  | callback j rs =>
    obtain ⟨v, r, s', hv, -, hs', rfl⟩ := callback_some hs
    by_cases hj : k = j
    · subst hj
      have hrs : rs ≠ .wsiDestroy := fun he => hd (by rw [he])
      have hclose : ∀ u : State, (leave u k rs r).user k = u.user k := by
        intro u
        rw [leave_other hrs]
        split
        · exact updWsi_user (f := fun w => { w with phase := .closing }) (fun _ => rfl) k k
        · rfl
      rw [hclose, handler_user hs', updWsi_user (enter_user rs)]
    · exact congrArg (Option.map Wsi.user) ((callback_local hs hv).wsis k hj)

theorem step_frag (h : Wired s) (hs : step s e = some t) (hu : s.user k = some c)
    (hr : e.frag k = none) :
    (t.uconns c).fb = (s.uconns c).fb ∧ (t.uconns c).fo = (s.uconns c).fo := by
  have hlive := h.user_ws hu
  cases e with
  | connect uq ok =>
    obtain rfl := Option.some.inj hs
    rcases wsConnect_cases s uq ok with he | ⟨d, hd, he | he⟩ <;> rw [he]
    · exact ⟨rfl, rfl⟩
    all_goals
      have hcd : c ≠ d := by
        rintro rfl
        rw [hd] at hlive
        cases hlive
    · rw [deluconn, updConn_ne hcd, updConn_ne hcd]
      exact ⟨rfl, rfl⟩
    · rw [openWsi_uconns, updConn_ne hcd, updConn_ne hcd]
      exact ⟨rfl, rfl⟩
  | close id =>
    obtain rfl := Option.some.inj hs
    unfold wsClose
    split
    · exact ⟨rfl, rfl⟩
    · exact updConn_frag (f := fun uc => { uc with id := -1 }) (fun _ => ⟨rfl, rfl⟩) c _
  | send id buf =>
    obtain ⟨⟨r, u⟩, hu', rfl⟩ := Option.map_eq_some_iff.mp hs
    rcases wsSend_some hu' with ⟨-, rfl⟩ | ⟨d, m, p₁, oq, p₂, j, w, -, -, -, -, -, rfl⟩
    · exact ⟨rfl, rfl⟩
    · exact updConn_frag (f := fun uc => { uc with oq := oq, st := uc.st ||| sSendreq })
        (s := { s with pool := p₂ }) (fun _ => ⟨rfl, rfl⟩) c d
  | recv id len =>
    obtain rfl := Option.some.inj hs
    unfold wsRecv
    split
    · exact ⟨rfl, rfl⟩
    · next d _ =>
      exact updConn_frag (f := fun uc => { uc with iq := (mbufp s.pool (s.uconns d).iq len).mb })
        (s := { s with pool := (mbufp s.pool (s.uconns d).iq len).pool }) (fun _ => ⟨rfl, rfl⟩) c d
  | callback j rs =>
    obtain ⟨w, hw, rfl⟩ := user_some hu
    by_cases hj : j = k
    · subst hj
      obtain ⟨v, r, s', hv, -, hs', rfl⟩ := callback_some hs
      obtain rfl : v = w := Option.some.inj (hv.symm.trans hw)
      rw [leave_uconns]
      refine handler_frag (s := s.updWsi j fun w => rs.enter w) hs' fun buf n he => ?_
      rw [he, Event.frag, if_pos rfl] at hr
      cases hr
    · obtain ⟨v, -, -, hv, -⟩ := callback_some hs
      have hne := h.user_ne hv hw (Ne.symm hj)
      rw [(callback_local hs hv).uconns _ hne]
      exact ⟨rfl, rfl⟩

/-- The connections of two uconns are two. -/
theorem Wired.user_inj {d : Conn} (h : Wired s) (hj : s.user j = some d) (hk : s.user k = some c)
    (hjk : j ≠ k) : c ≠ d := by
  obtain ⟨v, hv, rfl⟩ := user_some hj
  obtain ⟨w, hw, rfl⟩ := user_some hk
  exact h.user_ne hv hw (Ne.symm hjk)

/-- The other events leave an incoming queue alone. -/
theorem Effect.incoming (h : Effect s t q q' e) (hs : Wired s) (hu : s.user k = some c)
    (hd : e ≠ .callback k .wsiDestroy) (hr : e.frag k = none) (hn : ∀ id len, e ≠ .recv id len) :
    q' (c, .incoming) = q (c, .incoming) := by
  cases h with
  | quiet hp hq => rw [hq]
  | send hc hx hnew hq => rw [hq, Function.update_of_ne (by simp)]
  | @receive j d _ _ hw hx hnew hq =>
    have hjk : j ≠ k := by
      rintro rfl
      simp [Event.frag] at hr
    rw [hq, Function.update_of_ne (by simp [hs.user_inj hw hu hjk])]
  | recv hc hk hp hq => exact absurd rfl (hn _ _)
  | relay hw hk hp hq => rw [hq, Function.update_of_ne (by simp)]
  | @destroy j d hw hi ho hq =>
    have hjk : j ≠ k := by
      rintro rfl
      exact hd rfl
    rw [hq, Function.update_of_ne (by simp),
      Function.update_of_ne (by simp [hs.user_inj hw hu hjk])]

end Frame

section Reading
variable {s t : State} {q : Conn × Dir → List Slot} {out : List (List UInt8)}
  {seen : List (Frag UInt8)} {fss : List (List (Frag UInt8))} {msgs : List (List UInt8)}

theorem nonemptySend (h : ∀ id, e ≠ .send id []) : NonemptySend s e := by
  cases e with
  | send id buf => exact fun he => absurd (he ▸ rfl) (h id)
  | _ => trivial

theorem sound_run (hs : exec Ws.step initWs es = some s) (hne : ∀ id, Event.send id [] ∉ es) :
    ∃ q, Sound s q := by
  refine exec_inv (fun s => ∃ q, Sound s q) (fun e => ∀ id, e ≠ .send id []) ?_ ⟨_, sound_init⟩
    (fun e he id heq => hne id (by rwa [heq] at he)) hs
  rintro s e t ⟨q, h⟩ he ht
  obtain ⟨q', h', -⟩ := h.step ht (nonemptySend he)
  exact ⟨q', h'⟩

/-- A fragment that fits is taken in, when an mbuf is free. -/
theorem Sound.accepts (h : Sound s q) (hc : (s.uconns c).ws = some k)
    (hfits : (s.uconns c).fo + buf.length + r < maxmsglen) (hfree : s.pool.Free m) :
    ∃ t, recvfrag s c buf r = some (0, t) ∧ t.wsis = s.wsis := by
  rw [recvfrag_fits (Nat.le_of_lt hfits)]
  by_cases hr : r = 0
  · rw [if_neg (not_not.mpr hr)]
    have hlen : ((s.uconns c).append buf).message.length ≤ maxmsglen := by
      have hmsg : ((s.uconns c).append buf).message.length = (s.uconns c).fo + buf.length + 1 := by
        rw [Uconn.message, load_length]
        rfl
      omega
    obtain ⟨⟨x, p₁⟩, hx⟩ := mbuf_total hfree hlen
    obtain ⟨iq, p₂, hiq, -⟩ := h.queues.mbufq hx (c, .incoming)
    rw [heads_live hc] at hiq
    have hqueue : queueFrags (s.updConn c fun uc => uc.append buf) c =
        some ({ s.updConn c (fun uc => uc.append buf) with pool := p₂ }.updConn c fun uc =>
          { uc with fb := Function.update uc.fb uc.fo 0, iq := iq, fo := 0 }) := by
      have hmb : mbufq p₁ ((s.uconns c).append buf).iq x = some (iq, p₂) := hiq
      simp only [queueFrags, updConn_self, updConn_pool, Option.bind_eq_bind, hx, Option.bind_some,
        hmb, Option.pure_def]
    rw [hqueue]
    exact ⟨_, rfl, rfl⟩
  · rw [if_pos hr]
    exact ⟨_, rfl, rfl⟩

theorem append_message (uc : Uconn) (buf : List UInt8) :
    (uc.append buf).message = terminated (load uc.fb 0 uc.fo ++ buf) := by
  have hkeep : load (Function.update (uc.append buf).fb (uc.append buf).fo 0) 0 (uc.append buf).fo =
      load uc.fb 0 uc.fo ++ buf := by
    rw [load_congr fun i _ hi => Function.update_of_ne (by omega) ..]
    exact load_store_append uc.fb uc.fo buf
  rw [Uconn.message, load_succ, hkeep, Nat.zero_add, Function.update_self, terminated]

theorem Reading.offset (h : Reading k c s q seen out) :
    (s.uconns c).fo = (assemble seen).2.length := by
  rw [← h.buffered, load_length]

theorem Reading.fits (h : Reading k c s q seen out) (hf : List.Forall₂ Frags fss msgs)
    (hlen : ∀ m ∈ msgs, m.length < maxmsglen) (hp : seen ++ [(buf, r)] <+: fss.flatten) :
    (s.uconns c).fo + buf.length + r < maxmsglen := by
  obtain ⟨m, hm, hsize⟩ := assemble_next hf hp []
  have hoff := h.offset
  have := hlen m hm
  simp only [assemble] at hoff
  simp only at hsize
  omega

/-- The next fragment of the stream is taken in. -/
theorem Reading.receive (h : Reading k c s q seen out) (hf : List.Forall₂ Frags fss msgs)
    (hlen : ∀ m ∈ msgs, m.length < maxmsglen) (hp : seen ++ [(buf, r)] <+: fss.flatten)
    (hs : callback s k (.receive buf r) = some t) :
    ∃ q', Reading k c t q' (seen ++ [(buf, r)]) out := by
  obtain ⟨w, ret, s', hw, hen, hs', ht⟩ := callback_some hs
  obtain ⟨hwsi, huser⟩ := enter_user_some hw (.receive buf r)
  obtain ⟨w', hw', hwc⟩ := user_some h.user
  obtain rfl : w = w' := Option.some.inj (hw.symm.trans hw')
  have hsound := h.toSound.updWsi _ (enter_user (.receive buf r)) k
  have hc := hsound.toWired.user_ws (huser ▸ h.user)
  rw [hwc] at hs'
  -- the message it belongs to fits the buffer, so it is not refused
  have hfits := Nat.le_of_lt (h.fits hf hlen hp)
  rw [← updWsi_uconns (s := s) k fun w => Reason.enter w (.receive buf r)] at hfits
  obtain rfl := recvfrag_accepts hfits hs'
  rw [leave_zero _ _ (.receive buf r) (by simp)] at ht
  subst ht
  have huser' : t.user k = some c := (handler_user hs' k).trans (huser ▸ h.user)
  by_cases hr : r = 0
  · subst hr
    obtain ⟨m, henq, hnew, hsound', hfo⟩ := hsound.received hc hs'
    refine ⟨_, hsound', huser', ?_, ?_⟩
    · have htext : ∀ x ∈ q (c, .incoming), t.pool.text x = s.pool.text x :=
        fun x hx => (henq.others x fun he => hnew _ (he ▸ hx)).2
      rw [Function.update_self, List.map_append, List.map_congr_left htext, ← List.append_assoc,
        h.queued, assemble_snoc, feed, if_pos rfl, List.map_append, List.map_singleton,
        List.map_singleton, henq.text, append_message]
      exact congrArg (fun cur => _ ++ [terminated (cur ++ buf)]) h.buffered
    · rw [hfo, assemble_snoc, feed, if_pos rfl]
      rfl
  · rcases recvfrag_some hs' with ⟨h0, -⟩ | ⟨-, -, ht⟩ | ⟨h0, -⟩
    · cases h0
    · have hkept := hsound.keep (t := t) hc
        (show t.uconns = Function.update _ c
          (((s.updWsi k fun w => Reason.enter w (.receive buf r)).uconns c).append buf) by
          rw [ht]; rfl) rfl (fun e => by cases e <;> rfl) (by rw [ht]; rfl)
        (hsound.toWired.handler (by simp) hs')
      refine ⟨q, hkept, huser', ?_, ?_⟩
      · rw [assemble_snoc, feed, if_neg hr, ← h.queued, ht]
        rfl
      · rw [assemble_snoc, feed, if_neg hr, ← h.buffered, ht, updConn_self]
        exact load_store_append _ _ buf
    · exact absurd h0 hr

theorem Reading.recv (h : Reading k c s q seen out) (id : Int) (len : Nat) :
    ∃ q', Reading k c (wsRecv s id len).state q' seen (out ++ output c s (.recv id len)) := by
  have huser := step_user h.toWired (e := .recv id len) rfl h.user nofun
  have hfrag := step_frag h.toWired (e := .recv id len) rfl h.user rfl
  have hbuf : load ((wsRecv s id len).state.uconns c).fb 0 ((wsRecv s id len).state.uconns c).fo =
      (assemble seen).2 := by
    rw [hfrag.1, hfrag.2]
    exact h.buffered
  rcases h.recv_cases id len with ⟨hr, hp, hsound⟩ | ⟨d, m, l, hv, hk, hr, hb, hp, hsound⟩
  · refine ⟨q, hsound, huser, ?_, hbuf⟩
    have hout : output c s (.recv id len) = [] := if_neg fun hpos => by omega
    rw [hout, List.append_nil, hp]
    exact h.queued
  · refine ⟨_, hsound, huser, ?_, hbuf⟩
    have htext : ∀ x, x ≠ m → (wsRecv s id len).state.pool.text x = s.pool.text x := by
      intro x hx
      rw [hp]
      simp [Pool.text, Pool.upd, hx]
    by_cases hdc : d = c
    · subst hdc
      have hm := h.queues.used _ m (hk ▸ List.mem_cons_self)
      have hout : output d s (.recv id len) = [s.pool.text m] := by
        rw [output, hb, if_pos]
        refine ⟨(uconnIsvalid_some hv).2, ?_⟩
        rw [hr]
        exact Int.natCast_pos.mpr (Nat.pos_of_ne_zero hm)
      have hnd := (h.queues.chain (d, .incoming)).nodup
      rw [hk] at hnd
      rw [hout, Function.update_self, List.map_congr_left fun x hx => htext x fun he =>
        (List.nodup_cons.mp hnd).1 (he ▸ hx), ← h.queued, hk]
      simp
    · have hout : output c s (.recv id len) = [] := by
        refine if_neg fun hid => hdc ?_
        have := (uconnIsvalid_some hv).2
        exact Fin.ext (Int.ofNat.inj (this.symm.trans hid.1))
      have hne : (c, Dir.incoming) ≠ (d, .incoming) := fun he => hdc (Prod.mk.inj he).1.symm
      rw [hout, List.append_nil, Function.update_of_ne hne, ← h.queued]
      refine congrArg (out ++ ·) (List.map_congr_left fun x hx => htext x ?_)
      rintro rfl
      exact h.queues.apart _ _ hne x hx (hk ▸ List.mem_cons_self)

theorem Reading.step (h : Reading k c s q seen out) (hf : List.Forall₂ Frags fss msgs)
    (hlen : ∀ m ∈ msgs, m.length < maxmsglen) (hp : seen ++ fragsOf k [e] <+: fss.flatten)
    (hs : Ws.step s e = some t) (hne : NonemptySend s e) (hd : e ≠ .callback k .wsiDestroy) :
    ∃ q', Reading k c t q' (seen ++ fragsOf k [e]) (out ++ output c s e) := by
  cases hr : e.frag k with
  | some f =>
    obtain ⟨buf, r, rfl⟩ : ∃ buf r, e = .callback k (.receive buf r) := by
      unfold Event.frag at hr
      split at hr
      · split at hr
        · next hj => exact ⟨_, _, by rw [hj]⟩
        · cases hr
      · cases hr
    have hfrags : fragsOf k [Event.callback k (.receive buf r)] = [(buf, r)] := by
      simp [fragsOf, Event.frag]
    rw [hfrags] at hp ⊢
    simpa [output] using h.receive hf hlen hp hs
  | none =>
    have hfrags : fragsOf k [e] = [] := by simp [fragsOf, hr]
    rw [hfrags, List.append_nil]
    by_cases hrecv : ∃ id len, e = .recv id len
    · obtain ⟨id, len, rfl⟩ := hrecv
      exact Option.some.inj hs ▸ h.recv id len
    · have hout : output c s e = [] := by
        cases e with
        | recv id len => exact absurd ⟨id, len, rfl⟩ hrecv
        | _ => rfl
      obtain ⟨q', hsound, heff⟩ := h.toSound.step hs hne
      have hq := heff.incoming h.toWired h.user hd hr fun id len he => hrecv ⟨id, len, he⟩
      have htext := heff.kept h.toSound hq
      obtain ⟨hfb, hfo⟩ := step_frag h.toWired hs h.user hr
      refine ⟨q', hsound, step_user h.toWired hs h.user hd, ?_, ?_⟩
      · rw [hout, List.append_nil, hq, List.map_congr_left htext]
        exact h.queued
      · rw [hfb, hfo]
        exact h.buffered

theorem Reading.run (h : Reading k c s q seen out) (hf : List.Forall₂ Frags fss msgs)
    (hlen : ∀ m ∈ msgs, m.length < maxmsglen) (hp : seen ++ fragsOf k es <+: fss.flatten)
    (hs : exec Ws.step s es = some t) (hne : ∀ id, Event.send id [] ∉ es)
    (hd : Event.callback k .wsiDestroy ∉ es) :
    ∃ q', Reading k c t q' (seen ++ fragsOf k es) (out ++ delivered c s es) := by
  induction es generalizing s q seen out with
  | nil =>
    obtain rfl := Option.some.inj hs
    exact ⟨q, by simpa [fragsOf, delivered] using h⟩
  | cons e es ih =>
    obtain ⟨u, hu, hs⟩ := Option.bind_eq_some_iff.mp hs
    have hfrags : fragsOf k (e :: es) = fragsOf k [e] ++ fragsOf k es :=
      List.filterMap_append (l := [e])
    rw [hfrags, ← List.append_assoc] at hp
    obtain ⟨q', hstep⟩ := h.step hf hlen ((List.prefix_append _ _).trans hp) hu
      (nonemptySend fun id he => hne id (he ▸ List.mem_cons_self))
      fun he => hd (he ▸ List.mem_cons_self)
    obtain ⟨q'', hrun⟩ := ih hstep hp hs (fun id hm => hne id (List.mem_cons_of_mem e hm))
      fun hm => hd (List.mem_cons_of_mem e hm)
    refine ⟨q'', ?_⟩
    rw [hfrags, delivered, hu, ← List.append_assoc, ← List.append_assoc]
    exact hrun

/-- The next fragment of the stream is not refused. -/
theorem Reading.accepts (h : Reading k c s q seen out) (hf : List.Forall₂ Frags fss msgs)
    (hlen : ∀ m ∈ msgs, m.length < maxmsglen) (hp : seen ++ [(buf, r)] <+: fss.flatten)
    (hest : s.phase k = some .established) (hfree : s.pool.Free x) :
    ∃ t, Ws.step s (.callback k (.receive buf r)) = some t ∧ t.phase k = some .established := by
  obtain ⟨w, hw, hphase⟩ := Option.map_eq_some_iff.mp hest
  obtain ⟨hwsi, huser⟩ := enter_user_some hw (.receive buf r)
  have hsound := h.toSound.updWsi _ (enter_user (.receive buf r)) k
  obtain ⟨w', hw', rfl⟩ := user_some h.user
  obtain rfl : w = w' := Option.some.inj (hw.symm.trans hw')
  obtain ⟨t, ht, htw⟩ := hsound.accepts (hsound.toWired.user_ws (huser ▸ h.user))
    (h.fits hf hlen hp) hfree
  refine ⟨t, ?_, ?_⟩
  · have henabled : Reason.Enabled w (.receive buf r) := hphase
    simp only [Ws.step, callback, hw, Option.bind_eq_bind, Option.bind_some, if_pos henabled]
    simp only [lwsHandler, ht, Option.bind_some, leave_zero _ _ (.receive buf r) (by simp)]
    rfl
  · rw [State.phase, htw, hwsi]
    exact congrArg some hphase

/-- A message that is there can be read. -/
theorem Reading.readable (h : Reading k c s q seen out) (hid : (s.uconns c).id = c.val)
    (hk : q (c, .incoming) = m :: l) :
    0 < (wsRecv s c.val 1024).r ∧ (wsRecv s c.val 1024).buf = s.pool.text m := by
  obtain ⟨mb, hpop, -⟩ := h.queues.dequeue hk (h.bounded m)
  rw [heads_live (h.user_ws h.user)] at hpop
  have hpop' : mbufp s.pool (s.uconns c).iq 1024 = _ := hpop
  simp only [wsRecv, uconnIsvalid_self hid, hpop']
  refine ⟨Int.natCast_pos.mpr (Nat.pos_of_ne_zero ?_), trivial⟩
  exact h.queues.used _ m (hk ▸ List.mem_cons_self)

/-- A connection on which nothing was received yet. -/
theorem Sound.reading (h : Sound s q) (hu : s.user k = some c) (hiq : (s.uconns c).iq = none)
    (hfo : (s.uconns c).fo = 0) : Reading k c s q [] [] := by
  refine ⟨h, hu, ?_, ?_⟩
  · have hhead : heads s (c, .incoming) = none := (heads_live (h.user_ws hu) .incoming).trans hiq
    rw [(h.queues.chain (c, .incoming)).nil_iff.mp hhead]
    rfl
  · rw [hfo]
    rfl

end Reading

/-- The messages that wait to be read have `P`, with the NUL behind them. -/
def Holding (P : List UInt8 → Prop) (s : State) : Prop :=
  ∃ q, Sound s q ∧ ∀ c, ∀ m ∈ q (c, .incoming), P (s.pool.text m)

/-- The messages that an event completes have `P`. -/
def Completes (P : List UInt8 → Prop) (s : State) : Event → Prop
  | .callback k (.receive buf 0) => ∀ c, s.user k = some c → P ((s.uconns c).append buf).message
  | _ => True

section Holding
variable {s t : State} {q q' : Conn × Dir → List Slot} {P : List UInt8 → Prop}

/-- A message that waits after a step waited before it, or is the one that came. -/
theorem Effect.waits (h : Effect s t q q' e) (hs : Sound s q) (hm : m ∈ q' (c, .incoming)) :
    m ∈ q (c, .incoming) ∧ t.pool.text m = s.pool.text m ∨
      ∃ k buf, e = .callback k (.receive buf 0) ∧ s.user k = some c ∧
        t.pool.text m = ((s.uconns c).append buf).message := by
  by_cases hsame : q' (c, .incoming) = q (c, .incoming)
  · have htext := h.kept hs hsame
    rw [hsame] at hm
    exact Or.inl ⟨hm, htext m hm⟩
  cases h with
  | quiet _ hq => exact absurd (congrFun hq _) hsame
  | send hc hm hn hq =>
    rw [hq, Function.update_of_ne (by simp)] at hsame
    exact absurd rfl hsame
  | relay hw hk hp hq =>
    rw [hq, Function.update_of_ne (by simp)] at hsame
    exact absurd rfl hsame
  | @receive k d frag x hw henq _ hq =>
    have hcd : c = d := by
      by_contra hne
      rw [hq, Function.update_of_ne (by simp [hne])] at hsame
      exact hsame rfl
    subst hcd
    rw [hq, Function.update_self] at hm
    rcases List.mem_append.mp hm with hm | hm
    · have hne : m ≠ x := fun he => hs.queues.used _ m hm (he ▸ henq.free)
      exact Or.inl ⟨hm, (henq.others m hne).2⟩
    · rw [List.mem_singleton.mp hm]
      exact Or.inr ⟨k, frag, rfl, hw, henq.text⟩
  | @recv d x l _ id _ hk hp hq =>
    have hcd : c = d := by
      by_contra hne
      rw [hq, Function.update_of_ne (by simp [hne])] at hsame
      exact hsame rfl
    subst hcd
    rw [hq, Function.update_self] at hm
    have hnodup := (hs.queues.chain (c, .incoming)).nodup
    rw [hk] at hnodup ⊢
    have hne : m ≠ x := fun he => (List.nodup_cons.mp hnodup).1 (he ▸ hm)
    refine Or.inl ⟨List.mem_cons_of_mem x hm, ?_⟩
    rw [hp]
    simp [Pool.text, Pool.upd, hne]
  | @destroy k d _ _ _ hq =>
    rw [hq, Function.update_of_ne (by simp)] at hm hsame
    by_cases hcd : c = d
    · rw [hcd, Function.update_self] at hm
      cases hm
    · rw [Function.update_of_ne (by simp [hcd])] at hsame
      exact absurd rfl hsame

theorem Holding.step (h : Holding P s) (hs : Ws.step s e = some t) (hne : NonemptySend s e)
    (hc : Completes P s e) : Holding P t := by
  obtain ⟨q, hq, hP⟩ := h
  obtain ⟨q', hq', heff⟩ := hq.step hs hne
  refine ⟨q', hq', fun c m hm => ?_⟩
  rcases heff.waits hq hm with ⟨hm, htext⟩ | ⟨k, buf, rfl, huser, htext⟩
  · rw [htext]
    exact hP c m hm
  · rw [htext]
    exact hc c huser

/-- What `ws_recv` returns is nothing, or a message that waited. -/
theorem Holding.recv {id : Int} (h : Holding P s) (hr : 0 < (wsRecv s id len).r) :
    P (wsRecv s id len).buf ∧ (wsRecv s id len).r = (wsRecv s id len).buf.length ∧
      (wsRecv s id len).buf.length ≤ maxmsglen := by
  obtain ⟨q, hq, hP⟩ := h
  rcases hq.recv_cases id len with ⟨hle, -⟩ | ⟨c, m, l, -, hk, hlen, hbuf, -⟩
  · omega
  · have hm : m ∈ q (c, .incoming) := hk ▸ List.mem_cons_self
    have htext : (s.pool.text m).length = (s.pool.mbufs m).len := load_length ..
    rw [hbuf, hlen, htext]
    exact ⟨hP c m hm, rfl, hq.bounded m⟩

end Holding

/-- From a point where nothing was received on connection `k`, for any messages
of at most 1023 bytes in any fragments, and any other events in between: what
`ws_recv` returned, followed by what is queued, is the messages that are
complete. The fragments buffer is empty after each of them, the next fragment is
taken in while an mbuf is free, and the head of the queue can be read. -/
theorem recv_messages {k : Nat} {c : Conn} {s₀ s : State} {es₀ es : List Event}
    {fss : List (List (Frag UInt8))} {msgs : List (List UInt8)}
    (hf : List.Forall₂ Frags fss msgs) (hlen : ∀ m ∈ msgs, m.length ≤ 1023)
    (hs₀ : exec step initWs es₀ = some s₀) (huser : s₀.user k = some c)
    (hiq : (s₀.uconns c).iq = none) (hfo : (s₀.uconns c).fo = 0)
    (hsend : ∀ id, Event.send id [] ∉ es₀ ++ es) (hd : Event.callback k .wsiDestroy ∉ es)
    (hp : fragsOf k es <+: fss.flatten) (hs : exec step s₀ es = some s) :
    ∃ l, Chain (fun m => (s.pool.mbufs m).next) (s.uconns c).iq l ∧
      delivered c s₀ es ++ l.map s.pool.text =
        (msgs.take (complete (fragsOf k es))).map terminated ∧
      (∀ f, (fragsOf k es).getLast? = some f → f.2 = 0 → (s.uconns c).fo = 0) ∧
      (∀ buf r x, fragsOf k es ++ [(buf, r)] <+: fss.flatten → s.phase k = some .established →
        s.pool.Free x → ∃ t, step s (.callback k (.receive buf r)) = some t ∧
          t.phase k = some .established) ∧
      ∀ m l', l = m :: l' → (s.uconns c).id = c.val →
        0 < (wsRecv s c.val 1024).r ∧ (wsRecv s c.val 1024).buf = s.pool.text m := by
  have hlen' : ∀ m ∈ msgs, m.length < maxmsglen := fun m hm => Nat.lt_succ_of_le (hlen m hm)
  obtain ⟨q₀, hsound⟩ := sound_run hs₀ fun id hm => hsend id (List.mem_append_left _ hm)
  obtain ⟨q, h⟩ := (hsound.reading huser hiq hfo).run hf hlen' hp hs
    (fun id hm => hsend id (List.mem_append_right _ hm)) hd
  rw [List.nil_append] at h
  have hchain := h.queues.chain (c, .incoming)
  rw [heads_live (h.user_ws h.user)] at hchain
  have hdone : (assemble (fragsOf k es)).1 = msgs.take (complete (fragsOf k es)) := by
    rw [assemble, assemble_stream hf hp, List.nil_append]
  refine ⟨q (c, .incoming), hchain, ?_, ?_, ?_, ?_⟩
  · rw [← hdone]
    exact h.queued
  · intro f hlast hr
    obtain ⟨seen, hseen⟩ := List.getLast?_eq_some_iff.mp hlast
    rw [h.offset, hseen, assemble_snoc, feed, if_pos hr]
    rfl
  · exact fun buf r x hnext hest hfree => h.accepts hf hlen' hnext hest hfree
  · exact fun m l' hl hid => h.readable hid hl

/-- A command in two fragments and an empty one, with a read in between. -/
def twoMessages : List Event :=
  [.callback 0 (.receive [123] 1), .recv 0 1024, .callback 0 (.receive [125] 0),
    .callback 0 (.receive [] 0), .recv 0 1024]

theorem recv_two_messages :
    ∃ s₀ s, exec step initWs [.connect 0 true, .callback 0 .established] = some s₀ ∧
      exec step s₀ twoMessages = some s ∧
      ∃ l, Chain (fun m => (s.pool.mbufs m).next) (s.uconns 0).iq l ∧
        delivered 0 s₀ twoMessages ++ l.map s.pool.text = [[123, 125, 0], [0]] ∧
        (s.uconns 0).fo = 0 := by
  obtain ⟨s₀, hs₀, hview⟩ := Option.map_eq_some_iff.mp (show (exec step initWs
    [.connect 0 true, .callback 0 .established]).map (fun s =>
      (s.user 0, (s.uconns 0).iq, (s.uconns 0).fo)) = some (some 0, none, 0) by decide)
  obtain ⟨huser, hview⟩ := Prod.mk.inj hview
  obtain ⟨hiq, hfo⟩ := Prod.mk.inj hview
  have hrun : ((exec step initWs [.connect 0 true, .callback 0 .established]).bind fun s =>
      exec step s twoMessages).isSome := by decide
  rw [hs₀, Option.bind_some] at hrun
  obtain ⟨s, hs⟩ := Option.isSome_iff_exists.mp hrun
  have hfrags : List.Forall₂ Frags [[([123], 1), ([125], 0)], [([], 0)]]
      [[123, 125], ([] : List UInt8)] :=
    .cons (.more (.last [125]) (by simp)) (.cons (.last []) .nil)
  obtain ⟨l, hl, hout, hoff, -⟩ := recv_messages hfrags (by decide) hs₀ huser hiq hfo
    (fun id => by simp [twoMessages]) (by simp [twoMessages]) ⟨[], rfl⟩ hs
  exact ⟨s₀, s, hs₀, hs, l, hl, hout, hoff ([], 0) rfl rfl⟩

end Oin17.Ws
