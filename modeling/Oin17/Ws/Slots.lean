import Oin17.Ws.Wiring

namespace Oin17.Ws
open Run

/-- What became of the last connection of a slot: the application closed its id, and
libwebsockets destroyed it. A slot that had no connection is as one that had both. -/
structure Ended where
  closed : Bool
  destroyed : Bool

abbrev Slots := Conn → Ended

/-- What an event says of the slots. -/
def note (s : State) (f : Slots) : Event → Slots
  | .connect uq ok =>
    match newuconn s uq with
    | some (c, _) => if ok then Function.update f c ⟨false, false⟩ else f
    | none => f
  | .close id => fun c => if id = (c.val : Int) then { f c with closed := true } else f c
  | .callback k .wsiDestroy =>
    match s.wsis k with
    | some w => Function.update f w.user { f w.user with destroyed := true }
    | none => f
  | _ => f

/-- The steps of the module, with what was seen of its slots. -/
def track (p : State × Slots) (e : Event) : Option (State × Slots) :=
  (step p.1 e).map fun t => (t, note p.1 p.2 e)

def start : State × Slots := (initWs, fun _ => ⟨true, true⟩)

/-- `id` tells what the application did with a slot, and `ws` what libwebsockets did. -/
structure Kept (s : State) (f : Slots) : Prop extends Wired s where
  id : ∀ c, (s.uconns c).id = if (f c).closed then -1 else (c.val : Int)
  ws : ∀ c, (s.uconns c).ws = none ↔ (f c).destroyed = true

theorem start_kept : Kept start.1 start.2 where
  toWired := wired_init
  id _ := rfl
  ws _ := ⟨fun _ => rfl, fun _ => rfl⟩

section Slots
variable {s t : State} {f : Slots} {id : Int}

theorem Kept.valid_iff (h : Kept s f) (c : Conn) :
    uconnIsvalid s id = some c ↔ id = (c.val : Int) ∧ (f c).closed = false := by
  constructor
  · intro hc
    obtain ⟨hid, hval⟩ := uconnIsvalid_some hc
    refine ⟨hval, ?_⟩
    have := h.id c
    rw [hid, hval] at this
    cases hf : (f c).closed with
    | false => rfl
    | true =>
      rw [hf, if_pos rfl] at this
      omega
  · rintro ⟨rfl, hf⟩
    apply uconnIsvalid_self
    rw [h.id c, hf]
    rfl

/-- Steps that leave the ids and the connections of the slots alone. -/
theorem Kept.congr (h : Kept s f) (hw : Wired t)
    (hid : ∀ c, (t.uconns c).id = (s.uconns c).id) (hws : ∀ c, (t.uconns c).ws = (s.uconns c).ws) :
    Kept t f :=
  ⟨hw, fun c => (hid c).trans (h.id c), fun c => by rw [hws c, h.ws c]⟩

theorem newuconn_id (h : newuconn s uq = some (c, t)) : (s.uconns c).id < 0 := by
  unfold newuconn at h
  split at h
  · cases h
  · next d hd =>
    obtain ⟨rfl, -⟩ := Prod.mk.inj (Option.some.inj h)
    have hfree := List.find?_some hd
    rw [Bool.and_eq_true, decide_eq_true_eq] at hfree
    exact hfree.2

/-- A slot that is handed out had both. -/
theorem Kept.free (h : Kept s f) (hc : newuconn s uq = some (c, t)) :
    (f c).closed = true ∧ (f c).destroyed = true := by
  refine ⟨?_, (h.ws c).mp (newuconn_some hc).1⟩
  have hneg := newuconn_id hc
  rw [h.id c] at hneg
  split at hneg
  · assumption
  · omega

theorem Kept.connect (h : Kept s f) (uq : Int) (ok : Bool) :
    Kept (wsConnect s uq ok).2 (note s f (.connect uq ok)) := by
  have hw := h.toWired.connect uq ok
  unfold wsConnect at hw ⊢
  simp only [note]
  cases hc : newuconn s uq with
  | none => exact h
  | some p =>
    obtain ⟨c, s'⟩ := p
    obtain ⟨hclosed, hdestroyed⟩ := h.free hc
    obtain ⟨-, rfl⟩ := newuconn_some hc
    simp only [hc] at hw ⊢
    cases ok with
    | false =>
      refine ⟨hw, fun d => ?_, fun d => ?_⟩
      · by_cases hd : d = c
        · subst hd
          simp [deluconn, updConn_self, hclosed]
        · simp only [Bool.false_eq_true, if_false, deluconn, updConn_ne hd]
          exact h.id d
      · by_cases hd : d = c
        · subst hd
          simp [deluconn, updConn_self, Uconn.take, hdestroyed]
        · simp only [Bool.false_eq_true, if_false, deluconn, updConn_ne hd]
          exact h.ws d
    | true =>
      refine ⟨hw, fun d => ?_, fun d => ?_⟩
      · by_cases hd : d = c
        · subst hd
          simp [openWsi_uconns, updConn_self, Uconn.take]
        · simp only [if_true, openWsi_uconns, updConn_ne hd, Function.update_of_ne hd]
          exact h.id d
      · by_cases hd : d = c
        · subst hd
          simp [openWsi_uconns, updConn_self]
        · simp only [if_true, openWsi_uconns, updConn_ne hd, Function.update_of_ne hd]
          exact h.ws d

theorem Kept.close (h : Kept s f) (id : Int) : Kept (wsClose s id) (note s f (.close id)) := by
  have hw := h.toWired.close id
  unfold wsClose at hw ⊢
  cases hv : uconnIsvalid s id with
  | none =>
    -- the id was closed before, or is none of the module's
    have hsame : note s f (.close id) = f := by
      funext c
      simp only [note]
      split
      · next hid =>
        have hclosed : (f c).closed = true := by
          by_contra hopen
          rw [(h.valid_iff c).mpr ⟨hid, Bool.of_not_eq_true hopen⟩] at hv
          cases hv
        rw [← hclosed]
      · rfl
    rw [hsame]
    exact h
  | some c =>
    have hid := ((h.valid_iff c).mp hv).1
    simp only [hv] at hw
    refine ⟨hw, fun d => ?_, fun d => ?_⟩
    · by_cases hd : d = c
      · subst hd
        simp [note, hid, deluconn, updConn_self]
      · have hne : ¬ id = (d.val : Int) := by
          intro he
          exact hd (Fin.ext (Int.ofNat.inj (he.symm.trans hid)))
        simp only [note, if_neg hne, deluconn, updConn_ne hd]
        exact h.id d
    · have hkeep : (f d).destroyed = (note s f (.close id) d).destroyed := by
        simp only [note]
        split <;> rfl
      rw [← hkeep, ← h.ws d]
      exact Eq.congr_left (updConn_keep (f := fun uc => { uc with id := -1 }) Uconn.ws (fun _ => rfl) c d)

theorem Kept.send (h : Kept s f) (hs : wsSend s id buf = some (r, t)) : Kept t f := by
  have hw := h.toWired.send hs
  rcases wsSend_some hs with ⟨-, rfl⟩ | ⟨c, m, p₁, oq, p₂, k, w, -, -, -, -, -, rfl⟩
  · exact h
  · refine h.congr hw (fun d => ?_) (fun d => ?_)
    · exact updConn_keep (s := { s with pool := p₂ })
        (f := fun uc => { uc with oq := oq, st := uc.st ||| sSendreq }) Uconn.id (fun _ => rfl) c d
    · exact updConn_keep (s := { s with pool := p₂ })
        (f := fun uc => { uc with oq := oq, st := uc.st ||| sSendreq }) Uconn.ws (fun _ => rfl) c d

theorem Kept.recv (h : Kept s f) (id : Int) (len : Nat) : Kept (wsRecv s id len).state f := by
  have hw := h.toWired.recv id len
  unfold wsRecv at hw ⊢
  cases hv : uconnIsvalid s id with
  | none => exact h
  | some c =>
    simp only [hv] at hw
    exact h.congr hw
      (updConn_keep (s := { s with pool := (mbufp s.pool (s.uconns c).iq len).pool })
        (f := fun uc => { uc with iq := (mbufp s.pool (s.uconns c).iq len).mb })
        Uconn.id (fun _ => rfl) c)
      (updConn_keep (s := { s with pool := (mbufp s.pool (s.uconns c).iq len).pool })
        (f := fun uc => { uc with iq := (mbufp s.pool (s.uconns c).iq len).mb })
        Uconn.ws (fun _ => rfl) c)

/-- What an update of a uconn leaves when it touches neither its id nor its connection. -/
theorem updConn_slots {u : Uconn → Uconn} (hid : ∀ uc, (u uc).id = uc.id)
    (hws : ∀ uc, (u uc).ws = uc.ws) (c d : Conn) :
    ((s.updConn c u).uconns d).id = (s.uconns d).id ∧
      ((s.updConn c u).uconns d).ws = (s.uconns d).ws :=
  ⟨updConn_keep Uconn.id hid c d, updConn_keep Uconn.ws hws c d⟩

/-- A callback other than WSI_DESTROY leaves ids and connections alone. -/
theorem handler_slots (hs : lwsHandler s k c rs = some (r, t)) (hd : rs ≠ .wsiDestroy) (d : Conn) :
    (t.uconns d).id = (s.uconns d).id ∧ (t.uconns d).ws = (s.uconns d).ws := by
  cases handler_cases hs with
  | same | reported => exact ⟨rfl, rfl⟩
  | requested =>
    exact updConn_slots (s := s.updWsi k Wsi.request)
      (u := fun uc => { uc with st := uc.st - (uc.st &&& sSendreq) })
      (fun _ => rfl) (fun _ => rfl) c d
  | @appended buf => 
    exact updConn_slots (u := fun uc => uc.append buf) (fun _ => rfl) (fun _ => rfl) c d
  | @queued buf _ _ iq p₂ =>
    exact updConn_slots (s := { s with pool := p₂ }) (u := fun uc => { uc.append buf with
      fb := Function.update (uc.append buf).fb (uc.append buf).fo 0, iq := iq, fo := 0 })
      (fun _ => rfl) (fun _ => rfl) c d
  | relayed =>
    exact updConn_slots (s := { s with pool := (mbufp s.pool (s.uconns c).oq 1024).pool })
      (u := fun uc => { uc with oq := (mbufp s.pool (s.uconns c).oq 1024).mb })
      (fun _ => rfl) (fun _ => rfl) c d
  | destroyed => exact absurd rfl hd

theorem Kept.destroy (h : Kept s f) (hs : callback s k .wsiDestroy = some t) :
    Kept t (note s f (.callback k .wsiDestroy)) := by
  have hwired := h.toWired.callback hs
  obtain ⟨w, r, s', hw, -, hs', rfl⟩ := callback_some hs
  simp only [lwsHandler, Option.bind_eq_bind, Option.bind_eq_some_iff] at hs'
  obtain ⟨⟨iq₁, p₁⟩, -, ⟨iq₂, p₂⟩, -, hs'⟩ := hs'
  obtain ⟨-, rfl⟩ := Prod.mk.inj (Option.some.inj hs')
  simp only [note, hw]
  refine ⟨hwired, fun d => ?_, fun d => ?_⟩
  · by_cases hd : d = w.user
    · subst hd
      simp only [leave, updConn_self, Function.update_self, updWsi_uconns]
      exact h.id w.user
    · simp only [leave, updConn_ne hd, Function.update_of_ne hd, updWsi_uconns]
      exact h.id d
  · by_cases hd : d = w.user
    · subst hd
      simp [leave, updConn_self]
    · simp only [leave, updConn_ne hd, Function.update_of_ne hd, updWsi_uconns]
      exact h.ws d

/-- The other callbacks say nothing of the slots. -/
theorem note_callback (hd : rs ≠ .wsiDestroy) : note s f (.callback k rs) = f := by
  cases rs <;> first | exact absurd rfl hd | rfl

theorem Kept.callback (h : Kept s f) (hs : Ws.callback s k rs = some t) :
    Kept t (note s f (.callback k rs)) := by
  by_cases hd : rs = .wsiDestroy
  · subst hd
    exact h.destroy hs
  · rw [note_callback hd]
    have hwired := h.toWired.callback hs
    obtain ⟨w, r, s', -, -, hs', rfl⟩ := callback_some hs
    have hslots := handler_slots hs' hd
    refine h.congr hwired (fun d => ?_) (fun d => ?_)
    · rw [leave_uconns]
      exact (hslots d).1
    · rw [leave_uconns]
      exact (hslots d).2

theorem Kept.step (h : Kept s f) (hs : step s e = some t) : Kept t (note s f e) := by
  cases e with
  | connect uq ok => exact Option.some.inj hs ▸ h.connect uq ok
  | close id => exact Option.some.inj hs ▸ h.close id
  | send id buf =>
    obtain ⟨⟨r, u⟩, hu, rfl⟩ := Option.map_eq_some_iff.mp hs
    exact h.send hu
  | recv id len => exact Option.some.inj hs ▸ h.recv id len
  | callback k rs => exact h.callback hs

theorem Kept.track {p q : State × Slots} (h : Kept p.1 p.2) (hs : Ws.track p e = some q) :
    Kept q.1 q.2 := by
  obtain ⟨t, ht, rfl⟩ := Option.map_eq_some_iff.mp hs
  exact h.step ht

theorem kept_run (hs : exec Ws.track start es = some (s, f)) : Kept s f :=
  exec_inv (fun p => Kept p.1 p.2) (fun _ => True) (fun _ _ _ hp _ ht => hp.track ht) start_kept
    (fun _ _ => trivial) hs

/-- A slot that had both is found free. -/
theorem newuconn_free (hid : (s.uconns c).id < 0) (hws : (s.uconns c).ws = none) (uq : Int) :
    newuconn s uq ≠ none := by
  unfold newuconn
  split
  · next hnone =>
    have := List.find?_eq_none.mp hnone c (List.mem_finRange c)
    simp [hid, hws] at this
  · simp

end Slots

/-- `ws_connect` hands out no slot of a live connection, so that no two of them
share one; and a slot that was closed and destroyed, in whichever order, is free. -/
theorem slots_owned (h : exec track start es = some (s, f)) :
    (∀ uq c t, newuconn s uq = some (c, t) → ∀ k w, s.wsis k = some w → w.user ≠ c) ∧
      (∀ j k v w, s.wsis j = some v → s.wsis k = some w → v.user = w.user → j = k) ∧
        ∀ c, (f c).closed = true → (f c).destroyed = true →
          (s.uconns c).id < 0 ∧ (s.uconns c).ws = none ∧ ∀ uq, newuconn s uq ≠ none := by
  have hkept := kept_run h
  refine ⟨?_, ?_, ?_⟩
  · intro uq c t hc k w hw
    exact hkept.user_live hw (newuconn_some hc).1
  · intro j k v w hv hw huser
    by_contra hjk
    exact hkept.user_ne hw hv hjk huser
  · intro c hclosed hdestroyed
    have hid : (s.uconns c).id < 0 := by
      rw [hkept.id c, if_pos hclosed]
      decide
    have hws := (hkept.ws c).mpr hdestroyed
    exact ⟨hid, hws, newuconn_free hid hws⟩

/-- One slot that is closed first, and one that is destroyed first. -/
def bothEnds : List Event :=
  [.connect 0 true, .connect 0 true, .close 0, .callback 1 .connectionError,
    .callback 1 .wsiDestroy, .callback 0 .connectionError, .callback 0 .wsiDestroy, .close 1]

theorem slots_owned_both_ends :
    ∃ s f, exec track start bothEnds = some (s, f) ∧
      ∀ c, (s.uconns c).ws = none ∧ ∀ uq, newuconn s uq ≠ none := by
  have hview : (exec track start bothEnds).map (fun p =>
      (List.finRange 16).all fun c => (p.2 c).closed && (p.2 c).destroyed) = some true := by decide
  obtain ⟨⟨s, f⟩, h, hall⟩ := Option.map_eq_some_iff.mp hview
  refine ⟨s, f, h, fun c => ?_⟩
  have hc := List.all_eq_true.mp hall c (List.mem_finRange c)
  rw [Bool.and_eq_true] at hc
  exact ((slots_owned h).2.2 c hc.1 hc.2).2

/-- What is asked of `ws_send`: a live connection on each id that it accepts,
and -1 with nothing queued for the others. -/
def SendLive (p : State × Slots) : Event → Prop
  | .send id buf =>
    match uconnIsvalid p.1 id with
    | some c => ∃ k w, (p.1.uconns c).ws = some k ∧ p.1.wsis k = some w
    | none => wsSend p.1 id buf = some (-1, p.1)
  | _ => True

/-- The application does not send on an id that it left open after the
connection was destroyed. -/
def Unorphaned (p : State × Slots) : Event → Prop
  | .send id _ => ∀ c : Conn, id = (c.val : Int) → (p.2 c).closed = false → (p.2 c).destroyed = false
  | _ => True

theorem Kept.live_iff {s : State} {f : Slots} (h : Kept s f) (c : Conn) :
    (∃ k w, (s.uconns c).ws = some k ∧ s.wsis k = some w) ↔ (f c).destroyed = false := by
  constructor
  · rintro ⟨k, w, hk, -⟩
    by_contra hd
    rw [(h.ws c).mpr (Bool.of_not_eq_false hd)] at hk
    cases hk
  · intro hd
    have hws : (s.uconns c).ws ≠ none := by
      intro hnone
      rw [(h.ws c).mp hnone] at hd
      cases hd
    obtain ⟨k, hk⟩ := Option.ne_none_iff_exists'.mp hws
    obtain ⟨w, hw, -⟩ := h.conn c k hk
    exact ⟨k, w, hk, hw⟩

theorem Kept.send_iff {p : State × Slots} (h : Kept p.1 p.2) (e : Event) :
    SendLive p e ↔ Unorphaned p e := by
  cases e with
  | send id buf =>
    simp only [SendLive, Unorphaned]
    cases hv : uconnIsvalid p.1 id with
    | none =>
      refine iff_of_true (by simp [wsSend, hv]) fun c hid hopen => ?_
      rw [(h.valid_iff c).mpr ⟨hid, hopen⟩] at hv
      cases hv
    | some c =>
      obtain ⟨hid, hopen⟩ := (h.valid_iff c).mp hv
      constructor
      · intro hlive d hd hopen'
        obtain rfl : d = c := Fin.ext (Int.ofNat.inj (hd.symm.trans hid))
        exact (h.live_iff d).mp hlive
      · intro hkept
        exact (h.live_iff c).mpr (hkept c hid hopen)
  | _ => exact Iff.rfl

/-- `ws_send` looks at the id alone, which only the application resets, while
the connection goes with WSI_DESTROY: it finds a live connection in exactly the
runs that send nothing between the two. -/
theorem send_live_iff (es : List Event) :
    Each track SendLive start es ↔ Each track Unorphaned start es :=
  each_congr (fun p => Kept p.1 p.2) (fun _ => True) SendLive Unorphaned
    (fun _ _ _ h ht => h.track ht) (fun _ e h _ => h.send_iff e) start_kept (fun _ _ => trivial)

/-- The connection fails, and the application does not know of it yet. -/
def failed : List Event := [.connect 0 true, .callback 0 .connectionError, .callback 0 .wsiDestroy]

theorem send_late_orphaned : ¬ Each track SendLive start (failed ++ [.send 0 [123, 125]]) := by
  intro h
  obtain ⟨⟨s, f⟩, hp, hview⟩ := Option.map_eq_some_iff.mp (show (exec track start failed).map
    (fun p => (uconnIsvalid p.1 0, (p.1.uconns 0).ws)) = some (some 0, none) by decide)
  obtain ⟨hv, hws⟩ := Prod.mk.inj hview
  have hlive := h.after hp
  simp only [SendLive, hv] at hlive
  obtain ⟨k, w, hk, -⟩ := hlive
  cases hk.symm.trans hws

end Oin17.Ws
