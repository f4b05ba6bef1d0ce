import Oin17.Ws.Wiring

namespace Oin17.Ws
open Run

/-- An established connection with queued messages has a WRITEABLE callback due. -/
def NotStranded (s : State) : Prop :=
  ∀ k w, s.wsis k = some w → w.phase = .established → (s.uconns w.user).oq ≠ none →
    w.pending = true

/-- A WRITEABLE callback whose write succeeds finds one message at most. -/
def SingleMessage (s : State) : Event → Prop
  | .callback k (.writeable n) => ∀ w m, s.wsis k = some w → (s.uconns w.user).oq = some m →
    (s.pool.mbufs m).len = 0 ∨ (s.pool.mbufs m).len = n → (s.pool.mbufs m).next = none
  | _ => True

/-- What `NotStranded` says of one connection, and that a connection being
established remembers that there is data to send. -/
def ArmedAt (s : State) (w : Wsi) : Prop :=
  (s.uconns w.user).oq ≠ none →
    (w.phase = .connecting → (s.uconns w.user).st &&& sSendreq ≠ 0) ∧
      (w.phase = .established → w.pending = true)

structure Armed (s : State) : Prop extends Wired s where
  bounded : Bounded s.pool
  armed : ∀ k w, s.wsis k = some w → ArmedAt s w

theorem armed_init : Armed initWs :=
  ⟨wired_init, bounded_init, by simp [initWs]⟩

theorem Armed.notStranded (h : Armed s) : NotStranded s :=
  fun k w hw he hq => (h.armed k w hw hq).2 he

section Steps
variable {s t : State} {id : Int}

theorem ArmedAt.congr (h : ArmedAt s w) (hq : (t.uconns w.user).oq = (s.uconns w.user).oq)
    (hst : (t.uconns w.user).st = (s.uconns w.user).st) : ArmedAt t w := by
  unfold ArmedAt
  rw [hq, hst]
  exact h

theorem sendreq_set (st : Nat) : (st ||| sSendreq) &&& sSendreq ≠ 0 := by
  intro h
  have := congrArg (Nat.testBit · 0) h
  simp [sSendreq] at this

theorem Armed.connect (h : Armed s) (uq : Int) (ok : Bool) (k : Nat) (w : Wsi)
    (hw : (wsConnect s uq ok).2.wsis k = some w) : ArmedAt (wsConnect s uq ok).2 w := by
  rcases wsConnect_cases s uq ok with he | ⟨c, hc, he | he⟩ <;> rw [he] at hw ⊢
  · exact h.armed k w hw
  · have hne := h.user_live hw hc
    refine (h.armed k w hw).congr ?_ ?_ <;> simp only [deluconn, updConn_ne hne]
  · rcases openWsi_some hw with rfl | ⟨-, hw⟩
    · intro hq
      rw [openWsi_uconns, updConn_self, updConn_self] at hq
      exact absurd rfl hq
    · have hne := h.user_live hw hc
      refine (h.armed k w hw).congr ?_ ?_ <;>
        simp only [openWsi_uconns, updConn_ne hne]

theorem Armed.close (h : Armed s) (id : Int) (k : Nat) (w : Wsi)
    (hw : (wsClose s id).wsis k = some w) : ArmedAt (wsClose s id) w := by
  unfold wsClose at hw ⊢
  split at hw
  · next hv => simpa only [hv] using h.armed k w hw
  · next c hv =>
    apply (h.armed k w hw).congr
    · exact updConn_keep (f := fun uc => { uc with id := -1 }) Uconn.oq (fun _ => rfl) c w.user
    · exact updConn_keep (f := fun uc => { uc with id := -1 }) Uconn.st (fun _ => rfl) c w.user

theorem Armed.send (h : Armed s) (hs : wsSend s id buf = some (r, t)) (k : Nat) (w : Wsi)
    (hw : t.wsis k = some w) : ArmedAt t w := by
  rcases wsSend_some hs with ⟨-, rfl⟩ | ⟨c, m, p₁, oq, p₂, j, v, -, -, -, hj, hv, rfl⟩
  · exact h.armed k w hw
  · obtain ⟨u, hu, rfl⟩ := updWsi_some hw
    by_cases hkj : k = j
    · subst hkj
      have huc : u.user = c := by
        obtain ⟨x, hx, rfl⟩ := h.conn c k hj
        exact congrArg Wsi.user (Option.some.inj (hu.symm.trans hx))
      rw [if_pos rfl]
      intro _
      rw [updWsi_uconns, request_user, huc, updConn_self]
      refine ⟨fun _ => sendreq_set _, fun he => ?_⟩
      unfold Wsi.request at he ⊢
      split
      · rfl
      · next hne =>
        rw [if_neg hne] at he
        exact absurd he hne
    · have hne : u.user ≠ c := by
        rintro rfl
        rw [h.live k u hu] at hj
        exact hkj (Option.some.inj hj)
      rw [if_neg hkj]
      refine (h.armed k u hu).congr ?_ ?_ <;> simp only [updWsi_uconns, updConn_ne hne]

theorem Armed.recv (h : Armed s) (id : Int) (len : Nat) (k : Nat) (w : Wsi)
    (hw : (wsRecv s id len).state.wsis k = some w) : ArmedAt (wsRecv s id len).state w := by
  unfold wsRecv at hw ⊢
  split at hw
  · next hv => simpa only [hv] using h.armed k w hw
  · next c hv =>
    apply (h.armed k w hw).congr <;> dsimp only
    · apply updConn_keep Uconn.oq
      exact fun _ => rfl
    · apply updConn_keep Uconn.st
      exact fun _ => rfl

theorem armedAt_closing (hw : w.phase = .closing) : ArmedAt s w := by
  intro _
  rw [hw]
  exact ⟨nofun, nofun⟩

/-- A connection that is being closed has nothing to be armed for. -/
theorem leave_armed (hr : r ≠ 0) (hd : rs ≠ .wsiDestroy)
    (hv : (leave s k rs r).wsis k = some v) : ArmedAt (leave s k rs r) v := by
  rw [leave_other hd, if_pos hr] at hv ⊢
  obtain ⟨u, -, rfl⟩ := updWsi_some hv
  rw [if_pos rfl]
  exact armedAt_closing rfl

theorem recvfrag_keep (h : recvfrag s c buf n = some (r, t)) :
    t.wsis = s.wsis ∧ (t.uconns c).oq = (s.uconns c).oq ∧ (t.uconns c).st = (s.uconns c).st := by
  rcases recvfrag_some h with ⟨-, rfl⟩ | ⟨-, -, rfl⟩ | ⟨-, -, m, p₁, iq, p₂, -, -, rfl⟩
  · exact ⟨rfl, rfl, rfl⟩
  · rw [updConn_self]
    exact ⟨rfl, rfl, rfl⟩
  · refine ⟨rfl, ?_, ?_⟩ <;> simp [reportread, State.trigger, State.updConn, Uconn.append]

/-- The relayed message is popped, and what was second is now the head. -/
theorem relayca_queue (hb : Bounded s.pool) (hm : (s.uconns c).oq = some m) (n : Int) :
    (relayca s c n).1 = (if (s.pool.mbufs m).len = 0 ∨ (s.pool.mbufs m).len = n then 0 else -1) ∧
      ((relayca s c n).2.uconns c).oq = (s.pool.mbufs m).next := by
  have hlen : ¬ 1024 < (s.pool.mbufs m).len := not_lt.mpr (hb m)
  have hneg : ¬ ((s.pool.mbufs m).len : Int) < 0 := by omega
  simp only [relayca, hm, mbufp, if_neg hlen, if_neg hneg]
  by_cases hz : (s.pool.mbufs m).len = 0 ∨ ((s.pool.mbufs m).len : Int) = n
  · rw [if_neg (by omega), if_pos hz]
    exact ⟨rfl, by rw [updConn_self]⟩
  · rw [if_pos (by omega), if_neg hz]
    exact ⟨rfl, by rw [updConn_self]⟩

theorem relayca_empty (hm : (s.uconns c).oq = none) (n : Int) :
    (relayca s c n).1 = 0 ∧ ((relayca s c n).2.uconns c).oq = none := by
  simp [relayca, hm, mbufp, updConn_self]

theorem relayca_wsis (s : State) (c : Conn) (n : Int) : (relayca s c n).2.wsis = s.wsis := by
  rcases relayca_cases s c n with he | he <;> rw [he]
  rfl

theorem Armed.callback_self (h : Armed s) (hs : callback s k rs = some t)
    (hg : SingleMessage s (.callback k rs)) (hv : t.wsis k = some v) : ArmedAt t v := by
  obtain ⟨w, r, s', hw, hen, hs', rfl⟩ := callback_some hs
  have hself := h.armed k w hw
  have henter : (s.updWsi k fun w => rs.enter w).wsis k = some (rs.enter w) := by
    rw [updWsi_self, hw]
    rfl
  cases rs with
  | connectionError | closed =>
    obtain ⟨rfl, rfl⟩ := Prod.mk.inj (Option.some.inj hs')
    obtain rfl := Option.some.inj (henter.symm.trans hv)
    exact armedAt_closing rfl
  | established =>
    obtain ⟨u, hu, hs'⟩ := Option.map_eq_some_iff.mp hs'
    obtain ⟨rfl, rfl⟩ := Prod.mk.inj hs'
    rcases requestDeferred_some hu with ⟨hst, rfl⟩ | ⟨x, -, -, rfl⟩
    · -- nothing was sent before
      obtain rfl := Option.some.inj (henter.symm.trans hv)
      exact fun hq => absurd hst ((hself hq).1 hen)
    · obtain ⟨y, hy, rfl⟩ := updWsi_some (f := Wsi.request) hv
      obtain rfl := Option.some.inj (henter.symm.trans hy)
      rw [if_pos rfl]
      exact fun _ => ⟨fun hp => (by cases hp), fun _ => rfl⟩
  | receive buf n =>
    by_cases hr : r = 0
    · subst hr
      rw [leave_zero _ _ (.receive buf n) (by simp)] at hv ⊢
      obtain ⟨hwsis, hq, hst⟩ := recvfrag_keep hs'
      rw [hwsis] at hv
      obtain rfl := Option.some.inj (henter.symm.trans hv)
      exact hself.congr hq hst
    · exact leave_armed hr (by simp) hv
  | writeable n =>
    have hrs := Option.some.inj hs'
    obtain rfl : r = (relayca _ w.user n).1 := (congrArg Prod.fst hrs).symm
    obtain rfl : s' = (relayca _ w.user n).2 := (congrArg Prod.snd hrs).symm
    by_cases hr : (relayca (s.updWsi k fun w => Reason.enter w (.writeable n)) w.user n).1 = 0
    · rw [hr, leave_zero _ _ (.writeable n) (by simp)] at hv ⊢
      rw [relayca_wsis] at hv
      obtain rfl := Option.some.inj (henter.symm.trans hv)
      -- the flag is cleared, and the queue is empty now
      refine fun hq => absurd ?_ hq
      cases hm : (s.uconns w.user).oq with
      | none =>
        exact (relayca_empty (s := s.updWsi k fun w => Reason.enter w (.writeable n)) hm n).2
      | some m =>
        obtain ⟨hsent, hnext⟩ := relayca_queue
          (s := s.updWsi k fun w => Reason.enter w (.writeable n)) h.bounded hm n
        rw [hr] at hsent
        refine hnext.trans (hg w m hw hm ?_)
        by_contra hno
        rw [updWsi_pool, if_neg hno] at hsent
        cases hsent
    · exact leave_armed hr (by simp) hv
  | wsiDestroy => simp [leave] at hv
  | peerInitiatedClose =>
    obtain ⟨rfl, rfl⟩ := Prod.mk.inj (Option.some.inj hs')
    exact leave_armed (by decide) (by simp) hv

theorem Armed.callback (h : Armed s) (hs : callback s k rs = some t)
    (hg : SingleMessage s (.callback k rs)) (j : Nat) (v : Wsi) (hv : t.wsis j = some v) :
    ArmedAt t v := by
  by_cases hj : j = k
  · subst hj
    exact h.callback_self hs hg hv
  · obtain ⟨w, -, -, hw, -⟩ := callback_some hs
    have hlocal := callback_local hs hw
    rw [hlocal.wsis j hj] at hv
    have hne := h.user_ne hw hv hj
    refine (h.armed j v hv).congr ?_ ?_ <;> rw [hlocal.uconns _ hne]

theorem Armed.step (h : Armed s) (hs : Ws.step s e = some t) (hg : SingleMessage s e) :
    Armed t := by
  refine ⟨h.toWired.step hs, h.bounded.step hs, ?_⟩
  cases e with
  | connect uq ok => exact Option.some.inj hs ▸ h.connect uq ok
  | close id => exact Option.some.inj hs ▸ h.close id
  | send id buf =>
    obtain ⟨⟨r, u⟩, hu, rfl⟩ := Option.map_eq_some_iff.mp hs
    exact h.send hu
  | recv id len => exact Option.some.inj hs ▸ h.recv id len
  | callback k rs => exact h.callback hs hg

/-- A second message stays behind the one a callback relays, and nothing asks
for another callback. -/
theorem Armed.stranded (h : Armed s) (hs : Ws.step s e = some t) (hg : ¬ SingleMessage s e) :
    ¬ NotStranded t := by
  cases e with
  | callback k rs =>
    cases rs with
    | writeable n =>
      simp only [SingleMessage, not_forall] at hg
      obtain ⟨w, m, hw, hm, hsent, hnext⟩ := hg
      obtain ⟨w', r, s', hw', hen, hs', rfl⟩ := callback_some hs
      obtain rfl : w = w' := Option.some.inj (hw.symm.trans hw')
      have hrs := Option.some.inj hs'
      obtain rfl : r = (relayca _ w.user n).1 := (congrArg Prod.fst hrs).symm
      obtain rfl : s' = (relayca _ w.user n).2 := (congrArg Prod.snd hrs).symm
      obtain ⟨hr, hq⟩ := relayca_queue (s := s.updWsi k fun w => Reason.enter w (.writeable n))
        h.bounded hm n
      rw [updWsi_pool, if_pos hsent] at hr
      rw [hr, leave_zero _ _ (.writeable n) (by simp)]
      intro hP
      have hwsi : (relayca (s.updWsi k fun w => Reason.enter w (.writeable n)) w.user n).2.wsis k =
          some { w with pending := false } := by
        rw [relayca_wsis, updWsi_self, hw]
        rfl
      have := hP k _ hwsi hen (by rw [hq]; exact hnext)
      cases this
    | _ => exact absurd trivial hg
  | _ => exact absurd trivial hg

end Steps

/-- `relayca` pops a single message and does not ask for another callback, so
no queued message is stranded exactly in the runs where each WRITEABLE callback
that succeeds finds one message at most. -/
theorem not_stranded_iff (es : List Event) :
    Always step NotStranded initWs es ↔ Steps step SingleMessage initWs es :=
  always_iff_steps Armed NotStranded SingleMessage
    (fun _ _ _ h hs hg => h.step hs hg) (fun _ h => h.notStranded)
    (fun _ _ _ h hs hg => h.stranded hs hg) armed_init es

/-- Two commands sent before the callback that relays the first one. -/
def twoSends : List Event :=
  [.connect 0 true, .callback 0 .established, .send 0 [123, 125], .send 0 [123, 125],
    .callback 0 (.writeable 2)]

theorem two_sends_stranded :
    (exec step initWs twoSends).map (fun s => ((s.wsis 0).map fun w => (w.user, w.phase, w.pending),
      (s.uconns 0).oq)) = some (some (0, .established, false), some 1) ∧
      ¬ Always step NotStranded initWs twoSends := by
  have hend : (exec step initWs twoSends).map (fun s => ((s.wsis 0).map fun w =>
      (w.user, w.phase, w.pending), (s.uconns 0).oq)) =
      some (some (0, .established, false), some 1) := by decide
  refine ⟨hend, fun h => ?_⟩
  obtain ⟨t, ht, hview⟩ := Option.map_eq_some_iff.mp hend
  obtain ⟨hw, hq⟩ := Prod.mk.inj hview
  obtain ⟨w, hw, hu⟩ := Option.map_eq_some_iff.mp hw
  obtain ⟨hu, hp⟩ := Prod.mk.inj hu
  obtain ⟨hp, hpend⟩ := Prod.mk.inj hp
  have := h.last ht 0 w hw hp (by rw [hu, hq]; exact nofun)
  rw [hpend] at this
  cases this

end Oin17.Ws
