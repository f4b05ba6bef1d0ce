import Oin17.Ws.Incoming

namespace Oin17.Ws
open Memory Run

/-- The size of the buffer of `relayca`. -/
def relayLen : Nat := 1024

/-- A call of `relayca`: where in its buffer it copies how many bytes to, and
what it hands to `lws_write`. -/
structure Relay where
  copies : List (Nat × Nat)
  payload : Option (List UInt8)
  r : Int
  state : State

/-- `relayca` with the buffer it copies in, which holds `b` at first. `pre` is
LWS_PRE. -/
def relay (pre : Nat) (b : Buf) (s : State) (c : Conn) (n : Int) : Relay :=
  let r := mbufp s.pool (s.uconns c).oq relayLen
  if r.r < 0 then { copies := [], payload := none, r := -1, state := s }
  else
    let len := r.r.toNat
    let s := { s with pool := r.pool }.updConn c fun uc => { uc with oq := r.mb }
    let b := store b 0 r.buf
    let b := store b pre (load b 0 len)
    let copies := [(0, r.buf.length), (pre, len)]
    if len ≠ 0 then
      { copies := copies, payload := some (load b pre len), r := if r.r ≠ n then -1 else 0,
        state := s }
    else { copies := copies, payload := none, r := 0, state := s }

/-- No byte of the copy is outside of the buffer. -/
def Inside (x : Nat × Nat) : Prop := ∀ i, i < x.2 → x.1 + i < relayLen

/-- The calls of `relayca` for connection `k`, where `stack` is what its buffer
holds at first. -/
def relays (pre : Nat) (stack : State → Buf) (k : Nat) (s : State) : Event → List Relay
  | .callback j (.writeable n) =>
    match s.wsis k with
    | some w =>
      if j = k then
        [relay pre (stack s) (s.updWsi k fun w => Reason.enter w (.writeable n)) w.user n]
      else []
    | none => []
  | _ => []

/-- The command that `ws_send` queues on uconn `c`. -/
def commands (c : Conn) (s : State) : Event → List (List UInt8)
  | .send id buf => if uconnIsvalid s id = some c then [buf] else []
  | _ => []

/-- The next command of connection `k` fits the buffer behind the header room
whenever libwebsockets asks for it. -/
def Fits (pre k : Nat) (s : State) : Event → Prop
  | .callback j (.writeable _) => j = k → ∀ w ∈ s.wsis k, ∀ m ∈ (s.uconns w.user).oq,
    pre + (s.pool.mbufs m).len ≤ relayLen
  | _ => True

instance (pre k : Nat) (s : State) (e : Event) : Decidable (Fits pre k s e) := by
  unfold Fits
  split <;> infer_instance

section Relay
variable {s t : State} {q q' : Conn × Dir → List Slot} {c : Conn} {k pre : Nat}

theorem relay_none (pre : Nat) (b : Buf) (h : (s.uconns c).oq = none) (n : Int) :
    (relay pre b s c n).copies = [(0, 0), (pre, 0)] ∧ (relay pre b s c n).payload = none := by
  simp [relay, h, mbufp]

/-- A command is copied, moved behind the header room and written as it is. -/
theorem relay_some (pre : Nat) (b : Buf) (h : (s.uconns c).oq = some m)
    (hlen : (s.pool.mbufs m).len ≤ relayLen) (hm : ¬ s.pool.Free m) (n : Int) :
    (relay pre b s c n).copies =
        [(0, (s.pool.mbufs m).len), (pre, (s.pool.mbufs m).len)] ∧
      (relay pre b s c n).payload = some (s.pool.text m) := by
  have htext : (s.pool.text m).length = (s.pool.mbufs m).len := load_length ..
  have hpop : mbufp s.pool (some m) relayLen =
      { r := (s.pool.mbufs m).len, buf := s.pool.text m, mb := (s.pool.mbufs m).next,
        pool := s.pool.upd m fun m => { m with len := 0 } } := by
    rw [mbufp, if_neg (not_lt.mpr hlen)]
    rfl
  have hmove : load (store (store b 0 (s.pool.text m)) pre
      (load (store b 0 (s.pool.text m)) 0 (s.pool.mbufs m).len)) pre (s.pool.mbufs m).len =
      s.pool.text m := by
    rw [← htext, load_store, load_store]
  have hne : (s.pool.mbufs m).len ≠ 0 := hm
  simp only [relay, h, hpop]
  rw [if_neg (by omega), Int.toNat_natCast, if_pos hne, hmove, htext]
  exact ⟨rfl, rfl⟩

theorem relays_other (h : ∀ n, e ≠ .callback k (.writeable n)) :
    relays pre stack k s e = [] := by
  unfold relays
  split
  · split
    · split
      · next hj => exact absurd (by rw [hj]) (h _)
      · rfl
    · rfl
  · rfl

theorem inside_iff (o : Nat) (hn : 0 < n) : Inside (o, n) ↔ o + n ≤ relayLen := by
  constructor
  · intro h
    have := h (n - 1) (Nat.sub_one_lt_of_lt hn)
    simp only at this
    omega
  · intro h i hi
    simp only at hi ⊢
    omega

theorem inside_zero (o : Nat) : Inside (o, 0) := fun i hi => absurd hi (Nat.not_lt_zero i)

theorem fits_iff (hw : s.wsis k = some w) (n : Int) : Fits pre k s (.callback k (.writeable n)) ↔
    ∀ m, (s.uconns w.user).oq = some m → pre + (s.pool.mbufs m).len ≤ relayLen := by
  constructor
  · intro h m hm
    exact h rfl w hw m hm
  · intro h _ v hv m hm
    obtain rfl := Option.some.inj (hw.symm.trans hv)
    exact h m hm

theorem Sound.outgoing_head (h : Sound s q) (hw : s.wsis k = some w) :
    (s.uconns w.user).oq = (q (w.user, .outgoing)).head? := by
  rw [← (h.queues.chain (w.user, .outgoing)).head, heads_live (h.live k w hw)]
  rfl

/-- The copies that a step makes stay inside the buffer exactly when the command
fits it. -/
theorem Sound.inside_iff (h : Sound s q) (pre : Nat) (stack : State → Buf) (k : Nat) (e : Event) :
    (∀ r ∈ relays pre stack k s e, ∀ x ∈ r.copies, Inside x) ↔ Fits pre k s e := by
  by_cases he : ∃ n, e = .callback k (.writeable n)
  · obtain ⟨n, rfl⟩ := he
    cases hw : s.wsis k with
    | none =>
      refine iff_of_true (by simp [relays, hw]) fun _ w hw' => ?_
      rw [hw] at hw'
      cases hw'
    | some w =>
      rw [fits_iff hw]
      simp only [relays, hw, if_true, List.forall_mem_singleton]
      have hhead := h.outgoing_head hw
      cases hk : q (w.user, .outgoing) with
      | nil =>
        rw [hk] at hhead
        rw [(relay_none pre (stack s) (s := s.updWsi k fun w => Reason.enter w (.writeable n))
          hhead n).1, hhead]
        simp [inside_zero]
      | cons m l =>
        rw [hk] at hhead
        have hused : ¬ s.pool.Free m := h.queues.used (w.user, .outgoing) m (hk ▸ List.mem_cons_self)
        have hlen := h.bounded m
        rw [(relay_some pre (stack s) (s := s.updWsi k fun w => Reason.enter w (.writeable n))
          hhead hlen hused n).1, hhead]
        have hpos : 0 < (s.pool.mbufs m).len := Nat.pos_of_ne_zero hused
        simp only [updWsi_pool, List.forall_mem_cons, Ws.inside_iff _ hpos, Nat.zero_add]
        constructor
        · rintro ⟨-, hpre, -⟩ x hx
          obtain rfl := Option.some.inj hx
          exact hpre
        · intro hpre
          exact ⟨hlen, hpre m rfl, by simp⟩
  · have hother : ∀ n, e ≠ .callback k (.writeable n) := fun n hn => he ⟨n, hn⟩
    rw [relays_other hother]
    refine iff_of_true (by simp) ?_
    unfold Fits
    split
    · rintro rfl
      exact absurd rfl (hother _)
    · trivial

/-- Only WRITEABLE takes from an outgoing queue, and only `ws_send` adds to it. -/
theorem Effect.outgoing (h : Effect s t q q' e) (hs : Wired s) (hu : s.user k = some c)
    (hd : e ≠ .callback k .wsiDestroy) (hw : ∀ n, e ≠ .callback k (.writeable n))
    (hnone : commands c s e = []) : q' (c, .outgoing) = q (c, .outgoing) := by
  cases h with
  | quiet _ hq => rw [hq]
  | @send d _ m _ hc _ _ hq' =>
    have hcd : c ≠ d := by
      rintro rfl
      simp [commands, hc] at hnone
    rw [hq', Function.update_of_ne (by simp [hcd])]
  | receive _ _ _ hq => rw [hq, Function.update_of_ne (by simp)]
  | recv _ _ _ hq => rw [hq, Function.update_of_ne (by simp)]
  | @relay j d _ _ _ hj _ _ hq =>
    have hjk : j ≠ k := by
      rintro rfl
      exact hw _ rfl
    rw [hq, Function.update_of_ne (by simp [hs.user_inj hj hu hjk])]
  | @destroy j d hj _ _ hq =>
    have hjk : j ≠ k := by
      rintro rfl
      exact hd rfl
    rw [hq, Function.update_of_ne (by simp [hs.user_inj hj hu hjk]),
      Function.update_of_ne (by simp)]

/-- The command at the head of the queue is what a WRITEABLE callback writes. -/
theorem Sound.writeable (h : Sound s q) (hu : s.user k = some c)
    (hs : Ws.callback s k (.writeable n) = some t) (pre : Nat) (stack : State → Buf) :
    ∃ q', Sound t q' ∧ (q (c, .outgoing)).map s.pool.text =
      (relays pre stack k s (.callback k (.writeable n))).filterMap Relay.payload ++
        (q' (c, .outgoing)).map t.pool.text := by
  obtain ⟨w, r, s', hw, -, hs', rfl⟩ := callback_some hs
  obtain ⟨v, hv, rfl⟩ := user_some hu
  obtain rfl : w = v := Option.some.inj (hw.symm.trans hv)
  obtain rfl : (relayca (s.updWsi k fun w => Reason.enter w (.writeable n)) w.user n).2 = s' :=
    congrArg Prod.snd (Option.some.inj hs')
  obtain ⟨hwsi, -⟩ := enter_user_some hw (.writeable n)
  have hent := h.updWsi _ (enter_user (.writeable n)) k
  have hhead := h.outgoing_head hw
  have hpop := hent.relayed hwsi n
  rw [enter_user (.writeable n)] at hpop
  rw [leave_pool]
  simp only [relays, hw, if_true]
  rcases hpop with ⟨hnil, hp, hsound⟩ | ⟨m, l, hl, hp, hsound⟩
  · refine ⟨q, hsound.leave (by simp) k r, ?_⟩
    rw [hnil] at hhead
    rw [hp, hnil]
    have hpay := (relay_none pre (stack s)
      (s := s.updWsi k fun w => Reason.enter w (.writeable n)) hhead n).2
    simp [hpay]
  · refine ⟨_, hsound.leave (by simp) k r, ?_⟩
    rw [hl] at hhead ⊢
    have hused := h.queues.used (w.user, .outgoing) m (hl ▸ List.mem_cons_self)
    have hpay := (relay_some pre (stack s)
      (s := s.updWsi k fun w => Reason.enter w (.writeable n)) hhead (h.bounded m) hused n).2
    have hkeep : ∀ x ∈ l, (relayca (s.updWsi k fun w => Reason.enter w (.writeable n))
        w.user n).2.pool.text x = s.pool.text x := by
      have hnd := (h.queues.chain (w.user, .outgoing)).nodup
      rw [hl, List.nodup_cons] at hnd
      intro x hx
      have hxm : x ≠ m := fun he => hnd.1 (he ▸ hx)
      rw [hp]
      simp [Pool.text, Pool.upd, hxm]
    rw [Function.update_self, List.map_congr_left hkeep]
    simp [hpay]

/-- A command that is accepted goes to the end of the queue. -/
theorem Sound.command {id : Int} (h : Sound s q) (hs : wsSend s id buf = some (r, t))
    (hc : uconnIsvalid s id = some c) (hbuf : buf ≠ []) :
    ∃ q', Sound t q' ∧ (q (c, .outgoing)).map s.pool.text ++ [buf] =
      (q' (c, .outgoing)).map t.pool.text := by
  obtain ⟨m, henq, hnew, hsound⟩ := h.sent hs hc hbuf
  refine ⟨_, hsound, ?_⟩
  have hkeep : ∀ x ∈ q (c, .outgoing), t.pool.text x = s.pool.text x :=
    fun x hx => (henq.others x fun he => hnew _ (he ▸ hx)).2
  rw [Function.update_self, List.map_append, List.map_congr_left hkeep, List.map_singleton,
    henq.text]

/-- What a step writes and what it leaves queued is what was queued and what it
adds. -/
theorem Sound.step_commands (h : Sound s q) (hu : s.user k = some c) (hs : Ws.step s e = some t)
    (hne : ∀ id, e ≠ .send id []) (hd : e ≠ .callback k .wsiDestroy) (pre : Nat)
    (stack : State → Buf) :
    ∃ q', Sound t q' ∧ (q (c, .outgoing)).map s.pool.text ++ commands c s e =
      (relays pre stack k s e).filterMap Relay.payload ++ (q' (c, .outgoing)).map t.pool.text := by
  by_cases hw : ∃ n, e = .callback k (.writeable n)
  · obtain ⟨n, rfl⟩ := hw
    obtain ⟨q', hsound, hqueue⟩ := h.writeable hu hs pre stack
    exact ⟨q', hsound, (List.append_nil _).trans hqueue⟩
  have hother : ∀ n, e ≠ .callback k (.writeable n) := fun n hn => hw ⟨n, hn⟩
  simp only [relays_other hother, List.filterMap_nil, List.nil_append]
  by_cases hcmd : commands c s e = []
  · obtain ⟨q', hsound, heff⟩ := h.step hs (nonemptySend hne)
    have hq := heff.outgoing h.toWired hu hd hother hcmd
    refine ⟨q', hsound, ?_⟩
    rw [hcmd, List.append_nil, hq, List.map_congr_left (heff.kept h hq)]
  · cases e with
    | send id buf =>
      simp only [commands] at hcmd ⊢
      by_cases hc : uconnIsvalid s id = some c
      · rw [if_pos hc]
        obtain ⟨⟨r, u⟩, hsend, rfl⟩ := Option.map_eq_some_iff.mp hs
        exact h.command hsend hc fun hnil => hne id (by rw [hnil])
      · exact absurd (if_neg hc) hcmd
    | _ => exact absurd rfl hcmd

theorem step_nwsis (hs : step s e = some t) : s.nwsis ≤ t.nwsis := by
  cases e with
  | connect uq ok =>
    obtain rfl := Option.some.inj hs
    rcases wsConnect_cases s uq ok with he | ⟨d, -, he | he⟩ <;> rw [he]
    · exact Nat.le_refl _
    · exact Nat.le_succ _
  | close id =>
    obtain rfl := Option.some.inj hs
    unfold wsClose
    split <;> exact Nat.le_refl _
  | send id buf =>
    obtain ⟨⟨r, u⟩, hu, rfl⟩ := Option.map_eq_some_iff.mp hs
    rcases wsSend_some hu with ⟨-, rfl⟩ | ⟨d, m, p₁, oq, p₂, j, w, -, -, -, -, -, rfl⟩
    · exact Nat.le_refl _
    · exact Nat.le_refl _
  | recv id len =>
    obtain rfl := Option.some.inj hs
    unfold wsRecv
    split <;> exact Nat.le_refl _
  | callback j rs =>
    obtain ⟨w, r, s', -, -, hs', rfl⟩ := callback_some hs
    have hleave : (leave s' j rs r).nwsis = s'.nwsis := by
      cases rs <;> simp only [leave] <;> split <;> rfl
    rw [hleave]
    cases handler_cases hs' <;> exact Nat.le_refl _

/-- A connection that was destroyed is not there again. -/
theorem step_gone (hs : step s e = some t) (hk : s.wsis k = none) (hlt : k < s.nwsis) :
    t.wsis k = none ∧ k < t.nwsis := by
  refine ⟨?_, Nat.lt_of_lt_of_le hlt (step_nwsis hs)⟩
  cases e with
  | connect uq ok =>
    obtain rfl := Option.some.inj hs
    rcases wsConnect_cases s uq ok with he | ⟨d, -, he | he⟩ <;> rw [he]
    · exact hk
    · exact hk
    · exact (Function.update_of_ne (Nat.ne_of_lt hlt) ..).trans hk
  | close id =>
    obtain rfl := Option.some.inj hs
    unfold wsClose
    split <;> exact hk
  | send id buf =>
    obtain ⟨⟨r, u⟩, hu, rfl⟩ := Option.map_eq_some_iff.mp hs
    rcases wsSend_some hu with ⟨-, rfl⟩ | ⟨d, m, p₁, oq, p₂, j, w, -, -, -, -, hw, rfl⟩
    · exact hk
    · have hkj : k ≠ j := by
        rintro rfl
        rw [hk] at hw
        cases hw
      exact (updWsi_ne hkj _).trans hk
  | recv id len =>
    obtain rfl := Option.some.inj hs
    unfold wsRecv
    split <;> exact hk
  | callback j rs =>
    obtain ⟨w, -, -, hw, -⟩ := callback_some hs
    have hkj : k ≠ j := by
      rintro rfl
      rw [hk] at hw
      cases hw
    exact ((callback_local hs hw).wsis k hkj).trans hk

theorem relays_gone (hk : s.wsis k = none) (hlt : k < s.nwsis) (pre : Nat) (stack : State → Buf)
    (es : List Event) : trace step (relays pre stack k) s es = [] := by
  induction es generalizing s with
  | nil => rfl
  | cons e es ih =>
    cases hs : step s e with
    | none => exact trace_stuck hs
    | some t =>
      obtain ⟨hk', hlt'⟩ := step_gone hs hk hlt
      have hnone : relays pre stack k s e = [] := by
        by_cases hw : ∃ n, e = .callback k (.writeable n)
        · obtain ⟨n, rfl⟩ := hw
          simp [relays, hk]
        · exact relays_other fun n hn => hw ⟨n, hn⟩
      rw [trace_cons hs, hnone, List.nil_append]
      exact ih hk' hlt'

/-- What is written on a connection begins what is queued on it and what is sent
on its uconn. -/
theorem Sound.run_commands (h : Sound s q) (hu : s.user k = some c) (es : List Event)
    (hne : ∀ id, Event.send id [] ∉ es) (pre : Nat) (stack : State → Buf) :
    (trace Ws.step (relays pre stack k) s es).filterMap Relay.payload <+:
      (q (c, .outgoing)).map s.pool.text ++ trace Ws.step (commands c) s es := by
  induction es generalizing s q with
  | nil => exact List.nil_prefix
  | cons e es ih =>
    cases hs : Ws.step s e with
    | none =>
      rw [trace_stuck hs]
      exact List.nil_prefix
    | some t =>
      rw [trace_cons hs, trace_cons hs, List.filterMap_append, ← List.append_assoc]
      by_cases hd : e = .callback k .wsiDestroy
      · subst hd
        obtain ⟨w, hw, rfl⟩ := user_some hu
        have hlt : k < s.nwsis := by
          by_contra hge
          rw [h.fresh k (not_lt.mp hge)] at hw
          cases hw
        have hgone : t.wsis k = none := by
          obtain ⟨v, r, s', -, -, -, rfl⟩ := callback_some hs
          exact Function.update_self ..
        rw [relays_gone hgone (Nat.lt_of_lt_of_le hlt (step_nwsis hs)), relays_other (fun _ => by simp)]
        exact List.nil_prefix
      · obtain ⟨q', hsound, hqueue⟩ := h.step_commands hu hs
          (fun id he => hne id (he ▸ List.mem_cons_self)) hd pre stack
        rw [hqueue, List.append_assoc, List.prefix_append_right_inj]
        exact ih hsound (step_user h.toWired hs hu hd) fun id hm => hne id (List.mem_cons_of_mem e hm)

end Relay

/-- On a connection with nothing to send, with any commands that `__sendcmd`
admits and any other events in between: what `relayca` hands to `lws_write` is the
commands in order, from the first one on and one a call. Its copies stay inside
its buffer exactly when no command is longer than what LWS_PRE leaves of it. -/
theorem relay_commands_iff {pre k : Nat} {stack : State → Buf} {c : Conn} {s₀ : State}
    {es₀ es : List Event} (hs₀ : exec step initWs es₀ = some s₀) (hu : s₀.user k = some c)
    (hoq : (s₀.uconns c).oq = none)
    (hsend : ∀ id buf, Event.send id buf ∈ es₀ ++ es → 1 ≤ buf.length ∧ buf.length ≤ 1023) :
    ((trace step (relays pre stack k) s₀ es).filterMap Relay.payload <+:
        trace step (commands c) s₀ es ∧
      ∀ r ∈ trace step (relays pre stack k) s₀ es, ∀ x ∈ r.copies, Inside x) ↔
    Steps step (Fits pre k) s₀ es := by
  have hne : ∀ id, Event.send id [] ∉ es₀ ++ es := by
    intro id hm
    have := (hsend id [] hm).1
    simp at this
  obtain ⟨q, h⟩ := sound_run hs₀ fun id hm => hne id (List.mem_append_left _ hm)
  have hrun := h.run_commands hu es (fun id hm => hne id (List.mem_append_right _ hm))
    pre stack
  have hnil : q (c, .outgoing) = [] := by
    obtain ⟨w, hw, rfl⟩ := user_some hu
    have := h.outgoing_head hw
    rw [hoq] at this
    exact List.head?_eq_none_iff.mp this.symm
  rw [hnil, List.map_nil, List.nil_append] at hrun
  rw [and_iff_right hrun, trace_all_iff]
  refine steps_congr (fun s => ∃ q, Sound s q) (fun e => ∀ id, e ≠ .send id []) _ _ ?_ ?_ ⟨q, h⟩
    fun e he id heq => hne id (List.mem_append_right _ (heq ▸ he))
  · rintro s e t ⟨q, h⟩ he ht
    obtain ⟨q', h', -⟩ := h.step ht (nonemptySend he)
    exact ⟨q', h'⟩
  · rintro s e t ⟨q, h⟩ - -
    exact h.inside_iff pre stack k e

/-- Two commands, the second of which is sent before the first is relayed. -/
def twoCommands : List Event :=
  [.send 0 [123, 125], .callback 0 .established, .send 0 [91, 93], .callback 0 (.writeable 2),
    .callback 0 (.writeable 2)]

theorem relay_two_commands :
    ∃ s₀, exec step initWs [.connect 0 true] = some s₀ ∧
      (trace step (relays 16 (fun _ _ => 0) 0) s₀ twoCommands).filterMap Relay.payload <+:
        trace step (commands 0) s₀ twoCommands ∧
      ∀ r ∈ trace step (relays 16 (fun _ _ => 0) 0) s₀ twoCommands, ∀ x ∈ r.copies, Inside x := by
  obtain ⟨s₀, hs₀, hview⟩ := Option.map_eq_some_iff.mp (show (exec step initWs
    [.connect 0 true]).map (fun s => (s.user 0, (s.uconns 0).oq,
      decide (Steps step (Fits 16 0) s twoCommands))) = some (some 0, none, true) by decide)
  obtain ⟨hu, hview⟩ := Prod.mk.inj hview
  obtain ⟨hoq, hsteps⟩ := Prod.mk.inj hview
  refine ⟨s₀, hs₀, ?_⟩
  refine (relay_commands_iff hs₀ hu hoq ?_).mpr (of_decide_eq_true hsteps)
  intro id buf hm
  simp only [twoCommands, List.mem_append, List.mem_cons, List.not_mem_nil, reduceCtorEq, or_false,
    false_or, Event.send.injEq] at hm
  rcases hm with ⟨-, rfl⟩ | ⟨-, rfl⟩ <;> decide

/-- The longest command that `__sendcmd` admits. -/
def longCommand : List Event :=
  [.callback 0 .established, .send 0 (List.replicate 1023 123), .callback 0 (.writeable 1023)]

theorem long_command_overruns :
    ∃ s₀, exec step initWs [.connect 0 true] = some s₀ ∧
      ¬ ∀ r ∈ trace step (relays 16 (fun _ _ => 0) 0) s₀ longCommand, ∀ x ∈ r.copies, Inside x := by
  obtain ⟨s₀, hs₀, hcopies⟩ := Option.map_eq_some_iff.mp (show (exec step initWs
    [.connect 0 true]).map (fun s =>
      (trace step (relays 16 (fun _ _ => 0) 0) s longCommand).map Relay.copies) =
        some [[(0, 1023), (16, 1023)]] by decide +kernel)
  refine ⟨s₀, hs₀, fun h => ?_⟩
  obtain ⟨r, hr, hr'⟩ := List.mem_map.mp (hcopies ▸ List.mem_singleton.mpr rfl)
  have hin := h r hr (16, 1023) (by simp [hr'])
  exact absurd (hin 1008 (by decide)) (by decide)

end Oin17.Ws
