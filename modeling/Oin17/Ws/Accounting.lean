import Oin17.Ws.Sound

namespace Oin17.Ws
open Links Run

/-- The mbufs in use are those of the queues of the connections that are not
destroyed, each in one queue and once. -/
structure Accounted (s : State) : Prop where
  queues : ∃ q : Conn × Dir → List Slot,
    (∀ k, Chain (fun m => (s.pool.mbufs m).next) (heads s k) (q k) ∧ (q k).Nodup) ∧
      (∀ k k', k ≠ k' → ∀ m ∈ q k, m ∉ q k') ∧
      ∀ m, (s.pool.mbufs m).len ≠ 0 ↔ ∃ k, m ∈ q k
  /-- Once every connection is destroyed all mbufs are free. -/
  drained : (∀ c, (s.uconns c).ws = none) → ∀ m, (s.pool.mbufs m).len = 0

/-- No empty message is accepted, and no connection is destroyed with messages
left to send. -/
def NoLeak (s : State) (e : Event) : Prop :=
  NonemptySend s e ∧ match e with
    | .callback k .wsiDestroy => ∀ w, s.wsis k = some w → (s.uconns w.user).oq = none
    | _ => True

/-- The queues are apart and lead to every mbuf in use. -/
def Owned (s : State) : Prop :=
  ∃ q, Sound s q ∧ ∀ m, ¬ s.pool.Free m → ∃ k, m ∈ q k

theorem owned_init : Owned initWs :=
  ⟨_, sound_init, fun _ h => absurd rfl h⟩

section Steps
variable {s t : State} {q q' : Conn × Dir → List Slot}

theorem Owned.accounted (h : Owned s) : Accounted s := by
  obtain ⟨q, hs, hall⟩ := h
  refine ⟨⟨q, fun k => ⟨hs.queues.chain k, (hs.queues.chain k).nodup⟩, hs.queues.apart,
    fun m => ⟨hall m, fun ⟨k, hk⟩ => hs.queues.used k m hk⟩⟩, fun hdead m => ?_⟩
  by_contra hm
  obtain ⟨⟨c, d⟩, hk⟩ := hall m hm
  have hnil := (hs.queues.chain (c, d)).nil_iff.mp (heads_dead (hdead c) d)
  rw [hnil] at hk
  cases hk

theorem update_mem {k k' : Conn × Dir} {l : List Slot} (hm : m ∈ q k') (hl : k' = k → m ∈ l) :
    m ∈ Function.update q k l k' := by
  by_cases hk : k' = k
  · subst hk
    rw [Function.update_self]
    exact hl rfl
  · rwa [Function.update_of_ne hk]

/-- A pop frees the mbuf it takes off its queue, and a push puts the mbuf it
takes into use on its queue. -/
theorem Effect.owned (h : Effect s t q q' e) (hs : Sound s q)
    (hall : ∀ m, ¬ s.pool.Free m → ∃ k, m ∈ q k) (hg : NoLeak s e) (m : Slot)
    (hm : ¬ t.pool.Free m) : ∃ k, m ∈ q' k := by
  have hpush : ∀ {k x buf}, Enqueued s.pool t.pool buf x →
      q' = Function.update q k (q k ++ [x]) → ∃ k, m ∈ q' k := by
    rintro k x buf hx rfl
    by_cases hmx : m = x
    · exact ⟨k, by rw [Function.update_self, hmx]; simp⟩
    · rw [Pool.Free, (hx.others m hmx).1] at hm
      obtain ⟨k', hk'⟩ := hall m hm
      exact ⟨k', update_mem hk' fun he => List.mem_append_left _ (he ▸ hk')⟩
  have hpop : ∀ {k x l}, q k = x :: l → t.pool = s.pool.upd x (fun m => { m with len := 0 }) →
      q' = Function.update q k l → ∃ k, m ∈ q' k := by
    rintro k x l hk hp rfl
    have hmx : m ≠ x := by
      rintro rfl
      exact hm (by rw [hp]; simp [Pool.Free, Pool.upd])
    have hm' : ¬ s.pool.Free m := by
      rw [hp] at hm
      simpa [Pool.Free, Pool.upd, hmx] using hm
    obtain ⟨k', hk'⟩ := hall m hm'
    refine ⟨k', update_mem hk' fun he => ?_⟩
    rw [he, hk] at hk'
    exact (List.mem_cons.mp hk').resolve_left hmx
  cases h with
  | quiet hp hq =>
    rw [hp] at hm
    rw [hq]
    exact hall m hm
  | send hc hx _ hq => exact hpush hx hq
  | receive hw hx _ hq => exact hpush hx hq
  | recv hc hk hp hq => exact hpop hk hp hq
  | relay hw hk hp hq => exact hpop hk hp hq
  | @destroy k c hw hi ho hq =>
    obtain ⟨w, hw', rfl⟩ := Option.map_eq_some_iff.mp hw
    have hnil : q (w.user, .outgoing) = [] := by
      have hoq : heads s (w.user, .outgoing) = none := by
        rw [heads_live (hs.live k w hw')]
        exact hg.2 w hw'
      exact (hs.queues.chain _).nil_iff.mp hoq
    have hin : m ∉ q (w.user, .incoming) := fun hmem => hm (hi m hmem)
    rw [Pool.Free, ho m hin] at hm
    obtain ⟨k', hk'⟩ := hall m hm
    refine ⟨k', ?_⟩
    rw [hq]
    refine update_mem (update_mem hk' fun he => absurd (he ▸ hk') hin) fun he => ?_
    rw [he, hnil] at hk'
    cases hk'

theorem Owned.step (h : Owned s) (hs : Ws.step s e = some t) (hg : NoLeak s e) : Owned t := by
  obtain ⟨q, hsound, hall⟩ := h
  obtain ⟨q', hsound', heff⟩ := hsound.step hs hg.1
  exact ⟨q', hsound', heff.owned hsound hall hg⟩

/-- An empty message is queued in an mbuf that still counts as free. -/
theorem Sound.empty_send {id : Int} (h : Sound s q) (hs : wsSend s id [] = some (r, t))
    (hc : uconnIsvalid s id = some c) : ¬ Accounted t := by
  rcases wsSend_some hs with ⟨hno, -⟩ | ⟨c', m, p₁, oq, p₂, k, w, hc', hm, hr, hk, hv, rfl⟩
  · rw [hc] at hno
    cases hno
  obtain rfl : c = c' := Option.some.inj (hc.symm.trans hc')
  obtain ⟨r', p', hr', henq, -, -, hchain⟩ := h.queues.mbufq hm (c, .outgoing)
  have hhead : heads s (c, .outgoing) = (s.uconns c).oq := heads_live hk _
  rw [hhead, hr] at hr'
  obtain ⟨rfl, rfl⟩ := Prod.mk.inj (Option.some.inj hr')
  rintro ⟨⟨q', hq', -, hall⟩, -⟩
  have hlast := hchain (c, .outgoing)
  rw [Function.update_self, Function.update_self] at hlast
  have hnew := (hq' (c, .outgoing)).1
  rw [heads_live (by rw [updWsi_uconns, updConn_self]; exact hk), updWsi_uconns,
    updConn_self] at hnew
  have hsame := hnew.unique hlast
  exact (hall m).mpr ⟨(c, .outgoing), by rw [hsame]; simp⟩ henq.len

/-- The messages left to send stay in use, and nothing leads to them. -/
theorem Sound.leaking_destroy (h : Sound s q) (hs : Ws.callback s k .wsiDestroy = some t)
    (hw : s.wsis k = some w) (ho : (s.uconns w.user).oq ≠ none) : ¬ Accounted t := by
  obtain ⟨hsound, -, hkeep⟩ := h.destroyed hs hw
  have hhead : heads s (w.user, .outgoing) = (s.uconns w.user).oq := heads_live (h.live k w hw) _
  obtain ⟨m, l, hq⟩ := List.exists_cons_of_ne_nil
    fun he => ho (hhead.symm.trans ((h.queues.chain _).nil_iff.mpr he))
  have hm : m ∈ q (w.user, .outgoing) := hq ▸ List.mem_cons_self
  have hlen : (t.pool.mbufs m).len ≠ 0 := by
    rw [hkeep m fun hin => h.queues.apart _ _ (by simp) m hm hin]
    exact h.queues.used _ m hm
  rintro ⟨⟨q', hq', -, hall⟩, -⟩
  obtain ⟨k', hk'⟩ := (hall m).mp hlen
  rw [(hq' k').1.unique (hsound.queues.chain k')] at hk'
  by_cases hko : k' = (w.user, .outgoing)
  · rw [hko, Function.update_self] at hk'
    cases hk'
  · rw [Function.update_of_ne hko] at hk'
    by_cases hki : k' = (w.user, .incoming)
    · rw [hki, Function.update_self] at hk'
      cases hk'
    · rw [Function.update_of_ne hki] at hk'
      exact h.queues.apart _ _ hko m hk' hm

theorem Owned.lost (h : Owned s) (hs : Ws.step s e = some t) (hg : ¬ NoLeak s e) :
    ¬ Accounted t := by
  obtain ⟨q, hsound, -⟩ := h
  cases e with
  | send id buf =>
    have hbad : ¬ NonemptySend s (.send id buf) := fun hn => hg ⟨hn, trivial⟩
    simp only [NonemptySend, Classical.not_imp] at hbad
    obtain ⟨rfl, hv⟩ := hbad
    obtain ⟨c, hc⟩ := Option.ne_none_iff_exists'.mp hv
    obtain ⟨⟨r, u⟩, hu, rfl⟩ := Option.map_eq_some_iff.mp hs
    exact hsound.empty_send hu hc
  | callback k rs =>
    cases rs with
    | wsiDestroy =>
      have hbad : ¬ ∀ w, s.wsis k = some w → (s.uconns w.user).oq = none :=
        fun ho => hg ⟨trivial, ho⟩
      simp only [not_forall] at hbad
      obtain ⟨w, hw, ho⟩ := hbad
      exact hsound.leaking_destroy hs hw ho
    | _ => exact absurd ⟨trivial, trivial⟩ hg
  | _ => exact absurd ⟨trivial, trivial⟩ hg

end Steps

/-- WSI_DESTROY empties the incoming queue twice and the outgoing one never,
and an empty message occupies an mbuf that counts as free: the mbufs are
accounted for exactly in the runs that do neither. -/
theorem accounted_iff (es : List Event) :
    Always step Accounted initWs es ↔ Steps step NoLeak initWs es :=
  always_iff_steps Owned Accounted NoLeak (fun _ _ _ h hs hg => h.step hs hg)
    (fun _ h => h.accounted) (fun _ _ _ h hs hg => h.lost hs hg) owned_init es

/-- A connection that is destroyed before its only command was relayed. -/
def destroyUnsent : List Event :=
  [.connect 0 true, .send 0 [123, 125], .callback 0 .connectionError, .callback 0 .wsiDestroy]

theorem destroy_unsent_leaks :
    (exec step initWs destroyUnsent).map (fun s => ((List.finRange 16).map fun c =>
      (s.uconns c).ws.isSome, (s.pool.mbufs 0).len)) = some (List.replicate 16 false, 2) ∧
      ¬ Always step Accounted initWs destroyUnsent := by
  have hend : (exec step initWs destroyUnsent).map (fun s => ((List.finRange 16).map fun c =>
      (s.uconns c).ws.isSome, (s.pool.mbufs 0).len)) = some (List.replicate 16 false, 2) := by
    decide
  refine ⟨hend, fun h => ?_⟩
  obtain ⟨t, ht, hview⟩ := Option.map_eq_some_iff.mp hend
  obtain ⟨hws, hlen⟩ := Prod.mk.inj hview
  have hdead : ∀ c, (t.uconns c).ws = none := by
    intro c
    have := List.mem_map_of_mem (f := fun c => (t.uconns c).ws.isSome) (List.mem_finRange c)
    rw [hws] at this
    simpa using List.eq_of_mem_replicate this
  rw [(h.last ht).drained hdead 0] at hlen
  cases hlen

end Oin17.Ws
