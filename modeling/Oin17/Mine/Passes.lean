import Oin17.Mine.Model

namespace Oin17.Mine
open Chals Loop Memory Ws

/-- The submissions since the last reset. -/
def sinceReset (log : List Mark) : List Mark := log.reverse.takeWhile (· ≠ .reset)

@[simp] theorem sinceReset_reset (log : List Mark) : sinceReset (log ++ [.reset]) = [] := by
  simp [sinceReset]

@[simp] theorem sinceReset_submit (log : List Mark) (id n : UInt64) (ok : Bool) :
    sinceReset (log ++ [.submit id n ok]) = .submit id n ok :: sinceReset log := by
  simp [sinceReset]

section Slvs
variable {g g' : Mining}

theorem dropchal_uq (g : Mining) : (dropchal g).uq = g.uq := by
  refine forRange_inv (fun _ (t : Mining) => t.uq = g.uq) rfl fun i t _ _ h => ?_
  refine Eq.trans ?_ h
  unfold dropSlv
  dsimp only
  split <;> rfl

theorem solverStart_some (h : solverStart g i p = some g') :
    p < 0 ∧ g' = g ∨
      0 ≤ p ∧ g.jobs p = none ∧ g' = { g with jobs := Function.update g.jobs p (some i) } := by
  unfold solverStart at h
  split at h
  · next hp => exact Or.inl ⟨hp, (Option.some.inj h).symm⟩
  · next hp =>
    split at h
    · cases h
    · next hj =>
      exact Or.inr ⟨not_lt.mp hp, Option.not_isSome_iff_eq_none.mp hj, (Option.some.inj h).symm⟩

theorem solverStart_frame (h : solverStart g i p = some g') :
    g'.mchl = g.mchl ∧ g'.log = g.log ∧ g'.uq = g.uq := by
  rcases solverStart_some h with ⟨-, rfl⟩ | ⟨-, -, rfl⟩ <;> exact ⟨rfl, rfl, rfl⟩

/-- One pass of the loop of `startchal`. -/
theorem startSlvs_succ (h : startSlvs starts (n + 1) i g = some (j, g')) :
    ∃ t, solverStart
        { g with mchl := g.mchl.prepare g.uq i, log := g.log ++ [.reset] } i (starts i) =
        some t ∧
      (starts i < 0 ∧ j = i ∧ g' = { t with mchl := t.mchl.setPool i (starts i) } ∨
        0 ≤ starts i ∧ startSlvs starts n (i + 1) { t with mchl := t.mchl.setPool i (starts i) } =
          some (j, g')) := by
  rw [startSlvs] at h
  obtain ⟨t, ht, h⟩ := Option.bind_eq_some_iff.mp h
  refine ⟨t, ht, ?_⟩
  split at h
  · next hp =>
    obtain ⟨rfl, rfl⟩ := Prod.mk.inj (Option.some.inj h)
    exact Or.inl ⟨hp, rfl, rfl⟩
  · next hp => exact Or.inr ⟨not_lt.mp hp, h⟩

theorem startSlvs_frame (h : startSlvs starts n i g = some (j, g')) :
    g'.mchl.chal = g.mchl.chal ∧ g'.uq = g.uq := by
  induction n generalizing i g with
  | zero =>
    obtain ⟨-, rfl⟩ := Prod.mk.inj (Option.some.inj h)
    exact ⟨rfl, rfl⟩
  | succ n ih =>
    obtain ⟨t, ht, hcase⟩ := startSlvs_succ h
    obtain ⟨hm, -, huq⟩ := solverStart_frame ht
    have hchal : t.mchl.chal = g.mchl.chal := by
      rw [hm]
      rfl
    rcases hcase with ⟨-, -, rfl⟩ | ⟨-, h⟩
    · exact ⟨hchal, huq⟩
    · obtain ⟨hc, hu⟩ := ih h
      exact ⟨hc.trans hchal, hu.trans huq⟩

/-- Each pass resets `solved`. -/
theorem startSlvs_reset (h : startSlvs starts n i g = some (j, g'))
    (h0 : n ≠ 0 ∨ g.mchl.solved = 0 ∧ sinceReset g.log = []) :
    g'.mchl.solved = 0 ∧ sinceReset g'.log = [] := by
  induction n generalizing i g with
  | zero =>
    obtain ⟨-, rfl⟩ := Prod.mk.inj (Option.some.inj h)
    exact h0.resolve_left (by simp)
  | succ n ih =>
    obtain ⟨t, ht, hcase⟩ := startSlvs_succ h
    obtain ⟨hm, hl, -⟩ := solverStart_frame ht
    have hreset : (t.mchl.setPool i (starts i)).solved = 0 ∧ sinceReset t.log = [] := by
      rw [hm, hl]
      exact ⟨rfl, sinceReset_reset _⟩
    rcases hcase with ⟨-, -, rfl⟩ | ⟨-, h⟩
    · exact hreset
    · exact ih h (Or.inr hreset)

theorem startchal_some (h : startchal g c = some (0, g')) :
    ∃ n t, startSlvs c.starts maxslv 0 g = some (n, t) ∧ n ≠ 0 ∧
      g' = { t with mchl := { t.mchl with nslv := n } } := by
  unfold startchal at h
  split at h
  · cases h
  · obtain ⟨⟨n, t⟩, ht, h⟩ := Option.map_eq_some_iff.mp h
    obtain ⟨hr, rfl⟩ := Prod.mk.inj h
    refine ⟨n, t, ht, ?_, rfl⟩
    rintro rfl
    cases hr

/-- A new challenge is in place when it replaced the old one. -/
theorem replacechal_reset (h : replacechal g chal c = some (0, g')) :
    g'.mchl.chal = chal ∧ g'.mchl.solved = 0 ∧ sinceReset g'.log = [] := by
  obtain ⟨n, t, ht, -, rfl⟩ := startchal_some h
  obtain ⟨hsolved, hlog⟩ := startSlvs_reset ht (Or.inl (by decide))
  exact ⟨(startSlvs_frame ht).1, hsolved, hlog⟩

theorem replacechal_uq (h : replacechal g chal c = some (0, g')) : g'.uq = g.uq := by
  obtain ⟨n, t, ht, -, rfl⟩ := startchal_some h
  exact (startSlvs_frame ht).2.trans (dropchal_uq g)

end Slvs

/-- What one pass of the loop of `mine` that keeps the challenge does to what was submitted. -/
inductive Pass {ω : Type} (ca : Authority ω) (w : ω) (m m' : Miner) : Uevent → Prop where
  | quiet (hm : m'.mchl = m.mchl) (hl : m'.log = m.log)
      (hev : ∀ ident data, ev = .solvr ident data → ident = m.mchl.chal.id → m.mchl.solved ≠ 0) :
      Pass ca w m m' ev
  | error (hm : m'.mchl = { m.mchl with solved := 0 }) (hl : m'.log = m.log ++ [.reset]) :
      Pass ca w m m' (.wsock ident fflags)
  | sent (h0 : m.mchl.solved = 0) (hc : m.conned = true)
      (hs : ca.submit w m.sk data = some (r, w')) (hm : m'.mchl = { m.mchl with solved := 1 })
      (hl : m'.log = m.log ++ [.submit m.mchl.chal.id data (r = 0)]) :
      Pass ca w m m' (.solvr m.mchl.chal.id data)
  | delayed (h0 : m.mchl.solved = 0) (hc : m.conned = false)
      (hm : m'.mchl = { m.mchl with solved := 1 }) (hl : m'.log = m.log) :
      Pass ca w m m' (.solvr m.mchl.chal.id data)

/-- How one pass of the loop of `mine` handles an event. -/
inductive Handled {ω : Type} (ca : Authority ω) (jsmn : Jsmn) (w : ω) (m : Miner) (c : Calls) :
    Uevent → Next → ω → Prop where
  | ignored (hid : ident ≠ m.sk) : Handled ca jsmn w m c (.wsock ident fflags) (.wait m) w
  | closed (hf : qnoteClosed &&& fflags ≠ 0) :
      Handled ca jsmn w m c (.wsock m.sk fflags) (.restart m) w
  | conn (hf : qnoteClosed &&& fflags = 0) (hc : qnoteConn &&& fflags ≠ 0)
      (hq : ca.curchal w m.sk = some (r, v)) :
      Handled ca jsmn w m c (.wsock m.sk fflags)
        (if r ≠ 0 then .restart { m with conned := true } else .wait { m with conned := true }) v
  | unread (hf : qnoteClosed &&& fflags = 0) (hc : qnoteConn &&& fflags = 0)
      (hr : ca.recv w m.sk m.b = some (l, b, v)) (hl : l < 0) :
      Handled ca jsmn w m c (.wsock m.sk fflags) (.restart { m with b := b }) v
  | read (hf : qnoteClosed &&& fflags = 0) (hc : qnoteConn &&& fflags = 0)
      (hr : ca.recv w m.sk m.b = some (l, b, v)) (hl : 0 ≤ l)
      (hn : respond jsmn { m with b := b } l.toNat c = some n) :
      Handled ca jsmn w m c (.wsock m.sk fflags) n v
  | solvr (hs : solution ca w m ident data = some (n, v)) :
      Handled ca jsmn w m c (.solvr ident data) n v
  | other : Handled ca jsmn w m c .other (.wait m) w

section Passes
variable {ω : Type} {ca : Authority ω} {jsmn : Jsmn} {m m' : Miner} {w w' : ω} {c : Calls}

theorem start_frame (h : start ca w m c = some (m', w')) : m'.toMining = m.toMining := by
  obtain ⟨⟨sk, v⟩, -, h⟩ := Option.bind_eq_some_iff.mp h
  dsimp only at h
  split at h
  · cases h
  · obtain ⟨rfl, -⟩ := Prod.mk.inj (Option.some.inj h)
    rfl

theorem follow_some (h : follow ca w c n = some (m', w')) :
    n = .wait m' ∨ (∃ m, n = .restart m ∧ m'.toMining = m.toMining) ∨
      ∃ m chal, n = .replace m chal ∧ replacechal m.toMining chal c = some (0, m'.toMining) := by
  cases n with
  | wait m => exact Or.inl (congrArg Next.wait (Prod.mk.inj (Option.some.inj h)).1)
  | restart m =>
    obtain ⟨v, -, h⟩ := Option.bind_eq_some_iff.mp h
    exact Or.inr (Or.inl ⟨m, rfl, start_frame h⟩)
  | replace m chal =>
    obtain ⟨⟨r, g⟩, hr, h⟩ := Option.bind_eq_some_iff.mp h
    refine Or.inr (Or.inr ⟨m, chal, rfl, ?_⟩)
    dsimp only at h
    split at h
    · cases h
    · next hz =>
      obtain ⟨rfl, -⟩ := Prod.mk.inj (Option.some.inj h)
      rwa [not_not.mp hz] at hr
  | quit => cases h

/-- How a response is answered. -/
theorem respond_some (h : respond jsmn m len c = some n) :
    n = .wait m ∨ n = .quit ∨ (∃ chal, n = .replace m chal) ∨
      n = .wait { m with mchl := { m.mchl with solved := 0 }, log := m.log ++ [.reset] } := by
  unfold respond at h
  dsimp only at h
  split at h
  · obtain ⟨x, -, rfl⟩ := Option.map_eq_some_iff.mp h
    cases x with
    | inl r =>
      dsimp only
      split
      · exact Or.inr (Or.inl rfl)
      · exact Or.inl rfl
    | inr chal => exact Or.inr (Or.inr (Or.inl ⟨chal, rfl⟩))
  · split at h
    · exact Or.inr (Or.inr (Or.inr (Option.some.inj h).symm))
    · exact Or.inl (Option.some.inj h).symm

/-- A response does not make the miner leave its socket. -/
theorem respond_stay (h : respond jsmn m len c = some n) :
    n = .quit ∨ ∃ m' chal, (n = .wait m' ∨ n = .replace m' chal) ∧ m'.sk = m.sk ∧ m'.uq = m.uq := by
  rcases respond_some h with rfl | rfl | ⟨chal, rfl⟩ | rfl
  · exact Or.inr ⟨m, Chal.zero, Or.inl rfl, rfl, rfl⟩
  · exact Or.inl rfl
  · exact Or.inr ⟨m, chal, Or.inr rfl, rfl, rfl⟩
  · exact Or.inr ⟨_, Chal.zero, Or.inl rfl, rfl, rfl⟩

theorem handle_some (h : handle ca jsmn w m c ev = some (n, w')) :
    Handled ca jsmn w m c ev n w' := by
  cases ev with
  | wsock ident fflags =>
    unfold handle at h
    dsimp only at h
    split at h
    · next hid =>
      obtain ⟨rfl, rfl⟩ := Prod.mk.inj (Option.some.inj h)
      exact .ignored (Ne.symm hid)
    next hid =>
    obtain rfl := not_not.mp hid
    split at h
    · next hf =>
      obtain ⟨rfl, rfl⟩ := Prod.mk.inj (Option.some.inj h)
      exact .closed hf
    next hf =>
    split at h
    · next hc =>
      obtain ⟨⟨r, v⟩, hq, h⟩ := Option.map_eq_some_iff.mp h
      obtain ⟨rfl, rfl⟩ := Prod.mk.inj h
      exact .conn (not_not.mp hf) hc hq
    next hc =>
    obtain ⟨⟨l, b, v⟩, hr, h⟩ := Option.bind_eq_some_iff.mp h
    dsimp only at h
    split at h
    · next hl =>
      obtain ⟨rfl, rfl⟩ := Prod.mk.inj (Option.some.inj h)
      exact .unread (not_not.mp hf) (not_not.mp hc) hr hl
    · next hl =>
      obtain ⟨n', hn, h⟩ := Option.map_eq_some_iff.mp h
      obtain ⟨rfl, rfl⟩ := Prod.mk.inj h
      exact .read (not_not.mp hf) (not_not.mp hc) hr (not_lt.mp hl) hn
  | solvr ident data => exact .solvr h
  | other =>
    obtain ⟨rfl, rfl⟩ := Prod.mk.inj (Option.some.inj h)
    exact .other

theorem follow_wait (h : follow ca w c (.wait m) = some (m', w')) : m' = m := by
  rcases follow_some h with he | ⟨u, he, -⟩ | ⟨u, chal, he, -⟩ <;> cases he
  rfl

theorem follow_restart (h : follow ca w c (.restart m) = some (m', w')) :
    m'.toMining = m.toMining := by
  rcases follow_some h with he | ⟨u, he, hu⟩ | ⟨u, chal, he, -⟩ <;> cases he
  exact hu

theorem follow_replace (h : follow ca w c (.replace m chal) = some (m', w')) :
    replacechal m.toMining chal c = some (0, m'.toMining) := by
  rcases follow_some h with he | ⟨u, he, -⟩ | ⟨u, chal', he, hu⟩ <;> cases he
  exact hu

/-- A pass that does not restart stays on its socket. -/
theorem follow_stay (h : follow ca w c n = some (m', w')) (hn : n = .wait m ∨ n = .replace m chal) :
    m'.sk = m.sk ∧ m'.uq = m.uq ∧ w' = w := by
  rcases hn with rfl | rfl
  · obtain ⟨rfl, rfl⟩ := Prod.mk.inj (Option.some.inj h)
    exact ⟨rfl, rfl, rfl⟩
  · have huq := replacechal_uq (follow_replace h)
    obtain ⟨⟨r, g⟩, -, h⟩ := Option.bind_eq_some_iff.mp h
    dsimp only at h
    split at h
    · cases h
    · obtain ⟨rfl, rfl⟩ := Prod.mk.inj (Option.some.inj h)
      exact ⟨rfl, huq, rfl⟩

theorem handle_replace (h : handle ca jsmn w m c ev = some (.replace m' chal, v)) :
    m'.toMining = m.toMining ∧ ∃ ident fflags, ev = .wsock ident fflags := by
  have hread : ∀ {t len}, respond jsmn t len c = some (.replace m' chal) → m' = t := by
    intro t len hn
    rcases respond_some hn with he | he | ⟨chal', he⟩ | he <;> cases he
    rfl
  generalize hn : Next.replace m' chal = n at h
  cases handle_some h with
  | conn _ _ _ => split at hn <;> cases hn
  | read _ _ _ _ hresp =>
    subst hn
    rw [hread hresp]
    exact ⟨rfl, _, _, rfl⟩
  | solvr hs =>
    subst hn
    unfold solution at hs
    split at hs
    · cases hs
    split at hs
    · cases hs
    dsimp only at hs
    split at hs
    · obtain ⟨x, -, hs⟩ := Option.map_eq_some_iff.mp hs
      cases hs
    · cases hs
  | _ => cases hn

theorem pass_wsock (h : Handled ca jsmn w m c (.wsock ident fflags) n v)
    (hf : follow ca v c n = some (m', w')) (hne : ∀ m₁ chal, n ≠ .replace m₁ chal) :
    Pass ca w m m' (.wsock ident fflags) := by
  have hquiet : m'.toMining = m.toMining → Pass ca w m m' (.wsock ident fflags) := fun hm =>
    .quiet (congrArg Mining.mchl hm) (congrArg Mining.log hm) nofun
  cases h with
  | ignored hid => exact hquiet (follow_wait hf ▸ rfl)
  | closed hfl => exact hquiet (follow_restart hf)
  | conn hfl hc hq =>
    split at hf
    · exact hquiet (follow_restart hf)
    · exact hquiet (follow_wait hf ▸ rfl)
  | unread hfl hc hr hl => exact hquiet ((follow_restart hf).trans rfl)
  | read hfl hc hr hl hn =>
    rcases respond_some hn with rfl | rfl | ⟨chal, rfl⟩ | rfl
    · exact hquiet (follow_wait hf ▸ rfl)
    · cases hf
    · exact absurd rfl (hne _ chal)
    · rw [follow_wait hf]
      exact .error rfl rfl

theorem solution_some (h : solution ca w m ident data = some (n, v)) :
    ∃ m', n = .wait m' ∧ Pass ca w m m' (.solvr ident data) := by
  unfold solution at h
  split at h
  · next hid =>
    refine ⟨m, (Prod.mk.inj (Option.some.inj h)).1.symm, .quiet rfl rfl ?_⟩
    rintro ident' data' ⟨⟩ hid'
    exact absurd hid' hid
  split at h
  · next hs =>
    exact ⟨m, (Prod.mk.inj (Option.some.inj h)).1.symm, .quiet rfl rfl fun _ _ _ _ => hs⟩
  · next hid hs =>
    obtain rfl := not_not.mp hid
    dsimp only at h
    split at h
    · next hc =>
      obtain ⟨⟨r, u⟩, hr, h⟩ := Option.map_eq_some_iff.mp h
      obtain ⟨⟨q, x⟩, hq, hr⟩ := Option.map_eq_some_iff.mp hr
      obtain ⟨rfl, rfl⟩ := Prod.mk.inj hr
      refine ⟨_, (Prod.mk.inj h).1.symm, .sent (not_not.mp hs) hc hq rfl ?_⟩
      by_cases hq0 : q = 0 <;> simp [hq0]
    · next hc =>
      exact ⟨_, (Prod.mk.inj (Option.some.inj h)).1.symm,
        .delayed (not_not.mp hs) (Bool.eq_false_iff.mpr hc) rfl rfl⟩

theorem handle_pass (h : handle ca jsmn w m c ev = some (n, v))
    (hf : follow ca v c n = some (m', w')) (hne : ∀ m₁ chal, n ≠ .replace m₁ chal) :
    Pass ca w m m' ev := by
  have hhandled := handle_some h
  cases ev with
  | wsock ident fflags => exact pass_wsock hhandled hf hne
  | solvr ident data =>
    obtain ⟨t, rfl, hpass⟩ := solution_some h
    exact follow_wait hf ▸ hpass
  | other =>
    cases hhandled
    rw [follow_wait hf]
    exact .quiet rfl rfl nofun

/-- Only the replacement of the challenge changes what the pools run. -/
theorem handle_jobs (h : handle ca jsmn w m c ev = some (n, v))
    (hf : follow ca v c n = some (m', w')) (hne : ∀ m₁ chal, n ≠ .replace m₁ chal) :
    m'.jobs = m.jobs := by
  cases handle_some h with
  | ignored _ | other => rw [follow_wait hf]
  | closed _ => rw [follow_restart hf]
  | conn _ _ _ =>
    split at hf
    · rw [follow_restart hf]
    · rw [follow_wait hf]
  | unread _ _ _ _ => rw [follow_restart hf]
  | read _ _ _ _ hn =>
    rcases respond_some hn with rfl | rfl | ⟨chal, rfl⟩ | rfl
    · rw [follow_wait hf]
    · cases hf
    · exact absurd rfl (hne _ chal)
    · rw [follow_wait hf]
  | solvr hs =>
    unfold solution at hs
    split at hs
    · obtain ⟨rfl, -⟩ := Prod.mk.inj (Option.some.inj hs)
      rw [follow_wait hf]
    split at hs
    · obtain ⟨rfl, -⟩ := Prod.mk.inj (Option.some.inj hs)
      rw [follow_wait hf]
    dsimp only at hs
    split at hs
    · obtain ⟨x, -, hs⟩ := Option.map_eq_some_iff.mp hs
      obtain ⟨rfl, -⟩ := Prod.mk.inj hs
      rw [follow_wait hf]
    · obtain ⟨rfl, -⟩ := Prod.mk.inj (Option.some.inj hs)
      rw [follow_wait hf]

theorem mine_some (h : mine ca jsmn (m, w) (ev, c) = some (m', w')) :
    Pass ca w m m' ev ∨ ∃ ident fflags chal, ev = .wsock ident fflags ∧
      replacechal m.toMining chal c = some (0, m'.toMining) := by
  obtain ⟨⟨n, v⟩, hn, hf⟩ := Option.bind_eq_some_iff.mp h
  by_cases hne : ∀ m₁ chal, n ≠ .replace m₁ chal
  · exact Or.inl (handle_pass hn hf hne)
  · simp only [not_forall, not_not] at hne
    obtain ⟨m₁, chal, rfl⟩ := hne
    obtain ⟨hm, ident, fflags, rfl⟩ := handle_replace hn
    exact Or.inr ⟨ident, fflags, chal, rfl, hm ▸ follow_replace hf⟩

end Passes

end Oin17.Mine
