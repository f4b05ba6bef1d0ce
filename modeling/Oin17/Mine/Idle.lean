import Oin17.Mine.Solved

namespace Oin17.Mine
open Chals Memory Run Ws

/-- A message passed to `handle_newchal`, and the results of the calls it makes. -/
structure Message where
  buf : Buf
  len : Nat
  calls : Calls

/-- The challenge in a message, when `chal_parse` accepts it. -/
def Message.chal (jsmn : Jsmn) (e : Message) : Option Chal :=
  (chalParse jsmn e.buf e.len e.calls.k e.calls.v e.calls.chal).bind fun (r, chal) =>
    if r = 0 then some chal else none

/-- The uqueue takes the registration, and the solvers are started. -/
def Message.Succeeds (e : Message) : Prop := e.calls.added = true ∧ ∀ i, 0 ≤ e.calls.starts i

def receive (jsmn : Jsmn) (g : Mining) (e : Message) : Option (Int × Mining) :=
  handleNewchal jsmn g e.buf e.len e.calls

/-- The state a call leaves. -/
def received (jsmn : Jsmn) (g : Mining) (e : Message) : Option Mining :=
  (receive jsmn g e).map Prod.snd

/-- Solver `k` runs, on `mchl.chal`. -/
def Runs (g : Mining) (k : Nat) : Prop :=
  (g.mchl.slvs k).solvr.chl = true ∧ 0 ≤ (g.mchl.slvs k).pool ∧
    g.jobs (g.mchl.slvs k).pool = some k

def Running (g : Mining) : Prop := g.mchl.nslv = maxslv ∧ ∀ k < maxslv, Runs g k

/-- Where `handle_newchal` returns 0, the solvers run on the challenge of the message. -/
def Working (jsmn : Jsmn) (g : Mining) (e : Message) : Prop :=
  ∀ g' chal, receive jsmn g e = some (0, g') → e.chal jsmn = some chal →
    g'.mchl.chal.id = chal.id ∧ Running g'

/-- The challenge is not of id 0 where none was started before. -/
def Distinct (jsmn : Jsmn) (g : Mining) (e : Message) : Prop :=
  g.mchl.nslv = 0 → ∀ chal, e.chal jsmn = some chal → chal.id ≠ 0

section
variable {jsmn : Jsmn} {g g' : Mining}

theorem startSlvs_runs (hp : ∀ k, 0 ≤ starts k) (h : startSlvs starts n i g = some (j, g'))
    (hrun : ∀ k < i, Runs g k) : j = i + n ∧ ∀ k < j, Runs g' k := by
  induction n generalizing i g with
  | zero =>
    obtain ⟨rfl, rfl⟩ := Prod.mk.inj (Option.some.inj h)
    exact ⟨rfl, hrun⟩
  | succ n ih =>
    obtain ⟨t, ht, ⟨hneg, -⟩ | ⟨-, h⟩⟩ := startSlvs_succ h
    · exact absurd hneg (not_lt.mpr (hp i))
    · have hnext : ∀ k < i + 1, Runs { t with mchl := t.mchl.setPool i (starts i) } k := by
        intro k hk
        rcases solverStart_some ht with ⟨hneg, -⟩ | ⟨-, hfree, rfl⟩
        · exact absurd hneg (not_lt.mpr (hp i))
        · by_cases hki : k = i
          · subst hki
            simp [Runs, Chl.setPool, Chl.setSlv, Chl.prepare, hp k]
          · -- the pool is a free one, so those of the solvers before keep running
            obtain ⟨hchl, hpool, hjob⟩ := hrun k (by omega)
            have hne : (g.mchl.slvs k).pool ≠ starts i := by
              intro he
              rw [he, hfree] at hjob
              cases hjob
            simp [Runs, Chl.setPool, Chl.setSlv, Chl.prepare, hki, hchl, hpool, hjob, hne]
      obtain ⟨hj, hruns⟩ := ih h hnext
      exact ⟨by omega, hruns⟩

theorem replacechal_running (hc : c.added = true) (hp : ∀ k, 0 ≤ c.starts k)
    (h : replacechal g chal c = some (r, g')) : g'.mchl.chal = chal ∧ Running g' := by
  unfold replacechal startchal at h
  dsimp only at h
  rw [if_neg (by simp [hc])] at h
  obtain ⟨⟨n, t⟩, ht, h⟩ := Option.map_eq_some_iff.mp h
  obtain ⟨-, rfl⟩ := Prod.mk.inj h
  obtain ⟨rfl, hruns⟩ := startSlvs_runs hp ht fun k hk => absurd hk (Nat.not_lt_zero k)
  exact ⟨(startSlvs_frame ht).1, Nat.zero_add _, fun k hk => hruns k (by omega)⟩

theorem receive_some (h : receive jsmn g e = some (r, g')) :
    (∃ chal, e.chal jsmn = some chal ∧ chal.id ≠ g.mchl.chal.id ∧
        replacechal g chal e.calls = some (r, g')) ∨
      g' = g ∧ ∀ chal, e.chal jsmn = some chal → chal.id = g.mchl.chal.id ∧ r = 0 := by
  obtain ⟨x, hx, h⟩ := Option.bind_eq_some_iff.mp h
  obtain ⟨⟨q, chal⟩, hq, rfl⟩ := Option.map_eq_some_iff.mp hx
  have hchal : e.chal jsmn = if q = 0 then some chal else none := by
    rw [Message.chal, hq]
    rfl
  dsimp only at h
  by_cases hq0 : q = 0
  · rw [if_pos hq0] at hchal
    rw [if_neg (not_not.mpr hq0)] at h
    by_cases hid : chal.id = g.mchl.chal.id
    · rw [if_pos hid] at h
      obtain ⟨rfl, rfl⟩ := Prod.mk.inj (Option.some.inj h)
      refine Or.inr ⟨rfl, fun chal' hchal' => ?_⟩
      obtain rfl := Option.some.inj (hchal.symm.trans hchal')
      exact ⟨hid, rfl⟩
    · rw [if_neg hid] at h
      exact Or.inl ⟨chal, hchal, hid, h⟩
  · rw [if_neg hq0] at hchal
    rw [if_pos hq0] at h
    obtain ⟨-, rfl⟩ := Prod.mk.inj (Option.some.inj h)
    exact Or.inr ⟨rfl, fun chal' hchal' => by rw [hchal] at hchal'; cases hchal'⟩

/-- Nothing was started, or all solvers run. -/
def Settled (g : Mining) : Prop := g.mchl.nslv = 0 ∧ g.mchl.chal.id = 0 ∨ Running g

theorem Settled.receive (h : Settled g) (he : e.Succeeds) (hs : receive jsmn g e = some (r, g')) :
    Settled g' := by
  rcases receive_some hs with ⟨chal, -, -, hr⟩ | ⟨rfl, -⟩
  · exact Or.inr (replacechal_running he.1 he.2 hr).2
  · exact h

theorem Settled.working (h : Settled g) (he : e.Succeeds)
    (hs : Mine.receive jsmn g e = some (r, g')) :
    Working jsmn g e ↔ Distinct jsmn g e := by
  rcases receive_some hs with ⟨chal, hchal, hid, hr⟩ | ⟨rfl, hsame⟩
  · refine iff_of_true (fun g'' chal' h' hchal' => ?_) fun hn chal' hchal' => ?_
    · obtain rfl := Option.some.inj (hchal.symm.trans hchal')
      obtain ⟨-, rfl⟩ := Prod.mk.inj (Option.some.inj (hs.symm.trans h'))
      obtain ⟨hc, hrun⟩ := replacechal_running he.1 he.2 hr
      exact ⟨by rw [hc], hrun⟩
    · obtain rfl := Option.some.inj (hchal.symm.trans hchal')
      rcases h with ⟨-, h0⟩ | ⟨hall, -⟩
      · rwa [h0] at hid
      · rw [hall] at hn
        cases hn
  · constructor
    · rintro hwork hn chal hchal -
      obtain ⟨-, rfl⟩ := hsame chal hchal
      rw [(hwork g' chal hs hchal).2.1] at hn
      cases hn
    · intro hdist g'' chal h' hchal
      obtain ⟨-, rfl⟩ := Prod.mk.inj (Option.some.inj (hs.symm.trans h'))
      obtain ⟨hid, -⟩ := hsame chal hchal
      refine ⟨hid.symm, ?_⟩
      rcases h with ⟨hn, h0⟩ | hrun
      · exact absurd (hid.trans h0) (hdist hn chal hchal)
      · exact hrun

end

/-- From what `init_mining` leaves, with solvers that can be started: where
`handle_newchal` returns 0 the solvers run on the challenge of the message,
except where the first challenge is of id 0. -/
theorem working_iff (jsmn : Jsmn) (uq : Int) (es : List Message) (he : ∀ e ∈ es, e.Succeeds) :
    Steps (received jsmn) (Working jsmn) (initMining uq) es ↔
      Steps (received jsmn) (Distinct jsmn) (initMining uq) es := by
  refine steps_congr Settled Message.Succeeds (Working jsmn) (Distinct jsmn) ?_ ?_
    (Or.inl ⟨rfl, rfl⟩) he
  · intro g e g' h he hs
    obtain ⟨⟨r, t⟩, ht, rfl⟩ := Option.map_eq_some_iff.mp hs
    exact h.receive he ht
  · intro g e g' h he hs
    obtain ⟨⟨r, t⟩, ht, rfl⟩ := Option.map_eq_some_iff.mp hs
    exact h.working he ht

def message (id : Char) : Message :=
  { buf := store (fun _ => 0) 0 (response id), len := (response id).length, calls := someCalls }

theorem message_id (id : Char) (n : UInt64)
    (h : ((message id).chal responseToks).map Chal.id = some n) (hn : n ≠ 0) (g : Mining) :
    Distinct responseToks g (message id) := by
  rintro - chal hchal
  rw [hchal] at h
  exact Option.some.inj h ▸ hn

/-- Two challenges, both of another id than 0. -/
theorem working_two : (message '5').Succeeds ∧ (message '6').Succeeds ∧
    Steps (received responseToks) (Working responseToks) (initMining 0)
      [message '5', message '6'] := by
  have hok : ∀ id, (message id).Succeeds := fun id => ⟨rfl, fun i => Int.natCast_nonneg i⟩
  have hfive := message_id '5' 5 (by decide +kernel) (by decide)
  have hsix := message_id '6' 6 (by decide +kernel) (by decide)
  refine ⟨hok _, hok _, (working_iff responseToks 0 _ ?_).mpr ?_⟩
  · intro e he
    rcases List.mem_pair.mp he with rfl | rfl
    · exact hok _
    · exact hok _
  · exact fun t _ => ⟨hfive _, fun u _ => ⟨hsix t, trivial⟩⟩

/-- The first challenge is of id 0, which `mchl` holds at first. -/
theorem zero_id_idles :
    (receive responseToks (initMining 0) (message '0')).map (fun (r, g) => (r, g.mchl.nslv)) =
        some (0, 0) ∧
      ¬ Steps (received responseToks) (Working responseToks)
        (initMining 0) [message '0'] := by
  have hend : (receive responseToks (initMining 0) (message '0')).map
      (fun (r, g) => (r, g.mchl.nslv)) =
      some (0, 0) := by decide +kernel
  refine ⟨hend, fun h => ?_⟩
  obtain ⟨⟨r, g⟩, hg, hview⟩ := Option.map_eq_some_iff.mp hend
  obtain ⟨rfl, hn⟩ := Prod.mk.inj hview
  have hid : ((message '0').chal responseToks).isSome := by decide +kernel
  obtain ⟨chal, hchal⟩ := Option.isSome_iff_exists.mp hid
  have hrun := ((h g (Option.map_eq_some_iff.mpr ⟨(0, g), hg, rfl⟩)).1 g chal hg hchal).2.1
  rw [hn] at hrun
  cases hrun

end Oin17.Mine
