import Oin17.Chals.Drafts
import Oin17.Mine.Rig

namespace Oin17.Mine
open Chals Chals.Solvers Compat Crypto Function Memory Run Sortlist Ws

/-- A message that holds a challenge is that of one that was asked. -/
def Tells (jsmn : Jsmn) (asked : Asked → Prop) (msg : List UInt8) : Prop :=
  bytes "last_solution_hash" <:+: text msg →
    ∃ a toks, asked a ∧ jsmn msg = some toks ∧ ∀ b, a.Sent (store b 0 msg) toks

/-- `mine` reads a message for an event of its socket with these flags. -/
def Reads (fflags : Nat) : Prop := qnoteClosed &&& fflags = 0 ∧ qnoteConn &&& fflags = 0

/-- What the program relies on: the challenges that come are those that were asked, there is a
message to read when an event says so, and a solution takes less than 2 GiB. -/
def Rig.Relies (jsmn : Jsmn) (asked : Asked → Prop) (s : Rig) : Move → Prop
  | .crew _ (.main (.wsock ident fflags) _) =>
    ident = s.crew.m.sk → Reads fflags → (wsRecv s.crew.w s.crew.m.sk maxmsglen).r ≠ 0
  | .crew _ _ => True
  | .callback k rs => Completes (Tells jsmn asked) s.crew.w (.callback k rs)
  | .begin _ al => Frugal al
  | .finish _ _ _ _ => True

section Reading
variable {jsmn : Jsmn} {asked : Asked → Prop} {m : Miner} {w v : State} {c : Calls}

/-- The challenge that takes the place of another one is read from a message. -/
theorem handle_read {ω : Type} {ca : Authority ω} {v w : ω}
    (h : handle ca jsmn w m c ev = some (.replace g chal, v)) :
    ∃ fflags l b, ev = .wsock m.sk fflags ∧ Reads fflags ∧ ca.recv w m.sk m.b = some (l, b, v) ∧
      0 ≤ l ∧ bytes "last_solution_hash" <:+: cstr b maxmsglen ∧
      chalParse jsmn b l.toNat c.k c.v c.chal = some (0, chal) := by
  generalize hn : Next.replace g chal = n at h
  cases handle_some h with
  | conn _ _ _ => split at hn <;> cases hn
  | read hf hc hr hl hresp =>
    subst hn
    unfold respond at hresp
    dsimp only at hresp
    split at hresp
    · next hkey =>
      obtain ⟨x, hx, he⟩ := Option.map_eq_some_iff.mp hresp
      cases x with
      | inl r =>
        dsimp only at he
        split at he <;> cases he
      | inr chal' =>
        cases he
        obtain ⟨⟨r, d⟩, hparse, hx⟩ := Option.map_eq_some_iff.mp hx
        dsimp only at hx
        split at hx
        · cases hx
        · next hr0 =>
          split at hx
          · cases hx
          · cases hx
            rw [not_not.mp hr0] at hparse
            exact ⟨_, _, _, rfl, ⟨hf, hc⟩, hr, hl, hkey, hparse⟩
    · split at hresp <;> cases hresp
  | solvr hs =>
    subst hn
    obtain ⟨m', hm', -⟩ := solution_some hs
    cases hm'
  | _ => cases hn

/-- A message that waits tells of what was asked, and it ends with a NUL. -/
def Told (jsmn : Jsmn) (asked : Asked → Prop) (msg : List UInt8) : Prop :=
  Tells jsmn asked msg ∧ msg.getLast? = some 0

theorem completes_told (h : Completes (Tells jsmn asked) w e) :
    Completes (Told jsmn asked) w e := by
  unfold Completes at h ⊢
  split
  · next k buf =>
    intro c hc
    refine ⟨h c hc, ?_⟩
    rw [append_message, terminated]
    exact List.getLast?_concat
  · trivial

/-- A NUL that ends a message of the module is in the buffer of `mine`. -/
theorem cstr_told {msg : List UInt8} (hlast : msg.getLast? = some 0)
    (hlen : msg.length ≤ maxmsglen) (b : Buf) : cstr (store b 0 msg) maxmsglen = text msg := by
  have hended : Ended maxmsglen msg := by
    refine ⟨hlast, ?_⟩
    obtain ⟨s, rfl⟩ := List.getLast?_eq_some_iff.mp hlast
    have hle := text_length s []
    rw [List.length_append] at hlen
    exact Nat.lt_of_le_of_lt hle hlen
  exact hended.cstr b

/-- What is put in place is a challenge that was asked. -/
theorem replace_stored (h : Holding (Told jsmn asked) w)
    (hread : ∀ fflags, ev = .wsock m.sk fflags → Reads fflags →
      (wsRecv w m.sk maxmsglen).r ≠ 0)
    (hh : handle (central wallet ok) (jsmn.room n) w m c ev = some (.replace g chal, v)) :
    ∃ a, asked a ∧ a.Stored chal := by
  obtain ⟨fflags, l, b, hev, hreads, hrecv, hl, hkey, hparse⟩ := handle_read hh
  obtain ⟨hr, hrest⟩ := Prod.mk.inj (Option.some.inj hrecv)
  obtain ⟨hb, -⟩ := Prod.mk.inj hrest
  have hne := hread fflags hev hreads
  rw [hr] at hne
  have hpos : 0 < (wsRecv w m.sk maxmsglen).r := by omega
  obtain ⟨⟨htells, hlast⟩, hlen, hle⟩ := h.recv hpos
  rw [hr] at hlen
  subst hb
  rw [cstr_told hlast hle] at hkey
  obtain ⟨a, toks, ha, htoks, hsent⟩ := htells hkey
  rw [hlen, Int.toNat_natCast] at hparse
  have hload : load (store m.b 0 (wsRecv w m.sk maxmsglen).buf) 0
      (wsRecv w m.sk maxmsglen).buf.length = (wsRecv w m.sk maxmsglen).buf := load_store ..
  have hroom : toks.length ≤ n := by
    by_contra hgt
    rw [chalParse, hload, room_none htoks (not_le.mp hgt)] at hparse
    cases hparse
  have hgiven : jsmn.room n (load (store m.b 0 (wsRecv w m.sk maxmsglen).buf) 0
      (wsRecv w m.sk maxmsglen).buf.length) = some toks := by
    rw [hload]
    exact (room_some jsmn).mpr ⟨htoks, hroom⟩
  obtain ⟨d, hd, hstored⟩ := (hsent m.b).stored hgiven c.k c.v c.chal
  obtain ⟨-, rfl⟩ := Prod.mk.inj (Option.some.inj (hd.symm.trans hparse))
  exact ⟨a, ha, hstored⟩

end Reading

section Runs
variable {wallet : List UInt8} {jsmn : Jsmn} {asked : Asked → Prop} {s s' : Rig} {P : Chal → Prop}
variable {sha256 : List UInt8 → Buf} {qsort : Qsort} {slv₀ : Nat → Solvers.Solver}
variable {T : List UInt8 → Prop}

theorem begin_world (hs : s.begin t al = some s') : s'.crew.w = s.crew.w := by
  obtain ⟨i, -, hs⟩ := Option.bind_eq_some_iff.mp hs
  obtain ⟨c, hc, hs⟩ := Option.bind_eq_some_iff.mp hs
  dsimp only at hs
  split at hs
  · obtain ⟨c', hc', rfl⟩ := Option.map_eq_some_iff.mp hs
    exact (Crew.work_miner hc').2.trans (Crew.work_miner hc).2
  · obtain rfl := Option.some.inj hs
    exact (Crew.work_miner hc).2

theorem finish_world (hs : s.finish sha256 qsort t fuel lh mtmp = some s') :
    s'.crew.w = s.crew.w := by
  obtain ⟨i, -, hs⟩ := Option.bind_eq_some_iff.mp hs
  obtain ⟨c, hc, hs⟩ := Option.bind_eq_some_iff.mp hs
  obtain ⟨⟨r, slv, w⟩, -, hs⟩ := Option.bind_eq_some_iff.mp hs
  obtain ⟨c', hc', rfl⟩ := Option.map_eq_some_iff.mp hs
  exact (Crew.work_miner hc').2.trans (Crew.work_miner hc).2

theorem Rig.step_holding (h : Holding T s.crew.w)
    (hc : ∀ k rs, e = .callback k rs → Completes T s.crew.w (.callback k rs))
    (hs : s.step wallet jsmn sha256 qsort e = some s') : Holding T s'.crew.w := by
  cases e with
  | crew ok a =>
    rw [Rig.step] at hs
    split at hs
    · cases hs
    · obtain ⟨c, hc', rfl⟩ := Option.map_eq_some_iff.mp hs
      exact Crew.step_keeps central_holding h hc'
  | callback k rs =>
    obtain ⟨w, hw, rfl⟩ := Option.map_eq_some_iff.mp hs
    exact h.step (e := .callback k rs) hw trivial (hc k rs rfl)
  | «begin» t al =>
    rw [begin_world hs]
    exact h
  | finish t fuel lh mtmp =>
    rw [finish_world hs]
    exact h

theorem Crew.Apart.world {ω : Type} {c : Crew ω} (h : c.Apart) (w : ω) :
    Crew.Apart { c with w := w } :=
  ⟨⟨h.inv.asleep, h.inv.sees, h.inv.events, h.inv.submitted, h.inv.spaced, h.inv.clear,
    h.inv.held⟩, h.paired, h.awake⟩

theorem Rig.Sound.step (h : s.Sound P sha256 slv₀) (hP : ∀ c, P c → c.size.toNat < 2 ^ 32)
    (hread : ∀ ok ev x g chal v, e = .crew ok (.main ev x) →
      handle (central wallet ok) jsmn s.crew.w s.crew.m x ev = some (.replace g chal, v) → P chal)
    (hpos : ∀ i, 0 < (slv₀ i).nmin) (hmin : ∀ i, (slv₀ i).nmin < (slv₀ i).nmax)
    (hal : ∀ t al, e = .begin t al → Frugal al)
    (hs : s.step wallet jsmn sha256 qsort e = some s') : s'.Sound P sha256 slv₀ := by
  cases e with
  | crew ok a =>
    rw [Rig.step] at hs
    split at hs
    · cases hs
    · next hsolves =>
      obtain ⟨c, hc, rfl⟩ := Option.map_eq_some_iff.mp hs
      refine h.crew hP (fun ev x g chal v he hh => ?_) (Bool.eq_false_iff.mpr hsolves) hc
      exact hread ok ev x g chal v (by rw [he]) hh
  | callback k rs =>
    obtain ⟨w, -, rfl⟩ := Option.map_eq_some_iff.mp hs
    exact ⟨h.apart.world w, ⟨h.known.runs, h.known.next⟩, h.chl, h.busy, h.held, h.small, h.finds⟩
  | «begin» t al => exact h.begin (hal t al rfl) hmin (central wallet true) jsmn hs
  | finish t fuel lh mtmp => exact h.finish hpos hmin (central wallet true) jsmn hs

theorem Rig.init_sound (hfresh : ∀ i, Fresh (slv₀ i)) (hsmall : ∀ i, (slv₀ i).Small) (w : State)
    (uq sk : Int) (b : Buf) (busy : Nat → Bool) (sn : UInt64) (prngs : Prngs Nat) :
    (Rig.init w (begun uq sk b) busy sn prngs slv₀).Sound P sha256 slv₀ := by
  refine ⟨Crew.init_apart w uq sk b busy, ⟨nofun, trivial⟩, rfl, fun i => ?_, ?_, hsmall, nofun⟩
  · refine iff_of_false (by simp [Rig.init]) ?_
    rintro ⟨t, harg, -⟩
    cases harg
  · exact ⟨(by decide : (0 : Nat) < 2 ^ 32), fun i => fresh_stocked (hfresh i), nofun⟩

/-- Nothing waits to be read. -/
theorem quiet_holding {w : State} (h : ∃ q, Sound w q) (hw : ∀ c, (w.uconns c).iq = none) :
    Holding T w := by
  obtain ⟨q, hq⟩ := h
  refine ⟨q, hq, fun c m hm => ?_⟩
  have hhead : heads w (c, .incoming) = none := by
    unfold heads
    split
    · exact hw c
    · rfl
  rw [(hq.queues.chain (c, .incoming)).nil_iff.mp hhead] at hm
  cases hm

/-- From the frames of a challenge to the submission of a nonce: in every run of the miner, the
connections, the threads and the solvers, where the challenges that come are ones that the server
has asked, what is submitted for a challenge is a nonce that the server accepts. -/
theorem submitted_accepted {es : List Ws.Event} {w : State} {id n : UInt64} {moves : List Move}
    (hws : exec Ws.step initWs es = some w) (hsend : ∀ id, Event.send id [] ∉ es)
    (hw : ∀ c, (w.uconns c).iq = none) (hsize : ∀ a, asked a → a.task.size < 2 ^ 32)
    (hfresh : ∀ i, Fresh (slv₀ i)) (hsmall : ∀ i, (slv₀ i).Small) (hpos : ∀ i, 0 < (slv₀ i).nmin)
    (hrely : Steps (Rig.step wallet (jsmn.room maxTokens) sha256 qsort) (Rig.Relies jsmn asked)
      (Rig.init w (begun uq sk b) busy sn prngs slv₀) moves)
    (hrun : exec (Rig.step wallet (jsmn.room maxTokens) sha256 qsort)
      (Rig.init w (begun uq sk b) busy sn prngs slv₀) moves = some s)
    (hsubmit : .submit id n ok ∈ s.crew.m.log) :
    ∃ a, asked a ∧ id.toNat = a.id ∧ (a.Plain sha256 n → a.Accepts sha256 n) := by
  have hP : ∀ c : Chal, (∃ a, asked a ∧ a.Stored c) → c.size.toNat < 2 ^ 32 := by
    intro c hc
    obtain ⟨a, ha, hstored⟩ := hc
    rw [hstored.size]
    exact hsize a ha
  have hinv := hrely.last (fun s => s.Sound (fun c => ∃ a, asked a ∧ a.Stored c) sha256 slv₀ ∧
      Holding (Told jsmn asked) s.crew.w) (fun s e s' h hs hg => ?_)
    ⟨Rig.init_sound hfresh hsmall w uq sk b busy sn prngs, quiet_holding (sound_run hws hsend) hw⟩
    hrun
  · obtain ⟨seen, hmem, hne, hids⟩ := hinv.1.apart.inv.submitted id n ok hsubmit
    obtain ⟨c, hc⟩ := List.exists_mem_of_ne_nil seen hne
    obtain ⟨⟨a, ha, hstored⟩, hn, hsolves⟩ := hinv.1.finds n seen hmem c hc
    refine ⟨a, ha, ?_, fun hplain => (hstored.solves hn hplain).mp hsolves⟩
    rw [← hids c hc]
    exact hstored.id
  · obtain ⟨hsound, hholding⟩ := h
    constructor
    · refine hsound.step hP ?_ hpos (fun i => (hfresh i).range) ?_ hs
      · intro ok ev x g chal v he hh
        refine replace_stored hholding (fun fflags hev hreads => ?_) hh
        rw [he, hev] at hg
        exact hg rfl hreads
      · intro t al he
        rw [he] at hg
        exact hg
    · refine Rig.step_holding hholding (fun k rs he => ?_) hs
      rw [he] at hg
      exact completes_told hg

end Runs

/-- A solver for the nonces from 10 to 19. -/
def minted : Solvers.Solver where
  nmin := 10
  nmax := 20
  nonce := 0
  mem := (solverInit .exact blankChal).2
  nums _ := 0
  str _ := 0
  sp := smallGrid

theorem minted_fresh : Fresh minted := by
  have hinit : (solverInit .exact blankChal).1 = 0 := by decide +kernel
  exact ⟨⟨.exact, blankChal, Prod.ext hinit rfl⟩, by decide⟩

theorem minted_small : minted.Small := by
  have hsmall : ∀ m ∈ minted.mem.sp, m.sol < 2 ^ 31 := by decide +kernel
  exact hsmall

/-- An allocator that has nothing for the solution of a grid. -/
def noSolution : SolverAlloc :=
  { SolverAlloc.exact with sp := { ShortpathAlloc.exact with sol := .fails } }

/-- The connection is established, the challenge of three numbers comes, a solver is started on it
and its nonce is submitted. -/
def shortMoves : List Move :=
  [.callback 0 .established, .crew true (.main (.wsock 0 qnoteConn) someCalls),
    .callback 0 (.receive shortText 0), .crew true (.main (.wsock 0 qnoteRead) someCalls),
    .crew true (.drop true), .crew true (.start 0 0), .crew true (.work 0 .check),
    .crew true .started, .crew true (.start (-1) 0), .begin 0 noSolution,
    .finish 0 0 (fun _ => 0) (fun _ => 0), .crew true (.work 0 .notify),
    .crew true (.main (.solvr 7 17) someCalls)]

/-- The miner on the first socket, with one thread that is not busy and those solvers. -/
def shortRig : Rig :=
  Rig.init (wsConnect initWs 0 true).2 (begun 0 0 fun _ => 0) (fun _ => false) 0
    { gmt := { mt := .replicate nn 0, mti := 0 }
      own := fun _ => { mt := .replicate nn 0, mti := 0 } } fun _ => minted

theorem short_tells : Tells shortJsmn (· = shortAsked) (shortText ++ [0]) :=
  fun _ => ⟨shortAsked, shortToks, rfl, short_jsmn [], fun b => short_sent b [0]⟩

theorem shortMoves_relies : Steps (Rig.step [] (shortJsmn.room maxTokens) zeros untouched)
    (Rig.Relies shortJsmn (· = shortAsked)) shortRig shortMoves := by
  have hempty : (exec (Rig.step [] (shortJsmn.room maxTokens) zeros untouched) shortRig
      (shortMoves.take 2)).all (fun s => decide (s.crew.w.user 0 = some 0 ∧
        (s.crew.w.uconns 0).fo = 0)) = true := by decide +kernel
  have hthere : (exec (Rig.step [] (shortJsmn.room maxTokens) zeros untouched) shortRig
      (shortMoves.take 3)).all (fun s => decide ((wsRecv s.crew.w s.crew.m.sk maxmsglen).r ≠ 0)) =
        true := by decide +kernel
  have hrest : ∀ e ∈ shortMoves.drop 4, ∀ s : Rig, s.Relies shortJsmn (· = shortAsked) e := by
    simp [shortMoves, Rig.Relies, Frugal, noSolution, Realloc.fails]
  intro s₁ h₁
  refine ⟨trivial, fun s₂ h₂ => ⟨fun _ hreads => absurd hreads.2 (by decide), fun s₃ h₃ => ?_⟩⟩
  have hexec : exec (Rig.step [] (shortJsmn.room maxTokens) zeros untouched) shortRig
      (shortMoves.take 2) = some s₂ := by
    simp [shortMoves, exec, h₁, h₂]
  refine ⟨fun c hc => ?_, fun s₄ h₄ => ⟨fun _ _ => ?_, steps_all hrest s₄⟩⟩
  · rw [hexec] at hempty
    obtain ⟨huser, hfo⟩ := of_decide_eq_true hempty
    obtain rfl := Option.some.inj (huser.symm.trans hc)
    rw [append_message, hfo]
    exact short_tells
  · have hexec' : exec (Rig.step [] (shortJsmn.room maxTokens) zeros untouched) shortRig
        (shortMoves.take 3) = some s₃ := by
      simp [shortMoves, exec, h₁, h₂, h₃]
    rw [hexec'] at hthere
    exact of_decide_eq_true hthere

theorem submitted_accepted_short : ∃ s,
    exec (Rig.step [] (shortJsmn.room maxTokens) zeros untouched) shortRig shortMoves = some s ∧
      shortAsked.Accepts zeros 17 := by
  have hrun : (exec (Rig.step [] (shortJsmn.room maxTokens) zeros untouched) shortRig
      shortMoves).any (fun s => decide (.submit 7 17 true ∈ s.crew.m.log)) = true := by
    decide +kernel
  obtain ⟨s, h, hs⟩ := (Option.any_eq_true _ _).mp hrun
  have hquiet : ∀ c, ((wsConnect initWs 0 true).2.uconns c).iq = none := by decide
  have hsize : ∀ a : Asked, a = shortAsked → a.task.size < 2 ^ 32 := by
    intro a ha
    rw [ha]
    decide
  obtain ⟨a, rfl, -, haccepts⟩ := submitted_accepted
    (show exec Ws.step initWs [.connect 0 true] = _ from rfl) (by simp) hquiet hsize
    (fun _ => minted_fresh) (fun _ => minted_small) (fun _ => by decide) shortMoves_relies h
    (of_decide_eq_true hs)
  exact ⟨s, h, haccepts short_plain⟩

end Oin17.Mine
