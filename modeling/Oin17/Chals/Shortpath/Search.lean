import Oin17.Chals.Shortpath.Grid
import Oin17.Chals.Shortpath.Queue
import Oin17.Lib.Frontier

namespace Oin17.Chals
open Cint Loop Memory Links Utils

theorem Requeued.cell (h : Requeued sp sp') (i : Nat) :
    (sp'.cells i).x = (sp.cells i).x ∧ (sp'.cells i).y = (sp.cells i).y ∧
      (sp'.cells i).c = (sp.cells i).c ∧ (sp'.cells i).p = (sp.cells i).p := by
  have := h.data i
  simpa [Cell.data] using this

/-- Every cell is in its place, with its parent from `par`. -/
structure Placed (sp₀ : Shortpath) (par : Nat → Option Nat) (sp : Shortpath) : Prop where
  size : sp.size = sp₀.size
  grid : sp.grid = sp₀.grid
  src : sp.src = sp₀.src
  dst : sp.dst = sp₀.dst
  cells : ∀ i, i < sp₀.size * sp₀.size →
    (sp.cells i).x = col sp₀.size i ∧ (sp.cells i).y = row sp₀.size i ∧ (sp.cells i).p = par i

theorem Placed.requeued (h : Placed sp₀ par sp) (hr : Requeued sp sp') : Placed sp₀ par sp' := by
  refine ⟨hr.size.trans h.size, hr.grid.trans h.grid, hr.src.trans h.src, hr.dst.trans h.dst, ?_⟩
  intro i hi
  obtain ⟨hx, hy, -, hp⟩ := hr.cell i
  rw [hx, hy, hp]
  exact h.cells i hi

theorem Placed.upd (h : Placed sp₀ par sp)
    (hf : ∀ c, (f c).x = c.x ∧ (f c).y = c.y ∧ (f c).p = c.p) : Placed sp₀ par (sp.upd i f) := by
  refine ⟨h.size, h.grid, h.src, h.dst, fun j hj => ?_⟩
  by_cases hij : j = i
  · subst hij
    simp only [Shortpath.upd, Function.update_self, hf]
    exact h.cells j hj
  · simp only [Shortpath.upd, Function.update_of_ne hij]
    exact h.cells j hj

/-- A cell before anything is known about it. -/
def fresh (size i : Nat) : Cell :=
  { x := col size i, y := row size i, c := -1, p := none, qn := none, qp := none }

theorem searchInit_spec (hb : sp.size < 2 ^ 31) :
    (∀ i, i < sp.size * sp.size → (searchInit sp).cells i = fresh sp.size i) ∧
      searchInit sp = { sp with cells := (searchInit sp).cells, q := none } := by
  let Init (n : Nat) (t : Shortpath) : Prop :=
    (∀ i, i < n → t.cells i = fresh sp.size i) ∧ t = { sp with cells := t.cells }
  have hstep : ∀ y x t, y < sp.size → x < sp.size → Init (y * sp.size + x) t →
      Init (y * sp.size + (x + 1)) (t.upd (indexofxy x y t.size) fun _ =>
        { x := toInt x, y := toInt y, c := -1, p := none, qn := none, qp := none }) := by
    rintro y x t hy hx ⟨hcells, ht⟩
    have hmul := Nat.mul_le_mul_right sp.size (Nat.succ_le_of_lt hy)
    have hsq := square_lt hb
    rw [Nat.succ_mul] at hmul
    have hsize : t.size = sp.size := by rw [ht]
    have hix : y * t.size + x < 2 ^ 64 := by
      rw [hsize]
      omega
    rw [indexofxy_small hix, hsize]
    refine ⟨fun i hi => ?_, by rw [ht]; rfl⟩
    by_cases he : i = y * sp.size + x
    · subst he
      simp only [Shortpath.upd, Function.update_self, fresh, row_mk hx, col_mk hx]
      rw [toInt_small (by omega), toInt_small (by omega)]
    · simp only [Shortpath.upd, Function.update_of_ne he]
      exact hcells i (by omega)
  have hrow : ∀ y t, y < sp.size → Init (y * sp.size) t →
      Init ((y + 1) * sp.size) (forRange 0 t.size (fun x sp =>
        sp.upd (indexofxy x y sp.size) fun _ =>
          { x := toInt x, y := toInt y, c := -1, p := none, qn := none, qp := none }) t) := by
    intro y t hy ht
    have hsize : t.size = sp.size := by rw [ht.2]
    have := forRange_inv (fun x t => Init (y * sp.size + x) t) (a := 0) (n := t.size) ht
      fun x t _ hx ht => hstep y x t hy (by omega) ht
    rw [Nat.succ_mul]
    simpa [hsize] using this
  have hall := forRange_inv (fun y t => Init (y * sp.size) t) (a := 0) (n := sp.size) (s := sp)
    (f := fun y sp => forRange 0 sp.size (fun x sp =>
      sp.upd (indexofxy x y sp.size) fun _ =>
        { x := toInt x, y := toInt y, c := -1, p := none, qn := none, qp := none }) sp)
    (by simp [Init]) fun y t _ hy ht => hrow y t (by omega) ht
  obtain ⟨hcells, hsp⟩ := hall
  rw [Nat.zero_add] at hcells
  refine ⟨hcells, ?_⟩
  unfold searchInit
  rw [hsp]

/-- How the cost of a cell is kept in `c`. -/
def costOf : Option Nat → Int
  | none => -1
  | some d => d

/-- The cells stand for the search `s`. -/
structure Refines (sp₀ sp : Shortpath) (s : Bfs.Frontier Nat) : Prop
    extends Placed sp₀ s.par sp where
  queue : Queue sp s.queue
  cost : ∀ i, i < sp₀.size * sp₀.size → (sp.cells i).c = costOf (s.cost i)

theorem Refines.inside (h : Refines sp₀ sp s) (hi : i ∈ s.queue) : i < sp₀.size * sp₀.size := by
  rw [← h.size]
  exact h.queue.inside i hi

theorem Refines.popped (h : Refines sp₀ sp s) (hr : Requeued sp sp') (hq : Queue sp' q) :
    Refines sp₀ sp' { s with queue := q } := by
  refine ⟨h.toPlaced.requeued hr, hq, fun i hi => ?_⟩
  rw [(hr.cell i).2.2.1]
  exact h.cost i hi

theorem orderedInsert_congr {r r' : Nat → Nat → Prop} [DecidableRel r] [DecidableRel r']
    {a : Nat} {l : List Nat} (h : ∀ b ∈ l, r a b ↔ r' a b) :
    l.orderedInsert r a = l.orderedInsert r' a := by
  induction l with
  | nil => rfl
  | cons b l ih =>
    simp only [List.orderedInsert_cons, h b (by simp)]
    rw [ih fun c hc => h c (List.mem_cons_of_mem _ hc)]

/-- `costcmp` compares as the search does: by cost, then by row and column. -/
theorem before_iff (hp : Placed sp₀ par sp) (hs : 0 < sp₀.size) (hne : a ≠ b)
    (ha : a < sp₀.size * sp₀.size) (hb : b < sp₀.size * sp₀.size)
    (hca : (sp.cells a).c = costOf (cost a)) (hcb : (sp.cells b).c = costOf (cost b))
    (hka : (cost a).isSome) (hkb : (cost b).isSome) :
    Before sp a b ↔ Bfs.Le cost a b := by
  obtain ⟨d, hd⟩ := Option.isSome_iff_exists.mp hka
  obtain ⟨e, he⟩ := Option.isSome_iff_exists.mp hkb
  obtain ⟨hxa, hya, -⟩ := hp.cells a ha
  obtain ⟨hxb, hyb, -⟩ := hp.cells b hb
  have hlex := lexLe_iff hs a b
  have hne' : ¬ (row sp₀.size a = row sp₀.size b ∧ col sp₀.size a = col sp₀.size b) :=
    fun h => hne (cell_ext _ h.1 h.2)
  unfold LexLe at hlex
  simp only [Before, costcmp, Bfs.Le, Bfs.rank, hca, hcb, hd, he, costOf, hxa, hya, hxb, hyb,
    Option.getD_some, ← hlex]
  split
  · omega
  · split <;> omega

section Run
variable {sp₀ sp : Shortpath} {s : Bfs.Frontier Nat}

/-- Off the border the sums that `getneigh` makes do not wrap. -/
theorem Walled.indexofxy_step (h : Walled sp₀) (hu : Open sp₀ u) :
    indexofxy (col sp₀.size u) (incr (row sp₀.size u)) sp₀.size = step sp₀.size u 0 ∧
      indexofxy (col sp₀.size u) (decr (row sp₀.size u)) sp₀.size = step sp₀.size u 1 ∧
      indexofxy (incr (col sp₀.size u)) (row sp₀.size u) sp₀.size = step sp₀.size u 2 ∧
      indexofxy (decr (col sp₀.size u)) (row sp₀.size u) sp₀.size = step sp₀.size u 3 := by
  obtain ⟨hr0, hr1, hc0, hc1⟩ := h.inside hu
  have hlt := h.bound
  have hb := square_lt h.bound
  have hmul : (row sp₀.size u + 1 + 1) * sp₀.size ≤ sp₀.size * sp₀.size :=
    Nat.mul_le_mul_right _ hr1
  have he := cell_eq sp₀.size u
  have hsucc := Nat.succ_mul (row sp₀.size u) sp₀.size
  have hsucc' := Nat.succ_mul (row sp₀.size u + 1) sp₀.size
  have hpred := Nat.succ_mul (row sp₀.size u - 1) sp₀.size
  simp only [Nat.succ_eq_add_one, Nat.sub_add_cancel hr0] at hsucc hsucc' hpred
  refine ⟨?_, ?_, ?_, ?_⟩
  · rw [incr_small (by omega), indexofxy_small (by omega), step]
    omega
  · rw [decr_pos (by omega) (by omega), indexofxy_small (by omega), step]
    omega
  · rw [incr_small (by omega), indexofxy_small (by omega), step]
    omega
  · rw [decr_pos (by omega) (by omega), indexofxy_small (by omega)]
    change _ = u - 1
    omega

/-- The coordinates of a cell, as `getneigh` takes them. -/
theorem Placed.toSize (hg : Walled sp₀) (hp : Placed sp₀ par sp) (hu : Open sp₀ u) :
    toSize (sp.cells u).x = col sp₀.size u ∧ toSize (sp.cells u).y = row sp₀.size u := by
  obtain ⟨hr0, hr1, hc0, hc1⟩ := hg.inside hu
  obtain ⟨hx, hy, -⟩ := hp.cells u hu.1
  have hlt := hg.bound
  rw [hx, hy, toSize_natCast (by omega), toSize_natCast (by omega)]
  exact ⟨rfl, rfl⟩

/-- What `getneigh` finds is open, and it misses no open cell. -/
theorem getneigh_spec (h : Walled sp₀) (hp : Placed sp₀ par sp) (hu : Open sp₀ u)
    (hdir : dir < ndirs) :
    getneigh sp (sp.cells u) dir = some (if sp₀.grid (step sp₀.size u dir) ≠ wall then
      some (step sp₀.size u dir) else none) := by
  obtain ⟨hx, hy⟩ := hp.toSize h hu
  obtain ⟨hdown, hup, hright, hleft⟩ := h.indexofxy_step hu
  unfold getneigh
  rw [hx, hy, hp.size, hp.grid]
  match dir, hdir with
  | 0, _ =>
    simp only [hdown]
    split <;> rfl
  | 1, _ =>
    simp only [hup]
    split <;> rfl
  | 2, _ =>
    simp only [hright]
    split <;> rfl
  | 3, _ =>
    simp only [hleft]
    split <;> rfl

theorem queue_length (h : Refines sp₀ sp s) : s.queue.length ≤ sp₀.size * sp₀.size :=
  h.size ▸ h.queue.length_le

/-- Discovering a cell: its cost is set, it is queued, and its parent is set. -/
theorem Refines.discover (hg : Walled sp₀) (h : Refines sp₀ sp s)
    (hv : Bfs.Visiting (graph sp₀) sp₀.src u pend s) (hu : u < sp₀.size * sp₀.size)
    (hn : n < sp₀.size * sp₀.size) (hc : s.cost n = none)
    (hf : sp₀.size * sp₀.size < fuel) :
    ∃ sp', (do
        let sp := sp.upd n fun c => { c with c := (sp.cells u).c + 1 }
        let sp ← qdel fuel sp n
        let sp ← qadd fuel sp n
        pure (sp.upd n fun c => { c with p := some u }) : Option Shortpath) = some sp' ∧
      Refines sp₀ sp' (Bfs.discover s u n) := by
  obtain ⟨d, hd⟩ := Option.isSome_iff_exists.mp hv.popped.1
  have hs := hg.size_pos
  have hnq : n ∉ s.queue := fun hm => by
    have := hv.queued n hm
    simp [hc] at this
  have hcu : (sp.cells u).c = d := by rw [h.cost u hu, hd, costOf]
  -- the cell gets its cost
  let sp₁ := sp.upd n fun c => { c with c := (sp.cells u).c + 1 }
  have hq₁ : Queue sp₁ s.queue := h.queue.upd fun _ => ⟨rfl, rfl⟩
  have hp₁ : Placed sp₀ s.par sp₁ := h.toPlaced.upd fun _ => ⟨rfl, rfl, rfl⟩
  have hin : n < sp₁.size * sp₁.size := by
    rw [hp₁.size]
    exact hn
  have hcost₁ : ∀ i, i < sp₀.size * sp₀.size →
      (sp₁.cells i).c = costOf ((Bfs.discover s u n).cost i) := by
    intro i hi
    rw [Bfs.discover_cost, Bfs.rank, hd]
    by_cases hin : i = n
    · subst hin
      simp [sp₁, Shortpath.upd, hcu, costOf]
    · simp only [sp₁, Shortpath.upd, Function.update_of_ne hin, h.cost i hi]
  -- it is not queued yet, and goes to its place
  have hdel : qdel fuel sp₁ n = some sp₁ := qdel_free hq₁ hnq hin fuel
  obtain ⟨sp₂, hadd, hr, hq₂⟩ := qadd_spec hq₁ hnq hin
    (Nat.lt_of_le_of_lt (queue_length h) hf)
  have hp₂ := hp₁.requeued hr
  refine ⟨sp₂.upd n fun c => { c with p := some u }, ?_, ?_⟩
  · change (qdel fuel sp₁ n).bind _ = _
    rw [hdel, Option.bind_some]
    change (qadd fuel sp₁ n).bind _ = _
    rw [hadd]
    rfl
  · refine ⟨⟨hp₂.size, hp₂.grid, hp₂.src, hp₂.dst, ?_⟩, ?_, ?_⟩
    · intro i hi
      have hcell := hp₂.cells i hi
      by_cases hin : i = n
      · subst hin
        simpa [Shortpath.upd, Bfs.discover] using ⟨hcell.1, hcell.2.1⟩
      · simpa [Shortpath.upd, Bfs.discover, hin] using hcell
    · have hsame : s.queue.orderedInsert (Before sp₁) n = (Bfs.discover s u n).queue := by
        refine orderedInsert_congr fun b hb => ?_
        have hb' := h.inside hb
        refine before_iff hp₁ hs (fun he => hnq (he ▸ hb)) hn hb' (hcost₁ n hn) (hcost₁ b hb') ?_ ?_
        · simp
        · have hbn : b ≠ n := fun he => hnq (he ▸ hb)
          rw [Function.update_of_ne hbn]
          exact hv.queued b hb
      rw [← hsame]
      exact hq₂.upd fun _ => ⟨rfl, rfl⟩
    · intro i hi
      rw [← hcost₁ i hi, ← (hr.cell i).2.2.1]
      by_cases hin : i = n <;> simp [Shortpath.upd, hin]

/-- What is there in a direction: a wall, a cell that was never reached, or one that costs no
more than by way of `u`. -/
theorem relax_cases (hg : Walled sp₀) (h : Refines sp₀ sp s)
    (hv : Bfs.Visiting (graph sp₀) sp₀.src u pend s) (hu : Open sp₀ u) (hdir : dir < ndirs) :
    getneigh sp (sp.cells u) dir = some none ∧ ¬ (graph sp₀).Adj u (step sp₀.size u dir) ∨
      getneigh sp (sp.cells u) dir = some (some (step sp₀.size u dir)) ∧
        ((graph sp₀).Adj u (step sp₀.size u dir) ∧ s.cost (step sp₀.size u dir) = none ∧
            0 > (sp.cells (step sp₀.size u dir)).c ∨
          (s.cost (step sp₀.size u dir)).isSome ∧ 0 ≤ (sp.cells (step sp₀.size u dir)).c ∧
            ¬ (sp.cells u).c + 1 < (sp.cells (step sp₀.size u dir)).c) := by
  have hn := hg.step_lt hu hdir
  rw [getneigh_spec hg h.toPlaced hu hdir]
  by_cases hopen : sp₀.grid (step sp₀.size u dir) ≠ wall
  · have hadj : (graph sp₀).Adj u (step sp₀.size u dir) :=
      (hg.adj_iff hu _).mpr ⟨⟨hn, hopen⟩, dir, hdir, rfl⟩
    rw [if_pos hopen]
    refine Or.inr ⟨rfl, ?_⟩
    obtain ⟨d, hd⟩ := Option.isSome_iff_exists.mp hv.popped.1
    have hcu : (sp.cells u).c = d := by rw [h.cost u hu.1, hd, costOf]
    rw [h.cost _ hn, hcu]
    cases hc : s.cost (step sp₀.size u dir) with
    | none => exact Or.inl ⟨hadj, rfl, by decide⟩
    | some e =>
      have hle : e ≤ d + 1 := by
        have := Bfs.dist_adj_le (hv.found u d hd).1 hadj
        rwa [(hv.found u d hd).2, (hv.found _ e hc).2] at this
      rw [costOf]
      exact Or.inr ⟨rfl, by omega, by omega⟩
  · rw [if_neg hopen]
    exact Or.inl ⟨rfl, fun ha => hopen ha.2.1.2⟩

/-- One direction: the neighbour there is no longer pending. -/
theorem relax_spec (hg : Walled sp₀) (h : Refines sp₀ sp s)
    (hv : Bfs.Visiting (graph sp₀) sp₀.src u pend s) (hu : Open sp₀ u) (hdir : dir < ndirs)
    (hf : sp₀.size * sp₀.size < fuel) :
    ∃ sp' s', relax fuel u sp dir = some sp' ∧ Refines sp₀ sp' s' ∧
      Bfs.Visiting (graph sp₀) sp₀.src u (fun w => pend w ∧ w ≠ step sp₀.size u dir) s' ∧
      ∀ w, s'.Popped w ↔ s.Popped w := by
  unfold relax
  rcases relax_cases hg h hv hu hdir with ⟨hnei, hno⟩ | ⟨hnei, ⟨hadj, hc, hneg⟩ | ⟨hc, hpos, hle⟩⟩
  · rw [hnei]
    exact ⟨sp, s, rfl, h, hv.blocked hno, fun _ => Iff.rfl⟩
  · obtain ⟨sp', hrun, hr⟩ := h.discover hg hv hu.1 (hg.step_lt hu hdir) hc hf
    refine ⟨sp', _, ?_, hr, hv.discover hadj hc, fun w => Bfs.discover_popped hc w⟩
    rw [hnei]
    simpa [hneg] using hrun
  · have hno : ¬ (0 > (sp.cells (step sp₀.size u dir)).c ∨
        (sp.cells u).c + 1 < (sp.cells (step sp₀.size u dir)).c) := by omega
    refine ⟨sp, s, ?_, h, hv.skip hc, fun _ => Iff.rfl⟩
    rw [hnei]
    simp [hno]

theorem relax_all (hg : Walled sp₀) (h : Refines sp₀ sp s)
    (hv : Bfs.Visiting (graph sp₀) sp₀.src u pend s) (hu : Open sp₀ u)
    (hf : sp₀.size * sp₀.size < fuel) (dirs : List Nat) (hdirs : ∀ dir ∈ dirs, dir < ndirs) :
    ∃ sp' s', dirs.foldlM (relax fuel u) sp = some sp' ∧ Refines sp₀ sp' s' ∧
      Bfs.Visiting (graph sp₀) sp₀.src u
        (fun w => pend w ∧ ∀ dir ∈ dirs, w ≠ step sp₀.size u dir) s' ∧
      ∀ w, s'.Popped w ↔ s.Popped w := by
  induction dirs generalizing sp s pend with
  | nil => exact ⟨sp, s, rfl, h, by simpa using hv, fun _ => Iff.rfl⟩
  | cons dir dirs ih =>
    obtain ⟨sp₁, s₁, hrun, hr, hv₁, hpop⟩ := relax_spec hg h hv hu (hdirs dir (by simp)) hf
    obtain ⟨sp₂, s₂, hruns, hr₂, hv₂, hpop₂⟩ := ih hr hv₁ fun d hd => hdirs d (by simp [hd])
    refine ⟨sp₂, s₂, ?_, hr₂, ?_, fun w => (hpop₂ w).trans (hpop w)⟩
    · rw [List.foldlM_cons, hrun]
      exact hruns
    · simpa [and_assoc] using hv₂

theorem reachable_open (hu : Open sp₀ u) (hr : (graph sp₀).Reachable u v) : Open sp₀ v := by
  obtain ⟨w⟩ := hr
  induction w with
  | nil => exact hu
  | cons ha _ ih => exact ih ha.2.1

/-- The main loop leaves with `dst` popped, or with an empty queue when `dst`
cannot be reached. -/
def Finished (sp₀ : Shortpath) (r : Option Nat × Shortpath) : Prop :=
  ∃ s pend, Refines sp₀ r.2 s ∧ Bfs.Inv (graph sp₀) sp₀.src pend s ∧
    (r.1 = none ∧ ¬ (graph sp₀).Reachable sp₀.src sp₀.dst ∨
      r.1 = some sp₀.dst ∧ (s.cost sp₀.dst).isSome)

/-- Between two passes `gone` lists the cells popped so far, and `n` more can
still be. -/
structure Searching (sp₀ : Shortpath) (n : Nat) (sp : Shortpath) (s : Bfs.Frontier Nat)
    (gone : List Nat) : Prop where
  refines : Refines sp₀ sp s
  inv : Bfs.Inv (graph sp₀) sp₀.src (fun _ _ => False) s
  dst : ¬ s.Popped sp₀.dst
  nodup : gone.Nodup
  popped : ∀ i ∈ gone, i < sp₀.size * sp₀.size ∧ s.Popped i
  count : n + gone.length = sp₀.size * sp₀.size

theorem searchBody_spec (hg : Walled sp₀) (hf : sp₀.size * sp₀.size < fuel)
    (h : Searching sp₀ n sp s gone) :
    (∃ sp' s' gone' m, searchBody fuel sp = some (.inl sp') ∧ m < n ∧
      Searching sp₀ m sp' s' gone') ∨
      ∃ r, searchBody fuel sp = some (.inr r) ∧ Finished sp₀ r := by
  obtain ⟨href, hinv, hdst, hnd, hpop, hcount⟩ := h
  obtain ⟨q, cost, par⟩ := s
  cases q with
  | nil =>
    refine Or.inr ⟨(none, sp), by rw [searchBody, qpop_nil href.queue],
      _, _, href, hinv, Or.inl ⟨rfl, fun hr => hdst (hinv.exhausted rfl hr)⟩⟩
  | cons cur q =>
    obtain ⟨sp₁, hqpop, hr, hq₁⟩ := qpop_cons href.queue
    have hvisit := hinv.pop
    have hcur := href.inside (i := cur) (by simp)
    have href₁ : Refines sp₀ sp₁ ⟨q, cost, par⟩ := href.popped hr hq₁
    by_cases hd : cur = sp₁.dst
    · rw [href₁.dst] at hd
      subst hd
      refine Or.inr ⟨(some sp₀.dst, sp₁), by rw [searchBody, hqpop]; simp [href₁.dst], ?_⟩
      exact ⟨_, _, href₁, hvisit.toInv, Or.inr ⟨rfl, hvisit.popped.1⟩⟩
    · have hopen : Open sp₀ cur := reachable_open hg.src (hvisit.reachable hvisit.popped.1)
      obtain ⟨sp₂, s₂, hrun, href₂, hvisit₂, hpop₂⟩ := relax_all hg href₁ hvisit hopen hf
        (List.range ndirs) fun _ => List.mem_range.mp
      have hinv₂ := hvisit₂.finish fun v ha hp => by
        obtain ⟨-, dir, hdir, he⟩ := (hg.adj_iff hopen v).mp ha
        exact hp.2 dir (List.mem_range.mpr hdir) he
      have hfresh : cur ∉ gone := fun hm => (hpop cur hm).2.2 List.mem_cons_self
      have hgone : ∀ i ∈ cur :: gone, i < sp₀.size * sp₀.size ∧ s₂.Popped i := by
        intro i hi
        rw [hpop₂]
        rcases List.mem_cons.mp hi with rfl | hi
        · exact ⟨hcur, hvisit.popped⟩
        · obtain ⟨hlt, hp, hn⟩ := hpop i hi
          exact ⟨hlt, hp, fun hm => hn (List.mem_cons_of_mem _ hm)⟩
      have hle : (cur :: gone).length ≤ sp₀.size * sp₀.size :=
        length_le_of_nodup (List.nodup_cons.mpr ⟨hfresh, hnd⟩) fun i hi => (hgone i hi).1
      rw [List.length_cons] at hle
      refine Or.inl ⟨sp₂, s₂, cur :: gone, n - 1, ?_, by omega, href₂, hinv₂, ?_,
        List.nodup_cons.mpr ⟨hfresh, hnd⟩, hgone, by rw [List.length_cons]; omega⟩
      · rw [searchBody, hqpop]
        simp only [if_neg hd, hrun]
        rfl
      · rw [hpop₂]
        rintro ⟨hp, hn⟩
        rw [href₁.dst] at hd
        exact hdst ⟨hp, by simpa [Ne.symm hd] using hn⟩

theorem Searching.start (hg : Walled sp₀) (h : Refines sp₀ sp (Bfs.start sp₀.src)) :
    Searching sp₀ (sp₀.size * sp₀.size) sp (Bfs.start sp₀.src) [] := by
  refine ⟨h, Bfs.start_inv _ _, ?_, .nil, by simp, by simp⟩
  rintro ⟨hs, -⟩
  simp [Bfs.start, Function.update_of_ne hg.distinct.symm] at hs

/-- The main loop, from the source alone in the queue. -/
theorem searchBody_run (hg : Walled sp₀) (h : Refines sp₀ sp (Bfs.start sp₀.src))
    (hf : sp₀.size * sp₀.size < fuel) :
    ∃ r, run (searchBody fuel) fuel sp = some r ∧ Finished sp₀ r := by
  refine run_total (fun n sp => ∃ s gone, Searching sp₀ n sp s gone) (Finished sp₀) ?_
    ⟨_, _, .start hg h⟩ hf
  rintro n sp ⟨s, gone, hs⟩
  rcases searchBody_spec hg hf hs with ⟨sp', s', gone', m, hb, hm, hs'⟩ | hleave
  · exact Or.inl ⟨sp', m, hb, hm, s', gone', hs'⟩
  · exact Or.inr hleave

/-- `search_init` and the queuing of the source. -/
theorem search_start (hg : Walled sp₀) (fuel : Nat) (hf : 0 < fuel) :
    ∃ sp, (let sp := (searchInit sp₀).upd (searchInit sp₀).src fun c => { c with c := 0 }
        qadd fuel sp sp.src) = some sp ∧ Refines sp₀ sp (Bfs.start sp₀.src) := by
  obtain ⟨hcells, hinit⟩ := searchInit_spec hg.bound
  generalize hsp : searchInit sp₀ = sp at *
  have hplaced : Placed sp₀ (fun _ => none) sp := by
    rw [hinit]
    refine ⟨rfl, rfl, rfl, rfl, fun i hi => ?_⟩
    simp only [hcells i hi, fresh, and_self]
  have hsrc := hplaced.src
  rw [hsrc]
  have hplaced₁ := hplaced.upd (i := sp₀.src) (f := fun c => { c with c := 0 })
    fun _ => ⟨rfl, rfl, rfl⟩
  have hq : Queue (sp.upd sp₀.src fun c => { c with c := 0 }) [] := by
    refine ⟨by rw [hinit]; rfl, trivial, .nil, by simp, fun i hi _ => ?_⟩
    rw [hplaced₁.size] at hi
    by_cases his : i = sp₀.src
    · subst his
      simp [Shortpath.upd, hcells _ hi, fresh]
    · simp [Shortpath.upd, his, hcells i hi, fresh]
  obtain ⟨sp', hadd, hr, hq'⟩ := qadd_spec hq (by simp)
    (by rw [hplaced₁.size]; exact hg.src.1) hf
  refine ⟨sp', ?_, hplaced₁.requeued hr, hq', fun i hi => ?_⟩
  · simp only [hplaced₁.src, hadd]
  rw [(hr.cell i).2.2.1]
  by_cases his : i = sp₀.src
  · subst his
    simp [Shortpath.upd, Bfs.start, costOf]
  · simp [Shortpath.upd, Bfs.start, costOf, his, hcells i hi, fresh]

end Run

end Oin17.Chals
