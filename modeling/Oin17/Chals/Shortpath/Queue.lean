import Mathlib.Data.List.Perm.Subperm
import Mathlib.Data.List.Sort
import Oin17.Chals.Shortpath.Model
import Oin17.Lib.Links

namespace Oin17.Chals
open Loop Links

/-- What the queue operations leave alone in a cell. -/
def Cell.data (c : Cell) : Int × Int × Int × Option Nat := (c.x, c.y, c.c, c.p)

/-- Only the queue changed. -/
structure Requeued (sp sp' : Shortpath) : Prop where
  max : sp'.max = sp.max
  size : sp'.size = sp.size
  grid : sp'.grid = sp.grid
  sol : sp'.sol = sp.sol
  src : sp'.src = sp.src
  dst : sp'.dst = sp.dst
  data : ∀ i, (sp'.cells i).data = (sp.cells i).data

theorem Requeued.trans (h : Requeued a b) (h' : Requeued b c) : Requeued a c :=
  ⟨h'.max.trans h.max, h'.size.trans h.size, h'.grid.trans h.grid, h'.sol.trans h.sol,
    h'.src.trans h.src, h'.dst.trans h.dst, fun i => (h'.data i).trans (h.data i)⟩

theorem Requeued.refl (sp : Shortpath) : Requeued sp sp :=
  ⟨rfl, rfl, rfl, rfl, rfl, rfl, fun _ => rfl⟩

theorem Requeued.upd (h : Requeued a b) (hf : ∀ c, (f c).data = c.data) :
    Requeued a (b.upd i f) := by
  refine ⟨h.max, h.size, h.grid, h.sol, h.src, h.dst, fun j => ?_⟩
  by_cases hj : j = i
  · subst hj
    simp only [Shortpath.upd, Function.update_self, hf, h.data]
  · simp only [Shortpath.upd, Function.update_of_ne hj, h.data]

theorem Requeued.setq (h : Requeued a b) : Requeued a { b with q := q } :=
  ⟨h.max, h.size, h.grid, h.sol, h.src, h.dst, h.data⟩

/-- Queuing before `b` the cell `a`, for `costcmp`. -/
def Before (sp : Shortpath) (a b : Nat) : Prop := 0 < costcmp (sp.cells b) (sp.cells a)

instance (sp : Shortpath) (a b : Nat) : Decidable (Before sp a b) := by
  unfold Before
  infer_instance

/-- The queue holds the cells `l`, in this order, and no other cell is linked. -/
structure Queue (sp : Shortpath) (l : List Nat) : Prop where
  head : sp.q = l.head?
  links : Seg (fun i => (sp.cells i).qn) (fun i => (sp.cells i).qp) none l none
  nodup : l.Nodup
  inside : ∀ i ∈ l, i < sp.size * sp.size
  free : ∀ i, i < sp.size * sp.size → i ∉ l → (sp.cells i).qn = none ∧ (sp.cells i).qp = none

/-- The same, where the cells of `d` may have kept a next one from the time they were queued. -/
structure Linked (d : Set Nat) (sp : Shortpath) (l : List Nat) : Prop where
  head : sp.q = l.head?
  links : Seg (fun i => (sp.cells i).qn) (fun i => (sp.cells i).qp) none l none
  nodup : l.Nodup
  inside : ∀ i ∈ l, i < sp.size * sp.size
  free : ∀ i, i < sp.size * sp.size → i ∉ l →
    (i ∉ d → (sp.cells i).qn = none) ∧ (sp.cells i).qp = none

theorem queue_iff : Queue sp l ↔ Linked ∅ sp l := by
  constructor
  · intro h
    exact ⟨h.head, h.links, h.nodup, h.inside, fun i hi hl =>
      ⟨fun _ => (h.free i hi hl).1, (h.free i hi hl).2⟩⟩
  · intro h
    exact ⟨h.head, h.links, h.nodup, h.inside, fun i hi hl =>
      ⟨(h.free i hi hl).1 (Set.notMem_empty i), (h.free i hi hl).2⟩⟩

theorem length_le_of_nodup {l : List Nat} (hn : l.Nodup) (hl : ∀ i ∈ l, i < n) : l.length ≤ n := by
  have := (List.Nodup.subperm hn fun i hi => List.mem_range.mpr (hl i hi)).length_le
  rwa [List.length_range] at this

theorem Linked.length_le (h : Linked d sp l) : l.length ≤ sp.size * sp.size :=
  length_le_of_nodup h.nodup h.inside

theorem Linked.next (h : Linked d sp (l ++ i :: m)) : (sp.cells i).qn = m.head? := by
  have := ((seg_append l (i :: m)).mp h.links).2.2.1
  rwa [Option.or_none] at this

theorem Linked.prev (h : Linked d sp (l ++ i :: m)) : (sp.cells i).qp = l.getLast? := by
  have := ((seg_append l (i :: m)).mp h.links).2.1
  rwa [Option.or_none] at this

theorem Linked.mono (h : Linked d sp l) (hd : d ⊆ d') : Linked d' sp l :=
  ⟨h.head, h.links, h.nodup, h.inside, fun i hi hl =>
    ⟨fun hn => (h.free i hi hl).1 fun he => hn (hd he), (h.free i hi hl).2⟩⟩

theorem Linked.congr (h : Linked d sp l) (hq : sp'.q = sp.q) (hs : sp'.size = sp.size)
    (hn : ∀ i, (sp'.cells i).qn = (sp.cells i).qn) (hp : ∀ i, (sp'.cells i).qp = (sp.cells i).qp) :
    Linked d sp' l := by
  refine ⟨hq.trans h.head, ?_, h.nodup, by rw [hs]; exact h.inside, ?_⟩
  · simpa only [hn, hp] using h.links
  · simpa only [hn, hp, hs] using h.free

/-- A change of a cell that is not one of its links. -/
theorem Linked.upd (h : Linked d sp l) (hf : ∀ c, (f c).qn = c.qn ∧ (f c).qp = c.qp) :
    Linked d (sp.upd i f) l := by
  refine h.congr rfl rfl ?_ ?_
  · intro j
    by_cases hj : j = i
    · subst hj
      simp [Shortpath.upd, hf]
    · simp [Shortpath.upd, hj]
  · intro j
    by_cases hj : j = i
    · subst hj
      simp [Shortpath.upd, hf]
    · simp [Shortpath.upd, hj]

theorem Queue.length_le (h : Queue sp l) : l.length ≤ sp.size * sp.size :=
  (queue_iff.mp h).length_le

theorem Queue.congr (h : Queue sp l) (hq : sp'.q = sp.q) (hs : sp'.size = sp.size)
    (hn : ∀ i, (sp'.cells i).qn = (sp.cells i).qn) (hp : ∀ i, (sp'.cells i).qp = (sp.cells i).qp) :
    Queue sp' l :=
  queue_iff.mpr ((queue_iff.mp h).congr hq hs hn hp)

theorem Queue.upd (h : Queue sp l) (hf : ∀ c, (f c).qn = c.qn ∧ (f c).qp = c.qp) :
    Queue (sp.upd i f) l :=
  queue_iff.mpr ((queue_iff.mp h).upd hf)

/-- Linking `cl` between two stretches of the queue. -/
theorem Linked.insert (h : Linked d sp (l ++ m)) (hcl : cl ∉ l ++ m) (hin : cl < sp.size * sp.size)
    (hs : sp'.size = sp.size) (hq : sp'.q = (l ++ cl :: m).head?)
    (hc : (sp'.cells cl).qp = l.getLast? ∧ (sp'.cells cl).qn = m.head?)
    (hl : ∀ i, i ≠ cl → (sp'.cells i).qn = if l.getLast? = some i then some cl else (sp.cells i).qn)
    (hm : ∀ i, i ≠ cl → (sp'.cells i).qp = if m.head? = some i then some cl else (sp.cells i).qp) :
    Linked d sp' (l ++ cl :: m) := by
  refine ⟨hq, h.links.insert h.nodup hcl hc.1 hc.2 hl hm, ?_, ?_, ?_⟩
  · exact (List.perm_middle.nodup_iff).mpr (List.nodup_cons.mpr ⟨hcl, h.nodup⟩)
  · intro i hi
    rw [hs]
    rcases List.mem_cons.mp (List.perm_middle.mem_iff.mp hi) with rfl | hi
    · exact hin
    · exact h.inside i hi
  · intro i hi hn
    have hn : i ≠ cl ∧ i ∉ l ∧ i ∉ m := by
      simp only [List.mem_append, List.mem_cons, not_or] at hn
      exact ⟨hn.2.1, hn.1, hn.2.2⟩
    rw [hs] at hi
    have hfree := h.free i hi (by simp [hn])
    rw [hl i hn.1, hm i hn.1, if_neg fun he => hn.2.1 (List.mem_of_getLast? he),
      if_neg fun he => hn.2.2 (List.mem_of_head? he)]
    exact hfree

theorem Linked.hang (h : Linked d sp (l ++ p :: m)) (hcl : cl ∉ l ++ p :: m)
    (hin : cl < sp.size * sp.size) (hs : sp'.size = sp.size) (hq : sp'.q = sp.q)
    (hc : (sp'.cells cl).qp = some p ∧ (sp'.cells cl).qn = m.head?)
    (hl : ∀ i, i ≠ cl → (sp'.cells i).qn = if p = i then some cl else (sp.cells i).qn)
    (hm : ∀ i, i ≠ cl → (sp'.cells i).qp = if m.head? = some i then some cl else (sp.cells i).qp) :
    Linked d sp' (l ++ p :: cl :: m) := by
  rw [List.append_cons] at h hcl ⊢
  refine h.insert hcl hin hs ?_ ?_ ?_ hm
  · rw [hq, h.head]
    cases l <;> rfl
  · simpa using hc
  · simpa using hl

/-- Taking `cl` out from between two stretches of the queue. -/
theorem Linked.remove (h : Linked d sp (l ++ cl :: m)) (hd : d ⊆ d') (hs : sp'.size = sp.size)
    (hq : sp'.q = (l ++ m).head?)
    (hc : (cl ∉ d' → (sp'.cells cl).qn = none) ∧ (sp'.cells cl).qp = none)
    (hl : ∀ i, i ≠ cl → (sp'.cells i).qn = if l.getLast? = some i then m.head? else (sp.cells i).qn)
    (hm : ∀ i, i ≠ cl →
      (sp'.cells i).qp = if m.head? = some i then l.getLast? else (sp.cells i).qp) :
    Linked d' sp' (l ++ m) := by
  obtain ⟨hcl, hnd⟩ := List.nodup_cons.mp (List.perm_middle.nodup_iff.mp h.nodup)
  refine ⟨hq, h.links.remove hnd hcl hl hm, hnd, ?_, ?_⟩
  · intro i hi
    rw [hs]
    exact h.inside i (List.perm_middle.mem_iff.mpr (List.mem_cons_of_mem _ hi))
  · intro i hi hn
    by_cases hic : i = cl
    · rw [hic]
      exact hc
    · have hn' : i ∉ l ∧ i ∉ m := by simpa using hn
      rw [hs] at hi
      obtain ⟨hnext, hprev⟩ := h.free i hi (by simp [hn', hic])
      rw [hl i hic, hm i hic, if_neg fun he => hn'.1 (List.mem_of_getLast? he),
        if_neg fun he => hn'.2 (List.mem_of_head? he)]
      exact ⟨fun hd' => hnext fun he => hd' (hd he), hprev⟩

theorem Linked.unhang (h : Linked d sp (l ++ p :: cl :: m)) (hs : sp'.size = sp.size)
    (hq : sp'.q = sp.q) (hc : (sp'.cells cl).qn = none ∧ (sp'.cells cl).qp = none)
    (hl : ∀ i, i ≠ cl → (sp'.cells i).qn = if p = i then m.head? else (sp.cells i).qn)
    (hm : ∀ i, i ≠ cl → (sp'.cells i).qp = if m.head? = some i then some p else (sp.cells i).qp) :
    Linked d sp' (l ++ p :: m) := by
  rw [List.append_cons] at h ⊢
  refine h.remove subset_rfl hs ?_ ⟨fun _ => hc.1, hc.2⟩ ?_ ?_
  · rw [hq, h.head]
    cases l <;> rfl
  · simpa using hl
  · simpa using hm

/-- The scan leaves at the tail, or in front of the first cell that costs more. -/
theorem qaddBody_leave (h : Linked d sp (l ++ p :: m)) (hcl : cl ∉ l ++ p :: m)
    (hin : cl < sp.size * sp.size) (hm : ∀ n ∈ m.head?, Before sp cl n) :
    ∃ sp', qaddBody sp cl p = some (.inr sp') ∧ Requeued sp sp' ∧
      Linked d sp' (l ++ p :: cl :: m) := by
  have hnext := h.next
  have hp : p ≠ cl := by
    rintro rfl
    simp at hcl
  cases m with
  | nil =>
    refine ⟨_, by rw [qaddBody, hnext]; rfl, ?_, ?_⟩
    · exact ((Requeued.refl sp).upd (fun _ => by rfl)).upd (fun _ => by rfl)
    · refine h.hang hcl hin rfl rfl ?_ ?_ ?_
      · simp [Shortpath.upd]
      · intro i hi
        by_cases hip : p = i
        · simp [Shortpath.upd, hi, hip]
        · simp [Shortpath.upd, hi, hip, Ne.symm hip]
      · intro i hi
        by_cases hip : p = i
        · simp [Shortpath.upd, hi, hip]
        · simp [Shortpath.upd, hi, Ne.symm hip]
  | cons n m =>
    have hb : 0 < costcmp (sp.cells n) (sp.cells cl) := hm n rfl
    have hn : n ≠ cl := by
      rintro rfl
      simp at hcl
    have hpn : p ≠ n := by
      rintro rfl
      have := h.nodup
      simp [List.nodup_append] at this
    refine ⟨_, by simp only [qaddBody, hnext, List.head?_cons, if_pos hb]; rfl, ?_, ?_⟩
    · exact (((Requeued.refl sp).upd (fun _ => by rfl)).upd (fun _ => by rfl)).upd (fun _ => by rfl)
    · refine h.hang hcl hin rfl rfl ?_ ?_ ?_
      · simp [Shortpath.upd, hp.symm, hn.symm]
      · intro i hi
        by_cases hip : p = i
        · simp [Shortpath.upd, hip]
        · by_cases hin : n = i
          · subst hin
            simp [Shortpath.upd, hn, hip, Ne.symm hip]
          · simp [Shortpath.upd, hi, hip, Ne.symm hip, Ne.symm hin]
      · intro i hi
        by_cases hip : p = i
        · subst hip
          simp [Shortpath.upd, hp, hpn, hpn.symm]
        · by_cases hin : n = i
          · subst hin
            simp [Shortpath.upd, Ne.symm hip]
          · simp [Shortpath.upd, hi, Ne.symm hip, hin, Ne.symm hin]

theorem qaddBody_run (h : Linked d sp (l ++ p :: m)) (hcl : cl ∉ l ++ p :: m)
    (hin : cl < sp.size * sp.size) (hf : m.length < fuel) :
    ∃ sp', run (qaddBody sp cl) fuel p = some sp' ∧ Requeued sp sp' ∧
      Linked d sp' (l ++ p :: m.orderedInsert (Before sp) cl) := by
  induction m generalizing l p fuel with
  | nil =>
    obtain ⟨fuel, rfl⟩ := Nat.exists_eq_succ_of_ne_zero (Nat.ne_zero_of_lt hf)
    obtain ⟨sp', hb, hr, hq⟩ := qaddBody_leave h hcl hin (by simp)
    exact ⟨sp', run_leave hb fuel, hr, hq⟩
  | cons n m ih =>
    obtain ⟨fuel, rfl⟩ := Nat.exists_eq_succ_of_ne_zero (Nat.ne_zero_of_lt hf)
    by_cases hb : Before sp cl n
    · rw [List.orderedInsert_cons_of_le _ _ hb]
      obtain ⟨sp', hb, hr, hq⟩ := qaddBody_leave h hcl hin (by simpa using hb)
      exact ⟨sp', run_leave hb fuel, hr, hq⟩
    · have hpass : qaddBody sp cl p = some (.inl n) := by
        unfold Before at hb
        simp only [qaddBody, h.next, List.head?_cons, if_neg hb]
      rw [List.orderedInsert_of_not_le _ _ hb, run_pass hpass]
      rw [List.append_cons] at h hcl ⊢
      exact ih h hcl (by simpa using hf)

/-- A cell goes in front of the first one that costs more. -/
theorem qadd_linked (h : Linked d sp l) (hcl : cl ∉ l) (hin : cl < sp.size * sp.size)
    (hf : l.length < fuel) :
    ∃ sp', qadd fuel sp cl = some sp' ∧ Requeued sp sp' ∧
      Linked d sp' (l.orderedInsert (Before sp) cl) := by
  cases l with
  | nil =>
    have hq : sp.q = none := h.head
    refine ⟨_, by simp only [qadd, hq]; rfl, ?_, ?_⟩
    · exact (Requeued.refl sp).setq.upd (fun _ => by rfl)
    · refine h.insert (l := []) hcl hin rfl rfl ?_ ?_ ?_ <;> simp +contextual [Shortpath.upd]
  | cons n l =>
    have hq : sp.q = some n := h.head
    by_cases hb : Before sp cl n
    · have hn : n ≠ cl := by
        rintro rfl
        simp at hcl
      have hb' : 0 < costcmp (sp.cells n) (sp.cells cl) := hb
      rw [List.orderedInsert_cons_of_le _ _ hb]
      refine ⟨_, by simp only [qadd, hq, if_pos hb']; rfl, ?_, ?_⟩
      · exact ((Requeued.refl sp).upd (fun _ => by rfl)).setq.upd (fun _ => by rfl)
      · refine h.insert (l := []) hcl hin rfl rfl ?_ ?_ ?_
        · simp [Shortpath.upd, hn.symm]
        · intro i hi
          by_cases hin : n = i
          · simp [Shortpath.upd, hi, hin]
          · simp [Shortpath.upd, hi, Ne.symm hin]
        · intro i hi
          by_cases hin : n = i
          · simp [Shortpath.upd, hin]
          · simp [Shortpath.upd, hi, hin, Ne.symm hin]
    · have hb' : ¬ 0 < costcmp (sp.cells n) (sp.cells cl) := hb
      rw [List.orderedInsert_of_not_le _ _ hb]
      simp only [qadd, hq, if_neg hb']
      exact qaddBody_run (l := []) h hcl hin (by simp at hf; omega)

theorem qadd_spec (h : Queue sp l) (hcl : cl ∉ l) (hin : cl < sp.size * sp.size)
    (hf : l.length < fuel) :
    ∃ sp', qadd fuel sp cl = some sp' ∧ Requeued sp sp' ∧
      Queue sp' (l.orderedInsert (Before sp) cl) := by
  obtain ⟨sp', hadd, hr, hq⟩ := qadd_linked (queue_iff.mp h) hcl hin hf
  exact ⟨sp', hadd, hr, queue_iff.mpr hq⟩

/-- Wherever the cell goes, nothing but the queue changes. -/
theorem qadd_requeued (h : qadd fuel sp cl = some sp') : Requeued sp sp' := by
  unfold qadd at h
  split at h
  · obtain rfl := Option.some.inj h
    exact (Requeued.refl sp).setq.upd (fun _ => by rfl)
  · split at h
    · obtain rfl := Option.some.inj h
      exact ((Requeued.refl sp).upd (fun _ => by rfl)).setq.upd (fun _ => by rfl)
    · refine run_partial (fun _ => True) (Requeued sp) (fun _ _ _ _ => trivial)
        (fun p sp' _ hb => ?_) trivial h
      unfold qaddBody at hb
      split at hb
      · split at hb
        · obtain rfl := Sum.inr.inj (Option.some.inj hb)
          exact (((Requeued.refl sp).upd (fun _ => by rfl)).upd (fun _ => by rfl)).upd
            (fun _ => by rfl)
        · cases hb
      · obtain rfl := Sum.inr.inj (Option.some.inj hb)
        exact ((Requeued.refl sp).upd (fun _ => by rfl)).upd (fun _ => by rfl)

theorem qpop_nil (h : Queue sp []) : qpop sp = (none, sp) := by
  have hq : sp.q = none := h.head
  simp only [qpop, hq]

theorem qpop_linked (h : Linked d sp (n :: l)) :
    ∃ sp', qpop sp = (some n, sp') ∧ Requeued sp sp' ∧ Linked d sp' l := by
  have hq : sp.q = some n := h.head
  have hnext : (sp.cells n).qn = l.head? := Linked.next (l := []) h
  have hprev : (sp.cells n).qp = none := Linked.prev (l := []) h
  cases l with
  | nil =>
    rw [List.head?_nil] at hnext
    refine ⟨_, by simp only [qpop, hq, hnext]; rfl, ?_, ?_⟩
    · exact (Requeued.refl sp).setq.upd (fun _ => by rfl)
    · refine Linked.remove (l := []) h subset_rfl rfl rfl ?_ ?_ ?_
      · simp [Shortpath.upd, hprev]
      · simp +contextual [Shortpath.upd]
      · simp +contextual [Shortpath.upd]
  | cons m l =>
    rw [List.head?_cons] at hnext
    have hmn : m ≠ n := by
      rintro rfl
      simpa using h.nodup
    refine ⟨_, by simp only [qpop, hq, hnext]; rfl, ?_, ?_⟩
    · exact ((Requeued.refl sp).setq.upd (fun _ => by rfl)).upd (fun _ => by rfl)
    · refine Linked.remove (l := []) h subset_rfl rfl rfl ?_ ?_ ?_
      · simp [Shortpath.upd, hmn.symm, hprev]
      · intro i hi
        by_cases him : m = i
        · simp [Shortpath.upd, hi, him]
        · simp [Shortpath.upd, hi, Ne.symm him]
      · intro i hi
        by_cases him : m = i
        · simp [Shortpath.upd, him]
        · simp [Shortpath.upd, hi, him, Ne.symm him]

theorem qpop_cons (h : Queue sp (n :: l)) :
    ∃ sp', qpop sp = (some n, sp') ∧ Requeued sp sp' ∧ Queue sp' l := by
  obtain ⟨sp', hpop, hr, hq⟩ := qpop_linked (queue_iff.mp h)
  exact ⟨sp', hpop, hr, queue_iff.mpr hq⟩

/-- The head has no previous cell either: only membership tells it from a cell that is not
queued. -/
theorem qfind_iff (h : Linked d sp l) (hcl : cl < sp.size * sp.size) :
    qfind sp cl = true ↔ cl ∈ l := by
  rw [qfind, Bool.or_eq_true, beq_iff_eq, h.head]
  constructor
  · rintro (hq | hp)
    · exact List.mem_of_head? hq
    · by_contra hn
      rw [(h.free cl hcl hn).2] at hp
      cases hp
  · intro hm
    obtain ⟨l, m, rfl⟩ := List.append_of_mem hm
    cases l with
    | nil => exact Or.inl rfl
    | cons a l =>
      rw [h.prev, List.getLast?_cons]
      exact Or.inr rfl

theorem qdelBody_leave (h : Linked d sp (l ++ p :: cl :: m)) :
    ∃ sp', qdelBody sp cl p = some (.inr sp') ∧ Requeued sp sp' ∧ Linked d sp' (l ++ p :: m) := by
  have hp : (sp.cells p).qn = some cl := h.next
  have hnext : (sp.cells cl).qn = m.head? := by
    have := h
    rw [List.append_cons] at this
    exact this.next
  have hnd := h.nodup
  cases m with
  | nil =>
    rw [List.head?_nil] at hnext
    refine ⟨_, by simp only [qdelBody, hp, if_pos, hnext]; rfl, ?_, ?_⟩
    · exact ((Requeued.refl sp).upd (fun _ => by rfl)).upd (fun _ => by rfl)
    · refine h.unhang rfl rfl ?_ ?_ ?_
      · simp [Shortpath.upd]
      · intro i hi
        by_cases hip : p = i
        · simp [Shortpath.upd, hi, hip]
        · simp [Shortpath.upd, hi, hip, Ne.symm hip]
      · intro i hi
        by_cases hip : p = i
        · simp [Shortpath.upd, hi, hip]
        · simp [Shortpath.upd, hi, Ne.symm hip]
  | cons n m =>
    have hpn : p ≠ n := by
      rintro rfl
      simp [List.nodup_append] at hnd
    rw [List.head?_cons] at hnext
    refine ⟨_, by simp only [qdelBody, hp, if_pos, hnext]; rfl, ?_, ?_⟩
    · exact (((Requeued.refl sp).upd (fun _ => by rfl)).upd (fun _ => by rfl)).upd (fun _ => by rfl)
    · refine h.unhang rfl rfl ?_ ?_ ?_
      · simp [Shortpath.upd]
      · intro i hi
        by_cases hip : p = i
        · subst hip
          simp [Shortpath.upd, hi, hpn]
        · by_cases hin : n = i
          · subst hin
            simp [Shortpath.upd, hi, hip, Ne.symm hip]
          · simp [Shortpath.upd, hi, hip, Ne.symm hip, Ne.symm hin]
      · intro i hi
        by_cases hin : n = i
        · subst hin
          simp [Shortpath.upd, hi]
        · by_cases hip : p = i
          · subst hip
            simp [Shortpath.upd, hi, hin, Ne.symm hin]
          · simp [Shortpath.upd, hi, Ne.symm hip, hin, Ne.symm hin]

theorem qdelBody_run (h : Linked d sp (l ++ p :: m)) (hcl : cl ∈ m) (hf : m.length ≤ fuel) :
    ∃ sp', run (qdelBody sp cl) fuel p = some sp' ∧ Requeued sp sp' ∧
      Linked d sp' (l ++ p :: m.erase cl) := by
  induction m generalizing l p fuel with
  | nil => cases hcl
  | cons n m ih =>
    obtain ⟨fuel, rfl⟩ := Nat.exists_eq_succ_of_ne_zero (Nat.ne_zero_of_lt hf)
    by_cases hn : cl = n
    · subst hn
      rw [List.erase_cons_head]
      obtain ⟨sp', hb, hr, hq⟩ := qdelBody_leave h
      exact ⟨sp', run_leave hb fuel, hr, hq⟩
    · have hpass : qdelBody sp cl p = some (.inl n) := by
        simp only [qdelBody, h.next, List.head?_cons, if_neg hn]
      rw [List.erase_cons_tail (by simpa using Ne.symm hn), run_pass hpass]
      rw [List.append_cons] at h ⊢
      exact ih h (List.mem_of_ne_of_mem hn hcl) (Nat.le_of_succ_le_succ hf)

/-- The head is taken out without a scan, and keeps its next cell. -/
theorem qdel_head (h : Linked d sp (cl :: l)) (fuel : Nat) :
    ∃ sp', qdel fuel sp cl = some sp' ∧ Requeued sp sp' ∧ Linked (insert cl d) sp' l := by
  have hq : sp.q = some cl := h.head
  have hfind : qfind sp cl = true := (qfind_iff h (h.inside cl (by simp))).mpr (by simp)
  have hnext : (sp.cells cl).qn = l.head? := Linked.next (l := []) h
  have hprev : (sp.cells cl).qp = none := Linked.prev (l := []) h
  cases l with
  | nil =>
    rw [List.head?_nil] at hnext
    refine ⟨_, by simp only [qdel, hfind, hq, hnext]; rfl, (Requeued.refl sp).setq, ?_⟩
    refine Linked.remove (l := []) h (Set.subset_insert cl d) rfl rfl ?_ ?_ ?_
    · simp [hprev]
    · simp
    · simp
  | cons m l =>
    rw [List.head?_cons] at hnext
    have hmc : m ≠ cl := by
      rintro rfl
      simpa using h.nodup
    refine ⟨_, by simp only [qdel, hfind, hq, hnext]; rfl, ?_, ?_⟩
    · exact (Requeued.refl sp).setq.upd (fun _ => by rfl)
    · refine Linked.remove (l := []) h (Set.subset_insert cl d) rfl rfl ?_ ?_ ?_
      · simp [Shortpath.upd, hmc.symm, hprev]
      · intro i hi
        by_cases him : m = i
        · simp [Shortpath.upd, him]
        · simp [Shortpath.upd, Ne.symm him]
      · intro i hi
        by_cases him : m = i
        · simp [Shortpath.upd, him]
        · simp [Shortpath.upd, him, Ne.symm him]

/-- Whatever place the cell has in the queue, or none. Its cost does not matter. -/
theorem qdel_linked (h : Linked d sp l) (hin : cl < sp.size * sp.size) (hf : l.length ≤ fuel) :
    ∃ sp', qdel fuel sp cl = some sp' ∧ Requeued sp sp' ∧
      Linked (insert cl d) sp' (l.erase cl) := by
  by_cases hcl : cl ∈ l
  · cases l with
    | nil => cases hcl
    | cons n l =>
      by_cases hn : cl = n
      · subst hn
        rw [List.erase_cons_head]
        exact qdel_head h fuel
      · have hq : sp.q = some n := h.head
        have hfind := (qfind_iff h hin).mpr hcl
        rw [List.erase_cons_tail (by simpa using Ne.symm hn)]
        obtain ⟨sp', hrun, hr, hl⟩ := qdelBody_run (l := []) h (List.mem_of_ne_of_mem hn hcl)
          (Nat.le_of_succ_le hf)
        refine ⟨sp', ?_, hr, hl.mono (Set.subset_insert cl d)⟩
        simp only [qdel, hfind, hq, if_neg hn]
        exact hrun
  · have hfind : qfind sp cl = false := by
      rw [← Bool.not_eq_true, qfind_iff h hin]
      exact hcl
    refine ⟨sp, by simp only [qdel, hfind, if_pos], .refl sp, ?_⟩
    rw [List.erase_of_not_mem hcl]
    exact h.mono (Set.subset_insert cl d)

/-- Taking out a cell that is not queued does nothing. -/
theorem qdel_free (h : Queue sp l) (hcl : cl ∉ l) (hin : cl < sp.size * sp.size) (fuel : Nat) :
    qdel fuel sp cl = some sp := by
  have hq : sp.q ≠ some cl := by
    rw [h.head]
    exact fun he => hcl (List.mem_of_head? he)
  simp [qdel, qfind, hq, (h.free cl hin hcl).2]

end Oin17.Chals
