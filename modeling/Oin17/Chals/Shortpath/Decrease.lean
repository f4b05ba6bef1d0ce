import Mathlib.Data.Finset.Basic
import Oin17.Chals.Shortpath.Search
import Oin17.Lib.Rearrange
import Oin17.Lib.Run

namespace Oin17.Chals
open Loop Links Rearrange Run

def Small (c : Int) : Prop := -2 ^ 30 < c ∧ c < 2 ^ 30

instance (c : Int) : Decidable (Small c) := inferInstanceAs (Decidable (_ ∧ _))

/-- A call on the queue. The cost of the cell may change right before. -/
inductive QueueCall where
  | add (cl : Nat) (cost : Option Int)
  | pop
  | del (cl : Nat) (cost : Option Int)
  | decrease (cl : Nat) (cost : Int)

def Shortpath.recost (sp : Shortpath) (cl : Nat) : Option Int → Shortpath
  | none => sp
  | some cost => sp.upd cl fun c => { c with c := cost }

/-- How `search` lowers the cost of a neighbor, which may be queued or not. -/
def decrease (fuel : Nat) (sp : Shortpath) (nei : Nat) (cost : Int) : Option Shortpath := do
  let sp := sp.upd nei fun c => { c with c := cost }
  let sp ← qdel fuel sp nei
  qadd fuel sp nei

/-- The memory after a call, and the cells added and not yet removed. -/
def queueStep (fuel : Nat) (s : Shortpath × Finset Nat) :
    QueueCall → Option (Shortpath × Finset Nat)
  | .add cl cost => (qadd fuel (s.1.recost cl cost) cl).map fun sp => (sp, insert cl s.2)
  | .pop => match qpop s.1 with
    | (none, sp) => some (sp, s.2)
    | (some p, sp) => some (sp, s.2.erase p)
  | .del cl cost => (qdel fuel (s.1.recost cl cost) cl).map fun sp => (sp, s.2.erase cl)
  | .decrease cl cost => (decrease fuel s.1 cl cost).map fun sp => (sp, insert cl s.2)

/-- Only a cell that is not in the queue is added to it. -/
def Permitted (s : Shortpath × Finset Nat) : QueueCall → Prop
  | .add cl cost => cl < s.1.size * s.1.size ∧ cl ∉ s.2 ∧ ∀ c ∈ cost, Small c
  | .pop => True
  | .del cl cost => cl < s.1.size * s.1.size ∧ ∀ c ∈ cost, Small c
  | .decrease cl cost => cl < s.1.size * s.1.size ∧ Small cost

instance (s : Shortpath × Finset Nat) (call : QueueCall) : Decidable (Permitted s call) := by
  cases call <;> unfold Permitted <;> infer_instance

/-- No difference that `costcmp` takes of the two overflows an `int`. -/
def CmpFits (a b : Cell) : Prop :=
  (-2 ^ 31 ≤ a.c - b.c ∧ a.c - b.c < 2 ^ 31) ∧ (-2 ^ 31 ≤ a.y - b.y ∧ a.y - b.y < 2 ^ 31) ∧
    (-2 ^ 31 ≤ a.x - b.x ∧ a.x - b.x < 2 ^ 31)

/-- A doubly linked list in the order of `costcmp`, of the cells `held` and no other. -/
def Lists (sp : Shortpath) (held : Finset Nat) : Prop :=
  ∃ l, Linked Set.univ sp l ∧ l.Pairwise (Before sp) ∧ ∀ i, i ∈ l ↔ i ∈ held

/-- What the queue is between two calls. -/
structure QueueSound (sp : Shortpath) (held : Finset Nat) : Prop where
  list : Lists sp held
  find : ∀ i, i < sp.size * sp.size → (qfind sp i = true ↔ i ∈ held)
  pop : (qpop sp).1 = none ∧ held = ∅ ∨
    ∃ p ∈ held, (qpop sp).1 = some p ∧ ∀ i ∈ held, i ≠ p → Before sp p i
  fits : ∀ i j, i < sp.size * sp.size → j < sp.size * sp.size → CmpFits (sp.cells i) (sp.cells j)

section Order
variable {sp sp' : Shortpath} {l : List Nat}

theorem before_trans (hab : Before sp a b) (hbc : Before sp b c) : Before sp a c := by
  unfold Before costcmp at *
  split_ifs at * <;> omega

theorem Requeued.pairwise (hr : Requeued sp sp') (h : l.Pairwise (Before sp)) :
    l.Pairwise (Before sp') := by
  refine h.imp fun {a b} hab => ?_
  obtain ⟨hxa, hya, hca, -⟩ := hr.cell a
  obtain ⟨hxb, hyb, hcb, -⟩ := hr.cell b
  unfold Before costcmp at *
  rwa [hxa, hya, hca, hxb, hyb, hcb]

theorem pairwise_recost (h : l.Pairwise (Before sp)) (hcl : cl ∉ l) (cost : Option Int) :
    l.Pairwise (Before (sp.recost cl cost)) := by
  cases cost with
  | none => exact h
  | some cost =>
    refine h.imp_of_mem fun {a b} ha hb hab => ?_
    have hac : a ≠ cl := fun he => hcl (he ▸ ha)
    have hbc : b ≠ cl := fun he => hcl (he ▸ hb)
    simpa [Before, Shortpath.recost, Shortpath.upd, hac, hbc] using hab

end Order

/-- The cells are where `search_init` has put them, and their costs are small. -/
structure Priced (sp₀ sp : Shortpath) : Prop extends Placed sp₀ (fun _ => none) sp where
  small : ∀ i, i < sp₀.size * sp₀.size → Small (sp.cells i).c

section Calls
variable {sp₀ sp sp' : Shortpath} {cost : Option Int}

theorem Priced.requeued (h : Priced sp₀ sp) (hr : Requeued sp sp') : Priced sp₀ sp' := by
  refine ⟨h.toPlaced.requeued hr, fun i hi => ?_⟩
  rw [(hr.cell i).2.2.1]
  exact h.small i hi

theorem Priced.recost (h : Priced sp₀ sp) (hc : ∀ c ∈ cost, Small c) :
    Priced sp₀ (sp.recost cl cost) := by
  cases cost with
  | none => exact h
  | some cost =>
    have hp := h.toPlaced.upd (i := cl) (f := fun c => { c with c := cost }) fun _ =>
      ⟨rfl, rfl, rfl⟩
    refine ⟨hp, fun i hi => ?_⟩
    by_cases hic : i = cl
    · subst hic
      simpa [Shortpath.recost, Shortpath.upd] using hc cost rfl
    · simpa [Shortpath.recost, Shortpath.upd, hic] using h.small i hi

/-- Cells of one cost differ in their coordinates. -/
theorem Priced.total (h : Priced sp₀ sp) (ha : a < sp₀.size * sp₀.size)
    (hb : b < sp₀.size * sp₀.size) (hne : a ≠ b) : Before sp a b ∨ Before sp b a := by
  obtain ⟨hxa, hya, -⟩ := h.cells a ha
  obtain ⟨hxb, hyb, -⟩ := h.cells b hb
  have hne' : ¬ (row sp₀.size a = row sp₀.size b ∧ col sp₀.size a = col sp₀.size b) :=
    fun h => hne (cell_ext _ h.1 h.2)
  unfold Before costcmp
  rw [hxa, hya, hxb, hyb]
  split_ifs <;> omega

theorem Priced.fits (h : Priced sp₀ sp) (hs : sp₀.size ≤ 2 ^ 30) (hi : i < sp₀.size * sp₀.size)
    (hj : j < sp₀.size * sp₀.size) : CmpFits (sp.cells i) (sp.cells j) := by
  obtain ⟨hxi, hyi, -⟩ := h.cells i hi
  obtain ⟨hxj, hyj, -⟩ := h.cells j hj
  obtain ⟨hci, hci'⟩ := h.small i hi
  obtain ⟨hcj, hcj'⟩ := h.small j hj
  have hpos : 0 < sp₀.size := Nat.pos_of_ne_zero fun h0 => by simp [h0] at hi
  have hri := row_lt hi
  have hrj := row_lt hj
  have hki : col sp₀.size i < sp₀.size := Nat.mod_lt _ hpos
  have hkj : col sp₀.size j < sp₀.size := Nat.mod_lt _ hpos
  unfold CmpFits
  rw [hxi, hyi, hxj, hyj]
  omega

theorem Linked.recost (h : Linked d sp l) : Linked d (sp.recost cl cost) l := by
  cases cost with
  | none => exact h
  | some cost => exact h.upd (i := cl) (f := fun c => { c with c := cost }) fun _ => ⟨rfl, rfl⟩

/-- What every call keeps. -/
structure QueueKept (sp₀ sp : Shortpath) (held : Finset Nat) : Prop extends Priced sp₀ sp where
  list : Lists sp held

/-- Right after a change of cost the queue is in the order of the costs before. -/
theorem QueueKept.recost (h : QueueKept sp₀ sp held) (cl : Nat) (hc : ∀ c ∈ cost, Small c) :
    Priced sp₀ (sp.recost cl cost) ∧ ∃ l, Linked Set.univ (sp.recost cl cost) l ∧
      l.length ≤ sp₀.size * sp₀.size ∧ l.Pairwise (Before sp) ∧ ∀ i, i ∈ l ↔ i ∈ held := by
  obtain ⟨l, hl, hsorted, hmem⟩ := h.list
  have hlen := hl.length_le
  rw [h.size] at hlen
  exact ⟨h.toPriced.recost hc, l, hl.recost, hlen, hsorted, hmem⟩

theorem QueueKept.add (h : QueueKept sp₀ sp held) (hcl : cl < sp₀.size * sp₀.size) (hn : cl ∉ held)
    (hc : ∀ c ∈ cost, Small c) (hf : sp₀.size * sp₀.size < fuel) :
    ∃ sp', qadd fuel (sp.recost cl cost) cl = some sp' ∧ QueueKept sp₀ sp' (insert cl held) := by
  obtain ⟨hp, l, hl, hlen, hsorted, hmem⟩ := h.recost cl hc
  have hcll : cl ∉ l := fun hm => hn ((hmem cl).mp hm)
  obtain ⟨sp', hadd, hr, hq⟩ := qadd_linked hl hcll (by rw [hp.size]; exact hcl)
    (Nat.lt_of_le_of_lt hlen hf)
  refine ⟨sp', hadd, hp.requeued hr, _, hq, hr.pairwise ?_, fun i => ?_⟩
  · refine pairwise_orderedInsert (fun _ _ _ => before_trans) (pairwise_recost hsorted hcll cost) ?_
    intro i hi
    have hil := hl.inside i hi
    rw [hp.size] at hil
    exact hp.total hcl hil fun he => hcll (he ▸ hi)
  · rw [List.mem_orderedInsert, hmem, Finset.mem_insert]

theorem QueueKept.del (h : QueueKept sp₀ sp held) (hcl : cl < sp₀.size * sp₀.size)
    (hc : ∀ c ∈ cost, Small c) (hf : sp₀.size * sp₀.size < fuel) :
    ∃ sp', qdel fuel (sp.recost cl cost) cl = some sp' ∧ QueueKept sp₀ sp' (held.erase cl) := by
  obtain ⟨hp, l, hl, hlen, hsorted, hmem⟩ := h.recost cl hc
  obtain ⟨sp', hdel, hr, hq⟩ := qdel_linked hl (by rw [hp.size]; exact hcl)
    (Nat.le_of_lt (Nat.lt_of_le_of_lt hlen hf))
  refine ⟨sp', hdel, hp.requeued hr, _, hq.mono (Set.subset_univ _), hr.pairwise ?_, fun i => ?_⟩
  · -- the change of cost may have put `cl` out of order, but no other cell
    refine pairwise_recost (hsorted.sublist List.erase_sublist) ?_ cost
    exact hl.nodup.not_mem_erase
  · rw [hl.nodup.mem_erase_iff, Finset.mem_erase, hmem]

theorem QueueKept.decrease (h : QueueKept sp₀ sp held) (hcl : cl < sp₀.size * sp₀.size)
    (hc : Small c) (hf : sp₀.size * sp₀.size < fuel) :
    ∃ sp', decrease fuel sp cl c = some sp' ∧ QueueKept sp₀ sp' (insert cl held) := by
  have hnew : ∀ d ∈ some c, Small d := by simpa using hc
  have hsame : ∀ d ∈ (none : Option Int), Small d := by simp
  obtain ⟨sp₁, hdel, h₁⟩ := h.del hcl hnew hf
  obtain ⟨sp₂, hadd, h₂⟩ := h₁.add hcl (Finset.notMem_erase cl held) hsame hf
  have hheld : insert cl (held.erase cl) = insert cl held := by
    ext i
    by_cases hi : i = cl <;> simp [hi]
  rw [hheld] at h₂
  refine ⟨sp₂, ?_, h₂⟩
  simp only [Shortpath.recost] at hdel hadd
  simp only [Chals.decrease, hdel, Option.bind_eq_bind, Option.bind_some, hadd]

theorem QueueKept.pop (h : QueueKept sp₀ sp held) :
    qpop sp = (none, sp) ∧ held = ∅ ∨
      ∃ p sp', qpop sp = (some p, sp') ∧ p ∈ held ∧ (∀ i ∈ held, i ≠ p → Before sp p i) ∧
        QueueKept sp₀ sp' (held.erase p) := by
  obtain ⟨l, hl, hsorted, hmem⟩ := h.list
  cases l with
  | nil =>
    have hq : sp.q = none := hl.head
    refine Or.inl ⟨by simp only [qpop, hq], Finset.eq_empty_of_forall_notMem fun i hi => ?_⟩
    cases (hmem i).mpr hi
  | cons p l =>
    obtain ⟨sp', hpop, hr, hq⟩ := qpop_linked hl
    obtain ⟨hleast, hsorted⟩ := List.pairwise_cons.mp hsorted
    have hp := (List.nodup_cons.mp hl.nodup).1
    refine Or.inr ⟨p, sp', hpop, (hmem p).mp List.mem_cons_self, fun i hi hip => ?_,
      h.toPriced.requeued hr, l, hq, hr.pairwise hsorted, fun i => ?_⟩
    · exact hleast i (List.mem_of_ne_of_mem hip ((hmem i).mpr hi))
    · rw [Finset.mem_erase, ← hmem, List.mem_cons]
      constructor
      · intro hi
        exact ⟨fun he => hp (he ▸ hi), Or.inr hi⟩
      · rintro ⟨hip, hi⟩
        exact hi.resolve_left hip

theorem QueueKept.step (h : QueueKept sp₀ s.1 s.2) (hcall : Permitted s call)
    (hf : sp₀.size * sp₀.size < fuel) :
    ∃ t, queueStep fuel s call = some t ∧ QueueKept sp₀ t.1 t.2 := by
  cases call with
  | add cl cost =>
    obtain ⟨hcl, hn, hc⟩ := hcall
    rw [h.size] at hcl
    obtain ⟨sp', hadd, h'⟩ := h.add hcl hn hc hf
    exact ⟨_, by rw [queueStep, hadd]; rfl, h'⟩
  | pop =>
    rcases h.pop with ⟨hpop, -⟩ | ⟨p, sp', hpop, -, -, h'⟩
    · exact ⟨_, by rw [queueStep, hpop], h⟩
    · exact ⟨_, by rw [queueStep, hpop], h'⟩
  | del cl cost =>
    obtain ⟨hcl, hc⟩ := hcall
    rw [h.size] at hcl
    obtain ⟨sp', hdel, h'⟩ := h.del hcl hc hf
    exact ⟨_, by rw [queueStep, hdel]; rfl, h'⟩
  | decrease cl c =>
    obtain ⟨hcl, hc⟩ := hcall
    rw [h.size] at hcl
    obtain ⟨sp', hdec, h'⟩ := h.decrease hcl hc hf
    exact ⟨_, by rw [queueStep, hdec]; rfl, h'⟩

theorem QueueKept.sound (h : QueueKept sp₀ sp held) (hs : sp₀.size ≤ 2 ^ 30) :
    QueueSound sp held := by
  refine ⟨h.list, fun i hi => ?_, ?_, fun i j hi hj => ?_⟩
  · obtain ⟨l, hl, -, hmem⟩ := h.list
    rw [qfind_iff hl hi, hmem]
  · rcases h.pop with ⟨hpop, he⟩ | ⟨p, sp', hpop, hp, hleast, -⟩
    · exact Or.inl ⟨by rw [hpop], he⟩
    · exact Or.inr ⟨p, hp, by rw [hpop], hleast⟩
  · rw [h.size] at hi hj
    exact h.toPriced.fits hs hi hj

theorem searchInit_queue (hs : sp₀.size ≤ 2 ^ 30) : QueueKept sp₀ (searchInit sp₀) ∅ := by
  have hb : sp₀.size < 2 ^ 31 := by omega
  obtain ⟨hcells, hsp⟩ := searchInit_spec hb
  generalize searchInit sp₀ = sp at *
  refine ⟨⟨⟨by rw [hsp], by rw [hsp], by rw [hsp], by rw [hsp], ?_⟩, ?_⟩, [], ?_, .nil, by simp⟩
  · intro i hi
    rw [hcells i hi]
    exact ⟨rfl, rfl, rfl⟩
  · intro i hi
    rw [hcells i hi]
    exact (by decide : Small (-1))
  · refine ⟨by rw [hsp]; rfl, trivial, .nil, by simp, fun i hi _ => ?_⟩
    rw [hsp] at hi
    rw [hcells i hi]
    exact ⟨fun _ => rfl, rfl⟩

end Calls

/-- However the queue is used from the start of a search on, it stays what it is meant to be:
stale links of the cells that have left it do no harm. The coordinates of the cells are below
the size. -/
theorem queue_sound {sp₀ : Shortpath} (hs : sp₀.size ≤ 2 ^ 30) (hf : sp₀.size * sp₀.size < fuel)
    {calls : List QueueCall}
    (hcalls : Each (queueStep fuel) Permitted (searchInit sp₀, ∅) calls) :
    (∃ t, exec (queueStep fuel) (searchInit sp₀, ∅) calls = some t) ∧
      Always (queueStep fuel) (fun s => QueueSound s.1 s.2) (searchInit sp₀, ∅) calls :=
  each_always (fun s => QueueKept sp₀ s.1 s.2) _ _ (fun _ _ h hcall => h.step hcall hf)
    (fun _ h => h.sound hs) (searchInit_queue hs) hcalls

/-- A grid in which the last search has left its links. -/
def staleGrid : Shortpath where
  max := 2
  size := 2
  grid := fun _ => 32
  sol := fun _ => 0
  cells := fun _ => { x := 0, y := 0, c := 5, p := none, qn := some 1, qp := some 3 }
  q := some 2
  src := 0
  dst := 3

/-- The cell 0 is taken out at the head, then queued again with the next cell it has kept. -/
def staleCalls : List QueueCall :=
  [.add 0 (some 0), .add 3 (some 7), .add 1 (some 1), .decrease 3 1, .del 0 (some 9),
    .decrease 0 0, .pop, .pop, .del 1 none]

theorem queue_sound_stale :
    (∃ t, exec (queueStep 5) (searchInit staleGrid, ∅) staleCalls = some t) ∧
      Always (queueStep 5) (fun s => QueueSound s.1 s.2) (searchInit staleGrid, ∅) staleCalls :=
  queue_sound (by decide) (by decide) (by decide +kernel)

end Oin17.Chals
